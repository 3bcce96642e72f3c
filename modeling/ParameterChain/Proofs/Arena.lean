/-
# Parameters in an arena

A graph keeps the parameters of a file in that file.  An *arena* keeps all parameters of all
files side by side, and a file has an index, by which a key leads to the place of a parameter
among them.  An edit of a name that the file has already overwrites the parameter at its place;
any other parameter is put at the end.  A place, once given, is the identity of a parameter.

What an arena stands for is a graph (`Arena.graph`), and each operation on arenas stands for the
operation of that name on graphs.  This holds of *sound* arenas only: if a place were shared, an
edit of one file would change what another file declares.

Main statements: for each operation, what graph it leads to and that it keeps an arena sound;
`Sound.insert` and `Sound.setParent` are those with an argument in them.
-/
import Mathlib.Order.WellFounded
import ParameterChain.Proofs.Linearization
import ParameterChain.Proofs.Rows

namespace ParameterChain

/-- The place of a parameter in an arena. -/
abbrev ParameterId := Nat

/-- One file and the places of the parameters resolved from it. -/
structure ArenaFile where
  name : String
  /-- The next file of the chain, once there is a chain. -/
  parent : Option FileId := none
  includes : List FileId := []
  index : List (Key × ParameterId) := []

/-- The files, and the parameters of all of them. -/
structure Arena where
  files : Array ArenaFile := #[{ name := transientName }]
  parameters : Array Parameter := #[]
  features : List TimeFeature := []
  clock : Float := 0

/-- The file with the parameters themselves. -/
def ArenaFile.resolved (file : ArenaFile) (parameters : Array Parameter) : SourceFile where
  name := file.name
  parent := file.parent
  includes := file.includes
  parameters := file.index.filterMap fun row => parameters[row.2]?

namespace Arena

/-! ## Views -/

def parentOf? (a : Arena) (f : FileId) : Option FileId :=
  a.files[f]?.bind ArenaFile.parent

def includesOf (a : Arena) (f : FileId) : List FileId :=
  match a.files[f]? with
  | some file => file.includes
  | none => []

def indexOf (a : Arena) (f : FileId) : List (Key × ParameterId) :=
  match a.files[f]? with
  | some file => file.index
  | none => []

/-- The place of the parameter that file `f` itself declares under key `k`. -/
def idOf? (a : Arena) (f : FileId) (k : Key) : Option ParameterId :=
  (rowOf? Prod.fst k (a.indexOf f)).map Prod.snd

/-- The graph that an arena stands for. -/
def graph (a : Arena) : Graph where
  files := a.files.map (·.resolved a.parameters)
  features := a.features
  clock := a.clock

/-! ## Operations -/

/-- Add a file; its position is the number of files before. -/
def addFile (a : Arena) (name : String) (includes : List FileId) : Arena :=
  { a with files := a.files.push { name, includes } }

def setIncludes (a : Arena) (f : FileId) (includes : List FileId) : Arena :=
  { a with files := a.files.modify f fun file => { file with includes } }

/-- Give the file `f` a parent, or none. -/
def setParent (a : Arena) (f : FileId) (parent : Option FileId) : Arena :=
  { a with files := a.files.modify f fun file => { file with parent } }

/-- Put a parameter in the place of another. -/
def overwrite (a : Arena) (id : ParameterId) (p : Parameter) : Arena :=
  { a with parameters := a.parameters.setIfInBounds id p }

/-- Put a parameter at the end and enter its place in the index of the file `f`. -/
def append (a : Arena) (f : FileId) (p : Parameter) : Arena :=
  { a with
    parameters := a.parameters.push p
    files := a.files.modify f fun file =>
      { file with index := file.index ++ [(p.key, a.parameters.size)] } }

/-- Store a parameter in the file `f`, in place of an earlier one of the same name. -/
def insert (a : Arena) (f : FileId) (p : Parameter) : Arena :=
  match a.idOf? f p.key with
  | some id => a.overwrite id p
  | none => a.append f p

/-- Store a time feature, in place of an earlier one of the same base. -/
def storeFeature (a : Arena) (x : TimeFeature) : Arena :=
  { a with features := put TimeFeature.key x a.features }

def setClock (a : Arena) (t : Float) : Arena :=
  { a with clock := t }

/-! ## Sound arenas -/

/-- The parent of `f` is `p`. -/
def Above (a : Arena) (p f : FileId) : Prop :=
  a.parentOf? f = some p

/-- The parameters of an arena are where its files say. -/
structure Filed (a : Arena) : Prop where
  /-- A file says one thing about a key. -/
  keyed : ∀ f, ((a.indexOf f).map Prod.fst).Nodup
  /-- A key of a file leads to a parameter of this name, declared in this file. -/
  indexed : ∀ f k id, a.idOf? f k = some id →
    ∃ p, a.parameters[id]? = some p ∧ p.key = k ∧ p.file = f
  /-- Every place is that of a key of a file. -/
  owned : ∀ id < a.parameters.size, ∃ f k, a.idOf? f k = some id

/-- The files of an arena lead to files of it, and never back. -/
structure Connected (a : Arena) : Prop where
  nonempty : 0 < a.files.size
  parents : ∀ f p, a.parentOf? f = some p → p < a.files.size
  /-- Only the transient file may include files that come after it. -/
  includes : ∀ f i, i ∈ a.includesOf f →
    i ≠ transientFile ∧ i < a.files.size ∧ (f ≠ transientFile → i < f)
  /-- Going up the parents comes to an end from every file. -/
  climbable : WellFounded a.Above

structure Sound (a : Arena) : Prop extends Filed a, Connected a

variable {a a' : Arena} {f h i : FileId} {k : Key} {id : ParameterId} {p : Parameter}

/-! ## Views of the graph -/

theorem getElem?_graph (a : Arena) (f : FileId) :
    a.graph.files[f]? = a.files[f]?.map (·.resolved a.parameters) := by
  rw [graph, Array.getElem?_map]

@[simp] theorem size_graph (a : Arena) : a.graph.files.size = a.files.size := by
  simp [graph]

@[simp] theorem parentOf?_graph (a : Arena) (f : FileId) :
    a.graph.parentOf? f = a.parentOf? f := by
  rw [Graph.parentOf?, getElem?_graph, parentOf?]
  cases a.files[f]? <;> rfl

@[simp] theorem includesOf_graph (a : Arena) (f : FileId) :
    a.graph.includesOf f = a.includesOf f := by
  rw [Graph.includesOf, getElem?_graph, includesOf]
  cases a.files[f]? <;> rfl

theorem parametersOf_graph (a : Arena) (f : FileId) :
    a.graph.parametersOf f = (a.indexOf f).filterMap fun row => a.parameters[row.2]? := by
  rw [Graph.parametersOf, getElem?_graph, indexOf]
  cases a.files[f]? <;> rfl

theorem Connected.ordered (ha : a.Connected) : a.graph.Ordered where
  nonempty := by
    rw [size_graph]
    exact ha.nonempty
  lower := by
    intro f i hi
    obtain ⟨hne, hlt, hbefore⟩ := ha.includes f i (includesOf_graph a f ▸ hi)
    refine ⟨hne, ?_⟩
    rw [Graph.rank, size_graph]
    split
    · exact hlt
    · next hf => exact hbefore hf

/-- No file is above itself. -/
theorem Connected.not_above (ha : a.Connected) (f : FileId) :
    ¬ Relation.TransGen a.Above f f :=
  ha.climbable.transGen.irrefl.irrefl f

/-! ## Places -/

theorem idOf?_eq_some (hkeys : ((a.indexOf f).map Prod.fst).Nodup) :
    a.idOf? f k = some id ↔ (k, id) ∈ a.indexOf f := by
  rw [idOf?, Option.map_eq_some_iff]
  constructor
  · rintro ⟨row, hrow, rfl⟩
    obtain ⟨hmem, rfl⟩ := (rowOf?_eq_some hkeys).mp hrow
    exact hmem
  · intro hmem
    exact ⟨(k, id), (rowOf?_eq_some hkeys).mpr ⟨hmem, rfl⟩, rfl⟩

theorem Filed.mem_indexOf (ha : a.Filed) : (k, id) ∈ a.indexOf f ↔ a.idOf? f k = some id :=
  (idOf?_eq_some (ha.keyed f)).symm

/-- A row of an index leads to a parameter of its file and key. -/
theorem Filed.exists_of_mem (ha : a.Filed) {row : Key × ParameterId} (hrow : row ∈ a.indexOf f) :
    ∃ p, a.parameters[row.2]? = some p ∧ p.key = row.1 ∧ p.file = f :=
  ha.indexed f row.1 row.2 (ha.mem_indexOf.mp hrow)

theorem Filed.lt_size (ha : a.Filed) (hid : a.idOf? f k = some id) : id < a.parameters.size := by
  obtain ⟨p, hp, -, -⟩ := ha.indexed f k id hid
  exact (Array.getElem?_eq_some_iff.mp hp).1

/-- No two keys or files share a place. -/
theorem Filed.slot_unique (ha : a.Filed) {f' : FileId} {k' : Key} (hid : a.idOf? f k = some id)
    (hid' : a.idOf? f' k' = some id) : f = f' ∧ k = k' := by
  obtain ⟨p, hp, hkey, hfile⟩ := ha.indexed f k id hid
  obtain ⟨p', hp', hkey', hfile'⟩ := ha.indexed f' k' id hid'
  cases hp.symm.trans hp'
  exact ⟨hfile.symm.trans hfile', hkey.symm.trans hkey'⟩

/-- Looking a key up in rows of places is looking it up in the parameters at these. -/
theorem rowOf?_filterMap {parameters : Array Parameter} {rows : List (Key × ParameterId)}
    (hrows : ∀ row ∈ rows, ∃ p, parameters[row.2]? = some p ∧ p.key = row.1) (k : Key) :
    rowOf? Parameter.key k (rows.filterMap fun row => parameters[row.2]?) =
      (rowOf? Prod.fst k rows).bind fun row => parameters[row.2]? := by
  induction rows with
  | nil => rfl
  | cons row rows ih =>
    obtain ⟨p, hp, hkey⟩ := hrows row List.mem_cons_self
    have ih := ih fun row hrow => hrows row (List.mem_cons_of_mem _ hrow)
    rw [List.filterMap_cons, hp]
    by_cases hk : row.1 = k
    · simp [rowOf?, hk, hkey, hp]
    · simp only [rowOf?] at ih
      simp [rowOf?, hk, hkey, ih]

/-- What a file declares under a key is at the place to which the key leads. -/
theorem Filed.declared?_graph (ha : a.Filed) (f : FileId) (k : Key) :
    (a.idOf? f k).map (a.parameters[·]?) = (a.graph.declared? f k).map some := by
  rw [Graph.declared?, parametersOf_graph, rowOf?_filterMap]
  · cases hrow : rowOf? Prod.fst k (a.indexOf f) with
    | none => rw [idOf?, hrow]; rfl
    | some row =>
      obtain ⟨p, hp, -, -⟩ := ha.exists_of_mem (mem_of_rowOf? hrow)
      rw [idOf?, hrow, Option.map_some, Option.map_some, Option.bind_some, hp, Option.map_some]
  · intro row hrow
    obtain ⟨p, hp, hkey, -⟩ := ha.exists_of_mem hrow
    exact ⟨p, hp, hkey⟩

theorem Filed.declared?_cases (ha : a.Filed) (f : FileId) (k : Key) :
    (∃ id p, a.idOf? f k = some id ∧ a.parameters[id]? = some p ∧
      a.graph.declared? f k = some p) ∨
    a.idOf? f k = none ∧ a.graph.declared? f k = none := by
  have hdeclared := ha.declared?_graph f k
  cases hid : a.idOf? f k with
  | none =>
    rw [hid, Option.map_none, eq_comm, Option.map_eq_none_iff] at hdeclared
    exact Or.inr ⟨rfl, hdeclared⟩
  | some id =>
    rw [hid, Option.map_some, eq_comm, Option.map_eq_some_iff] at hdeclared
    obtain ⟨p, hp, hplace⟩ := hdeclared
    exact Or.inl ⟨id, p, rfl, hplace.symm, hp⟩

/-! ## What does not concern a view -/

theorem Filed.congr (ha : a.Filed) (hparameters : a'.parameters = a.parameters)
    (hindex : ∀ f, a'.indexOf f = a.indexOf f) : a'.Filed := by
  have hid : ∀ f k, a'.idOf? f k = a.idOf? f k := by
    intro f k
    rw [idOf?, idOf?, hindex]
  refine ⟨?_, ?_, ?_⟩
  · intro f
    rw [hindex]
    exact ha.keyed f
  · intro f k id hk
    rw [hparameters]
    exact ha.indexed f k id (hid f k ▸ hk)
  · intro id hlt
    rw [hparameters] at hlt
    obtain ⟨f, k, hk⟩ := ha.owned id hlt
    exact ⟨f, k, (hid f k).trans hk⟩

theorem above_congr (hparent : ∀ f, a'.parentOf? f = a.parentOf? f) : a'.Above = a.Above := by
  funext p f
  rw [Above, Above, hparent]

theorem Connected.congr (ha : a.Connected) (hsize : a'.files.size = a.files.size)
    (hparent : ∀ f, a'.parentOf? f = a.parentOf? f)
    (hincludes : ∀ f, a'.includesOf f = a.includesOf f) : a'.Connected := by
  have habove := above_congr hparent
  refine ⟨hsize ▸ ha.nonempty, ?_, ?_, habove ▸ ha.climbable⟩
  · intro f p hp
    rw [hsize]
    exact ha.parents f p (hparent f ▸ hp)
  · intro f i hi
    rw [hsize]
    exact ha.includes f i (hincludes f ▸ hi)

/-- The arena with the transient file alone. -/
theorem sound_empty : Sound {} := by
  have hindex : ∀ f, indexOf {} f = [] := by
    intro f
    cases f <;> rfl
  have hid : ∀ f k, idOf? {} f k = none := by
    intro f k
    rw [idOf?, hindex]
    rfl
  have hparent : ∀ f, parentOf? {} f = none := by
    intro f
    cases f <;> rfl
  refine ⟨⟨?_, ?_, ?_⟩, ⟨Nat.one_pos, ?_, ?_, ?_⟩⟩
  · intro f
    rw [hindex]
    exact List.nodup_nil
  · intro f k id hk
    rw [hid] at hk
    cases hk
  · exact fun id hlt => absurd hlt (Nat.not_lt_zero id)
  · intro f p hp
    rw [hparent] at hp
    cases hp
  · intro f i hi
    cases f <;> exact absurd hi List.not_mem_nil
  · refine ⟨fun f => ⟨f, ?_⟩⟩
    intro p hp
    rw [Above, hparent] at hp
    cases hp

/-! ## New files and includes -/

theorem graph_empty : ({} : Arena).graph = {} := by
  simp [graph, ArenaFile.resolved]

section AddFile

variable (a : Arena) (name : String) (includes : List FileId)

theorem graph_addFile : (a.addFile name includes).graph = a.graph.addFile name includes := by
  simp only [graph, addFile, Graph.addFile, Array.map_push]
  rfl

theorem indexOf_addFile (h : FileId) : (a.addFile name includes).indexOf h = a.indexOf h := by
  simp only [indexOf, addFile, Array.getElem?_push]
  by_cases heq : h = a.files.size
  · subst heq
    simp only [if_true, Array.getElem?_eq_none (Nat.le_refl _)]
  · simp only [if_neg heq]

end AddFile

theorem Sound.addFile (ha : a.Sound) (name : String) {includes : List FileId}
    (hincludes : ∀ i ∈ includes, i ≠ transientFile ∧ i < a.files.size) :
    (a.addFile name includes).Sound := by
  have hsize : (a.addFile name includes).files.size = a.files.size + 1 := Array.size_push _
  have hparent : ∀ h, (a.addFile name includes).parentOf? h = a.parentOf? h := by
    intro h
    rw [← parentOf?_graph, graph_addFile, Graph.parentOf?_addFile, parentOf?_graph]
  refine ⟨ha.toFiled.congr rfl (indexOf_addFile a name includes),
    ⟨hsize ▸ Nat.succ_pos _, ?_, ?_, above_congr hparent ▸ ha.climbable⟩⟩
  · intro f p hp
    rw [hsize]
    exact Nat.lt_succ_of_lt (ha.parents f p (hparent f ▸ hp))
  · intro f i hi
    rw [hsize]
    rw [← includesOf_graph, graph_addFile, Graph.includesOf_addFile, size_graph] at hi
    split at hi
    · next heq =>
      obtain ⟨hne, hlt⟩ := hincludes i hi
      exact ⟨hne, Nat.lt_succ_of_lt hlt, fun _ => heq ▸ hlt⟩
    · obtain ⟨hne, hlt, hbefore⟩ := ha.includes f i (includesOf_graph a f ▸ hi)
      exact ⟨hne, Nat.lt_succ_of_lt hlt, hbefore⟩

section SetIncludes

variable (a : Arena) (f : FileId) (includes : List FileId)

theorem graph_setIncludes :
    (a.setIncludes f includes).graph = a.graph.setIncludes f includes := by
  refine Graph.eq_of_files ?_ rfl rfl
  intro h
  rw [getElem?_graph, setIncludes, Graph.setIncludes, Array.getElem?_modify,
    Array.getElem?_modify, getElem?_graph]
  by_cases heq : f = h
  · simp only [if_pos heq, Option.map_map]
    rfl
  · simp only [if_neg heq]

theorem indexOf_setIncludes (h : FileId) :
    (a.setIncludes f includes).indexOf h = a.indexOf h := by
  simp only [indexOf, setIncludes, Array.getElem?_modify]
  by_cases heq : f = h
  · rw [if_pos heq]
    cases a.files[h]? <;> rfl
  · rw [if_neg heq]

end SetIncludes

theorem Sound.setIncludes (ha : a.Sound) {top : FileId}
    (htop : top ≠ transientFile ∧ top < a.files.size) :
    (a.setIncludes transientFile [top]).Sound := by
  have hsize : (a.setIncludes transientFile [top]).files.size = a.files.size :=
    Array.size_modify
  have hparent : ∀ h, (a.setIncludes transientFile [top]).parentOf? h = a.parentOf? h := by
    intro h
    rw [← parentOf?_graph, graph_setIncludes, Graph.parentOf?_setIncludes, parentOf?_graph]
  refine ⟨ha.toFiled.congr rfl (indexOf_setIncludes a transientFile [top]),
    ⟨hsize ▸ ha.nonempty, ?_, ?_, above_congr hparent ▸ ha.climbable⟩⟩
  · intro f p hp
    rw [hsize]
    exact ha.parents f p (hparent f ▸ hp)
  · intro f i hi
    rw [hsize]
    rw [← includesOf_graph, graph_setIncludes,
      Graph.includesOf_setIncludes _ _ _ _ (by rw [size_graph]; exact ha.nonempty)] at hi
    split at hi
    · next heq =>
      rw [List.mem_singleton.mp hi]
      exact ⟨htop.1, htop.2, fun hne => absurd heq hne⟩
    · exact ha.includes f i (includesOf_graph a f ▸ hi)

/-! ## Features and the clock -/

theorem graph_storeFeature (a : Arena) (x : TimeFeature) :
    (a.storeFeature x).graph = a.graph.storeFeature x :=
  rfl

theorem graph_setClock (a : Arena) (t : Float) :
    (a.setClock t).graph = { a.graph with clock := t } :=
  rfl

theorem Sound.storeFeature (ha : a.Sound) (x : TimeFeature) : (a.storeFeature x).Sound :=
  ⟨ha.toFiled.congr rfl fun _ => rfl, ha.toConnected.congr rfl (fun _ => rfl) fun _ => rfl⟩

theorem Sound.setClock (ha : a.Sound) (t : Float) : (a.setClock t).Sound :=
  ⟨ha.toFiled.congr rfl fun _ => rfl, ha.toConnected.congr rfl (fun _ => rfl) fun _ => rfl⟩

/-! ## Parents -/

section SetParent

variable (a : Arena) (f : FileId) (parent : Option FileId)

theorem graph_setParent : (a.setParent f parent).graph = a.graph.setParent f parent := by
  refine Graph.eq_of_files ?_ rfl rfl
  intro h
  rw [getElem?_graph, setParent, Graph.setParent, Array.getElem?_modify,
    Array.getElem?_modify, getElem?_graph]
  by_cases heq : f = h
  · simp only [if_pos heq, Option.map_map]
    rfl
  · simp only [if_neg heq]

theorem size_setParent : (a.setParent f parent).files.size = a.files.size :=
  Array.size_modify

theorem indexOf_setParent (h : FileId) : (a.setParent f parent).indexOf h = a.indexOf h := by
  simp only [indexOf, setParent, Array.getElem?_modify]
  by_cases heq : f = h
  · rw [if_pos heq]
    cases a.files[h]? <;> rfl
  · rw [if_neg heq]

theorem includesOf_setParent (h : FileId) :
    (a.setParent f parent).includesOf h = a.includesOf h := by
  simp only [includesOf, setParent, Array.getElem?_modify]
  by_cases heq : f = h
  · rw [if_pos heq]
    cases a.files[h]? <;> rfl
  · rw [if_neg heq]

theorem parentOf?_setParent (hf : f < a.files.size) (h : FileId) :
    (a.setParent f parent).parentOf? h = if f = h then parent else a.parentOf? h := by
  simp only [parentOf?, setParent, Array.getElem?_modify]
  by_cases heq : f = h
  · subst heq
    simp only [if_true, Array.getElem?_eq_getElem hf, Option.map_some, Option.bind_some]
  · simp only [if_neg heq]

end SetParent

/-- One more link, from a file that is not above the file it is linked to, leaves every climb
with an end. -/
theorem wellFounded_of_link {α : Type} {R R' : α → α → Prop} {f p : α} (hR : WellFounded R)
    (hlink : ∀ q h, R' q h → R q h ∨ h = f ∧ q = p) (hnot : ¬ Relation.ReflTransGen R f p) :
    WellFounded R' := by
  -- A climb that does not come by `f` takes old links only.
  have hclear : ∀ x, ¬ Relation.ReflTransGen R f x → Acc R' x := by
    intro x
    induction x using hR.induction with
    | h x ih =>
    intro hx
    refine ⟨x, fun q hq => ?_⟩
    rcases hlink q x hq with hold | ⟨rfl, -⟩
    · exact ih q hold fun hf => hx (hf.tail hold)
    · exact absurd .refl hx
  refine ⟨fun x => ?_⟩
  induction x using hR.induction with
  | h x ih =>
  refine ⟨x, fun q hq => ?_⟩
  rcases hlink q x hq with hold | ⟨-, rfl⟩
  · exact ih q hold
  · exact hclear q hnot

/-- A file may lose its parent, or be given one that it is not above. -/
theorem Sound.setParent (ha : a.Sound) (hf : f < a.files.size) {parent : Option FileId}
    (hparent : ∀ p ∈ parent, p < a.files.size ∧ ¬ Relation.ReflTransGen a.Above f p) :
    (a.setParent f parent).Sound := by
  have hnew : ∀ q h, (a.setParent f parent).Above q h →
      (f = h ∧ parent = some q) ∨ a.Above q h := by
    intro q h hq
    rw [Above, parentOf?_setParent a f parent hf] at hq
    split at hq
    · next heq => exact Or.inl ⟨heq, hq⟩
    · exact Or.inr hq
  have hsize := size_setParent a f parent
  refine ⟨ha.toFiled.congr rfl (indexOf_setParent a f parent), ⟨hsize ▸ ha.nonempty, ?_, ?_, ?_⟩⟩
  · intro h q hq
    rw [hsize]
    rcases hnew q h hq with ⟨-, heq⟩ | hold
    · exact (hparent q heq).1
    · exact ha.parents h q hold
  · intro h i hi
    rw [hsize]
    exact ha.includes h i (includesOf_setParent a f parent h ▸ hi)
  · cases parent with
    | none =>
      refine Subrelation.wf (r := a.Above) ?_ ha.climbable
      intro q h hq
      rcases hnew q h hq with ⟨-, heq⟩ | hold
      · cases heq
      · exact hold
    | some p =>
      refine wellFounded_of_link (f := f) (p := p) ha.climbable ?_ (hparent p rfl).2
      intro q h hq
      rcases hnew q h hq with ⟨rfl, heq⟩ | hold
      · exact Or.inr ⟨rfl, (Option.some.inj heq).symm⟩
      · exact Or.inl hold

/-! ## Stored parameters -/

section Insert

variable {parameters parameters' : Array Parameter} {rows : List (Key × ParameterId)}

theorem resolved_congr {file : ArenaFile}
    (hsame : ∀ row ∈ file.index, parameters'[row.2]? = parameters[row.2]?) :
    file.resolved parameters' = file.resolved parameters := by
  rw [ArenaFile.resolved, ArenaFile.resolved, List.filterMap_congr hsame]

/-- To overwrite the parameter at the place of a key is to put the new one under the key. -/
theorem filterMap_setIfInBounds
    (hrows : ∀ row ∈ rows, ∃ q, parameters[row.2]? = some q ∧ q.key = row.1)
    (hkeys : (rows.map Prod.fst).Nodup) (hid : ∀ row ∈ rows, row.2 = id ↔ row.1 = p.key)
    (hlt : id < parameters.size) (hmem : p.key ∈ rows.map Prod.fst) :
    rows.filterMap (fun row => (parameters.setIfInBounds id p)[row.2]?) =
      put Parameter.key p (rows.filterMap fun row => parameters[row.2]?) := by
  have hkept : ∀ row ∈ rows, row.1 ≠ p.key →
      (parameters.setIfInBounds id p)[row.2]? = parameters[row.2]? := by
    intro row hrow hne
    rw [Array.getElem?_setIfInBounds, if_neg fun heq => hne ((hid row hrow).mp heq.symm)]
  induction rows with
  | nil => exact absurd hmem List.not_mem_nil
  | cons row rows ih =>
    obtain ⟨q, hq, hkey⟩ := hrows row List.mem_cons_self
    obtain ⟨hfresh, hkeys⟩ := List.nodup_cons.mp hkeys
    by_cases hk : row.1 = p.key
    · have hplace : row.2 = id := (hid row List.mem_cons_self).mpr hk
      have hrest : rows.filterMap (fun row => (parameters.setIfInBounds id p)[row.2]?) =
          rows.filterMap fun row => parameters[row.2]? := by
        refine List.filterMap_congr ?_
        intro row' hrow'
        refine hkept row' (List.mem_cons_of_mem _ hrow') ?_
        intro heq
        exact hfresh (hk ▸ heq ▸ List.mem_map_of_mem hrow')
      rw [List.filterMap_cons, List.filterMap_cons, hq, hrest, hplace,
        Array.getElem?_setIfInBounds, if_pos rfl, if_pos hlt]
      simp only [put, hkey, hk, if_true]
    · have hmem : p.key ∈ rows.map Prod.fst :=
        (List.mem_cons.mp hmem).resolve_left fun heq => hk heq.symm
      rw [List.filterMap_cons, List.filterMap_cons, hkept row List.mem_cons_self hk, hq]
      simp only [put, hkey, if_neg hk]
      rw [ih (fun row hrow => hrows row (List.mem_cons_of_mem _ hrow)) hkeys
        (fun row hrow => hid row (List.mem_cons_of_mem _ hrow)) hmem
        fun row hrow => hkept row (List.mem_cons_of_mem _ hrow)]

end Insert

theorem indexOf_of_getElem? {file : ArenaFile} (hfile : a.files[h]? = some file) :
    a.indexOf h = file.index := by
  rw [indexOf, hfile]

/-- The place of a key is that of no other row of its index. -/
theorem Filed.place_iff (ha : a.Filed) (hid : a.idOf? f k = some id) {row : Key × ParameterId}
    (hrow : row ∈ a.indexOf f) : row.2 = id ↔ row.1 = k := by
  have hrow : a.idOf? f row.1 = some row.2 := ha.mem_indexOf.mp hrow
  constructor
  · intro heq
    exact (ha.slot_unique (heq ▸ hrow) hid).2
  · intro heq
    exact Option.some.inj (hrow.symm.trans (heq ▸ hid))

theorem graph_overwrite (ha : a.Filed) (hid : a.idOf? f p.key = some id) (hp : p.file = f) :
    (a.overwrite id p).graph = a.graph.store p := by
  refine Graph.eq_of_files ?_ rfl rfl
  intro h
  rw [getElem?_graph, overwrite, Graph.store, Array.getElem?_modify, getElem?_graph, hp]
  cases hfile : a.files[h]? with
  | none => simp
  | some file =>
    have hindex := indexOf_of_getElem? hfile
    simp only [Option.map_some]
    split
    · next heq =>
      subst heq
      have hmem := hindex ▸ ha.mem_indexOf.mpr hid
      have hplace : ∀ row ∈ file.index, row.2 = id ↔ row.1 = p.key :=
        fun row hrow => ha.place_iff hid (hindex ▸ hrow)
      refine congrArg some ?_
      rw [ArenaFile.resolved, ArenaFile.resolved, filterMap_setIfInBounds ?_
        (hindex ▸ ha.keyed f) hplace (ha.lt_size hid) (List.mem_map_of_mem hmem)]
      intro row hrow
      obtain ⟨q, hq, hkey, -⟩ := ha.exists_of_mem (hindex ▸ hrow)
      exact ⟨q, hq, hkey⟩
    · next hne =>
      refine congrArg some (resolved_congr ?_)
      intro row hrow
      have hrow : a.idOf? h row.1 = some row.2 := ha.mem_indexOf.mp (hindex ▸ hrow)
      rw [Array.getElem?_setIfInBounds, if_neg]
      rintro rfl
      exact hne (ha.slot_unique hid hrow).1

/-- What is put at the end is not in the way of what was there. -/
theorem Filed.getElem?_push (ha : a.Filed) {file : ArenaFile} (hfile : a.files[h]? = some file)
    (p : Parameter) : ∀ row ∈ file.index,
      (a.parameters.push p)[row.2]? = a.parameters[row.2]? := by
  intro row hrow
  have hrow : a.idOf? h row.1 = some row.2 :=
    ha.mem_indexOf.mp (indexOf_of_getElem? hfile ▸ hrow)
  rw [Array.getElem?_push, if_neg (Nat.ne_of_lt (ha.lt_size hrow))]

theorem graph_append (ha : a.Filed) (hid : a.idOf? f p.key = none) (hp : p.file = f) :
    (a.append f p).graph = a.graph.store p := by
  refine Graph.eq_of_files ?_ rfl rfl
  intro h
  rw [getElem?_graph, append, Graph.store, Array.getElem?_modify, Array.getElem?_modify,
    getElem?_graph, hp]
  cases hfile : a.files[h]? with
  | none => simp
  | some file =>
    have hpushed := ha.getElem?_push hfile p
    simp only [Option.map_some]
    split
    · next heq =>
      subst heq
      have hfree : rowOf? Parameter.key p.key
          (file.index.filterMap fun row => a.parameters[row.2]?) = none := by
        rw [← indexOf_of_getElem? hfile, ← parametersOf_graph]
        rcases ha.declared?_cases f p.key with ⟨id, q, hsome, -, -⟩ | ⟨-, hnone⟩
        · cases hid.symm.trans hsome
        · exact hnone
      refine congrArg some ?_
      simp only [ArenaFile.resolved]
      rw [put_eq_append hfree, List.filterMap_append, List.filterMap_congr hpushed]
      simp
    · exact congrArg some (resolved_congr hpushed)

/-- In the graph the parameter takes the place of an earlier one of its name. -/
theorem graph_insert (ha : a.Filed) (hp : p.file = f) :
    (a.insert f p).graph = a.graph.store p := by
  rw [insert]
  cases hid : a.idOf? f p.key with
  | some id => exact graph_overwrite ha hid hp
  | none => exact graph_append ha hid hp

theorem Filed.overwrite (ha : a.Filed) (hid : a.idOf? f p.key = some id) (hp : p.file = f) :
    (a.overwrite id p).Filed := by
  refine ⟨ha.keyed, ?_, ?_⟩
  · intro f' k' id' hid'
    have hid' : a.idOf? f' k' = some id' := hid'
    rw [Arena.overwrite, Array.getElem?_setIfInBounds]
    split
    · next heq =>
      subst heq
      obtain ⟨rfl, rfl⟩ := ha.slot_unique hid hid'
      rw [if_pos (ha.lt_size hid)]
      exact ⟨p, rfl, rfl, hp⟩
    · exact ha.indexed f' k' id' hid'
  · intro id' hlt
    rw [Arena.overwrite, Array.size_setIfInBounds] at hlt
    exact ha.owned id' hlt

theorem indexOf_append (a : Arena) (hf : f < a.files.size) (p : Parameter) (h : FileId) :
    (a.append f p).indexOf h =
      if f = h then a.indexOf h ++ [(p.key, a.parameters.size)] else a.indexOf h := by
  simp only [indexOf, append, Array.getElem?_modify]
  by_cases heq : f = h
  · subst heq
    simp only [if_true, Array.getElem?_eq_getElem hf, Option.map_some]
  · simp only [if_neg heq]

theorem Filed.keyed_append (ha : a.Filed) (hf : f < a.files.size)
    (hid : a.idOf? f p.key = none) (h : FileId) :
    (((a.append f p).indexOf h).map Prod.fst).Nodup := by
  have hfresh : p.key ∉ (a.indexOf f).map Prod.fst := by
    intro hmem
    obtain ⟨row, hrow, hkey⟩ := List.mem_map.mp hmem
    have hrow := ha.mem_indexOf.mp hrow
    rw [hkey, hid] at hrow
    cases hrow
  rw [indexOf_append a hf p]
  split
  · next heq =>
    subst heq
    rw [List.map_append, List.nodup_append]
    refine ⟨ha.keyed f, List.nodup_singleton _, ?_⟩
    intro k hk k' hk' heq
    have hk' : k' = p.key := List.mem_singleton.mp hk'
    exact hfresh (hk' ▸ heq ▸ hk)
  · exact ha.keyed h

/-- One key leads to the new place, the others where they led before. -/
theorem Filed.idOf?_append (ha : a.Filed) (hf : f < a.files.size)
    (hid : a.idOf? f p.key = none) :
    (a.append f p).idOf? h k = some id ↔
      a.idOf? h k = some id ∨ f = h ∧ k = p.key ∧ id = a.parameters.size := by
  rw [idOf?_eq_some (ha.keyed_append hf hid h), indexOf_append a hf p, ← ha.mem_indexOf]
  split
  · next heq => simp [heq]
  · next hne => simp [hne]

theorem Filed.append (ha : a.Filed) (hf : f < a.files.size) (hid : a.idOf? f p.key = none)
    (hp : p.file = f) : (a.append f p).Filed := by
  refine ⟨ha.keyed_append hf hid, ?_, ?_⟩
  · intro h k id hk
    rcases (ha.idOf?_append hf hid).mp hk with hk | ⟨rfl, rfl, rfl⟩
    · rw [Arena.append, Array.getElem?_push, if_neg (Nat.ne_of_lt (ha.lt_size hk))]
      exact ha.indexed h k id hk
    · refine ⟨p, ?_, rfl, hp⟩
      rw [Arena.append, Array.getElem?_push, if_pos rfl]
  · intro id hlt
    rw [Arena.append, Array.size_push] at hlt
    rcases Nat.lt_succ_iff_lt_or_eq.mp hlt with hlt | rfl
    · obtain ⟨h, k, hk⟩ := ha.owned id hlt
      exact ⟨h, k, (ha.idOf?_append hf hid).mpr (Or.inl hk)⟩
    · exact ⟨f, p.key, (ha.idOf?_append hf hid).mpr (Or.inr ⟨rfl, rfl, rfl⟩)⟩

theorem size_insert (a : Arena) (f : FileId) (p : Parameter) :
    (a.insert f p).files.size = a.files.size := by
  rw [insert]
  split
  · rfl
  · exact Array.size_modify

theorem Sound.insert (ha : a.Sound) (hf : f < a.files.size) (hp : p.file = f) :
    (a.insert f p).Sound := by
  have hgraph := graph_insert ha.toFiled hp
  refine ⟨?_, ha.toConnected.congr (size_insert a f p) ?_ ?_⟩
  · rw [Arena.insert]
    cases hid : a.idOf? f p.key with
    | some id => exact ha.toFiled.overwrite hid hp
    | none => exact ha.toFiled.append hf hid hp
  · intro h
    rw [← parentOf?_graph, hgraph, Graph.parentOf?_store, parentOf?_graph]
  · intro h
    rw [← includesOf_graph, hgraph, Graph.includesOf_store, includesOf_graph]

end Arena

end ParameterChain
