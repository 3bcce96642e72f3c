/-
# The order of the declarations in a file

Let the records of some files of a source be put in another order, so that each file still
lists the same includes in the same order.  If no two declarations of such a file have one
key, and no two describe time features of one base, then the one source can be loaded when
the other can, and after that every reading gives the same, at any time, and the same names
are visible, with the same kinds, markers, units and raw values
(`Session.load_iff_of_reordered`).

A file is reordered record by record, since what a record means does not depend on the lines
it stands on.  The tables that are read off both files are then the same but for order and
lines (`Record.Reordered.declarations`), and loading the files in the same sequence keeps both
graphs the same but for the order of their parameters (`loadFile_reordered`).
-/
import Mathlib.Data.List.Pairwise
import ParameterChain.Proofs.Reordered

namespace ParameterChain

variable {source source' : Source} {options : LoadOptions} {limits : Limits} {spec : String}

/-! ## Records -/

namespace Record

/-- Whether the record lists includes. -/
def listsIncludes (r : Record) : Bool :=
  Text.sameAscii r.name includeName

/-- The specs that the record lists. -/
def specs (r : Record) : List String :=
  if r.listsIncludes then (Text.split r.value).filter (· ≠ builtInDefaults) else []

/-- The declaration that the record makes where nothing else is declared, if it is well
formed. -/
def declaration? (r : Record) : Option Declaration :=
  if r.listsIncludes then none
  else (({} : Declarations).declare r.name r.value 0).toOption

/-- That declaration, on the line of the record. -/
def declarationHere? (r : Record) : Option Declaration :=
  r.declaration?.map fun d => d.onLine r.line

/-- The record as if it had never been in a file. -/
def unlined (r : Record) : Record :=
  { r with line := 0 }

/-- The records that declare something, without their lines. -/
def declaring (rs : List Record) : List Record :=
  (rs.filter fun r => !r.listsIncludes).map unlined

/-- The records stand in another order, with the includes listed as before.  No two of them
declare one key, and no two describe time features with one base. -/
structure Reordered (rs rs' : List Record) : Prop where
  specs : rs'.flatMap specs = rs.flatMap specs
  declaring : (declaring rs').Perm (declaring rs)
  keys : ((rs.filterMap declaration?).map Declaration.key).Nodup
  bases : (rs.filterMap declaration?).Pairwise fun d d' =>
    ∀ base, ¬ (d.Describes base ∧ d'.Describes base)

theorem filterMap_declaration? (rs : List Record) :
    rs.filterMap declaration? = (declaring rs).filterMap declaration? := by
  rw [Record.declaring, List.filterMap_map, List.filterMap_filter]
  refine List.filterMap_congr fun r _ => ?_
  cases hlists : r.listsIncludes with
  | true => rw [declaration?, hlists]; rfl
  | false => rfl

theorem mem_declaring {rs : List Record} {r : Record} (hr : r ∈ rs)
    (hlists : r.listsIncludes = false) : r.unlined ∈ declaring rs :=
  List.mem_map_of_mem (List.mem_filter.mpr ⟨hr, by rw [hlists]; rfl⟩)

variable {rs rs' : List Record}

theorem Reordered.perm (h : Reordered rs rs') :
    (rs'.filterMap declaration?).Perm (rs.filterMap declaration?) := by
  rw [filterMap_declaration?, filterMap_declaration? rs]
  exact h.declaring.filterMap declaration?

theorem Reordered.symm (h : Reordered rs rs') : Reordered rs' rs where
  specs := h.specs.symm
  declaring := h.declaring.symm
  keys := (h.perm.map Declaration.key).nodup_iff.mpr h.keys
  bases := (h.perm.pairwise_iff fun hne base hboth => hne base hboth.symm).mpr h.bases

end Record

/-! ## Tables of records -/

namespace Declarations

variable {ds ds' : Declarations}

/-- The table with one record more. -/
def extend (ds : Declarations) (r : Record) : Attempt Declarations := do
  return (← ds.add r.name r.value r.line).1

theorem declare_eq_ok {name rawValue : String} {line : Nat} {d : Declaration} :
    ds.declare name rawValue line = .ok d ↔ ∃ h, Heading.ofText name = .ok h ∧
      (h.changeable && (Name.ofText h.name).key.isReserved) = false ∧
      ((ds.get? (Name.ofText h.name).key).isSome &&
        !ds.allowsAgain (Name.ofText h.name).key) = false ∧
      (⟨Name.ofText h.name, h.kind, rawValue, h.changeable, line⟩ : Declaration) = d := by
  simp only [declare, bind_eq_ok]
  refine exists_congr fun h => and_congr_right fun _ => ?_
  cases h.changeable && (Name.ofText h.name).key.isReserved with
  | true => simp [throw, throwThe, MonadExceptOf.throw, bind, Except.bind]
  | false =>
    cases (ds.get? (Name.ofText h.name).key).isSome && !ds.allowsAgain (Name.ofText h.name).key with
    | true => simp [throw, throwThe, MonadExceptOf.throw, bind, Except.bind]
    | false => simp [pure, Except.pure]

/-- What can be declared beside others can be declared by itself. -/
theorem declare_alone {name rawValue : String} {line : Nat} {d : Declaration}
    (hd : ds.declare name rawValue line = .ok d) :
    ({} : Declarations).declare name rawValue 0 = .ok d.unlined := by
  obtain ⟨h, hheading, hreserved, -, rfl⟩ := declare_eq_ok.mp hd
  exact declare_eq_ok.mpr ⟨h, hheading, hreserved, rfl, rfl⟩

/-- What can be declared by itself can be declared beside others with other keys. -/
theorem declare_of_fresh {name rawValue : String} (line : Nat) {d : Declaration}
    (hd : ({} : Declarations).declare name rawValue 0 = .ok d) (hfresh : ds.get? d.key = none) :
    ds.declare name rawValue line = .ok (d.onLine line) := by
  obtain ⟨h, hheading, hreserved, -, rfl⟩ := declare_eq_ok.mp hd
  have hfresh : ds.get? (Name.ofText h.name).key = none := hfresh
  exact declare_eq_ok.mpr ⟨h, hheading, hreserved, by rw [hfresh]; rfl, rfl⟩

theorem declaration?_eq_some {r : Record} {d : Declaration} :
    r.declaration? = some d ↔ r.listsIncludes = false ∧
      ({} : Declarations).declare r.name r.value 0 = .ok d := by
  rw [Record.declaration?]
  cases hlists : r.listsIncludes with
  | true => simp
  | false => simp [toOption_eq_some]

/-- A record lists includes, or it is well formed and declares something new. -/
theorem extend_eq_ok {r : Record} {m : Declarations}
    (hfresh : ∀ d, r.declaration? = some d → ds.get? d.key = none) :
    ds.extend r = .ok m ↔ (r.listsIncludes = false → r.declaration?.isSome) ∧
      ({ ds with rows := ds.rows ++ r.declarationHere?.toList
                 includes := ds.includes ++ r.specs } : Declarations) = m := by
  rw [extend, add]
  cases hlists : Text.sameAscii r.name includeName with
  | true =>
    have hlists : r.listsIncludes = true := hlists
    have hnone : r.declarationHere? = none := by
      rw [Record.declarationHere?, Record.declaration?, hlists]
      rfl
    rw [hnone, Record.specs, hlists]
    simp [bind, Except.bind, pure, Except.pure]
  | false =>
    have hlists : r.listsIncludes = false := hlists
    have hspecs : r.specs = [] := by
      rw [Record.specs, hlists]
      rfl
    rw [hspecs, List.append_nil, Record.declarationHere?]
    cases hd : r.declaration? with
    | some d =>
      have hnew := hfresh d hd
      have hdeclare := declare_of_fresh r.line (declaration?_eq_some.mp hd).2 hnew
      have hrows : put Declaration.key (d.onLine r.line) ds.rows = ds.rows ++ [d.onLine r.line] :=
        put_eq_append hnew
      rw [hdeclare]
      simp only [Bool.false_eq_true, if_false, bind, Except.bind, pure_eq_ok, insert, hrows]
      exact (and_iff_right fun _ => rfl).symm
    | none =>
      have hfails : ∀ d, ds.declare r.name r.value r.line ≠ .ok d := by
        intro d hdeclare
        have halone := declaration?_eq_some.mpr ⟨hlists, declare_alone hdeclare⟩
        cases halone.symm.trans hd
      cases hdeclare : ds.declare r.name r.value r.line with
      | ok d => exact absurd hdeclare (hfails d)
      | error c => simp [bind, Except.bind, hlists]

/-- A table that is read off records with distinct keys holds what each of them declares by
itself. -/
theorem foldlM_extend {rs : List Record}
    (hfresh : ∀ d ∈ rs.filterMap Record.declaration?, ds.get? d.key = none)
    (hkeys : ((rs.filterMap Record.declaration?).map Declaration.key).Nodup) :
    rs.foldlM extend ds = .ok ds' ↔
      (∀ r ∈ rs, r.listsIncludes = false → r.declaration?.isSome) ∧
        ({ ds with rows := ds.rows ++ rs.filterMap Record.declarationHere?
                   includes := ds.includes ++ rs.flatMap Record.specs } : Declarations) = ds' := by
  induction rs generalizing ds with
  | nil =>
    rw [List.foldlM_nil, pure_eq_ok]
    simp
  | cons r rs ih =>
    have hfirst : ∀ d, r.declaration? = some d → ds.get? d.key = none := by
      intro d hd
      exact hfresh d (List.mem_filterMap.mpr ⟨r, List.mem_cons_self, hd⟩)
    -- The rest is still new once the first record has been put in.
    have hrest : ∀ d ∈ rs.filterMap Record.declaration?,
        ({ ds with rows := ds.rows ++ r.declarationHere?.toList
                   includes := ds.includes ++ r.specs } : Declarations).get? d.key = none := by
      intro d hd
      obtain ⟨r', hr', hd'⟩ := List.mem_filterMap.mp hd
      have hold := hfresh d (List.mem_filterMap.mpr ⟨r', List.mem_cons_of_mem r hr', hd'⟩)
      rw [get?, rowOf?] at hold ⊢
      rw [List.find?_append, hold, Option.none_or]
      cases he : r.declaration? with
      | none =>
        rw [Record.declarationHere?, he]
        rfl
      | some e =>
        rw [List.filterMap_cons_some he, List.map_cons] at hkeys
        have hne : (e.onLine r.line).key ≠ d.key := fun heq =>
          (List.nodup_cons.mp hkeys).1 (show e.key ∈ _ from heq ▸ List.mem_map_of_mem hd)
        rw [Record.declarationHere?, he]
        exact List.find?_cons_of_neg (by simpa using hne)
    have hrestKeys : ((rs.filterMap Record.declaration?).map Declaration.key).Nodup := by
      refine hkeys.sublist (List.Sublist.map _ ?_)
      exact (List.sublist_cons_self r rs).filterMap _
    have hrows : ∀ r : Record, ∀ rs : List Record, (r :: rs).filterMap Record.declarationHere? =
        r.declarationHere?.toList ++ rs.filterMap Record.declarationHere? := by
      intro r rs
      cases hd : r.declarationHere? with
      | none => rw [List.filterMap_cons_none hd]; rfl
      | some d => rw [List.filterMap_cons_some hd]; rfl
    simp only [List.foldlM_cons, bind_eq_ok, extend_eq_ok hfirst]
    rw [List.forall_mem_cons, hrows, List.flatMap_cons, ← List.append_assoc, ← List.append_assoc,
      and_assoc]
    constructor
    · rintro ⟨m, ⟨hwell, rfl⟩, hfold⟩
      exact ⟨hwell, (ih hrest hrestKeys).mp hfold⟩
    · rintro ⟨hwell, hfold⟩
      exact ⟨_, ⟨hwell, rfl⟩, (ih hrest hrestKeys).mpr hfold⟩

end Declarations

namespace Record

variable {rs rs' : List Record}

/-- Without their lines, the declarations of some records are what each of them declares by
itself. -/
theorem map_unlined_declarationHere? (rs : List Record) :
    (rs.filterMap declarationHere?).map Declaration.unlined = rs.filterMap declaration? := by
  rw [List.map_filterMap]
  refine List.filterMap_congr fun r _ => ?_
  rw [declarationHere?]
  cases hd : r.declaration? with
  | none => rfl
  | some d =>
    obtain ⟨h, -, -, -, rfl⟩ :=
      Declarations.declare_eq_ok.mp (Declarations.declaration?_eq_some.mp hd).2
    rfl

/-- Records with distinct keys make a table with distinct keys. -/
theorem nodup_keys_declarationHere?
    (hkeys : ((rs.filterMap declaration?).map Declaration.key).Nodup) :
    ((rs.filterMap declarationHere?).map Declaration.key).Nodup := by
  rw [← map_unlined_declarationHere?, List.map_map] at hkeys
  exact hkeys

theorem rowOf?_declarationHere? (rs : List Record) (k : Key) :
    (rowOf? Declaration.key k (rs.filterMap declarationHere?)).map Declaration.unlined =
      rowOf? Declaration.key k (rs.filterMap declaration?) := by
  rw [← map_unlined_declarationHere?, rowOf?, rowOf?, List.find?_map]
  rfl

/-- Reordered records are apart. -/
theorem Reordered.eq_of_describes (h : Reordered rs rs') {d d' : Declaration} {base : Key}
    (hd : d ∈ rs.filterMap declarationHere?) (hd' : d' ∈ rs.filterMap declarationHere?)
    (hdescribes : d.Describes base) (hdescribes' : d'.Describes base) : d = d' := by
  have hmem : ∀ {d}, d ∈ rs.filterMap declarationHere? → d.unlined ∈ rs.filterMap declaration? := by
    intro d hd
    rw [← map_unlined_declarationHere?]
    exact List.mem_map_of_mem hd
  have hunlined : ∀ {d : Declaration}, d.Describes base → d.unlined.Describes base := by
    rintro d ⟨k, feature, hfeature, hkey⟩
    exact ⟨k, feature, hfeature, hkey⟩
  have : Std.Symm fun d d' : Declaration => ∀ base, ¬ (d.Describes base ∧ d'.Describes base) :=
    ⟨fun _ _ hne base hboth => hne base hboth.symm⟩
  have hsame : d.unlined = d'.unlined := by
    by_contra hne
    exact h.bases.forall (hmem hd) (hmem hd') hne base ⟨hunlined hdescribes, hunlined hdescribes'⟩
  exact List.inj_on_of_nodup_map (nodup_keys_declarationHere? h.keys) hd hd'
    (Declaration.key_eq_of_unlined hsame)

/-- What is read off reordered records is the same but for order and lines. -/
theorem Reordered.declarations {ds : Declarations} (h : Reordered rs rs')
    (hds : rs.foldlM Declarations.extend {} = .ok ds) :
    ∃ ds', rs'.foldlM Declarations.extend {} = .ok ds' ∧ ds.Reordered ds' ∧
      ds'.includes = ds.includes ∧ ds.Apart := by
  have hextend : ∀ {rs : List Record} {ds : Declarations},
      ((rs.filterMap declaration?).map Declaration.key).Nodup →
      (rs.foldlM Declarations.extend {} = .ok ds ↔
        (∀ r ∈ rs, r.listsIncludes = false → r.declaration?.isSome) ∧
          ({ rows := rs.filterMap declarationHere?
             includes := rs.flatMap Record.specs } : Declarations) = ds) :=
    fun hkeys => Declarations.foldlM_extend (fun _ _ => rfl) hkeys
  obtain ⟨hwell, rfl⟩ := (hextend h.keys).mp hds
  -- Each record that declares something stands in both files.
  have hwell' : ∀ r ∈ rs', r.listsIncludes = false → r.declaration?.isSome := by
    intro r hr hlists
    obtain ⟨r₀, hr₀, hsame⟩ := List.mem_map.mp (h.declaring.mem_iff.mp (mem_declaring hr hlists))
    obtain ⟨hr₀, hlists₀⟩ := List.mem_filter.mp hr₀
    have hdeclares : r.unlined.declaration? = r₀.unlined.declaration? := by rw [hsame]
    show r.unlined.declaration?.isSome
    rw [hdeclares]
    exact hwell r₀ hr₀ (by simpa using hlists₀)
  refine ⟨_, (hextend h.symm.keys).mpr ⟨hwell', rfl⟩, ⟨?_, ?_, ?_⟩, h.specs, ?_⟩
  · exact nodup_keys_declarationHere? h.keys
  · exact nodup_keys_declarationHere? h.symm.keys
  · intro k
    show (rowOf? _ k _).map _ = (rowOf? _ k _).map _
    rw [rowOf?_declarationHere?, rowOf?_declarationHere?]
    exact rowOf?_perm h.perm h.keys k
  · exact fun d hd d' hd' base => h.eq_of_describes hd hd'

end Record

/-! ## Sources -/

namespace Source

/-- The file that `spec` names is read as these records. -/
def Reads (source : Source) (limits : Limits) (spec : String) (rs : List Record) : Prop :=
  ∃ bytes, source.contents spec = .ok bytes ∧ Record.ofBytes limits bytes = .ok rs

theorem declarations_eq_ok {ds : Declarations} :
    source.declarations limits spec = .ok ds ↔ ∃ rs, source.Reads limits spec rs ∧
      rs.foldlM Declarations.extend {} = .ok ds := by
  simp only [declarations, locate_eq_ok, bind_eq_ok, Reads]
  constructor
  · rintro ⟨bytes, hbytes, rs, hrs, hds⟩
    exact ⟨rs, ⟨bytes, hbytes, hrs⟩, hds⟩
  · rintro ⟨rs, ⟨bytes, hbytes, hrs⟩, hds⟩
    exact ⟨bytes, hbytes, rs, hrs, hds⟩

/-- What the two sources have under a spec: the same, or files that cannot be read, or files
with the same records in another order. -/
inductive ReorderedAt (limits : Limits) (source source' : Source) (spec : String) : Prop
  | same : source'.contents spec = source.contents spec → ReorderedAt limits source source' spec
  | unread : (∀ rs, ¬ source.Reads limits spec rs) → (∀ rs, ¬ source'.Reads limits spec rs) →
      ReorderedAt limits source source' spec
  | moved (rs rs' : List Record) : source.Reads limits spec rs → source'.Reads limits spec rs' →
      Record.Reordered rs rs' → ReorderedAt limits source source' spec

/-- The sources differ in the order in which some files declare things. -/
def Reordered (limits : Limits) (source source' : Source) : Prop :=
  ∀ spec, ReorderedAt limits source source' spec

theorem Reordered.symm (h : Reordered limits source source') : Reordered limits source' source := by
  intro spec
  cases h spec with
  | same heq => exact .same heq.symm
  | unread hno hno' => exact .unread hno' hno
  | moved rs rs' hrs hrs' hreordered => exact .moved rs' rs hrs' hrs hreordered.symm

theorem Reads.unique {rs rs' : List Record} (h : source.Reads limits spec rs)
    (h' : source.Reads limits spec rs') : rs = rs' := by
  obtain ⟨bytes, hbytes, hrs⟩ := h
  obtain ⟨bytes', hbytes', hrs'⟩ := h'
  cases hbytes.symm.trans hbytes'
  exact Except.ok.inj (hrs.symm.trans hrs')

theorem reads_of_eq_some (h : ((source.contents spec).toOption.bind fun bytes =>
    (Record.ofBytes limits bytes).toOption) = some rs) : source.Reads limits spec rs := by
  obtain ⟨bytes, hbytes, hrs⟩ := Option.bind_eq_some_iff.mp h
  exact ⟨bytes, toOption_eq_some.mp hbytes, toOption_eq_some.mp hrs⟩

/-- Under every spec both sources have the same declarations but for order and lines, and the
very same unless they are apart. -/
theorem Reordered.declarations (h : Reordered limits source source') {ds : Declarations}
    (hds : source.declarations limits spec = .ok ds) :
    ∃ ds', source'.declarations limits spec = .ok ds' ∧ ds.Reordered ds' ∧
      ds'.includes = ds.includes ∧ (ds' = ds ∨ ds.Apart) := by
  cases h spec with
  | same heq =>
    have hds' : source'.declarations limits spec = .ok ds := by
      rw [← hds, Source.declarations, Source.declarations, heq]
    exact ⟨ds, hds', .refl (distinct_declarations hds), rfl, Or.inl rfl⟩
  | unread hno _ =>
    obtain ⟨rs, hrs, -⟩ := declarations_eq_ok.mp hds
    exact absurd hrs (hno rs)
  | moved rs rs' hrs hrs' hreordered =>
    obtain ⟨rs₀, hrs₀, hfold⟩ := declarations_eq_ok.mp hds
    cases hrs.unique hrs₀
    obtain ⟨ds', hfold', hds', hincludes, hapart⟩ := hreordered.declarations hfold
    exact ⟨ds', declarations_eq_ok.mpr ⟨rs', hrs', hfold'⟩, hds', hincludes, Or.inr hapart⟩

end Source

/-! ## Loading -/

section Load

variable (hs : Source.Reordered options.limits source source') {g g' m : Graph} {f : FileId}

/-- Several files in turn, given what one of them does. -/
theorem mapM_reordered {load load' : String → Loader FileId}
    (hload : ∀ spec g g' f m, g.Reordered g' → (load spec).run g = .ok (f, m) →
      ∃ m', (load' spec).run g' = .ok (f, m') ∧ m.Reordered m') :
    ∀ {specs : List String} {g g' m : Graph} {fs : List FileId}, g.Reordered g' →
      (specs.mapM load).run g = .ok (fs, m) →
        ∃ m', (specs.mapM load').run g' = .ok (fs, m') ∧ m.Reordered m' := by
  intro specs
  induction specs with
  | nil =>
    intro g g' m fs hg hl
    rw [List.mapM_nil, Loader.pure_eq_ok] at hl
    obtain ⟨rfl, rfl⟩ := hl
    exact ⟨g', rfl, hg⟩
  | cons spec specs ih =>
    intro g g' m fs hg hl
    simp only [List.mapM_cons, Loader.bind_eq_ok, Loader.pure_eq_ok] at hl ⊢
    obtain ⟨f, m₁, hfirst, fs, m₂, hrest, rfl, rfl⟩ := hl
    obtain ⟨m₁', hfirst', hm₁⟩ := hload spec g g' f m₁ hg hfirst
    obtain ⟨m₂', hrest', hm₂⟩ := ih hm₁ hrest
    exact ⟨m₂', ⟨f, m₁', hfirst', fs, m₂', hrest', rfl, rfl⟩, hm₂⟩

include hs

/-- Loading a file from the reordered source takes the same steps. -/
theorem loadFile_reordered (fuel : Nat) :
    ∀ path spec g g' f m, g.Reordered g' →
      (source.loadFile options fuel path spec).run g = .ok (f, m) →
        ∃ m', (source'.loadFile options fuel path spec).run g' = .ok (f, m') ∧ m.Reordered m' := by
  induction fuel with
  | zero =>
    intro path spec g g' f m hg hl
    rcases loadFile_eq_ok_iff.mp hl with ⟨hfile, rfl⟩ | ⟨n, -, -, -, -, hn, -⟩
    · rw [← Graph.fileOf?_congr hg.size hg.names] at hfile
      exact ⟨g', loadFile_eq_ok_iff.mpr (Or.inl ⟨hfile, rfl⟩), hg⟩
    · cases hn
  | succ n ih =>
    intro path spec g g' f m hg hl
    have hfileOf := Graph.fileOf?_congr hg.size hg.names spec
    rcases loadFile_eq_ok_iff.mp hl with ⟨hfile, rfl⟩ |
        ⟨n', ds, includes, m₀, done, hn, hnone, hpath, hroom, hds, hincludes, hc, rfl, rfl⟩
    · rw [← hfileOf] at hfile
      exact ⟨g', loadFile_eq_ok_iff.mpr (Or.inl ⟨hfile, rfl⟩), hg⟩
    · cases hn
      obtain ⟨ds', hds', hreordered, hspecs, hapart⟩ := hs.declarations hds
      have hsame : options.includeSpecs spec ds' = options.includeSpecs spec ds := by
        rw [LoadOptions.includeSpecs, LoadOptions.includeSpecs, hspecs]
      rw [← hsame] at hincludes
      obtain ⟨m₀', hincludes', hm₀⟩ := mapM_reordered (ih (spec :: path)) hg hincludes
      obtain ⟨done', hc', hdone⟩ := (hm₀.addFile spec includes).commit hreordered hapart hc
      rw [← hm₀.size] at hc' ⊢
      rw [← hfileOf] at hnone
      have hcount : g'.loadedCount = g.loadedCount := by
        rw [Graph.loadedCount, Graph.loadedCount, hg.size]
      rw [← hcount] at hroom
      exact ⟨done'.graph, loadFile_eq_ok_iff.mpr (Or.inr ⟨n, ds', includes, m₀', done', rfl, hnone,
        hpath, hroom, hds', hincludes', hc', rfl, rfl⟩), hdone⟩

theorem load_reordered {top : String} (hl : source.load options top = .ok g) :
    ∃ g', source'.load options top = .ok g' ∧ g.Reordered g' := by
  simp only [Source.load, bind_eq_ok, pure_eq_ok] at hl ⊢
  obtain ⟨⟨f, m⟩, hload, done, hc, rfl⟩ := hl
  obtain ⟨m', hload', hm⟩ :=
    loadFile_reordered hs options.limits.includeDepth [] top {} {} f m (.refl {}) hload
  have hsize := (grown_loadFile options.limits.includeDepth [] top {} f m .empty
    hload).built.coherent.ordered.transientFile_lt_size
  have hempty : ({ redefinable := true } : Declarations).Reordered { redefinable := true } :=
    .refl List.nodup_nil
  obtain ⟨done', hc', hdone⟩ := (hm.setIncludes hsize [f]).commit hempty (Or.inl rfl) hc
  exact ⟨done'.graph, ⟨(f, m'), hload', done', hc', rfl⟩, hdone⟩

end Load

/-- Once the top file is loaded nothing can fail: the transient file in front of it declares
nothing, and a single include contests nothing. -/
theorem load_eq_ok_of_loadFile {top : String} {f : FileId} {m : Graph}
    (hload : (source.loadFile options options.limits.includeDepth [] top).run {} = .ok (f, m)) :
    source.load options top =
      .ok ((m.setIncludes transientFile [f]).linearize transientFile) := by
  have hsize := (grown_loadFile options.limits.includeDepth [] top {} f m .empty
    hload).built.coherent.ordered.transientFile_lt_size
  have hsingle : (m.setIncludes transientFile [f]).includesOf transientFile = [f] := by
    rw [Graph.includesOf_setIncludes _ _ _ _ hsize, if_pos rfl]
  have hcontested := Graph.contested_of_single hsingle { redefinable := true }
  have houtline := Graph.outline_eq_ok.mpr
    ⟨[], { redefinable := true }, [], hcontested, rfl, rfl, rfl⟩
  simp only [Source.load, bind_eq_ok, pure_eq_ok]
  exact ⟨(f, m), hload, _, Graph.commit_eq_ok.mpr ⟨_, [], houtline, rfl, rfl⟩, rfl⟩

theorem exists_load {top : String} {f : FileId} {m : Graph}
    (hload : (source.loadFile options options.limits.includeDepth [] top).run {} = .ok (f, m)) :
    ∃ g, source.load options top = .ok g ∧ g.features = m.features :=
  ⟨_, load_eq_ok_of_loadFile hload, rfl⟩

/-! ## Sessions -/

/-- The order of the declarations in a file does not matter.  Let files of a source in which no
two declarations have one key and no two describe time features of one base have their records
reordered, the includes being listed as before.  Then the one source can be loaded if the other
can; once both are loaded, every reading gives the same, at any time, and the same parameters
are visible, with their kinds, markers, units and raw values. -/
theorem Session.load_iff_of_reordered (hs : Source.Reordered options.limits source source')
    (top : String) :
    ((∃ s, Session.load source options top = .ok s) ↔
        ∃ s', Session.load source' options top = .ok s') ∧
      ∀ s s', Session.load source options top = .ok s →
        Session.load source' options top = .ok s' →
          s.graph.ReadsAlike s.limits s'.graph ∧ s'.graph.visible = s.graph.visible := by
  have hforth : ∀ {source source' : Source}, Source.Reordered options.limits source source' →
      ∀ {s}, Session.load source options top = .ok s →
        ∃ s', Session.load source' options top = .ok s' ∧ s.graph.Reordered s'.graph := by
    intro source source' hs s hload
    obtain ⟨g, hg, rfl⟩ := load_eq_ok.mp hload
    obtain ⟨g', hg', hreordered⟩ := load_reordered hs hg
    exact ⟨_, load_eq_ok.mpr ⟨g', hg', rfl⟩, hreordered⟩
  refine ⟨⟨?_, ?_⟩, ?_⟩
  · rintro ⟨s, hload⟩
    obtain ⟨s', hload', -⟩ := hforth hs hload
    exact ⟨s', hload'⟩
  · rintro ⟨s', hload'⟩
    obtain ⟨s, hload, -⟩ := hforth hs.symm hload'
    exact ⟨s, hload⟩
  · intro s s' hload hload'
    obtain ⟨s₁, hload₁, hreordered⟩ := hforth hs hload
    cases hload'.symm.trans hload₁
    exact ⟨hreordered.readsAlike (rooted_load hload).whole.home s.limits, hreordered.visible_eq⟩

/-! ### A file and the same file in another order -/

/-- Only names of time features describe features. -/
theorem Declaration.not_describes {d : Declaration} (hd : d.key.featureBase? = none) (base : Key) :
    ¬ d.Describes base := by
  rintro ⟨k, feature, hfeature, -⟩
  have hkey : ({ d with kind := d.kind.or (some k) } : Declaration).key = d.key := rfl
  rw [TimeFeature.ofDeclaration, hkey, hd] at hfeature
  cases hfeature

/-- A forward reference, an override and a time feature. -/
def listed : Source := fun spec =>
  if spec = "base" then .ok "ic:X = 1".toUTF8
  else if spec = "top" then
    .ok ("includeFile = base\nd:B = A mm\nd:A = 2 mm\nX = 7\n" ++
      "s:Tf/R/Function = \"Linear mm\"").toUTF8
  else .error (.cannotOpen spec "no such file")

/-- The same in another order. -/
def relisted : Source := fun spec =>
  if spec = "top" then
    .ok ("X = 7\nd:A = 2 mm\ns:Tf/R/Function = \"Linear mm\"\nincludeFile = base\n" ++
      "d:B = A mm").toUTF8
  else listed spec

theorem reordered_listed : Source.Reordered {} listed relisted := by
  intro spec
  by_cases htop : spec = "top"
  · subst htop
    have hok : (((listed.contents "top").toOption.bind fun b =>
        (Record.ofBytes {} b).toOption).any fun rs =>
          ((relisted.contents "top").toOption.bind fun b =>
            (Record.ofBytes {} b).toOption).any fun rs' =>
              decide (rs'.flatMap Record.specs = rs.flatMap Record.specs) &&
              decide ((Record.declaring rs').Perm (Record.declaring rs)) &&
              decide ((rs.filterMap Record.declaration?).map Declaration.key).Nodup &&
              decide ((rs.filterMap Record.declaration?).Pairwise fun d d' =>
                d.key.featureBase? = none ∨ d'.key.featureBase? = none)) = true := by
      decide +kernel
    obtain ⟨rs, hrs, hok⟩ := (Option.any_eq_true _ _).mp hok
    obtain ⟨rs', hrs', hok⟩ := (Option.any_eq_true _ _).mp hok
    simp only [Bool.and_eq_true, decide_eq_true_eq] at hok
    obtain ⟨⟨⟨hspecs, hperm⟩, hkeys⟩, hbases⟩ := hok
    refine .moved rs rs' (Source.reads_of_eq_some hrs) (Source.reads_of_eq_some hrs')
      ⟨hspecs, hperm, hkeys, hbases.imp ?_⟩
    rintro d d' (hd | hd') base ⟨hdescribes, hdescribes'⟩
    · exact d.not_describes hd base hdescribes
    · exact d'.not_describes hd' base hdescribes'
  · refine .same ?_
    rw [Source.contents, Source.contents, relisted, if_neg htop]

theorem Session.load_iff_of_reordered_listed :
    ∃ s s', Session.load listed { withDefaults := false } "top" = .ok s ∧
      Session.load relisted { withDefaults := false } "top" = .ok s' ∧
      Source.Reordered {} listed relisted ∧ s.graph.features ≠ [] ∧
      s.graph.ReadsAlike s.limits s'.graph ∧ s'.graph.visible = s.graph.visible := by
  have hok : (((listed.loadFile { withDefaults := false } ({} : Limits).includeDepth []
      "top").run {}).toOption.any fun r => !r.2.features.isEmpty) = true := by
    decide +kernel
  obtain ⟨⟨f, m⟩, hm, hfeatures⟩ := (Option.any_eq_true _ _).mp hok
  obtain ⟨g, hg, hsame⟩ := exists_load (toOption_eq_some.mp hm)
  have hload := load_eq_ok.mpr ⟨g, hg, rfl⟩
  have hreordered : Source.Reordered ({ withDefaults := false } : LoadOptions).limits listed
      relisted := reordered_listed
  obtain ⟨hiff, halike⟩ := Session.load_iff_of_reordered hreordered "top"
  obtain ⟨s', hload'⟩ := hiff.mp ⟨_, hload⟩
  refine ⟨_, s', hload, hload', reordered_listed, ?_, halike _ s' hload hload'⟩
  rw [show g.features = m.features from hsame]
  simpa using hfeatures

end ParameterChain
