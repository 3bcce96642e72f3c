/-
# One line for each parameter

The table of a listing is to have one line for the titles and one line for each row, which
begins with the name of the row.

Line feeds come in by values that are continued on further lines.  Where a table lists raw values
it puts each of them on one line.  The column before shows values as they are, so a text that is
continued breaks the line of its parameter, and a table has a line for each parameter exactly if
no value that it shows is such a text (`Session.oneLineEach_load`).  Nothing else that a file
declares gets in the way: a name has no line feed, nor has the name of a value that a time feature
adds, nor a kind, a unit or a number.  The files are named as their includes name them, apart from
the top file, whose name is not taken from a file.
-/
import ParameterChain.Proofs.Display
import ParameterChain.Proofs.Nameable
import ParameterChain.Proofs.Queries
import ParameterChain.Proofs.Visits
import ParameterChain.Session.Query

namespace ParameterChain

/-! ## Texts on one line -/

namespace Text

variable {s t : String} {cs ds : List Char} {c : Char}

/-- There is no line feed in the text. -/
def OneLine (s : String) : Prop :=
  '\n' ∉ s.toList

instance (s : String) : Decidable (OneLine s) :=
  inferInstanceAs (Decidable ('\n' ∉ s.toList))

@[simp] theorem oneLine_append : OneLine (s ++ t) ↔ OneLine s ∧ OneLine t := by
  simp [OneLine]

@[simp] theorem oneLine_ofList : OneLine (String.ofList cs) ↔ '\n' ∉ cs := by
  rw [OneLine, String.toList_ofList]

theorem oneLine_of_not_blank (h : ∀ c ∈ s.toList, isBlank c = false) : OneLine s := by
  intro hmem
  exact absurd (h _ hmem) (by decide)

theorem oneLine_intercalate (hs : OneLine s) {ts : List String} :
    OneLine (s.intercalate ts) ↔ ∀ t ∈ ts, OneLine t := by
  induction ts with
  | nil => simp [OneLine]
  | cons t ts ih =>
    cases ts with
    | nil => simp
    | cons t' ts =>
      rw [String.intercalate_cons_cons, oneLine_append, oneLine_append, ih, and_iff_left hs]
      exact List.forall_mem_cons.symm

/-- Of a text with a character that is no blank only what follows this one is trimmed. -/
theorem dropTrailingBlanks_append (hc : isBlank c = false) :
    dropTrailingBlanks (cs ++ c :: ds) = cs ++ c :: dropTrailingBlanks ds := by
  have hstop : (c :: cs.reverse).dropWhile isBlank = c :: cs.reverse :=
    List.dropWhile_cons_of_neg (by simp [hc])
  rw [dropTrailingBlanks, dropTrailingBlanks, List.reverse_append, List.reverse_cons,
    List.append_assoc, List.singleton_append, List.dropWhile_append, hstop]
  cases hdrop : ds.reverse.dropWhile isBlank <;> simp

theorem dropTrailingBlanks_sublist (cs : List Char) : (dropTrailingBlanks cs).Sublist cs := by
  have h := (List.dropWhile_sublist isBlank (l := cs.reverse)).reverse
  rwa [List.reverse_reverse] at h

end Text

open Text (OneLine)

/-! ## Tables -/

/-- Nothing that a table shows of the row as it is has a line feed. -/
structure Row.OneLine (row : Row) : Prop where
  name : Text.OneLine row.name
  kind : Text.OneLine row.kind
  value : Text.OneLine row.value
  files : ∀ entry ∈ row.files, Text.OneLine entry.1

namespace Listing

variable {rows : List Row} {row : Row}

/-- The text is a line of titles and one line for each row, which begins with the name of the
row. -/
def OneLineEach (text : String) (rows : List Row) : Prop :=
  ∃ titles ls, text = String.join ((titles :: ls).map (· ++ "\n")) ∧ OneLine titles ∧
    List.Forall₂ (fun row l => OneLine l ∧ row.name.toList <+: l.toList) rows ls

theorem oneLine_onOneLine (s : String) : OneLine (onOneLine s) := by
  rw [onOneLine, Text.oneLine_ofList]
  intro h
  obtain ⟨c, -, hc⟩ := List.mem_map.mp h
  split at hc
  · exact absurd hc (by decide)
  · next hne => exact hne hc

theorem oneLine_fill {width : Nat} {s : String} : OneLine (fill width s) ↔ OneLine s := by
  rw [fill, Text.oneLine_append, Text.oneLine_ofList, List.mem_replicate]
  simp

/-- The entry of the files ends with a raw value on one line. -/
theorem exists_filesEntry (hfiles : row.files ≠ []) :
    ∃ e raw, filesEntry row = e ++ " = " ++ onOneLine raw ∧
      (OneLine e ↔ ∀ entry ∈ row.files, OneLine entry.1) := by
  rw [filesEntry]
  generalize row.files = files at hfiles ⊢
  induction files with
  | nil => exact absurd rfl hfiles
  | cons entry files ih =>
    cases files with
    | nil => exact ⟨entry.1, entry.2, by simp, by simp⟩
    | cons next files =>
      obtain ⟨e, raw, hentry, hlines⟩ := ih (List.cons_ne_nil _ _)
      refine ⟨entry.1 ++ " = " ++ onOneLine entry.2 ++ "; " ++ e, raw, ?_, ?_⟩
      · rw [List.map_cons] at hentry
        rw [List.map_cons, List.map_cons, String.intercalate_cons_cons, hentry]
        simp only [String.append_assoc]
      · rw [List.forall_mem_cons, ← hlines]
        have hequals : OneLine " = " := by decide
        have hsemicolon : OneLine "; " := by decide
        simp [oneLine_onOneLine, hequals, hsemicolon]

/-- The line of a row begins with its name, and has all that the row has to show in front of the
last raw value, which is on one line. -/
theorem exists_rowLine (w : Widths) (hfiles : row.files ≠ []) :
    ∃ shown raw, (rowLine w row).toList = shown.toList ++ '=' :: raw ∧ '\n' ∉ raw ∧
      row.name.toList <+: shown.toList ∧ (OneLine shown ↔ row.OneLine) := by
  obtain ⟨e, raw, hentry, hlines⟩ := exists_filesEntry hfiles
  have hgap : OneLine "  " := by decide
  have hblank : OneLine " " := by decide
  let shown := fill w.name row.name ++ "  " ++ fill w.kind row.kind ++ "  " ++
    fill w.value row.value ++ "  " ++ e ++ " "
  have hline : (w.line row.name row.kind row.value (filesEntry row)).toList =
      shown.toList ++ '=' :: (" " ++ onOneLine raw).toList := by
    rw [Widths.line, hentry]
    simp [shown]
  refine ⟨shown, Text.dropTrailingBlanks (" " ++ onOneLine raw).toList, ?_, ?_, ?_, ?_⟩
  · rw [rowLine, Text.trimEnd, String.toList_ofList, hline]
    exact Text.dropTrailingBlanks_append (by decide)
  · intro hmem
    have hraw : OneLine (" " ++ onOneLine raw) :=
      Text.oneLine_append.mpr ⟨hblank, oneLine_onOneLine raw⟩
    exact hraw ((Text.dropTrailingBlanks_sublist _).subset hmem)
  · simp only [shown, fill, String.toList_append, List.append_assoc]
    exact List.prefix_append _ _
  · simp only [shown, Text.oneLine_append, oneLine_fill, hlines, hgap, hblank, and_true]
    exact ⟨fun ⟨⟨⟨hname, hkind⟩, hvalue⟩, hfiles⟩ => ⟨hname, hkind, hvalue, hfiles⟩,
      fun h => ⟨⟨⟨h.name, h.kind⟩, h.value⟩, h.files⟩⟩

theorem oneLine_rowLine (w : Widths) (hfiles : row.files ≠ []) :
    OneLine (rowLine w row) ↔ row.OneLine := by
  obtain ⟨shown, raw, hline, hraw, -, hshown⟩ := exists_rowLine w hfiles
  rw [← hshown, OneLine, OneLine, hline]
  simp [hraw]

theorem name_prefix_rowLine (w : Widths) (hfiles : row.files ≠ []) :
    row.name.toList <+: (rowLine w row).toList := by
  obtain ⟨shown, raw, hline, -, hname, -⟩ := exists_rowLine w hfiles
  rw [hline]
  exact hname.trans (List.prefix_append _ _)

/-- The number of line feeds in a text. -/
def feeds (s : String) : Nat :=
  s.toList.count '\n'

theorem feeds_eq_zero {s : String} : feeds s = 0 ↔ OneLine s :=
  List.count_eq_zero

/-- Each line ends with a line feed, and those within lines come in addition. -/
theorem feeds_join (ls : List String) :
    feeds (String.join (ls.map (· ++ "\n"))) = ls.length + (ls.map feeds).sum := by
  induction ls with
  | nil => rfl
  | cons l ls ih =>
    simp only [feeds, List.map_cons, String.join_cons, String.toList_append, List.count_append,
      List.length_cons, List.sum_cons] at ih ⊢
    rw [ih]
    have hend : "\n".toList.count '\n' = 1 := by decide
    omega

/-- A table has a line for each row exactly if nothing that it shows as it is has a line feed. -/
theorem oneLineEach_table (hfiles : ∀ row ∈ rows, row.files ≠ []) :
    OneLineEach (table rows) rows ↔ ∀ row ∈ rows, row.OneLine := by
  constructor
  · rintro ⟨titles, ls, htable, htitles, hlines⟩ row hrow
    have hfeeds := congrArg feeds htable
    rw [table, feeds_join, feeds_join, List.length_cons, List.length_cons, List.length_map,
      hlines.length_eq] at hfeeds
    -- Lines that are whole account for as many line feeds as there are lines, so that none is
    -- left for the insides of those that are written.
    have hnone : ((titles :: ls).map feeds).sum = 0 := by
      refine List.sum_eq_zero_iff_forall_eq_nat.mpr fun n hn => ?_
      obtain ⟨l, hl, rfl⟩ := List.mem_map.mp hn
      rcases List.mem_cons.mp hl with rfl | hl
      · exact feeds_eq_zero.mpr htitles
      · obtain ⟨_, -, hline, -⟩ := exists_left_of_forall₂ hlines hl
        exact feeds_eq_zero.mpr hline
    rw [hnone, Nat.add_left_cancel_iff, List.sum_eq_zero_iff_forall_eq_nat] at hfeeds
    rw [← oneLine_rowLine (Widths.ofRows rows) (hfiles row hrow), ← feeds_eq_zero]
    exact hfeeds _ (List.mem_map_of_mem (List.mem_cons_of_mem _ (List.mem_map_of_mem hrow)))
  · intro hrows
    refine ⟨_, _, rfl, ?_, ?_⟩
    · have hgap : OneLine "  " := by decide
      rw [Widths.line, Text.oneLine_intercalate hgap]
      simp only [List.forall_mem_cons, oneLine_fill]
      decide
    · rw [List.forall₂_map_right_iff, List.forall₂_same]
      exact fun row hrow => ⟨(oneLine_rowLine _ (hfiles row hrow)).mpr (hrows row hrow),
        name_prefix_rowLine _ (hfiles row hrow)⟩

end Listing

/-! ## Values -/

namespace Number

theorem not_mem_toDigits (n : Nat) : '\n' ∉ Nat.toDigits 10 n := by
  intro hmem
  have hdigit := plain_of_isDigit (Nat.isDigit_of_mem_toDigits (by decide) (by decide) hmem)
  exact absurd hdigit.1 (by decide)

theorem toList_natRepr (n : Nat) : (Nat.repr n).toList = Nat.toDigits 10 n :=
  String.toList_ofList

theorem oneLine_natRepr (n : Nat) : OneLine (Nat.repr n) := by
  rw [OneLine, toList_natRepr]
  exact not_mem_toDigits n

theorem oneLine_repr (z : Int) : OneLine (Int.repr z) := by
  cases z with
  | ofNat n =>
    rw [OneLine, toList_repr_ofNat]
    exact not_mem_toDigits n
  | negSucc n =>
    rw [OneLine, toList_repr_negSucc, List.mem_cons, not_or]
    exact ⟨by decide, not_mem_toDigits (n + 1)⟩

theorem Decimal.oneLine_plain (d : Decimal) : OneLine d.plain := by
  have hzeros : ∀ n, '\n' ∉ List.replicate n '0' := fun n hmem =>
    absurd (List.eq_of_mem_replicate hmem) (by decide)
  rw [plain]
  split
  · split
    · exact oneLine_natRepr _
    · rw [Text.oneLine_append, Text.oneLine_ofList]
      exact ⟨oneLine_natRepr _, hzeros _⟩
  · -- A point is put among the digits, which may have zeros in front.
    rw [Text.oneLine_ofList, List.mem_append, List.mem_cons]
    have hpadded : ∀ n, '\n' ∉ List.replicate n '0' ++ (Nat.repr d.digits).toList := by
      intro n hmem
      rcases List.mem_append.mp hmem with hmem | hmem
      · exact hzeros n hmem
      · exact oneLine_natRepr _ hmem
    rintro (hmem | hmem | hmem)
    · exact hpadded _ (List.mem_of_mem_take hmem)
    · exact absurd hmem (by decide)
    · exact hpadded _ (List.mem_of_mem_drop hmem)

theorem oneLine_plain (x : Float) : OneLine (plain x) := by
  have hmagnitude : OneLine (if x.isInf then "inf"
      else if (decode x).mantissa = 0 then Decimal.plain ⟨0, 0⟩
      else (shortest (decode x).mantissa (decode x).exponent).plain) := by
    split
    · decide
    split
    · exact Decimal.oneLine_plain _
    · exact Decimal.oneLine_plain _
  rw [plain, written]
  split
  · decide
  simp only
  split
  · exact Text.oneLine_append.mpr ⟨by decide, hmagnitude⟩
  · exact hmagnitude

end Number

/-- The scalar is no text with a line feed in it. -/
def Scalar.OneLine : (s : Scalar) → s.Carrier → Prop
  | .text, t => Text.OneLine t
  | _, _ => True

/-- No text in the value has a line feed. -/
def Value.OneLine (v : Value) : Prop :=
  ∀ x ∈ v.shape.elements, v.scalar.OneLine x

theorem oneLine_showNumber (x : Float) : OneLine (showNumber x) := by
  rw [showNumber]
  split
  · decide
  · exact Number.oneLine_plain x

theorem Scalar.oneLine_display {s : Scalar} {x : s.Carrier} :
    Text.OneLine (s.display x) ↔ s.OneLine x := by
  cases s with
  | boolean => exact iff_of_true (by cases x <;> decide) trivial
  | integer => exact iff_of_true (Number.oneLine_repr _) trivial
  | unitless | dimensioned => exact iff_of_true (oneLine_showNumber x) trivial
  | text =>
    have hquote : Text.OneLine "\"" := by decide
    rw [display, Text.oneLine_append, Text.oneLine_append, and_iff_left hquote,
      and_iff_right hquote]
    rfl

/-- A value is written with the line feeds of its texts only. -/
theorem Value.oneLine_display {v : Value} : Text.OneLine v.display ↔ v.OneLine := by
  obtain ⟨s, shape⟩ := v
  cases shape with
  | one x =>
    show Text.OneLine (s.display x) ↔ ∀ x' ∈ [x], s.OneLine x'
    rw [List.forall_mem_singleton, Scalar.oneLine_display]
  | many xs =>
    have hblank : Text.OneLine " " := by decide
    show Text.OneLine (" ".intercalate (Nat.repr xs.length :: xs.map s.display)) ↔
      ∀ x ∈ xs, s.OneLine x
    rw [Text.oneLine_intercalate hblank, List.forall_mem_cons,
      and_iff_right (Number.oneLine_natRepr _), List.forall_mem_map]
    simp only [Scalar.oneLine_display]

theorem Value.oneLine_inUnits (factor : Float) (v : Value) :
    (v.inUnits factor).OneLine ↔ v.OneLine := by
  obtain ⟨s, shape⟩ := v
  cases s with
  | dimensioned => exact iff_of_true (fun _ _ => trivial) fun _ _ => trivial
  | boolean | integer | unitless | text => rfl

theorem MeasureUnit.oneLine_symbol {t : String} {u : MeasureUnit}
    (h : MeasureUnit.ofSymbol? t = some u) : OneLine u.symbol := by
  have hall : (MeasureUnit.table.all fun u => decide (OneLine u.symbol)) = true := by
    decide +kernel
  exact of_decide_eq_true (List.all_eq_true.mp hall u (List.mem_of_find?_eq_some h))

theorem Parameter.oneLine_shown {p : Parameter} (hunit : ∀ unit ∈ p.unit, OneLine unit)
    (v : Value) : OneLine (p.shown v) ↔ v.OneLine := by
  have hblank : OneLine " " := by decide
  rw [shown]
  split
  · next unit hp _ =>
    rw [Text.oneLine_append, Text.oneLine_append, and_iff_left (hunit unit hp),
      and_iff_left hblank, Value.displayIn, Value.oneLine_display, Value.oneLine_inUnits]
  · exact Value.oneLine_display

theorem Kind.oneLine_marked (k : Kind) (changeable : Bool) : OneLine (k.marked changeable) := by
  obtain ⟨s, isVector⟩ := k
  cases s <;> cases isVector <;> cases changeable <;> decide

/-! ## Names -/

theorem Name.oneLine_text {n : Name} : OneLine n.text ↔ OneLine n.key.text := by
  rw [n.key_eq]
  constructor
  · exact fun h hmem => h (Text.mem_of_mem_lowerCase (by decide) hmem)
  · exact fun h hmem => h (Text.mem_lowerCase_of_mem (by decide) hmem)

variable {source : Source} {options : LoadOptions} {limits : Limits} {top spec a b : String}
  {g : Graph} {f : FileId} {k : Key} {ds ds' : Declarations} {d : Declaration} {done : Commit}
  {p : Parameter} {s : Session}

namespace Declarations

/-- No declared name has a line feed. -/
def OneLine (ds : Declarations) : Prop :=
  ∀ d ∈ ds.rows, Text.OneLine d.key.text

theorem OneLine.insert (hds : ds.OneLine) (hd : Text.OneLine d.key.text) :
    (ds.insert d).OneLine := by
  intro d' hd'
  rcases mem_of_mem_put hd' with rfl | hold
  · exact hd
  · exact hds d' hold

theorem OneLine.extend {r : Record} (hds : ds.OneLine) (hr : Text.OneLine r.name)
    (h : ds.extend r = .ok ds') : ds'.OneLine := by
  simp only [Declarations.extend, bind_eq_ok, pure_eq_ok, Prod.exists, Declarations.add] at h
  obtain ⟨_, added, hadd, rfl⟩ := h
  split at hadd
  · cases hadd
    exact hds
  split at hadd
  · next d hdeclare =>
    cases hadd
    obtain ⟨h, hheading, -, -, rfl⟩ := declare_eq_ok.mp hdeclare
    refine hds.insert (Name.oneLine_text.mp ?_)
    rcases Heading.name_of_ofText hheading with hname | ⟨code, -, hname⟩
    · exact hname ▸ hr
    · exact fun hmem => hr (hname ▸ List.mem_append_right _ (List.mem_cons_of_mem _ hmem))
  · cases hadd

end Declarations

/-- Records have their names on one line. -/
theorem Source.Reads.oneLine {rs : List Record} (h : source.Reads limits spec rs) :
    ∀ r ∈ rs, OneLine r.name := by
  intro r hr hmem
  obtain ⟨bytes, -, hrs⟩ := h
  obtain ⟨ls, -, -, hcheck⟩ := Record.ofBytes_eq_ok.mp hrs
  exact (Record.check_eq_ok.mp (hcheck r hr)).2.1 _ hmem (by decide)

theorem Source.oneLine_declarations (hds : source.declarations limits spec = .ok ds) :
    ds.OneLine := by
  obtain ⟨rs, hreads, hfold⟩ := Source.declarations_eq_ok.mp hds
  exact foldlM_induction (fun _ _ r hr hds hextend => hds.extend (hreads.oneLine r hr) hextend)
    (fun d hd => absurd hd List.not_mem_nil) hfold

/-- The base of a feature is written on one line if the declaration is. -/
theorem Declaration.oneLine_spellingOf {base : Key} {ending : FeatureSource}
    (hd : OneLine d.key.text) (hbase : d.key.featureBase? = some (base, ending)) :
    OneLine (d.spellingOf base).text := by
  rw [spellingOf]
  split
  · next cs htake =>
    have hleading := (takeBytes?_eq_some.mp htake).1
    have hname : OneLine d.name.text := Name.oneLine_text.mpr hd
    exact Text.oneLine_ofList.mpr fun hmem => hname (hleading.subset hmem)
  · rw [Key.text_of_featureBase? hbase, Text.oneLine_append, Text.oneLine_append] at hd
    exact hd.1.1

namespace Graph

/-- What is committed has its name on one line: it was declared so, or it is the value of a time
feature that was. -/
theorem oneLine_of_mem_parameters (hdistinct : ds.Distinct) (hds : ds.OneLine)
    (hc : g.commit limits f ds = .ok done) (hp : p ∈ done.parameters) : OneLine p.key.text := by
  obtain ⟨o, drafts, ho, hdraft, rfl⟩ := commit_eq_ok.mp hc
  obtain ⟨d, hd, hresolved⟩ := mem_of_mapM (draft_eq_ok hdraft) hp
  obtain ⟨kind, resolved, -, -, rfl⟩ := draftOf_eq_ok.mp hresolved
  show OneLine d.key.text
  rcases mem_rows_cases hdistinct ho hd with ⟨feature, hfeature, -, line, rfl⟩ | ⟨-, d₀, hd₀, hinherits⟩
  · obtain ⟨ks, kinds, rows, -, hkinds, hrows, rfl⟩ := outline_eq_ok.mp ho
    obtain ⟨d', hd', hdescribes⟩ := (Declarations.mem_features hrows).mp hfeature
    obtain ⟨d₀, hd₀, hinherits⟩ := exists_left_of_forall₂ (inheritKinds_eq_ok hkinds) hd'
    obtain ⟨base, ending, hbase, hdescribed⟩ := TimeFeature.ofDeclaration_eq_ok hdescribes
    have hspelling : OneLine feature.base.text := by
      rw [hdescribed.base_eq]
      exact Declaration.oneLine_spellingOf (hinherits.key ▸ hds d₀ hd₀) hbase
    refine Name.oneLine_text.mp ?_
    show OneLine (feature.base.text ++ "/" ++ "Value")
    rw [Text.oneLine_append, Text.oneLine_append]
    exact ⟨⟨hspelling, by decide⟩, by decide⟩
  · exact hinherits.key ▸ hds d₀ hd₀

/-- What the files of a loaded graph declare has its name on one line. -/
theorem oneLine_of_declared? (hl : source.load options top = .ok g)
    (hp : g.declared? f k = some p) : OneLine p.name.text := by
  obtain ⟨hsourced, hempty⟩ := sourced_of_load hl
  have hne : f ≠ transientFile := by
    rintro rfl
    rw [hempty] at hp
    cases hp
  obtain ⟨ds, m, done, ho⟩ := hsourced.origin f (lt_size_of_declared? hp) hne
  rw [ho.declared?_eq] at hp
  refine Name.oneLine_text.mpr (oneLine_of_mem_parameters ?_ ?_ ho.commit (mem_of_rowOf? hp))
  · exact distinct_declarations ho.declarations
  · exact Source.oneLine_declarations ho.declarations

end Graph

/-! ## Files -/

namespace Text

theorem not_blank_of_mem_wordsFrom {cs word w : List Char} (hword : ∀ c ∈ word, isBlank c = false)
    (hw : w ∈ wordsFrom word cs) : ∀ c ∈ w, isBlank c = false := by
  have hdone : ∀ c ∈ word.reverse, isBlank c = false := fun c hc =>
    hword c (List.mem_reverse.mp hc)
  induction cs generalizing word with
  | nil =>
    rw [wordsFrom] at hw
    split at hw
    · cases hw
    · exact List.mem_singleton.mp hw ▸ hdone
  | cons c cs ih =>
    have hempty : ∀ c ∈ ([] : List Char), isBlank c = false := fun c hc =>
      absurd hc List.not_mem_nil
    rw [wordsFrom] at hw
    split at hw
    · split at hw
      · exact ih hempty hw hempty
      · rcases List.mem_cons.mp hw with rfl | hw
        · exact hdone
        · exact ih hempty hw hempty
    · next hc =>
      have hlonger : ∀ c' ∈ c :: word, isBlank c' = false :=
        List.forall_mem_cons.mpr ⟨Bool.eq_false_iff.mpr hc, hword⟩
      exact ih hlonger hw fun c' hc' => hlonger c' (List.mem_reverse.mp hc')

theorem oneLine_of_mem_split {s t : String} (h : t ∈ split s) : OneLine t := by
  obtain ⟨w, hw, rfl⟩ := List.mem_map.mp h
  refine oneLine_of_not_blank ?_
  rw [String.toList_ofList]
  exact not_blank_of_mem_wordsFrom (fun c hc => absurd hc List.not_mem_nil) hw

end Text

namespace Source

/-- What a file includes is named on one line. -/
theorem Lists.oneLine (h : source.Lists options a b) : OneLine b := by
  obtain ⟨ds, hds, hb⟩ := h
  obtain ⟨rs, -, hfold⟩ := declarations_eq_ok.mp hds
  have hincludes : ds.includes = rs.flatMap Record.specs :=
    (Declarations.foldlM_extend_split hfold).1
  rw [LoadOptions.includeSpecs] at hb
  split at hb
  · rw [List.mem_singleton.mp hb]
    decide
  · rw [hincludes] at hb
    obtain ⟨r, -, hr⟩ := List.mem_flatMap.mp hb
    rw [Record.specs] at hr
    split at hr
    · exact Text.oneLine_of_mem_split (List.mem_of_mem_filter hr)
    · cases hr

theorem Leads.oneLine (h : source.Leads options top spec) : spec = top ∨ OneLine spec := by
  rcases h.cases_tail with htop | ⟨x, -, hlists⟩
  · exact .inl htop
  · exact .inr hlists.oneLine

end Source

/-- Of the files of a loaded graph only the top file may have a name that is not on one line. -/
theorem Graph.oneLine_nameOf (hl : source.load options top = .ok g) (hf : f < g.files.size) :
    OneLine (g.nameOf f) ∨ g.nameOf f = top := by
  have hvisited := visited_of_load hl
  by_cases htransient : f = transientFile
  · refine .inl ?_
    rw [htransient, hvisited.front.1]
    decide
  · exact (hvisited.led f hf htransient).oneLine.symm

/-! ## Sessions -/

namespace Session

/-- The parameter is shown on one line exactly if its value is, whenever it can be evaluated. -/
theorem oneLine_shownValue (hunit : ∀ unit ∈ p.unit, OneLine unit) :
    OneLine (s.shownValue p) ↔
      ∀ v, ((s.graph.valueOf s.limits p).run []).1 = .ok v → v.OneLine := by
  rw [shownValue]
  cases ((s.graph.valueOf s.limits p).run []).1 with
  | ok v => simp [Parameter.oneLine_shown hunit]
  | error e =>
    have hundefined : OneLine undefinedText := by decide
    simp [hundefined]

/-- A parameter takes up one line of a table exactly if neither its value nor the name of a file
that declares it has a line feed. -/
theorem oneLine_shownRow (hl : source.load options top = .ok s.graph)
    (hp : p ∈ s.graph.visible) :
    (s.shownRow p).OneLine ↔
      (∀ v, ((s.graph.valueOf s.limits p).run []).1 = .ok v → v.OneLine) ∧
        ∀ entry ∈ s.valuesInChain p.key, OneLine entry.1 := by
  have hr := rooted_of_load hl
  have hdeclared := hr.whole.home.stored_of_visible? (Graph.mem_visible.mp hp)
  obtain ⟨u, hunit, -, hu⟩ := hr.exists_unit hdeclared
  have hunits : ∀ unit ∈ p.unit, OneLine unit := by
    intro unit hmem
    rw [hunit] at hmem
    obtain ⟨u', hu', rfl⟩ := Option.map_eq_some_iff.mp hmem
    exact MeasureUnit.oneLine_symbol (hu u' hu')
  rw [← oneLine_shownValue hunits]
  exact ⟨fun h => ⟨h.value, h.files⟩, fun h => ⟨Graph.oneLine_of_declared? hl hdeclared,
    Kind.oneLine_marked _ _, h.1, h.2⟩⟩

/-- The table of a loaded session has a row for each visible parameter, in the order of their
keys.  It has one line for the titles and one line for each row exactly if

  * no text in a value of a visible parameter has a line feed; raw values may have any; and
  * nor has the name of a file that declares one, which only that of the top file can have. -/
theorem oneLineEach_load (hload : Session.load source options top = .ok s) :
    ∃ text, (s.answer .table).1 = .text text ∧
      s.listing.1.map Row.name = s.graph.visible.map (fun p => p.name.text) ∧
      (Listing.OneLineEach text s.listing.1 ↔ ∀ p ∈ s.graph.visible,
        (∀ v, ((s.graph.valueOf s.limits p).run []).1 = .ok v → v.OneLine) ∧
          ∀ entry ∈ s.valuesInChain p.key, OneLine entry.1) ∧
      ∀ p ∈ s.graph.visible, ∀ entry ∈ s.valuesInChain p.key,
        OneLine entry.1 ∨ entry.1 = top := by
  have hagree := queriesAgree_of_whole (rooted_load hload).whole
  have hl : source.load options top = .ok s.graph := by
    obtain ⟨g, hg, rfl⟩ := load_eq_ok.mp hload
    exact hg
  refine ⟨Listing.table s.listing.1, rfl, ?_, ?_, ?_⟩
  · rw [hagree.shown, List.map_map]
    rfl
  · have hfiles : ∀ row ∈ s.listing.1, row.files ≠ [] := by
      rw [hagree.shown, List.forall_mem_map]
      intro p hp hnil
      have hfirst := (hagree.nearest p.key p (Graph.mem_visible.mp hp)).2
      rw [show s.valuesInChain p.key = [] from hnil] at hfirst
      cases hfirst
    rw [Listing.oneLineEach_table hfiles, hagree.shown, List.forall_mem_map]
    exact forall₂_congr fun p hp => oneLine_shownRow hl hp
  · intro p _ entry hentry
    obtain ⟨f, -, hf⟩ := List.mem_filterMap.mp hentry
    obtain ⟨q, hq, rfl⟩ := Option.map_eq_some_iff.mp hf
    exact Graph.oneLine_nameOf hl (Graph.lt_size_of_declared? hq)

/-- A text that is continued twice, before its quotes and within them. -/
def continuedFile : Source := fun spec =>
  if spec = "top" then .ok "s:Label =\n\"Hello\nWorld\"".toUTF8
  else .error (.cannotOpen spec "no such file")

/-- The text is shown with the line feed within its quotes, and its parameter has no line of its
own. -/
theorem oneLineEach_load_continuedFile :
    ∃ s p text, Session.load continuedFile { withDefaults := false } "top" = .ok s ∧
      s.graph.visible? ⟨"label"⟩ = some p ∧ p ∈ s.graph.visible ∧
      ((s.graph.valueOf s.limits p).run []).1 = .ok (.text "Hello\nWorld") ∧
      (s.answer .table).1 = .text text ∧ ¬ Listing.OneLineEach text s.listing.1 := by
  have hok : ((Session.load continuedFile { withDefaults := false } "top").toOption.any
      fun s => (s.graph.visible? ⟨"label"⟩).any fun p =>
        ((s.graph.valueOf s.limits p).run []).1.toOption == some (.text "Hello\nWorld")) = true := by
    decide +kernel
  obtain ⟨s, hs, hok⟩ := (Option.any_eq_true _ _).mp hok
  obtain ⟨p, hp, hvalue⟩ := (Option.any_eq_true _ _).mp hok
  have hload := toOption_eq_some.mp hs
  have hvalue := toOption_eq_some.mp (eq_of_beq hvalue)
  have hmem : p ∈ s.graph.visible := by
    refine Graph.mem_visible.mpr ?_
    rw [Graph.key_of_visible? hp]
    exact hp
  obtain ⟨text, htext, -, hlines, -⟩ := oneLineEach_load hload
  refine ⟨s, p, text, hload, hp, hmem, hvalue, htext, fun heach => ?_⟩
  have hshown : Text.OneLine "Hello\nWorld" :=
    (hlines.mp heach p hmem).1 _ hvalue "Hello\nWorld" List.mem_cons_self
  exact absurd hshown (by decide)

end Session

end ParameterChain
