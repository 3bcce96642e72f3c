/-
# The names that time features go by

A declaration of `Tf/Ramp/Function` or `Tf/Ramp/Values` is meant to describe the feature whose
base is `Tf/Ramp`.  The base is cut out of the key, and the same number of bytes is cut out of
the name as it was written, so that the feature shows the spelling of its declaration.  Lower
case can change the number of bytes; then the cut is made elsewhere and the feature goes by
another name.

So a feature is built under the base of its own declaration exactly if the base takes up as
many bytes as written as it does in the key, or the cut falls within a character or behind the
end of the name, which is given up and the key taken in place of it
(`TimeFeature.key_of_declaration`).  Then the value of the base is the value of the feature, and
the inputs of the feature are what is declared beside it.
-/
import ParameterChain.Proofs.Origin
import ParameterChain.Proofs.Spelling

namespace ParameterChain

variable {d : Declaration} {base : Key} {source : FeatureSource} {feature : TimeFeature}
  {written : String}

/-! ## The base as written -/

/-- The last part of the keys that declare a feature. -/
def FeatureSource.ending : FeatureSource → String
  | .function => "function"
  | .values => "values"

theorem Key.text_of_dropEnd? {k k' : Key} {tail : String} (h : k.dropEnd? tail = some k') :
    k.text = k'.text ++ tail := by
  rw [dropEnd?] at h
  split at h
  · next hends =>
    cases h
    obtain ⟨start, hstart⟩ := List.isSuffixOf_iff_suffix.mp hends
    have hlength := congrArg List.length hstart
    rw [List.length_append, String.length_toList, String.length_toList] at hlength
    apply String.toList_inj.mp
    rw [String.toList_append, String.toList_ofList, ← hstart]
    congr 1
    have htake : k.text.length - tail.length = start.length := by omega
    rw [htake, List.take_left]
  · cases h

/-- A key that declares a feature is the base with one of the two endings. -/
theorem Key.text_of_featureBase? {k : Key} (h : k.featureBase? = some (base, source)) :
    k.text = base.text ++ "/" ++ source.ending := by
  have hends : ∀ {ending : String}, k.dropEnd? ("/" ++ ending) = some base →
      k.text = base.text ++ "/" ++ ending := by
    intro ending hdrop
    rw [text_of_dropEnd? hdrop, String.append_assoc]
  rw [featureBase?] at h
  split at h
  · cases h
  split at h
  · next hvalues =>
    cases h
    exact hends hvalues
  · obtain ⟨base', hfunction, heq⟩ := Option.map_eq_some_iff.mp h
    cases heq
    exact hends hfunction

/-- The declaration writes the base of its feature as `written`, in front of a slash and its
ending. -/
structure Declaration.WritesBase (d : Declaration) (base : Key) (written : String) : Prop where
  name : ∃ ending, d.name.text = written ++ "/" ++ ending
  key : Key.ofText written = base

/-- A beginning of the name has the base for its key. -/
theorem Declaration.exists_writesBase (h : d.key.featureBase? = some (base, source)) :
    ∃ written, d.WritesBase base written := by
  have htext : (Text.lowerFrom [] d.name.text.toList) =
      base.text.toList ++ '/' :: source.ending.toList := by
    have hkey : d.key = Key.ofText d.name.text := d.name.key_eq
    have h := congrArg String.toList (Key.text_of_featureBase? h)
    rw [hkey, Key.ofText, Text.lowerCase, String.toList_ofList] at h
    rw [h]
    simp
  obtain ⟨ws, ts, hsplit, hws⟩ := Text.exists_of_lowerFrom_slash htext
  refine ⟨String.ofList ws, ⟨String.ofList ts, ?_⟩, ?_⟩
  · apply String.toList_inj.mp
    simpa using hsplit
  · rw [Key.ofText, Text.lowerCase, String.toList_ofList, hws, String.ofList_toList]

/-- Whether the spelling of the base has the base for its key depends on how many bytes the base
takes up in the name. -/
theorem Declaration.WritesBase.key_spellingOf_iff (h : d.WritesBase base written) :
    (d.spellingOf base).key = base ↔ written.utf8ByteSize = base.text.utf8ByteSize ∨
      takeBytes? base.text.utf8ByteSize d.name.text.toList = none := by
  obtain ⟨ending, hname⟩ := h.name
  have hleading : written.toList <+: d.name.text.toList := by
    rw [hname, String.append_assoc, String.toList_append]
    exact List.prefix_append _ _
  rw [spellingOf]
  cases hcut : takeBytes? base.text.utf8ByteSize d.name.text.toList with
  | none =>
    have hkey : Key.ofText base.text = base := by
      rw [← h.key, Key.ofText_text]
    exact ⟨fun _ => Or.inr rfl, fun _ => hkey⟩
  | some cs =>
    obtain ⟨hcs, hsize⟩ := takeBytes?_eq_some.mp hcut
    constructor
    · intro hkey
      have hkey : Key.ofText (String.ofList cs) = base := hkey
      rw [← h.key, Key.ofText, Key.ofText, Key.mk.injEq, Text.lowerCase, Text.lowerCase,
        String.ofList_inj, String.toList_ofList] at hkey
      have hsame := Text.eq_of_prefix_of_lowerFrom hcs hleading hkey
      rw [hsame, String.ofList_toList] at hsize
      exact Or.inl hsize
    · intro hwhole
      have hwhole := hwhole.resolve_right (by simp)
      have htake : takeBytes? base.text.utf8ByteSize d.name.text.toList = some written.toList :=
        takeBytes?_eq_some.mpr ⟨hleading, by rw [String.ofList_toList, hwhole]⟩
      cases hcut.symm.trans htake
      have hkey : Key.ofText (String.ofList written.toList) = base := by
        rw [String.ofList_toList]
        exact h.key
      exact hkey

/-! ## Features as they are described -/

namespace TimeFeature

/-- The feature is what the declaration says: its spelling of the base, and a function of the
clock with the kind and the unit of its numbers, or a step through the values of a table. -/
structure DescribedBy (feature : TimeFeature) (d : Declaration) (base : Key)
    (source : FeatureSource) : Prop where
  base_eq : feature.base = d.spellingOf base
  step_iff : feature.function = .step ↔ source = .values
  closed : source = .function →
    feature.kind = Kind.one .dimensioned ∧ feature.unit.isSome ∨
      feature.kind = Kind.one .unitless ∧ feature.unit = none
  table : source = .values → ∃ k, d.kind = some k ∧ k.isVector ∧ feature.kind = k.element ∧
    feature.unit.isSome = k.hasUnit

theorem ofFunction_eq_ok {name : Name} {rawValue : String}
    (h : ofFunction name rawValue = .ok (some feature)) :
    feature.base = name ∧ feature.function ≠ .step ∧
      (feature.kind = Kind.one .dimensioned ∧ feature.unit.isSome ∨
        feature.kind = Kind.one .unitless ∧ feature.unit = none) := by
  simp only [ofFunction] at h
  split at h
  · cases h
  split at h
  · cases h
  split at h
  · cases h
  next hstep =>
  split at h
  · cases h
  split at h
  · cases h
  next function hfunction =>
  have hne : function ≠ .step := by
    rintro rfl
    -- A function that goes by the name of the step makes no feature.
    refine hstep ?_
    have hname := List.find?_some hfunction
    simp only [Text.sameAscii, beq_iff_eq] at hname ⊢
    rw [← hname]
    rfl
  split at h
  · cases h
  split at h
  · cases h
    exact ⟨rfl, hne, Or.inr ⟨rfl, rfl⟩⟩
  split at h
  · cases h
    exact ⟨rfl, hne, Or.inl ⟨rfl, rfl⟩⟩
  · cases h

theorem ofValues_eq_ok {name : Name} {k : Kind} {rawValue : String}
    (h : ofValues name k rawValue = .ok feature) :
    feature.base = name ∧ feature.function = .step ∧ k.isVector ∧ feature.kind = k.element ∧
      feature.unit.isSome = k.hasUnit := by
  simp only [ofValues] at h
  split at h
  · cases h
  next hvector =>
  have hvector : k.isVector = true := by simpa using hvector
  split at h
  · cases h
  split at h
  · cases h
  split at h
  · cases h
  split at h
  · next hunit =>
    obtain ⟨unit, -, h⟩ := bind_eq_ok.mp h
    cases pure_eq_ok.mp h
    exact ⟨rfl, rfl, hvector, rfl, hunit.symm⟩
  · next hunit =>
    cases pure_eq_ok.mp h
    exact ⟨rfl, rfl, hvector, rfl, (Bool.eq_false_iff.mpr hunit).symm⟩

theorem ofDeclaration_eq_ok (h : ofDeclaration d = .ok (some feature)) :
    ∃ base source, d.key.featureBase? = some (base, source) ∧
      feature.DescribedBy d base source := by
  rw [ofDeclaration] at h
  split at h
  · cases h
  · next base hbase =>
    obtain ⟨heq, hne, hkind⟩ := ofFunction_eq_ok h
    refine ⟨base, .function, hbase, heq, ⟨fun hstep => absurd hstep hne, ?_⟩, fun _ => hkind, ?_⟩
    · rintro ⟨⟩
    · rintro ⟨⟩
  · next base hbase =>
    split at h
    · cases h
    next k hk =>
    obtain ⟨feature', hvalues, heq⟩ := map_eq_ok.mp h
    cases heq
    obtain ⟨heq, hstep, htable⟩ := ofValues_eq_ok hvalues
    refine ⟨base, .values, hbase, heq, ⟨fun _ => rfl, fun _ => hstep⟩, ?_, fun _ => ⟨k, hk, htable⟩⟩
    rintro ⟨⟩

end TimeFeature

/-! ## Features in a file -/

namespace Graph

variable {g : Graph} {f : FileId} {ds kinds : Declarations} {limits : Limits} {done : Commit}
  {o : Outline} {p : Parameter}

/-- A file stores the features that its declarations describe once they have inherited. -/
theorem mem_features_commit (hkinds : g.inheritKinds f ds = .ok kinds)
    (hc : g.commit limits f ds = .ok done) :
    feature ∈ done.features ↔
      ∃ d ∈ kinds.rows, TimeFeature.ofDeclaration d = .ok (some feature) := by
  obtain ⟨o, drafts, ho, -, rfl⟩ := commit_eq_ok.mp hc
  obtain ⟨ks, kinds', rows, -, hkinds', hrows, rfl⟩ := outline_eq_ok.mp ho
  cases hkinds.symm.trans hkinds'
  exact Declarations.mem_features hrows

/-- What a file declares as the value of a feature is the value of the last feature with that
base that it stores. -/
theorem isValueOf_of_mem_parameters (hds : ds.Distinct) (hc : g.commit limits f ds = .ok done)
    (hp : p ∈ done.parameters) (hplan : p.plan = .feature base) :
    ∃ feature, (done.features.reverse.find? fun x => x.key = base) = some feature ∧
      IsValueOf feature p := by
  obtain ⟨o, drafts, ho, hdraft, rfl⟩ := commit_eq_ok.mp hc
  obtain ⟨d, hd, hresolved⟩ := mem_of_mapM (draft_eq_ok hdraft) hp
  rcases mem_rows_cases hds ho hd with ⟨feature, -, hat, hvalue⟩ | ⟨hat, -⟩
  · have hvalue := isValueOf_of_draftOf hat hvalue hresolved
    cases hplan.symm.trans hvalue.plan
    refine ⟨feature, ?_, hvalue⟩
    obtain ⟨kind, resolved, -, -, rfl⟩ := draftOf_eq_ok.mp hresolved
    rw [TimeFeature.find?_base, ← hvalue.key]
    exact hat
  · -- No form of a raw value resolves to a time feature.
    obtain ⟨kind, resolved, -, hresolve, rfl⟩ := draftOf_eq_ok.mp hresolved
    rw [planOf] at hresolve
    simp only [hat, bind_eq_ok] at hresolve
    obtain ⟨resolved', hresolve, hkept⟩ := hresolve
    split at hkept
    · cases hkept
    obtain rfl : resolved' = resolved := pure_eq_ok.mp hkept
    have hplan : resolved'.plan = .feature base := hplan
    have hfits := Resolution.resolve_fits hresolve
    rw [hplan] at hfits
    exact hfits.elim

/-- The value of a feature that the graph has evaluates to the feature. -/
theorem IsValueOf.evalPlan_eq (hvalue : IsValueOf feature p)
    (hfound : g.feature? feature.key = some feature) (eval : Parameter → Traced Value) :
    g.evalPlan eval p = g.evalFeature eval feature g.clock := by
  have hplan : g.evalPlan eval p =
      Traced.ofOption (.undefined p.name.text) (g.feature? feature.key) >>= fun feature =>
        g.evalFeature eval feature g.clock := by
    rw [evalPlan, hvalue.plan]
  rw [hplan, hfound]
  rfl

end Graph

/-! ## Features under their own names -/

namespace TimeFeature

/-- The inputs of a feature lie below its base. -/
theorem key_input (feature : TimeFeature) (name : String) :
    Key.ofText (feature.input name) = ⟨feature.key.text ++ "/" ++ Text.lowerCase name⟩ := by
  rw [Key.ofText, input, Text.lowerCase_append_slash, key, feature.base.key_eq, Key.ofText]

/-- A declaration of a feature writes the base in front of its last slash.  The feature goes by
the base exactly if it takes up as many bytes as written as in the key, or cannot be cut out of
the name at all.  If it does, its value and its inputs are the parameters with their names below
the base, and a file that stores it declares the value, which evaluates to the last feature with
that base that the file describes. -/
theorem key_of_declaration (hbase : d.key.featureBase? = some (base, source))
    (hfeature : ofDeclaration d = .ok (some feature)) :
    ∃ written, d.WritesBase base written ∧
      (feature.key = base ↔ written.utf8ByteSize = base.text.utf8ByteSize ∨
        takeBytes? base.text.utf8ByteSize d.name.text.toList = none) ∧
      (feature.key = base →
        Key.ofText feature.valueName = base.ofValue ∧
        (∀ name, Key.ofText (feature.input name) = ⟨base.text ++ "/" ++ Text.lowerCase name⟩) ∧
        ∀ (g : Graph) limits f ds kinds done, ds.Distinct → f < g.files.size →
          g.commit limits f ds = .ok done → g.inheritKinds f ds = .ok kinds → d ∈ kinds.rows →
          ∃ p last, done.graph.declared? f base.ofValue = some p ∧ Graph.IsValueOf last p ∧
            done.graph.feature? base = some last ∧
            (∀ eval, done.graph.evalPlan eval p =
              done.graph.evalFeature eval last done.graph.clock) ∧
            ((∀ d' ∈ kinds.rows, ∀ other, ofDeclaration d' = .ok (some other) →
              other.key = base → other = feature) → last = feature)) := by
  obtain ⟨base', source', hbase', hdescribed⟩ := ofDeclaration_eq_ok hfeature
  cases hbase.symm.trans hbase'
  obtain ⟨written, hwritten⟩ := Declaration.exists_writesBase hbase
  refine ⟨written, hwritten, ?_, ?_⟩
  · rw [key, hdescribed.base_eq]
    exact hwritten.key_spellingOf_iff
  · intro hkey
    refine ⟨hkey ▸ feature.key_valueName, fun name => hkey ▸ feature.key_input name, ?_⟩
    intro g limits f ds kinds done hds hf hc hkinds hd
    have hmem : feature ∈ done.features :=
      (Graph.mem_features_commit hkinds hc).mpr ⟨d, hd, hfeature⟩
    obtain ⟨last, hlast⟩ : ∃ last,
        (done.features.reverse.find? fun x => x.key = base) = some last := by
      rw [← Option.isSome_iff_exists, List.find?_isSome]
      exact ⟨feature, List.mem_reverse.mpr hmem, decide_eq_true hkey⟩
    obtain ⟨p, hp, hvalue⟩ := Graph.exists_isValueOf_commit hds hf hc hlast
    have hfound : done.graph.feature? base = some last := by
      rw [Graph.feature?_commit hc, hlast, Option.some_or]
    have hlastKey : last.key = base := by simpa using List.find?_some hlast
    refine ⟨p, last, hp, hvalue, hfound, ?_, ?_⟩
    · exact hvalue.evalPlan_eq (hlastKey ▸ hfound)
    · intro honly
      have hlastMem := List.mem_reverse.mp (List.mem_of_find?_eq_some hlast)
      obtain ⟨d', hd', hother⟩ := (Graph.mem_features_commit hkinds hc).mp hlastMem
      exact honly d' hd' last hother hlastKey

/-- A ramp that grows by a length, under a name that begins like this. -/
def rampNamed (start : String) : Declaration :=
  ⟨Name.ofText (start ++ "/Function"), some (Kind.one .text), "\"Linear mm\"", false, 1⟩

/-- The Kelvin sign takes up three bytes and the small letter that it becomes one.  The letter
in the other name takes up two bytes in either case. -/
theorem key_of_declaration_kelvin :
    (∃ base feature written, (rampNamed "Tf/\u212Aabcdefgh").WritesBase base written ∧
      ofDeclaration (rampNamed "Tf/\u212Aabcdefgh") = .ok (some feature) ∧
      written.utf8ByteSize ≠ base.text.utf8ByteSize ∧ feature.key ≠ base) ∧
    ∃ base feature done p, feature.key = base ∧
      ofDeclaration (rampNamed "Tf/\u00C4rmel") = .ok (some feature) ∧
      (({} : Graph).addFile "top" []).commit {} 1 { rows := [rampNamed "Tf/\u00C4rmel"] } =
        .ok done ∧
      done.graph.declared? 1 base.ofValue = some p ∧ Graph.IsValueOf feature p := by
  constructor
  · have hkelvin : ∃ base feature, (rampNamed "Tf/\u212Aabcdefgh").key.featureBase? =
          some (base, .function) ∧
        ofDeclaration (rampNamed "Tf/\u212Aabcdefgh") = .ok (some feature) ∧
        feature.key ≠ base := by
      refine ⟨⟨"tf/kabcdefgh"⟩, ⟨Name.ofText "Tf/\u212Aabcdef", .linear, Kind.one .dimensioned,
        some "mm"⟩, ?_⟩
      decide +kernel
    obtain ⟨base, feature, hbase, hfeature, hne⟩ := hkelvin
    obtain ⟨written, hwritten, hiff, -⟩ := key_of_declaration hbase hfeature
    exact ⟨base, feature, written, hwritten, hfeature,
      fun hsize => hne (hiff.mpr (Or.inl hsize)), hne⟩
  · have hramp : ∃ feature,
        (rampNamed "Tf/\u00C4rmel").key.featureBase? = some (feature.key, .function) ∧
        ofDeclaration (rampNamed "Tf/\u00C4rmel") = .ok (some feature) := by
      refine ⟨⟨Name.ofText "Tf/\u00C4rmel", .linear, Kind.one .dimensioned, some "mm"⟩, ?_⟩
      decide +kernel
    obtain ⟨feature, hbase, hfeature⟩ := hramp
    have hcommit : ((({} : Graph).addFile "top" []).commit {} 1
        { rows := [rampNamed "Tf/\u00C4rmel"] }).toOption.isSome = true := by decide +kernel
    have hinherit : ((({} : Graph).addFile "top" []).inheritKinds 1
        { rows := [rampNamed "Tf/\u00C4rmel"] }).toOption.any fun kinds =>
          kinds.rows == [rampNamed "Tf/\u00C4rmel"] := by decide +kernel
    obtain ⟨done, hdone⟩ := Option.isSome_iff_exists.mp hcommit
    have hdone := toOption_eq_some.mp hdone
    obtain ⟨kinds, hkinds, hrows⟩ := (Option.any_eq_true _ _).mp hinherit
    have hkinds := toOption_eq_some.mp hkinds
    have hrows : kinds.rows = [rampNamed "Tf/\u00C4rmel"] := beq_iff_eq.mp hrows
    have hdistinct : ({ rows := [rampNamed "Tf/\u00C4rmel"] } : Declarations).Distinct :=
      List.nodup_singleton _
    obtain ⟨written, -, -, hnamed⟩ := key_of_declaration hbase hfeature
    obtain ⟨p, last, hp, hvalue, -, -, honly⟩ := (hnamed rfl).2.2 _ _ _ _ _ _ hdistinct
      (by decide) hdone hkinds (hrows ▸ List.mem_cons_self)
    have hsame : last = feature := by
      refine honly ?_
      intro d' hd' other hother _
      rw [hrows, List.mem_singleton] at hd'
      rw [hd', hfeature] at hother
      exact (Option.some.inj (Except.ok.inj hother)).symm
    exact ⟨feature.key, feature, done, p, rfl, hfeature, hdone, hp, hsame ▸ hvalue⟩

end TimeFeature

end ParameterChain
