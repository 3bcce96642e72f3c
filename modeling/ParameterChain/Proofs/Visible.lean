/-
# Reads and checks see the same declaration

A name is looked up in two ways.  Reads follow the chain of parents, on which a shared
file stands behind all of its includers; the checks of a load walk the includes in
pre-order, on which it stands behind the first of them.  In general the two find
different declarations.  In the graph of a session they never do, because a file whose
includes disagree on a name has to declare the name itself.

Main statement: `visible?_run`.
-/
import ParameterChain.Proofs.Run

namespace ParameterChain.Session

/-- Whatever is done to a loaded session, for every key a read finds what a walk of the
includes from the transient file finds first, and every file that declares the key is
below the file that declares what is found. -/
theorem visible?_run {source : Source} {options : LoadOptions} {top : String} {s : Session}
    (hload : Session.load source options top = .ok s) (steps : List Step) (k : Key) :
    (s.run steps).graph.visible? k = (s.run steps).graph.firstFound? transientFile k ∧
      ∀ f p, (s.run steps).graph.declared? f k = some p →
        ∃ q, (s.run steps).graph.visible? k = some q ∧
          (s.run steps).graph.Below q.file f := by
  have hrooted : (s.run steps).graph.Rooted := rooted_run (rooted_load hload) steps
  exact hrooted.whole.visible?_eq k

/-! ## Two arms that share a file -/

/-- Two files that include a third, one of them with a value of its own, and a file that
includes both and has to decide. -/
def sharedArms : Source := fun spec =>
  if spec = "base" then .ok "u:X = 1".toUTF8
  else if spec = "left" then .ok "includeFile = base\nu:X = 2".toUTF8
  else if spec = "right" then .ok "includeFile = base".toUTF8
  else if spec = "top" then .ok "includeFile = left right\nu:X = 5".toUTF8
  else .error (.cannotOpen spec "no such file")

/-- An edit of the shared name, and another name for it. -/
def sharedEdits : List Step :=
  [.change ⟨"X", "7", true⟩, .clone "X" "Y"]

theorem visible?_run_sharedArms :
    ∃ s, Session.load sharedArms { withDefaults := false } "top" = .ok s ∧
      let g := (s.run sharedEdits).graph
      g.files.size = 5 ∧ (g.visible? ⟨"x"⟩).isSome ∧
        g.visible? ⟨"x"⟩ = g.firstFound? transientFile ⟨"x"⟩ ∧
          ∀ f p, g.declared? f ⟨"x"⟩ = some p →
            ∃ q, g.visible? ⟨"x"⟩ = some q ∧ g.Below q.file f := by
  have hok : (match Session.load sharedArms { withDefaults := false } "top" with
      | .ok s =>
          let g := (s.run sharedEdits).graph
          g.files.size == 5 && (g.visible? ⟨"x"⟩).isSome
      | .error _ => false) = true := by
    decide +kernel
  cases hload : Session.load sharedArms { withDefaults := false } "top" with
  | error e => exact nomatch hload ▸ hok
  | ok s =>
    rw [hload] at hok
    simp only [Bool.and_eq_true, beq_iff_eq] at hok
    exact ⟨s, rfl, hok.1, hok.2, visible?_run hload sharedEdits ⟨"x"⟩⟩

end ParameterChain.Session
