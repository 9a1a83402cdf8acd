import PugWeave.Composition.Compose
import PugWeave.Error

namespace PugWeave.Composition

/-- A look at a path while templates are in progress, in the order in which they were entered. -/
structure Ask where
  progress : List Path
  path : Path
  found : Bool
  deriving DecidableEq, Repr

/-- The templates in progress once the look is over: one that was found is entered. -/
def Ask.stack (a : Ask) : List Path := if a.found then a.progress ++ [a.path] else a.progress

structure Found (paths : List Path) (p : Path) where
  template : Template
  listed : paths.any p.same = true

/-- Where a composition takes its templates from. Only listed paths have one. -/
structure Source (m : Type → Type) where
  paths : List Path
  fail : {α : Type} → Error → m α
  ask : (progress : List Path) → (p : Path) → m (Found paths p)

theorem countP_lt_countP {α : Type} {p q : α → Bool} {l : List α} (h : ∀ a ∈ l, p a → q a) {a : α}
    (ha : a ∈ l) (hp : p a = false) (hq : q a = true) : l.countP p < l.countP q := by
  obtain ⟨s, t, rfl⟩ := List.append_of_mem ha
  have hs := List.countP_mono_left (l := s) fun b hb => h b (by simp [hb])
  have ht := List.countP_mono_left (l := t) fun b hb => h b (by simp [hb])
  simp [List.countP_append, hp, hq]
  omega

def remaining (paths progress : List Path) : Nat := paths.countP fun p => !progress.any p.same

theorem remaining_lt {paths progress : List Path} {p : Path} (listed : paths.any p.same = true)
    (hp : ¬progress.any p.same = true) :
    remaining paths (progress ++ [p]) < remaining paths progress := by
  obtain ⟨q, hq, hs⟩ := List.any_eq_true.1 listed
  have hqp : q.same = p.same := by
    funext r
    simp [Path.same, Path.same_iff.1 hs]
  refine countP_lt_countP (fun r _ hr => ?_) hq ?_ ?_
  · simp_all
  · simp [hqp]
  · simpa [hqp] using hp

def resolve {m : Type → Type} [Monad m] (source : Source m) (rules : Rules) (progress : List Path)
    (table : Overrides) (path : Path) : m Composed :=
  let p := rules.complete path
  if hp : progress.any p.same then source.fail (.circular (progress ++ [p]))
  else do
    let found ← source.ask progress p
    have := remaining_lt found.listed hp
    composeTemplate rules (resolve source rules (progress ++ [p])) table found.template
  termination_by remaining source.paths progress

end PugWeave.Composition
