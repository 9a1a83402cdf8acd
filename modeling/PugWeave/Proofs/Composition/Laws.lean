import PugWeave.Composition.Library

namespace PugWeave.Composition

instance : LawfulMonad Visit := by
  refine LawfulMonad.mk' Visit ?_ ?_ ?_
  · intro α x
    change x.andThen Visit.done = x
    obtain ⟨asks, e | a⟩ := x <;> simp [Visit.andThen, Visit.done]
  · intro α β a f
    rfl
  · intro α β γ x f g
    change (x.andThen f).andThen g = x.andThen fun a => (f a).andThen g
    obtain ⟨asks, e | a⟩ := x
    · rfl
    · cases hf : (f a).outcome <;> simp [Visit.andThen, hf]

instance (paths : List Path) : LawfulMonad (Run paths) := by
  refine LawfulMonad.mk' (Run paths) ?_ ?_ ?_
  · intro α x
    funext s
    change x.andThen Run.done s = x s
    rw [Run.andThen]
    rcases x s with ⟨e | a, s'⟩ <;> rfl
  · intro α β a f
    rfl
  · intro α β γ x f g
    funext s
    change (x.andThen f).andThen g s = x.andThen (fun a => (f a).andThen g) s
    simp only [Run.andThen]
    rcases x s with ⟨e | a, s'⟩ <;> rfl

theorem Visit.outcome_map (f : α → β) (x : Visit α) : (f <$> x).outcome = x.outcome.map f := by
  change (x.andThen fun a => done (f a)).outcome = _
  obtain ⟨asks, e | a⟩ := x <;> rfl

theorem Run.bind_apply {paths : List Path} {x : Run paths α} {s s' : Session paths} {a : α}
    (h : x s = (.ok a, s')) (f : α → Run paths β) : (x >>= f) s = f a s' := by
  change x.andThen f s = _
  rw [andThen, h]

theorem Run.map_apply {paths : List Path} (f : α → β) (x : Run paths α) (s : Session paths) :
    (f <$> x) s = ((x s).1.map f, (x s).2) := by
  change x.andThen (fun a => done (f a)) s = _
  rw [andThen]
  rcases x s with ⟨e | a, s'⟩ <;> rfl

end PugWeave.Composition
