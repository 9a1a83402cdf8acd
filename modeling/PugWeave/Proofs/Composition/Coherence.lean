import PugWeave.Composition.Session
import PugWeave.Proofs.Composition.Comparison
import PugWeave.Proofs.Template.Agreement

namespace PugWeave.Workspace

open PugWeave.Composition

structure Coherent (w v : Workspace) : Prop where
  rules : w.rules = v.rules
  template : ∀ p, SameOutcome Template.Agree (w.template p) (v.template p)

namespace Coherent

variable {w v : Workspace}

theorem refl (w : Workspace) : w.Coherent w := ⟨rfl, fun _ => .refl Template.Agree.refl _⟩

theorem trans {u : Workspace} (h : u.Coherent v) (h' : v.Coherent w) : u.Coherent w :=
  ⟨h.rules.trans h'.rules, fun p => (h.template p).trans (fun h => h.trans) (h'.template p)⟩

theorem error (h : v.Coherent w) {p : Path} {e : Error} :
    v.template p = .error e ↔ w.template p = .error e := by
  have both := h.template p
  generalize v.template p = x, w.template p = y at both
  cases both with
  | ok => simp
  | error => rfl

theorem fetch (h : w.Coherent v) (p : Path) : (w.fetch p).2.Coherent v := by
  constructor
  · rw [rules_fetch, h.rules]
  · intro q
    exact (w.template_fetch p q).trans (fun h => h.trans) (h.template q)

theorem visit (h : w.Coherent v) (asks : List Ask) : (w.visit asks).Coherent v := by
  induction asks generalizing w with
  | nil => exact h
  | cons a rest ih => exact ih (h.fetch a.path)

end Coherent

theorem visit_append (w : Workspace) (asks more : List Ask) :
    w.visit (asks ++ more) = (w.visit asks).visit more := by simp [visit]

end PugWeave.Workspace

namespace PugWeave.Composition

def Run.reading (paths : List Path) (v : Workspace) : Comparison (Run paths) Visit where
  same := samePath
  components := id
  holds R x y := ∀ s, s.workspace.Coherent v →
    SameOutcome R (x s).1 y.outcome ∧ (x s).2.asks = s.asks ++ y.asks ∧
      (x s).2.workspace = s.workspace.visit y.asks
  pure h s _ := ⟨.ok h, (List.append_nil _).symm, rfl⟩
  bind := by
    intro α β γ δ R S x y f g hx hf s hs
    change SameOutcome S (andThen x f s).1 (y.andThen g).outcome ∧
      (andThen x f s).2.asks = s.asks ++ (y.andThen g).asks ∧
      (andThen x f s).2.workspace = s.workspace.visit (y.andThen g).asks
    have hx := hx s hs
    simp only [andThen, Visit.andThen]
    cases hxs : x s with
    | mk outcome s' =>
      simp only [hxs] at hx
      cases hy : y.outcome with
      | error e =>
        rw [hy] at hx
        cases outcome with
        | ok a => cases hx.1
        | error e' =>
          cases hx.1
          exact ⟨.error, hx.2⟩
      | ok b =>
        rw [hy] at hx
        cases outcome with
        | error e => cases hx.1
        | ok a =>
          cases hx.1 with
          | ok hab =>
            have hs' : s'.workspace.Coherent v := hx.2.2 ▸ hs.visit y.asks
            have next := hf a b hab s' hs'
            rw [hx.2.1, hx.2.2, List.append_assoc, ← Workspace.visit_append] at next
            exact next

theorem Run.reading_ask {paths : List Path} {v : Workspace} {progress : List Path} {p : Path} :
    (Run.reading paths v).holds
      (fun a b => (Run.reading paths v).Alike a.template b.template ∧ True)
      (Run.ask progress p) (v.library.ask progress p) := by
  intro s hs
  have both := hs.template p
  simp only [Workspace.template] at both
  rw [Run.ask, Library.ask]
  dsimp only
  split
  · rename_i e he
    split
    · rename_i e' he'
      have he' : (v.fetch p).1 = .error e' := he'
      rw [he, he'] at both
      cases both
      exact ⟨.error, rfl, rfl⟩
    · rename_i t ht
      have ht : (v.fetch p).1 = .ok t := ht
      rw [he, ht] at both
      cases both
  · rename_i t ht
    split
    · rename_i e' he'
      have he' : (v.fetch p).1 = .error e' := he'
      rw [ht, he'] at both
      cases both
    · rename_i u hu
      have hu : (v.fetch p).1 = .ok u := hu
      rw [ht, hu] at both
      cases both with
      | ok agree =>
        have alike : (Run.reading paths v).Alike t u :=
          ⟨agree.path, agree.resolve, agree.nodes, agree.assets⟩
        exact ⟨.ok ⟨alike, trivial⟩, rfl, rfl⟩

theorem Run.reading_resolve {paths : List Path} {v : Workspace} {s : Session paths}
    (h : s.workspace.Coherent v) {rules : Rules} {progress : List Path} {T U : Overrides}
    (table : T.Agree U) (path : Path) :
    let left := resolve (Run.source paths) rules progress T path s
    let right := resolve v.library.source rules progress U path
    SameOutcome (Composed.Agree samePath) left.1 right.outcome ∧
      left.2.asks = s.asks ++ right.asks ∧ left.2.workspace = s.workspace.visit right.asks := by
  have compared : (Run.reading paths v).holds (Composed.Agree samePath)
      (resolve (Run.source paths) rules progress T path)
      (resolve v.library.source rules progress U path) :=
    Comparison.resolve _ (P := fun _ => True)
      (fun _ _ _ _ => ⟨.error, (List.append_nil _).symm, rfl⟩) (fun _ _ => Run.reading_ask) trivial
      table path
  exact compared s h

def Run.onward (K : Workspace → Workspace → Prop) (paths paths' : List Path) :
    Comparison (Run paths) (Run paths') where
  same := Eq
  components := @components_of_eq
  holds R x y := ∀ s s', K s.workspace s'.workspace → ∀ a, (x s).1 = .ok a →
    ∃ b, (y s').1 = .ok b ∧ R a b ∧ K (x s).2.workspace (y s').2.workspace
  pure h s s' hs := by
    intro a ha
    cases ha
    exact ⟨_, rfl, h, hs⟩
  bind := by
    intro α β γ δ R S x y f g hx hf s s' hs
    change ∀ a, (andThen x f s).1 = .ok a → ∃ b, (andThen y g s').1 = .ok b ∧ S a b ∧
      K (andThen x f s).2.workspace (andThen y g s').2.workspace
    have hx := hx s s' hs
    simp only [andThen]
    rcases hxs : x s with ⟨e | a, t⟩
    · simp
    · rw [hxs] at hx
      obtain ⟨b, hb, hab, ht⟩ := hx a rfl
      rcases hys : y s' with ⟨e | b', t'⟩
      · rw [hys] at hb
        cases hb
      · rw [hys] at hb ht
        cases hb
        exact hf a b hab t t' ht

namespace Run

variable {paths : List Path}

theorem template_ask (progress : List Path) (p : Path) (s : Session paths) :
    (ask progress p s).1.map Found.template = (s.workspace.fetch p).1 := by
  rw [ask]
  dsimp only
  split
  · rename_i h
    exact h.symm
  · rename_i h
    exact h.symm

theorem workspace_ask (progress : List Path) (p : Path) (s : Session paths) :
    (ask progress p s).2.workspace = (s.workspace.fetch p).2 := by
  rw [ask]
  dsimp only
  split <;> rfl

end Run

end PugWeave.Composition

namespace PugWeave.Workspace

open PugWeave.Composition

def composition (w : Workspace) (entry : Path) : Visit Composed :=
  Composition.resolve w.library.source w.rules [] [] entry

theorem Coherent.session {w v : Workspace} (h : w.Coherent v) (entry : Path) :
    SameOutcome (Composed.Agree samePath) (w.session entry).1 (v.composition entry).outcome ∧
      (w.session entry).2.asks = (v.composition entry).asks ∧
      (w.session entry).2.workspace = w.visit (v.composition entry).asks := by
  rw [composition, ← h.rules]
  exact Run.reading_resolve (s := w.opened) h (fun _ => rfl) entry

theorem exists_composition {w : Workspace} {entry : Path} {c : Composed}
    (h : (w.session entry).1 = .ok c) :
    ∃ d, (w.composition entry).outcome = .ok d ∧ c.Agree samePath d :=
  ((Coherent.refl w).session entry).1.exists_ok h

/-- A composition does nothing to its workspace but look at templates. -/
theorem resolve_eq_visit (w : Workspace) (entry : Path) :
    (w.resolve entry).2 = w.visit (w.composition (w.entryPath entry)).asks :=
  ((Coherent.refl w).session (w.entryPath entry)).2.2

theorem looksAt_eq (w : Workspace) (entry : Path) :
    w.looksAt entry = (w.composition (w.entryPath entry)).asks.map Ask.path :=
  congrArg (List.map Ask.path) ((Coherent.refl w).session (w.entryPath entry)).2.1

end PugWeave.Workspace
