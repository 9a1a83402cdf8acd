import Mathlib.Data.List.Perm.Subperm
import PugWeave.Composition.Session
import PugWeave.Proofs.Composition.Comparison

namespace PugWeave.Composition

structure Distinct (paths progress : List Path) : Prop where
  pairwise : progress.Pairwise fun p q => ¬p.same q = true
  listed : ∀ p ∈ progress, paths.any p.same = true

namespace Distinct

theorem nil (paths : List Path) : Distinct paths [] := ⟨.nil, by simp⟩

theorem push {paths progress : List Path} (h : Distinct paths progress) {p : Path}
    (listed : paths.any p.same = true) (hp : ¬progress.any p.same = true) :
    Distinct paths (progress ++ [p]) := by
  constructor
  · rw [List.pairwise_append]
    refine ⟨h.pairwise, List.pairwise_singleton _ _, ?_⟩
    intro q hq r hr hs
    obtain rfl : r = p := by simpa using hr
    apply hp
    rw [List.any_eq_true]
    exact ⟨q, hq, by simpa [Path.same, eq_comm] using hs⟩
  · intro q hq
    rcases List.mem_append.1 hq with hq | hq
    · exact h.listed q hq
    · obtain rfl : q = p := by simpa using hq
      exact listed

theorem length_le {paths progress : List Path} (h : Distinct paths progress) :
    progress.length ≤ paths.length := by
  have nodup : (progress.map Path.components).Nodup := by
    rw [List.Nodup, List.pairwise_map]
    exact h.pairwise.imp fun hs he => hs (Path.same_iff.2 he)
  have subset : progress.map Path.components ⊆ paths.map Path.components := by
    intro c hc
    obtain ⟨p, hp, rfl⟩ := List.mem_map.1 hc
    obtain ⟨q, hq, hs⟩ := List.any_eq_true.1 (h.listed p hp)
    exact List.mem_map.2 ⟨q, hq, (Path.same_iff.1 hs).symm⟩
  simpa using (nodup.subperm subset).length_le

end Distinct

namespace Run

variable {paths : List Path}

def looks (paths : List Path) (Q : Ask → Prop) : Comparison (Run paths) (Run paths) where
  same := Eq
  components := @components_of_eq
  holds R x _ := ∀ s, (∀ a ∈ s.asks, Q a) →
    (∀ a ∈ (x s).2.asks, Q a) ∧ ∀ r, (x s).1 = .ok r → ∃ r', R r r'
  pure h s hs := ⟨hs, fun _ hr => ⟨_, by cases hr; exact h⟩⟩
  bind := by
    intro α β γ δ R S x y f g hx hf s hs
    obtain ⟨hq, hr⟩ := hx s hs
    change (∀ a ∈ (andThen x f s).2.asks, Q a) ∧ ∀ r, (andThen x f s).1 = .ok r → ∃ r', S r r'
    simp only [andThen]
    rcases hxs : x s with ⟨e | a, s'⟩
    · rw [hxs] at hq
      exact ⟨hq, by simp⟩
    · rw [hxs] at hq hr
      obtain ⟨b, hab⟩ := hr a rfl
      exact hf a b hab s' hq

theorem looks_ask {Q : Ask → Prop} {progress : List Path} {p : Path}
    (hQ : ∀ found, (found = true → paths.any p.same = true) → Q ⟨progress, p, found⟩)
    {R : Found paths p → Found paths p → Prop} (hR : ∀ a, R a a) :
    (looks paths Q).holds R (ask progress p) (ask progress p) := by
  intro s hs
  rw [ask]
  dsimp only
  split
  · refine ⟨?_, by simp⟩
    intro a ha
    rcases List.mem_append.1 ha with ha | ha
    · exact hs a ha
    · obtain rfl := by simpa using ha
      exact hQ false (by simp)
  · rename_i t h
    constructor
    · intro a ha
      rcases List.mem_append.1 ha with ha | ha
      · exact hs a ha
      · obtain rfl := by simpa using ha
        exact hQ true fun _ => s.paths_eq ▸ Workspace.listed_of_fetch h
    · intro r _
      exact ⟨r, hR r⟩

end Run

/-- Composition with room for a number of nested templates. It comes to nothing when the room does
not suffice. -/
def resolveWithin {m : Type → Type} [Monad m] (source : Source m) (rules : Rules) :
    Nat → List Path → Overrides → Path → OptionT m Composed
  | 0, _, _, _ => failure
  | room + 1, progress, table, path =>
    let p := rules.complete path
    if progress.any p.same then .lift (source.fail (.circular (progress ++ [p])))
    else do
      let found ← .lift (source.ask progress p)
      composeTemplate rules (resolveWithin source rules room (progress ++ [p])) table found.template

def Run.reaching (paths : List Path) : Comparison (OptionT (Run paths)) (Run paths) where
  same := Eq
  components := @components_of_eq
  holds R x y := ∀ s,
    (∃ a b s', x s = (.ok (some a), s') ∧ y s = (.ok b, s') ∧ R a b) ∨
      ∃ e s', x s = (.error e, s') ∧ y s = (.error e, s')
  pure h s := .inl ⟨_, _, s, rfl, rfl, h⟩
  bind := by
    intro α β γ δ R S x y f g hx hf s
    rcases hx s with ⟨a, b, s', hxs, hys, hab⟩ | ⟨e, s', hxs, hys⟩
    · have left : (x >>= f) s = f a s' := by
        change Run.andThen x _ s = _
        rw [Run.andThen, hxs]
      have right : (y >>= g) s = g b s' := by
        change Run.andThen y g s = _
        rw [Run.andThen, hys]
      rw [left, right]
      exact hf a b hab s'
    · have left : (x >>= f) s = (.error e, s') := by
        change Run.andThen x _ s = _
        rw [Run.andThen, hxs]
      have right : (y >>= g) s = (.error e, s') := by
        change Run.andThen y g s = _
        rw [Run.andThen, hys]
      exact .inr ⟨e, s', left, right⟩

theorem Run.reaching_lift {paths : List Path} {α : Type} (x : Run paths α) :
    (Run.reaching paths).holds Eq (OptionT.lift x) x := by
  intro s
  have lift : OptionT.lift x s = Run.andThen x (fun a => pure (some a)) s := rfl
  rw [lift, Run.andThen]
  cases hx : x s with
  | mk outcome s' =>
    cases outcome with
    | error e => exact .inr ⟨e, s', rfl, rfl⟩
    | ok a => exact .inl ⟨a, a, s', rfl, rfl, rfl⟩

theorem resolveWithin_reaching {paths : List Path} {rules : Rules} (room : Nat) :
    ∀ {progress : List Path} {T U : Overrides} (path : Path), T.Agree U →
      remaining paths progress < room →
      (Run.reaching paths).holds (Composed.Agree Eq)
        (resolveWithin (Run.source paths) rules room progress T path)
        (resolve (Run.source paths) rules progress U path) := by
  induction room with
  | zero => intro _ _ _ _ _ h; exact absurd h (Nat.not_lt_zero _)
  | succ room ih =>
    intro progress T U path table h
    rw [resolveWithin, resolve]
    dsimp only
    have lift {x : Run paths Composed} :
        (Run.reaching paths).holds (Composed.Agree Eq) (OptionT.lift x) x := by
      have : Composed.Agree Eq = Eq := by
        funext c d
        exact propext Composed.agree_eq_iff
      rw [this]
      exact Run.reaching_lift x
    by_cases hp : progress.any (rules.complete path).same = true
    · rw [if_pos hp, dif_pos hp]
      exact lift
    · rw [if_neg hp, dif_neg hp]
      apply (Run.reaching paths).bind (Run.reaching_lift _)
      intro a b hab
      subst hab
      apply (Run.reaching paths).composeTemplate _ table ⟨rfl, fun _ => rfl, rfl, rfl⟩
      intro T U q hTU
      exact ih q hTU (Nat.lt_of_lt_of_le (remaining_lt a.listed hp) (Nat.lt_succ_iff.1 h))

theorem Run.ok_of_reaching {paths : List Path} {x : OptionT (Run paths) Composed}
    {y : Run paths Composed} (h : (reaching paths).holds (Composed.Agree Eq) x y) {s : Session paths}
    {c : Composed} (hx : (x.run s).1 = .ok (some c)) : (y s).1 = .ok c := by
  rcases h s with ⟨a, b, s', hxs, hys, hab⟩ | ⟨e, s', hxs, -⟩
  · obtain rfl := Composed.agree_eq_iff.1 hab
    rw [show x.run s = _ from hxs] at hx
    cases hx
    rw [hys]
  · rw [show x.run s = _ from hxs] at hx
    cases hx

theorem ok_of_resolveWithin {paths : List Path} {rules : Rules} {room : Nat} {progress : List Path}
    (h : remaining paths progress < room) {table : Overrides} {path : Path} {s : Session paths}
    {c : Composed}
    (hc : ((resolveWithin (Run.source paths) rules room progress table path).run s).1 =
      .ok (some c)) :
    (resolve (Run.source paths) rules progress table path s).1 = .ok c :=
  Run.ok_of_reaching (resolveWithin_reaching room path (fun _ => rfl) h) hc

theorem composeNodes_ok_of_within {paths : List Path} {rules : Rules} {room : Nat}
    {progress : List Path} (h : remaining paths progress < room) {directory : Path}
    {table : Overrides} {nodes : List Directive.Node} {s : Session paths} {c : Composed}
    (hc : ((composeNodes rules (resolveWithin (Run.source paths) rules room progress) directory table
      nodes).run s).1 = .ok (some c)) :
    (composeNodes rules (resolve (Run.source paths) rules progress) directory table nodes s).1 =
      .ok c := by
  have setting : (Run.reaching paths).Setting
      (resolveWithin (Run.source paths) rules room progress)
      (resolve (Run.source paths) rules progress) directory directory table table :=
    ⟨fun p tables => resolveWithin_reaching room p tables h, fun _ => rfl, fun _ => rfl⟩
  exact Run.ok_of_reaching (setting.composeNodes nodes) hc

end PugWeave.Composition

namespace PugWeave.Workspace

open PugWeave.Composition

def sessionWithin (w : Workspace) (room : Nat) (entry : Path) :
    Except Error (Option Composed) × Session w.files.paths :=
  (resolveWithin (Run.source w.files.paths) w.rules room [] [] entry).run w.opened

theorem find?_isSome_of_listed {w : Workspace} {p : Path} (h : w.files.paths.any p.same = true) :
    (w.files.find? p).isSome = true := by
  simp only [Files.paths, List.any_map, List.any_eq_true] at h
  simp only [Files.find?, Option.isSome_map, List.find?_isSome]
  exact h

theorem remaining_lt_room {w : Workspace} {room : Nat} (h : w.files.entries.length < room)
    (progress : List Path) : remaining w.files.paths progress < room := by
  have : remaining w.files.paths progress ≤ w.files.paths.length := List.countP_le_length
  have : w.files.paths.length = w.files.entries.length := List.length_map _
  omega

theorem sessionWithin_eq (w : Workspace) {room : Nat} (h : w.files.entries.length < room)
    (entry : Path) :
    w.sessionWithin room entry = ((w.session entry).1.map some, (w.session entry).2) := by
  have enough : remaining w.files.paths [] < room := remaining_lt_room h []
  have table : Overrides.Agree [] [] := fun _ => rfl
  rw [sessionWithin, session]
  rcases resolveWithin_reaching room entry table enough w.opened with
    ⟨c, d, s, hx, hy, hcd⟩ | ⟨e, s, hx, hy⟩
  · rw [hy, ← Composed.agree_eq_iff.1 hcd]
    exact hx
  · rw [hy]
    exact hx

theorem session_of_within {w : Workspace} {room : Nat} (h : w.files.entries.length < room)
    {entry : Path} {c : Composed} (hc : (w.sessionWithin room entry).1 = .ok (some c)) :
    (w.session entry).1 = .ok c :=
  ok_of_resolveWithin (remaining_lt_room h []) hc

theorem session_error_of_within {w : Workspace} {room : Nat} (h : w.files.entries.length < room)
    {entry : Path} {e : Error} (he : (w.sessionWithin room entry).1 = .error e) :
    (w.session entry).1 = .error e := by
  rw [w.sessionWithin_eq h] at he
  cases hs : (w.session entry).1 with
  | error e' => simpa [hs, Except.map] using he
  | ok c => simp [hs, Except.map] at he

theorem resolve_within {w : Workspace} {room : Nat} (h : w.files.entries.length < room)
    (entry : Path) :
    (w.resolve entry).1.map Artifact.content =
      (w.sessionWithin room (w.entryPath entry)).1.map (fun c =>
        (c.map fun c => render w.rules.indentUnit w.rules.separator c.rows).getD []) ∧
    (w.resolve entry).2 = (w.sessionWithin room (w.entryPath entry)).2.workspace := by
  rw [w.sessionWithin_eq h]
  refine ⟨?_, rfl⟩
  simp only [Workspace.resolve, compose]
  cases (w.session (w.entryPath entry)).1 <;> rfl

theorem distinct_of_mem_asks (w : Workspace) (entry : Path) {a : Ask}
    (ha : a ∈ (w.session entry).2.asks) :
    Distinct w.files.paths a.progress ∧ Distinct w.files.paths a.stack := by
  let C := Run.looks w.files.paths fun a =>
    Distinct w.files.paths a.progress ∧ Distinct w.files.paths a.stack
  let source := Run.source w.files.paths
  have fail {progress : List Path} {p : Path} (_ : Distinct w.files.paths progress)
      (_ : progress.any p.same = true) :
      C.holds (Composed.Agree C.same) (source.fail (.circular (progress ++ [p])))
        (source.fail (.circular (progress ++ [p]))) :=
    fun s hs => ⟨hs, by simp [source, Run.source, Run.fail]⟩
  have ask {progress : List Path} {p : Path} (hP : Distinct w.files.paths progress)
      (hp : ¬progress.any p.same = true) :
      C.holds (fun a b => C.Alike a.template b.template ∧
        Distinct w.files.paths (progress ++ [p])) (source.ask progress p)
        (source.ask progress p) := by
    apply Run.looks_ask
    · intro found listed
      cases found with
      | false => exact ⟨hP, hP⟩
      | true => exact ⟨hP, hP.push (listed rfl) hp⟩
    · intro found
      exact ⟨⟨rfl, fun _ => rfl, rfl, rfl⟩, hP.push found.listed hp⟩
  have table : Overrides.Agree [] [] := fun _ => rfl
  have kept : C.holds (Composed.Agree C.same) (Composition.resolve source w.rules [] [] entry)
      (Composition.resolve source w.rules [] [] entry) :=
    C.resolve fail ask (.nil _) table entry
  exact (kept w.opened (by simp [opened])).1 a ha

/-- With room for one more template than there are files, a session always comes to its end. The
templates in progress are then files that differ pairwise. -/
theorem session_terminates (w : Workspace) (entry : Path) :
    (∀ room, w.files.entries.length < room →
      w.sessionWithin room entry = ((w.session entry).1.map some, (w.session entry).2)) ∧
    ∀ a ∈ (w.session entry).2.asks, ∀ stack ∈ [a.progress, a.stack],
      stack.Pairwise (fun p q => ¬p.same q = true) ∧
      (∀ p ∈ stack, (w.files.find? p).isSome = true) ∧
      stack.length ≤ w.files.entries.length := by
  refine ⟨fun room h => w.sessionWithin_eq h entry, ?_⟩
  intro a ha stack hstack
  -- What is in progress are different paths out of those of the files.
  have distinct : Distinct w.files.paths stack := by
    have both := w.distinct_of_mem_asks entry ha
    simp only [List.mem_cons, List.not_mem_nil, or_false] at hstack
    cases hstack with
    | inl h => exact h ▸ both.1
    | inr h => exact h ▸ both.2
  refine ⟨distinct.pairwise, fun p hp => find?_isSome_of_listed (distinct.listed p hp), ?_⟩
  have := distinct.length_le
  rwa [Files.paths, List.length_map] at this

end PugWeave.Workspace
