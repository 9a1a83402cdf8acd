import PugWeave.Proofs.Composition.Coherence
import PugWeave.Proofs.Composition.Termination

namespace PugWeave.Composition

namespace Run

variable {paths : List Path}

theorem onward_ask {progress progress' : List Path} (fewer : Fewer progress progress')
    (p : Path) : (onward Eq paths paths).holds
      (fun a b => (onward Eq paths paths).Alike a.template b.template ∧
        Fewer (progress ++ [p]) (progress' ++ [p]))
      (ask progress p) (ask progress' p) := by
  intro s s' hs a ha
  have left := template_ask progress p s
  rw [ha, hs, ← template_ask progress'] at left
  cases hb : (ask progress' p s').1 with
  | error e =>
    rw [hb] at left
    cases left
  | ok b =>
    rw [hb] at left
    have alike : (onward Eq paths paths).Alike a.template b.template := by
      rw [show a.template = b.template from Except.ok.inj left]
      exact ⟨rfl, fun _ => rfl, rfl, rfl⟩
    exact ⟨b, rfl, ⟨alike, fewer.append p⟩, by rw [workspace_ask, workspace_ask, hs]⟩

theorem onward_resolve {rules : Rules} {progress progress' : List Path}
    (fewer : Fewer progress progress') {T U : Overrides} (table : T.Agree U) (path : Path) :
    (onward Eq paths paths).holds (Composed.Agree Eq)
      (resolve (source paths) rules progress T path)
      (resolve (source paths) rules progress' U path) := by
  refine (onward Eq paths paths).resolve_beside (P := Fewer) ?_ ?_ fewer table path
  · intro _ _ _ _ _ _ s s' _ a ha
    cases ha
  · intro _ _ p fewer new
    exact ⟨fun again => new (fewer p again), onward_ask fewer p⟩

end Run

end PugWeave.Composition

namespace PugWeave

open PugWeave.Composition

def Workspace.alone (w : Workspace) : Enter (Except Error) := fun table p =>
  (Composition.resolve (Run.source w.files.paths) w.rules [] table p w.opened).1

theorem Workspace.alone_nil (w : Workspace) (p : Path) : w.alone [] p = (w.session p).1 := rfl

namespace Composition.Run

variable {paths : List Path}

def Settles (v : Workspace) (R : α → β → Prop) (x : Run paths α) (y : Except Error β) : Prop :=
  ∀ s, s.workspace.Coherent v → ∀ a, (x s).1 = .ok a →
    (∃ b, y = .ok b ∧ R a b) ∧ (x s).2.workspace.Coherent v

theorem Settles.bind {v : Workspace} {R : α → β → Prop} {S : γ → δ → Prop} {x : Run paths α}
    {y : Except Error β} {f : α → Run paths γ} {g : β → Except Error δ} (hx : Settles v R x y)
    (hf : ∀ a b, R a b → Settles v S (f a) (g b)) : Settles v S (andThen x f) (y >>= g) := by
  intro s hs
  have hx := hx s hs
  rw [andThen]
  rcases hxs : x s with ⟨e | a, t⟩
  · intro c hc
    cases hc
  · rw [hxs] at hx
    obtain ⟨⟨b, rfl, hab⟩, ht⟩ := hx a rfl
    exact hf a b hab t ht

def settling (paths : List Path) (v : Workspace) : Comparison (Run paths) (Except Error) where
  same := samePath
  components := components_of_samePath
  holds := Settles v
  pure h s hs := by
    intro a ha
    cases ha
    exact ⟨⟨_, rfl, h⟩, hs⟩
  bind := Settles.bind

theorem settling_resolve {v : Workspace} (progress : List Path) {T U : Overrides} (table : T.Agree U)
    (path : Path) :
    (settling paths v).holds (Composed.Agree samePath)
      (resolve (source paths) v.rules progress T path) (v.alone U path) := by
  intro s hs c hc
  have fewer : ∀ p : Path, ([] : List Path).any p.same = true → progress.any p.same = true := by simp
  have still : T.Agree T := fun _ => rfl
  obtain ⟨d, hd, same, after⟩ := onward_resolve fewer still path s s rfl c hc
  obtain rfl := Composed.agree_eq_iff.1 same
  obtain ⟨within, -, visited⟩ := reading_resolve hs table path
  obtain ⟨own, -, -⟩ := reading_resolve (s := v.opened) (.refl v) (fun _ => rfl : U.Agree U) path
  have both : SameOutcome (Composed.Agree samePath) (resolve (source paths) v.rules [] T path s).1
      (v.alone U path) :=
    within.trans (fun h h' => h.trans h') (own.symm fun h => h.symm)
  refine ⟨both.exists_ok hd, ?_⟩
  rw [after, visited]
  exact hs.visit _

end Composition.Run

/-- Wherever nodes are composed, each include among them stands for what its target comes to as an
entry of its own, at the depth of the include. What succeeds comes to the same with fewer templates
in progress. -/
theorem Composition.Session.includes_isolated {paths : List Path} (s : Session paths)
    (progress : List Path) :
    let w := s.workspace
    let enter := resolve (Run.source paths) w.rules progress
    (∀ directory table nodes c, (composeNodes w.rules enter directory table nodes s).1 = .ok c →
      ∃ d, composeNodes w.rules w.alone directory table nodes = .ok d ∧ c.Agree samePath d) ∧
    (∀ directory table indent text target,
      composeNode w.rules w.alone directory table (.inclusion indent text target) =
        (w.session (directory.resolve ⟨target⟩)).1.map fun c =>
          ⟨[⟨indent, render w.rules.indentUnit w.rules.separator c.rows⟩], c.deps⟩) ∧
    ∀ fewer table path c, (∀ p ∈ fewer, progress.any p.same = true) →
      (enter table path s).1 = .ok c →
        (resolve (Run.source paths) w.rules fewer table path s).1 = .ok c ∧
          (resolve (Run.source paths) w.rules fewer table path s).2.workspace =
            (enter table path s).2.workspace := by
  intro w enter
  refine ⟨?_, ?_, ?_⟩
  · intro directory table nodes c hc
    have setting : (Run.settling paths w).Setting enter w.alone directory directory table table :=
      ⟨fun p tables => Run.settling_resolve progress tables p, fun _ => rfl, fun _ => rfl⟩
    exact (setting.composeNodes nodes s (.refl w) c hc).1
  · intro directory table indent text target
    rw [composeNode, Workspace.alone_nil]
    cases (w.session (directory.resolve ⟨target⟩)).1 <;> rfl
  · intro fewer table path c among hc
    have fewer_of : ∀ p : Path, fewer.any p.same = true → progress.any p.same = true := by
      intro p hp
      obtain ⟨q, hq, same⟩ := List.any_eq_true.1 hp
      obtain ⟨r, hr, same'⟩ := List.any_eq_true.1 (among q hq)
      refine List.any_eq_true.2 ⟨r, hr, Path.same_iff.2 ?_⟩
      rw [Path.same_iff.1 same, Path.same_iff.1 same']
    obtain ⟨d, hd, agree, after⟩ :=
      Run.onward_resolve fewer_of (fun _ => rfl : table.Agree table) path s s rfl c hc
    obtain rfl := Composed.agree_eq_iff.1 agree
    exact ⟨hd, after.symm⟩

theorem Composition.Session.includes_isolated_block :
    let file (t : String) : File := { content := .text t.toList, modified := 1 }
    let w : Workspace := {
      rules := ⟨2, .lf, [⟨some "img".toList, "src".toList⟩], "pug".toList, by decide⟩
      files := { entries := [(.ofString "/page.pug", file "include part"),
        (.ofString "/part.pug", file "extends base\nblock side\n  img(src='b.png')"),
        (.ofString "/base.pug", file "nav\n  block side")] } }
    let progress := [.ofString "/page.pug"]
    let table : Overrides := [⟨"side".toList, .replace, [⟨0, "p".toList⟩]⟩]
    let nodes : List Directive.Node := [.block 1 "block body".toList "body".toList .replace
      [.inclusion 3 "include part".toList "part".toList],
      .block 0 "block side".toList "side".toList .replace []]
    let c : Composed := {
      rows := [⟨2, "nav\n  img(src=/b.png)".toList⟩, ⟨0, "p".toList⟩]
      deps := ⟨[(.ofString "/part.pug", [.ofString "/b.png"]), (.ofString "/base.pug", [])]⟩ }
    let enter := resolve (Run.source w.files.paths) w.rules progress
    (composeNodes w.rules enter (.ofString "/") table nodes w.opened).1 = .ok c ∧
      (∃ d, composeNodes w.rules w.alone (.ofString "/") table nodes = .ok d ∧
        c.Agree samePath d) ∧
      ∃ c, (enter table (.ofString "/part.pug") w.opened).1 = .ok c ∧
        (resolve (Run.source w.files.paths) w.rules [] table (.ofString "/part.pug")
          w.opened).1 = .ok c := by
  intro file w progress table nodes c enter
  have done : (composeNodes w.rules enter (.ofString "/") table nodes w.opened).1 = .ok c :=
    composeNodes_ok_of_within (by decide +kernel : _ < 4) (by decide +kernel)
  obtain ⟨alone, -, shorter⟩ := includes_isolated w.opened progress
  let part : Composed := {
    rows := [⟨0, "nav".toList⟩, ⟨1, "p".toList⟩]
    deps := c.deps }
  have inner : (enter table (.ofString "/part.pug") w.opened).1 = .ok part :=
    ok_of_resolveWithin (by decide +kernel : _ < 4) (by decide +kernel)
  exact ⟨done, alone _ _ _ _ done, part, inner, (shorter [] _ _ _ (by simp) inner).1⟩

end PugWeave
