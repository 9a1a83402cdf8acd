import PugWeave.Proofs.Composition.Trace

namespace PugWeave

def Files.SameText (F G : Files) (p : Path) : Prop := ∃ t, F.text p = .ok t ∧ G.text p = .ok t

theorem Files.SameText.congr {F G : Files} {p q : Path} (h : p.components = q.components)
    (hp : F.SameText G p) : F.SameText G q := by
  obtain ⟨t, hF, hG⟩ := hp
  exact ⟨t, Workspace.text_congr h hF, Workspace.text_congr h hG⟩

theorem Files.modified_of_text {F : Files} {p : Path} {t : Text} (h : F.text p = .ok t) :
    ∃ time, F.modified p = .ok time := by
  obtain ⟨time, ht⟩ := Files.text_eq_ok_iff.1 h
  exact ⟨time, Files.modified_eq_ok_iff.2 ⟨_, ht⟩⟩

def Template.Twin (t u : Template) : Prop := u = { t with modified := u.modified }

theorem Template.read_twin {rules : Rules} {p : Path} {time : Nat} {raw : Text} {t : Template}
    (h : Template.read rules p time raw = .ok t) (time' : Nat) :
    ∃ u, Template.read rules p time' raw = .ok u ∧ t.Twin u ∧ u.modified = time' := by
  rw [Template.read] at h ⊢
  dsimp only at h ⊢
  split at h
  · cases h
  · cases h
  · cases h
    exact ⟨_, rfl, rfl, rfl⟩

theorem Cache.templates_keep_new {c : Cache} {t : Template} (h : c.find? t.path = none) :
    (c.keep t).templates = c.templates ++ [t] := by simp [keep, h]

theorem rel_find? {α β : Type} {R : α → β → Prop} {l : List α} {m : List β}
    (h : List.Forall₂ R l m) {p : α → Bool} {q : β → Bool} (hpq : ∀ a b, R a b → p a = q b) :
    Option.Rel R (l.find? p) (m.find? q) := by
  induction h with
  | nil => exact .none
  | @cons a b _ _ hab _ ih =>
    rw [List.find?_cons, List.find?_cons, ← hpq a b hab]
    cases p a with
    | true => exact .some hab
    | false => exact ih

namespace Workspace

structure Abreast (F G : Files) (w v : Workspace) : Prop where
  rules : w.rules = v.rules
  left : w.files.Alike F
  right : v.files.Alike G
  kept : List.Forall₂ (fun t u => t.Twin u ∧ F.modified t.path = .ok t.modified ∧
    G.modified u.path = .ok u.modified) w.cache.templates v.cache.templates

variable {F G : Files} {w v : Workspace}

theorem Abreast.find? (h : w.Abreast F G v) (p : Path) :
    Option.Rel (fun t u => t.Twin u ∧ F.modified p = .ok t.modified ∧ G.modified p = .ok u.modified)
      (w.cache.find? p) (v.cache.find? p) := by
  have found := rel_find? h.kept (p := fun t => p.same t.path) (q := fun t => p.same t.path)
    (fun t u htu => by rw [htu.1])
  rw [Cache.find?, Cache.find?]
  cases ht : w.cache.templates.find? fun t => p.same t.path <;>
    cases hu : v.cache.templates.find? fun t => p.same t.path <;> rw [ht, hu] at found
  · exact .none
  · cases found
  · cases found
  · rename_i t u
    have same := List.find?_some ht
    have path := (Path.same_iff.1 same).symm
    cases found with
    | some htu =>
      refine .some ⟨htu.1, modified_congr path htu.2.1, modified_congr ?_ htu.2.2⟩
      rw [htu.1]
      exact path

theorem Abreast.load (h : w.Abreast F G v) {p : Path} (same : F.SameText G p)
    {time time' : Nat} (hF : F.modified p = .ok time) (hG : G.modified p = .ok time')
    (hw : w.cache.find? p = none) (hv : v.cache.find? p = none) {t : Template}
    (ht : (w.load p time).1 = .ok t) :
    ∃ u, (v.load p time').1 = .ok u ∧ t.Twin u ∧
      (w.load p time).2.Abreast F G (v.load p time').2 := by
  obtain ⟨raw, hraw, hraw'⟩ := same
  rw [← h.left.text] at hraw
  rw [← h.right.text] at hraw'
  simp only [Workspace.load, read, hraw, hraw', ← h.rules] at ht ⊢
  cases hr : Template.read w.rules p time raw with
  | error e => simp [hr] at ht
  | ok t' =>
    obtain rfl : t' = t := by simpa [hr] using ht
    obtain ⟨u, hu, twin, rfl⟩ := Template.read_twin hr time'
    obtain ⟨rfl, rfl⟩ := Template.path_of_read hr
    have path := (Template.path_of_read hu).1
    rw [hu]
    refine ⟨u, rfl, twin, rfl, ?_, ?_, ?_⟩
    · exact (Files.alike_markRead _ _).trans h.left
    · exact (Files.alike_markRead _ _).trans h.right
    · have new : w.cache.load.find? t'.path = none := hw
      have new' : v.cache.load.find? u.path = none := path ▸ hv
      dsimp only
      rw [Cache.templates_keep_new new, Cache.templates_keep_new new']
      refine List.rel_append h.kept (.cons ⟨twin, hF, ?_⟩ .nil)
      rw [path]
      exact hG

theorem Abreast.fetch (h : w.Abreast F G v) {p : Path} (same : F.SameText G p) {t : Template}
    (ht : (w.fetch p).1 = .ok t) :
    ∃ u, (v.fetch p).1 = .ok u ∧ t.Twin u ∧ (w.fetch p).2.Abreast F G (v.fetch p).2 := by
  obtain ⟨time, hF⟩ : ∃ time, F.modified p = .ok time := Files.modified_of_text same.choose_spec.1
  obtain ⟨time', hG⟩ : ∃ time, G.modified p = .ok time := Files.modified_of_text same.choose_spec.2
  have kept := h.find? p
  simp only [Workspace.fetch, h.left.modified, h.right.modified, hF, hG] at ht ⊢
  -- What one has kept the other has kept too.
  cases hw : w.cache.find? p with
  | none =>
    rw [hw] at kept
    cases hv : v.cache.find? p with
    | none =>
      simp only [hw] at ht
      exact h.load same hF hG hw hv ht
    | some u =>
      rw [hv] at kept
      cases kept
  | some t' =>
    rw [hw] at kept
    cases hv : v.cache.find? p with
    | none =>
      rw [hv] at kept
      cases kept
    | some u =>
      rw [hv] at kept
      cases kept with
      | some twins =>
        obtain ⟨twin, ht', hu⟩ := twins
        rw [hF] at ht'
        rw [hG] at hu
        cases ht'
        cases hu
        simp only [hw, if_true] at ht
        cases ht
        simp only [if_true]
        exact ⟨u, rfl, twin, h.rules, h.left, h.right, h.kept⟩

end Workspace

namespace Composition

variable {paths paths' : List Path}

noncomputable def Source.within (source : Source (Run paths)) (good : Set Path) :
    Source (Run paths) where
  paths := source.paths
  fail := source.fail
  ask progress p :=
    open Classical in if p ∈ good then source.ask progress p else Run.fail (.missing p)

theorem Source.ask_within_of_mem {source : Source (Run paths)} {good : Set Path} {p : Path}
    (h : p ∈ good) (progress : List Path) :
    (source.within good).ask progress p = source.ask progress p := if_pos h

theorem Source.ask_within_of_notMem {source : Source (Run paths)} {good : Set Path} {p : Path}
    (h : p ∉ good) (progress : List Path) :
    (source.within good).ask progress p = Run.fail (.missing p) := if_neg h

def Run.inside (paths : List Path) (good : Set Path) : Comparison (Run paths) (Run paths) where
  same := Eq
  components := @components_of_eq
  holds R x y := ∀ s, s.asks ⊆ (x s).2.asks ∧
    ∀ a, (x s).1 = .ok a → (∃ b, R a b) ∧
      ((∀ k ∈ (x s).2.asks, k.path ∈ good) → ∃ b, y s = (.ok b, (x s).2) ∧ R a b)
  pure h s := by
    refine ⟨List.Subset.refl _, ?_⟩
    intro a ha
    cases ha
    exact ⟨⟨_, h⟩, fun _ => ⟨_, rfl, h⟩⟩
  bind := by
    intro α β γ δ R S x y f g hx hf s
    change s.asks ⊆ (andThen x f s).2.asks ∧
      ∀ a, (andThen x f s).1 = .ok a → (∃ b, S a b) ∧
        ((∀ k ∈ (andThen x f s).2.asks, k.path ∈ good) →
          ∃ b, andThen y g s = (.ok b, (andThen x f s).2) ∧ S a b)
    obtain ⟨grown, hx⟩ := hx s
    simp only [andThen]
    rcases hxs : x s with ⟨e | a, t⟩
    · rw [hxs] at grown
      exact ⟨grown, by simp⟩
    · rw [hxs] at grown hx
      obtain ⟨⟨b, hab⟩, hx⟩ := hx a rfl
      refine ⟨List.Subset.trans grown (hf a b hab t).1, ?_⟩
      intro c hc
      refine ⟨((hf a b hab t).2 c hc).1, ?_⟩
      intro all
      obtain ⟨b, hy, hab⟩ := hx fun k hk => all k ((hf a b hab t).1 hk)
      rw [hy]
      exact ((hf a b hab t).2 c hc).2 all

def Run.abreast (F G : Files) (paths paths' : List Path) :
    Comparison (Run paths) (Run paths') :=
  Run.onward (Workspace.Abreast F G) paths paths'

namespace Run

theorem asks_ask (progress : List Path) (p : Path) (s : Session paths) :
    ∃ found, (ask progress p s).2.asks = s.asks ++ [⟨progress, p, found⟩] := by
  rw [ask]
  dsimp only
  split
  · exact ⟨false, rfl⟩
  · exact ⟨true, rfl⟩

theorem inside_ask {good : Set Path} {progress : List Path} {p : Path} :
    (inside paths good).holds
      (fun a b => (inside paths good).Alike a.template b.template ∧ True)
      (ask progress p) (((source paths).within good).ask progress p) := by
  intro s
  obtain ⟨found, hasks⟩ := asks_ask progress p s
  have alike (a : Found paths p) : (inside paths good).Alike a.template a.template ∧ True :=
    ⟨⟨rfl, fun _ => rfl, rfl, rfl⟩, trivial⟩
  rw [hasks]
  refine ⟨List.subset_append_left _ _, ?_⟩
  intro a ha
  refine ⟨⟨a, alike a⟩, ?_⟩
  intro all
  have mem : p ∈ good := all ⟨progress, p, found⟩ (by simp)
  refine ⟨a, ?_, alike a⟩
  rw [Source.ask_within_of_mem mem]
  exact Prod.ext ha rfl

theorem abreast_ask {F G : Files} {progress : List Path} {p : Path} :
    (abreast F G paths paths').holds
      (fun a b => (abreast F G paths paths').Alike a.template b.template ∧ True)
      (((source paths).within {p | F.SameText G p}).ask progress p) (ask progress p) := by
  intro s s' hs a ha
  by_cases same : F.SameText G p
  · rw [Source.ask_within_of_mem same] at ha ⊢
    have ha : (ask progress p s).1 = .ok a := ha
    have left := template_ask progress p s
    rw [ha] at left
    obtain ⟨u, hu, twin, next⟩ := hs.fetch same left.symm
    rw [← template_ask progress] at hu
    rw [← workspace_ask progress, ← workspace_ask progress] at next
    cases hb : (ask progress p s').1 with
    | error e =>
      rw [hb] at hu
      cases hu
    | ok b =>
      rw [hb] at hu
      cases hu
      have alike : (abreast F G paths paths').Alike a.template b.template := by
        constructor <;> rw [twin]
        · rfl
        · exact fun _ => rfl
      exact ⟨b, rfl, ⟨alike, trivial⟩, next⟩
  · rw [Source.ask_within_of_notMem same] at ha
    cases ha

end Run

end Composition

namespace Workspace

open PugWeave.Composition

/-- A session that finds all its templates comes to the same over files in which these have the same
texts, if both start with nothing kept. -/
theorem session_of_sameText {w : Workspace} (empty : w.cache.templates = []) {entry : Path}
    {c : Composed} (h : (w.session entry).1 = .ok c) {G : Files}
    (same : ∀ a ∈ (w.session entry).2.asks, w.files.SameText G a.path) :
    ({ w with files := G }.session entry).1 = .ok c := by
  let v : Workspace := { w with files := G }
  let good : Set Path := {p | w.files.SameText G p}
  have table : Overrides.Agree [] [] := fun _ => rfl
  -- The session asks for nothing but good paths, over which the two are abreast.
  have inside : (Run.inside w.files.paths good).holds (Composed.Agree Eq)
      (Composition.resolve (Run.source w.files.paths) w.rules [] [] entry)
      (Composition.resolve ((Run.source w.files.paths).within good) w.rules [] [] entry) := by
    refine Comparison.resolve _ (P := fun _ => True) ?_ (fun _ _ => Run.inside_ask) trivial table _
    intro progress p _ _ s
    exact ⟨List.Subset.refl _, fun a ha => by cases ha⟩
  have abreast : (Run.abreast w.files G w.files.paths v.files.paths).holds (Composed.Agree Eq)
      (Composition.resolve ((Run.source w.files.paths).within good) w.rules [] [] entry)
      (Composition.resolve (Run.source v.files.paths) w.rules [] [] entry) := by
    refine Comparison.resolve _ (P := fun _ => True) ?_ (fun _ _ => Run.abreast_ask) trivial table _
    intro progress p _ _ s s' _ a ha
    cases ha
  obtain ⟨d, hd, hcd⟩ := ((inside w.opened).2 c h).2 same
  -- Nothing is kept at the start, so that the two are abreast there.
  have start : w.Abreast w.files G v := by
    refine ⟨rfl, .refl _, .refl _, ?_⟩
    rw [empty]
    exact .nil
  obtain ⟨e, he, hde, -⟩ := abreast w.opened v.opened start d (by rw [hd])
  rw [Composed.agree_eq_iff.1 hcd, Composed.agree_eq_iff.1 hde]
  exact he

def artifact (w : Workspace) (c : Composed) : Artifact :=
  ⟨render w.rules.indentUnit w.rules.separator c.rows, c.deps⟩

theorem resolve_eq_ok_iff {w : Workspace} {entry : Path} {a : Artifact} :
    (w.resolve entry).1 = .ok a ↔
      ∃ c, (w.session (w.entryPath entry)).1 = .ok c ∧ w.artifact c = a := by
  have : (w.resolve entry).1 = (w.session (w.entryPath entry)).1.map w.artifact := rfl
  rw [this]
  cases (w.session (w.entryPath entry)).1 <;> simp [Except.map]

/-- An artifact is determined by the texts of the templates that it reports. -/
theorem artifact_determined {w : Workspace} (empty : w.cache.templates = []) {entry : Path}
    {a : Artifact} (h : (w.resolve entry).1 = .ok a) {G : Files}
    (same : ∀ p ∈ a.deps.templates, ∃ t, w.files.text p = .ok t ∧ G.text p = .ok t) :
    ({ w with files := G }.resolve entry).1 = .ok a := by
  obtain ⟨c, hc, rfl⟩ := resolve_eq_ok_iff.1 h
  apply resolve_eq_ok_iff.2
  refine ⟨c, session_of_sameText empty hc ?_, rfl⟩
  intro k hk
  have reported := ((reported_of_session hc).1 k hk).2
  obtain ⟨⟨p, assets⟩, hp, hs⟩ := List.any_eq_true.1 reported
  exact Files.SameText.congr (Path.same_iff.1 hs) (same p (List.mem_map_of_mem hp))

theorem artifact_determined_page :
    let file (t : String) (time : Nat) : File := { content := .text t.toList, modified := time }
    let rules : Rules := ⟨2, .lf, [⟨some "img".toList, "src".toList⟩], "pug".toList, by decide⟩
    let page := "extends layout\nblock b\n  include part"
    let layout := "block b\n  include other\nimg(src='a.png')"
    let w : Workspace := {
      rules
      files := { entries := [(.ofString "/page.pug", file page 1),
        (.ofString "/layout.pug", file layout 1), (.ofString "/part.pug", file "p" 1),
        (.ofString "/other.pug", file "p" 1)] } }
    let G : Files := { entries := [(.ofString "/layout.pug", file layout 2),
      (.ofString "/page.pug", file page 3), (.ofString "/part.pug", file "p" 1)] }
    let a : Artifact := {
      content := "p\nimg(src=/a.png)".toList
      deps := ⟨[(.ofString "/page.pug", []), (.ofString "/part.pug", []),
        (.ofString "/layout.pug", [.ofString "/a.png"])]⟩ }
    (w.resolve (.ofString "page")).1 = .ok a ∧
      ({ w with files := G }.resolve (.ofString "page")).1 = .ok a := by
  intro file rules page layout w G a
  let c : Composed := { rows := [⟨0, "p".toList⟩, ⟨0, "img(src=/a.png)".toList⟩], deps := a.deps }
  have done : (w.session (w.entryPath (.ofString "page"))).1 = .ok c :=
    session_of_within (by decide : 4 < 5) (by decide +kernel)
  have resolved : (w.resolve (.ofString "page")).1 = .ok a :=
    resolve_eq_ok_iff.2 ⟨c, done, by decide +kernel⟩
  refine ⟨resolved, artifact_determined rfl resolved ?_⟩
  intro p hp
  have hp : p = .ofString "/page.pug" ∨ p = .ofString "/part.pug" ∨
      p = .ofString "/layout.pug" := by
    simpa [a, DependencyMap.templates] using hp
  rcases hp with rfl | rfl | rfl
  · exact ⟨page.toList, rfl, rfl⟩
  · exact ⟨"p".toList, rfl, rfl⟩
  · exact ⟨layout.toList, rfl, rfl⟩

end Workspace

end PugWeave
