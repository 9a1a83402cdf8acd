import PugWeave.Composition.Library
import PugWeave.Proofs.Path.Components
import PugWeave.Proofs.Template.Lookup

namespace PugWeave

inductive SameOutcome (R : α → β → Prop) : Except Error α → Except Error β → Prop
  | ok : R a b → SameOutcome R (.ok a) (.ok b)
  | error : SameOutcome R (.error e) (.error e)

namespace SameOutcome

theorem refl {R : α → α → Prop} (h : ∀ a, R a a) (x : Except Error α) : SameOutcome R x x := by
  cases x with
  | ok a => exact .ok (h a)
  | error e => exact .error

theorem symm {R : α → β → Prop} {S : β → α → Prop} (h : ∀ {a b}, R a b → S b a)
    {x : Except Error α} {y : Except Error β} (hx : SameOutcome R x y) : SameOutcome S y x := by
  cases hx with
  | ok hr => exact .ok (h hr)
  | error => exact .error

theorem trans {R : α → β → Prop} {S : β → γ → Prop} {T : α → γ → Prop}
    (h : ∀ {a b c}, R a b → S b c → T a c) {x : Except Error α} {y : Except Error β}
    {z : Except Error γ} (hx : SameOutcome R x y) (hy : SameOutcome S y z) :
    SameOutcome T x z := by
  cases hx with
  | ok hr =>
    cases hy with
    | ok hs => exact .ok (h hr hs)
  | error =>
    cases hy with
    | error => exact .error

theorem map {R : α → β → Prop} {S : γ → δ → Prop} {f : α → γ} {g : β → δ}
    (h : ∀ {a b}, R a b → S (f a) (g b)) {x : Except Error α} {y : Except Error β}
    (hx : SameOutcome R x y) : SameOutcome S (x.map f) (y.map g) := by
  cases hx with
  | ok hr => exact .ok (h hr)
  | error => exact .error

theorem exists_ok {R : α → β → Prop} {a : α} {x : Except Error α} {y : Except Error β}
    (h : SameOutcome R x y) (hx : x = .ok a) : ∃ b, y = .ok b ∧ R a b := by
  cases h with
  | ok hr =>
    cases hx
    exact ⟨_, rfl, hr⟩
  | error => cases hx

end SameOutcome

namespace Template

structure Agree (t u : Template) : Prop where
  path : t.path.components = u.path.components
  directory : t.directory.components = u.directory.components
  modified : t.modified = u.modified
  source : t.source = u.source
  tokens : t.tokens = u.tokens
  content : t.content = u.content
  nodes : t.nodes = u.nodes
  assets : t.assets = u.assets

theorem Agree.refl (t : Template) : t.Agree t := ⟨rfl, rfl, rfl, rfl, rfl, rfl, rfl, rfl⟩

theorem Agree.symm {t u : Template} (h : t.Agree u) : u.Agree t :=
  ⟨h.path.symm, h.directory.symm, h.modified.symm, h.source.symm, h.tokens.symm, h.content.symm,
    h.nodes.symm, h.assets.symm⟩

theorem Agree.trans {t u v : Template} (h : t.Agree u) (h' : u.Agree v) : t.Agree v :=
  ⟨h.path.trans h'.path, h.directory.trans h'.directory, h.modified.trans h'.modified,
    h.source.trans h'.source, h.tokens.trans h'.tokens, h.content.trans h'.content,
    h.nodes.trans h'.nodes, h.assets.trans h'.assets⟩

theorem Agree.resolve {t u : Template} (h : t.Agree u) (r : Path) :
    t.directory.resolve r = u.directory.resolve r :=
  Path.resolve_congr h.directory r

end Template

namespace Asset

theorem extract_congr {d d' : Path} (h : ∀ r, d.resolve r = d'.resolve r) (rules : Rules)
    (source : Text) (tokens : List Markup.Token) :
    extract rules d source tokens = extract rules d' source tokens := by
  have asset : asset? rules d = asset? rules d' := by
    funext tag name value
    simp only [asset?, h]
  have rewriting : Progress.rewriting? rules d = Progress.rewriting? rules d' := by
    funext p a
    simp only [Progress.rewriting?, asset]
  have attr : Progress.attr rules d = Progress.attr rules d' := by
    funext p a
    simp only [Progress.attr, rewriting]
  have token : Progress.token rules d = Progress.token rules d' := by
    funext p t
    cases t with
    | tag name line => rfl
    | attr name value line => cases value <;> simp only [Progress.token, attr]
  simp only [extract, token]

end Asset

namespace Template

theorem tokens?_congr {p q : Path} {t : Text} {tokens : List Markup.Token}
    (h : tokens? p t = .ok tokens) : tokens? q t = .ok tokens := by
  simp only [tokens?] at h ⊢
  split at h <;> simp_all

theorem path_of_read {rules : Rules} {p : Path} {modified : Nat} {raw : Text} {t : Template}
    (h : read rules p modified raw = .ok t) : t.path = p ∧ t.modified = modified := by
  rw [read] at h
  dsimp only at h
  split at h
  · simp at h
  · simp at h
  · obtain rfl := by simpa using h
    exact ⟨rfl, rfl⟩

theorem read_congr {rules : Rules} {p q : Path} (hp : p.components = q.components) {modified : Nat}
    {raw : Text} {t : Template} (h : read rules p modified raw = .ok t) :
    ∃ u, read rules q modified raw = .ok u ∧ t.Agree u := by
  rw [read] at h ⊢
  dsimp only at h ⊢
  split at h
  · simp at h
  · simp at h
  · rename_i hraw hsource
    obtain rfl := by simpa using h
    rw [tokens?_congr hraw, tokens?_congr hsource]
    have := Asset.extract_congr (Path.parent_resolve_congr hp)
    exact ⟨_, rfl, hp, by rw [Path.components_parent, Path.components_parent, hp], rfl, rfl, rfl,
      by rw [this], by rw [this], by rw [this]⟩

end Template

theorem Cache.templates_keep {c d : Cache} (h : c.templates = d.templates) (t : Template) :
    (c.keep t).templates = (d.keep t).templates := by
  unfold Cache.keep Cache.find?
  rw [h]
  split <;> rfl

namespace Workspace

def kept? (w : Workspace) (p : Path) (modified : Nat) : Option Template :=
  (w.cache.find? p).filter (·.modified = modified)

theorem template_eq (w : Workspace) (p : Path) : w.template p =
    match w.files.modified p with
    | .error failure => .error (.ofIo p failure)
    | .ok modified =>
      match w.kept? p modified with
      | some t => .ok t
      | none => w.read p modified := by
  have load (modified : Nat) : (w.load p modified).1 = w.read p modified := by
    simp only [Workspace.load]
    cases w.read p modified <;> rfl
  simp only [template, fetch, kept?]
  cases w.files.modified p with
  | error failure => rfl
  | ok modified =>
    dsimp only
    cases w.cache.find? p with
    | none => exact load modified
    | some t =>
      dsimp only
      by_cases h : t.modified = modified
      · simp [h, Option.filter_some]
      · simp [h, load, Option.filter_some]

@[simp] theorem rules_fetch (w : Workspace) (p : Path) : (w.fetch p).2.rules = w.rules := by
  have load (modified : Nat) : (w.load p modified).2.rules = w.rules := by
    simp only [Workspace.load]
    split <;> rfl
  simp only [fetch]
  split
  · rfl
  · split
    · exact load _
    · split
      · rfl
      · exact load _

theorem kept?_eq_some_iff {w : Workspace} {p : Path} {modified : Nat} {t : Template} :
    w.kept? p modified = some t ↔ w.cache.find? p = some t ∧ t.modified = modified := by
  rw [kept?, Option.filter_eq_some_iff, decide_eq_true_eq]

theorem template_eq_ok {w : Workspace} {p : Path} {t : Template} (h : w.template p = .ok t) :
    ∃ modified, w.files.modified p = .ok modified ∧
      (w.kept? p modified = some t ∨ w.read p modified = .ok t) := by
  rw [template_eq] at h
  split at h
  · cases h
  · rename_i modified hm
    refine ⟨modified, hm, ?_⟩
    split at h
    · rename_i hk
      cases h
      exact .inl hk
    · exact .inr h

theorem fetch_eq_cases (w : Workspace) (q : Path) :
    (∃ failure, w.files.modified q = .error failure ∧
      w.fetch q = (.error (.ofIo q failure), w)) ∨
    ∃ modified, w.files.modified q = .ok modified ∧
      ((∃ t, w.kept? q modified = some t ∧
        w.fetch q = (.ok t, { w with cache := w.cache.hit })) ∨
      w.kept? q modified = none ∧ w.fetch q = w.load q modified) := by
  rw [fetch]
  cases hm : w.files.modified q with
  | error failure => exact .inl ⟨failure, rfl, rfl⟩
  | ok modified =>
    refine .inr ⟨modified, rfl, ?_⟩
    dsimp only
    cases hc : w.cache.find? q with
    | none => exact .inr ⟨by simp [kept?, hc], rfl⟩
    | some t =>
      by_cases h : t.modified = modified
      · exact .inl ⟨t, kept?_eq_some_iff.2 ⟨hc, h⟩, if_pos h⟩
      · exact .inr ⟨by simp [kept?, hc, h, Option.filter_some], if_neg h⟩

theorem load_eq_cases (w : Workspace) (q : Path) (modified : Nat) :
    let u : Workspace := { w with files := w.files.markRead q, cache := w.cache.load }
    (∃ e, w.read q modified = .error e ∧ w.load q modified = (.error e, u)) ∨
      ∃ t, w.read q modified = .ok t ∧
        w.load q modified = (.ok t, { u with cache := u.cache.keep t }) := by
  rw [load]
  cases w.read q modified with
  | error e => exact .inl ⟨e, rfl, rfl⟩
  | ok t => exact .inr ⟨t, rfl, rfl⟩

theorem fetch_cases (w : Workspace) (q : Path) :
    (w.fetch q).2.files.Alike w.files ∧
      ((w.fetch q).2.cache.templates = w.cache.templates ∨
        ∃ modified t, w.files.modified q = .ok modified ∧ w.kept? q modified = none ∧
          w.read q modified = .ok t ∧
          (w.fetch q).2.cache.templates = (w.cache.keep t).templates) := by
  rcases w.fetch_eq_cases q with
    ⟨failure, hm, he⟩ | ⟨modified, hm, ⟨t, hk, he⟩ | ⟨hk, he⟩⟩
  · rw [he]
    exact ⟨.refl _, .inl rfl⟩
  · rw [he]
    exact ⟨.refl _, .inl rfl⟩
  · rw [he]
    rcases w.load_eq_cases q modified with ⟨e, hr, hl⟩ | ⟨t, hr, hl⟩
    · rw [hl]
      exact ⟨Files.alike_markRead _ _, .inl rfl⟩
    · rw [hl]
      have kept : (w.cache.load.keep t).templates = (w.cache.keep t).templates :=
        Cache.templates_keep (by rfl) t
      exact ⟨Files.alike_markRead _ _, .inr ⟨modified, t, hm, hk, hr, kept⟩⟩

theorem read_eq_ok {w : Workspace} {p : Path} {modified : Nat} {t : Template}
    (h : w.read p modified = .ok t) :
    ∃ raw, w.files.text p = .ok raw ∧ Template.read w.rules p modified raw = .ok t := by
  simp only [read] at h
  cases hx : w.files.text p with
  | error failure => simp [hx] at h
  | ok raw => exact ⟨raw, rfl, by simpa [hx] using h⟩

theorem find?_fetch_cases (w : Workspace) (q : Path) :
    (∀ p, (w.fetch q).2.cache.find? p = w.cache.find? p) ∨
      ∃ modified t, w.files.modified q = .ok modified ∧ w.kept? q modified = none ∧
        w.read q modified = .ok t ∧ t.modified = modified ∧
        ∀ p, (w.fetch q).2.cache.find? p = if p.same q then some t else w.cache.find? p := by
  rcases (fetch_cases w q).2 with hc | ⟨modified, t, hm, hk, hr, hc⟩
  · exact .inl fun p => by rw [Cache.find?, hc, ← Cache.find?]
  · obtain ⟨raw, -, hraw⟩ := read_eq_ok hr
    obtain ⟨path, time⟩ := Template.path_of_read hraw
    refine .inr ⟨modified, t, hm, hk, hr, time, fun p => ?_⟩
    rw [Cache.find?, hc, ← Cache.find?, Cache.find?_keep, path]

theorem kept?_congr (w : Workspace) {p q : Path} (h : p.components = q.components)
    (modified : Nat) : w.kept? p modified = w.kept? q modified := by
  rw [kept?, kept?, Cache.find?_congr _ h]

theorem read_alike {w w' : Workspace} (hr : w'.rules = w.rules) (hf : w'.files.Alike w.files)
    (p : Path) (modified : Nat) : w'.read p modified = w.read p modified := by
  rw [read, read, hf.text, hr]

theorem text_congr {fs : Files} {p q : Path} (h : p.components = q.components) {t : Text}
    (ht : fs.text p = .ok t) : fs.text q = .ok t := by
  rw [Files.text_eq_ok_iff] at ht ⊢
  rwa [← fs.version?_congr h]

theorem modified_congr {fs : Files} {p q : Path} (h : p.components = q.components) {time : Nat}
    (ht : fs.modified p = .ok time) : fs.modified q = .ok time := by
  rw [Files.modified_eq_ok_iff] at ht ⊢
  rwa [← fs.version?_congr h]

theorem read_congr {w : Workspace} {p q : Path} (hp : p.components = q.components) {modified : Nat}
    {t : Template} (h : w.read p modified = .ok t) :
    ∃ u, w.read q modified = .ok u ∧ t.Agree u := by
  obtain ⟨raw, hx, hr⟩ := read_eq_ok h
  obtain ⟨u, hu, ha⟩ := Template.read_congr hp hr
  refine ⟨u, ?_, ha⟩
  rw [read, text_congr hp hx]
  exact hu

theorem template_fetch (w : Workspace) (q p : Path) :
    SameOutcome Template.Agree ((w.fetch q).2.template p) (w.template p) := by
  have hf := (fetch_cases w q).1
  have hr := read_alike (rules_fetch w q) hf p
  rw [template_eq, template_eq, hf.modified]
  cases hm : w.files.modified p with
  | error failure => exact .error
  | ok modified =>
    dsimp only
    rw [hr, kept?]
    rcases w.find?_fetch_cases q with find | ⟨time, t, ht, hk, hread, htime, find⟩
    · rw [find, ← kept?]
      exact .refl Template.Agree.refl _
    · rw [find]
      by_cases hs : p.same q = true
      · -- The template of this very file was read: it is kept now, and was read before.
        have hpq := Path.same_iff.1 hs
        obtain rfl : modified = time := by
          have := modified_congr hpq hm
          simpa [ht, eq_comm] using this
        obtain ⟨u, hu, ha⟩ := read_congr hpq.symm hread
        rw [kept?_congr w hpq, hk, hu]
        simpa [hs, Option.filter_some, htime] using SameOutcome.ok ha
      · rw [if_neg hs, ← kept?]
        exact .refl Template.Agree.refl _

end Workspace

end PugWeave
