import PugWeave.Template.Cache

namespace PugWeave

namespace Path

theorem same_congr {p q : Path} (h : p.components = q.components) : p.same = q.same := by
  funext r
  simp [same, h]

theorem same_comm (p q : Path) : p.same q = q.same p := by simp [same, eq_comm]

theorem same_trans_left {p q r : Path} (h : p.same q = true) : p.same r = q.same r := by
  rw [same_congr (same_iff.1 h)]

end Path

namespace Files

theorem find?_congr (fs : Files) {p q : Path} (h : p.components = q.components) :
    fs.find? p = fs.find? q := by
  simp only [find?, Path.same_congr h]

theorem find?_update (fs : Files) (p q : Path) (f : File → File) :
    (fs.update p f).find? q = if q.same p then (fs.find? q).map f else fs.find? q := by
  simp only [find?, update]
  rw [List.find?_map, Option.map_map]
  simp only [Function.comp_def]
  cases he : fs.entries.find? fun e => q.same e.1 with
  | none => simp
  | some e =>
    have := List.find?_some he
    rw [Option.map_some, Path.same_comm p e.1, ← Path.same_trans_left this]
    split <;> rfl

theorem find?_append (fs : Files) (p q : Path) (file : File) :
    ({ fs with entries := fs.entries ++ [(p, file)] } : Files).find? q =
      (fs.find? q).or (if q.same p then some file else none) := by
  simp only [find?]
  rw [List.find?_append]
  cases fs.entries.find? fun e => q.same e.1 with
  | some e => rfl
  | none => cases h : q.same p <;> simp [h]

theorem find?_put (fs : Files) (p q : Path) (file : File) :
    (fs.put p file).find? q = if q.same p then some file else fs.find? q := by
  simp only [put]
  split
  · rename_i h
    rw [find?_update]
    split
    · rename_i hs
      rw [find?_congr fs (Path.same_iff.1 hs)]
      obtain ⟨old, ho⟩ := Option.isSome_iff_exists.1 h
      simp [ho]
    · rfl
  · rename_i h
    rw [find?_append]
    split
    · rename_i hs
      rw [find?_congr fs (Path.same_iff.1 hs), Option.not_isSome_iff_eq_none.1 h]
      rfl
    · simp

theorem find?_remove (fs : Files) (p q : Path) :
    (fs.remove p).find? q = if q.same p then none else fs.find? q := by
  rw [find?, remove]
  rw [List.find?_filter]
  split
  · rename_i h
    simp [Path.same_congr (Path.same_iff.1 h)]
  · rename_i h
    congr 2
    funext e
    cases he : q.same e.1 with
    | false => simp [he]
    | true =>
      rw [Path.same_trans_left he, Path.same_comm] at h
      simp [he, h]

end Files

def File.version (file : File) : Content × Nat := (file.content, file.modified)

namespace Files

def version? (fs : Files) (p : Path) : Option (Content × Nat) := (fs.find? p).map File.version

structure Alike (fs gs : Files) : Prop where
  hierarchical : fs.hierarchical = gs.hierarchical
  version : ∀ p, fs.version? p = gs.version? p

theorem Alike.refl (fs : Files) : fs.Alike fs := ⟨rfl, fun _ => rfl⟩

theorem Alike.trans {fs gs hs : Files} (h : fs.Alike gs) (h' : gs.Alike hs) : fs.Alike hs :=
  ⟨h.hierarchical.trans h'.hierarchical, fun p => (h.version p).trans (h'.version p)⟩

theorem alike_markRead (fs : Files) (p : Path) : (fs.markRead p).Alike fs := by
  refine ⟨rfl, fun q => ?_⟩
  rw [version?, version?, markRead, find?_update]
  split
  · rw [Option.map_map]
    rfl
  · rfl

theorem reads_markRead {fs : Files} {p : Path} {time : Nat} (h : fs.modified p = .ok time) :
    (fs.markRead p).reads p = fs.reads p + 1 := by
  rw [reads, markRead, find?_update, if_pos (Path.same_self p), reads]
  cases hf : fs.find? p with
  | none => simp [modified, hf] at h
  | some file => rfl

theorem version?_congr (fs : Files) {p q : Path} (h : p.components = q.components) :
    fs.version? p = fs.version? q := by rw [version?, version?, find?_congr fs h]

section

variable {fs gs : Files} (h : fs.Alike gs)
include h

theorem Alike.enter (place : Path) : fs.enter place = gs.enter place := by
  have := h.version place
  simp only [version?] at this
  simp only [Files.enter]
  cases hf : fs.find? place with
  | none => cases hg : gs.find? place <;> simp_all
  | some f =>
    cases hg : gs.find? place with
    | none => simp_all
    | some g =>
      obtain ⟨c, m, r⟩ := f
      obtain ⟨c', m', r'⟩ := g
      obtain ⟨rfl, rfl⟩ : c = c' ∧ m = m' := by simpa [hf, hg, File.version] using this
      cases c <;> rfl

theorem Alike.step (place : Path) (c : Path.Component) : fs.step place c = gs.step place c := by
  cases c with
  | root => rfl
  | here => rfl
  | up => simp only [Files.step, h.enter]
  | name t => simp only [Files.step, h.enter]

theorem Alike.absence (p : Path) : fs.absence p = gs.absence p := by
  have step : fs.step = gs.step := by
    funext place c
    exact h.step place c
  have follow : fs.follow ⟨['/']⟩ p = gs.follow ⟨['/']⟩ p := by
    simp only [Files.follow, step, h.enter]
  simp only [Files.absence, h.hierarchical, follow]

theorem Alike.modified (p : Path) : fs.modified p = gs.modified p := by
  have := h.version p
  simp only [version?] at this
  simp only [Files.modified]
  cases hf : fs.find? p <;> cases hg : gs.find? p <;> simp_all [File.version, h.absence]

theorem Alike.text (p : Path) : fs.text p = gs.text p := by
  have := h.version p
  simp only [version?] at this
  simp only [Files.text]
  cases hf : fs.find? p with
  | none => cases hg : gs.find? p <;> simp_all [h.absence]
  | some f =>
    cases hg : gs.find? p with
    | none => simp_all
    | some g =>
      obtain ⟨c, m, r⟩ := f
      obtain ⟨c', m', r'⟩ := g
      obtain ⟨rfl, rfl⟩ : c = c' ∧ m = m' := by simpa [hf, hg, File.version] using this
      cases c <;> rfl

end

theorem modified_eq_ok_iff {fs : Files} {p : Path} {time : Nat} :
    fs.modified p = .ok time ↔ ∃ c, fs.version? p = some (c, time) := by
  simp only [modified, version?]
  cases fs.find? p <;> simp [File.version]

theorem text_eq_ok_iff {fs : Files} {p : Path} {t : Text} :
    fs.text p = .ok t ↔ ∃ time, fs.version? p = some (.text t, time) := by
  simp only [text, version?]
  cases hf : fs.find? p with
  | none => simp
  | some f =>
    obtain ⟨c, m, r⟩ := f
    cases c <;> simp [File.version]

end Files

namespace Cache

theorem find?_congr (c : Cache) {p q : Path} (h : p.components = q.components) :
    c.find? p = c.find? q := by
  simp only [find?, Path.same_congr h]

theorem same_of_find? {c : Cache} {p : Path} {t : Template} (h : c.find? p = some t) :
    p.components = t.path.components := by
  simp only [find?] at h
  have := List.find?_some h
  exact Path.same_iff.1 this

theorem mem_of_find? {c : Cache} {p : Path} {t : Template} (h : c.find? p = some t) :
    t ∈ c.templates :=
  List.mem_of_find?_eq_some h

theorem find?_keep (c : Cache) (t : Template) (p : Path) :
    (c.keep t).find? p = if p.same t.path then some t else c.find? p := by
  simp only [keep]
  split
  · rename_i h
    have replaced : ((fun old : Template => p.same old.path) ∘ fun old =>
        if t.path.same old.path then t else old) = fun old => p.same old.path := by
      funext old
      simp only [Function.comp_apply]
      split
      · rename_i ho
        rw [Path.same_comm, Path.same_trans_left ho, Path.same_comm]
      · rfl
    simp only [find?] at h ⊢
    rw [List.find?_map, replaced]
    split
    · rename_i hs
      rw [Path.same_congr (Path.same_iff.1 hs)]
      obtain ⟨old, ho⟩ := Option.isSome_iff_exists.1 h
      simp [ho, List.find?_some ho]
    · rename_i hs
      cases ho : c.templates.find? fun old => p.same old.path with
      | none => rfl
      | some old =>
        have := List.find?_some ho
        rw [Path.same_trans_left this, Path.same_comm] at hs
        simp [hs]
  · rename_i h
    simp only [find?] at h ⊢
    rw [List.find?_append, List.find?_singleton]
    split
    · rename_i hs
      rw [Path.same_congr (Path.same_iff.1 hs), Option.not_isSome_iff_eq_none.1 h]
      rfl
    · simp

theorem find?_drop (c : Cache) (p q : Path) :
    (c.drop p).find? q = if q.same p then none else c.find? q := by
  rw [find?, drop, List.find?_filter]
  split
  · rename_i h
    simp [Path.same_congr (Path.same_iff.1 h)]
  · rename_i h
    congr 1
    funext t
    cases ht : q.same t.path with
    | false => simp
    | true =>
      rw [Path.same_trans_left ht, Path.same_comm] at h
      simp [h]

end Cache

end PugWeave
