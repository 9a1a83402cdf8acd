import PugWeave.Proofs.Composition.Coherence
import PugWeave.Proofs.Composition.Termination

namespace PugWeave

inductive Event
  | write (p : Path) (content : Content) (modified : Nat)
  | edit (p : Path) (t : Text)
  | touch (p : Path) (delay : Nat)
  | remove (p : Path)
  | resolve (entry : Path)
  | get (p : Path)
  | invalidate (p : Path)
  | clear
  deriving DecidableEq, Repr

def Event.version (e : Event) (p : Path) (before : Option (Content × Nat)) :
    Option (Content × Nat) :=
  match e with
  | .write q content modified => if p.same q then some (content, modified) else before
  | .edit q t => if p.same q then before.map fun v => (.text t, v.2) else before
  | .touch q delay => if p.same q then before.map fun v => (v.1, v.2 + delay) else before
  | .remove q => if p.same q then none else before
  | .resolve _ | .get _ | .invalidate _ | .clear => before

namespace Workspace

def perform (w : Workspace) : Event → Workspace
  | .write p content modified => { w with files := w.files.put p { content, modified } }
  | .edit p t => { w with files := w.files.edit p t }
  | .touch p delay => { w with files := w.files.touch p delay }
  | .remove p => { w with files := w.files.remove p }
  | .resolve entry => (w.resolve entry).2
  | .get p => (w.get p).2
  | .invalidate p => (w.invalidate p).2
  | .clear => w.clear

def moments (w : Workspace) : List Event → List Workspace
  | [] => [w]
  | e :: rest => w :: (w.perform e).moments rest

def fresh (w : Workspace) : Workspace := { w with cache := {} }

/-- A file that has the same time at two moments says the same at both. -/
def Honest (moments : List Workspace) : Prop :=
  ∀ u ∈ moments, ∀ v ∈ moments, ∀ p time c d,
    u.files.version? p = some (c, time) → v.files.version? p = some (d, time) → c = d

def ReadAt (moments : List Workspace) (rules : Rules) (t : Template) : Prop :=
  ∃ u ∈ moments, ∃ raw, u.files.version? t.path = some (.text raw, t.modified) ∧
    Template.read rules t.path t.modified raw = .ok t

structure Sound (moments : List Workspace) (w : Workspace) : Prop where
  kept : ∀ t ∈ w.cache.templates, ReadAt moments w.rules t
  files : ∃ u ∈ moments, w.files.Alike u.files

variable {moments : List Workspace} {w : Workspace}

theorem mem_keep {c : Cache} {t u : Template} (h : u ∈ (c.keep t).templates) :
    u = t ∨ u ∈ c.templates := by
  simp only [Cache.keep] at h
  split at h
  · simp only [List.mem_map] at h
    obtain ⟨old, ho, rfl⟩ := h
    split
    · exact .inl rfl
    · exact .inr ho
  · simpa [or_comm] using h

theorem version?_of_read {p : Path} {modified : Nat} {t : Template}
    (hm : w.files.modified p = .ok modified) (hr : w.read p modified = .ok t) :
    ∃ raw, w.files.version? t.path = some (.text raw, t.modified) ∧
      Template.read w.rules t.path t.modified raw = .ok t := by
  cases read_eq_ok hr with
  | intro raw h =>
    have same := Template.path_of_read h.2
    rw [Files.text_eq_ok_iff] at h
    rw [Files.modified_eq_ok_iff] at hm
    rw [same.1, same.2]
    cases h.1 with
    | intro time ht =>
      cases hm with
      | intro c hc =>
        rw [ht] at hc
        cases hc
        exact ⟨raw, ht, h.2⟩

namespace Sound

theorem fetch (h : w.Sound moments) (p : Path) : (w.fetch p).2.Sound moments := by
  have cases := fetch_cases w p
  constructor
  · intro t ht
    rw [rules_fetch]
    rcases cases.2 with hc | ⟨modified, u, hm, -, hr, hc⟩
    · rw [hc] at ht
      exact h.kept t ht
    · rw [hc] at ht
      rcases mem_keep ht with rfl | ht
      · obtain ⟨v, hv, hf⟩ := h.files
        have := version?_of_read hm hr
        simp only [hf.version] at this
        exact ⟨v, hv, this⟩
      · exact h.kept t ht
  · obtain ⟨v, hv, hf⟩ := h.files
    exact ⟨v, hv, cases.1.trans hf⟩

theorem visit (h : w.Sound moments) (asks : List Composition.Ask) :
    (w.visit asks).Sound moments := by
  induction asks generalizing w with
  | nil => exact h
  | cons a rest ih => exact ih (h.fetch a.path)

theorem change (h : w.Sound moments) {fs : Files} (hw : { w with files := fs } ∈ moments) :
    Sound moments { w with files := fs } :=
  ⟨h.kept, _, hw, .refl _⟩

theorem forget (h : w.Sound moments) {cache : Cache} (hc : cache.templates ⊆ w.cache.templates) :
    Sound moments { w with cache } :=
  ⟨fun t ht => h.kept t (hc ht), h.files⟩

theorem perform (h : w.Sound moments) (e : Event) (he : w.perform e ∈ moments) :
    (w.perform e).Sound moments := by
  cases e with
  | write | edit | touch | remove => exact h.change he
  | resolve entry =>
    rw [Workspace.perform, resolve_eq_visit]
    exact h.visit _
  | get p => exact h.fetch _
  | invalidate p =>
    have dropped : (w.cache.drop (w.rules.complete p)).templates ⊆ w.cache.templates :=
      List.filter_subset_self _
    simp only [Workspace.perform, invalidate]
    split
    · exact h
    · split
      · exact h
      · exact h.forget dropped
    · exact h.forget dropped
  | clear => exact h.forget (List.nil_subset _)

theorem run (h : w.Sound moments) {events : List Event} (ha : w.moments events ⊆ moments) :
    ∀ u ∈ w.moments events, u.Sound moments := by
  induction events generalizing w with
  | nil =>
    intro u hu
    rw [Workspace.moments, List.mem_singleton] at hu
    exact hu ▸ h
  | cons e rest ih =>
    intro u hu
    rw [Workspace.moments, List.cons_subset] at ha
    rw [Workspace.moments, List.mem_cons] at hu
    cases hu with
    | inl hu => exact hu ▸ h
    | inr hu =>
      have next : w.perform e ∈ (w.perform e).moments rest := by
        cases rest <;> simp [Workspace.moments]
      exact ih (h.perform e (ha.2 next)) ha.2 u hu

end Sound

theorem Sound.text (h : w.Sound moments) (honest : Honest moments) {p : Path} {modified : Nat}
    {t : Template} (hm : w.files.modified p = .ok modified) (hk : w.kept? p modified = some t) :
    t.path.components = p.components ∧
      ∃ raw, w.files.text p = .ok raw ∧ Template.read w.rules t.path modified raw = .ok t := by
  rw [kept?_eq_some_iff] at hk
  have same := Cache.same_of_find? hk.1
  obtain ⟨u, hu, hf⟩ := h.files
  obtain ⟨v, hv, raw, hraw, hr⟩ := h.kept t (Cache.mem_of_find? hk.1)
  rw [hk.2] at hraw hr
  rw [Files.modified_eq_ok_iff] at hm
  obtain ⟨c, hc⟩ := hm
  have hc' := hc
  rw [hf.version] at hc'
  rw [← Files.version?_congr _ same] at hraw
  obtain rfl := honest u hu v hv p modified c (.text raw) hc' hraw
  exact ⟨same.symm, raw, Files.text_eq_ok_iff.2 ⟨modified, hc⟩, hr⟩

theorem Sound.coherent (h : w.Sound moments) (honest : Honest moments) : w.Coherent w.fresh := by
  refine ⟨rfl, fun p => ?_⟩
  have nothing (modified : Nat) : w.fresh.kept? p modified = none := rfl
  have reads : w.fresh.read = w.read := rfl
  have files : w.fresh.files = w.files := rfl
  rw [template_eq, template_eq, reads, files]
  cases hm : w.files.modified p with
  | error failure => exact .error
  | ok modified =>
    simp only [nothing]
    cases hk : w.kept? p modified with
    | none => exact .refl Template.Agree.refl _
    | some t =>
      obtain ⟨same, raw, ht, hr⟩ := h.text honest hm hk
      obtain ⟨u, hu, agree⟩ := Template.read_congr same hr
      rw [read, ht]
      simp only [hu]
      exact .ok agree

end Workspace

structure Artifact.Agree (a b : Artifact) : Prop where
  content : a.content = b.content
  deps : a.deps.Agree Composition.samePath b.deps

namespace Workspace

theorem Coherent.resolve {w v : Workspace} (h : w.Coherent v) (directory : w.directory = v.directory)
    (entry : Path) : SameOutcome Artifact.Agree (w.resolve entry).1 (v.resolve entry).1 := by
  have left := (h.session (w.entryPath entry)).1
  have right := ((Coherent.refl v).session (v.entryPath entry)).1
  have entries : w.entryPath entry = v.entryPath entry := by rw [entryPath, entryPath, directory]
  rw [← entries] at right
  have both : SameOutcome (Composition.Composed.Agree Composition.samePath)
      (w.compose (w.entryPath entry)).1 (v.compose (w.entryPath entry)).1 :=
    left.trans (fun h h' => h.trans h') (right.symm fun h => h.symm)
  simp only [Workspace.resolve, ← entries]
  apply both.map
  intro c d hcd
  exact ⟨by rw [h.rules, hcd.rows], hcd.deps⟩

theorem sound_of_empty {w : Workspace} (empty : w.cache.templates = []) (events : List Event) :
    ∀ u ∈ w.moments events, u.Sound (w.moments events) := by
  have start : w.Sound (w.moments events) := by
    constructor
    · intro t ht
      simp [empty] at ht
    · cases events with
      | nil => exact ⟨w, by simp [moments], .refl _⟩
      | cons a rest => exact ⟨w, by simp [moments], .refl _⟩
  exact start.run (List.Subset.refl _)

/-- At every moment of a run that started with nothing kept, a composition and a look come to what
they would come to with nothing kept. -/
theorem cache_invisible {w : Workspace} (empty : w.cache.templates = []) (events : List Event)
    (honest : Honest (w.moments events)) :
    ∀ u ∈ w.moments events, ∀ p,
      SameOutcome Artifact.Agree (u.resolve p).1 (u.fresh.resolve p).1 ∧
        SameOutcome Template.Agree (u.get p).1 (u.fresh.get p).1 := by
  intro u hu p
  have coherent := (sound_of_empty empty events u hu).coherent honest
  exact ⟨coherent.resolve rfl p, coherent.template _⟩

theorem version?_visit (w : Workspace) (asks : List Composition.Ask) (p : Path) :
    (w.visit asks).files.version? p = w.files.version? p := by
  induction asks generalizing w with
  | nil => rfl
  | cons a rest ih => exact (ih _).trans ((fetch_cases w a.path).1.version p)

theorem version?_perform (w : Workspace) (e : Event) (p : Path) :
    (w.perform e).files.version? p = e.version p (w.files.version? p) := by
  cases e with
  | write q content modified =>
    simp only [perform, Event.version, Files.version?, Files.find?_put]
    split <;> rfl
  | edit q t =>
    simp only [perform, Event.version, Files.version?, Files.edit, Files.find?_update]
    split <;> simp [Function.comp_def, File.version]
  | touch q delay =>
    simp only [perform, Event.version, Files.version?, Files.touch, Files.find?_update]
    split <;> simp [Function.comp_def, File.version]
  | remove q =>
    simp only [perform, Event.version, Files.version?, Files.find?_remove]
    split <;> rfl
  | resolve entry =>
    rw [perform, resolve_eq_visit]
    exact w.version?_visit _ p
  | get q => exact (fetch_cases w _).1.version p
  | invalidate q =>
    simp only [perform, invalidate]
    split
    · rfl
    · split <;> rfl
    · rfl
  | clear => rfl

theorem cache_invisible_rewritten :
    let entry : Path := .ofString "/page.pug"
    let rules : Rules := ⟨2, .lf, [], "pug".toList, by decide⟩
    let w : Workspace := { rules, files := {} }
    let events : List Event := [.write entry (.text "p one".toList) 1, .resolve entry,
      .write entry (.text "p two".toList) 2, .invalidate entry]
    (w.moments events).map (fun u => (u.resolve entry).1.map Artifact.content) =
      [.error (.missing entry), .ok "p one".toList, .ok "p one".toList, .ok "p two".toList,
        .ok "p two".toList] ∧
    Honest (w.moments events) ∧ ∀ u ∈ w.moments events, ∀ p,
      SameOutcome Artifact.Agree (u.resolve p).1 (u.fresh.resolve p).1 ∧
        SameOutcome Template.Agree (u.get p).1 (u.fresh.get p).1 := by
  intro entry rules w events
  let first := w.perform (.write entry (.text "p one".toList) 1)
  have composed : first.perform (.resolve entry) =
      (first.sessionWithin 2 (first.entryPath entry)).2.workspace :=
    (resolve_within (by decide +kernel) entry).2
  have content (u : Workspace) (few : u.files.entries.length < 2) := (resolve_within few entry).1
  have shown : (w.moments events).map (fun u => (u.resolve entry).1.map Artifact.content) =
      [.error (.missing entry), .ok "p one".toList, .ok "p one".toList, .ok "p two".toList,
        .ok "p two".toList] := by
    simp only [events, moments, List.map_cons, List.map_nil]
    rw [composed, content w (by decide +kernel), content _ (by decide +kernel),
      content _ (by decide +kernel), content _ (by decide +kernel), content _ (by decide +kernel)]
    decide +kernel
  have wrote : ∀ u ∈ w.moments events, ∀ p time c, u.files.version? p = some (c, time) →
      c = .text (if time = 1 then "p one".toList else "p two".toList) := by
    intro u hu p time c h
    have start : w.files.version? p = none := rfl
    simp only [events, moments, List.mem_cons, List.not_mem_nil, or_false] at hu
    rcases hu with rfl | rfl | rfl | rfl | rfl <;>
      simp only [version?_perform, Event.version, start] at h
    · cases h
    all_goals
      split at h
      · cases h
        rfl
      · simp_all
  have honest : Honest (w.moments events) := by
    intro u hu v hv p time c d hc hd
    rw [wrote u hu p time c hc, wrote v hv p time d hd]
  exact ⟨shown, honest, cache_invisible rfl events honest⟩

end Workspace

end PugWeave
