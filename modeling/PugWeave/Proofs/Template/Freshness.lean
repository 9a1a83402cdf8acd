import PugWeave.Proofs.Template.Agreement

namespace PugWeave.Workspace

variable {w : Workspace} {p : Path}

def UpToDate (w : Workspace) (p : Path) : Prop :=
  ∃ t, w.cache.find? p = some t ∧ w.files.modified p = .ok t.modified

theorem isStale_eq_false_iff : w.isStale p = false ↔ w.UpToDate (w.rules.complete p) := by
  rw [isStale, UpToDate]
  cases w.cache.find? (w.rules.complete p) with
  | none => simp
  | some t =>
    cases w.files.modified (w.rules.complete p) with
    | error failure => simp
    | ok time => simp [eq_comm (a := t.modified)]

theorem UpToDate.congr {q : Path} (h : p.components = q.components) (hp : w.UpToDate p) :
    w.UpToDate q := by
  obtain ⟨t, kept, time⟩ := hp
  exact ⟨t, Cache.find?_congr _ h ▸ kept, modified_congr h time⟩

theorem UpToDate.fetch (h : w.UpToDate p) (q : Path) : (w.fetch q).2.UpToDate p := by
  obtain ⟨t, kept, time⟩ := h
  rw [UpToDate, (fetch_cases w q).1.modified]
  rcases w.find?_fetch_cases q with find | ⟨modified, u, hm, -, -, read, find⟩
  · exact ⟨t, (find p).trans kept, time⟩
  · rw [find]
    split
    · rename_i same
      exact ⟨u, rfl, by rw [read]; exact modified_congr (Path.same_iff.1 same).symm hm⟩
    · exact ⟨t, kept, time⟩

theorem upToDate_of_fetch {t : Template} (h : w.template p = .ok t) :
    (w.fetch p).2.UpToDate p := by
  rw [template] at h
  rcases w.fetch_eq_cases p with ⟨failure, -, he⟩ | ⟨modified, hm, ⟨u, hk, he⟩ | ⟨-, he⟩⟩
  · rw [he] at h
    cases h
  · obtain ⟨kept, rfl⟩ := kept?_eq_some_iff.1 hk
    rw [he]
    exact ⟨u, kept, hm⟩
  · rcases w.load_eq_cases p modified with ⟨e, -, hl⟩ | ⟨u, hr, hl⟩
    · rw [he, hl] at h
      cases h
    · obtain ⟨raw, -, hraw⟩ := read_eq_ok hr
      obtain ⟨path, time⟩ := Template.path_of_read hraw
      rw [he, hl]
      refine ⟨u, ?_, ?_⟩
      · rw [Cache.find?_keep, path, Path.same_self, if_pos rfl]
      · rw [time, (Files.alike_markRead w.files p).modified, hm]

theorem UpToDate.visit (h : w.UpToDate p) (asks : List Composition.Ask) :
    (w.visit asks).UpToDate p := by
  induction asks generalizing w with
  | nil => exact h
  | cons a rest ih => exact ih (h.fetch a.path)

theorem upToDate_of_visit {asks : List Composition.Ask} {a : Composition.Ask} (ha : a ∈ asks)
    {t : Template} (ht : w.template a.path = .ok t) : (w.visit asks).UpToDate a.path := by
  induction asks generalizing w t with
  | nil => cases ha
  | cons b rest ih =>
    rcases List.mem_cons.1 ha with rfl | ha
    · exact (upToDate_of_fetch ht).visit rest
    · have same := w.template_fetch b.path a.path
      rw [ht] at same
      generalize found : (w.fetch b.path).2.template a.path = outcome at same
      cases same with
      | ok => exact ih ha found

theorem UpToDate.template (h : w.UpToDate p) :
    ∃ t, w.cache.find? p = some t ∧ w.template p = .ok t := by
  obtain ⟨t, kept, time⟩ := h
  refine ⟨t, kept, ?_⟩
  rw [template_eq, time]
  simp [kept?, kept, Option.filter_some]

end PugWeave.Workspace
