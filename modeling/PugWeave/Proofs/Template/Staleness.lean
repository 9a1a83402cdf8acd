import PugWeave.Proofs.Template.Freshness

namespace PugWeave.Workspace

variable {w : Workspace} {p : Path}

theorem fetch_of_upToDate (h : w.UpToDate p) :
    ∃ t, w.cache.find? p = some t ∧ w.fetch p = (.ok t, { w with cache := w.cache.hit }) := by
  obtain ⟨t, kept, time⟩ := h
  refine ⟨t, kept, ?_⟩
  rw [fetch, time]
  dsimp only
  rw [kept]
  exact if_pos rfl

theorem reads_load {time : Nat} (h : w.files.modified p = .ok time) :
    (w.load p time).2.files.reads p = w.files.reads p + 1 := by
  rcases w.load_eq_cases p time with ⟨e, -, hl⟩ | ⟨t, -, hl⟩ <;> rw [hl] <;>
    exact Files.reads_markRead h

theorem upToDate_of_unread {t : Template} (h : (w.fetch p).1 = .ok t)
    (unread : (w.fetch p).2.files.reads p = w.files.reads p) : w.UpToDate p := by
  rcases w.fetch_eq_cases p with ⟨failure, -, he⟩ | ⟨time, hm, ⟨u, hk, -⟩ | ⟨-, he⟩⟩
  · rw [he] at h
    cases h
  · obtain ⟨kept, rfl⟩ := kept?_eq_some_iff.1 hk
    exact ⟨u, kept, hm⟩
  · rw [he, reads_load hm] at unread
    exact absurd unread (Nat.succ_ne_self _)

theorem outdated_iff : (w.contains p && w.isStale p) = true ↔
    ∃ t, w.cache.find? (w.rules.complete p) = some t ∧
      w.files.modified (w.rules.complete p) ≠ .ok t.modified := by
  rw [contains, isStale]
  cases w.cache.find? (w.rules.complete p) with
  | none => simp
  | some t =>
    cases w.files.modified (w.rules.complete p) with
    | error failure => simp
    | ok time => simp [eq_comm (a := t.modified)]

theorem invalidate_eq (w : Workspace) (p : Path) :
    let place := w.rules.complete p
    w.invalidate p =
      if w.contains p && w.isStale p then
        (((w.files.modified place).mapError (Error.ofIo place)).map fun _ => true,
          { w with cache := w.cache.drop place })
      else (.ok false, w) := by
  intro place
  rw [invalidate, contains, isStale]
  cases w.cache.find? place with
  | none => rfl
  | some t =>
    cases w.files.modified place with
    | error failure => rfl
    | ok time =>
      by_cases h : t.modified = time
      · simp [h]
      · simp only [h, if_false, ne_eq, not_false_eq_true, decide_true]
        rfl

theorem template_drop {t : Template} (kept : w.cache.find? p = some t)
    (outdated : w.files.modified p ≠ .ok t.modified) (q : Path) :
    ({ w with cache := w.cache.drop p } : Workspace).template q = w.template q := by
  rw [template_eq, template_eq]
  dsimp only
  cases hm : w.files.modified q with
  | error failure => rfl
  | ok time =>
    have same : ({ w with cache := w.cache.drop p } : Workspace).kept? q time = w.kept? q time := by
      rw [kept?, kept?, Cache.find?_drop]
      split
      · rename_i hs
        have path := Path.same_iff.1 hs
        have other : t.modified ≠ time := by
          rintro rfl
          exact outdated (modified_congr path hm)
        rw [Cache.find?_congr _ path, kept]
        simp [Option.filter_some, other]
      · rfl
    dsimp only
    rw [same]
    rfl

/-- A template is told to be out of date just if the next look would not take it as it is kept. When
it is out of date it is forgotten, and nothing else is: then what is kept for the path is up to date,
and every look comes to what it would have come to. -/
theorem staleness_agrees (w : Workspace) (p : Path) :
    let place := w.rules.complete p
    let outdated := w.contains p && w.isStale p
    let after := (w.invalidate p).2
    (w.isStale p = false ↔ ∃ t, w.cache.find? place = some t ∧
      w.get p = (.ok t, { w with cache := w.cache.hit })) ∧
    (w.isStale p = false ↔ (∃ t, (w.get p).1 = .ok t) ∧
      (w.get p).2.files.reads place = w.files.reads place) ∧
    (w.invalidate p = if outdated then
      (((w.files.modified place).mapError (Error.ofIo place)).map fun _ => true,
        { w with cache := w.cache.drop place }) else (.ok false, w)) ∧
    (∀ q, after.cache.find? q = if outdated && q.same place then none else w.cache.find? q) ∧
    (after.contains p && after.isStale p) = false ∧
    ∀ q, (after.get q).1 = (w.get q).1 := by
  intro place outdated after
  -- A look that reads nothing found a template that is up to date.
  have unread (h : (∃ t, (w.get p).1 = .ok t) ∧
      (w.get p).2.files.reads place = w.files.reads place) : w.isStale p = false := by
    obtain ⟨⟨t, ht⟩, reads⟩ := h
    exact isStale_eq_false_iff.2 (upToDate_of_unread ht reads)
  have hit (h : w.isStale p = false) : ∃ t, w.cache.find? place = some t ∧
      w.get p = (.ok t, { w with cache := w.cache.hit }) :=
    fetch_of_upToDate (isStale_eq_false_iff.1 h)
  have silent {t : Template} (h : w.get p = (.ok t, { w with cache := w.cache.hit })) :
      (∃ t, (w.get p).1 = .ok t) ∧ (w.get p).2.files.reads place = w.files.reads place := by
    rw [h]
    exact ⟨⟨t, rfl⟩, rfl⟩
  have result : after = if outdated then { w with cache := w.cache.drop place } else w := by
    change (w.invalidate p).2 = _
    rw [w.invalidate_eq p]
    split <;> rfl
  refine ⟨⟨hit, fun ⟨t, _, h⟩ => unread (silent h)⟩,
    ⟨fun h => (hit h).elim fun t ht => silent ht.2, unread⟩, w.invalidate_eq p, ?_⟩
  cases h : outdated with
  | false =>
    rw [h] at result
    rw [result]
    exact ⟨fun q => by simp, h, fun q => rfl⟩
  | true =>
    obtain ⟨t, kept, time⟩ := outdated_iff.1 h
    rw [h] at result
    rw [result]
    refine ⟨fun q => by simp [Cache.find?_drop], ?_, fun q => template_drop kept time _⟩
    simp [contains, Cache.find?_drop, place]

end PugWeave.Workspace
