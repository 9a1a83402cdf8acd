import PugWeave.Proofs.Composition.History
import PugWeave.Proofs.Composition.Termination
import PugWeave.Proofs.Template.Freshness

namespace PugWeave.Workspace

def after (w : Workspace) (looks : List Path) : Workspace :=
  looks.foldl (fun w p => (w.fetch p).2) w

theorem resolve_eq_after (w : Workspace) (entry : Path) :
    (w.resolve entry).2 = w.after (w.looksAt entry) := by
  rw [resolve_eq_visit, looksAt_eq, visit, after, List.foldl_map]

def Current (w : Workspace) (t : Template) : Prop :=
  ∃ raw, w.files.version? t.path = some (.text raw, t.modified) ∧
    Template.read w.rules t.path t.modified raw = .ok t

structure Retains (w v : Workspace) : Prop where
  coherent : v.Coherent w
  files : v.files.Alike w.files
  kept : ∀ {p t}, w.cache.find? p = some t → ∃ u, v.cache.find? p = some u
  read : ∀ {p t}, v.cache.find? p = some t → w.cache.find? p = some t ∨ w.Current t
  failed : ∀ {p e}, w.template p = .error e → v.cache.find? p = w.cache.find? p

variable {u v w : Workspace}

namespace Retains

theorem refl (w : Workspace) : w.Retains w :=
  ⟨.refl w, .refl _, fun h => ⟨_, h⟩, .inl, fun _ => rfl⟩

theorem current (h : w.Retains v) {t : Template} (ht : v.Current t) : w.Current t := by
  rwa [Current, h.files.version, h.coherent.rules] at ht

theorem trans (h : w.Retains u) (h' : u.Retains v) : w.Retains v where
  coherent := h'.coherent.trans h.coherent
  files := h'.files.trans h.files
  kept hp := by
    obtain ⟨_, hu⟩ := h.kept hp
    exact h'.kept hu
  read hp := by
    rcases h'.read hp with hu | hu
    · exact h.read hu
    · exact .inr (h.current hu)
  failed hp := (h'.failed (h.coherent.error.2 hp)).trans (h.failed hp)

theorem fetch (w : Workspace) (q : Path) : w.Retains (w.fetch q).2 where
  coherent := (Coherent.refl w).fetch q
  files := (fetch_cases w q).1
  kept {p t} hp := by
    rcases w.find?_fetch_cases q with find | ⟨_, u, -, -, -, -, find⟩
    · exact ⟨t, (find p).trans hp⟩
    · rw [find]
      split
      · exact ⟨u, rfl⟩
      · exact ⟨t, hp⟩
  read {p t} hp := by
    rcases w.find?_fetch_cases q with find | ⟨_, u, hm, -, hr, -, find⟩
    · exact .inl ((find p).symm.trans hp)
    · rw [find] at hp
      split at hp
      · cases hp
        exact .inr (version?_of_read hm hr)
      · exact .inl hp
  failed {p e} hp := by
    rcases w.find?_fetch_cases q with find | ⟨modified, u, hm, hk, hr, -, find⟩
    · exact find p
    · rw [find, if_neg]
      -- Had the path's file been read, there would be a template for it after the look, and so before.
      intro same
      have there : w.template q = .ok u := by
        rw [template_eq, hm]
        dsimp only
        rw [hk]
        exact hr
      obtain ⟨t, -, ht⟩ := ((upToDate_of_fetch there).congr (Path.same_iff.1 same).symm).template
      rw [((Coherent.refl w).fetch q).error.2 hp] at ht
      cases ht

theorem after (w : Workspace) (looks : List Path) : w.Retains (w.after looks) := by
  induction looks generalizing w with
  | nil => exact .refl w
  | cons p rest ih => exact (Retains.fetch w p).trans (ih _)

end Retains

theorem hits_add_loads_keep (c : Cache) (t : Template) :
    (c.keep t).hits + (c.keep t).loads = c.hits + c.loads := by
  rw [Cache.keep]
  split <;> rfl

theorem hits_add_loads_fetch (w : Workspace) (p : Path) :
    (w.fetch p).2.cache.hits + (w.fetch p).2.cache.loads =
      w.cache.hits + w.cache.loads + if (w.files.modified p).isOk then 1 else 0 := by
  rcases w.fetch_eq_cases p with ⟨failure, hm, he⟩ | ⟨modified, hm, ⟨t, -, he⟩ | ⟨-, he⟩⟩ <;>
    rw [he, hm]
  · rfl
  · exact Nat.add_right_comm _ _ _
  · rcases w.load_eq_cases p modified with ⟨e, -, hl⟩ | ⟨t, -, hl⟩ <;> rw [hl]
    · rfl
    · exact hits_add_loads_keep _ _

theorem hits_add_loads_after (w : Workspace) (looks : List Path) :
    (w.after looks).cache.hits + (w.after looks).cache.loads =
      w.cache.hits + w.cache.loads + looks.countP fun p => (w.files.modified p).isOk := by
  induction looks generalizing w with
  | nil => rfl
  | cons p rest ih =>
    have times (q : Path) : (w.fetch p).2.files.modified q = w.files.modified q :=
      (fetch_cases w p).1.modified q
    have later := ih (w.fetch p).2
    simp only [times, hits_add_loads_fetch] at later
    rw [List.countP_cons, Nat.add_comm (rest.countP _), ← Nat.add_assoc]
    exact later

/-- Wherever a composition ends, it has forgotten no template. What is kept for a path is what was kept
before, or what the path's file says now, and what was kept before if a look at the path failed. The
hits and loads that are counted are the looks at files that were there. -/
theorem resolve_retains (w : Workspace) (entry : Path) :
    let looks := w.looksAt entry
    let done := (w.resolve entry).2
    done = w.after looks ∧ done.files.Alike w.files ∧
      (∀ p, (w.cache.find? p).isSome → (done.cache.find? p).isSome) ∧
      (∀ p t, done.cache.find? p = some t → w.cache.find? p = some t ∨ w.Current t) ∧
      (∀ before p later e, looks = before ++ p :: later →
        ((w.after before).fetch p).1 = .error e → done.cache.find? p = w.cache.find? p) ∧
      done.cache.hits + done.cache.loads =
        w.cache.hits + w.cache.loads + looks.countP fun p => (w.files.modified p).isOk := by
  intro looks done
  have path : done = w.after looks := w.resolve_eq_after entry
  have retains : w.Retains done := path ▸ Retains.after w looks
  refine ⟨path, retains.files, ?_, ?_, ?_, ?_⟩
  · intro p hp
    obtain ⟨t, ht⟩ := Option.isSome_iff_exists.1 hp
    obtain ⟨u, hu⟩ := retains.kept ht
    exact Option.isSome_of_eq_some hu
  · exact fun p t ht => retains.read ht
  · intro before p later e _ failed
    exact retains.failed ((Retains.after w before).coherent.error.1 failed)
  · rw [path]
    exact w.hits_add_loads_after looks

theorem resolve_retains_broken :
    let page : Path := .ofString "/page.pug"
    let part : Path := .ofString "/part.pug"
    let file (t : String) : File := { content := .text t.toList, modified := 2 }
    let old (p : Path) : Template := ⟨p, p.parent, 1, [], [], [], [], []⟩
    let w : Workspace := {
      rules := ⟨2, .lf, [], "pug".toList, by decide⟩
      files := { entries := [(page, file "include part"), (part, file "p(")] }
      cache := { templates := [old page, old part] } }
    let broken : Error := .malformed part 1 Markup.Fault.unclosedList.message
    let done := (w.resolve (.ofString "page")).2
    (w.resolve (.ofString "page")).1 = .error broken ∧
      w.looksAt (.ofString "page") = [page, part] ∧
      (∃ t, done.cache.find? page = some t ∧ w.Current t) ∧
      done.cache.find? part = some (old part) ∧
      done.cache.hits + done.cache.loads = 2 := by
  intro page part file old w broken done
  have few : w.files.entries.length < 3 := by decide
  have whole := w.sessionWithin_eq few (w.entryPath (.ofString "page"))
  have failed : (w.session (w.entryPath (.ofString "page"))).1 = .error broken :=
    session_error_of_within few (by decide +kernel)
  have looks : w.looksAt (.ofString "page") = [page, part] := by
    rw [looksAt, ← congrArg Prod.snd whole]
    decide +kernel
  have anew : (done.cache.find? page).map Template.modified = some 2 := by
    change ((w.session _).2.workspace.cache.find? page).map _ = _
    rw [← congrArg Prod.snd whole]
    decide +kernel
  obtain ⟨t, ht, time⟩ := Option.map_eq_some_iff.1 anew
  obtain ⟨-, -, -, read, kept, count⟩ := w.resolve_retains (.ofString "page")
  refine ⟨?_, looks, ⟨t, ht, ?_⟩, ?_, ?_⟩
  · simp only [Workspace.resolve, compose, failed]
    rfl
  · rcases read page t ht with before | current
    · have first : w.cache.find? page = some (old page) := rfl
      rw [before] at first
      cases first
      cases time
    · exact current
  · have unread : ((w.after [page]).fetch part).1.map Template.path = .error broken := by
      decide +kernel
    cases h : ((w.after [page]).fetch part).1 with
    | ok t =>
      rw [h] at unread
      cases unread
    | error e => exact kept [page] part [] e looks h
  · rw [count, looks]
    rfl

end PugWeave.Workspace
