import PugWeave.Command.Watch
import PugWeave.Proofs.Composition.Dependence
import PugWeave.Proofs.Composition.History
import PugWeave.Proofs.Path.Completion
import PugWeave.Proofs.Template.Freshness

namespace PugWeave

namespace Workspace

variable {w : Workspace} {p : Path}

def anew (w : Workspace) (files : Files) : Workspace := { w with files, cache := {} }

theorem anew_fetch (w : Workspace) (p : Path) : (w.fetch p).2.anew = w.anew := by
  have load (modified : Nat) : (w.load p modified).2.anew = w.anew := by
    rw [load]
    split <;> rfl
  rw [fetch]
  split
  · rfl
  · split
    · exact load _
    · split
      · rfl
      · exact load _

theorem anew_visit (w : Workspace) (asks : List Composition.Ask) :
    (w.visit asks).anew = w.anew := by
  induction asks generalizing w with
  | nil => rfl
  | cons a rest ih => exact (ih _).trans (anew_fetch w a.path)

theorem UpToDate.before {asks : List Composition.Ask} (h : (w.visit asks).UpToDate p) :
    ({ w.visit asks with files := w.files } : Workspace).UpToDate p := by
  obtain ⟨t, kept, time⟩ := h
  refine ⟨t, kept, ?_⟩
  rw [Files.modified_eq_ok_iff, version?_visit] at time
  exact Files.modified_eq_ok_iff.2 time

theorem text_of_anew {files : Files} {t : Template} (h : (w.anew files).template p = .ok t) :
    ∃ raw, files.text p = .ok raw := by
  obtain ⟨modified, -, hk | hr⟩ := template_eq_ok h
  · cases hk
  · obtain ⟨raw, text, -⟩ := read_eq_ok hr
    exact ⟨raw, text⟩

theorem Honest.sameText {moments : List Workspace} (honest : Honest moments) {u v : Workspace}
    (hu : u ∈ moments) (hv : v ∈ moments) {raw : Text} {time : Nat}
    (text : u.files.text p = .ok raw) (before : u.files.modified p = .ok time)
    (after : v.files.modified p = .ok time) : u.files.SameText v.files p := by
  obtain ⟨_, version⟩ := Files.text_eq_ok_iff.1 text
  obtain ⟨_, version'⟩ := Files.modified_eq_ok_iff.1 before
  obtain ⟨content, later⟩ := Files.modified_eq_ok_iff.1 after
  cases version.symm.trans version'
  cases honest u hu v hv p _ _ _ version later
  exact ⟨raw, text, Files.text_eq_ok_iff.2 ⟨time, later⟩⟩

theorem complete_of_session (slash : '/' ∉ w.rules.extension) {entry : Path}
    {c : Composition.Composed} (h : (w.session entry).1 = .ok c) :
    ∀ a ∈ (w.session entry).2.asks, ∃ p ∈ c.deps.templates,
      w.rules.complete p = p ∧ p.components = a.path.components := by
  intro a ha
  obtain ⟨⟨q, -, completed, -⟩, reported⟩ := (reported_of_session h).1 a ha
  obtain ⟨⟨p, assets⟩, hp, same⟩ := List.any_eq_true.1 reported
  have path : p.components = a.path.components := Path.same_iff.1 same
  refine ⟨p, List.mem_map_of_mem hp, ?_, path⟩
  rw [completed] at path
  exact Path.complete_of_completed slash path

theorem workspace_resolve (w : Workspace) (entry : Path) :
    (w.resolve entry).2 = w.visit (w.session (w.entryPath entry)).2.asks := by
  rw [resolve_eq_visit, ← ((Coherent.refl w).session (w.entryPath entry)).2.1]

end Workspace

namespace Watch

theorem attempt_of_ok {w : Watch} {a : Artifact} (h : (w.workspace.resolve w.entry).1 = .ok a) :
    w.attempt = (.document a.content, {
      w with
      workspace := (w.workspace.resolve w.entry).2
      templates := a.deps.templates
      lastError := none }) := by
  rw [attempt]
  generalize w.workspace.resolve w.entry = result at h ⊢
  obtain ⟨outcome, workspace⟩ := result
  cases h
  rfl

theorem attempt_of_error {w : Watch} {e : Error} (h : (w.workspace.resolve w.entry).1 = .error e) :
    w.attempt = (if w.lastError = some e.message then .nothing else .failure e.report, {
      w with
      workspace := (w.workspace.resolve w.entry).2
      lastError := some e.message }) := by
  rw [attempt]
  generalize w.workspace.resolve w.entry = result at h ⊢
  obtain ⟨outcome, workspace⟩ := result
  cases h
  rfl

theorem entry_attempt (w : Watch) : w.attempt.2.entry = w.entry := by
  cases h : (w.workspace.resolve w.entry).1 with
  | ok a => rw [attempt_of_ok h]
  | error e => rw [attempt_of_error h]

theorem workspace_attempt (w : Watch) :
    w.attempt.2.workspace = (w.workspace.resolve w.entry).2 := by
  cases h : (w.workspace.resolve w.entry).1 with
  | ok a => rw [attempt_of_ok h]
  | error e => rw [attempt_of_error h]

def session (w : Watch) :
    Except Error Composition.Composed × Composition.Session w.workspace.files.paths :=
  w.workspace.session (w.workspace.entryPath w.entry)

def afresh (w : Watch) (files : Files) :
    Except Error Composition.Composed × Composition.Session files.paths :=
  session { w with workspace := w.workspace.anew files }

end Watch

def Shown.document? : Shown → Option Text
  | .document t => some t
  | _ => none

def Shown.message? : Shown → Option String
  | .failure r => some r.error.message
  | _ => none

structure Watched where
  watch : Watch
  shown : List Shown := []

namespace Watched

def next (act : Watch → Shown × Watch) (r : Watched) (files : Files) : Watched where
  watch := (act (r.watch.withFiles files)).2
  shown := r.shown ++ [(act (r.watch.withFiles files)).1]

def run (w : Watch) (first : Files) (later : List Files) : Watched :=
  later.foldl (next Watch.tick) (next Watch.attempt ⟨w, []⟩ first)

def lastDocument? (r : Watched) : Option Text := (r.shown.filterMap Shown.document?).getLast?

def lastMessage? (r : Watched) : Option String := (r.shown.filterMap Shown.message?).getLast?

/-- The last document shown is the one that a composition comes to. If it fails, the error kept and
the error shown last are its. -/
def Shows (r : Watched) : Except Error Artifact → Prop
  | .ok a => r.watch.lastError = none ∧ r.lastDocument? = some a.content
  | .error e => r.watch.lastError = some e.message ∧ r.lastMessage? = some e.message

variable {base : Watch} {states : List Files} {r : Watched}

theorem lastDocument?_next (act : Watch → Shown × Watch) (files : Files) :
    (r.next act files).lastDocument? =
      (act (r.watch.withFiles files)).1.document?.or r.lastDocument? := by
  rw [lastDocument?, next, List.filterMap_append]
  cases h : (act (r.watch.withFiles files)).1.document? <;> simp [h, lastDocument?]

theorem lastMessage?_next (act : Watch → Shown × Watch) (files : Files) :
    (r.next act files).lastMessage? =
      (act (r.watch.withFiles files)).1.message?.or r.lastMessage? := by
  rw [lastMessage?, next, List.filterMap_append]
  cases h : (act (r.watch.withFiles files)).1.message? <;> simp [h, lastMessage?]

structure Kept (base : Watch) (states : List Files) (r : Watched) : Prop where
  entry : r.watch.entry = base.entry
  anew : r.watch.workspace.anew = base.workspace.anew
  read : ∀ t ∈ r.watch.workspace.cache.templates,
    Workspace.ReadAt (states.map base.workspace.anew) r.watch.workspace.rules t
  reported : ∀ m, r.watch.lastError = some m → r.lastMessage? = some m

theorem Shows.reported {outcome : Except Error Artifact} (h : r.Shows outcome) :
    ∀ m, r.watch.lastError = some m → r.lastMessage? = some m := by
  intro m hm
  cases outcome with
  | ok a => rw [h.1] at hm; cases hm
  | error e =>
    rw [h.1] at hm
    cases hm
    exact h.2

theorem Shows.document {outcome : Except Error Artifact} (h : r.Shows outcome)
    (calm : r.watch.lastError = none) :
    ∃ a, outcome = .ok a ∧ r.lastDocument? = some a.content := by
  cases outcome with
  | ok a => exact ⟨a, rfl, h.2⟩
  | error e => cases h.1.symm.trans calm

theorem Shows.lastDocument?_eq {outcome : Except Error Artifact} (h : r.Shows outcome) {t : Text}
    (content : outcome.map Artifact.content = .ok t) : r.lastDocument? = some t := by
  cases outcome with
  | ok a =>
    cases content
    exact h.2
  | error e => cases content

theorem Shows.lastMessage?_eq {outcome : Except Error Artifact} (h : r.Shows outcome) {e : Error}
    (fails : outcome.map Artifact.content = .error e) : r.lastMessage? = some e.message := by
  cases outcome with
  | ok a => cases fails
  | error e =>
    cases fails
    exact h.2

theorem Shows.idle {outcome : Except Error Artifact} (h : r.Shows outcome) (files : Files) :
    (r.next (Prod.mk .nothing) files).Shows outcome := by
  have document : (r.next (Prod.mk .nothing) files).lastDocument? = r.lastDocument? :=
    lastDocument?_next _ _
  have message : (r.next (Prod.mk .nothing) files).lastMessage? = r.lastMessage? :=
    lastMessage?_next _ _
  cases outcome with
  | ok a => exact ⟨h.1, document.trans h.2⟩
  | error e => exact ⟨h.1, message.trans h.2⟩

theorem Kept.withFiles (h : Kept base states r) {files : Files} (now : files ∈ states) :
    (r.watch.withFiles files).workspace.Sound (states.map base.workspace.anew) :=
  ⟨h.read, _, List.mem_map_of_mem now, .refl _⟩

theorem Kept.idle (h : Kept base states r) (files : Files) :
    Kept base states (r.next (Prod.mk .nothing) files) := by
  refine ⟨h.entry, h.anew, h.read, ?_⟩
  intro m hm
  exact (lastMessage?_next _ _).trans (h.reported m hm)

structure Pinned (base : Watch) (files : Files) (r : Watched) : Prop where
  document : ∃ c, (base.afresh files).1 = .ok c ∧
    r.lastDocument? = some (base.workspace.artifact c).content
  upToDate : ∀ a ∈ (base.afresh files).2.asks,
    ({ r.watch.workspace with files } : Workspace).UpToDate a.path
  watched : ∀ a ∈ (base.afresh files).2.asks, ∃ p ∈ r.watch.templates,
    (base.workspace.rules.complete p).components = a.path.components

theorem Kept.rules (h : Kept base states r) : r.watch.workspace.rules = base.workspace.rules :=
  congrArg (fun anew => (anew {}).rules) h.anew

section

variable (h : Kept base states r) (honest : Workspace.Honest (states.map base.workspace.anew))
  {files : Files} (now : files ∈ states)
include h honest now

theorem Kept.coherent :
    (r.watch.withFiles files).workspace.Coherent (base.workspace.anew files) := by
  have fresh : (r.watch.withFiles files).workspace.fresh = base.workspace.anew files :=
    congrFun h.anew files
  exact fresh ▸ (h.withFiles now).coherent honest

theorem Kept.shows_attempt :
    (r.next Watch.attempt files).Shows ((base.workspace.anew files).resolve base.entry).1 := by
  let w := r.watch.withFiles files
  have same := (h.coherent honest now).resolve (congrArg (fun anew => (anew {}).directory) h.anew)
    w.entry
  have entry : w.entry = base.entry := h.entry
  rw [← entry]
  generalize ((base.workspace.anew files).resolve w.entry).1 = outcome at same ⊢
  cases hw : (w.workspace.resolve w.entry).1 with
  | ok a =>
    rw [hw] at same
    cases same with
    | ok agree =>
      constructor
      · exact congrArg (·.2.lastError) (Watch.attempt_of_ok hw)
      · rw [lastDocument?_next, Watch.attempt_of_ok hw, ← agree.content]
        rfl
  | error e =>
    rw [hw] at same
    cases same
    constructor
    · exact congrArg (·.2.lastError) (Watch.attempt_of_error hw)
    · rw [lastMessage?_next, Watch.attempt_of_error hw]
      dsimp only
      split
      · rename_i told
        exact h.reported _ told
      · rfl

theorem Kept.attempt : Kept base states (r.next Watch.attempt files) := by
  constructor
  · exact (Watch.entry_attempt _).trans h.entry
  · rw [next, Watch.workspace_attempt, Workspace.workspace_resolve, Workspace.anew_visit]
    exact h.anew
  · rw [next, Watch.workspace_attempt, Workspace.workspace_resolve]
    exact ((h.withFiles now).visit _).kept
  · exact (h.shows_attempt honest now).reported

theorem Kept.asks : (r.watch.withFiles files).session.2.asks = (base.afresh files).2.asks := by
  let w := r.watch.withFiles files
  let v := base.workspace.anew files
  have entry : w.workspace.entryPath w.entry = v.entryPath base.entry := by
    have directory : w.workspace.directory = v.directory :=
      congrArg (fun anew => (anew {}).directory) h.anew
    rw [Workspace.entryPath, Workspace.entryPath, directory]
    exact congrArg (Path.resolve _) h.entry
  rw [Watch.session, entry]
  exact ((h.coherent honest now).session _).2.1.trans
    ((Workspace.Coherent.refl v).session _).2.1.symm

theorem Kept.pinned (slash : '/' ∉ base.workspace.rules.extension)
    (calm : (r.next Watch.attempt files).watch.lastError = none) :
    Pinned base files (r.next Watch.attempt files) := by
  let w := r.watch.withFiles files
  have rules : w.workspace.rules = base.workspace.rules := h.rules
  have asks := h.asks honest now
  obtain ⟨b, hb, document⟩ := (h.shows_attempt honest now).document calm
  cases hw : (w.workspace.resolve w.entry).1 with
  | error e =>
    have failed := congrArg (·.2.lastError) (Watch.attempt_of_error hw)
    cases failed.symm.trans calm
  | ok a =>
    obtain ⟨c, hc, rfl⟩ := Workspace.resolve_eq_ok_iff.1 hw
    have templates := congrArg (·.2.templates) (Watch.attempt_of_ok hw)
    constructor
    · obtain ⟨d, hd, rfl⟩ := Workspace.resolve_eq_ok_iff.1 hb
      exact ⟨d, hd, document⟩
    · rw [← asks, next, Watch.workspace_attempt, Workspace.workspace_resolve]
      intro a ha
      -- What the attempt took was found, and so is kept as it is now.
      obtain ⟨⟨-, t, -, found⟩, -⟩ := (Workspace.reported_of_session hc).1 a ha
      exact (Workspace.upToDate_of_visit ha found).before
    · rw [← asks, ← rules]
      intro a ha
      obtain ⟨p, hp, complete, path⟩ := Workspace.complete_of_session (rules ▸ slash) hc a ha
      exact ⟨p, templates ▸ hp, complete.symm ▸ path⟩

end

theorem Pinned.shows {before after : Files} (pinned : Pinned base before r)
    (honest : Workspace.Honest (states.map base.workspace.anew)) (h : Kept base states r)
    (was : before ∈ states) (now : after ∈ states)
    (still : (r.watch.withFiles after).needsAttempt = false) :
    r.Shows ((base.workspace.anew after).resolve base.entry).1 := by
  obtain ⟨c, hc, document⟩ := pinned.document
  obtain ⟨calm, still⟩ : r.watch.lastError = none ∧
      ∀ p ∈ r.watch.templates, (r.watch.withFiles after).workspace.isStale p = false := by
    simpa [Watch.needsAttempt, Watch.withFiles] using still
  have same : ∀ a ∈ (base.afresh before).2.asks, before.SameText after a.path := by
    intro a ha
    obtain ⟨⟨q, t, -, found⟩, -⟩ := (Workspace.reported_of_session hc).1 a ha
    obtain ⟨raw, text⟩ := Workspace.text_of_anew found
    obtain ⟨u, kept, time⟩ := pinned.upToDate a ha
    obtain ⟨p, hp, path⟩ := pinned.watched a ha
    rw [← h.rules] at path
    obtain ⟨v, kept', time'⟩ := (Workspace.isStale_eq_false_iff.1 (still p hp)).congr path
    obtain rfl : u = v := Option.some.inj (kept.symm.trans kept')
    exact honest.sameText (List.mem_map_of_mem was) (List.mem_map_of_mem now) text time time'
  have composed : (base.afresh after).1 = .ok c := Workspace.session_of_sameText rfl hc same
  rw [Workspace.resolve_eq_ok_iff.2 ⟨c, composed, rfl⟩]
  exact ⟨calm, document⟩

structure Current (base : Watch) (states : List Files) (files : Files) (r : Watched) : Prop where
  kept : Kept base states r
  shows : r.Shows ((base.workspace.anew files).resolve base.entry).1
  pinned : r.watch.lastError = none → ∃ before ∈ states, Pinned base before r

section

variable (honest : Workspace.Honest (states.map base.workspace.anew))
  (slash : '/' ∉ base.workspace.rules.extension)
include honest slash

theorem Current.attempt (h : Kept base states r) {files : Files} (now : files ∈ states) :
    Current base states files (r.next Watch.attempt files) where
  kept := h.attempt honest now
  shows := h.shows_attempt honest now
  pinned calm := ⟨files, now, h.pinned honest now slash calm⟩

theorem Current.tick {before files : Files} (h : Current base states before r)
    (now : files ∈ states) : Current base states files (r.next Watch.tick files) := by
  have step : r.next Watch.tick files = if (r.watch.withFiles files).needsAttempt
      then r.next Watch.attempt files else r.next (Prod.mk .nothing) files := by
    simp only [next, Watch.tick]
    split <;> rfl
  rw [step]
  split
  · exact .attempt honest slash h.kept now
  · rename_i still
    have still : (r.watch.withFiles files).needsAttempt = false := Bool.eq_false_iff.2 still
    have calm : r.watch.lastError = none :=
      Option.not_isSome_iff_eq_none.1 (Bool.not_eq_true _ ▸ (Bool.or_eq_false_iff.1 still).1)
    obtain ⟨taken, was, pinned⟩ := h.pinned calm
    constructor
    · exact h.kept.idle files
    · exact (pinned.shows honest h.kept was now still).idle files
    · intro _
      have document : (r.next (Prod.mk .nothing) files).lastDocument? = r.lastDocument? :=
        lastDocument?_next _ _
      exact ⟨taken, was, document ▸ pinned.document, pinned.upToDate, pinned.watched⟩

theorem Current.ticks {before : Files} (h : Current base states before r) {later : List Files}
    (all : later ⊆ states) :
    Current base states ((before :: later).getLast (List.cons_ne_nil _ _))
      (later.foldl (next Watch.tick) r) := by
  induction later generalizing before r with
  | nil => exact h
  | cons files rest ih =>
    rw [List.cons_subset] at all
    rw [List.getLast_cons (List.cons_ne_nil _ _), List.foldl_cons]
    exact ih (h.tick honest slash all.1) all.2

end

end Watched

def Watch.of (rules : Rules) (directory entry : Path) : Watch where
  entry := entry
  workspace := { rules, files := {}, directory }

/-- A watch never shows what is no longer so: after the first attempt and after every tick, what it
showed last is what the files come to now. The extension is part of a file's name, where no slash
can be. -/
theorem Watch.never_stale {rules : Rules} (slash : '/' ∉ rules.extension) {directory : Path}
    {first : Files} {later : List Files}
    (honest : Workspace.Honest ((first :: later).map fun files => { rules, files, directory }))
    (entry : Path) : ∀ ticks, ticks <+: later →
      let files := (first :: ticks).getLast (List.cons_ne_nil _ _)
      (Watched.run (.of rules directory entry) first ticks).Shows
        (Workspace.resolve { rules, files, directory } entry).1 := by
  intro ticks initial
  let base : Watch := .of rules directory entry
  have start : Watched.Kept base (first :: later) ⟨base, []⟩ := by
    refine ⟨rfl, rfl, ?_, ?_⟩
    · intro t ht
      cases ht
    · intro m hm
      cases hm
  have honest : Workspace.Honest ((first :: later).map base.workspace.anew) := honest
  have begun : Watched.Current base (first :: later) first _ :=
    .attempt honest slash start List.mem_cons_self
  have all : ticks ⊆ first :: later :=
    List.Subset.trans initial.subset (List.subset_cons_self _ _)
  exact (begun.ticks honest slash all).shows

theorem Watch.never_stale_mended :
    let rules : Rules := ⟨2, .lf, [], "pug".toList, by decide⟩
    let page (t : String) (time : Nat) : Files :=
      { entries := [(.ofString "/page.pug", { content := .text t.toList, modified := time })] }
    let first := page "p one" 1
    let later := [page "include none" 2, page "include none" 2, page "p two" 3]
    let directory : Path := .ofString "/"
    let entry : Path := .ofString "page"
    let run (ticks : Nat) := Watched.run (.of rules directory entry) first (later.take ticks)
    (run 0).lastDocument? = some "p one".toList ∧
    (run 1).lastMessage? = some "Template not found: /none.pug" ∧
    (run 3).lastDocument? = some "p two".toList ∧
    '/' ∉ rules.extension ∧
    Workspace.Honest ((first :: later).map fun files => { rules, files, directory }) ∧
    ∀ ticks, ticks <+: later →
      let files := (first :: ticks).getLast (List.cons_ne_nil _ _)
      (Watched.run (.of rules directory entry) first ticks).Shows
        (Workspace.resolve { rules, files, directory } entry).1 := by
  intro rules page first later directory entry run
  have version (t : String) (time : Nat) (p : Path) : (page t time).version? p =
      if p.same (.ofString "/page.pug") then some (.text t.toList, time) else none := by
    simp only [page, Files.version?, Files.find?, List.find?_singleton]
    split <;> rfl
  have wrote : ∀ files ∈ first :: later, ∀ p time c, files.version? p = some (c, time) →
      c = .text (if time = 1 then "p one".toList
        else if time = 2 then "include none".toList else "p two".toList) := by
    intro files hf p time c h
    simp only [first, later, List.mem_cons, List.not_mem_nil, or_false] at hf
    rcases hf with rfl | rfl | rfl | rfl
    all_goals
      rw [version] at h
      split at h <;> cases h
      rfl
  have slash : '/' ∉ rules.extension := by decide
  have honest : Workspace.Honest ((first :: later).map fun files =>
      { rules, files, directory }) := by
    intro u hu v hv p time c d hc hd
    obtain ⟨files, hf, rfl⟩ := List.mem_map.1 hu
    obtain ⟨files', hf', rfl⟩ := List.mem_map.1 hv
    rw [wrote files hf p time c hc, wrote files' hf' p time d hd]
  have shows (ticks : Nat) := never_stale slash honest entry (later.take ticks) (List.take_prefix ..)
  let now (files : Files) : Workspace := { rules, files, directory }
  have content (files : Files) (few : files.entries.length < 2) :=
    ((now files).resolve_within few entry).1
  have one : ((now (page "p one" 1)).resolve entry).1.map Artifact.content =
      .ok "p one".toList := (content _ (by decide +kernel)).trans (by decide +kernel)
  have broken : ((now (page "include none" 2)).resolve entry).1.map Artifact.content =
      .error (.missing (.ofString "/none.pug")) :=
    (content _ (by decide +kernel)).trans (by decide +kernel)
  have two : ((now (page "p two" 3)).resolve entry).1.map Artifact.content =
      .ok "p two".toList := (content _ (by decide +kernel)).trans (by decide +kernel)
  exact ⟨(shows 0).lastDocument?_eq one, (shows 1).lastMessage?_eq broken,
    (shows 3).lastDocument?_eq two, slash, honest, never_stale slash honest entry⟩

end PugWeave
