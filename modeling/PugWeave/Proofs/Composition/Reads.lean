import PugWeave.Proofs.Composition.Dependence
import PugWeave.Proofs.Composition.Retention

namespace PugWeave

theorem Files.reads_congr (fs : Files) {p q : Path} (h : p.components = q.components) :
    fs.reads p = fs.reads q := by rw [reads, reads, find?_congr fs h]

theorem Files.reads_markRead_of_other (fs : Files) {p q : Path} (h : ¬p.same q = true) :
    (fs.markRead q).reads p = fs.reads p := by
  rw [reads, markRead, find?_update, if_neg h, reads]

namespace Workspace

def holdsMarkup (w : Workspace) (p : Path) : Bool :=
  match w.files.text p with
  | .error _ => false
  | .ok raw => (Markup.tokenize raw).isOk &&
      (Markup.tokenize (Text.normalize w.rules.indentUnit w.rules.separator raw)).isOk

theorem holdsMarkup_eq (w : Workspace) (p : Path) (modified : Nat) :
    w.holdsMarkup p = (w.read p modified).isOk := by
  rw [holdsMarkup, read]
  cases w.files.text p with
  | error failure => rfl
  | ok raw =>
    simp only [Template.read, Template.tokens?]
    cases Markup.tokenize raw with
    | error e => rfl
    | ok _ => cases Markup.tokenize (Text.normalize w.rules.indentUnit w.rules.separator raw) <;> rfl

variable {w v : Workspace} {seen : List Path} {p : Path}

theorem holdsMarkup_congr (w : Workspace) {p q : Path} (h : p.components = q.components) :
    w.holdsMarkup p = w.holdsMarkup q := by
  rw [holdsMarkup, holdsMarkup]
  cases ht : w.files.text p with
  | ok raw => rw [text_congr h ht]
  | error failure =>
    cases hu : w.files.text q with
    | error failure' => rfl
    | ok raw =>
      rw [text_congr h.symm hu] at ht
      cases ht

theorem holdsMarkup_alike (rules : v.rules = w.rules) (files : v.files.Alike w.files) (p : Path) :
    v.holdsMarkup p = w.holdsMarkup p := by
  rw [holdsMarkup, holdsMarkup, files.text, rules]

theorem exists_modified_of_holdsMarkup (h : w.holdsMarkup p = true) :
    ∃ time, w.files.modified p = .ok time := by
  rw [holdsMarkup] at h
  split at h
  · cases h
  · rename_i raw ht
    obtain ⟨time, hv⟩ := Files.text_eq_ok_iff.1 ht
    exact ⟨time, Files.modified_eq_ok_iff.2 ⟨_, hv⟩⟩

structure ReadOnce (w : Workspace) (seen : List Path) (v : Workspace) : Prop where
  rules : v.rules = w.rules
  files : v.files.Alike w.files
  current : ∀ t ∈ v.cache.templates, w.files.modified t.path = .ok t.modified
  kept : v.cache.templates.map (·.path.components) =
    ((Path.distinct seen).filter w.holdsMarkup).map Path.components
  reads : ∀ p, w.holdsMarkup p = true →
    v.files.reads p = w.files.reads p + if seen.any p.same then 1 else 0

namespace ReadOnce

theorem start (empty : w.cache.templates = []) : w.ReadOnce [] w where
  rules := rfl
  files := .refl _
  current := by simp [empty]
  kept := by simp [empty, Path.distinct]
  reads _ _ := rfl

theorem find?_isSome (h : w.ReadOnce seen v) (p : Path) :
    (v.cache.find? p).isSome = true ↔ w.holdsMarkup p = true ∧ seen.any p.same = true := by
  have listed : (v.cache.find? p).isSome = true ↔
      p.components ∈ v.cache.templates.map (·.path.components) := by
    rw [Cache.find?, List.find?_isSome, List.mem_map]
    simp only [Path.same_iff, eq_comm (a := p.components)]
  rw [listed, h.kept]
  exact Path.mem_map_filter_distinct w.holdsMarkup_congr

theorem find?_current (h : w.ReadOnce seen v) {t : Template} (ht : v.cache.find? p = some t) :
    w.files.modified p = .ok t.modified :=
  modified_congr (Cache.same_of_find? ht).symm (h.current t (Cache.mem_of_find? ht))

theorem any_same_concat (seen : List Path) (p q : Path) :
    (seen ++ [p]).any q.same = (seen.any q.same || q.same p) := by simp

theorem idle (h : w.ReadOnce seen v) (idle : w.holdsMarkup p = true → seen.any p.same = true) :
    w.ReadOnce (seen ++ [p]) v where
  rules := h.rules
  files := h.files
  current := h.current
  kept := by
    rw [h.kept, Path.distinct_concat]
    split
    · rfl
    · rename_i new
      have other : ¬w.holdsMarkup p = true := fun holds => new (idle holds)
      rw [List.filter_append, List.filter_cons_of_neg other, List.filter_nil, List.append_nil]
  reads q hq := by
    rw [h.reads q hq, any_same_concat]
    cases same : q.same p with
    | false => rw [Bool.or_false]
    | true =>
      have path := Path.same_iff.1 same
      have there := idle ((w.holdsMarkup_congr path).symm.trans hq)
      rw [Path.any_same_congr seen path, there, Bool.true_or]

theorem failed (h : w.ReadOnce seen v) (other : ¬w.holdsMarkup p = true) :
    w.ReadOnce (seen ++ [p]) { v with files := v.files.markRead p, cache := v.cache.load } := by
  have idle := h.idle (p := p) (absurd · other)
  refine ⟨idle.rules, (v.files.alike_markRead p).trans idle.files, idle.current, idle.kept, ?_⟩
  intro q hq
  rw [← idle.reads q hq]
  refine v.files.reads_markRead_of_other fun same => other ?_
  exact (w.holdsMarkup_congr (Path.same_iff.1 same)).symm.trans hq

theorem anew (h : w.ReadOnce seen v) {time : Nat} (hm : v.files.modified p = .ok time)
    (unkept : v.kept? p time = none) {t : Template} (hr : v.read p time = .ok t) :
    w.ReadOnce (seen ++ [p])
      { v with files := v.files.markRead p, cache := v.cache.load.keep t } := by
  obtain ⟨raw, -, hraw⟩ := read_eq_ok hr
  obtain ⟨path, modified⟩ := Template.path_of_read hraw
  have holds : w.holdsMarkup p = true := by
    rw [← holdsMarkup_alike h.rules h.files, v.holdsMarkup_eq p time, hr]
    rfl
  have now : w.files.modified p = .ok time := (h.files.modified p).symm.trans hm
  -- What is kept is up to date, since the files stay as they are.
  have none : v.cache.find? p = none := by
    cases hf : v.cache.find? p with
    | none => rfl
    | some u =>
      have same := h.find?_current hf
      rw [now] at same
      cases same
      rw [kept?_eq_some_iff.2 ⟨hf, rfl⟩] at unkept
      cases unkept
  have unseen : ¬seen.any p.same = true := by
    intro there
    have kept := (h.find?_isSome p).2 ⟨holds, there⟩
    rw [none] at kept
    cases kept
  have templates : (v.cache.load.keep t).templates = v.cache.templates ++ [t] :=
    Cache.templates_keep_new (c := v.cache.load) (by rw [path]; exact none)
  refine ⟨h.rules, (v.files.alike_markRead p).trans h.files, ?_, ?_, ?_⟩
  · rw [templates, List.forall_mem_append]
    refine ⟨h.current, List.forall_mem_singleton.2 ?_⟩
    rw [path, modified, now]
  · rw [templates, List.map_append, h.kept, Path.distinct_concat, if_neg unseen, List.filter_append,
      List.map_append, List.filter_cons_of_pos holds, List.filter_nil]
    simp [path]
  · intro q hq
    rw [any_same_concat]
    -- The only count that changes is that of the file that is read.
    cases same : q.same p with
    | false =>
      rw [Bool.or_false, ← h.reads q hq]
      exact v.files.reads_markRead_of_other (by rw [same]; exact Bool.false_ne_true)
    | true =>
      have components := Path.same_iff.1 same
      have before := h.reads q hq
      rw [Path.any_same_congr seen components, if_neg unseen] at before
      rw [Bool.or_true, if_pos rfl, ← Nat.add_zero (w.files.reads q), ← before,
        Files.reads_congr _ components, Files.reads_congr _ components]
      exact Files.reads_markRead hm

theorem fetch (h : w.ReadOnce seen v) (p : Path) : w.ReadOnce (seen ++ [p]) (v.fetch p).2 := by
  rcases v.fetch_eq_cases p with ⟨failure, hm, he⟩ | ⟨time, hm, ⟨t, hk, he⟩ | ⟨hk, he⟩⟩ <;> rw [he]
  · refine h.idle fun holds => ?_
    obtain ⟨time, ht⟩ := exists_modified_of_holdsMarkup holds
    rw [← h.files.modified, hm] at ht
    cases ht
  · have known := Option.isSome_of_eq_some (kept?_eq_some_iff.1 hk).1
    have idle := h.idle fun _ => ((h.find?_isSome p).1 known).2
    exact ⟨idle.rules, idle.files, idle.current, idle.kept, idle.reads⟩
  · rcases v.load_eq_cases p time with ⟨e, hr, hl⟩ | ⟨t, hr, hl⟩ <;> rw [hl]
    · refine h.failed ?_
      rw [← holdsMarkup_alike h.rules h.files, v.holdsMarkup_eq p time, hr]
      exact Bool.false_ne_true
    · exact h.anew hm hk hr

theorem after (h : w.ReadOnce seen v) (looks : List Path) :
    w.ReadOnce (seen ++ looks) (v.after looks) := by
  induction looks generalizing seen v with
  | nil => rwa [List.append_nil]
  | cons p rest ih =>
    have next := ih (h.fetch p)
    rwa [List.append_assoc] at next

end ReadOnce

def resolveAll (w : Workspace) (entries : List Path) : Workspace :=
  entries.foldl (fun w entry => (w.resolve entry).2) w

def looksAtAll (w : Workspace) : List Path → List Path
  | [] => []
  | entry :: rest => w.looksAt entry ++ (w.resolve entry).2.looksAtAll rest

theorem after_append (w : Workspace) (looks more : List Path) :
    w.after (looks ++ more) = (w.after looks).after more := List.foldl_append

theorem resolveAll_eq_after (w : Workspace) (entries : List Path) :
    w.resolveAll entries = w.after (w.looksAtAll entries) := by
  induction entries generalizing w with
  | nil => rfl
  | cons entry rest ih =>
    rw [looksAtAll, after_append, ← resolve_eq_after]
    exact ih _

theorem listed_of_holdsMarkup (h : w.holdsMarkup p = true) : w.files.paths.any p.same = true := by
  obtain ⟨time, hm⟩ := exists_modified_of_holdsMarkup h
  exact Files.mem_paths_of_modified hm

/-- However often compositions come to a template, and whether they succeed or fail, it is read once.
The templates that are kept are those that were looked at, in the order of the first looks, and so as
many as there are files of templates that were looked at. -/
theorem reads_once {w : Workspace} (empty : w.cache.templates = []) (entries : List Path) :
    let looks := w.looksAtAll entries
    let done := w.resolveAll entries
    done = w.after looks ∧ done.files.Alike w.files ∧
      (∀ p, w.holdsMarkup p = true →
        done.files.reads p = w.files.reads p + if looks.any p.same then 1 else 0) ∧
      done.cache.templates.map (·.path.components) =
        ((Path.distinct looks).filter w.holdsMarkup).map Path.components ∧
      done.cache.templates.length =
        ((Path.distinct w.files.paths).filter fun p => w.holdsMarkup p && looks.any p.same).length := by
  intro looks done
  have path : done = w.after looks := w.resolveAll_eq_after entries
  have once : w.ReadOnce looks done := path ▸ (ReadOnce.start empty).after looks
  refine ⟨path, once.files, once.reads, once.kept, ?_⟩
  have lengths := congrArg List.length once.kept
  rw [List.length_map, List.length_map] at lengths
  rw [lengths]
  refine Path.length_filter_distinct w.holdsMarkup_congr (fun h => ?_) fun p => ?_
  · rw [w.holdsMarkup_congr h, Path.any_same_congr looks h]
  · rw [Bool.and_eq_true]
    exact ⟨fun h => ⟨h, listed_of_holdsMarkup h.1⟩, And.left⟩

theorem reads_once_broken :
    let page : Path := .ofString "/page.pug"
    let part : Path := .ofString "/part.pug"
    let broken : Path := .ofString "/broken.pug"
    let file (t : String) : File := { content := .text t.toList, modified := 1 }
    let w : Workspace := {
      rules := ⟨2, .lf, [], "pug".toList, by decide⟩
      files := { entries :=
        [(page, file "include x/../part\ninclude broken"), (part, file "p"), (broken, file "p(")] } }
    let done := w.resolveAll [page, .ofString "part"]
    w.looksAtAll [page, .ofString "part"] = [page, part, broken, part] ∧
      done.files.reads part = 1 ∧ done.cache.templates.length = 2 := by
  intro page part broken file w done
  have looks (v : Workspace) (few : v.files.entries.length < 4) (entry : Path) : v.looksAt entry =
      (v.sessionWithin 4 (v.entryPath entry)).2.asks.map Composition.Ask.path := by
    rw [looksAt, ← congrArg Prod.snd (v.sessionWithin_eq few (v.entryPath entry))]
  have first : w.looksAt page = [page, part, broken] :=
    (looks w (by decide) _).trans (by decide +kernel)
  have second : (w.after [page, part, broken]).looksAt (.ofString "part") = [part] :=
    (looks _ (by decide +kernel) _).trans (by decide +kernel)
  have all : w.looksAtAll [page, .ofString "part"] = [page, part, broken, part] := by
    simp only [looksAtAll, resolve_eq_after, first, second, List.cons_append, List.nil_append]
  obtain ⟨-, -, reads, -, kept⟩ := reads_once (w := w) rfl [page, .ofString "part"]
  rw [all] at reads kept
  exact ⟨all, (reads part (by decide +kernel)).trans (by decide +kernel),
    kept.trans (by decide +kernel)⟩

end Workspace

end PugWeave
