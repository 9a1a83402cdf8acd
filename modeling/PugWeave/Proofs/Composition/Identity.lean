import PugWeave.Proofs.Composition.History
import PugWeave.Proofs.Composition.Retention
import PugWeave.Proofs.Composition.Visits
import PugWeave.Proofs.Path.References

namespace PugWeave

def Cache.Keyed (c : Cache) : Prop := (c.templates.map (·.path.components)).Nodup

namespace Cache.Keyed

variable {c : Cache}

theorem eq_of_find? (h : c.Keyed) {p : Path} {t u : Template} (ht : c.find? p = some t)
    (hu : u ∈ c.templates) (path : u.path.components = p.components) : u = t :=
  List.inj_on_of_nodup_map h hu (mem_of_find? ht) (path.trans (same_of_find? ht))

theorem keep (h : c.Keyed) (t : Template) : (c.keep t).Keyed := by
  rw [Keyed, Cache.keep]
  split
  · -- A template takes the place of one of the same path.
    have paths : (fun old : Template => old.path.components) ∘
        (fun old => if t.path.same old.path then t else old) = (·.path.components) := by
      funext old
      rw [Function.comp_apply]
      split
      · exact Path.same_iff.1 ‹_›
      · rfl
    rwa [List.map_map, paths]
  · rename_i new
    rw [List.map_append, List.nodup_append]
    refine ⟨h, List.nodup_singleton _, ?_⟩
    rintro _ known _ own rfl
    obtain ⟨old, there, same⟩ := List.mem_map.1 known
    rw [List.map_singleton, List.mem_singleton] at own
    refine new (List.find?_isSome.2 ⟨old, there, ?_⟩)
    exact Path.same_iff.2 (own.symm.trans same.symm)

theorem drop (h : c.Keyed) (p : Path) : (c.drop p).Keyed :=
  h.sublist (List.filter_sublist.map _)

end Cache.Keyed

namespace Workspace

variable {w : Workspace}

theorem keyed_of_empty (empty : w.cache.templates = []) : w.cache.Keyed := by
  rw [Cache.Keyed, empty]
  exact List.nodup_nil

theorem keyed_fetch (h : w.cache.Keyed) (p : Path) : (w.fetch p).2.cache.Keyed := by
  rcases (w.fetch_cases p).2 with same | ⟨-, t, -, -, -, kept⟩
  · rwa [Cache.Keyed, same]
  · rw [Cache.Keyed, kept]
    exact h.keep t

theorem keyed_visit (h : w.cache.Keyed) (asks : List Composition.Ask) :
    (w.visit asks).cache.Keyed := by
  induction asks generalizing w with
  | nil => exact h
  | cons a rest ih => exact ih (keyed_fetch h a.path)

theorem keyed_perform (h : w.cache.Keyed) (e : Event) : (w.perform e).cache.Keyed := by
  cases e with
  | write | edit | touch | remove => exact h
  | resolve entry =>
    rw [perform, resolve_eq_visit]
    exact keyed_visit h _
  | get p => exact keyed_fetch h _
  | invalidate p =>
    simp only [perform, invalidate]
    split
    · exact h
    · split
      · exact h
      · exact h.drop _
    · exact h.drop _
  | clear => exact List.nodup_nil

theorem keyed_run (h : w.cache.Keyed) (events : List Event) :
    ∀ u ∈ w.moments events, u.cache.Keyed := by
  induction events generalizing w with
  | nil => simpa [moments] using h
  | cons e rest ih => exact List.forall_mem_cons.2 ⟨h, ih (keyed_perform h e)⟩

end Workspace

namespace Composition

theorem resolve_congr {m : Type → Type} [Monad m] (source : Source m) {rules : Rules} {p q : Path}
    (h : rules.complete p = rules.complete q) (progress : List Path) (table : Overrides) :
    resolve source rules progress table p = resolve source rules progress table q := by
  rw [resolve, resolve]
  dsimp only
  generalize rules.complete p = path at h
  subst h
  rfl

/-- Looks of a composition that was begun with templates in progress: each is at a completed path, and
what is in progress was so from the start or was found by one of them. -/
structure Grounded (lib : Library) (rules : Rules) (progress : List Path) (asks : List Ask) :
    Prop where
  completed : ∀ a ∈ asks, ∃ q, a.path = rules.complete q
  found : ∀ a ∈ asks, a.found = true → ∃ t, lib.template a.path = .ok t
  entered : ∀ a ∈ asks, ∀ p ∈ a.stack, p ∈ progress ∨ ∃ b ∈ asks, b.found = true ∧ b.path = p

namespace Grounded

variable {lib : Library} {rules : Rules} {progress : List Path} {asks more : List Ask}

theorem nil : Grounded lib rules progress [] := ⟨by simp, by simp, by simp⟩

theorem append (h : Grounded lib rules progress asks) (h' : Grounded lib rules progress more) :
    Grounded lib rules progress (asks ++ more) where
  completed := List.forall_mem_append.2 ⟨h.completed, h'.completed⟩
  found := List.forall_mem_append.2 ⟨h.found, h'.found⟩
  entered a ha p hp := by
    rcases List.mem_append.1 ha with ha | ha
    · exact (h.entered a ha p hp).imp_right fun ⟨b, hb, rest⟩ => ⟨b, List.mem_append_left _ hb, rest⟩
    · exact (h'.entered a ha p hp).imp_right fun ⟨b, hb, rest⟩ => ⟨b, List.mem_append_right _ hb, rest⟩

theorem missed (path : Path) : Grounded lib rules progress [⟨progress, rules.complete path, false⟩] where
  completed := List.forall_mem_singleton.2 ⟨path, rfl⟩
  found := by simp
  entered := List.forall_mem_singleton.2 fun _ => .inl

theorem enter {path : Path} {t : Template} (ht : lib.template (rules.complete path) = .ok t)
    (h : Grounded lib rules (progress ++ [rules.complete path]) asks) :
    Grounded lib rules progress (⟨progress, rules.complete path, true⟩ :: asks) where
  completed := List.forall_mem_cons.2 ⟨⟨path, rfl⟩, h.completed⟩
  found := List.forall_mem_cons.2 ⟨fun _ => ⟨t, ht⟩, h.found⟩
  entered := by
    have own (p : Path) (hp : p ∈ progress ++ [rules.complete path]) :
        p ∈ progress ∨ ∃ b ∈ (⟨progress, rules.complete path, true⟩ :: asks : List Ask),
          b.found = true ∧ b.path = p := by
      refine (List.mem_append.1 hp).imp_right fun hp => ⟨_, List.mem_cons_self, rfl, ?_⟩
      exact (List.mem_singleton.1 hp).symm
    refine List.forall_mem_cons.2 ⟨own, fun a ha p hp => ?_⟩
    rcases h.entered a ha p hp with hp | ⟨b, hb, rest⟩
    · exact own p hp
    · exact .inr ⟨b, .tail _ hb, rest⟩

end Grounded

def Visit.grounded (lib : Library) (rules : Rules) (progress : List Path) :
    Comparison Visit Visit where
  same := Eq
  components := @components_of_eq
  holds R x _ := Grounded lib rules progress x.asks ∧ ∀ r, x.outcome = .ok r → ∃ r', R r r'
  pure h := ⟨.nil, fun _ hr => ⟨_, by cases hr; exact h⟩⟩
  bind := by
    intro α β γ δ R S x y f g hx hf
    change Grounded lib rules progress (x.andThen f).asks ∧
      ∀ r, (x.andThen f).outcome = .ok r → ∃ r', S r r'
    simp only [andThen]
    cases ho : x.outcome with
    | error e => exact ⟨hx.1, by simp⟩
    | ok a =>
      obtain ⟨b, hab⟩ := hx.2 a ho
      exact ⟨hx.1.append (hf a b hab).1, (hf a b hab).2⟩

theorem Library.ask_cases (lib : Library) (progress : List Path) (p : Path) :
    (∃ e, lib.ask progress p = ⟨[⟨progress, p, false⟩], .error e⟩) ∨
      ∃ found, lib.template p = .ok found.template ∧
        lib.ask progress p = ⟨[⟨progress, p, true⟩], .ok found⟩ := by
  rw [Library.ask]
  split
  · exact .inl ⟨_, rfl⟩
  · exact .inr ⟨_, ‹_›, rfl⟩

theorem grounded_resolve {lib : Library} {rules : Rules} {progress : List Path} {table : Overrides}
    {path : Path} :
    Grounded lib rules progress (resolve lib.source rules progress table path).asks := by
  induction hn : remaining lib.paths progress using Nat.strongRecOn
    generalizing progress table path with
  | ind n ih =>
    subst hn
    rw [resolve]
    dsimp only
    split
    · exact .nil
    · rename_i new
      change Grounded lib rules progress
        (Visit.andThen (lib.ask progress (rules.complete path)) _).asks
      rcases lib.ask_cases progress (rules.complete path) with ⟨e, missing⟩ | ⟨found, ht, there⟩
      · rw [missing]
        exact .missed path
      · -- Inside, the template itself is in progress as well, and the look in front has found it.
        rw [there]
        let C := Visit.grounded lib rules (progress ++ [rules.complete path])
        have inside : C.holds (Composed.Agree C.same)
            (composeTemplate rules (resolve lib.source rules (progress ++ [rules.complete path]))
              table found.template)
            (composeTemplate rules (resolve lib.source rules (progress ++ [rules.complete path]))
              table found.template) := by
          refine C.composeTemplate (fun p _ => ?_) (fun _ => rfl) ⟨rfl, fun _ => rfl, rfl, rfl⟩
          exact ⟨ih _ (remaining_lt found.listed new) rfl, fun c _ => ⟨c, Composed.agree_eq_iff.2 rfl⟩⟩
        exact .enter ht inside.1

end Composition

namespace Workspace

open PugWeave.Composition

variable {w : Workspace} {entry : Path}

theorem exists_ask_of_mem_stack {a : Ask} (ha : a ∈ (w.session entry).2.asks) {p : Path}
    (hp : p ∈ a.stack) : ∃ b ∈ (w.composition entry).asks, b.path = p ∧
      (∃ q, p = w.rules.complete q) ∧ ∃ t, w.template p = .ok t := by
  rw [((Coherent.refl w).session entry).2.1] at ha
  have grounded : Grounded w.library w.rules [] (w.composition entry).asks := grounded_resolve
  rcases grounded.entered a ha p hp with none | ⟨b, hb, found, rfl⟩
  · cases none
  · exact ⟨b, hb, rfl, grounded.completed b hb, grounded.found b hb found⟩

theorem get_of_looksAt (slash : '/' ∉ w.rules.extension) {p : Path} (hp : p ∈ w.looksAt entry)
    {v : Workspace} (rules : v.rules = w.rules) : v.get p = v.fetch p := by
  rw [looksAt_eq] at hp
  obtain ⟨a, ha, rfl⟩ := List.mem_map.1 hp
  have grounded : Grounded w.library w.rules [] (w.composition (w.entryPath entry)).asks :=
    grounded_resolve
  obtain ⟨q, complete⟩ := grounded.completed a ha
  have idle : w.rules.complete (w.rules.complete q) = w.rules.complete q :=
    Path.complete_of_completed slash rfl
  rw [get, rules, complete, idle]

/-- What is done to a workspace is what getting each template would do to it. -/
theorem resolve_eq_foldl_get (slash : '/' ∉ w.rules.extension) (entry : Path) :
    (w.resolve entry).2 = (w.looksAt entry).foldl (fun w p => (w.get p).2) w := by
  have gets (looks : List Path) (asked : looks ⊆ w.looksAt entry) (v : Workspace)
      (rules : v.rules = w.rules) :
      v.after looks = looks.foldl (fun w p => (w.get p).2) v := by
    induction looks generalizing v with
    | nil => rfl
    | cons p rest ih =>
      rw [List.cons_subset] at asked
      rw [List.foldl_cons, get_of_looksAt slash asked.1 rules]
      exact ih asked.2 _ ((Retains.fetch v p).coherent.rules.trans rules)
  rw [resolve_eq_after]
  exact gets _ (List.Subset.refl _) w rfl

theorem countP_templates_of_session {c : Composed} (h : (w.session entry).1 = .ok c) {a : Ask}
    (ha : a ∈ (w.composition entry).asks) : c.deps.templates.countP a.path.same = 1 := by
  have looked : ((w.composition entry).asks.map Ask.path).any a.path.same = true :=
    List.any_eq_true.2 ⟨a.path, List.mem_map_of_mem ha, Path.same_self _⟩
  have count := Path.countP_distinct ((w.composition entry).asks.map Ask.path) a.path
  rw [if_pos looked] at count
  rw [← count, Path.countP_same, Path.countP_same, lists_of_session h]

/-- A template has one identity. Completing a path once more changes nothing. Wherever a composition is,
the paths in progress are complete and differ. Each of them is the path of a template that is kept
afterwards, of no other in a workspace that began with nothing kept, and an artifact reports it once.
References that are written differently mean one path: the same comes of them wherever a composition
meets them, and each of them closes a circle where one does. -/
theorem resolve_identifies {w : Workspace} (slash : '/' ∉ w.rules.extension) (entry : Path) :
    let asks := (w.session (w.entryPath entry)).2.asks
    let done := (w.resolve entry).2
    (∀ p, w.rules.complete (w.rules.complete p) = w.rules.complete p) ∧
    (∀ a ∈ asks, a.stack.Pairwise (fun p q => ¬p.same q = true) ∧
      ∀ p ∈ a.stack, w.rules.complete p = p ∧
        (∃ t, done.cache.find? p = some t ∧ t.path.components = p.components ∧
          ∀ (v : Workspace) events, v.cache.templates = [] → w ∈ v.moments events →
            ∀ u ∈ done.cache.templates, u.path.components = p.components → u = t) ∧
        ∀ artifact, (w.resolve entry).1 = .ok artifact →
          artifact.deps.templates.countP p.same = 1) ∧
    ∀ r s, Relation.EqvGen (Reference.Respelled w.rules) r s →
      r.place w.rules = s.place w.rules ∧
      ∀ progress table,
        let source := Run.source w.files.paths
        Composition.resolve source w.rules progress table r.path =
          Composition.resolve source w.rules progress table s.path ∧
        (progress.any (r.place w.rules).same = true →
          Composition.resolve source w.rules progress table s.path =
            Run.fail (.circular (progress ++ [r.place w.rules]))) := by
  intro asks done
  have idle (p : Path) : w.rules.complete (w.rules.complete p) = w.rules.complete p :=
    Path.complete_of_completed slash rfl
  refine ⟨idle, fun a ha => ⟨(w.distinct_of_mem_asks _ ha).2.pairwise, fun p hp => ?_⟩, ?_⟩
  · obtain ⟨b, hb, rfl, ⟨q, complete⟩, t, ht⟩ := exists_ask_of_mem_stack ha hp
    refine ⟨by rw [complete, idle], ?_, ?_⟩
    · obtain ⟨u, kept, -⟩ := exists_kept_of_visit hb ht rfl
      rw [← resolve_eq_visit] at kept
      refine ⟨u, kept, (Cache.same_of_find? kept).symm, fun v events empty now t ht path => ?_⟩
      have keyed : w.cache.Keyed := keyed_run (keyed_of_empty empty) events w now
      have after : done.cache.Keyed := keyed_perform keyed (.resolve entry)
      exact after.eq_of_find? kept ht path
    · intro artifact h
      obtain ⟨c, hc, rfl⟩ := resolve_eq_ok_iff.1 h
      exact countP_templates_of_session hc hb
  · intro r s respelled
    have place := Reference.place_of_respelled slash respelled
    refine ⟨place, fun progress table => ⟨resolve_congr _ place progress table, fun back => ?_⟩⟩
    rw [← resolve_congr _ place, Composition.resolve]
    exact dif_pos back

theorem resolve_identifies_respelled :
    let file (t : String) : File := { content := .text t.toList, modified := 1 }
    let page : Path := .ofString "/v/page.pug"
    let layout : Path := .ofString "/v/layout.pug"
    let part : Path := .ofString "/v/part.pug"
    let w : Workspace := {
      rules := ⟨2, .lf, [], "pug".toList, by decide⟩
      files := { entries := [(page, file "extends ./layout\nblock b\n  include x/../part"),
        (layout, file "block b\ninclude /v//part.pug"), (part, file "p")] } }
    let artifact : Artifact := ⟨"p\np".toList, ⟨[(page, []), (part, []), (layout, [])]⟩⟩
    let r : Reference := ⟨.ofString "/v", .ofString "x/../part"⟩
    let s : Reference := ⟨.ofString "/v", .ofString "/v//part.pug"⟩
    '/' ∉ w.rules.extension ∧ (w.resolve (.ofString "v/page")).1 = .ok artifact ∧
      (∃ t, (w.resolve (.ofString "v/page")).2.cache.find? part = some t ∧
        t.path.components = part.components ∧
        ∀ u ∈ (w.resolve (.ofString "v/page")).2.cache.templates,
          u.path.components = part.components → u = t) ∧
      artifact.deps.templates.countP part.same = 1 ∧
      Relation.EqvGen (Reference.Respelled w.rules) r s ∧ r.place w.rules = s.place w.rules ∧
      Composition.resolve (Run.source w.files.paths) w.rules [page, part] [] s.path =
        Run.fail (.circular [page, part, r.place w.rules]) := by
  intro file page layout part w artifact r s
  have slash : '/' ∉ w.rules.extension := by decide
  have within : w.files.entries.length < 4 := by decide
  have done : (w.session (w.entryPath (.ofString "v/page"))).1 =
      .ok { rows := [⟨0, "p".toList⟩, ⟨0, "p".toList⟩], deps := artifact.deps } :=
    session_of_within within (by decide +kernel)
  have resolved : (w.resolve (.ofString "v/page")).1 = .ok artifact :=
    resolve_eq_ok_iff.2 ⟨_, done, by decide +kernel⟩
  have asked : ⟨[page], part, true⟩ ∈ (w.session (w.entryPath (.ofString "v/page"))).2.asks := by
    have same := congrArg (·.2.asks) (w.sessionWithin_eq within (w.entryPath (.ofString "v/page")))
    exact same ▸ by decide +kernel
  have respelled : Relation.EqvGen (Reference.Respelled w.rules) r s := by
    let d : Path := .ofString "/v"
    have short : Reference.Respelled w.rules ⟨d, .ofString "part"⟩ r :=
      .back (x := ['x']) ⟨rfl, by decide⟩ (by decide)
    have whole : Reference.Respelled w.rules ⟨d, .ofString "part"⟩ ⟨d, .ofString "/v/part"⟩ :=
      .absolute (by decide)
    have long : Reference.Respelled w.rules ⟨d, .ofString "/v/part"⟩ ⟨d, part⟩ := .extension
    have twice : Reference.Respelled w.rules ⟨d, part⟩ s :=
      .slash (t := "/v".toList) (u := "part.pug".toList)
    exact (Relation.EqvGen.symm _ _ (.rel _ _ short)).trans _ _ _
      (.trans _ _ _ (.rel _ _ whole) (.trans _ _ _ (.rel _ _ long) (.rel _ _ twice)))
  obtain ⟨-, visited, references⟩ := resolve_identifies slash (.ofString "v/page")
  obtain ⟨-, each⟩ := visited _ asked
  obtain ⟨-, ⟨t, kept, path, only⟩, count⟩ := each part (by decide +kernel)
  obtain ⟨place, met⟩ := references r s respelled
  obtain ⟨-, circle⟩ := met [page, part] []
  exact ⟨slash, resolved, ⟨t, kept, path, only w [] rfl (List.mem_singleton_self w)⟩,
    count artifact resolved, respelled, place, circle (by decide +kernel)⟩

end Workspace

end PugWeave
