import PugWeave.Proofs.Composition.Inheritance
import PugWeave.Proofs.Composition.Merging

namespace PugWeave.Composition

open Directive (Node)

namespace DependencyMap

theorem Agree.exists_entry {m n : DependencyMap} (h : m.Agree samePath n) {p : Path}
    {assets : List Path} (hp : (p, assets) ∈ m.entries) :
    ∃ q, (q, assets) ∈ n.entries ∧ q.components = p.components := by
  have mapped := List.mem_map_of_mem (f := Prod.map Path.components id) hp
  rw [agree_samePath_iff.1 h] at mapped
  obtain ⟨⟨q, assets'⟩, hq, same⟩ := List.mem_map.1 mapped
  obtain ⟨path, rfl⟩ := Prod.mk.inj same
  exact ⟨q, hq, path⟩

end DependencyMap

namespace Library

def note (lib : Library) (m : DependencyMap) (a : Ask) : DependencyMap :=
  match lib.template a.path with
  | .ok t => m.insert t.path t.assets
  | .error _ => m

def noted (lib : Library) (asks : List Ask) : DependencyMap := asks.foldl lib.note {}

theorem merge_note (lib : Library) (m n : DependencyMap) (a : Ask) :
    m.merge (lib.note n a) = lib.note (m.merge n) a := by
  rw [note, note]
  split
  · exact DependencyMap.merge_insert _ _ _ _
  · rfl

theorem noted_append (lib : Library) (asks more : List Ask) :
    lib.noted (asks ++ more) = (lib.noted asks).merge (lib.noted more) := by
  have merge (m n : DependencyMap) :
      m.merge (more.foldl lib.note n) = more.foldl lib.note (m.merge n) := by
    induction more generalizing n with
    | nil => rfl
    | cons a rest ih => rw [List.foldl_cons, ih, merge_note, List.foldl_cons]
  rw [noted, List.foldl_append, noted, noted, merge]
  rfl

theorem contains_noted {lib : Library} {asks : List Ask} {a : Ask} (ha : a ∈ asks) {t : Template}
    (ht : lib.template a.path = .ok t) : (lib.noted asks).contains t.path = true := by
  have own : lib.noted [a] = DependencyMap.insert {} t.path t.assets := by
    simp [noted, note, ht]
  obtain ⟨before, after, rfl⟩ := List.append_of_mem ha
  rw [noted_append, ← List.singleton_append, noted_append, own]
  simp [DependencyMap.contains_merge, DependencyMap.contains_insert]

theorem exists_ask_of_mem_noted {lib : Library} {asks : List Ask} {p : Path} {assets : List Path}
    (h : (p, assets) ∈ (lib.noted asks).entries) :
    ∃ a ∈ asks, ∃ t, lib.template a.path = .ok t ∧ t.path = p ∧ t.assets = assets := by
  have start : (p, assets) ∉ ({} : DependencyMap).entries := by simp
  rw [noted] at h
  generalize ({} : DependencyMap) = m at h start
  induction asks generalizing m with
  | nil => exact absurd h start
  | cons a rest ih =>
    by_cases hp : (p, assets) ∈ (lib.note m a).entries
    · refine ⟨a, List.mem_cons_self, ?_⟩
      rw [note] at hp
      split at hp
      · rename_i t ht
        refine ⟨t, ht, ?_⟩
        rw [DependencyMap.insert] at hp
        split at hp
        · exact absurd hp start
        · rcases List.mem_append.1 hp with hp | hp
          · exact absurd hp start
          · cases List.mem_singleton.1 hp
            exact ⟨rfl, rfl⟩
      · exact absurd hp start
    · obtain ⟨b, hb, t, ht⟩ := ih _ h hp
      exact ⟨b, List.mem_cons_of_mem _ hb, t, ht⟩

structure Traced (lib : Library) (rules : Rules) (asks : List Ask) (deps : DependencyMap) :
    Prop where
  deps : deps = lib.noted asks
  found : ∀ a ∈ asks, ∃ q t, a.path = rules.complete q ∧ lib.template a.path = .ok t

namespace Traced

variable {lib : Library} {rules : Rules} {asks more : List Ask} {m n : DependencyMap}

theorem nil : lib.Traced rules [] {} := ⟨rfl, by simp⟩

theorem append (h : lib.Traced rules asks m) (h' : lib.Traced rules more n) :
    lib.Traced rules (asks ++ more) (m.merge n) := by
  constructor
  · rw [noted_append, h.deps, h'.deps]
  · intro a ha
    rcases List.mem_append.1 ha with ha | ha
    · exact h.found a ha
    · exact h'.found a ha

theorem fillBlock {body : Composed} (h : lib.Traced rules asks body.deps) (indent : Nat)
    {override : Option Override} (hr : ¬isReplaced override = true) :
    lib.Traced rules asks (fillBlock indent override body).deps := by
  cases override with
  | none => exact h
  | some o =>
    rw [Composition.fillBlock]
    cases ho : o.mode with
    | replace => simp [isReplaced, ho] at hr
    | append =>
      have := h.append nil
      rwa [List.append_nil] at this
    | prepend => exact nil.append h

end Traced

end Library

theorem Visit.ok_bind {x : Visit α} {f : α → Visit β} {b : β} (h : (x >>= f).outcome = .ok b) :
    ∃ a, x.outcome = .ok a ∧ (f a).outcome = .ok b ∧ (x >>= f).asks = x.asks ++ (f a).asks := by
  obtain ⟨a, hx, hf⟩ := outcome_bind h
  refine ⟨a, hx, hf, ?_⟩
  change (x.andThen f).asks = _
  rw [andThen, hx]

theorem deps_fillBlock_empty (indent : Nat) (override : Option Override) :
    (fillBlock indent override {}).deps = {} := by
  cases override with
  | none => rfl
  | some o =>
    rw [fillBlock]
    cases o.mode <;> rfl

section

variable {lib : Library} {rules : Rules} {enter : Enter Visit} {directory : Path} {T : Overrides}

mutual

theorem traced_composeNode (enters : ∀ {T p c}, (enter T p).outcome = .ok c →
    lib.Traced rules (enter T p).asks c.deps) : ∀ {node : Node} {c : Composed},
      (composeNode rules enter directory T node).outcome = .ok c →
        lib.Traced rules (composeNode rules enter directory T node).asks c.deps
  | .text indent t, c, h => by
    rw [composeNode] at h ⊢
    cases h
    exact .nil
  | .inclusion indent _ target, c, h => by
    rw [composeNode] at h ⊢
    obtain ⟨included, hi, h, asks⟩ := Visit.ok_bind h
    cases h
    rw [asks]
    exact (enters hi).append .nil
  | .parent .., c, h => by
    rw [composeNode] at h ⊢
    cases h
    exact .nil
  | .block indent _ name _ children, c, h => by
    rw [composeNode] at h ⊢
    split at h
    · rename_i hr
      rw [if_pos hr]
      cases h
      rw [deps_fillBlock_empty]
      exact .nil
    · rename_i hr
      rw [if_neg hr]
      obtain ⟨body, hbody, h, asks⟩ := Visit.ok_bind h
      cases h
      rw [asks]
      have shifted : lib.Traced rules
          ((composeNodes rules enter directory T children).asks ++ []) (body.shift (-1)).deps :=
        (traced_composeNodes enters hbody).append .nil
      exact shifted.fillBlock indent hr

theorem traced_composeNodes (enters : ∀ {T p c}, (enter T p).outcome = .ok c →
    lib.Traced rules (enter T p).asks c.deps) : ∀ {nodes : List Node} {c : Composed},
      (composeNodes rules enter directory T nodes).outcome = .ok c →
        lib.Traced rules (composeNodes rules enter directory T nodes).asks c.deps
  | [], c, h => by
    rw [composeNodes] at h ⊢
    cases h
    exact .nil
  | node :: rest, c, h => by
    rw [composeNodes] at h ⊢
    obtain ⟨first, hfirst, h, asks⟩ := Visit.ok_bind h
    obtain ⟨later, hlater, h, more⟩ := Visit.ok_bind h
    cases h
    rw [asks, more]
    exact (traced_composeNode enters hfirst).append
      ((traced_composeNodes enters hlater).append .nil)

end

variable (enters : ∀ {T p c}, (enter T p).outcome = .ok c →
  lib.Traced rules (enter T p).asks c.deps)
include enters

theorem traced_overrides {nodes : List Node} {made : Overrides} {deps : DependencyMap}
    (h : (overrides rules enter directory T nodes).outcome = .ok (made, deps)) :
    lib.Traced rules (overrides rules enter directory T nodes).asks deps := by
  induction nodes generalizing made deps with
  | nil =>
    cases h
    exact .nil
  | cons node rest ih =>
    cases node with
    | text | inclusion | parent => exact ih h
    | block indent _ name mode children =>
      rw [overrides] at h ⊢
      obtain ⟨body, hbody, h, asks⟩ := Visit.ok_bind h
      obtain ⟨⟨later, deps'⟩, hlater, h, more⟩ := Visit.ok_bind h
      cases h
      rw [asks, more]
      exact (traced_composeNodes enters hbody).append ((ih hlater).append .nil)

theorem traced_composeTemplate {t : Template} {c : Composed} {ask : Ask}
    (own : lib.Traced rules [ask] (DependencyMap.empty.insert t.path t.assets))
    (h : (composeTemplate rules enter T t).outcome = .ok c) :
    lib.Traced rules (ask :: (composeTemplate rules enter T t).asks) c.deps := by
  rw [composeTemplate] at h ⊢
  split at h
  · obtain ⟨body, hbody, h, asks⟩ := Visit.ok_bind h
    cases h
    rw [asks]
    exact own.append ((traced_composeNodes enters hbody).append .nil)
  · obtain ⟨⟨made, deps⟩, hmade, h, asks⟩ := Visit.ok_bind h
    obtain ⟨parent, hparent, h, more⟩ := Visit.ok_bind h
    cases h
    rw [asks, more]
    exact (own.append (traced_overrides enters hmade)).append ((enters hparent).append .nil)

end

theorem Library.asks_of_ask {lib : Library} {progress : List Path} {p : Path}
    {found : Found lib.paths p} (h : (lib.ask progress p).outcome = .ok found) :
    (lib.ask progress p).asks = [⟨progress, p, true⟩] := by
  simp only [Library.ask] at h ⊢
  split at h
  · cases h
  · rfl

theorem traced_resolve {lib : Library} {rules : Rules} {progress : List Path} {T : Overrides}
    {path : Path} {c : Composed}
    (h : (resolve lib.source rules progress T path).outcome = .ok c) :
    lib.Traced rules (resolve lib.source rules progress T path).asks c.deps := by
  induction hn : remaining lib.paths progress using Nat.strongRecOn
    generalizing progress T path c with
  | ind n ih =>
    subst hn
    rw [resolve] at h ⊢
    dsimp only at h ⊢
    split at h
    · cases h
    · rename_i new
      rw [dif_neg new]
      obtain ⟨found, hfound, h, asks⟩ := Visit.ok_bind h
      have template := Library.template_of_ask hfound
      have own : lib.Traced rules [⟨progress, rules.complete path, true⟩]
          (DependencyMap.empty.insert found.template.path found.template.assets) := by
        constructor
        · simp [Library.noted, Library.note, template, DependencyMap.empty]
        · intro a ha
          rw [List.mem_singleton.1 ha]
          exact ⟨path, found.template, rfl, template⟩
      have first : (lib.source.ask progress (rules.complete path)).asks =
          [⟨progress, rules.complete path, true⟩] := Library.asks_of_ask hfound
      rw [asks, first]
      exact traced_composeTemplate (fun h => ih _ (remaining_lt found.listed new) h rfl) own h

end PugWeave.Composition

namespace PugWeave.Workspace

open PugWeave.Composition

theorem path_of_template {w : Workspace} {p : Path} {t : Template} (h : w.template p = .ok t) :
    t.path.components = p.components := by
  obtain ⟨modified, -, hk | hr⟩ := template_eq_ok h
  · exact (Cache.same_of_find? (kept?_eq_some_iff.1 hk).1).symm
  · obtain ⟨raw, -, hr⟩ := read_eq_ok hr
    rw [(Template.path_of_read hr).1]

theorem reported_of_session {w : Workspace} {entry : Path} {c : Composed}
    (h : (w.session entry).1 = .ok c) :
    (∀ a ∈ (w.session entry).2.asks, (∃ q t, a.path = w.rules.complete q ∧
      w.template a.path = .ok t) ∧ c.deps.contains a.path = true) ∧
    ∀ p ∈ c.deps.templates, ∃ a ∈ (w.session entry).2.asks, a.path.components = p.components := by
  obtain ⟨d, hd, agree⟩ := exists_composition h
  rw [((Coherent.refl w).session entry).2.1]
  have traced := traced_resolve hd
  constructor
  · intro a ha
    obtain ⟨q, t, hq, ht⟩ := traced.found a ha
    refine ⟨⟨q, t, hq, ht⟩, ?_⟩
    rw [agree.deps.contains id (path_of_template ht).symm, traced.deps]
    exact Library.contains_noted ha ht
  · intro p hp
    obtain ⟨⟨p, assets⟩, he, rfl⟩ := List.mem_map.1 hp
    obtain ⟨q, hq, same⟩ := agree.deps.exists_entry he
    rw [traced.deps] at hq
    obtain ⟨a, ha, t, ht, rfl, -⟩ := Library.exists_ask_of_mem_noted hq
    exact ⟨a, ha, (path_of_template ht).symm.trans same⟩

end PugWeave.Workspace
