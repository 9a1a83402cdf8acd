import PugWeave.Proofs.Composition.Dependence
import PugWeave.Proofs.Path.Distinct
import PugWeave.Proofs.Template.Freshness

namespace PugWeave

namespace Composition

namespace DependencyMap

def Lists (m : DependencyMap) (paths : List Path) : Prop :=
  m.templates.map Path.components = paths.map Path.components

theorem Lists.insert {m : DependencyMap} {paths : List Path} (h : m.Lists paths) {t p : Path}
    (same : t.components = p.components) (assets : List Path) :
    (m.insert t assets).Lists (Path.addNew paths p) := by
  have known : m.templates.any t.same = paths.any p.same := by
    rw [Bool.eq_iff_iff, Path.any_same_iff, Path.any_same_iff, h, same]
  rw [Lists] at h ⊢
  rw [templates_insert, Path.addNew, Path.addNew, known]
  split
  · exact h
  · rw [List.map_append, List.map_append, h]
    simp [same]

theorem Agree.lists {m n : DependencyMap} (h : m.Agree samePath n) {paths : List Path}
    (hn : n.Lists paths) : m.Lists paths := by
  have first := congrArg (List.map Prod.fst) (agree_samePath_iff.1 h)
  simp only [List.map_map] at first
  rw [Lists] at hn ⊢
  rw [← hn, templates, templates, List.map_map, List.map_map]
  exact first

end DependencyMap

namespace Library

variable {lib : Library} {asks : List Ask}

theorem lists_noted (found : ∀ a ∈ asks, ∃ t, lib.template a.path = .ok t ∧
    t.path.components = a.path.components) :
    (lib.noted asks).Lists (Path.distinct (asks.map Ask.path)) := by
  have grow (m : DependencyMap) (kept : List Path) (h : m.Lists kept) :
      (asks.foldl lib.note m).Lists ((asks.map Ask.path).foldl Path.addNew kept) := by
    induction asks generalizing m kept with
    | nil => exact h
    | cons a rest ih =>
      obtain ⟨t, ht, same⟩ := found a List.mem_cons_self
      refine ih (fun b hb => found b (.tail _ hb)) _ _ ?_
      rw [note, ht]
      exact h.insert same t.assets
  exact grow {} [] rfl

end Library

theorem head?_asks_resolve {lib : Library} {rules : Rules} {progress : List Path} {table : Overrides}
    {path : Path} {c : Composed}
    (h : (resolve lib.source rules progress table path).outcome = .ok c) :
    ((resolve lib.source rules progress table path).asks.map Ask.path).head? =
      some (rules.complete path) := by
  rw [resolve] at h ⊢
  dsimp only at h ⊢
  split at h
  · cases h
  · rename_i new
    rw [dif_neg new]
    obtain ⟨found, hfound, h, asks⟩ := Visit.ok_bind h
    have first : (lib.source.ask progress (rules.complete path)).asks =
        [⟨progress, rules.complete path, true⟩] := Library.asks_of_ask hfound
    rw [asks, first]
    rfl

end Composition

namespace Workspace

open PugWeave.Composition

variable {w : Workspace}

theorem exists_kept_of_visit {asks : List Ask} {a : Ask} (ha : a ∈ asks) {t : Template}
    (ht : w.template a.path = .ok t) {p : Path} (path : a.path.components = p.components) :
    ∃ u, (w.visit asks).cache.find? p = some u ∧ u.Agree t := by
  obtain ⟨u, kept, hu⟩ := (upToDate_of_visit ha ht).template
  have after := ((Coherent.refl w).visit asks).template a.path
  rw [hu, ht] at after
  cases after with
  | ok agree => exact ⟨u, Cache.find?_congr _ path ▸ kept, agree⟩

theorem lists_of_session {entry : Path} {c : Composed} (h : (w.session entry).1 = .ok c) :
    c.deps.Lists (Path.distinct ((w.composition entry).asks.map Ask.path)) := by
  obtain ⟨d, hd, agree⟩ := exists_composition h
  have traced := traced_resolve hd
  refine agree.deps.lists ?_
  rw [traced.deps]
  refine Library.lists_noted fun a ha => ?_
  obtain ⟨-, t, -, ht⟩ := traced.found a ha
  exact ⟨t, ht, path_of_template ht⟩

/-- An artifact reports the templates that its composition looked up, each one once, in the order of
the first looks. The entry is the first of them, and the assets of each are those of the template
that is kept of it after all these looks. -/
theorem reports_visits {entry : Path} {a : Artifact} (h : (w.resolve entry).1 = .ok a) :
    let visits := w.looksAt entry
    (w.resolve entry).2 = visits.foldl (fun w p => (w.fetch p).2) w ∧
      visits.head? = some (w.rules.complete (w.entryPath entry)) ∧
      a.deps.Lists (Path.distinct visits) ∧
      a.deps.templates.Pairwise (fun p q => ¬p.same q = true) ∧
      ∀ p assets, (p, assets) ∈ a.deps.entries →
        ∃ t, (w.resolve entry).2.cache.find? p = some t ∧ t.assets = assets := by
  intro visits
  obtain ⟨c, hc, rfl⟩ := resolve_eq_ok_iff.1 h
  -- The session is told from the composition that its looks trace.
  obtain ⟨d, hd, agree⟩ := exists_composition hc
  obtain ⟨-, asks, visited⟩ := (Coherent.refl w).session (w.entryPath entry)
  have traced := traced_resolve hd
  have looks : visits = (w.composition (w.entryPath entry)).asks.map Ask.path :=
    congrArg (List.map Ask.path) asks
  have after : (w.resolve entry).2 = w.visit (w.composition (w.entryPath entry)).asks := visited
  have lists : c.deps.Lists (Path.distinct visits) := looks ▸ lists_of_session hc
  refine ⟨?_, ?_, lists, ?_, ?_⟩
  · rw [after, looks, visit, List.foldl_map]
  · rw [looks]
    exact head?_asks_resolve hd
  · have nodup := Path.nodup_distinct visits
    rw [← lists, List.Nodup, List.pairwise_map] at nodup
    exact nodup.imp fun hs same => hs (Path.same_iff.1 same)
  · intro p assets hp
    obtain ⟨q, hq, path⟩ := agree.deps.exists_entry hp
    rw [traced.deps] at hq
    obtain ⟨b, hb, t, ht, rfl, rfl⟩ := Library.exists_ask_of_mem_noted hq
    obtain ⟨u, kept, same⟩ := exists_kept_of_visit hb ht ((path_of_template ht).symm.trans path)
    exact ⟨u, after ▸ kept, same.assets⟩

theorem reports_visits_hidden :
    let file (t : String) : File := { content := .text t.toList, modified := 1 }
    let w : Workspace := {
      rules := ⟨2, .lf, [⟨some "img".toList, "src".toList⟩], "pug".toList, by decide⟩
      files := { entries := [(.ofString "/page.pug", file "extends mid\nblock b\n  include part"),
        (.ofString "/mid.pug", file "extends top\nblock b\n  include hidden\n  include part"),
        (.ofString "/top.pug", file "block b\ninclude part"), (.ofString "/part.pug", file "p"),
        (.ofString "/hidden.pug", file "img(src='b.png')")] } }
    let a : Artifact := {
      content := "p\np".toList
      deps := ⟨[(.ofString "/page.pug", []), (.ofString "/part.pug", []), (.ofString "/mid.pug", []),
        (.ofString "/hidden.pug", [.ofString "/b.png"]), (.ofString "/top.pug", [])]⟩ }
    let visits := w.looksAt (.ofString "page")
    (w.resolve (.ofString "page")).1 = .ok a ∧
      visits.head? = some (.ofString "/page.pug") ∧
      a.deps.Lists (Path.distinct visits) ∧
      ∃ t, (w.resolve (.ofString "page")).2.cache.find? (.ofString "/hidden.pug") = some t ∧
        t.assets = [.ofString "/b.png"] := by
  intro file w a visits
  have done : (w.session (w.entryPath (.ofString "page"))).1 =
      .ok { rows := [⟨0, "p".toList⟩, ⟨0, "p".toList⟩], deps := a.deps } :=
    session_of_within (by decide : 5 < 6) (by decide +kernel)
  have resolved : (w.resolve (.ofString "page")).1 = .ok a :=
    resolve_eq_ok_iff.2 ⟨_, done, by decide +kernel⟩
  obtain ⟨-, first, lists, -, kept⟩ := reports_visits resolved
  have entry : w.rules.complete (w.entryPath (.ofString "page")) = .ofString "/page.pug" := by
    decide +kernel
  exact ⟨resolved, entry ▸ first, lists,
    kept (.ofString "/hidden.pug") [.ofString "/b.png"] (by simp [a])⟩

end Workspace

end PugWeave
