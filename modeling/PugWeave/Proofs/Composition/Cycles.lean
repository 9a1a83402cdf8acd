import Mathlib.Data.List.Chain
import PugWeave.Proofs.Composition.Inheritance

namespace PugWeave

namespace Directive

mutual

def Node.inclusions : Node → List Text
  | .text .. | .parent .. => []
  | .inclusion _ _ target => [target]
  | .block _ _ _ _ children => inclusions children

def inclusions : List Node → List Text
  | [] => []
  | node :: rest => node.inclusions ++ inclusions rest

end

end Directive

def Template.references (t : Template) : List Text :=
  Directive.inclusions t.nodes ++ ((Composition.parent? t.nodes).map Prod.fst).toList

namespace Composition

open Directive (Node inclusions)

theorem Visit.error_bind {x : Visit α} {f : α → Visit β} {e : Error}
    (h : (x >>= f).outcome = .error e) :
    x.outcome = .error e ∨ ∃ a, x.outcome = .ok a ∧ (f a).outcome = .error e := by
  change (x.andThen f).outcome = .error e at h
  simp only [andThen] at h
  cases hx : x.outcome with
  | error e' =>
    rw [hx] at h
    cases h
    exact .inl rfl
  | ok a =>
    rw [hx] at h
    exact .inr ⟨a, rfl, h⟩

section

variable {rules : Rules} {enter : Enter Visit} {directory : Path} {table : Overrides} {e : Error}

mutual

theorem error_of_composeNode : ∀ {node : Node},
    (composeNode rules enter directory table node).outcome = .error e →
      ∃ target ∈ node.inclusions, (enter [] (directory.resolve ⟨target⟩)).outcome = .error e
  | .text indent t, h => by
    rw [composeNode] at h
    cases h
  | .inclusion indent _ target, h => by
    rw [composeNode] at h
    rcases Visit.error_bind h with h | ⟨c, -, h⟩
    · exact ⟨target, List.mem_singleton_self _, h⟩
    · cases h
  | .parent .., h => by
    rw [composeNode] at h
    cases h
  | .block indent _ name _ children, h => by
    rw [composeNode] at h
    split at h
    · cases h
    · rcases Visit.error_bind h with h | ⟨c, -, h⟩
      · exact error_of_composeNodes h
      · cases h

theorem error_of_composeNodes : ∀ {nodes : List Node},
    (composeNodes rules enter directory table nodes).outcome = .error e →
      ∃ target ∈ inclusions nodes, (enter [] (directory.resolve ⟨target⟩)).outcome = .error e
  | [], h => by
    rw [composeNodes] at h
    cases h
  | node :: rest, h => by
    rw [composeNodes] at h
    rw [inclusions]
    rcases Visit.error_bind h with h | ⟨c, -, h⟩
    · obtain ⟨target, ht, h⟩ := error_of_composeNode h
      exact ⟨target, List.mem_append_left _ ht, h⟩
    · rcases Visit.error_bind h with h | ⟨d, -, h⟩
      · obtain ⟨target, ht, h⟩ := error_of_composeNodes h
        exact ⟨target, List.mem_append_right _ ht, h⟩
      · cases h

end

theorem error_of_overrides {nodes : List Node}
    (h : (overrides rules enter directory table nodes).outcome = .error e) :
    ∃ target ∈ inclusions nodes, (enter [] (directory.resolve ⟨target⟩)).outcome = .error e := by
  induction nodes with
  | nil =>
    rw [overrides] at h
    cases h
  | cons node rest ih =>
    cases node with
    | text | inclusion | parent =>
      obtain ⟨target, ht, h⟩ := ih h
      exact ⟨target, List.mem_append_right _ ht, h⟩
    | block indent statement name mode children =>
      rw [overrides] at h
      rcases Visit.error_bind h with h | ⟨c, -, h⟩
      · obtain ⟨target, ht, h⟩ := error_of_composeNodes h
        exact ⟨target, List.mem_append_left _ ht, h⟩
      · rcases Visit.error_bind h with h | ⟨made, -, h⟩
        · obtain ⟨target, ht, h⟩ := ih h
          exact ⟨target, List.mem_append_right _ ht, h⟩
        · cases h

theorem inclusions_of_parent? {nodes rest : List Node} {target : Text}
    (h : parent? nodes = some (target, rest)) : inclusions rest ⊆ inclusions nodes := by
  induction nodes with
  | nil => cases h
  | cons node more ih =>
    apply List.Subset.trans _ (List.subset_append_right _ _)
    cases node with
    | parent =>
      cases h
      exact List.Subset.refl _
    | text | inclusion | block => exact ih h

theorem error_of_composeTemplate {t : Template}
    (h : (composeTemplate rules enter table t).outcome = .error e) :
    ∃ target ∈ t.references, ∃ made,
      (enter made (t.directory.resolve ⟨target⟩)).outcome = .error e := by
  rw [composeTemplate] at h
  rw [Template.references]
  split at h
  · rcases Visit.error_bind h with h | ⟨c, -, h⟩
    · obtain ⟨target, ht, h⟩ := error_of_composeNodes h
      exact ⟨target, List.mem_append_left _ ht, [], h⟩
    · cases h
  · rename_i target rest hparent
    rcases Visit.error_bind h with h | ⟨⟨made, deps⟩, -, h⟩
    · obtain ⟨target, ht, h⟩ := error_of_overrides h
      exact ⟨target, List.mem_append_left _ (inclusions_of_parent? hparent ht), [], h⟩
    · rcases Visit.error_bind h with h | ⟨c, -, h⟩
      · exact ⟨target, by simp [hparent], _, h⟩
      · cases h

end

theorem Library.error_of_ask {lib : Library} {progress : List Path} {p : Path} {e : Error}
    (h : (lib.ask progress p).outcome = .error e) : lib.template p = .error e := by
  simp only [Library.ask] at h
  split at h
  · rename_i e' he
    cases h
    exact he
  · cases h

/-- What a composition that fails has done: it came back to a template in progress, found no
template, or failed at a reference of the template that it found. -/
theorem error_of_resolve {lib : Library} {rules : Rules} {progress : List Path} {table : Overrides}
    {path : Path} {e : Error}
    (h : (resolve lib.source rules progress table path).outcome = .error e) :
    (progress.any (rules.complete path).same = true ∧
      e = .circular (progress ++ [rules.complete path])) ∨
    ¬progress.any (rules.complete path).same = true ∧
      (lib.template (rules.complete path) = .error e ∨
        ∃ t, lib.template (rules.complete path) = .ok t ∧ ∃ target ∈ t.references, ∃ made,
          (resolve lib.source rules (progress ++ [rules.complete path]) made
            (t.directory.resolve ⟨target⟩)).outcome = .error e) := by
  rw [resolve] at h
  dsimp only at h
  split at h
  · rename_i hp
    cases h
    exact .inl ⟨hp, rfl⟩
  · rename_i hp
    refine .inr ⟨hp, ?_⟩
    rcases Visit.error_bind h with h | ⟨found, hfound, h⟩
    · exact .inl (Library.error_of_ask h)
    · exact .inr ⟨found.template, Library.template_of_ask hfound, error_of_composeTemplate h⟩

/-- A chain that ends in a template it has been to before, and in no other. -/
def Closes (chain : List Path) : Prop :=
  ∃ way last, chain = way ++ [last] ∧ way.Pairwise (fun p q => ¬p.same q = true) ∧
    way.any last.same = true

theorem Closes.transGen {R : Path → Path → Prop} {chain : List Path} (h : Closes chain)
    (hc : chain.IsChain R) : ∃ p q, Relation.TransGen R p q ∧ p.same q = true := by
  obtain ⟨way, last, rfl, -, back⟩ := h
  obtain ⟨p, hp, same⟩ := List.any_eq_true.1 back
  have after : (way ++ [last]).Pairwise (Relation.TransGen R) :=
    (hc.imp fun _ _ => .single).pairwise
  rw [List.pairwise_append] at after
  rw [Path.same_comm] at same
  exact ⟨p, last, after.2.2 p hp last (List.mem_singleton_self _), same⟩

end Composition

namespace Workspace

open PugWeave.Composition

def Refers (w : Workspace) (p q : Path) : Prop :=
  ∃ t, w.template p = .ok t ∧
    ∃ target ∈ t.references, q = w.rules.complete (t.directory.resolve ⟨target⟩)

theorem template_ne_circular (w : Workspace) (p : Path) (chain : List Path) :
    w.template p ≠ .error (.circular chain) := by
  intro h
  -- None of the ways to fail at a file is a circle.
  have io (failure : IoFailure) : Error.ofIo p failure ≠ .circular chain := by
    cases failure <;> simp [Error.ofIo]
  have tokens (t : Text) : Template.tokens? p t ≠ .error (.circular chain) := by
    intro h
    rw [Template.tokens?] at h
    split at h <;> cases h
  have read (modified : Nat) : w.read p modified ≠ .error (.circular chain) := by
    intro h
    rw [Workspace.read] at h
    split at h
    · exact io _ (Except.error.inj h)
    · rw [Template.read] at h
      dsimp only at h
      split at h
      · rename_i he
        cases h
        exact tokens _ he
      · rename_i he
        cases h
        exact tokens _ he
      · cases h
  rw [template_eq] at h
  split at h
  · exact io _ (Except.error.inj h)
  · split at h
    · cases h
    · exact read _ h

/-- The templates in progress are the way to the path that is composed: a chain goes on from them
along references. -/
theorem circular_of_resolve {w : Workspace} {progress : List Path} {table : Overrides} {path : Path}
    {chain : List Path} (distinct : Distinct w.files.paths progress)
    (h : (Composition.resolve w.library.source w.rules progress table path).outcome =
      .error (.circular chain)) :
    Closes chain ∧ ∃ way, chain = progress ++ way ∧
      way.head? = some (w.rules.complete path) ∧ way.IsChain w.Refers := by
  induction hn : remaining w.files.paths progress using Nat.strongRecOn
    generalizing progress table path with
  | ind n ih =>
    subst hn
    -- The circle closes here, or it was met at a reference of this template.
    rcases error_of_resolve h with ⟨back, he⟩ | ⟨new, he | ⟨t, ht, target, mem, made, h⟩⟩
    · cases he
      exact ⟨⟨progress, _, rfl, distinct.pairwise, back⟩, [_], rfl, rfl, .singleton _⟩
    · exact absurd he (w.template_ne_circular _ _)
    · have listed := w.library.listed ht
      obtain ⟨closes, way, hchain, hhead, hway⟩ :=
        ih _ (remaining_lt listed new) (distinct.push listed new) h rfl
      refine ⟨closes, w.rules.complete path :: way, by simp [hchain], rfl, ?_⟩
      rw [List.isChain_cons, hhead]
      refine ⟨?_, hway⟩
      intro q hq
      cases hq
      exact ⟨t, ht, target, mem, rfl⟩

theorem composition_of_resolve_error {w : Workspace} {entry : Path} {e : Error}
    (h : (w.resolve entry).1 = .error e) :
    (w.composition (w.entryPath entry)).outcome = .error e := by
  have same := ((Coherent.refl w).session (w.entryPath entry)).1
  have failed : (w.session (w.entryPath entry)).1 = .error e := by
    simp only [Workspace.resolve, compose] at h
    cases hs : (w.session (w.entryPath entry)).1 with
    | error e' =>
      rw [hs] at h
      exact congrArg _ (Except.error.inj h)
    | ok c =>
      rw [hs] at h
      cases h
  rw [failed] at same
  cases hc : (w.composition (w.entryPath entry)).outcome with
  | error e' =>
    rw [hc] at same
    cases same
    rfl
  | ok c =>
    rw [hc] at same
    cases same

/-- What a circular reference is reported for is there: the chain starts at the entry, goes along
references through different templates, and ends at one of these. Where no references lead back,
none is reported. -/
theorem circular_exact (w : Workspace) (entry : Path) :
    (∀ chain, (w.resolve entry).1 = .error (.circular chain) →
      ∃ way last, chain = way ++ [last] ∧
        way.head? = some (w.rules.complete (w.entryPath entry)) ∧
        way.Pairwise (fun p q => ¬p.same q = true) ∧
        way.any last.same = true ∧
        chain.IsChain w.Refers) ∧
    ((∀ p q, Relation.TransGen w.Refers p q → ¬p.same q = true) →
      ∀ chain, (w.resolve entry).1 ≠ .error (.circular chain)) := by
  have reported (chain : List Path) (h : (w.resolve entry).1 = .error (.circular chain)) :
      Closes chain ∧ chain.head? = some (w.rules.complete (w.entryPath entry)) ∧
        chain.IsChain w.Refers := by
    obtain ⟨closes, way, rfl, hhead, hway⟩ :=
      circular_of_resolve (.nil _) (composition_of_resolve_error h)
    exact ⟨closes, hhead, hway⟩
  constructor
  · intro chain h
    obtain ⟨⟨way, last, rfl, distinct, back⟩, hhead, hchain⟩ := reported chain h
    refine ⟨way, last, rfl, ?_, distinct, back, hchain⟩
    cases way with
    | nil => cases back
    | cons p rest => exact hhead
  · intro acyclic chain h
    obtain ⟨closes, -, hchain⟩ := reported chain h
    obtain ⟨p, q, lead, same⟩ := closes.transGen hchain
    exact acyclic p q lead same

theorem circular_exact_page :
    let file (t : String) : File := { content := .text t.toList, modified := 1 }
    let w : Workspace := {
      rules := ⟨2, .lf, [], "pug".toList, by decide⟩
      files := { entries := [(.ofString "/page.pug", file "include c\nextends a"),
        (.ofString "/a.pug", file "block x\n  include c\n  include x/../b"),
        (.ofString "/b.pug", file "include c\ndiv\n  include a.pug"),
        (.ofString "/c.pug", file "p")] } }
    let chain : List Path :=
      [.ofString "/page.pug", .ofString "/a.pug", .ofString "/b.pug", .ofString "/a.pug"]
    (w.resolve (.ofString "page")).1 = .error (.circular chain) ∧
      ∃ way last, chain = way ++ [last] ∧
        way.head? = some (w.rules.complete (w.entryPath (.ofString "page"))) ∧
        way.Pairwise (fun p q => ¬p.same q = true) ∧
        way.any last.same = true ∧
        chain.IsChain w.Refers := by
  intro file w chain
  have failed : (w.session (w.entryPath (.ofString "page"))).1 = .error (.circular chain) :=
    session_error_of_within (by decide : 4 < 5) (by decide +kernel)
  have reported : (w.resolve (.ofString "page")).1 = .error (.circular chain) := by
    simp only [Workspace.resolve, compose, failed]
    rfl
  exact ⟨reported, (circular_exact w (.ofString "page")).1 chain reported⟩

end Workspace

end PugWeave
