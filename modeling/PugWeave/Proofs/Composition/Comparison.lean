import Mathlib.Data.List.Forall2
import PugWeave.Composition.Resolve

/-! Composition in two monads at once. Whatever is kept when steps are put in sequence, and holds of
the looks at templates, holds of whole compositions. -/

namespace PugWeave.Composition

open Directive (Node)

def samePath (p q : Path) : Prop := p.components = q.components

theorem components_of_samePath {p q : Path} (h : samePath p q) : p.components = q.components := h

theorem components_of_eq {p q : Path} (h : p = q) : p.components = q.components := congrArg _ h

namespace DependencyMap

def Agree (same : Path → Path → Prop) (m n : DependencyMap) : Prop :=
  List.Forall₂ (fun a b => same a.1 b.1 ∧ a.2 = b.2) m.entries n.entries

section

variable {same : Path → Path → Prop} (components : ∀ {p q}, same p q → p.components = q.components)

theorem Agree.empty : Agree same {} {} := .nil

include components

theorem Agree.contains {m n : DependencyMap} (h : m.Agree same n) {t u : Path} (ht : same t u) :
    m.contains t = n.contains u := by
  simp only [DependencyMap.contains]
  simp only [Agree] at h
  generalize m.entries = entries, n.entries = entries' at h
  induction h with
  | nil => rfl
  | cons ha _ ih =>
    rw [List.any_cons, List.any_cons, ih]
    simp [Path.same, components ha.1, components ht]

theorem Agree.insert {m n : DependencyMap} (h : m.Agree same n) {t u : Path} (ht : same t u)
    (assets : List Path) : (m.insert t assets).Agree same (n.insert u assets) := by
  simp only [DependencyMap.insert]
  rw [h.contains components ht]
  split
  · exact h
  · exact List.rel_append h (.cons ⟨ht, rfl⟩ .nil)

theorem Agree.merge {m n m' n' : DependencyMap} (h : m.Agree same n) (h' : m'.Agree same n') :
    (m.merge m').Agree same (n.merge n') := by
  simp only [DependencyMap.merge]
  simp only [Agree] at h'
  generalize m'.entries = entries, n'.entries = entries' at h'
  induction h' generalizing m n with
  | nil => exact h
  | @cons a b _ _ ha _ ih =>
    have step : (m.insert a.1 a.2).Agree same (n.insert b.1 b.2) := by
      rw [ha.2]
      exact h.insert components ha.1 _
    exact ih step

end

theorem agree_eq_iff {m n : DependencyMap} : m.Agree Eq n ↔ m = n := by
  have : (fun a b : Path × List Path => a.1 = b.1 ∧ a.2 = b.2) = Eq := by
    funext a b
    simp [Prod.ext_iff]
  simp only [Agree]
  rw [this, List.forall₂_eq_eq_eq]
  cases m
  cases n
  simp

theorem agree_samePath_iff {m n : DependencyMap} : m.Agree samePath n ↔
    m.entries.map (Prod.map Path.components id) = n.entries.map (Prod.map Path.components id) := by
  rw [← List.forall₂_eq_eq_eq, List.forall₂_map_left_iff, List.forall₂_map_right_iff]
  simp [Agree, samePath, Prod.ext_iff]

end DependencyMap

namespace Composed

structure Agree (same : Path → Path → Prop) (c d : Composed) : Prop where
  rows : c.rows = d.rows
  deps : c.deps.Agree same d.deps

theorem Agree.shift {same : Path → Path → Prop} {c d : Composed} (h : c.Agree same d)
    (levels : Int) : (c.shift levels).Agree same (d.shift levels) :=
  ⟨by simp only [Composed.shift, h.rows], h.deps⟩

section

variable {same : Path → Path → Prop} (components : ∀ {p q}, same p q → p.components = q.components)
include components

theorem Agree.append {a b c d : Composed} (h : a.Agree same b) (h' : c.Agree same d) :
    (a ++ c).Agree same (b ++ d) :=
  ⟨congrArg₂ _ h.rows h'.rows, h.deps.merge components h'.deps⟩

theorem Agree.fillBlock {c d : Composed} (h : c.Agree same d) (indent : Nat)
    (override : Option Override) :
    (fillBlock indent override c).Agree same (fillBlock indent override d) := by
  simp only [Composition.fillBlock]
  cases override with
  | none => exact h
  | some o =>
    have injected : Agree same { rows := o.rows.map (Row.shift indent) }
        { rows := o.rows.map (Row.shift indent) } := ⟨rfl, .empty⟩
    dsimp only
    cases o.mode with
    | replace => exact injected
    | append => exact h.append components injected
    | prepend => exact injected.append components h

end

theorem agree_eq_iff {c d : Composed} : c.Agree Eq d ↔ c = d := by
  constructor
  · intro h
    cases c
    cases d
    obtain ⟨rfl, hd⟩ := h
    simpa using DependencyMap.agree_eq_iff.1 hd
  · rintro rfl
    exact ⟨rfl, DependencyMap.agree_eq_iff.2 rfl⟩

theorem Agree.symm {c d : Composed} (h : c.Agree samePath d) : d.Agree samePath c :=
  ⟨h.rows.symm, DependencyMap.agree_samePath_iff.2 (DependencyMap.agree_samePath_iff.1 h.deps).symm⟩

theorem Agree.trans {c d e : Composed} (h : c.Agree samePath d) (h' : d.Agree samePath e) :
    c.Agree samePath e := by
  constructor
  · rw [h.rows, h'.rows]
  · rw [DependencyMap.agree_samePath_iff, DependencyMap.agree_samePath_iff.1 h.deps]
    exact DependencyMap.agree_samePath_iff.1 h'.deps

end Composed

def Overrides.Agree (T U : Overrides) : Prop := ∀ name, T.find? name = U.find? name

theorem Overrides.find?_append (T U : Overrides) (name : Text) :
    Overrides.find? (T ++ U) name = (T.find? name).or (U.find? name) := List.find?_append

theorem Overrides.Agree.append {T U : Overrides} (h : T.Agree U) (made : Overrides) :
    Overrides.Agree (T ++ made) (U ++ made) := by
  intro name
  rw [find?_append, find?_append, h]

/-- Compares computations of two monads by a relation of their results, and templates by a relation
of their paths. -/
structure Comparison (m n : Type → Type) [Monad m] [Monad n] where
  same : Path → Path → Prop
  components : ∀ {p q}, same p q → p.components = q.components
  holds : {α β : Type} → (α → β → Prop) → m α → n β → Prop
  pure : ∀ {α β : Type} {R : α → β → Prop} {a : α} {b : β}, R a b → holds R (pure a) (pure b)
  bind : ∀ {α β γ δ : Type} {R : α → β → Prop} {S : γ → δ → Prop} {x : m α} {y : n β}
    {f : α → m γ} {g : β → n δ}, holds R x y → (∀ a b, R a b → holds S (f a) (g b)) →
      holds S (x >>= f) (y >>= g)

namespace Comparison

variable {m n : Type → Type} [Monad m] [Monad n] (C : Comparison m n) {rules : Rules}

structure Alike (t u : Template) : Prop where
  path : C.same t.path u.path
  directory : ∀ r, t.directory.resolve r = u.directory.resolve r
  nodes : t.nodes = u.nodes
  assets : t.assets = u.assets

structure Setting (e : Enter m) (f : Enter n) (d d' : Path) (T U : Overrides) : Prop where
  enter : ∀ {T U : Overrides} (p : Path), T.Agree U → C.holds (Composed.Agree C.same) (e T p) (f U p)
  directory : ∀ r, d.resolve r = d'.resolve r
  table : T.Agree U

variable {C} {e : Enter m} {f : Enter n} {d d' : Path} {T U : Overrides}

mutual

theorem Setting.composeNode (h : C.Setting e f d d' T U) :
    ∀ node : Node, C.holds (Composed.Agree C.same) (composeNode rules e d T node)
      (composeNode rules f d' U node)
  | .text indent t => by
    simp only [Composition.composeNode]
    exact C.pure ⟨rfl, .empty⟩
  | .inclusion indent _ target => by
    simp only [Composition.composeNode, h.directory]
    apply C.bind (h.enter _ fun _ => rfl)
    intro c c' hc
    exact C.pure ⟨by rw [hc.rows], hc.deps⟩
  | .parent .. => by
    simp only [Composition.composeNode]
    exact C.pure ⟨rfl, .empty⟩
  | .block indent _ name _ children => by
    simp only [Composition.composeNode, h.table name]
    split
    · exact C.pure (.fillBlock C.components ⟨rfl, .empty⟩ _ _)
    · apply C.bind (h.composeNodes children)
      intro c c' hc
      exact C.pure ((hc.shift (-1)).fillBlock C.components _ _)

theorem Setting.composeNodes (h : C.Setting e f d d' T U) :
    ∀ nodes : List Node, C.holds (Composed.Agree C.same) (composeNodes rules e d T nodes)
      (composeNodes rules f d' U nodes)
  | [] => by
    simp only [Composition.composeNodes]
    exact C.pure ⟨rfl, .empty⟩
  | node :: rest => by
    simp only [Composition.composeNodes]
    apply C.bind (h.composeNode node)
    intro c c' hc
    apply C.bind (h.composeNodes rest)
    intro r r' hr
    exact C.pure (hc.append C.components hr)

end

theorem Setting.overrides (h : C.Setting e f d d' T U) (nodes : List Node) :
    C.holds (fun a b => a.1 = b.1 ∧ a.2.Agree C.same b.2)
      (overrides rules e d T nodes) (overrides rules f d' U nodes) := by
  induction nodes with
  | nil => exact C.pure ⟨rfl, .empty⟩
  | cons node rest ih =>
    cases node with
    | text | inclusion | parent => exact ih
    | block indent _ name mode children =>
      simp only [Composition.overrides]
      apply C.bind (h.composeNodes children)
      intro c c' hc
      apply C.bind ih
      intro made made' hm
      exact C.pure ⟨by simp only [hm.1, Composed.shift, hc.rows], hc.deps.merge C.components hm.2⟩

variable (C)

theorem composeTemplate
    (enter : ∀ {T U : Overrides} (p : Path), T.Agree U →
      C.holds (Composed.Agree C.same) (e T p) (f U p))
    (table : T.Agree U) {t u : Template} (h : C.Alike t u) :
    C.holds (Composed.Agree C.same) (composeTemplate rules e T t) (composeTemplate rules f U u) := by
  have setting : C.Setting e f t.directory u.directory T U := ⟨enter, h.directory, table⟩
  have own : (DependencyMap.empty.insert t.path t.assets).Agree C.same
      (DependencyMap.empty.insert u.path u.assets) := by
    rw [h.assets]
    exact .insert C.components .empty h.path _
  simp only [Composition.composeTemplate, h.nodes]
  split
  · apply C.bind (setting.composeNodes _)
    intro c c' hc
    exact C.pure ⟨hc.rows, own.merge C.components hc.deps⟩
  · rename_i target rest _
    apply C.bind (setting.overrides rest)
    intro made made' hm
    rw [hm.1, h.directory]
    apply C.bind (enter _ (table.append _))
    intro c c' hc
    exact C.pure ⟨hc.rows, (own.merge C.components hm.2).merge C.components hc.deps⟩

/-- Compositions compare if their looks do, and if one that fails on a circular reference compares
with whatever the other comes to. `P` is what a comparison may know of the templates in progress. -/
theorem resolve_beside {s : Source m} {s' : Source n} {P : List Path → List Path → Prop}
    (circular : ∀ {progress progress' : List Path} {path : Path} {U : Overrides},
      P progress progress' → progress.any (rules.complete path).same = true →
        C.holds (Composed.Agree C.same) (s.fail (.circular (progress ++ [rules.complete path])))
          (Composition.resolve s' rules progress' U path))
    (ask : ∀ {progress progress' p}, P progress progress' → ¬progress.any p.same = true →
      ¬progress'.any p.same = true ∧ C.holds
        (fun a b => C.Alike a.template b.template ∧ P (progress ++ [p]) (progress' ++ [p]))
        (s.ask progress p) (s'.ask progress' p))
    {progress progress' : List Path} (hP : P progress progress') (table : T.Agree U)
    (path : Path) :
    C.holds (Composed.Agree C.same) (Composition.resolve s rules progress T path)
      (Composition.resolve s' rules progress' U path) := by
  -- By the paths that can still be entered, as `resolve` itself ends.
  induction hn : remaining s.paths progress using Nat.strongRecOn
    generalizing progress progress' T U path with
  | ind n ih =>
    subst hn
    by_cases hp : progress.any (rules.complete path).same = true
    · rw [Composition.resolve]
      dsimp only
      rw [dif_pos hp]
      exact circular hP hp
    · obtain ⟨hp', looks⟩ := ask hP hp
      rw [Composition.resolve, Composition.resolve]
      dsimp only
      rw [dif_neg hp, dif_neg hp']
      apply C.bind looks
      intro a b hab
      apply C.composeTemplate _ table hab.1
      intro T U q hTU
      exact ih _ (remaining_lt a.listed hp) hab.2 hTU q rfl

theorem resolve {s : Source m} {s' : Source n} {P : List Path → Prop}
    (fail : ∀ {progress p}, P progress → progress.any p.same = true →
      C.holds (Composed.Agree C.same) (s.fail (.circular (progress ++ [p])))
        (s'.fail (.circular (progress ++ [p]))))
    (ask : ∀ {progress p}, P progress → ¬progress.any p.same = true →
      C.holds (fun a b => C.Alike a.template b.template ∧ P (progress ++ [p]))
        (s.ask progress p) (s'.ask progress p))
    {progress : List Path} (hP : P progress) (table : T.Agree U) (path : Path) :
    C.holds (Composed.Agree C.same) (resolve s rules progress T path)
      (resolve s' rules progress U path) := by
  refine C.resolve_beside (P := fun progress progress' => progress = progress' ∧ P progress)
    ?_ ?_ ⟨rfl, hP⟩ table path
  · rintro progress _ path U ⟨rfl, hP⟩ hp
    rw [Composition.resolve]
    dsimp only
    rw [dif_pos hp]
    exact fail hP hp
  · rintro progress _ p ⟨rfl, hP⟩ hp
    exact ⟨hp, by simpa using ask hP hp⟩

end Comparison

def Fewer (progress progress' : List Path) : Prop :=
  ∀ p : Path, progress'.any p.same = true → progress.any p.same = true

theorem Fewer.append {progress progress' : List Path} (h : Fewer progress progress') (p : Path) :
    Fewer (progress ++ [p]) (progress' ++ [p]) := by
  intro q hq
  rw [List.any_append, Bool.or_eq_true] at hq ⊢
  exact hq.imp_left (h q)

end PugWeave.Composition
