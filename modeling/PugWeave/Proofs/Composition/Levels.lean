import PugWeave.Proofs.Composition.Cycles
import PugWeave.Proofs.Composition.Depth
import PugWeave.Proofs.Composition.Trace

namespace PugWeave

open Directive (Node inclusions)

inductive Directive.Node.Within : Node → List Node → Prop
  | here : node ∈ nodes → Within node nodes
  | inside : .block indent s name mode children ∈ nodes → Within node children → Within node nodes

theorem Directive.Node.Sound.within {sep : Text} {node : Node} {nodes : List Node} {depth : Nat}
    (sound : ∀ n ∈ nodes, n.Sound sep depth) (h : node.Within nodes) :
    ∃ d, node.Sound sep d := by
  induction h generalizing depth with
  | here mem => exact ⟨_, sound _ mem⟩
  | inside mem _ ih =>
    cases sound _ mem with
    | block _ inner => exact ih inner

open PugWeave.Composition

/-- The templates that a composition passes: that of its path, those above it, under what it hands
up, and those of its includes, under nothing. -/
inductive Workspace.Passes (w : Workspace) : List Path → Overrides → Path → Link → Prop
  | here : w.template (w.rules.complete path) = .ok t →
      Passes w progress table path ⟨progress ++ [w.rules.complete path], table, t⟩
  | parent : w.template (w.rules.complete path) = .ok t → parent? t.nodes = some (target, rest) →
      (overrides w.rules
        (Composition.resolve w.library.source w.rules (progress ++ [w.rules.complete path]))
        t.directory table rest).outcome = .ok (made, deps) →
      Passes w (progress ++ [w.rules.complete path]) (table ++ made)
        (t.directory.resolve ⟨target⟩) l →
      Passes w progress table path l
  | inclusion : w.template (w.rules.complete path) = .ok t → target ∈ inclusions t.nodes →
      Passes w (progress ++ [w.rules.complete path]) [] (t.directory.resolve ⟨target⟩) l →
      Passes w progress table path l

namespace Composition

theorem Visit.mem_asks_bind {x : Visit α} {f : α → Visit β} {a : Ask} (h : a ∈ (x >>= f).asks) :
    a ∈ x.asks ∨ ∃ b, x.outcome = .ok b ∧ a ∈ (f b).asks := by
  change a ∈ (x.andThen f).asks at h
  rw [andThen] at h
  split at h
  · exact .inl h
  · rename_i b hb
    exact (List.mem_append.1 h).imp_right fun h => ⟨b, hb, h⟩

section

variable {rules : Rules} {enter : Enter Visit} {directory : Path} {table : Overrides} {a : Ask}

mutual

theorem ask_of_composeNode : ∀ {node : Node},
    a ∈ (composeNode rules enter directory table node).asks →
      ∃ target ∈ node.inclusions, a ∈ (enter [] (directory.resolve ⟨target⟩)).asks
  | .text .., h => by
    rw [composeNode] at h
    cases h
  | .inclusion _ _ target, h => by
    rw [composeNode] at h
    rcases Visit.mem_asks_bind h with h | ⟨c, -, h⟩
    · exact ⟨target, List.mem_singleton_self _, h⟩
    · cases h
  | .parent .., h => by
    rw [composeNode] at h
    cases h
  | .block _ _ name _ children, h => by
    rw [composeNode] at h
    split at h
    · cases h
    · rcases Visit.mem_asks_bind h with h | ⟨c, -, h⟩
      · exact ask_of_composeNodes h
      · cases h

theorem ask_of_composeNodes : ∀ {nodes : List Node},
    a ∈ (composeNodes rules enter directory table nodes).asks →
      ∃ target ∈ inclusions nodes, a ∈ (enter [] (directory.resolve ⟨target⟩)).asks
  | [], h => by
    rw [composeNodes] at h
    cases h
  | node :: rest, h => by
    rw [composeNodes] at h
    rw [inclusions]
    rcases Visit.mem_asks_bind h with h | ⟨c, -, h⟩
    · obtain ⟨target, ht, h⟩ := ask_of_composeNode h
      exact ⟨target, List.mem_append_left _ ht, h⟩
    · rcases Visit.mem_asks_bind h with h | ⟨d, -, h⟩
      · obtain ⟨target, ht, h⟩ := ask_of_composeNodes h
        exact ⟨target, List.mem_append_right _ ht, h⟩
      · cases h

end

theorem ask_of_overrides {nodes : List Node}
    (h : a ∈ (overrides rules enter directory table nodes).asks) :
    ∃ target ∈ inclusions nodes, a ∈ (enter [] (directory.resolve ⟨target⟩)).asks := by
  induction nodes with
  | nil =>
    rw [overrides] at h
    cases h
  | cons node rest ih =>
    cases node with
    | text | inclusion | parent =>
      obtain ⟨target, ht, h⟩ := ih h
      exact ⟨target, List.mem_append_right _ ht, h⟩
    | block indent statement name mode children =>
      rw [overrides] at h
      rcases Visit.mem_asks_bind h with h | ⟨c, -, h⟩
      · obtain ⟨target, ht, h⟩ := ask_of_composeNodes h
        exact ⟨target, List.mem_append_left _ ht, h⟩
      · rcases Visit.mem_asks_bind h with h | ⟨made, -, h⟩
        · obtain ⟨target, ht, h⟩ := ih h
          exact ⟨target, List.mem_append_right _ ht, h⟩
        · cases h

theorem ask_of_composeTemplate {t : Template}
    (h : a ∈ (composeTemplate rules enter table t).asks) :
    (∃ target ∈ inclusions t.nodes, a ∈ (enter [] (t.directory.resolve ⟨target⟩)).asks) ∨
      ∃ target rest made deps, parent? t.nodes = some (target, rest) ∧
        (overrides rules enter t.directory table rest).outcome = .ok (made, deps) ∧
        a ∈ (enter (table ++ made) (t.directory.resolve ⟨target⟩)).asks := by
  rw [composeTemplate] at h
  split at h
  · rcases Visit.mem_asks_bind h with h | ⟨c, -, h⟩
    · exact .inl (ask_of_composeNodes h)
    · cases h
  · rename_i target rest hparent
    rcases Visit.mem_asks_bind h with h | ⟨⟨made, deps⟩, hmade, h⟩
    · obtain ⟨target, ht, h⟩ := ask_of_overrides h
      exact .inl ⟨target, inclusions_of_parent? hparent ht, h⟩
    · rcases Visit.mem_asks_bind h with h | ⟨c, -, h⟩
      · exact .inr ⟨target, rest, made, deps, hparent, hmade, h⟩
      · cases h

end

theorem Library.exists_of_mem_asks {lib : Library} {progress : List Path} {p : Path} {a : Ask}
    (h : a ∈ (lib.ask progress p).asks) (found : a.found = true) :
    ∃ t, lib.template p = .ok t ∧ a = ⟨progress, p, true⟩ := by
  simp only [Library.ask] at h
  split at h <;> rename_i ht <;> obtain rfl := List.mem_singleton.1 h
  · cases found
  · exact ⟨_, ht, rfl⟩

section

variable {w : Workspace} {progress : List Path} {table : Overrides} {path : Path}

theorem passes_of_ask {a : Ask}
    (h : a ∈ (resolve w.library.source w.rules progress table path).asks) (found : a.found = true) :
    ∃ l, w.Passes progress table path l ∧ l.progress = a.stack ∧
      w.template a.path = .ok l.template := by
  induction hn : remaining w.files.paths progress using Nat.strongRecOn
    generalizing progress table path with
  | ind n ih =>
    subst hn
    rw [resolve] at h
    dsimp only at h
    split at h
    · cases h
    · rename_i new
      rcases Visit.mem_asks_bind h with h | ⟨b, hb, h⟩
      · obtain ⟨t, ht, rfl⟩ := Library.exists_of_mem_asks h found
        exact ⟨_, .here ht, rfl, ht⟩
      · have ht : w.template (w.rules.complete path) = .ok b.template := Library.template_of_ask hb
        have less := remaining_lt b.listed new
        rcases ask_of_composeTemplate h with
          ⟨target, mem, h⟩ | ⟨target, rest, made, deps, hparent, hmade, h⟩
        · obtain ⟨l, passes, rest⟩ := ih _ less h rfl
          exact ⟨l, .inclusion ht mem passes, rest⟩
        · obtain ⟨l, passes, rest⟩ := ih _ less h rfl
          exact ⟨l, .parent ht hparent hmade passes, rest⟩

def Overrides.Raised (table : Overrides) : Prop := ∀ o ∈ table, Composition.Deep 0 o.rows

theorem Overrides.Raised.deep {table : Overrides} (h : table.Raised) : table.Deep :=
  fun _ o ho => h o (List.mem_of_find?_eq_some ho)

theorem raised_overrides {rules : Rules} {sep : Text} {enter : Enter Visit} {directory : Path}
    (raised : table.Deep) {nodes : List Node} (sound : ∀ node ∈ nodes, node.Sound sep 0)
    {made : Overrides} {deps : DependencyMap}
    (h : (overrides rules enter directory table nodes).outcome = .ok (made, deps)) :
    made.Raised := by
  induction nodes generalizing made deps with
  | nil =>
    cases h
    simp [Overrides.Raised]
  | cons node rest ih =>
    rw [List.forall_mem_cons] at sound
    cases node with
    | text | inclusion | parent => exact ih sound.2 h
    | block indent statement n mode children =>
      rw [overrides] at h
      obtain ⟨body, hbody, h⟩ := Visit.outcome_bind h
      obtain ⟨⟨later, deps'⟩, hlater, h⟩ := Visit.outcome_bind h
      cases h
      cases sound.1 with
      | block _ inner =>
        have own : Deep 0 (body.shift (-(indent + 1))).rows :=
          (deep_composeNodes raised inner hbody).shift (by omega)
        exact List.forall_mem_append.2 ⟨ih sound.2 hlater, List.forall_mem_singleton.2 own⟩

end

end Composition

namespace Workspace

variable {w : Workspace} {progress : List Path} {table : Overrides} {path : Path} {l : Link}

theorem Passes.raised (parsed : w.Parsed) (h : w.Passes progress table path l)
    (raised : table.Raised) : l.table.Raised ∧ ∃ p, w.template p = .ok l.template := by
  induction h with
  | here ht => exact ⟨raised, _, ht⟩
  | parent ht more hmade _ ih =>
    refine ih (List.forall_mem_append.2 ⟨raised, ?_⟩)
    exact raised_overrides raised.deep (fun n hn => parsed ht n (mem_of_parent? more n hn)) hmade
  | inclusion _ _ _ ih => exact ih (by simp [Overrides.Raised])

theorem Passes.deep_block (parsed : w.Parsed) (h : w.Passes progress table path l)
    (raised : table.Raised) {indent : Nat} {s name : Text} {mode : Directive.Mode}
    {children : List Node}
    (within : (Node.block indent s name mode children).Within l.template.nodes) {rows : List Row}
    (hr : l.rows w [.block indent s name mode children] = .ok rows) :
    Deep indent rows := by
  obtain ⟨raised, p, ht⟩ := h.raised parsed raised
  obtain ⟨d, sound⟩ := Directive.Node.Sound.within (parsed ht) within
  have own : (Node.block indent s name mode children).Sound w.rules.separator indent := by
    cases sound with
    | block _ inner => exact .block (Nat.le_refl _) inner
  obtain ⟨c, hc, rfl⟩ := Link.exists_of_rows hr
  exact deep_composeNodes raised.deep (List.forall_mem_singleton.2 own) hc

theorem shiftText_of_deep (rules : Rules) {row : Row} (edge : 0 ≤ row.indent) :
    shiftText (row.indent * rules.indentUnit) rules.separator row.text =
      if row.indent = 0 then row.text else Text.join rules.separator
        ((Text.fullLines rules.separator row.text).map
          (Text.spaces (row.indent.toNat * rules.indentUnit) ++ ·)) := by
  obtain ⟨n, hn⟩ := Int.eq_ofNat_of_zero_le edge
  rw [hn]
  split
  · rename_i still
    simp [shiftText, still]
  · rename_i moves
    have right : (n * rules.indentUnit : Int) ≠ 0 := by
      have := rules.indentUnit_pos
      exact Int.mul_ne_zero moves (by omega)
    have pads (l : Text) : shiftLine (n * rules.indentUnit) l =
        Text.spaces (n * rules.indentUnit) ++ l := by
      rw [← Int.natCast_mul, shiftLine_of_nonneg (by omega)]
      rfl
    rw [Rules.separator, shiftText_of_ne right, funext pads]
    rfl

/-- Wherever a composition that succeeds has been, nothing stands to the left of the edge: its rows
are only moved to the right, what is handed up to any template starts at the edge or behind it, and
a block at any depth of a template adds rows at its own level or deeper. -/
theorem session_deep {w : Workspace} (empty : w.cache.templates = []) (events : List Event) :
    ∀ u ∈ w.moments events, ∀ entry c, (u.session entry).1 = .ok c →
      (∀ row ∈ c.rows, 0 ≤ row.indent ∧
        shiftText (row.indent * u.rules.indentUnit) u.rules.separator row.text =
          if row.indent = 0 then row.text else Text.join u.rules.separator
            ((Text.fullLines u.rules.separator row.text).map
              (Text.spaces (row.indent.toNat * u.rules.indentUnit) ++ ·))) ∧
      (∀ a ∈ (u.session entry).2.asks, a.found = true → ∃ l, u.Passes [] [] entry l ∧
        l.progress = a.stack ∧ u.template a.path = .ok l.template) ∧
      ∀ l, u.Passes [] [] entry l →
        (∀ o ∈ l.table, ∀ row ∈ o.rows, 0 ≤ row.indent) ∧
        ∀ indent s name mode children,
          (Node.block indent s name mode children).Within l.template.nodes →
          ∀ rows, l.rows u [.block indent s name mode children] = .ok rows →
            ∀ row ∈ rows, (indent : Int) ≤ row.indent := by
  intro u hu entry c hc
  have parsed : u.Parsed := (sound_of_empty empty events u hu).parsed
  have nothing : Overrides.Raised [] := by simp [Overrides.Raised]
  refine ⟨?_, ?_, ?_⟩
  · obtain ⟨d, hd, agree⟩ := exists_composition hc
    have deep : Deep 0 c.rows := agree.rows ▸ deep_resolve parsed deep_nil hd
    exact fun row hr => ⟨deep row hr, shiftText_of_deep u.rules (deep row hr)⟩
  · intro a ha found
    rw [((Coherent.refl u).session entry).2.1] at ha
    exact passes_of_ask ha found
  · intro l passes
    exact ⟨(passes.raised parsed nothing).1, fun _ _ _ _ _ within _ rows =>
      passes.deep_block parsed nothing within rows⟩

theorem session_deep_page :
    let file (t : String) : File := { content := .text t.toList, modified := 1 }
    let w : Workspace := {
      rules := ⟨2, .lf, [], "pug".toList, by decide⟩
      files := { entries := [
        (.ofString "/page.pug", file "extends layout\nblock append b\n  p\n    include part"),
        (.ofString "/layout.pug", file "div\n  block b\n      p layout"),
        (.ofString "/part.pug", file "block b\n  i part")] } }
    let c : Composed := {
      rows := [⟨0, "div".toList⟩, ⟨2, "p layout".toList⟩, ⟨1, "p".toList⟩, ⟨2, "i part".toList⟩]
      deps := ⟨[(.ofString "/page.pug", []), (.ofString "/part.pug", []),
        (.ofString "/layout.pug", [])]⟩ }
    (w.session (.ofString "/page.pug")).1 = .ok c ∧ (∀ row ∈ c.rows, 0 ≤ row.indent) ∧
      ∃ l, w.Passes [] [] (.ofString "/page.pug") l ∧
        l.progress = [.ofString "/page.pug", .ofString "/layout.pug"] ∧
        ∀ o ∈ l.table, ∀ row ∈ o.rows, 0 ≤ row.indent := by
  intro file w c
  have within : w.files.entries.length < 4 := by decide
  have done : (w.session (.ofString "/page.pug")).1 = .ok c :=
    session_of_within within (by decide +kernel)
  have asked : ⟨[.ofString "/page.pug"], .ofString "/layout.pug", true⟩ ∈
      (w.session (.ofString "/page.pug")).2.asks := by
    have same := congrArg (·.2.asks) (w.sessionWithin_eq within (.ofString "/page.pug"))
    exact same ▸ by decide +kernel
  obtain ⟨rows, passed, levels⟩ := session_deep (w := w) rfl [] w (by simp [moments]) _ _ done
  obtain ⟨l, passes, progress, -⟩ := passed _ asked rfl
  exact ⟨done, fun row hr => (rows row hr).1, l, passes, progress, (levels l passes).1⟩

end Workspace

end PugWeave
