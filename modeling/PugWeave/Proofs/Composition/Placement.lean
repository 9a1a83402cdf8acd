import PugWeave.Proofs.Composition.Dependence

namespace PugWeave

open Directive (Node)

def Template.after (t : Template) : List Node :=
  ((Composition.parent? t.nodes).map Prod.snd).getD []

namespace Composition

structure Origin where
  nearer : List Template
  template : Template
  block : Block

/-- The block that overrides a name, among templates from an entry on. The nearest one counts. -/
def origin? (name : Text) : List Template → Option Origin
  | [] => none
  | t :: rest =>
    match lastBlock? name t.after with
    | some block => some ⟨[], t, block⟩
    | none => (origin? name rest).map fun o => { o with nearer := t :: o.nearer }

theorem origin?_concat (name : Text) (below : List Template) (t : Template) :
    origin? name (below ++ [t]) =
      (origin? name below).or ((lastBlock? name t.after).map fun b => ⟨below, t, b⟩) := by
  induction below with
  | nil =>
    rw [List.nil_append, origin?, origin?, origin?]
    cases lastBlock? name t.after <;> rfl
  | cons u rest ih =>
    rw [List.cons_append, origin?, origin?, ih]
    cases lastBlock? name u.after with
    | some b => rfl
    | none =>
      cases origin? name rest with
      | some o => rfl
      | none => cases lastBlock? name t.after <;> rfl

end Composition

open PugWeave.Composition

inductive Workspace.Chain (w : Workspace) : Path → List Template → Template → Prop
  | top : w.template (w.rules.complete path) = .ok t → parent? t.nodes = none → Chain w path [] t
  | up : w.template (w.rules.complete path) = .ok t → parent? t.nodes = some (target, rest) →
      Chain w (t.directory.resolve ⟨target⟩) way top → Chain w path (t :: way) top

namespace Workspace.Chain

variable {w : Workspace} {path : Path} {t top : Template} {way : List Template}

theorem iff_of_last (ht : w.template (w.rules.complete path) = .ok t)
    (last : parent? t.nodes = none) : w.Chain path way top ↔ way = [] ∧ top = t := by
  constructor
  · intro chain
    cases chain with
    | top ht' =>
      cases ht.symm.trans ht'
      exact ⟨rfl, rfl⟩
    | up ht' more =>
      cases ht.symm.trans ht'
      cases last.symm.trans more
  · rintro ⟨rfl, rfl⟩
    exact .top ht last

theorem iff_of_parent (ht : w.template (w.rules.complete path) = .ok t) {target : Text}
    {rest : List Node} (more : parent? t.nodes = some (target, rest)) :
    w.Chain path way top ↔
      ∃ further, way = t :: further ∧ w.Chain (t.directory.resolve ⟨target⟩) further top := by
  constructor
  · intro chain
    cases chain with
    | top ht' last =>
      cases ht.symm.trans ht'
      cases last.symm.trans more
    | up ht' more' chain =>
      cases ht.symm.trans ht'
      cases more.symm.trans more'
      exact ⟨_, rfl, chain⟩
  · rintro ⟨further, rfl, chain⟩
    exact .up ht more chain

end Workspace.Chain

/-- The rows that come of a node in a template that others, from an entry on, extend. -/
inductive Directive.Node.Places (w : Workspace) : List Template → Template → Node → Row → Prop
  | text : Places w below t (.text indent s) ⟨indent, s⟩
  | inclusion : w.Chain (t.directory.resolve ⟨target⟩) way top → node ∈ top.nodes →
      Places w way top node row → Places w below t (.inclusion indent u target) (row.shift indent)
  | body : (∀ o, origin? name below = some o → o.block.mode ≠ .replace) → node ∈ children →
      Places w below t node row →
      Places w below t (.block indent u name mode children) (row.shift (-1))
  | override : origin? name below = some o → node ∈ o.block.children →
      Places w o.nearer o.template node row →
      Places w below t (.block indent u name mode children)
        ((row.shift (-(o.block.indent + 1))).shift indent)

def Workspace.Places (w : Workspace) (path : Path) (row : Row) : Prop :=
  ∃ way top, w.Chain path way top ∧ ∃ node ∈ top.nodes, node.Places w way top row

namespace Composition

theorem Row.shift_shift (row : Row) (a b : Int) : (row.shift a).shift b = row.shift (a + b) := by
  simp only [Row.shift, Int.add_assoc]

def Shown (P : Row → Prop) (rows : List Row) : Prop := ∃ row ∈ rows, P row

section

variable {P : Row → Prop}

@[simp] theorem shown_nil : ¬Shown P [] := by simp [Shown]

@[simp] theorem shown_append {a b : List Row} : Shown P (a ++ b) ↔ Shown P a ∨ Shown P b := by
  simp only [Shown, List.mem_append, or_and_right, exists_or]

@[simp] theorem shown_shift {levels : Int} {rows : List Row} :
    Shown P (rows.map (Row.shift levels)) ↔ Shown (fun row => P (row.shift levels)) rows := by
  simp [Shown]

theorem shown_fillBlock {indent : Nat} {override : Option Override} {body : Composed} :
    Shown P (fillBlock indent override body).rows ↔
      (¬isReplaced override = true ∧ Shown P body.rows) ∨
        ∃ o, override = some o ∧ Shown (fun row => P (row.shift indent)) o.rows := by
  cases override with
  | none => simp [fillBlock, isReplaced]
  | some o =>
    have append (a b : Composed) : (a ++ b).rows = a.rows ++ b.rows := rfl
    rw [fillBlock]
    cases ho : o.mode with
    | replace => simp [isReplaced, ho]
    | append => simp [isReplaced, ho, append]
    | prepend => simp [isReplaced, ho, append, or_comm]

end

structure Reads (w : Workspace) (P : Row → Prop) : Prop where
  document : ∀ {progress path c} (indent : Int),
    (resolve w.library.source w.rules progress [] path).outcome = .ok c →
      (P ⟨indent, render w.rules.indentUnit w.rules.separator c.rows⟩ ↔
        Shown (fun row => P (row.shift indent)) c.rows)

theorem Reads.shift {w : Workspace} {P : Row → Prop} (h : Reads w P) (levels : Int) :
    Reads w fun row => P (row.shift levels) := by
  constructor
  intro progress path c indent hc
  simp only [Row.shift_shift]
  exact h.document (indent + levels) hc

def Tells (w : Workspace) (P : Row → Prop) (below : List Template) (t : Template)
    (nodes : List Node) : Prop :=
  ∃ node ∈ nodes, ∃ row, node.Places w below t row ∧ P row

section

variable {w : Workspace} {P : Row → Prop} {below : List Template} {t : Template}

@[simp] theorem tells_nil : ¬Tells w P below t [] := by simp [Tells]

theorem tells_cons {node : Node} {rest : List Node} : Tells w P below t (node :: rest) ↔
    Tells w P below t [node] ∨ Tells w P below t rest := by simp [Tells]

theorem tells_text {indent : Nat} {s : Text} :
    Tells w P below t [.text indent s] ↔ P ⟨indent, s⟩ := by
  constructor
  · rintro ⟨_, hn, _, places, h⟩
    obtain rfl := List.mem_singleton.1 hn
    cases places
    exact h
  · intro h
    exact ⟨_, List.mem_singleton_self _, _, .text, h⟩

theorem tells_inclusion {indent : Nat} {u target : Text} :
    Tells w P below t [.inclusion indent u target] ↔
      ∃ way top, w.Chain (t.directory.resolve ⟨target⟩) way top ∧
        Tells w (fun row => P (row.shift indent)) way top top.nodes := by
  constructor
  · rintro ⟨_, hn, _, places, h⟩
    obtain rfl := List.mem_singleton.1 hn
    cases places with
    | inclusion chain mem places => exact ⟨_, _, chain, _, mem, _, places, h⟩
  · rintro ⟨way, top, chain, node, mem, row, places, h⟩
    exact ⟨_, List.mem_singleton_self _, _, .inclusion chain mem places, h⟩

theorem tells_parent {indent : Nat} {u target : Text} :
    ¬Tells w P below t [.parent indent u target] := by
  rintro ⟨_, hn, _, places, h⟩
  obtain rfl := List.mem_singleton.1 hn
  cases places

theorem tells_block {indent : Nat} {u name : Text} {mode : Directive.Mode} {children : List Node} :
    Tells w P below t [.block indent u name mode children] ↔
      ((∀ o, origin? name below = some o → o.block.mode ≠ .replace) ∧
        Tells w (fun row => P (row.shift (-1))) below t children) ∨
      ∃ o, origin? name below = some o ∧
        Tells w (fun row => P ((row.shift (-(o.block.indent + 1))).shift indent)) o.nearer o.template
          o.block.children := by
  constructor
  · rintro ⟨_, hn, _, places, h⟩
    obtain rfl := List.mem_singleton.1 hn
    cases places with
    | body kept mem places => exact .inl ⟨kept, _, mem, _, places, h⟩
    | override found mem places => exact .inr ⟨_, found, _, mem, _, places, h⟩
  · rintro (⟨kept, node, mem, row, places, h⟩ | ⟨o, found, node, mem, row, places, h⟩)
    · exact ⟨_, List.mem_singleton_self _, _, .body kept mem places, h⟩
    · exact ⟨_, List.mem_singleton_self _, _, .override found mem places, h⟩

def Stands (w : Workspace) (below : List Template) (table : Overrides) : Prop :=
  ∀ name, match origin? name below with
    | none => table.find? name = none
    | some o => ∃ rows, table.find? name = some (o.block.override name rows) ∧
        ∀ P, Reads w P → (Shown P rows ↔ Tells w P o.nearer o.template o.block.children)

theorem stands_nil : Stands w [] [] := fun _ => rfl

variable {table : Overrides} {progress : List Path}

theorem shown_block (stands : Stands w below table) (reads : Reads w P) {indent : Nat}
    {u name : Text} {mode : Directive.Mode} {children : List Node} {body : Composed}
    (h : ¬isReplaced (table.find? name) = true →
      (Shown P body.rows ↔ Tells w (fun row => P (row.shift (-1))) below t children)) :
    Shown P (fillBlock indent (table.find? name) body).rows ↔
      Tells w P below t [.block indent u name mode children] := by
  have stand := stands name
  rw [tells_block, shown_fillBlock]
  cases ho : origin? name below with
  | none =>
    simp only [ho] at stand
    rw [stand] at h ⊢
    simp [h, isReplaced]
  | some o =>
    simp only [ho] at stand
    obtain ⟨rows, found, shown⟩ := stand
    rw [found] at h ⊢
    have own : Shown (fun row => P (row.shift indent)) (o.block.override name rows).rows ↔
        Tells w (fun row => P ((row.shift (-(o.block.indent + 1))).shift indent)) o.nearer
          o.template o.block.children :=
      shown_shift.trans (shown _ ((reads.shift indent).shift _))
    have replaced : isReplaced (some (o.block.override name rows)) = true ↔
        o.block.mode = .replace := by simp [isReplaced, Block.override]
    rw [and_congr_right h, replaced]
    simp only [Option.some.injEq, forall_eq', exists_eq_left', own, ne_eq]

structure Context (w : Workspace) (below : List Template) (table : Overrides)
    (progress : List Path) : Prop where
  stands : Stands w below table
  enters : ∀ {P path c}, Reads w P →
    (resolve w.library.source w.rules progress [] path).outcome = .ok c →
      (Shown P c.rows ↔ ∃ way top, w.Chain path way top ∧ Tells w P way top top.nodes)

mutual

theorem shown_composeNode (known : Context w below table progress) : ∀ {P : Row → Prop},
    Reads w P → ∀ {node : Node} {c : Composed},
    (composeNode w.rules (resolve w.library.source w.rules progress) t.directory table
      node).outcome = .ok c → (Shown P c.rows ↔ Tells w P below t [node])
  | P, reads, .text indent s, c, h => by
    rw [composeNode] at h
    cases h
    rw [tells_text]
    simp [Shown]
  | P, reads, .inclusion indent _ target, c, h => by
    rw [composeNode] at h
    obtain ⟨included, hi, h⟩ := Visit.outcome_bind h
    cases h
    rw [tells_inclusion, ← known.enters (reads.shift indent) hi, ← reads.document indent hi]
    simp [Shown]
  | P, reads, .parent .., c, h => by
    rw [composeNode] at h
    cases h
    exact iff_of_false shown_nil tells_parent
  | P, reads, .block indent u name mode children, c, h => by
    rw [composeNode] at h
    split at h
    · rename_i hr
      cases h
      exact shown_block known.stands reads fun kept => absurd hr kept
    · obtain ⟨body, hbody, h⟩ := Visit.outcome_bind h
      cases h
      refine shown_block known.stands reads fun _ => ?_
      rw [← shown_composeNodes known (reads.shift (-1)) hbody]
      exact shown_shift

theorem shown_composeNodes (known : Context w below table progress) : ∀ {P : Row → Prop},
    Reads w P → ∀ {nodes : List Node} {c : Composed},
    (composeNodes w.rules (resolve w.library.source w.rules progress) t.directory table
      nodes).outcome = .ok c → (Shown P c.rows ↔ Tells w P below t nodes)
  | P, reads, [], c, h => by
    rw [composeNodes] at h
    cases h
    exact iff_of_false shown_nil tells_nil
  | P, reads, node :: rest, c, h => by
    rw [composeNodes] at h
    obtain ⟨first, hfirst, h⟩ := Visit.outcome_bind h
    obtain ⟨later, hlater, h⟩ := Visit.outcome_bind h
    cases h
    rw [tells_cons, ← shown_composeNode known reads hfirst,
      ← shown_composeNodes known reads hlater]
    exact shown_append

end

theorem shown_rows {l : Link} (known : Context w below l.table l.progress) (reads : Reads w P)
    {nodes : List Node} {rows : List Row} (h : l.rows w nodes = .ok rows) :
    Shown P rows ↔ Tells w P below l.template nodes := by
  obtain ⟨c, hc, rfl⟩ := Link.exists_of_rows h
  exact shown_composeNodes known reads hc

theorem Stands.push (stands : Stands w below table) {l : Link} {made : Overrides}
    (makes : ∀ name, made.find? name = l.override? w name)
    (bodies : ∀ name b, lastBlock? name l.template.after = some b →
      ∃ rows, l.rows w b.children = .ok rows ∧
        ∀ P, Reads w P → (Shown P rows ↔ Tells w P below l.template b.children)) :
    Stands w (below ++ [l.template]) (table ++ made) := by
  intro name
  have stand := stands name
  rw [origin?_concat, Overrides.find?_append]
  cases ho : origin? name below with
  | some o =>
    simp only [ho] at stand
    obtain ⟨rows, found, shown⟩ := stand
    exact ⟨rows, by rw [found]; rfl, shown⟩
  | none =>
    simp only [ho] at stand
    have after : l.after = l.template.after := rfl
    rw [stand, makes, Link.override?, after]
    cases hb : lastBlock? name l.template.after with
    | none => rfl
    | some b =>
      obtain ⟨rows, hrows, shown⟩ := bodies name b hb
      rw [Option.bind_some, hrows]
      exact ⟨rows, rfl, shown⟩

theorem shown_resolve (stands : Stands w below table) {path : Path} {c : Composed}
    (h : (resolve w.library.source w.rules progress table path).outcome = .ok c)
    (reads : Reads w P) :
    Shown P c.rows ↔
      ∃ way top, w.Chain path way top ∧ Tells w P (below ++ way) top top.nodes := by
  induction hn : remaining w.files.paths progress using Nat.strongRecOn
    generalizing progress below table path c P with
  | ind n ih =>
    subst hn
    obtain ⟨t, ht, less, h⟩ := resolve_cases h
    dsimp only at h
    let l : Link := ⟨progress ++ [w.rules.complete path], table, t⟩
    -- An include starts a way of its own, with no templates below it.
    have known : Context w below l.table l.progress := by
      refine ⟨stands, fun reads h => ?_⟩
      simpa only [List.nil_append] using ih _ less stands_nil h reads rfl
    split at h
    · rename_i last
      rw [shown_rows known reads h]
      simp [Workspace.Chain.iff_of_last ht last, l]
    · rename_i target rest more
      obtain ⟨made, d, makes, bodies, hd, same⟩ := h
      -- On the way up the template adds its blocks to the table.
      have pushed : Stands w (below ++ [l.template]) (table ++ made) := by
        refine stands.push makes fun name b hb => ?_
        obtain ⟨rows, hrows⟩ := bodies name b hb
        exact ⟨rows, hrows, fun P reads => shown_rows known reads hrows⟩
      rw [← same, ih _ less pushed hd reads rfl]
      constructor
      · rintro ⟨way, top, chain, tells⟩
        exact ⟨t :: way, top, .up ht more chain, by rwa [List.append_cons]⟩
      · rintro ⟨way, top, chain, tells⟩
        obtain ⟨further, rfl, onward⟩ := (Workspace.Chain.iff_of_parent ht more).1 chain
        exact ⟨further, top, onward, by rwa [List.append_cons] at tells⟩

end

end Composition

theorem Workspace.shown_session {w : Workspace} {entry : Path} {c : Composed}
    (h : (w.session entry).1 = .ok c) {P : Row → Prop} (reads : Reads w P) :
    Shown P c.rows ↔ ∃ row, w.Places entry row ∧ P row := by
  obtain ⟨d, hd, agree⟩ := exists_composition h
  have rows : c.rows = d.rows := agree.rows
  rw [rows, shown_resolve stands_nil hd reads]
  constructor
  · rintro ⟨way, top, chain, node, mem, row, places, wanted⟩
    exact ⟨row, ⟨way, top, chain, node, mem, places⟩, wanted⟩
  · rintro ⟨row, ⟨way, top, chain, node, mem, places⟩, wanted⟩
    exact ⟨way, top, chain, node, mem, row, places, wanted⟩

end PugWeave
