import PugWeave.Proofs.Composition.History
import PugWeave.Proofs.Composition.Placement
import PugWeave.Proofs.Directive.Opaque

namespace PugWeave

open Directive (Node)

theorem Template.nodes_of_read {rules : Rules} {p : Path} {modified : Nat} {raw : Text}
    {t : Template} (h : read rules p modified raw = .ok t) :
    t.nodes = Directive.parse rules.indentUnit rules.separator t.content := by
  rw [read] at h
  dsimp only at h
  split at h
  · cases h
  · cases h
  · obtain rfl := by simpa using h
    rfl

theorem Template.sound_of_read {rules : Rules} {p : Path} {modified : Nat} {raw : Text}
    {t : Template} (h : read rules p modified raw = .ok t) :
    ∀ node ∈ t.nodes, node.Sound rules.separator 0 := by
  rw [nodes_of_read h]
  exact Directive.sound_parse rules _

namespace Workspace

variable {w : Workspace}

def Parsed (w : Workspace) : Prop :=
  ∀ {p t}, w.template p = .ok t → ∀ node ∈ t.nodes, node.Sound w.rules.separator 0

theorem Sound.exists_read {moments : List Workspace} (h : w.Sound moments) {p : Path} {t : Template}
    (ht : w.template p = .ok t) :
    ∃ q modified raw, Template.read w.rules q modified raw = .ok t := by
  obtain ⟨modified, -, hk | hr⟩ := template_eq_ok ht
  · obtain ⟨u, -, raw, -, hr⟩ := h.kept t (Cache.mem_of_find? (kept?_eq_some_iff.1 hk).1)
    exact ⟨_, _, raw, hr⟩
  · obtain ⟨raw, -, hr⟩ := read_eq_ok hr
    exact ⟨_, _, raw, hr⟩

theorem Sound.parsed {moments : List Workspace} (h : w.Sound moments) : w.Parsed := by
  intro p t ht
  obtain ⟨q, modified, raw, hr⟩ := h.exists_read ht
  exact Template.sound_of_read hr

theorem Sound.nodes_eq {moments : List Workspace} (h : w.Sound moments) {p : Path} {t : Template}
    (ht : w.template p = .ok t) :
    t.nodes = Directive.parse w.rules.indentUnit w.rules.separator t.content := by
  obtain ⟨q, modified, raw, hr⟩ := h.exists_read ht
  exact Template.nodes_of_read hr

end Workspace

namespace Composition

def Deep (depth : Int) (rows : List Row) : Prop := ∀ row ∈ rows, depth ≤ row.indent

theorem Deep.mono {a b : Int} (h : a ≤ b) {rows : List Row} (deep : Deep b rows) : Deep a rows :=
  fun row hr => Int.le_trans h (deep row hr)

theorem Deep.append {depth : Int} {a b : List Row} (ha : Deep depth a) (hb : Deep depth b) :
    Deep depth (a ++ b) := by
  intro row hr
  exact (List.mem_append.1 hr).elim (ha row) (hb row)

theorem Deep.shift {depth target levels : Int} {rows : List Row} (h : Deep depth rows)
    (ht : target = depth + levels) : Deep target (rows.map (Row.shift levels)) := by
  intro row hr
  obtain ⟨r, hm, rfl⟩ := List.mem_map.1 hr
  exact ht ▸ Int.add_le_add_right (h r hm) levels

def Overrides.Deep (table : Overrides) : Prop :=
  ∀ name o, table.find? name = some o → Composition.Deep 0 o.rows

theorem deep_fillBlock {indent : Nat} {override : Option Override} {body : Composed}
    (injected : ∀ o, override = some o → Deep 0 o.rows) (own : Deep indent body.rows) :
    Deep indent (fillBlock indent override body).rows := by
  cases override with
  | none => exact own
  | some o =>
    have moved : Deep indent (o.rows.map (Row.shift indent)) :=
      (injected o rfl).shift (Int.zero_add _).symm
    rw [fillBlock]
    cases o.mode with
    | replace => exact moved
    | append => exact own.append moved
    | prepend => exact moved.append own

section

variable {rules : Rules} {sep : Text} {enter : Enter Visit} {directory : Path} {table : Overrides}

mutual

theorem deep_composeNode (raised : table.Deep) : ∀ {node : Node} {depth : Nat} {c : Composed},
    node.Sound sep depth → (composeNode rules enter directory table node).outcome = .ok c →
      Deep depth c.rows
  | .text indent s, depth, c, .text deep _, h => by
    rw [composeNode] at h
    cases h
    simpa [Deep] using deep
  | .inclusion indent _ target, depth, c, .inclusion deep, h => by
    rw [composeNode] at h
    obtain ⟨included, -, h⟩ := Visit.outcome_bind h
    cases h
    simpa [Deep] using deep
  | .parent .., depth, c, _, h => by
    rw [composeNode] at h
    cases h
    simp [Deep]
  | .block indent _ name _ children, depth, c, .block deep inner, h => by
    refine Deep.mono (Int.ofNat_le.2 deep) ?_
    rw [composeNode] at h
    split at h
    · cases h
      exact deep_fillBlock (raised name) (by simp [Deep])
    · obtain ⟨body, hbody, h⟩ := Visit.outcome_bind h
      cases h
      exact deep_fillBlock (raised name) ((deep_composeNodes raised inner hbody).shift (by omega))

theorem deep_composeNodes (raised : table.Deep) : ∀ {nodes : List Node} {depth : Nat}
    {c : Composed}, (∀ node ∈ nodes, node.Sound sep depth) →
    (composeNodes rules enter directory table nodes).outcome = .ok c → Deep depth c.rows
  | [], depth, c, _, h => by
    rw [composeNodes] at h
    cases h
    simp [Deep]
  | node :: rest, depth, c, sound, h => by
    rw [composeNodes] at h
    obtain ⟨first, hfirst, h⟩ := Visit.outcome_bind h
    obtain ⟨later, hlater, h⟩ := Visit.outcome_bind h
    cases h
    exact (deep_composeNode raised (sound node List.mem_cons_self) hfirst).append
      (deep_composeNodes raised (fun n hn => sound n (.tail _ hn)) hlater)

end

end

theorem mem_of_parent? {nodes rest : List Node} {target : Text}
    (h : parent? nodes = some (target, rest)) : ∀ node ∈ rest, node ∈ nodes := by
  induction nodes with
  | nil => cases h
  | cons first nodes ih =>
    cases first with
    | parent =>
      cases h
      exact fun node hn => .tail _ hn
    | text | inclusion | block => exact fun node hn => .tail _ (ih h node hn)

theorem mem_of_lastBlock? {name : Text} {nodes : List Node} {b : Block}
    (h : lastBlock? name nodes = some b) :
    ∃ text, .block b.indent text name b.mode b.children ∈ nodes := by
  obtain ⟨node, hn, hb⟩ := List.mem_filterMap.1 (List.mem_of_getLast? h)
  cases node with
  | text | inclusion | parent => cases hb
  | block indent text n mode children =>
    rw [block?] at hb
    split at hb
    · rename_i same
      cases hb
      exact ⟨text, same ▸ hn⟩
    · cases hb

theorem sound_of_lastBlock? {sep : Text} {t : Template} (sound : ∀ node ∈ t.nodes, node.Sound sep 0)
    {name : Text} {b : Block} (h : lastBlock? name t.after = some b) :
    ∀ node ∈ b.children, node.Sound sep (b.indent + 1) := by
  obtain ⟨text, mem⟩ := mem_of_lastBlock? h
  have among : .block b.indent text name b.mode b.children ∈ t.nodes := by
    rw [Template.after] at mem
    cases hp : parent? t.nodes with
    | none => simp [hp] at mem
    | some found =>
      rw [hp] at mem
      exact mem_of_parent? hp _ mem
  cases sound _ among with
  | block _ inner => exact inner

section

variable {w : Workspace}

theorem deep_override? (parsed : w.Parsed) {l : Link} {p : Path}
    (ht : w.template p = .ok l.template) (raised : l.table.Deep) {name : Text} {o : Override}
    (h : l.override? w name = some o) : Deep 0 o.rows := by
  obtain ⟨b, hb, ho⟩ := Option.bind_eq_some_iff.1 h
  obtain ⟨rows, hrows, rfl⟩ := Option.map_eq_some_iff.1 ho
  have hrows : l.rows w b.children = .ok rows := by
    cases hr : l.rows w b.children <;> rw [hr] at hrows <;> cases hrows
    rfl
  obtain ⟨c, hc, rfl⟩ := Link.exists_of_rows hrows
  exact (deep_composeNodes raised (sound_of_lastBlock? (parsed ht) hb) hc).shift (by omega)

theorem deep_nil : Overrides.Deep [] := by
  intro name o h
  cases h

theorem deep_resolve (parsed : w.Parsed) {progress : List Path} {table : Overrides}
    (raised : table.Deep) {path : Path} {c : Composed}
    (h : (resolve w.library.source w.rules progress table path).outcome = .ok c) :
    Deep 0 c.rows := by
  induction hn : remaining w.files.paths progress using Nat.strongRecOn
    generalizing progress table path c with
  | ind n ih =>
    subst hn
    obtain ⟨t, ht, less, h⟩ := resolve_cases h
    dsimp only at h
    split at h
    · obtain ⟨d, hd, same⟩ := Link.exists_of_rows h
      exact same ▸ deep_composeNodes raised (parsed ht) hd
    · obtain ⟨made, d, makes, -, hd, same⟩ := h
      refine same ▸ ih _ less ?_ hd rfl
      intro name o ho
      rw [Overrides.find?_append, Option.or_eq_some_iff] at ho
      -- An override comes from nearer to the entry or from this template.
      rcases ho with ho | ⟨-, ho⟩
      · exact raised name o ho
      · rw [makes] at ho
        exact deep_override? parsed ht raised ho

end

end Composition

namespace Workspace

open PugWeave.Composition

variable {w : Workspace}

theorem Chain.template_of_mem {path : Path} {way : List Template} {top : Template}
    (h : w.Chain path way top) :
    (∃ p, w.template p = .ok top) ∧ ∀ t ∈ way, ∃ p, w.template p = .ok t := by
  induction h with
  | top ht _ => exact ⟨⟨_, ht⟩, by simp⟩
  | up ht _ _ ih =>
    refine ⟨ih.1, fun t mem => ?_⟩
    rcases List.mem_cons.1 mem with rfl | mem
    · exact ⟨_, ht⟩
    · exact ih.2 t mem

end Workspace

namespace Composition

theorem mem_of_origin? {name : Text} {below : List Template} {o : Origin}
    (h : origin? name below = some o) :
    lastBlock? name o.template.after = some o.block ∧ o.template ∈ below ∧
      ∀ t ∈ o.nearer, t ∈ below := by
  induction below generalizing o with
  | nil => cases h
  | cons t rest ih =>
    rw [origin?] at h
    split at h
    · rename_i hb
      cases h
      exact ⟨hb, List.mem_cons_self, by simp⟩
    · obtain ⟨o', ho, rfl⟩ := Option.map_eq_some_iff.1 h
      obtain ⟨last, mem, nearer⟩ := ih ho
      refine ⟨last, .tail _ mem, fun u hu => ?_⟩
      rcases List.mem_cons.1 hu with rfl | hu
      · exact List.mem_cons_self
      · exact .tail _ (nearer u hu)

end Composition

open PugWeave.Composition

theorem Directive.Node.Places.sound {w : Workspace} (parsed : w.Parsed) {below : List Template}
    {t : Template} {node : Node} {row : Row} (h : node.Places w below t row)
    (all : ∀ u ∈ below, ∃ p, w.template p = .ok u) {depth : Nat}
    (sound : node.Sound w.rules.separator depth) :
    (depth : Int) ≤ row.indent ∧ Directive.Opaque w.rules.separator row.text := by
  induction h generalizing depth with
  | text =>
    cases sound with
    | text deep plain => exact ⟨Int.ofNat_le.2 deep, plain⟩
  | inclusion chain mem _ ih =>
    cases sound with
    | inclusion deep =>
      obtain ⟨⟨p, hp⟩, way⟩ := chain.template_of_mem
      obtain ⟨inner, plain⟩ := ih way (parsed hp _ mem)
      exact ⟨by simp only [Row.shift]; omega, plain⟩
  | body _ mem _ ih =>
    cases sound with
    | block deep children =>
      obtain ⟨inner, plain⟩ := ih all (children _ mem)
      exact ⟨by simp only [Row.shift]; omega, plain⟩
  | override found mem _ ih =>
    cases sound with
    | block deep _ =>
      obtain ⟨last, among, nearer⟩ := mem_of_origin? found
      obtain ⟨p, hp⟩ := all _ among
      obtain ⟨inner, plain⟩ :=
        ih (fun u hu => all u (nearer u hu)) (sound_of_lastBlock? (parsed hp) last _ mem)
      exact ⟨by simp only [Row.shift]; omega, plain⟩

theorem Workspace.Places.sound {w : Workspace} (parsed : w.Parsed) {path : Path} {row : Row}
    (h : w.Places path row) :
    0 ≤ row.indent ∧ Directive.Opaque w.rules.separator row.text := by
  obtain ⟨way, top, chain, node, mem, places⟩ := h
  obtain ⟨⟨p, hp⟩, all⟩ := chain.template_of_mem
  exact places.sound parsed all (parsed hp _ mem)

end PugWeave
