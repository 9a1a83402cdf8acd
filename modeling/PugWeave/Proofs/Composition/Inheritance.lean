import PugWeave.Proofs.Composition.Coherence
import PugWeave.Proofs.Composition.Termination

namespace PugWeave.Composition

open Directive (Node Mode)

namespace Visit

theorem outcome_bind {x : Visit α} {f : α → Visit β} {b : β} (h : (x >>= f).outcome = .ok b) :
    ∃ a, x.outcome = .ok a ∧ (f a).outcome = .ok b := by
  change (x.andThen f).outcome = .ok b at h
  simp only [andThen] at h
  cases hx : x.outcome with
  | error e => simp [hx] at h
  | ok a =>
    rw [hx] at h
    exact ⟨a, rfl, h⟩

def comparison : Comparison Visit Visit where
  same := Eq
  components := @components_of_eq
  holds R x y := SameOutcome R x.outcome y.outcome
  pure h := .ok h
  bind := by
    intro α β γ δ R S x y f g hx hf
    change SameOutcome S (x.andThen f).outcome (y.andThen g).outcome
    simp only [andThen]
    cases hxo : x.outcome <;> cases hyo : y.outcome <;> rw [hxo, hyo] at hx <;> cases hx
    · exact .error
    · rename_i hab
      exact hf _ _ hab

theorem outcome_eq {x y : Visit Composed} (h : comparison.holds (Composed.Agree Eq) x y) :
    x.outcome = y.outcome := by
  have h : SameOutcome (Composed.Agree Eq) x.outcome y.outcome := h
  cases hx : x.outcome <;> cases hy : y.outcome <;> rw [hx, hy] at h <;> cases h
  · rfl
  · rename_i agree
    rw [Composed.agree_eq_iff.1 agree]

end Visit

section

variable {lib : Library} {rules : Rules} {progress : List Path} {T U : Overrides}

theorem comparison_resolve (table : T.Agree U) (path : Path) :
    Visit.comparison.holds (Composed.Agree Eq) (resolve lib.source rules progress T path)
      (resolve lib.source rules progress U path) := by
  refine Comparison.resolve _ (P := fun _ => True) ?_ ?_ trivial table path
  · intro _ _ _ _
    exact .error
  · intro progress p _ _
    have alike (a : Found lib.source.paths p) :
        Visit.comparison.Alike a.template a.template ∧ True :=
      ⟨⟨rfl, fun _ => rfl, rfl, rfl⟩, trivial⟩
    exact .refl alike _

theorem outcome_resolve_congr (table : T.Agree U) (path : Path) :
    (resolve lib.source rules progress T path).outcome =
      (resolve lib.source rules progress U path).outcome :=
  Visit.outcome_eq (comparison_resolve table path)

theorem outcome_composeNodes_congr (table : T.Agree U) (directory : Path) (nodes : List Node) :
    (composeNodes rules (resolve lib.source rules progress) directory T nodes).outcome =
      (composeNodes rules (resolve lib.source rules progress) directory U nodes).outcome := by
  have setting : Visit.comparison.Setting (resolve lib.source rules progress)
      (resolve lib.source rules progress) directory directory T U :=
    ⟨fun p h => comparison_resolve h p, fun _ => rfl, table⟩
  exact Visit.outcome_eq (setting.composeNodes nodes)

end

namespace Overrides

def orInsert (T : Overrides) (o : Override) : Overrides :=
  if (T.find? o.name).isSome then T else T ++ [o]

/-- Adds overrides in the order in which they happen to be listed. -/
def adopt (T made : Overrides) : Overrides := made.foldl orInsert T

theorem find?_orInsert (T : Overrides) (o : Override) (name : Text) :
    (T.orInsert o).find? name = (T.find? name).or (Overrides.find? [o] name) := by
  simp only [orInsert]
  split
  · rename_i h
    by_cases hn : o.name = name
    · subst hn
      cases hT : T.find? o.name <;> simp_all
    · simp [Overrides.find?, hn]
  · exact find?_append T [o] name

theorem find?_adopt (T made : Overrides) (name : Text) :
    (T.adopt made).find? name = (T.find? name).or (made.find? name) := by
  induction made generalizing T with
  | nil => simp [adopt, Overrides.find?]
  | cons o rest ih =>
    have first : Overrides.find? (o :: rest) name =
        (Overrides.find? [o] name).or (Overrides.find? rest name) := find?_append [o] rest name
    rw [first, ← Option.or_assoc, ← find?_orInsert]
    exact ih _

theorem agree_adopt {T made made' : Overrides} (h : made.Agree made') :
    (T.adopt made).Agree (T ++ made') := by
  intro name
  rw [find?_adopt, find?_append, h]

end Overrides

structure Block where
  indent : Nat
  mode : Mode
  children : List Node

def block? (name : Text) : Node → Option Block
  | .block indent _ n mode children => if n = name then some ⟨indent, mode, children⟩ else none
  | .text .. | .inclusion .. | .parent .. => none

def lastBlock? (name : Text) (nodes : List Node) : Option Block :=
  (nodes.filterMap (block? name)).getLast?

theorem lastBlock?_cons (name : Text) (node : Node) (rest : List Node) :
    lastBlock? name (node :: rest) = (lastBlock? name rest).or (block? name node) := by
  simp only [lastBlock?]
  cases h : block? name node with
  | none => simp [h]
  | some b =>
    rw [List.filterMap_cons_some h, List.getLast?_cons]
    cases (rest.filterMap (block? name)).getLast? <;> rfl

def Block.override (b : Block) (name : Text) (rows : List Row) : Override :=
  ⟨name, b.mode, rows.map (Row.shift (-(b.indent + 1)))⟩

theorem find?_overrides {rules : Rules} {enter : Enter Visit} {directory : Path} {table : Overrides}
    {nodes : List Node} {made : Overrides} {deps : DependencyMap}
    (h : (overrides rules enter directory table nodes).outcome = .ok (made, deps)) (name : Text) :
    match lastBlock? name nodes with
    | none => made.find? name = none
    | some b => ∃ body, (composeNodes rules enter directory table b.children).outcome = .ok body ∧
        made.find? name = some (b.override name body.rows) := by
  induction nodes generalizing made deps with
  | nil =>
    cases h
    rfl
  | cons node rest ih =>
    rw [lastBlock?_cons]
    cases node with
    | text | inclusion | parent =>
      rw [block?, Option.or_none]
      exact ih h
    | block indent statement n mode children =>
      rw [Composition.overrides] at h
      obtain ⟨body, hbody, h⟩ := Visit.outcome_bind h
      obtain ⟨⟨later, deps'⟩, hlater, h⟩ := Visit.outcome_bind h
      cases h
      rw [Overrides.find?_append]
      have later := ih hlater
      -- A later block of the name takes precedence over this one.
      cases hb : lastBlock? name rest with
      | some b =>
        simp only [hb] at later
        obtain ⟨body', hbody', hfind⟩ := later
        exact ⟨body', hbody', by rw [hfind]; rfl⟩
      | none =>
        simp only [hb] at later
        rw [later, Option.none_or, Option.none_or, block?]
        by_cases hn : n = name
        · rw [if_pos hn]
          refine ⟨body, hbody, ?_⟩
          simp [Overrides.find?, hn, Block.override, Composed.shift]
        · rw [if_neg hn]
          simp [Overrides.find?, hn]

structure Link where
  progress : List Path
  table : Overrides
  template : Template

namespace Link

def rows (l : Link) (w : Workspace) (nodes : List Node) : Except Error (List Row) :=
  (composeNodes w.rules (resolve w.library.source w.rules l.progress) l.template.directory l.table
    nodes).outcome.map Composed.rows

def after (l : Link) : List Node := ((parent? l.template.nodes).map Prod.snd).getD []

def override? (l : Link) (w : Workspace) (name : Text) : Option Override :=
  (lastBlock? name l.after).bind fun b =>
    (l.rows w b.children).toOption.map (b.override name)

theorem exists_of_rows {l : Link} {w : Workspace} {nodes : List Node} {rows : List Row}
    (h : l.rows w nodes = .ok rows) :
    ∃ c, (composeNodes w.rules (resolve w.library.source w.rules l.progress) l.template.directory
      l.table nodes).outcome = .ok c ∧ c.rows = rows := by
  rw [Link.rows] at h
  cases hc : (composeNodes w.rules (resolve w.library.source w.rules l.progress)
      l.template.directory l.table nodes).outcome with
  | error e => simp [hc, Except.map] at h
  | ok c => exact ⟨c, rfl, by simpa [hc, Except.map] using h⟩

theorem rows_congr (l : Link) (w : Workspace) {U : Overrides} (h : l.table.Agree U)
    (nodes : List Node) : { l with table := U }.rows w nodes = l.rows w nodes := by
  rw [rows, rows, outcome_composeNodes_congr h]

end Link

/-- The way up from a path to a template that extends nothing. What a template makes is taken into
the table in any order. -/
inductive Lineage (w : Workspace) : List Path → Overrides → Path → List Link → Prop
  | top : w.template (w.rules.complete path) = .ok t → parent? t.nodes = none →
      Lineage w progress table path [⟨progress ++ [w.rules.complete path], table, t⟩]
  | up : w.template (w.rules.complete path) = .ok t → parent? t.nodes = some (target, rest) →
      l = ⟨progress ++ [w.rules.complete path], table, t⟩ →
      (∀ name, Overrides.find? made name = l.override? w name) →
      Lineage w l.progress (table.adopt made) (t.directory.resolve ⟨target⟩) links →
      Lineage w progress table path (l :: links)

theorem Library.template_of_ask {lib : Library} {progress : List Path} {p : Path}
    {found : Found lib.paths p} (h : (lib.ask progress p).outcome = .ok found) :
    lib.template p = .ok found.template := by
  simp only [Library.ask] at h
  split at h
  · cases h
  · rename_i t ht
    cases h
    exact ht

theorem resolve_cases {w : Workspace} {progress : List Path} {table : Overrides} {path : Path}
    {c : Composed}
    (h : (resolve w.library.source w.rules progress table path).outcome = .ok c) :
    ∃ t, w.template (w.rules.complete path) = .ok t ∧
      remaining w.files.paths (progress ++ [w.rules.complete path]) <
        remaining w.files.paths progress ∧
      let l : Link := ⟨progress ++ [w.rules.complete path], table, t⟩
      match parent? t.nodes with
      | none => l.rows w t.nodes = .ok c.rows
      | some (target, _) => ∃ made d, (∀ name, Overrides.find? made name = l.override? w name) ∧
          (∀ name b, lastBlock? name l.after = some b → ∃ rows, l.rows w b.children = .ok rows) ∧
          (resolve w.library.source w.rules l.progress (table ++ made)
            (t.directory.resolve ⟨target⟩)).outcome = .ok d ∧ d.rows = c.rows := by
  rw [resolve] at h
  dsimp only at h
  split at h
  · cases h
  · rename_i hp
    obtain ⟨found, hfound, h⟩ := Visit.outcome_bind h
    refine ⟨found.template, Library.template_of_ask hfound, remaining_lt found.listed hp, ?_⟩
    rw [composeTemplate] at h
    intro l
    split
    · rename_i hparent
      rw [hparent] at h
      obtain ⟨c', hc', h⟩ := Visit.outcome_bind h
      cases h
      rw [Link.rows, hc']
      rfl
    · rename_i target rest hparent
      rw [hparent] at h
      obtain ⟨⟨made, deps⟩, hmade, h⟩ := Visit.outcome_bind h
      obtain ⟨d, hd, h⟩ := Visit.outcome_bind h
      cases h
      -- With a parent the nodes come to overrides only, and the parent's rows are the rows.
      have after : l.after = rest := by rw [Link.after, hparent]; rfl
      have lookup := find?_overrides hmade
      refine ⟨made, d, ?_, ?_, hd, rfl⟩
      · intro name
        have := lookup name
        rw [Link.override?, after]
        cases hb : lastBlock? name rest with
        | none =>
          simp only [hb] at this
          exact this
        | some b =>
          simp only [hb] at this
          obtain ⟨body, hbody, hfind⟩ := this
          rw [hfind, Option.bind_some, Link.rows, hbody]
          rfl
      · intro name b hb
        have := lookup name
        rw [after] at hb
        simp only [hb] at this
        obtain ⟨body, hbody, -⟩ := this
        exact ⟨body.rows, by rw [Link.rows, hbody]; rfl⟩

namespace Lineage

variable {w : Workspace}

theorem exists_of_resolve {progress : List Path} {table : Overrides} {path : Path} {c : Composed}
    (h : (resolve w.library.source w.rules progress table path).outcome = .ok c) :
    ∃ links, Lineage w progress table path links := by
  induction hn : remaining w.files.paths progress using Nat.strongRecOn
    generalizing progress table path c with
  | ind n ih =>
    subst hn
    obtain ⟨t, ht, less, h⟩ := resolve_cases h
    dsimp only at h
    split at h
    · rename_i hparent
      exact ⟨_, .top ht hparent⟩
    · rename_i target rest hparent
      obtain ⟨made, d, hmade, -, hd, -⟩ := h
      have agree := Overrides.agree_adopt (T := table) (fun _ => rfl : made.Agree made)
      rw [← outcome_resolve_congr agree] at hd
      obtain ⟨links, hl⟩ := ih _ less hd rfl
      exact ⟨_, .up ht hparent rfl hmade hl⟩

theorem ne_nil {progress : List Path} {table : Overrides} {path : Path} {links : List Link}
    (h : Lineage w progress table path links) : links ≠ [] := by
  cases h <;> simp

theorem rows {progress : List Path} {table : Overrides} {path : Path} {links : List Link}
    (hl : Lineage w progress table path links) {c : Composed}
    (h : (resolve w.library.source w.rules progress table path).outcome = .ok c) :
    (∃ last, links.getLast? = some last ∧ last.rows w last.template.nodes = .ok c.rows) ∧
      ∀ l ∈ links.dropLast, ∀ name b, lastBlock? name l.after = some b →
        ∃ rows, l.rows w b.children = .ok rows := by
  induction hl generalizing c with
  | top ht hparent =>
    obtain ⟨t, ht', -, h⟩ := resolve_cases h
    rw [ht] at ht'
    cases ht'
    rw [hparent] at h
    exact ⟨⟨_, rfl, h⟩, by simp⟩
  | up ht hparent hlink hmade hl ih =>
    obtain ⟨t, ht', -, h⟩ := resolve_cases h
    rw [ht] at ht'
    cases ht'
    rw [hparent, ← hlink] at h
    obtain ⟨made, d, hmade', hbodies, hd, hrows⟩ := h
    have same : Overrides.Agree _ made := fun name => (hmade name).trans (hmade' name).symm
    rw [← outcome_resolve_congr (Overrides.agree_adopt same), hlink] at hd
    rw [hlink] at ih
    obtain ⟨⟨last, hlast, hrest⟩, above⟩ := ih hd
    constructor
    · refine ⟨last, ?_, hrows ▸ hrest⟩
      rw [List.getLast?_cons, hlast]
      rfl
    · intro l hmem
      rw [List.dropLast_cons_of_ne_nil hl.ne_nil, List.mem_cons] at hmem
      cases hmem with
      | inl hmem => exact hmem ▸ hbodies
      | inr hmem => exact above l hmem

theorem find?_table {progress : List Path} {table : Overrides} {path : Path} {links : List Link}
    (hl : Lineage w progress table path links) {i : Nat} {l : Link} (h : links[i]? = some l)
    (name : Text) : l.table.find? name =
      (table.find? name).or ((links.take i).findSome? fun k => k.override? w name) := by
  induction hl generalizing i with
  | top ht hparent =>
    cases i with
    | zero =>
      cases h
      simp
    | succ i => simp at h
  | up ht hparent hlink hmade hl ih =>
    cases i with
    | zero =>
      cases h
      simp [hlink]
    | succ i =>
      rw [ih h, Overrides.find?_adopt, hmade, List.take_succ_cons, List.findSome?_cons,
        Option.or_assoc]
      congr 1
      cases Link.override? _ w name <;> rfl

end Lineage

end PugWeave.Composition

namespace PugWeave.Workspace

open PugWeave.Composition

/-- A session that succeeds comes to the rows of the top of its chain. In the table there, the
template nearest to the entry has the say on each block. -/
theorem session_inherits {w : Workspace} {entry : Path} {c : Composed}
    (h : (w.session entry).1 = .ok c) :
    (∃ links, Lineage w [] [] entry links) ∧
    ∀ links, Lineage w [] [] entry links →
      (∃ top, links.getLast? = some top ∧ top.rows w top.template.nodes = .ok c.rows) ∧
      (∀ l ∈ links.dropLast, ∀ name b, lastBlock? name l.after = some b →
        ∃ rows, l.rows w b.children = .ok rows) ∧
      ∀ i l, links[i]? = some l →
        (∀ name, l.table.find? name =
          (links.take i).findSome? fun k => k.override? w name) ∧
        ∀ table, l.table.Agree table → ∀ nodes, { l with table }.rows w nodes = l.rows w nodes := by
  have same := ((Coherent.refl w).session entry).1
  rw [h] at same
  cases hd : (w.composition entry).outcome with
  | error e =>
    rw [hd] at same
    cases same
  | ok d =>
    rw [hd] at same
    cases same with
    | ok agree =>
      refine ⟨Lineage.exists_of_resolve hd, ?_⟩
      intro links hl
      have rows := hl.rows hd
      rw [← agree.rows] at rows
      refine ⟨rows.1, rows.2, ?_⟩
      intro i l hi
      exact ⟨fun name => hl.find?_table hi name, fun table ht nodes => l.rows_congr w ht nodes⟩

theorem session_inherits_page :
    let file (t : String) : File := { content := .text t.toList, modified := 1 }
    let page := file "extends part\nblock head\n  p page"
    let part := file "extends layout\nblock head\n  p part\nblock append foot\n  p part"
    let layout := file "block head\n  p layout\nblock foot\n  p layout"
    let w : Workspace := {
      rules := ⟨2, .lf, [], "pug".toList, by decide⟩
      files := { entries := [(.ofString "/page.pug", page), (.ofString "/part.pug", part),
        (.ofString "/layout.pug", layout)] } }
    ∃ links top, Lineage w [] [] (.ofString "/page.pug") links ∧ links.getLast? = some top ∧
      top.rows w top.template.nodes =
        .ok [⟨0, "p page".toList⟩, ⟨0, "p layout".toList⟩, ⟨0, "p part".toList⟩] := by
  intro file page part layout w
  let paths : List Path := [.ofString "/page.pug", .ofString "/part.pug", .ofString "/layout.pug"]
  have done : (w.session (.ofString "/page.pug")).1 =
      .ok { rows := [⟨0, "p page".toList⟩, ⟨0, "p layout".toList⟩, ⟨0, "p part".toList⟩]
            deps := ⟨paths.map (·, [])⟩ } :=
    session_of_within (by decide : 3 < 4) (by decide +kernel)
  obtain ⟨⟨links, hl⟩, all⟩ := session_inherits done
  obtain ⟨⟨top, htop, rows⟩, -⟩ := all links hl
  exact ⟨links, top, hl, htop, rows⟩

end PugWeave.Workspace
