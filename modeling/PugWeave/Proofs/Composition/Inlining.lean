import PugWeave.Proofs.Composition.Cycles
import PugWeave.Proofs.Composition.Depth
import PugWeave.Proofs.Composition.Laws
import PugWeave.Proofs.Template.Freshness

namespace PugWeave

open Directive (Node inclusions)

namespace Directive

mutual

def Node.raise (levels : Nat) : Node → Node
  | .text indent s => .text (indent + levels) s
  | .inclusion indent s target => .inclusion (indent + levels) s target
  | .parent indent s target => .parent (indent + levels) s target
  | .block indent s name mode children =>
    .block (indent + levels) s name mode (raise levels children)

def raise (levels : Nat) : List Node → List Node
  | [] => []
  | node :: rest => node.raise levels :: raise levels rest

end

/-- One include of a target, at any depth, makes way for nodes at its depth. -/
inductive Inlines (target : Text) (body : List Node) : List Node → List Node → Prop
  | here : Inlines target body (.inclusion indent s target :: rest) (raise indent body ++ rest)
  | later : Inlines target body rest rest' → Inlines target body (node :: rest) (node :: rest')
  | inside : Inlines target body children children' →
      Inlines target body (.block indent s name mode children :: rest)
        (.block indent s name mode children' :: rest)

theorem exists_inlines {target : Text} (body : List Node) : ∀ {nodes : List Node},
    target ∈ inclusions nodes → ∃ nodes', Inlines target body nodes nodes'
  | node :: rest, h => by
    rw [inclusions] at h
    rcases List.mem_append.1 h with h | h
    · cases node with
      | text | parent => simp [Node.inclusions] at h
      | inclusion indent s other =>
        obtain rfl : target = other := by simpa [Node.inclusions] using h
        exact ⟨_, .here⟩
      | block indent s name mode children =>
        rw [Node.inclusions] at h
        obtain ⟨children', h⟩ := exists_inlines body h
        exact ⟨_, .inside h⟩
    · obtain ⟨rest', h⟩ := exists_inlines body h
      exact ⟨_, .later h⟩

end Directive

open Directive (Inlines raise)

namespace Composition

theorem parent?_append {a : List Node} (h : parent? a = none) (b : List Node) :
    parent? (a ++ b) = parent? b := by
  induction a with
  | nil => rfl
  | cons node rest ih =>
    cases node with
    | parent => cases h
    | text | inclusion | block => exact ih h

theorem parent?_raise {levels : Nat} {nodes : List Node} (h : parent? nodes = none) :
    parent? (raise levels nodes) = none := by
  induction nodes with
  | nil => rw [raise]; rfl
  | cons node rest ih =>
    rw [raise]
    cases node with
    | parent => cases h
    | text | inclusion | block => exact ih h

theorem parent?_of_inlines {target : Text} {body nodes nodes' : List Node}
    (h : Inlines target body nodes nodes') (root : parent? body = none)
    (top : parent? nodes = none) : parent? nodes' = none := by
  induction h with
  | here => rw [parent?_append (parent?_raise root)]; exact top
  | @later rest rest' node _ ih =>
    cases node with
    | parent => cases top
    | text | inclusion | block => exact ih top
  | inside => exact top

theorem Visit.bind_outcome {x : Visit α} {f : α → Visit β} {a : α} (h : x.outcome = .ok a) :
    (x >>= f).outcome = (f a).outcome := by
  change (x.andThen f).outcome = _
  rw [andThen, h]

namespace Composed

theorem shift_append (levels : Int) (c d : Composed) :
    (c ++ d).shift levels = c.shift levels ++ d.shift levels := by
  change (append c d).shift levels = append (c.shift levels) (d.shift levels)
  simp [append, shift]

theorem shift_comm (c : Composed) (a b : Int) : (c.shift a).shift b = (c.shift b).shift a := by
  simp [shift, Row.shift_shift, Int.add_comm]

end Composed

theorem shift_fillBlock (indent levels : Nat) (override : Option Override) (body : Composed) :
    fillBlock (indent + levels) override (body.shift levels) =
      (fillBlock indent override body).shift levels := by
  cases override with
  | none => rfl
  | some o =>
    have injected : ({ rows := o.rows.map (Row.shift (indent + levels : Nat)) } : Composed) =
        Composed.shift levels { rows := o.rows.map (Row.shift indent) } := by
      simp [Composed.shift, Row.shift_shift]
    rw [fillBlock, fillBlock, injected]
    cases o.mode with
    | replace => rfl
    | append | prepend => exact (Composed.shift_append _ _ _).symm

section

variable {m : Type → Type} [Monad m] [LawfulMonad m] {rules : Rules} {enter : Enter m}
  {directory : Path} {table : Overrides}

mutual

theorem composeNode_raise (levels : Nat) : ∀ node : Node,
    composeNode rules enter directory table (node.raise levels) =
      Composed.shift levels <$> composeNode rules enter directory table node
  | .text indent s => by
    rw [Node.raise, composeNode, composeNode, map_pure]
    rfl
  | .inclusion indent _ target => by
    rw [Node.raise, composeNode, composeNode, map_bind]
    refine bind_congr fun included => ?_
    rw [map_pure]
    rfl
  | .parent .. => by
    rw [Node.raise, composeNode, composeNode, map_pure]
    rfl
  | .block indent _ name _ children => by
    rw [Node.raise, composeNode, composeNode]
    split
    · rw [map_pure]
      exact congrArg pure (shift_fillBlock indent levels _ {})
    · rw [composeNodes_raise, bind_map_left, map_bind]
      refine bind_congr fun body => ?_
      rw [map_pure, Composed.shift_comm]
      exact congrArg pure (shift_fillBlock indent levels _ _)

theorem composeNodes_raise (levels : Nat) : ∀ nodes : List Node,
    composeNodes rules enter directory table (raise levels nodes) =
      Composed.shift levels <$> composeNodes rules enter directory table nodes
  | [] => by
    rw [raise, composeNodes, map_pure]
    rfl
  | node :: rest => by
    rw [raise, composeNodes, composeNodes, composeNode_raise, bind_map_left, map_bind]
    refine bind_congr fun first => ?_
    rw [composeNodes_raise, bind_map_left, map_bind]
    refine bind_congr fun later => ?_
    rw [map_pure, Composed.shift_append]

end

end

section

variable {rules : Rules} {enter : Enter Visit} {directory : Path} {table : Overrides}

theorem composeNodes_cons_eq_ok_iff {node : Node} {rest : List Node} {c : Composed} :
    (composeNodes rules enter directory table (node :: rest)).outcome = .ok c ↔
      ∃ first later, (composeNode rules enter directory table node).outcome = .ok first ∧
        (composeNodes rules enter directory table rest).outcome = .ok later ∧
        c = first ++ later := by
  rw [composeNodes]
  constructor
  · intro h
    obtain ⟨first, hfirst, h⟩ := Visit.outcome_bind h
    obtain ⟨later, hlater, h⟩ := Visit.outcome_bind h
    cases h
    exact ⟨first, later, hfirst, hlater, rfl⟩
  · rintro ⟨first, later, hfirst, hlater, rfl⟩
    rw [Visit.bind_outcome hfirst, Visit.bind_outcome hlater]
    rfl

theorem outcome_composeNodes_raise (levels : Nat) {nodes : List Node} {c : Composed}
    (h : (composeNodes rules enter directory table nodes).outcome = .ok c) :
    (composeNodes rules enter directory table (raise levels nodes)).outcome =
      .ok (c.shift levels) := by
  rw [composeNodes_raise, Visit.outcome_map, h]
  rfl

theorem composeNodes_append {a b : List Node} {c d : Composed}
    (ha : (composeNodes rules enter directory table a).outcome = .ok c)
    (hb : (composeNodes rules enter directory table b).outcome = .ok d) :
    ∃ e, (composeNodes rules enter directory table (a ++ b)).outcome = .ok e ∧
      e.rows = c.rows ++ d.rows := by
  induction a generalizing c with
  | nil =>
    rw [composeNodes] at ha
    cases ha
    exact ⟨d, hb, rfl⟩
  | cons node rest ih =>
    obtain ⟨first, later, hfirst, hlater, rfl⟩ := composeNodes_cons_eq_ok_iff.1 ha
    obtain ⟨e, he, rows⟩ := ih hlater
    refine ⟨first ++ e, composeNodes_cons_eq_ok_iff.2 ⟨first, e, hfirst, he, rfl⟩, ?_⟩
    change first.rows ++ e.rows = first.rows ++ later.rows ++ d.rows
    rw [rows, List.append_assoc]

end

def Composed.lines (rules : Rules) (c : Composed) (levels : Int) : List Text :=
  c.rows.flatMap fun row => (Text.fullLines rules.separator row.text).map
    (shiftLine ((row.indent + levels) * rules.indentUnit))

namespace Composed

variable (rules : Rules)

theorem lines_append (c d : Composed) (levels : Int) :
    (c ++ d).lines rules levels = c.lines rules levels ++ d.lines rules levels :=
  List.flatMap_append

theorem lines_of_rows {c d e : Composed} (h : e.rows = c.rows ++ d.rows) (levels : Int) :
    e.lines rules levels = c.lines rules levels ++ d.lines rules levels := by
  simp [lines, h]

theorem lines_shift (c : Composed) (a b : Int) :
    (c.shift a).lines rules b = c.lines rules (a + b) := by
  simp [lines, shift, Row.shift, List.flatMap_map, Int.add_assoc]

theorem fullLines_render_eq (c : Composed) :
    Text.fullLines rules.separator (render rules.indentUnit rules.separator c.rows) =
      c.lines rules 0 := by
  simp [fullLines_render, lines]

theorem map_lines {c : Composed} (deep : Deep 0 c.rows) (levels : Int) :
    (c.lines rules 0).map (shiftLine (levels * rules.indentUnit)) = c.lines rules levels := by
  rw [lines, lines, List.map_flatMap]
  refine List.flatMap_congr fun row hr => ?_
  have edge : 0 ≤ (row.indent + 0) * (rules.indentUnit : Int) :=
    Int.mul_nonneg (by simpa using deep row hr) (by simp)
  rw [List.map_map]
  refine List.map_congr_left fun l _ => ?_
  rw [Function.comp_apply, shiftLine_shiftLine _ edge, ← Int.add_mul]
  congr 2
  omega

end Composed

def Visit.onward : Comparison Visit Visit where
  same := Eq
  components := @components_of_eq
  holds R x y := ∀ a, x.outcome = .ok a → ∃ b, y.outcome = .ok b ∧ R a b
  pure h a ha := by
    cases ha
    exact ⟨_, rfl, h⟩
  bind := by
    intro α β γ δ R S x y f g hx hf a ha
    obtain ⟨b, hb, ha⟩ := outcome_bind ha
    obtain ⟨b', hb', hbb⟩ := hx b hb
    rw [bind_outcome hb']
    exact hf b b' hbb a ha

def Kept (lib lib' : Library) (progress progress' : List Path) : Prop :=
  Fewer progress progress' ∧ ∀ p t, ¬progress.any p.same = true →
    lib.template p = .ok t → lib'.template p = .ok t

theorem Kept.append {lib lib' : Library} {progress progress' : List Path}
    (h : Kept lib lib' progress progress') (p : Path) :
    Kept lib lib' (progress ++ [p]) (progress' ++ [p]) := by
  refine ⟨h.1.append p, fun q t new => h.2 q t fun again => new ?_⟩
  rw [List.any_append, again]
  rfl

theorem Visit.onward_ask {lib lib' : Library} {progress progress' : List Path}
    (kept : Kept lib lib' progress progress') {p : Path} (new : ¬progress.any p.same = true) :
    onward.holds (fun a b => onward.Alike a.template b.template ∧
      Kept lib lib' (progress ++ [p]) (progress' ++ [p]))
      (lib.ask progress p) (lib'.ask progress' p) := by
  intro a ha
  have found := kept.2 p _ new (Library.template_of_ask ha)
  simp only [Library.ask]
  split
  · rename_i he
    rw [found] at he
    cases he
  · rename_i ht
    rw [found] at ht
    cases ht
    exact ⟨_, rfl, ⟨rfl, fun _ => rfl, rfl, rfl⟩, kept.append p⟩

theorem Visit.onward_resolve {lib lib' : Library} {rules : Rules} {progress progress' : List Path}
    (kept : Kept lib lib' progress progress') {T U : Overrides} (table : T.Agree U) (path : Path) :
    onward.holds (Composed.Agree Eq) (resolve lib.source rules progress T path)
      (resolve lib'.source rules progress' U path) := by
  refine onward.resolve_beside (P := Kept lib lib') ?_ ?_ kept table path
  · intro _ _ _ _ _ _ a ha
    cases ha
  · intro _ _ p kept new
    exact ⟨fun again => new (kept.1 p again), onward_ask kept new⟩

section

variable {rules : Rules} {enter enter' : Enter Visit} {directory : Path} {target : Text}
  {body : List Node}

theorem lines_included {c : Composed} (deep : Deep 0 c.rows) (indent : Nat) (deps : DependencyMap)
    (levels : Int) :
    ({ rows := [⟨indent, render rules.indentUnit rules.separator c.rows⟩], deps } :
      Composed).lines rules levels = (c.shift indent).lines rules levels := by
  rw [Composed.lines_shift, ← Composed.map_lines rules deep, ← Composed.fullLines_render_eq]
  simp [Composed.lines]

theorem composeNode_of_no_table {indent : Nat} {s name : Text} {mode : Directive.Mode}
    {children : List Node} :
    composeNode rules enter directory [] (.block indent s name mode children) = do
      let inner ← composeNodes rules enter directory [] children
      return inner.shift (-1) := by
  rw [composeNode]
  rfl

theorem lines_of_inlines (setting : Visit.onward.Setting enter enter' directory directory [] [])
    (included : ∀ c, (enter [] (directory.resolve ⟨target⟩)).outcome = .ok c → Deep 0 c.rows ∧
      ∃ d, (composeNodes rules enter' directory [] body).outcome = .ok d ∧ d.rows = c.rows)
    {nodes nodes' : List Node} (h : Inlines target body nodes nodes') {c : Composed}
    (hc : (composeNodes rules enter directory [] nodes).outcome = .ok c) :
    ∃ d, (composeNodes rules enter' directory [] nodes').outcome = .ok d ∧
      d.lines rules = c.lines rules := by
  -- Along the way to the include that makes way; other nodes come to what they came to.
  induction h generalizing c with
  | @here indent _ rest =>
    obtain ⟨first, later, hfirst, hlater, rfl⟩ := composeNodes_cons_eq_ok_iff.1 hc
    rw [composeNode] at hfirst
    obtain ⟨e, he, hfirst⟩ := Visit.outcome_bind hfirst
    cases hfirst
    obtain ⟨deep, d, hd, rows⟩ := included e he
    obtain ⟨later', hlater', agree⟩ := setting.composeNodes rest later hlater
    obtain ⟨all, hall, split⟩ := composeNodes_append (outcome_composeNodes_raise indent hd) hlater'
    refine ⟨all, hall, ?_⟩
    obtain rfl := Composed.agree_eq_iff.1 agree
    have moved : (d.shift indent).lines rules = (e.shift indent).lines rules := by
      funext levels
      simp [Composed.lines, Composed.shift, rows]
    funext levels
    rw [Composed.lines_of_rows rules split, moved, Composed.lines_append,
      lines_included deep indent e.deps]
  | @later rest rest' node _ ih =>
    obtain ⟨first, later, hfirst, hlater, rfl⟩ := composeNodes_cons_eq_ok_iff.1 hc
    obtain ⟨first', hfirst', agree⟩ := setting.composeNode node first hfirst
    obtain ⟨later', hlater', lines⟩ := ih hlater
    obtain rfl := Composed.agree_eq_iff.1 agree
    refine ⟨first ++ later', composeNodes_cons_eq_ok_iff.2 ⟨_, _, hfirst', hlater', rfl⟩, ?_⟩
    funext levels
    rw [Composed.lines_append, Composed.lines_append, lines]
  | @inside children children' indent s name mode rest _ ih =>
    obtain ⟨first, later, hfirst, hlater, rfl⟩ := composeNodes_cons_eq_ok_iff.1 hc
    rw [composeNode_of_no_table] at hfirst
    obtain ⟨inner, hinner, hfirst⟩ := Visit.outcome_bind hfirst
    cases hfirst
    obtain ⟨inner', hinner', lines⟩ := ih hinner
    obtain ⟨later', hlater', agree⟩ := setting.composeNodes rest later hlater
    obtain rfl := Composed.agree_eq_iff.1 agree
    refine ⟨inner'.shift (-1) ++ later, ?_, ?_⟩
    · have block : (composeNode rules enter' directory []
          (.block indent s name mode children')).outcome = .ok (inner'.shift (-1)) := by
        rw [composeNode_of_no_table, Visit.bind_outcome hinner']
        rfl
      rw [composeNodes, Visit.bind_outcome block, Visit.bind_outcome hlater']
      rfl
    · funext levels
      rw [Composed.lines_append, Composed.lines_shift, lines, ← Composed.lines_shift]
      exact (Composed.lines_append rules _ later levels).symm

end

theorem Library.exists_of_template {lib : Library} {p : Path} {t : Template}
    (ht : lib.template p = .ok t) (progress : List Path) :
    ∃ found, (lib.ask progress p).outcome = .ok found ∧ found.template = t := by
  simp only [Library.ask]
  split
  · rename_i he
    rw [ht] at he
    cases he
  · rename_i hu
    rw [ht] at hu
    cases hu
    exact ⟨_, rfl, rfl⟩

theorem resolve_of_composeNodes {w : Workspace} {progress : List Path} {table : Overrides}
    {path : Path} {t : Template} {d : Composed}
    (new : ¬progress.any (w.rules.complete path).same = true)
    (ht : w.template (w.rules.complete path) = .ok t) (root : parent? t.nodes = none)
    (hd : (composeNodes w.rules
      (resolve w.library.source w.rules (progress ++ [w.rules.complete path])) t.directory table
      t.nodes).outcome = .ok d) :
    ∃ c, (resolve w.library.source w.rules progress table path).outcome = .ok c ∧
      c.rows = d.rows := by
  have known : w.library.template (w.rules.complete path) = .ok t := ht
  obtain ⟨found, hfound, rfl⟩ := Library.exists_of_template known progress
  rw [resolve]
  dsimp only
  rw [dif_neg new, Visit.bind_outcome (x := w.library.source.ask _ _) hfound, composeTemplate, root]
  dsimp only
  rw [Visit.bind_outcome hd]
  exact ⟨_, rfl, rfl⟩

end Composition

open PugWeave.Composition

namespace Workspace

variable {w : Workspace}

def keep (w : Workspace) (t : Template) : Workspace := { w with cache := w.cache.keep t }

theorem modified_of_template {p : Path} {t : Template} (h : w.template p = .ok t) :
    w.files.modified p = .ok t.modified := by
  obtain ⟨modified, hm, hk | hr⟩ := template_eq_ok h
  · rw [hm, (kept?_eq_some_iff.1 hk).2]
  · obtain ⟨raw, -, hr⟩ := read_eq_ok hr
    rw [hm, (Template.path_of_read hr).2]

theorem template_keep {p : Path} {t : Template} (path : t.path.components = p.components)
    (current : w.files.modified p = .ok t.modified) (q : Path) :
    (w.keep t).template q = if q.same p then .ok t else w.template q := by
  have find : (w.keep t).cache.find? q = if q.same p then some t else w.cache.find? q := by
    rw [keep, Cache.find?_keep, Path.same_comm, Path.same_congr path, Path.same_comm]
  split
  · rename_i same
    rw [if_pos same] at find
    have upToDate : (w.keep t).UpToDate q :=
      ⟨t, find, modified_congr (Path.same_iff.1 same).symm current⟩
    obtain ⟨u, hu, template⟩ := upToDate.template
    rw [template, Option.some.inj (find.symm.trans hu)]
  · rename_i other
    rw [if_neg other] at find
    have kept : (w.keep t).kept? q = w.kept? q := by
      funext modified
      rw [kept?, kept?, find]
    rw [template_eq, template_eq, kept]
    rfl

section

variable {lib : Library} {p : Path}
  (others : ∀ q t, ¬q.same p = true → w.template q = .ok t → lib.template q = .ok t)
include others

theorem onward_of_others {progress : List Path} {d d' : Path} (same : samePath d d') :
    Visit.onward.Setting (Composition.resolve w.library.source w.rules (p :: progress))
      (Composition.resolve lib.source w.rules [p]) d d' [] [] := by
  have kept : Kept w.library lib (p :: progress) [p] := by
    constructor
    · intro q hq
      rw [List.any_cons, Bool.or_eq_true]
      exact .inl (by simpa using hq)
    · intro q t new
      rw [List.any_cons, Bool.or_eq_true, not_or] at new
      exact others q t new.1
  exact ⟨fun q tables => Visit.onward_resolve kept tables q, Path.resolve_congr same,
    fun _ => rfl⟩

theorem rows_of_included (parsed : w.Parsed) {part : Template} {d path : Path}
    (hpart : w.template (w.rules.complete path) = .ok part) (root : parent? part.nodes = none)
    (same : samePath part.directory d) {e : Composed}
    (he : (Composition.resolve w.library.source w.rules [p] [] path).outcome = .ok e) :
    Deep 0 e.rows ∧ ∃ f, (composeNodes w.rules (Composition.resolve lib.source w.rules [p]) d []
      part.nodes).outcome = .ok f ∧ f.rows = e.rows := by
  refine ⟨deep_resolve parsed deep_nil he, ?_⟩
  obtain ⟨t, ht, -, he⟩ := resolve_cases he
  obtain rfl := Except.ok.inj (hpart.symm.trans ht)
  rw [root] at he
  obtain ⟨f, hf, rows⟩ := Link.exists_of_rows he
  obtain ⟨f', hf', agree⟩ := (onward_of_others others same).composeNodes part.nodes f hf
  obtain rfl := Composed.agree_eq_iff.1 agree
  exact ⟨f, hf', rows⟩

end

/-- An include stands for the nodes of its target. Where a page succeeds, the page in which these
make way for the include, at its depth, succeeds as well and comes to the same lines. -/
theorem includes_inline (empty : w.cache.templates = []) (events : List Event) :
    ∀ u ∈ w.moments events, ∀ entry a, (u.resolve entry).1 = .ok a →
      ∀ page part target nodes, u.template (u.rules.complete (u.entryPath entry)) = .ok page →
        u.template (u.rules.complete (page.directory.resolve ⟨target⟩)) = .ok part →
        parent? page.nodes = none → parent? part.nodes = none →
        samePath part.directory page.directory → Inlines target part.nodes page.nodes nodes →
        ∃ b, ((u.keep { page with nodes }).resolve entry).1 = .ok b ∧
          Text.fullLines u.rules.separator b.content =
            Text.fullLines u.rules.separator a.content := by
  intro u hu entry a ha page part target nodes hpage hpart top root same inlines
  have parsed : u.Parsed := (sound_of_empty empty events u hu).parsed
  obtain ⟨c, hc, rfl⟩ := resolve_eq_ok_iff.1 ha
  obtain ⟨d, hd, agree⟩ := exists_composition hc
  obtain ⟨t, ht, -, hd⟩ := resolve_cases hd
  obtain rfl := Except.ok.inj (hpage.symm.trans ht)
  rw [top] at hd
  obtain ⟨e, he, rows⟩ := Link.exists_of_rows hd
  let v := u.keep { page with nodes }
  let p := u.rules.complete (u.entryPath entry)
  have path : page.path.components = p.components := path_of_template hpage
  have time : u.files.modified p = .ok page.modified := modified_of_template hpage
  have template (q : Path) : v.template q = if q.same p then .ok { page with nodes }
      else u.template q :=
    template_keep (t := { page with nodes }) path time q
  have others (q : Path) (t : Template) (new : ¬q.same p = true) (ht : u.template q = .ok t) :
      v.library.template q = .ok t := by
    change v.template q = .ok t
    rw [template, if_neg new, ht]
  obtain ⟨f, hf, lines⟩ := lines_of_inlines (onward_of_others others rfl)
    (fun _ => rows_of_included others parsed hpart root same) inlines he
  have own : v.template p = .ok { page with nodes } := by rw [template, Path.same_self, if_pos rfl]
  have alone : ¬([] : List Path).any p.same = true := by simp
  obtain ⟨g, hg, rows'⟩ := resolve_of_composeNodes (w := v) alone own
    (parent?_of_inlines inlines root top) hf
  obtain ⟨b, hb, agree'⟩ := (((Coherent.refl v).session (u.entryPath entry)).1.symm
    fun h => h.symm).exists_ok hg
  refine ⟨v.artifact b, resolve_eq_ok_iff.2 ⟨b, hb, rfl⟩, ?_⟩
  change Text.fullLines u.rules.separator (render u.rules.indentUnit u.rules.separator b.rows) =
    Text.fullLines u.rules.separator (render u.rules.indentUnit u.rules.separator c.rows)
  rw [← agree'.rows, rows', agree.rows, ← rows, Composed.fullLines_render_eq,
    Composed.fullLines_render_eq, lines]

theorem includes_inline_page :
    let file (t : String) : File := { content := .text t.toList, modified := 1 }
    let w : Workspace := {
      rules := ⟨2, .lf, [⟨some "img".toList, "src".toList⟩], "pug".toList, by decide⟩
      files := { entries := [
        (.ofString "/page.pug", file "div\n  block b\n    p\n      include part\nfooter"),
        (.ofString "/part.pug", file "section\n  block c\n    include leaf\n  a"),
        (.ofString "/leaf.pug", file "i\n  img(src='b.png')")] } }
    let a : Artifact := {
      content := "div\n  p\n    section\n      i\n        img(src=/b.png)\n      a\nfooter".toList
      deps := ⟨[(.ofString "/page.pug", []), (.ofString "/part.pug", []),
        (.ofString "/leaf.pug", [.ofString "/b.png"])]⟩ }
    (w.resolve (.ofString "page.pug")).1 = .ok a ∧
      ∃ page part nodes b, w.template (.ofString "/page.pug") = .ok page ∧
        w.template (.ofString "/part.pug") = .ok part ∧
        Inlines "part".toList part.nodes page.nodes nodes ∧
        ((w.keep { page with nodes }).resolve (.ofString "page.pug")).1 = .ok b ∧
        Text.fullLines ['\n'] b.content = Text.fullLines ['\n'] a.content := by
  intro file w a
  have done : (w.session (w.entryPath (.ofString "page.pug"))).1 = .ok {
      rows := [⟨0, "div".toList⟩, ⟨1, "p".toList⟩,
        ⟨2, "section\n  i\n    img(src=/b.png)\n  a".toList⟩, ⟨0, "footer".toList⟩]
      deps := a.deps } :=
    session_of_within (by decide : 3 < 4) (by decide +kernel)
  have resolved : (w.resolve (.ofString "page.pug")).1 = .ok a :=
    resolve_eq_ok_iff.2 ⟨_, done, by decide +kernel⟩
  refine ⟨resolved, ?_⟩
  have at_page : w.rules.complete (w.entryPath (.ofString "page.pug")) = .ofString "/page.pug" := by
    decide +kernel
  have at_part : w.rules.complete (Path.resolve (.ofString "/") ⟨"part".toList⟩) =
    .ofString "/part.pug" := by decide +kernel
  have page_shape : (w.template (.ofString "/page.pug")).map (fun t =>
      (t.directory, inclusions t.nodes, (parent? t.nodes).isNone)) =
        .ok (.ofString "/", ["part".toList], true) := by decide +kernel
  have part_shape : (w.template (.ofString "/part.pug")).map (fun t =>
      (t.directory, (parent? t.nodes).isNone)) = .ok (.ofString "/", true) := by decide +kernel
  cases hpage : w.template (.ofString "/page.pug") with
  | error e => simp [hpage, Except.map] at page_shape
  | ok page =>
    cases hpart : w.template (.ofString "/part.pug") with
    | error e => simp [hpart, Except.map] at part_shape
    | ok part =>
      obtain ⟨directory, targets, top⟩ : page.directory = .ofString "/" ∧
          inclusions page.nodes = ["part".toList] ∧ parent? page.nodes = none := by
        simpa [hpage, Except.map] using page_shape
      obtain ⟨directory', root⟩ : part.directory = .ofString "/" ∧ parent? part.nodes = none := by
        simpa [hpart, Except.map] using part_shape
      obtain ⟨nodes, inlines⟩ := Directive.exists_inlines part.nodes
        (targets ▸ List.mem_singleton_self _ : "part".toList ∈ inclusions page.nodes)
      obtain ⟨b, hb, lines⟩ := includes_inline (w := w) rfl [] w (by simp [moments]) _ a resolved
        page part "part".toList nodes (at_page ▸ hpage) (by rw [directory, at_part, hpart]) top root
        (by rw [samePath, directory, directory']) inlines
      exact ⟨page, part, nodes, b, rfl, rfl, inlines, hb, lines⟩

end Workspace

end PugWeave
