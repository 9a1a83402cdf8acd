import PugWeave.Proofs.Path.Completion

namespace PugWeave.Path

def Component.IsStep (c : Component) : Prop := Component.ofPart? c.text = some c ∧ '/' ∉ c.text

def Component.IsName (c : Component) : Prop := c.IsStep ∧ c ≠ .up

theorem text_of_ofPart? {part : Text} {c : Component} (h : Component.ofPart? part = some c) :
    c.text = part := by
  rw [Component.ofPart?] at h
  split at h
  · cases h
  · split at h
    · rename_i dots
      cases h
      exact dots.symm
    · cases h
      rfl

theorem isStep_of_mem_steps {p : Path} {c : Component} (h : c ∈ steps p.parts) : c.IsStep := by
  obtain ⟨part, hpart, hc⟩ := List.mem_filterMap.1 h
  have text := text_of_ofPart? hc
  exact ⟨text.symm ▸ hc, text.symm ▸ slash_not_mem_parts hpart⟩

theorem Component.isStep_up : Component.IsStep .up := ⟨rfl, by decide⟩

namespace Component.IsStep

variable {c : Component}

theorem ne_root (h : c.IsStep) : c ≠ .root := by
  rintro rfl
  cases h.1

theorem text_ne_nil (h : c.IsStep) : c.text ≠ [] := by
  intro empty
  have := h.1
  rw [empty] at this
  cases this

theorem text_ne_here (h : c.IsStep) : c.text ≠ ['.'] := by
  intro dot
  have := h.1
  rw [dot] at this
  cases this

theorem eq_up_of_text (h : c.IsStep) (dots : c.text = ['.', '.']) : c = .up := by
  have := h.1
  rw [dots] at this
  cases this
  rfl

theorem ofFirst?_text (h : c.IsStep) : Component.ofFirst? c.text = some c := by
  rw [Component.ofFirst?, if_neg h.text_ne_here, h.1]

end Component.IsStep

theorem steps_map_text {cs : List Component} (h : ∀ c ∈ cs, c.IsStep) :
    steps (cs.map Component.text) = cs := by
  induction cs with
  | nil => rfl
  | cons c cs ih =>
    obtain ⟨first, rest⟩ := List.forall_mem_cons.1 h
    rw [List.map_cons, steps, List.filterMap_cons_some first.1]
    exact congrArg (c :: ·) (ih rest)

theorem components_of_isAbsolute {p : Path} (h : p.isAbsolute = true) :
    p.components = .root :: steps p.parts := by
  rw [components, if_pos h]
  rfl

section

variable {cs : List Component} (h : ∀ c ∈ cs, c.IsStep)
include h

theorem ofComponents_steps : ofComponents cs = ⟨Text.join ['/'] (cs.map Component.text)⟩ := by
  rw [ofComponents]
  rintro rfl
  exact (h .root List.mem_cons_self).ne_root rfl

theorem parts_ofComponents (ne : cs ≠ []) : (ofComponents cs).parts = cs.map Component.text := by
  rw [ofComponents_steps h]
  refine parts_join (fun t ht => ?_) (by simpa using ne)
  obtain ⟨c, hc, rfl⟩ := List.mem_map.1 ht
  exact (h c hc).2

theorem components_ofComponents : (ofComponents cs).components = cs := by
  cases cs with
  | nil => rfl
  | cons c rest =>
    obtain ⟨first, later⟩ := List.forall_mem_cons.1 h
    have parts := parts_ofComponents h (List.cons_ne_nil _ _)
    have text : (ofComponents (c :: rest)).text ≠ [] := by
      intro empty
      rw [parts_eq, empty, List.splitOn_nil] at parts
      simp only [List.map_cons, List.cons.injEq] at parts
      exact first.text_ne_nil parts.1.symm
    rw [components_eq_ofPieces text, parts, List.map_cons, ofPieces, steps_map_text later,
      if_neg (by simpa using first.text_ne_nil), first.ofFirst?_text]
    rfl

theorem isAbsolute_ofComponents : (ofComponents cs).isAbsolute = false := by
  refine Bool.eq_false_iff.2 fun absolute => ?_
  have root := components_of_isAbsolute absolute
  rw [components_ofComponents h] at root
  exact (h .root (root ▸ List.mem_cons_self)).ne_root rfl

theorem parts_ofComponents_root : (ofComponents (.root :: cs)).parts =
    [] :: if cs = [] then [[]] else cs.map Component.text := by
  cases cs with
  | nil => rfl
  | cons c rest =>
    rw [if_neg (List.cons_ne_nil _ _)]
    refine parts_join (fun t ht => ?_) (List.cons_ne_nil _ _)
    rcases List.mem_cons.1 ht with rfl | ht
    · simp [Component.text]
    · obtain ⟨d, hd, rfl⟩ := List.mem_map.1 ht
      exact (h d hd).2

end

theorem isAbsolute_ofComponents_root (cs : List Component) :
    (ofComponents (.root :: cs)).isAbsolute = true := by
  cases cs with
  | nil => rfl
  | cons c cs => simp [isAbsolute, ofComponents, Text.join, Component.text]

theorem components_ofComponents_root {cs : List Component} (h : ∀ c ∈ cs, c.IsStep) :
    (ofComponents (.root :: cs)).components = .root :: cs := by
  rw [components_of_isAbsolute (isAbsolute_ofComponents_root cs), parts_ofComponents_root h]
  split
  · rename_i empty
    rw [empty]
    rfl
  · rw [steps, List.filterMap_cons_none rfl, ← steps, steps_map_text h]

inductive Resolved : (absolute : Bool) → List Component → Prop
  | here : Resolved false []
  | root : Resolved true [.root]
  | up : Resolved false s → (∀ c ∈ s, c = .up) → Resolved false (.up :: s)
  | name : Resolved absolute s → Component.IsStep (.name t) → Resolved absolute (.name t :: s)

namespace Resolved

variable {absolute : Bool} {s : List Component}

theorem addTo (h : Resolved absolute s) {c : Component} (hc : c.IsStep) :
    Resolved absolute (Component.addTo s c) := by
  cases c with
  | root | here => cases hc.1
  | name t => exact .name h hc
  | up =>
    cases h with
    | here => exact .up .here (List.forall_mem_nil _)
    | root => exact .root
    | up h all => exact .up (.up h all) (by simpa using all)
    | name h _ => exact h

theorem foldl (h : Resolved absolute s) {cs : List Component} (hcs : ∀ c ∈ cs, c.IsStep) :
    Resolved absolute (cs.foldl Component.addTo s) := by
  induction cs generalizing s with
  | nil => exact h
  | cons c rest ih =>
    obtain ⟨first, later⟩ := List.forall_mem_cons.1 hcs
    exact ih (h.addTo first) later

theorem foldl_reverse (h : Resolved absolute s) : s.reverse.foldl Component.addTo [] = s := by
  induction h with
  | here => rfl
  | root => rfl
  | @up s _ all ih =>
    rw [List.reverse_cons, List.foldl_append, ih]
    cases s with
    | nil => rfl
    | cons c s =>
      obtain rfl := all c List.mem_cons_self
      rfl
  | name _ _ ih =>
    rw [List.reverse_cons, List.foldl_append, ih]
    rfl

theorem exists_names (h : Resolved absolute s) : ∃ ups names,
    s.reverse = (if absolute then [.root] else List.replicate ups .up) ++ names ∧
      ∀ c ∈ names, c.IsName := by
  induction h with
  | here => exact ⟨0, [], rfl, List.forall_mem_nil _⟩
  | root => exact ⟨0, [], rfl, List.forall_mem_nil _⟩
  | @up s _ all _ =>
    have ups : Component.up :: s = List.replicate (s.length + 1) .up :=
      List.eq_replicate_iff.2 ⟨rfl, by simpa using all⟩
    exact ⟨s.length + 1, [], by simp [ups], List.forall_mem_nil _⟩
  | @name absolute s t _ ht ih =>
    obtain ⟨ups, names, way, named⟩ := ih
    refine ⟨ups, names ++ [.name t], by rw [List.reverse_cons, way, List.append_assoc], ?_⟩
    simpa [or_imp, forall_and] using ⟨named, ht, by simp⟩

end Resolved

def resolved (p : Path) : List Component := p.components.foldl Component.addTo []

theorem normalize_eq (p : Path) : p.normalize = ofComponents p.resolved.reverse := rfl

theorem foldl_components {p : Path} (h : p.isAbsolute = false) (s : List Component) :
    p.components.foldl Component.addTo s = (steps p.parts).foldl Component.addTo s := by
  obtain ⟨first, rest, hs⟩ := List.exists_cons_of_ne_nil (parts_ne_nil p)
  have both : p.components = (Component.ofFirst? first).toList ++ steps rest := by
    simp [components, h, hs, steps]
  rw [both, hs]
  by_cases dot : first = ['.']
  · subst dot
    rfl
  · have front : steps (first :: rest) = (Component.ofPart? first).toList ++ steps rest := by
      rw [steps, List.filterMap_cons]
      cases Component.ofPart? first <;> rfl
    rw [front, Component.ofFirst?, if_neg dot]

theorem resolved_resolved (p : Path) : Resolved p.isAbsolute p.resolved := by
  cases h : p.isAbsolute with
  | false =>
    rw [resolved, foldl_components h]
    exact Resolved.here.foldl fun _ => isStep_of_mem_steps
  | true =>
    rw [resolved, components_of_isAbsolute h]
    exact Resolved.root.foldl fun _ => isStep_of_mem_steps

theorem isStep_way (ups : Nat) {names : List Component} (steps : ∀ c ∈ names, c.IsStep) :
    ∀ c ∈ List.replicate ups .up ++ names, c.IsStep := by
  refine List.forall_mem_append.2 ⟨fun c hc => ?_, steps⟩
  rw [List.eq_of_mem_replicate hc]
  exact Component.isStep_up

theorem exists_parts_normalize (p : Path) :
    p.normalize.isAbsolute = p.isAbsolute ∧ p.normalize.components = p.resolved.reverse ∧
      ∃ ups rest, p.normalize.parts =
          (if p.isAbsolute then [] else List.replicate ups ['.', '.']) ++ rest ∧
        ∀ part ∈ rest, part ≠ ['.'] ∧ part ≠ ['.', '.'] := by
  obtain ⟨ups, names, way, named⟩ := p.resolved_resolved.exists_names
  have texts : ∀ part ∈ names.map Component.text, part ≠ ['.'] ∧ part ≠ ['.', '.'] := by
    intro part hpart
    obtain ⟨c, hc, rfl⟩ := List.mem_map.1 hpart
    obtain ⟨step, down⟩ := named c hc
    exact ⟨step.text_ne_here, fun dots => down (step.eq_up_of_text dots)⟩
  rw [normalize_eq, way]
  cases p.isAbsolute with
  | true =>
    have all : ∀ c ∈ names, c.IsStep := fun c hc => (named c hc).1
    refine ⟨isAbsolute_ofComponents_root _, components_ofComponents_root all, 0, _,
      parts_ofComponents_root all, ?_⟩
    split
    · simp
    · simpa using texts
  | false =>
    have all : ∀ c ∈ List.replicate ups .up ++ names, c.IsStep :=
      isStep_way ups fun c hc => (named c hc).1
    refine ⟨isAbsolute_ofComponents all, components_ofComponents all, ?_⟩
    by_cases empty : List.replicate ups .up ++ names = []
    · exact ⟨0, [[]], by simp only [Bool.false_eq_true, if_false, empty]; rfl, by simp⟩
    · refine ⟨ups, _, ?_, texts⟩
      simp only [Bool.false_eq_true, if_false]
      rw [parts_ofComponents all empty, List.map_append, List.map_replicate]
      rfl

theorem components_normalize_of_isAbsolute {p : Path} (h : p.isAbsolute = true) :
    ∃ names, p.normalize.components = .root :: names ∧ ∀ c ∈ names, c.IsName := by
  obtain ⟨_, names, way, named⟩ := p.resolved_resolved.exists_names
  rw [h] at way
  exact ⟨names, (exists_parts_normalize p).2.1.trans way, named⟩

theorem resolved_normalize (p : Path) : p.normalize.resolved = p.resolved := by
  rw [resolved, (exists_parts_normalize p).2.1]
  exact p.resolved_resolved.foldl_reverse

theorem normalize_normalize (p : Path) : p.normalize.normalize = p.normalize := by
  rw [normalize_eq, resolved_normalize, ← normalize_eq]

theorem resolved_join (base : Path) {p : Path} (h : p.isAbsolute = false) :
    (base.join p).resolved = (steps p.parts).foldl Component.addTo base.resolved := by
  by_cases empty : base.text = []
  · have same : base.join p = p := by simp [join, h, empty]
    have none : base.components = [] := components_eq_nil_iff.2 empty
    rw [same, resolved, resolved, none]
    exact foldl_components h []
  · rw [resolved, components_join empty h, List.foldl_append]
    rfl

theorem normalize_join (base p : Path) :
    (base.normalize.join p).normalize = (base.join p).normalize := by
  cases h : p.isAbsolute with
  | true => simp [join, h]
  | false =>
    rw [normalize_eq, resolved_join _ h, resolved_normalize, normalize_eq, resolved_join _ h]

theorem foldl_names {names : List Component} (named : ∀ c ∈ names, c.IsName) (s : List Component) :
    names.foldl Component.addTo s = names.reverse ++ s := by
  induction names generalizing s with
  | nil => rfl
  | cons c rest ih =>
    obtain ⟨first, later⟩ := List.forall_mem_cons.1 named
    have kept : Component.addTo s c = c :: s := by
      cases c with
      | name t => rfl
      | up => exact absurd rfl first.2
      | root | here => cases first.1.1
    rw [List.foldl_cons, kept, ih later, List.reverse_cons, List.append_assoc]
    rfl

theorem foldl_ups (ups : Nat) :
    (List.replicate ups Component.up).foldl Component.addTo [] = List.replicate ups .up := by
  induction ups with
  | zero => rfl
  | succ n ih =>
    rw [List.replicate_succ', List.foldl_append, ih, ← List.replicate_succ', List.replicate_succ]
    cases n <;> rfl

theorem normalize_eq_self_iff {p : Path} : p.normalize = p ↔
    ∃ (absolute : Bool) (ups : Nat) (names : List Component), (∀ c ∈ names, c.IsName) ∧
      p = ofComponents ((if absolute then [.root] else List.replicate ups .up) ++ names) := by
  constructor
  · intro h
    obtain ⟨ups, names, way, named⟩ := p.resolved_resolved.exists_names
    exact ⟨p.isAbsolute, ups, names, named, by rw [← way, ← normalize_eq, h]⟩
  · rintro ⟨absolute, ups, names, named, rfl⟩
    have steps : ∀ c ∈ names, c.IsStep := fun c hc => (named c hc).1
    rw [normalize_eq, resolved]
    cases absolute with
    | true =>
      have start : Component.addTo [] .root = [.root] := rfl
      rw [if_pos rfl, List.singleton_append, components_ofComponents_root steps, List.foldl_cons,
        start, foldl_names named]
      simp
    | false =>
      rw [if_neg Bool.false_ne_true, components_ofComponents (isStep_way ups steps), List.foldl_append, foldl_ups,
        foldl_names named]
      simp

def gap (base : Path) : Text :=
  if base.text.isEmpty || base.text.getLast? = some '/' then [] else ['/']

theorem join_of_isAbsolute (base : Path) {p : Path} (h : p.isAbsolute = true) : base.join p = p :=
  if_pos h

theorem join_eq (base : Path) {p : Path} (h : p.isAbsolute = false) :
    base.join p = ⟨base.text ++ (base.gap ++ p.text)⟩ := by
  rw [join, h, if_neg Bool.false_ne_true, gap]
  split <;> rfl

theorem isAbsolute_join {base : Path} (h : base.isAbsolute = true) (p : Path) :
    (base.join p).isAbsolute = true := by
  obtain ⟨t, ht⟩ := List.head?_eq_some_iff.1 (of_decide_eq_true h)
  rw [join]
  split
  · assumption
  · split <;> simp [isAbsolute, ht]

theorem components_resolve_of_isAbsolute {base : Path} (h : base.isAbsolute = true) (p : Path) :
    (base.resolve p).isAbsolute = true ∧ .up ∉ (base.resolve p).components := by
  have absolute := isAbsolute_join h p
  obtain ⟨names, whole, named⟩ := components_normalize_of_isAbsolute absolute
  refine ⟨(exists_parts_normalize _).1.trans absolute, ?_⟩
  rw [resolve, whole, List.mem_cons]
  rintro (root | up)
  · cases root
  · exact (named _ up).2 rfl

theorem isAbsolute_join_of_not {base p : Path} (hb : base.isAbsolute = false)
    (hp : p.isAbsolute = false) : (base.join p).isAbsolute = false := by
  rw [join_eq base hp, isAbsolute]
  rcases base with ⟨_ | ⟨c, t⟩⟩
  · exact hp
  · exact hb

theorem gap_join (base : Path) {p : Path} (h : p.isAbsolute = false) :
    (base.join p).gap = p.gap := by
  rw [join_eq base h]
  rcases List.eq_nil_or_concat p.text with empty | ⟨init, c, hc⟩
  · -- The directory now ends in its own gap, which leaves none behind it.
    rw [gap, gap, gap, empty]
    by_cases none : base.text.isEmpty || base.text.getLast? = some '/'
    · rw [if_pos none, List.append_nil, List.append_nil, if_pos none]
      rfl
    · rw [if_neg none]
      simp
  · simp [gap, hc]

theorem join_assoc (a b c : Path) : (a.join b).join c = a.join (b.join c) := by
  cases hc : c.isAbsolute with
  | true => simp only [join_of_isAbsolute _ hc]
  | false =>
    cases hb : b.isAbsolute with
    | true => rw [join_of_isAbsolute a hb, join_of_isAbsolute a (isAbsolute_join hb c)]
    | false =>
      rw [join_eq _ hc, gap_join a hb, join_eq a (isAbsolute_join_of_not hb hc), join_eq a hb,
        join_eq b hc]
      simp only [List.append_assoc]

/-- Resolving a path a second time changes nothing. A resolved path is absolute if the path is. It has
no part `.`, and a part `..` only in front, and no such part if it is absolute. Where references are
resolved one after the other, the last one leads where they lead when they are joined. -/
theorem resolve_canonical (b d p : Path) :
    p.normalize.normalize = p.normalize ∧
    p.normalize.isAbsolute = p.isAbsolute ∧
    (∃ ups rest, p.normalize.parts =
        (if p.isAbsolute then [] else List.replicate ups ['.', '.']) ++ rest ∧
      ∀ part ∈ rest, part ≠ ['.'] ∧ part ≠ ['.', '.']) ∧
    (b.resolve d).resolve p = b.resolve (d.join p) := by
  obtain ⟨absolute, -, parts⟩ := exists_parts_normalize p
  refine ⟨normalize_normalize p, absolute, parts, ?_⟩
  rw [resolve, resolve, normalize_join, join_assoc, resolve]

example : ((Path.ofString "/a/./b").resolve (.ofString "../../../c//d")).text = "/c/d".toList := by
  decide +kernel

end PugWeave.Path
