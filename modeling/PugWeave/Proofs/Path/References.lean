import Mathlib.Logic.Relation
import PugWeave.Proofs.Path.Resolution
import PugWeave.Settings

namespace PugWeave

namespace Path

theorem root_mem_components_iff {p : Path} : .root ∈ p.components ↔ p.isAbsolute = true := by
  cases h : p.isAbsolute with
  | true => simp [components_of_isAbsolute h]
  | false =>
    obtain ⟨first, rest, hs⟩ := List.exists_cons_of_ne_nil (parts_ne_nil p)
    have whole : p.components = (Component.ofFirst? first).toList ++ steps rest := by
      simp [components, h, hs, steps]
    have front : Component.ofFirst? first ≠ some .root := by
      simp only [Component.ofFirst?, Component.ofPart?]
      repeat' split <;> simp
    have later : .root ∉ steps rest := by
      intro root
      obtain ⟨part, -, hpart⟩ := List.mem_filterMap.1 root
      have text := text_of_ofPart? hpart
      rw [← text] at hpart
      cases hpart
    simp [whole, front, later]

theorem isAbsolute_congr {p q : Path} (h : p.components = q.components) :
    p.isAbsolute = q.isAbsolute := by
  rw [Bool.eq_iff_iff, ← root_mem_components_iff, h, root_mem_components_iff]

theorem resolved_join_eq (base p : Path) : (base.join p).resolved =
    p.components.foldl Component.addTo (if p.isAbsolute then [] else base.resolved) := by
  cases h : p.isAbsolute with
  | true =>
    rw [join_of_isAbsolute base h]
    rfl
  | false =>
    rw [resolved_join base h, ← foldl_components h]
    rfl

theorem resolve_congr_right (base : Path) {p q : Path} (h : p.components = q.components) :
    base.resolve p = base.resolve q := by
  rw [resolve, resolve, normalize_eq, normalize_eq, resolved_join_eq, resolved_join_eq, h,
    isAbsolute_congr h]

theorem ofPieces_concat {part : Text} (h : Component.ofPart? part = some (.name part))
    (init : List Text) : ofPieces (init ++ [part]) = ofPieces init ++ [.name part] := by
  cases init with
  | nil =>
    obtain ⟨full, dot⟩ := ne_of_ofPart?_name h
    simp [ofPieces, steps, full, Component.ofFirst?, dot, h]
  | cons first rest =>
    rw [ofPieces_append (List.cons_ne_nil _ _)]
    simp [steps, h]

theorem components_join_parts {init : List Text} {name : Text} (before : ∀ t ∈ init, '/' ∉ t)
    (inside : '/' ∉ name) (own : Component.ofPart? name = some (.name name)) :
    (⟨Text.join ['/'] (init ++ [name])⟩ : Path).components = ofPieces init ++ [.name name] := by
  have parts := parts_join_concat before inside
  have text : Text.join ['/'] (init ++ [name]) ≠ [] := by
    intro empty
    rw [parts_eq, empty, List.splitOn_nil] at parts
    have last := congrArg List.getLast? parts
    rw [List.getLast?_concat] at last
    exact (ne_of_ofPart?_name own).1 (Option.some.inj last).symm
  rw [components_eq_ofPieces (by exact text), parts, ofPieces_concat own]

theorem components_ofParts_dropSilent {p : Path} {name : Text} (h : p.fileName? = some name) :
    (ofParts (dropSilent p.parts.reverse)).components = p.components := by
  obtain ⟨first, rest, hs⟩ := List.exists_cons_of_ne_nil (parts_ne_nil p)
  have whole : p.components = ofPieces (first :: (rest.reverse.dropWhile isNothing).reverse) := by
    rw [components_eq_ofPieces (text_ne_nil_of_fileName? h), hs, ofPieces, ofPieces,
      steps_reverse_dropWhile, List.reverse_reverse]
  have slash : ∀ t ∈ rest.reverse.dropWhile isNothing ++ [first], '/' ∉ t := by
    intro t ht
    refine slash_not_mem_parts (p := p) (hs ▸ ?_)
    rcases List.mem_append.1 ht with ht | ht
    · exact .tail _ (List.mem_reverse.1 ((List.dropWhile_sublist isNothing).mem ht))
    · exact List.mem_singleton.1 ht ▸ List.mem_cons_self
  rw [hs, List.reverse_cons, dropSilent_append, whole]
  refine components_ofParts slash ?_
  refine Classical.byContradiction fun none => ?_
  rw [not_or, not_not, not_not] at none
  have last := getLast?_of_fileName? h
  rw [whole, none.1, none.2] at last
  cases last

theorem components_complete {extension : Text} (slash : '/' ∉ extension) {p : Path}
    (changed : p.complete extension ≠ p) : ∃ before name,
      p.components = before ++ [.name name] ∧
      (p.complete extension).components = before ++ [.name (name ++ '.' :: extension)] ∧
      hasExtension name = false ∧ extension ≠ [] := by
  cases hp : p.fileName? with
  | none =>
    rw [complete, hp] at changed
    exact absurd rfl changed
  | some name =>
    have completed : p.complete extension = if hasExtension name || extension.isEmpty then p
        else ⟨(ofParts (dropSilent p.parts.reverse)).text ++ '.' :: extension⟩ := by
      rw [complete, hp]
    have bare : ¬(hasExtension name || extension.isEmpty) = true := by
      intro whole
      rw [completed, if_pos whole] at changed
      exact changed rfl
    obtain ⟨init, text, before, inside, own⟩ := exists_join_of_fileName? hp
    rw [completed, if_neg bare, text, join_append]
    rw [Bool.or_eq_true, not_or, List.isEmpty_iff, Bool.not_eq_true] at bare
    refine ⟨ofPieces init, name, ?_, ?_, bare⟩
    · rw [← components_ofParts_dropSilent hp, ← components_join_parts before inside own, ← text]
    · exact components_join_parts before (slash_not_mem_extended inside slash)
        (ofPart?_extended own extension).1

theorem Resolved.slash_not_mem {absolute : Bool} {s : List Component} (h : Resolved absolute s) :
    ∀ t ∈ s.map Component.text, '/' ∉ t := by
  induction h with
  | here => simp
  | root => simp [Component.text]
  | up _ _ ih => simpa [Component.text] using ih
  | name _ step ih => exact List.forall_mem_cons.2 ⟨step.2, ih⟩

theorem Resolved.of_name {absolute : Bool} {s : List Component} {t : Text}
    (h : Resolved absolute (.name t :: s)) :
    Resolved absolute s ∧ Component.ofPart? t = some (.name t) ∧ '/' ∉ t := by
  cases h with
  | name rest step => exact ⟨rest, step⟩

theorem complete_join {extension : Text} (full : extension ≠ []) {init : List Text} {name : Text}
    (before : ∀ t ∈ init, '/' ∉ t) (inside : '/' ∉ name)
    (own : Component.ofPart? name = some (.name name)) (bare : hasExtension name = false) :
    (⟨Text.join ['/'] (init ++ [name])⟩ : Path).complete extension =
      ⟨Text.join ['/'] (init ++ [name ++ '.' :: extension])⟩ := by
  have parts := parts_join_concat before inside
  obtain ⟨full', dot⟩ := ne_of_ofPart?_name own
  have kept : dropSilent (init ++ [name]).reverse = (init ++ [name]).reverse := by
    rw [List.reverse_concat, dropSilent, isSilent]
    simp [full', dot]
  have whole : (ofParts (init ++ [name]).reverse).text = Text.join ['/'] (init ++ [name]) := by
    rw [ofParts, List.reverse_reverse]
    intro root
    rw [List.reverse_concat] at root
    exact full' (List.cons.inj root).1
  rw [complete, fileName?_join before inside own, parts, kept, whole, join_append]
  simp [bare, full]

theorem ofComponents_name_cons (t : Text) (s : List Component) :
    ofComponents (.name t :: s).reverse =
      ⟨Text.join ['/'] ((s.map Component.text).reverse ++ [t])⟩ := by
  rw [List.reverse_cons, ofComponents]
  · simp [Component.text]
  · intro root
    cases List.append_eq_singleton_iff.1 root <;> simp_all

theorem complete_resolve {extension : Text} (slash : '/' ∉ extension) (base p : Path) :
    (base.resolve (p.complete extension)).complete extension =
      (base.resolve p).complete extension := by
  by_cases changed : p.complete extension = p
  · rw [changed]
  obtain ⟨before, name, short, long, bare, full⟩ := components_complete slash changed
  have absolute : (p.complete extension).isAbsolute = p.isAbsolute := by
    rw [Bool.eq_iff_iff, ← root_mem_components_iff, ← root_mem_components_iff, short, long]
    simp
  let way := before.foldl Component.addTo (if p.isAbsolute then [] else base.resolved)
  have resolvedShort : (base.join p).resolved = .name name :: way := by
    rw [resolved_join_eq, short, List.foldl_append]
    rfl
  have resolvedLong : (base.join (p.complete extension)).resolved =
      .name (name ++ '.' :: extension) :: way := by
    rw [resolved_join_eq, long, List.foldl_append, absolute]
    rfl
  have known := (base.join p).resolved_resolved
  rw [resolvedShort] at known
  obtain ⟨rest, own, inside⟩ := known.of_name
  have clean : ∀ t ∈ (way.map Component.text).reverse, '/' ∉ t := fun t ht =>
    rest.slash_not_mem t (List.mem_reverse.1 ht)
  obtain ⟨named, extended⟩ := ofPart?_extended own extension
  rw [resolve, resolve, normalize_eq, normalize_eq, resolvedShort, resolvedLong,
    ofComponents_name_cons, ofComponents_name_cons, complete_join full clean inside own bare]
  exact complete_of_hasExtension
    (fileName?_join clean (slash_not_mem_extended inside slash) named) extended

theorem resolve_congr_steps (base : Path) {p q : Path} (hp : p.isAbsolute = false)
    (hq : q.isAbsolute = false)
    (h : ∀ s, (steps p.parts).foldl Component.addTo s = (steps q.parts).foldl Component.addTo s) :
    base.resolve p = base.resolve q := by
  rw [resolve, resolve, normalize_eq, normalize_eq, resolved_join base hp, resolved_join base hq, h]

theorem parts_slash (a b : Text) : (⟨a ++ '/' :: b⟩ : Path).parts =
    (⟨a⟩ : Path).parts ++ (⟨b⟩ : Path).parts := by
  simp only [parts_eq, List.splitOn_append_cons_self]

theorem components_slash (a b : Text) : (⟨a ++ '/' :: b⟩ : Path).components =
    ofPieces (⟨a⟩ : Path).parts ++ steps (⟨b⟩ : Path).parts := by
  rw [components_eq_ofPieces (by simp), parts_slash, ofPieces_append (parts_ne_nil _)]

theorem resolve_here (base : Path) {t : Text} (relative : (⟨t⟩ : Path).isAbsolute = false) :
    base.resolve ⟨"./".toList ++ t⟩ = base.resolve ⟨t⟩ := by
  have parts : (⟨"./".toList ++ t⟩ : Path).parts = ['.'] :: (⟨t⟩ : Path).parts := parts_slash ['.'] t
  refine resolve_congr_steps base rfl relative fun s => ?_
  rw [parts]
  rfl

theorem resolve_back (base : Path) {x t : Text} (step : (Component.name x).IsStep)
    (relative : (⟨t⟩ : Path).isAbsolute = false) :
    base.resolve ⟨x ++ "/../".toList ++ t⟩ = base.resolve ⟨t⟩ := by
  obtain ⟨own, inside⟩ : Component.ofPart? x = some (.name x) ∧ '/' ∉ x := step
  have parts : (⟨x ++ "/../".toList ++ t⟩ : Path).parts =
      x :: ['.', '.'] :: (⟨t⟩ : Path).parts := by
    have alone : (⟨x⟩ : Path).parts = [x] := by rw [parts_eq, List.splitOn_eq_singleton inside]
    have text : x ++ "/../".toList ++ t = x ++ '/' :: (['.', '.'] ++ '/' :: t) := by simp
    rw [text, parts_slash, parts_slash, alone]
    rfl
  have below : (⟨x ++ "/../".toList ++ t⟩ : Path).isAbsolute = false := by
    obtain ⟨c, u, rfl⟩ := List.exists_cons_of_ne_nil (ne_of_ofPart?_name own).1
    have other : c ≠ '/' := fun root => inside (root ▸ List.mem_cons_self)
    simpa [isAbsolute] using other
  have way : steps (x :: ['.', '.'] :: (⟨t⟩ : Path).parts) =
      .name x :: .up :: steps (⟨t⟩ : Path).parts := by
    rw [steps, List.filterMap_cons_some own]
    rfl
  refine resolve_congr_steps base below relative fun s => ?_
  rw [parts, way]
  rfl

theorem resolve_slash (base : Path) (t u : Text) :
    base.resolve ⟨t ++ '/' :: u⟩ = base.resolve ⟨t ++ '/' :: '/' :: u⟩ := by
  refine resolve_congr_right base ?_
  have parts : (⟨'/' :: u⟩ : Path).parts = [] :: (⟨u⟩ : Path).parts := parts_slash [] u
  rw [components_slash, components_slash, parts]
  rfl

theorem resolve_join {directory : Path} (root : directory.isAbsolute = true) (other p : Path) :
    other.resolve (directory.join p) = directory.resolve p := by
  rw [resolve, resolve, join_of_isAbsolute other (isAbsolute_join root p)]

end Path

structure Reference where
  directory : Path
  target : Path

namespace Reference

def path (r : Reference) : Path := r.directory.resolve r.target

def place (rules : Rules) (r : Reference) : Path := rules.complete r.path

/-- Ways to write a reference differently: from the directory itself, by way of a directory that is left
at once, with one more slash, from the root, with the extension, and from another spelling of the
directory. -/
inductive Respelled (rules : Rules) : Reference → Reference → Prop
  | here : (⟨t⟩ : Path).isAbsolute = false →
      Respelled rules ⟨d, ⟨t⟩⟩ ⟨d, ⟨"./".toList ++ t⟩⟩
  | back : (Path.Component.name x).IsStep → (⟨t⟩ : Path).isAbsolute = false →
      Respelled rules ⟨d, ⟨t⟩⟩ ⟨d, ⟨x ++ "/../".toList ++ t⟩⟩
  | slash : Respelled rules ⟨d, ⟨t ++ '/' :: u⟩⟩ ⟨d, ⟨t ++ '/' :: '/' :: u⟩⟩
  | absolute : d.isAbsolute = true → Respelled rules ⟨d, p⟩ ⟨e, d.join p⟩
  | extension : Respelled rules ⟨d, p⟩ ⟨d, rules.complete p⟩
  | directory : d.components = e.components → Respelled rules ⟨d, p⟩ ⟨e, p⟩

variable {rules : Rules} {r s : Reference}

theorem Respelled.place (slash : '/' ∉ rules.extension) (h : r.Respelled rules s) :
    r.place rules = s.place rules := by
  cases h with
  | here relative => exact congrArg rules.complete (Path.resolve_here _ relative).symm
  | back step relative => exact congrArg rules.complete (Path.resolve_back _ step relative).symm
  | slash => exact congrArg rules.complete (Path.resolve_slash _ _ _)
  | absolute root => exact congrArg rules.complete (Path.resolve_join root _ _).symm
  | extension => exact (Path.complete_resolve slash _ _).symm
  | directory same => exact congrArg rules.complete (Path.resolve_congr same _)

theorem place_of_respelled (slash : '/' ∉ rules.extension)
    (h : Relation.EqvGen (Respelled rules) r s) : r.place rules = s.place rules := by
  induction h with
  | rel _ _ step => exact step.place slash
  | refl => rfl
  | symm _ _ _ ih => exact ih.symm
  | trans _ _ _ _ _ ih ih' => exact ih.trans ih'

end Reference

end PugWeave
