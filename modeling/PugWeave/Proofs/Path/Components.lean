import Mathlib.Tactic.Tauto
import PugWeave.Path.Extension

namespace PugWeave

namespace Text

theorem consFirst_eq_modifyHead (c : Char) {ps : List Text} (h : ps ≠ []) :
    consFirst c ps = ps.modifyHead (c :: ·) := by
  cases ps with
  | nil => exact absurd rfl h
  | cons p ps => rfl

theorem split_singleton (c : Char) (t : Text) : split [c] t = t.splitOn c := by
  simp only [split, List.isEmpty_cons, Bool.false_eq_true, if_false]
  induction t with
  | nil => simp [splitFrom, List.splitOn_nil]
  | cons d t ih =>
    rw [List.splitOn_cons_eq_if_modifyHead]
    by_cases h : d = c
    · simp [splitFrom, h, ih]
    · have h' : ¬c = d := fun e => h e.symm
      simp [splitFrom, h, h', ih, consFirst_eq_modifyHead _ (List.splitOn_ne_nil c t)]

end Text

namespace Path

theorem parts_eq (p : Path) : p.parts = p.text.splitOn '/' := Text.split_singleton _ _

theorem parts_ne_nil (p : Path) : p.parts ≠ [] := by
  rw [parts_eq]
  exact List.splitOn_ne_nil _ _

def steps (parts : List Text) : List Component := parts.filterMap Component.ofPart?

@[simp] theorem steps_append (a b : List Text) : steps (a ++ b) = steps a ++ steps b :=
  List.filterMap_append

@[simp] theorem steps_empty : steps [[]] = [] := rfl

def ofPieces : List Text → List Component
  | [] => []
  | first :: rest =>
    (if first.isEmpty then [.root] else (Component.ofFirst? first).toList) ++ steps rest

theorem ofPieces_append {a : List Text} (h : a ≠ []) (b : List Text) :
    ofPieces (a ++ b) = ofPieces a ++ steps b := by
  cases a with
  | nil => exact absurd rfl h
  | cons first rest => simp [ofPieces]

theorem components_empty : components ⟨[]⟩ = [] := rfl

theorem components_eq_ofPieces {p : Path} (h : p.text ≠ []) : p.components = ofPieces p.parts := by
  obtain ⟨c, t, ht⟩ := List.exists_cons_of_ne_nil h
  have hp := parts_eq p
  rw [ht, List.splitOn_cons_eq_if_modifyHead] at hp
  obtain ⟨first, rest, hs⟩ := List.exists_cons_of_ne_nil (List.splitOn_ne_nil '/' t)
  by_cases hc : c = '/'
  · have : p.isAbsolute = true := by simp [isAbsolute, ht, hc]
    simp [components, this, hp, hc, ofPieces, steps, Component.ofPart?]
  · have : p.isAbsolute = false := by simp [isAbsolute, ht, hc]
    simp [components, this, hp, hc, hs, ofPieces, steps]

theorem ofFirst?_ne_none {first : Text} (h : first ≠ []) : Component.ofFirst? first ≠ none := by
  simp only [Component.ofFirst?, Component.ofPart?]
  repeat' split <;> simp_all

theorem components_eq_nil_iff {p : Path} : p.components = [] ↔ p.text = [] := by
  constructor
  · intro h
    refine Classical.byContradiction fun ht => ?_
    rw [components_eq_ofPieces ht] at h
    obtain ⟨first, rest, hs⟩ := List.exists_cons_of_ne_nil (parts_ne_nil p)
    rw [hs, ofPieces] at h
    by_cases hf : first = []
    · simp [hf] at h
    · have := ofFirst?_ne_none hf
      cases ho : Component.ofFirst? first <;> simp_all
  · intro h
    cases p
    subst h
    exact components_empty

theorem components_join {base r : Path} (hb : base.text ≠ []) (hr : r.isAbsolute = false) :
    (base.join r).components = base.components ++ steps r.parts := by
  rw [components_eq_ofPieces hb, join, hr]
  simp only [Bool.false_eq_true, if_false, List.isEmpty_eq_false_iff.2 hb, Bool.false_or]
  by_cases hl : base.text.getLast? = some '/'
  · obtain ⟨init, hi⟩ := List.getLast?_eq_some_iff.1 hl
    rw [if_pos (by simpa using hl), components_eq_ofPieces (by simp [hb])]
    simp only [parts_eq, hi, List.append_assoc, List.singleton_append,
      List.splitOn_append_cons_self, List.splitOn_nil]
    rw [ofPieces_append (List.splitOn_ne_nil _ _), ofPieces_append (List.splitOn_ne_nil _ _)]
    simp
  · rw [if_neg (by simpa using hl), components_eq_ofPieces (by simp)]
    simp only [parts_eq, List.splitOn_append_cons_self]
    rw [ofPieces_append (List.splitOn_ne_nil _ _)]

theorem resolve_congr {p q : Path} (h : p.components = q.components) (r : Path) :
    p.resolve r = q.resolve r := by
  have : (p.join r).components = (q.join r).components := by
    cases hr : r.isAbsolute with
    | true => simp [join, hr]
    | false =>
      by_cases hp : p.text = []
      · have hq : q.text = [] := by rw [← components_eq_nil_iff, ← h, components_eq_nil_iff, hp]
        simp [join, hp, hq]
      · have hq : q.text ≠ [] := by
          rwa [ne_eq, ← components_eq_nil_iff, ← h, components_eq_nil_iff]
        rw [components_join hp hr, components_join hq hr, h]
  simp [resolve, normalize, this]

def isNothing (part : Text) : Bool := (Component.ofPart? part).isNone

theorem dropSilent_append (r : List Text) (first : Text) :
    dropSilent (r ++ [first]) = r.dropWhile isNothing ++ [first] := by
  induction r with
  | nil => simp [dropSilent, isSilent]
  | cons part r ih =>
    have : isSilent (r ++ [first]) part = isNothing part := by
      simp only [isSilent, isNothing, Component.ofPart?]
      repeat' split <;> simp_all
    rw [List.cons_append, dropSilent, this, List.dropWhile_cons]
    split
    · exact ih
    · rfl

theorem steps_reverse_dropWhile (r : List Text) :
    steps (r.dropWhile isNothing).reverse = steps r.reverse := by
  induction r with
  | nil => rfl
  | cons part r ih =>
    rw [List.dropWhile_cons]
    split
    · rename_i hp
      simp only [isNothing, Option.isNone_iff_eq_none] at hp
      rw [ih, List.reverse_cons, steps_append]
      simp [steps, hp]
    · rfl

theorem components_ofParts {r : List Text} {first : Text} (h : ∀ t ∈ r ++ [first], '/' ∉ t)
    (hne : first ≠ [] ∨ r ≠ []) :
    (ofParts (r ++ [first])).components = ofPieces (first :: r.reverse) := by
  have hj : ofParts (r ++ [first]) = ⟨Text.join ['/'] (first :: r.reverse)⟩ := by
    simp only [ofParts]
    split
    · rename_i he
      cases r <;> simp_all
    · simp
  have ht : Text.join ['/'] (first :: r.reverse) ≠ [] := by
    intro h0
    have := congrArg (List.splitOn '/') h0
    rw [Text.join, List.splitOn_intercalate _ (by simpa [or_comm] using h) (by simp)] at this
    rw [List.splitOn_nil] at this
    simp_all
  rw [hj, components_eq_ofPieces (by simpa using ht), parts_eq]
  congr 1
  exact List.splitOn_intercalate _ (by simpa [or_comm] using h) (by simp)

theorem slash_not_mem_parts {p : Path} {t : Text} (h : t ∈ p.parts) : '/' ∉ t := by
  rw [parts_eq] at h
  generalize p.text = s at h
  induction s generalizing t with
  | nil => simp_all [List.splitOn_nil]
  | cons c s ih =>
    obtain ⟨first, rest, hs⟩ := List.exists_cons_of_ne_nil (List.splitOn_ne_nil '/' s)
    rw [List.splitOn_cons_eq_if_modifyHead, hs] at h
    rw [hs] at ih
    by_cases hc : c = '/'
    · simp only [hc, beq_self_eq_true, if_true, List.mem_cons] at h
      rcases h with rfl | h
      · simp
      · exact ih (by simpa using h)
    · simp only [beq_iff_eq, hc, if_false, List.modifyHead_cons, List.mem_cons] at h
      rcases h with rfl | h
      · have := ih (t := first) (by simp)
        simp [this, Ne.symm hc]
      · exact ih (by simp [h])

theorem parent_eq_ofParts {p : Path} {part first : Text} {before : List Text}
    (h : dropSilent p.parts.reverse = part :: (before ++ [first])) :
    p.parent = ofParts (before.dropWhile isNothing ++ [first]) := by
  obtain ⟨head, tail, hs⟩ := List.exists_cons_of_ne_nil (l := before ++ [first]) (by simp)
  rw [← dropSilent_append, hs, parent, h, hs]

theorem components_parent (p : Path) : p.parent.components = p.components.dropLast := by
  by_cases ht : p.text = []
  · obtain rfl : p = ⟨[]⟩ := by cases p; simp_all
    rfl
  obtain ⟨first, rest, hs⟩ := List.exists_cons_of_ne_nil (parts_ne_nil p)
  have hd : dropSilent p.parts.reverse = rest.reverse.dropWhile isNothing ++ [first] := by
    rw [hs, List.reverse_cons, dropSilent_append]
  have hc : steps rest = steps (rest.reverse.dropWhile isNothing).reverse := by
    rw [steps_reverse_dropWhile, List.reverse_reverse]
  rw [components_eq_ofPieces ht, hs, ofPieces, hc]
  cases hr : rest.reverse.dropWhile isNothing with
  | nil =>
    have : p.parent = ⟨[]⟩ := by simp [parent, hd, hr]
    rw [this, components_empty]
    split
    · rfl
    · cases Component.ofFirst? first <;> rfl
  | cons part before =>
    have hpart : Component.ofPart? part ≠ none := by
      have := List.head?_dropWhile_not isNothing rest.reverse
      simpa [hr, isNothing, ← Option.isSome_iff_ne_none] using this
    obtain ⟨c, hpc⟩ := Option.ne_none_iff_exists'.1 hpart
    have hlast : steps (part :: before).reverse = steps before.reverse ++ [c] := by
      simp [steps, hpc]
    have hp : p.parent = ofParts (before.dropWhile isNothing ++ [first]) :=
      parent_eq_ofParts (by rw [hd, hr, List.cons_append])
    rw [hp, hlast, ← List.append_assoc, List.dropLast_concat]
    -- The root is written with a slash although its only part is empty.
    by_cases hroot : first = [] ∧ before.dropWhile isNothing = []
    · have := steps_reverse_dropWhile before
      rw [hroot.2] at this
      simp [hroot.1, hroot.2, ofParts, ← this]
      rfl
    · have slash : ∀ t ∈ before.dropWhile isNothing ++ [first], '/' ∉ t := by
        intro t ht
        apply slash_not_mem_parts (p := p)
        rw [hs]
        rcases List.mem_append.1 ht with ht | ht
        · have hb : t ∈ rest.reverse.dropWhile isNothing :=
            hr ▸ List.mem_cons_of_mem _ ((List.dropWhile_sublist isNothing).mem ht)
          have := (List.dropWhile_sublist isNothing).mem hb
          simp_all
        · simp_all
      rw [components_ofParts slash (by tauto), ofPieces, steps_reverse_dropWhile]

theorem parent_resolve_congr {p q : Path} (h : p.components = q.components) (r : Path) :
    p.parent.resolve r = q.parent.resolve r :=
  resolve_congr (by rw [components_parent, components_parent, h]) r

end Path

end PugWeave
