import PugWeave.Proofs.Text.Blanks
import PugWeave.Text.Lines

namespace PugWeave.Text

def unify : Text → Text
  | [] => []
  | '\r' :: '\n' :: r => '\n' :: unify r
  | c :: r => (if isBreak c then '\n' else c) :: unify r

theorem lines_ne_nil (t : Text) : lines t ≠ [] := by
  fun_cases lines t with
  | case4 c r =>
    cases lines r <;> simp [consFirst]
  | _ => simp

theorem join_lines (t : Text) : join ['\n'] (lines t) = unify t := by
  have fresh (r : Text) : join ['\n'] ([] :: lines r) = '\n' :: join ['\n'] (lines r) := by
    obtain ⟨p, ps, hr⟩ := List.exists_cons_of_ne_nil (lines_ne_nil r)
    simp [hr, join, List.intercalate]
  have longer (c : Char) (r : Text) :
      join ['\n'] (consFirst c (lines r)) = c :: join ['\n'] (lines r) := by
    obtain ⟨p, ps, hr⟩ := List.exists_cons_of_ne_nil (lines_ne_nil r)
    cases ps <;> simp [hr, join, List.intercalate, consFirst]
  fun_induction unify t with
  | case1 => rfl
  | case2 r ih => rw [lines, fresh, ih]
  | case3 c r single ih =>
    rw [lines]
    · split
      · rw [fresh, ih]
      · rw [longer, ih]
    · exact single

theorem unify_cons {c : Char} {r : Text} (h : isBreak c = false) : unify (c :: r) = c :: unify r := by
  rw [unify]
  · simp [h]
  · rintro r' rfl
    cases h

theorem unify_append {u t : Text} (h : u.getLast? ≠ some '\r' ∨ t.head? ≠ some '\n') :
    unify (u ++ t) = unify u ++ unify t := by
  fun_induction unify u with
  | case1 => rfl
  | case2 r ih =>
    have h : r.getLast? ≠ some '\r' ∨ t.head? ≠ some '\n' := by
      refine h.imp_left fun last => ?_
      cases r with
      | nil => simp
      | cons d r => simpa [List.getLast?_cons_cons] using last
    simp [unify, ih h]
  | case3 c r single ih =>
    have later : r.getLast? ≠ some '\r' ∨ t.head? ≠ some '\n' := by
      refine h.imp_left fun last => ?_
      cases r with
      | nil => simp
      | cons d r => simpa [List.getLast?_cons_cons] using last
    rw [List.cons_append, unify, ih later, List.cons_append]
    rintro r' rfl ht
    cases r with
    | nil => simp [show t = '\n' :: r' from ht] at h
    | cons d r =>
      cases ht
      exact single r rfl rfl

theorem unify_eq_self {t : Text} (h : ∀ c ∈ t, isBreak c = false) : unify t = t := by
  induction t with
  | nil => rfl
  | cons c r ih => rw [unify_cons (h c List.mem_cons_self), ih fun d hd => h d (.tail _ hd)]

theorem exists_of_unify {t x y : Text} (h : unify t = x ++ y) :
    ∃ u w, u ++ w = t ∧ unify u = x ∧ unify w = y := by
  fun_induction unify t generalizing x with
  | case1 =>
    obtain ⟨rfl, rfl⟩ : x = [] ∧ y = [] := by simpa using h.symm
    exact ⟨[], [], rfl, rfl, rfl⟩
  | case2 r ih =>
    cases x with
    | nil => exact ⟨[], '\r' :: '\n' :: r, rfl, rfl, by rw [unify, h, List.nil_append]⟩
    | cons d x =>
      obtain ⟨rfl, hr⟩ := List.cons_eq_cons.1 h
      obtain ⟨u, w, rfl, rfl, hy⟩ := ih hr
      exact ⟨'\r' :: '\n' :: u, w, rfl, by rw [unify], hy⟩
  | case3 c r single ih =>
    cases x with
    | nil => exact ⟨[], c :: r, rfl, rfl, by rw [unify, h, List.nil_append]; exact single⟩
    | cons d x =>
      obtain ⟨rfl, hr⟩ := List.cons_eq_cons.1 h
      obtain ⟨u, w, rfl, rfl, hy⟩ := ih hr
      refine ⟨c :: u, w, rfl, ?_, hy⟩
      rw [unify]
      rintro r' hc rfl
      exact single _ hc rfl

theorem eq_of_unify {t x : Text} (h : unify t = x) (unbroken : ∀ c ∈ x, isBreak c = false) :
    t = x := by
  subst h
  fun_induction unify t with
  | case1 => rfl
  | case2 r ih => cases unbroken '\n' List.mem_cons_self
  | case3 c r _ ih =>
    have tail := ih fun d hd => unbroken d (.tail _ hd)
    cases hc : isBreak c with
    | false => simpa using tail
    | true =>
      rw [if_pos hc] at unbroken
      cases unbroken '\n' List.mem_cons_self

theorem exists_of_unify_piece {t x piece y : Text} (h : unify t = x ++ (piece ++ y))
    (unbroken : ∀ c ∈ piece, isBreak c = false) :
    ∃ u w, u ++ (piece ++ w) = t ∧ unify u = x ∧ unify w = y := by
  obtain ⟨u, v, rfl, hu, hv⟩ := exists_of_unify h
  obtain ⟨p, w, rfl, hp, hw⟩ := exists_of_unify hv
  exact ⟨u, w, by rw [eq_of_unify hp unbroken], hu, hw⟩

theorem isBlankLine_unify (t : Text) : isBlankLine (unify t) = isBlankLine t := by
  fun_induction unify t with
  | case1 => rfl
  | case2 r ih => exact ih
  | case3 c r _ ih =>
    rw [isBlankLine, isBlankLine, List.all_cons, List.all_cons, ← isBlankLine, ← isBlankLine, ih]
    cases hc : isBreak c with
    | false => simp
    | true => simp [isBlank_of_isBreak hc, show isBlank '\n' = true from rfl]

theorem mem_unify {c : Char} {t : Text} (h : c ∈ unify t) : c ∈ t ∨ c = '\n' := by
  fun_induction unify t with
  | case1 => cases h
  | case2 r ih => grind
  | case3 d r _ ih => grind

theorem head?_unify {c : Char} {t : Text} (h : t.head? = some c) (hc : isBreak c = false) :
    (unify t).head? = some c := by
  obtain ⟨r, rfl⟩ : ∃ r, t = c :: r := List.head?_eq_some_iff.1 h
  rw [unify_cons hc, List.head?_cons]

theorem exists_of_length_unify_le {u z old s : Text} {c : Char} (hc : isBreak c = false)
    (split : u ++ c :: z = old ++ s) (le : (unify old).length ≤ (unify u).length) :
    ∃ x, u = old ++ x ∧ s = x ++ c :: z := by
  rcases List.append_eq_append_iff.1 split with ⟨x, rfl, hs⟩ | ⟨x, rfl, hs⟩
  · cases x with
    | nil => exact ⟨[], by simp, hs.symm⟩
    | cons d x =>
      cases hs
      have apart : (c :: x).head? ≠ some '\n' := by
        intro he
        cases he
        cases hc
      rw [unify_append (.inr apart), unify_cons hc, List.length_append, List.length_cons] at le
      omega
  · exact ⟨x, rfl, hs⟩

def newlines (t : Text) : Nat := (unify t).count '\n'

theorem newlines_append {u t : Text} (h : u.getLast? ≠ some '\r' ∨ t.head? ≠ some '\n') :
    newlines (u ++ t) = newlines u + newlines t := by
  rw [newlines, unify_append h, List.count_append, newlines, newlines]

theorem newlines_crlf (r : Text) : newlines ('\r' :: '\n' :: r) = newlines r + 1 := by
  simp [newlines, unify]

theorem newlines_break {c : Char} {r : Text} (h : isBreak c = true)
    (single : ∀ r', c = '\r' → r = '\n' :: r' → False) : newlines (c :: r) = newlines r + 1 := by
  rw [newlines, unify]
  · simp [h, newlines]
  · exact single

theorem newlines_cons {c : Char} {r : Text} (h : isBreak c = false) :
    newlines (c :: r) = newlines r := by
  have other : c ≠ '\n' := by
    rintro rfl
    cases h
  rw [newlines, unify_cons h, List.count_cons_of_ne other, newlines]

theorem newlines_eq_zero {t : Text} (h : ∀ c ∈ t, isBreak c = false) : newlines t = 0 := by
  rw [newlines, unify_eq_self h, List.count_eq_zero]
  intro hn
  cases h _ hn

end PugWeave.Text
