import PugWeave.Proofs.Text.FullLines

namespace PugWeave.Text

variable {s : LineBreak}

theorem split_eq_splitFrom (s : LineBreak) (t : Text) : split s.text t = splitFrom s.text 0 t := by
  rw [split, if_neg (by simpa using s.text_ne_nil)]

theorem split_ne_nil (s : LineBreak) (t : Text) : split s.text t ≠ [] := by
  rw [split_eq_splitFrom]
  exact splitFrom_ne_nil _ _ _

theorem whole_of_mem_split {l t : Text} (h : l ∈ split s.text t) : ¬s.text <:+: l := by
  rw [split_eq_splitFrom] at h
  exact (not_infix_of_mem_splitFrom s.text_ne_nil 0 t).1 l h

theorem whole_of_unbroken {l : Text} (unbroken : ∀ c ∈ l, isBreak c = false) : ¬s.text <:+: l := by
  intro inside
  obtain ⟨c, r, sep, -, broken⟩ := s.exists_text
  rw [unbroken c (inside.subset (sep ▸ List.mem_cons_self))] at broken
  cases broken

theorem split_of_whole {l : Text} (whole : ¬s.text <:+: l) : split s.text l = [l] := by
  rw [split_eq_splitFrom, splitFrom_of_not_infix whole]

theorem split_append (s : LineBreak) (a b : Text) :
    split s.text (a ++ (s.text ++ b)) = split s.text a ++ split s.text b := by
  obtain ⟨c, r, sep, new, -⟩ := s.exists_text
  rw [split_eq_splitFrom, split_eq_splitFrom, split_eq_splitFrom, sep]
  exact splitFrom_append new a b (Nat.zero_le _)

theorem split_join {pieces : List Text} (ne : pieces ≠ [])
    (whole : ∀ l ∈ pieces, ¬s.text <:+: l) : split s.text (join s.text pieces) = pieces := by
  induction pieces with
  | nil => exact absurd rfl ne
  | cons l rest ih =>
    rw [List.forall_mem_cons] at whole
    cases rest with
    | nil => rw [join_singleton, split_of_whole whole.1]
    | cons m rest =>
      rw [join_cons_cons, split_append, split_of_whole whole.1, ih (List.cons_ne_nil _ _) whole.2]
      rfl

theorem infix_iff_of_split {t : Text} : s.text <:+: t ↔ 1 < (split s.text t).length := by
  constructor
  · intro h
    by_contra few
    obtain ⟨l, rest, hl⟩ := List.exists_cons_of_ne_nil (split_ne_nil s t)
    obtain rfl : rest = [] := by
      rw [hl, List.length_cons] at few
      exact List.eq_nil_of_length_eq_zero (by omega)
    have back := join_split s.text_ne_nil t
    rw [hl, join_singleton] at back
    exact whole_of_mem_split (hl ▸ List.mem_singleton_self l) (back ▸ h)
  · intro h
    by_contra whole
    rw [split_of_whole whole] at h
    exact Nat.lt_irrefl _ h

end PugWeave.Text
