import PugWeave.Proofs.Text.FullLines

namespace PugWeave.Text

def replaceAll (key value t : Text) : Text := join value (split key t)

section

variable {key : Text} (ne : key ≠ []) (value : Text)
include ne

theorem replaceAll_eq (t : Text) : replaceAll key value t = join value (splitFrom key 0 t) := by
  rw [replaceAll, split, if_neg (by simpa using ne)]

theorem replaceAll_nil : replaceAll key value [] = [] := by
  rw [replaceAll_eq ne]
  simp [splitFrom, join]

theorem replaceAll_key_append (rest : Text) :
    replaceAll key value (key ++ rest) = value ++ replaceAll key value rest := by
  obtain ⟨c, k, rfl⟩ := List.exists_cons_of_ne_nil ne
  have front : (c :: k).isPrefixOf (c :: (k ++ rest)) = true :=
    List.isPrefixOf_iff_prefix.2 (List.prefix_append (c :: k) rest)
  have behind : (k ++ rest).drop ((c :: k).length - 1) = rest := by simp
  rw [replaceAll_eq ne, replaceAll_eq ne, List.cons_append, splitFrom, if_pos front,
    splitFrom_eq_drop, behind, join, List.intercalate_cons_of_ne_nil (splitFrom_ne_nil _ _ _)]
  rfl

theorem replaceAll_cons {c : Char} {rest : Text} (h : ¬key <+: c :: rest) :
    replaceAll key value (c :: rest) = c :: replaceAll key value rest := by
  rw [replaceAll_eq ne, replaceAll_eq ne, splitFrom, if_neg, join_consFirst]
  rwa [List.isPrefixOf_iff_prefix]

theorem replaceAll_append_of_foreign {s : Text} (foreign : ∀ c ∈ s, c ∉ key) (rest : Text) :
    replaceAll key value (s ++ rest) = s ++ replaceAll key value rest := by
  induction s with
  | nil => rfl
  | cons c s ih =>
    rw [List.forall_mem_cons] at foreign
    rw [List.cons_append, replaceAll_cons ne value, ih foreign.2, List.cons_append]
    intro front
    obtain ⟨d, k, rfl⟩ := List.exists_cons_of_ne_nil ne
    obtain rfl := (List.cons_prefix_cons.1 front).1
    exact foreign.1 List.mem_cons_self

theorem replaceAll_append {x rest : Text} (free : ¬key <:+: x) (edge : ∀ c ∈ rest.head?, c ∉ key) :
    replaceAll key value (x ++ rest) = x ++ replaceAll key value rest := by
  induction x with
  | nil => rfl
  | cons c x ih =>
    rw [List.infix_cons_iff, not_or] at free
    rw [List.cons_append, replaceAll_cons ne value, ih free.2, List.cons_append]
    intro front
    rcases List.prefix_or_prefix_of_prefix front (List.prefix_append (c :: x) rest) with h | ⟨y, hy⟩
    · exact free.1 h
    · -- An occurrence that goes on behind the text begins its rest.
      cases y with
      | nil => exact free.1 (by simp [← hy])
      | cons d y =>
        rw [← hy, ← List.cons_append, List.prefix_append_right_inj] at front
        obtain ⟨z, rfl⟩ := front
        exact edge d rfl (hy ▸ by simp)

end

def interleave (f : α → Text) (pieces : List (α × Text)) : Text :=
  pieces.flatMap fun (a, s) => f a ++ s

theorem replaceAll_interleave {key value : Text} (ne : key ≠ []) {f g : α → Text}
    {pieces : List (α × Text)}
    (each : ∀ x ∈ pieces, f x.1 = key ∧ g x.1 = value ∨ ¬key <:+: f x.1 ∧ g x.1 = f x.1)
    (foreign : ∀ x ∈ pieces, ∀ c ∈ x.2, c ∉ key) (apart : ∀ x ∈ pieces.dropLast, x.2 ≠ []) :
    replaceAll key value (interleave f pieces) = interleave g pieces := by
  induction pieces with
  | nil => exact replaceAll_nil ne value
  | cons x rest ih =>
    obtain ⟨a, s⟩ := x
    rw [List.forall_mem_cons] at each foreign
    have later : replaceAll key value (interleave f rest) = interleave g rest := by
      refine ih each.2 foreign.2 fun y hy => ?_
      cases rest with
      | nil => cases hy
      | cons z rest => exact apart y (.tail _ hy)
    -- No occurrence reaches over the text behind a piece.
    have edge : ∀ c ∈ (s ++ interleave f rest).head?, c ∉ key := by
      intro c hc
      refine foreign.1 c ?_
      cases s with
      | cons d s => exact List.mem_of_mem_head? hc
      | nil =>
        cases rest with
        | nil => cases hc
        | cons z rest => exact absurd rfl (apart (a, []) List.mem_cons_self)
    have behind : replaceAll key value (s ++ interleave f rest) = s ++ interleave g rest := by
      rw [replaceAll_append_of_foreign ne value foreign.1, later]
    have front (h : α → Text) :
        interleave h ((a, s) :: rest) = h a ++ (s ++ interleave h rest) := by
      rw [interleave, List.flatMap_cons, List.append_assoc]
      rfl
    rw [front, front, ← behind]
    rcases each.1 with ⟨own, new⟩ | ⟨free, same⟩
    · have own : f a = key := own
      have new : g a = value := new
      rw [own, new, replaceAll_key_append ne]
    · have same : g a = f a := same
      rw [same, replaceAll_append ne value free edge]

end PugWeave.Text
