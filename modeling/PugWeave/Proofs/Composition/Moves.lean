import Mathlib.Algebra.BigOperators.Ring.List
import Mathlib.Algebra.Order.BigOperators.Group.List
import Mathlib.Algebra.Ring.Int.Defs
import PugWeave.Proofs.Text.Pieces

namespace PugWeave.Composition

open Text

theorem exists_flush (l : Text) : ∃ n r, l = spaces n ++ r ∧ r.takeWhile (· = ' ') = [] := by
  have front : l.takeWhile (· = ' ') = spaces (l.takeWhile (· = ' ')).length :=
    eq_spaces fun c hc => by simpa using List.mem_takeWhile_imp hc
  refine ⟨(l.takeWhile (· = ' ')).length, l.dropWhile (· = ' '), ?_, ?_⟩
  · rw [← front, List.takeWhile_append_dropWhile]
  · rw [List.takeWhile_eq_nil_iff]
    exact fun pos => List.dropWhile_get_zero_not _ l pos

theorem shiftLine_of_flush {l : Text} (flush : l.takeWhile (· = ' ') = []) {columns : Int}
    (left : columns ≤ 0) : shiftLine columns l = l := by
  rw [shiftLine, if_neg (by omega), flush]
  simp

theorem shiftLine_shiftLine_left (a : Int) {b : Int} (left : b ≤ 0) (l : Text) :
    shiftLine b (shiftLine a l) = shiftLine (a + b) l := by
  obtain ⟨n, r, rfl, flush⟩ := exists_flush l
  rw [shiftLine_spaces_append, shiftLine_spaces_append]
  rcases Int.le_total 0 (a + n) with within | beyond
  · rw [shiftLine_shiftLine b within]
    congr 1
    omega
  · rw [shiftLine_of_flush flush beyond, shiftLine_of_flush flush left,
      shiftLine_of_flush flush (by omega)]

theorem shiftLine_add {a b : Int} (h : 0 ≤ a ∨ b ≤ 0) (l : Text) :
    shiftLine b (shiftLine a l) = shiftLine (a + b) l := by
  rcases h with right | left
  · rw [shiftLine_shiftLine b right, Int.add_comm]
  · exact shiftLine_shiftLine_left a left l

/-- A text that was moved has lost its blank lines, so that moving it back to its place is not the
same as leaving it there. -/
theorem shiftText_shiftText (s : LineBreak) {a b : Int} (h : 0 ≤ a ∨ b ≤ 0)
    (away : a + b = 0 → a = 0) (t : Text) :
    shiftText b s.text (shiftText a s.text t) = shiftText (a + b) s.text t := by
  by_cases ha : a = 0
  · rw [ha, shiftText_zero, Int.zero_add]
  by_cases hb : b = 0
  · rw [hb, shiftText_zero, Int.add_zero]
  rw [shiftText_of_ne hb, fullLines_shiftText, List.map_map, shiftText_of_ne (mt away ha)]
  congr 1
  exact List.map_congr_left fun l _ => shiftLine_add h l

def OneSided (moves : List Int) : Prop := (∀ a ∈ moves, 0 ≤ a) ∨ ∀ a ∈ moves, a ≤ 0

theorem OneSided.tail {a : Int} {moves : List Int} (h : OneSided (a :: moves)) : OneSided moves :=
  h.imp (fun h b hb => h b (.tail _ hb)) (fun h b hb => h b (.tail _ hb))

theorem OneSided.sum {a : Int} {moves : List Int} (h : OneSided (a :: moves)) :
    0 ≤ a ∧ 0 ≤ moves.sum ∨ a ≤ 0 ∧ moves.sum ≤ 0 := by
  rcases h with right | left
  · rw [List.forall_mem_cons] at right
    exact .inl ⟨right.1, List.sum_nonneg right.2⟩
  · rw [List.forall_mem_cons] at left
    exact .inr ⟨left.1, by simpa using List.sum_le_card_nsmul moves 0 left.2⟩

theorem foldl_shiftText (s : LineBreak) {moves : List Int} (side : OneSided moves) (t : Text) :
    moves.foldl (fun u a => shiftText a s.text u) t = shiftText moves.sum s.text t := by
  induction moves generalizing t with
  | nil => rw [List.foldl_nil, List.sum_nil, shiftText_zero]
  | cons a moves ih =>
    have sums := side.sum
    rw [List.foldl_cons, ih side.tail, List.sum_cons,
      shiftText_shiftText s (by omega) (by omega)]

theorem OneSided.mul {moves : List Int} (h : OneSided moves) (n : Nat) :
    OneSided (moves.map (· * (n : Int))) := by
  refine h.imp (fun right => ?_) (fun left => ?_) <;> rw [List.forall_mem_map]
  · exact fun a ha => Int.mul_nonneg (right a ha) (Int.natCast_nonneg n)
  · exact fun a ha => Int.mul_nonpos_of_nonpos_of_nonneg (left a ha) (Int.natCast_nonneg n)

theorem render_singleton (unit : Nat) (sep : Text) (row : Row) :
    render unit sep [row] = shiftText (row.indent * unit) sep row.text := by
  rw [render, List.map_singleton, join_singleton]

theorem foldl_render (s : LineBreak) (unit : Nat) {depths : List Int} (side : OneSided depths)
    (t : Text) :
    depths.foldl (fun u depth => render unit s.text [⟨depth, u⟩]) t =
      render unit s.text [⟨depths.sum, t⟩] := by
  have moves := foldl_shiftText s (side.mul unit) t
  rw [List.foldl_map, List.sum_map_mul_right, List.map_id'] at moves
  simp only [render_singleton]
  exact moves

/-- Moves of a text to one side come to one move: two of them by their sum, and so any number, and
so do the depths of documents in documents. -/
theorem shiftText_add (s : LineBreak) (t : Text) :
    (∀ a b : Int, 0 ≤ a ∧ 0 ≤ b ∨ a ≤ 0 ∧ b ≤ 0 →
      shiftText b s.text (shiftText a s.text t) = shiftText (a + b) s.text t) ∧
      (∀ moves : List Int, OneSided moves →
        moves.foldl (fun u a => shiftText a s.text u) t = shiftText moves.sum s.text t) ∧
      ∀ (unit : Nat) (depths : List Int), OneSided depths →
        depths.foldl (fun u depth => render unit s.text [⟨depth, u⟩]) t =
          render unit s.text [⟨depths.sum, t⟩] :=
  ⟨fun _ _ side => shiftText_shiftText s (by omega) (by omega) t,
    fun _ side => foldl_shiftText s side t, fun unit _ side => foldl_render s unit side t⟩

theorem shiftText_add_stripped :
    let t := "   p\r\n \r\n\n q\r\n      a".toList
    let sep := LineBreak.crlf.text
    (-3 : Int) ≤ 0 ∧ (-2 : Int) ≤ 0 ∧ OneSided [1, 2] ∧
      shiftText (-2) sep (shiftText (-3) sep t) = "p\r\n\n q\r\n a".toList ∧
      render 2 sep [⟨2, render 2 sep [⟨1, "p\r\n\r\n  a".toList⟩]⟩] =
        "      p\r\n        a".toList := by
  intro t sep
  have side : OneSided [1, 2] := .inl (by decide)
  obtain ⟨two, -, -⟩ := shiftText_add .crlf t
  have nested := (shiftText_add .crlf "p\r\n\r\n  a".toList).2.2 2 [1, 2] side
  rw [List.foldl_cons, List.foldl_cons, List.foldl_nil] at nested
  refine ⟨by decide, by decide, side, ?_, ?_⟩
  · exact (two (-3) (-2) (.inr (by decide))).trans (by decide +kernel)
  · exact nested.trans (by decide +kernel)

end PugWeave.Composition
