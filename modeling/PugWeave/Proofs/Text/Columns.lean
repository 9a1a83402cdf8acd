import PugWeave.Proofs.Text.Leveling

namespace PugWeave.Text

def column (width : Nat) : Option Text → Nat → Nat
  | none, i => i
  | some unit, i =>
    if unit.all (· = ' ') then i / unit.length * width + i % unit.length else i

theorem all_space_iff {unit : Text} : unit.all (· = ' ') = true ↔ ∀ c ∈ unit, c = ' ' := by
  simp

theorem reindentLine_of_foreign {unit l : Text} {c : Char} (mem : c ∈ unit)
    (foreign : c ∉ indentation l) (width : Nat) : reindentLine unit width l = l := by
  rcases reindentLine_cases unit width l with same | ⟨n, left, pos, hl, -⟩
  · exact same
  · obtain ⟨n, rfl⟩ := Nat.exists_eq_add_of_le' pos
    rw [hl, repeated_succ] at foreign
    simp [mem] at foreign

theorem indentation_levelLine {unit : Option Text} (full : ∀ u ∈ unit, u ≠ []) {l : Text} {i : Nat}
    (h : indentation l = spaces i) (width : Nat) :
    indentation (levelLine width unit l) = spaces (column width unit i) := by
  cases unit with
  | none => exact h
  | some u =>
    rw [column]
    split
    · rename_i only
      obtain ⟨n, rfl⟩ : ∃ n, u = spaces n := ⟨u.length, eq_spaces (all_space_iff.1 only)⟩
      have parts : spaces i = repeated (i / n) (spaces n) ++ spaces (i % n) := by
        rw [repeated_spaces, spaces_append_spaces, Nat.div_add_mod']
      have few : i % n < (spaces n).length := by
        have pos := List.length_pos_of_ne_nil (full _ rfl)
        rw [length_spaces] at pos ⊢
        exact Nat.mod_lt i pos
      rw [length_spaces]
      by_cases fits : Fits width (some (spaces n))
      · obtain rfl : n = width := (byteLength_spaces n).symm.trans (fits _ rfl).2
        rw [levelLine_of_fits fits, id, h, Nat.div_add_mod']
      · rw [levelLine_of_not_fits fits]
        exact indentation_reindentLine (h.trans parts) few width
    · rename_i mixed
      obtain ⟨c, mem, other⟩ : ∃ c ∈ u, c ≠ ' ' := by simpa using mixed
      have foreign : c ∉ indentation l := by
        rw [h]
        exact fun hc => other (List.eq_of_mem_replicate hc)
      by_cases fits : Fits width (some u)
      · rw [levelLine_of_fits fits, id, h]
      · rw [levelLine_of_not_fits fits, reindentLine_of_foreign mem foreign, h]

theorem column_le_column_iff {width i j : Nat} (order : i ≤ j) (unit : Option Text) :
    column width unit i ≤ column width unit j ↔
      ∀ u ∈ unit, (∀ c ∈ u, c = ' ') →
        i % u.length ≤ j % u.length + (j / u.length - i / u.length) * width := by
  cases unit with
  | none => simpa [column] using order
  | some u =>
    simp only [column, Option.mem_some_iff, forall_eq']
    split
    · rename_i only
      obtain ⟨more, hm⟩ := Nat.exists_eq_add_of_le (Nat.div_le_div_right (c := u.length) order)
      rw [hm, Nat.add_mul, Nat.add_sub_cancel_left, forall_prop_of_true (all_space_iff.1 only)]
      omega
    · rename_i mixed
      exact iff_of_true order fun only => absurd (all_space_iff.2 only) mixed

theorem column_mono {width : Nat} {unit : Option Text} (full : ∀ u ∈ unit, u ≠ [])
    (narrow : ∀ u ∈ unit, u.length ≤ width + 1) {i j : Nat} (order : i ≤ j) :
    column width unit i ≤ column width unit j := by
  rw [column_le_column_iff order]
  intro u hu _
  have small : i % u.length ≤ width :=
    Nat.le_of_lt_succ ((Nat.mod_lt i (List.length_pos_of_ne_nil (full u hu))).trans_le (narrow u hu))
  rcases Nat.eq_or_lt_of_le (Nat.div_le_div_right (c := u.length) order) with same | more
  · have hi := Nat.div_add_mod i u.length
    have hj := Nat.div_add_mod j u.length
    rw [same] at hi
    omega
  · have := Nat.mul_le_mul_right width (Nat.sub_pos_of_lt more)
    omega

/-- Two lines that are indented by spaces stay in order when the text is reindented, exactly if the
unit is none of spaces, or what the first has left over behind its whole units is not more than what
the second has left over and one level for each unit that it has more. They do for all units that
are at most one column wider than a level. -/
theorem reindent_order_iff (s : LineBreak) (width : Nat) {t l m : Text} {p q i j : Nat}
    (hl : (split s.text t)[p]? = some l) (hm : (split s.text t)[q]? = some m)
    (il : indentation l = spaces i) (im : indentation m = spaces j) (order : i ≤ j) :
    let made := split s.text (reindent width s.text t)
    let unit := detectUnit (split s.text t)
    ∃ l' m' i' j', made[p]? = some l' ∧ made[q]? = some m' ∧
      indentation l' = spaces i' ∧ indentation m' = spaces j' ∧
      (i' ≤ j' ↔ ∀ u ∈ unit, (∀ c ∈ u, c = ' ') →
        i % u.length ≤ j % u.length + (j / u.length - i / u.length) * width) ∧
      ((∀ u ∈ unit, u.length ≤ width + 1) → i' ≤ j') := by
  intro made unit
  have full : ∀ u ∈ unit, u ≠ [] := fun u hu => ne_nil_of_detectUnit hu
  exact ⟨_, _, column width unit i, column width unit j, getElem?_split_reindent hl width,
    getElem?_split_reindent hm width, indentation_levelLine full il width,
    indentation_levelLine full im width, column_le_column_iff order unit,
    fun narrow => column_mono full narrow order⟩

theorem reindent_order_iff_left_over :
    let ls := split ['\n'] "a\n    b\n   c\n        d".toList
    let made := split ['\n'] (reindent 2 ['\n'] "a\n    b\n   c\n        d".toList)
    ls[2]? = some "   c".toList ∧ ls[3]? = some "        d".toList ∧
      indentation "   c".toList = spaces 3 ∧ indentation "        d".toList = spaces 8 ∧ 3 ≤ 8 ∧
      ∃ l m i j, made[2]? = some l ∧ made[3]? = some m ∧
        indentation l = spaces i ∧ indentation m = spaces j ∧ i ≤ j := by
  intro ls made
  have hc : ls[2]? = some "   c".toList := by decide +kernel
  have hd : ls[3]? = some "        d".toList := by decide +kernel
  have unit : detectUnit ls = some (spaces 4) := by decide +kernel
  have ic : indentation "   c".toList = spaces 3 := by decide
  have jd : indentation "        d".toList = spaces 8 := by decide
  obtain ⟨l, m, i, j, hl, hm, il, im, order, -⟩ :=
    reindent_order_iff .lf 2 hc hd ic jd (by decide)
  refine ⟨hc, hd, ic, jd, by decide, l, m, i, j, hl, hm, il, im, order.2 fun u hu _ => ?_⟩
  obtain rfl := Option.some.inj (unit.symm.trans hu)
  decide

theorem reindent_inverts :
    reindent 2 ['\n'] "a\n    b\n   c".toList = "a\n  b\n   c".toList ∧
      (indentation "   c".toList).length ≤ (indentation "    b".toList).length ∧
      ¬(indentation "   c".toList).length ≤ (indentation "  b".toList).length := by
  decide +kernel

end PugWeave.Text
