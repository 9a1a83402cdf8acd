import PugWeave.Proofs.Text.Respelling
import PugWeave.Text.Reindent

namespace PugWeave.Text

theorem isBlank_of_mem_indentation {l : Text} {c : Char} (h : c ∈ indentation l) :
    isBlank c = true := List.mem_takeWhile_imp h

theorem indentation_blank_append {b : Text} (blank : ∀ c ∈ b, isBlank c = true) (l : Text) :
    indentation (b ++ l) = b ++ indentation l := by
  rw [indentation, List.takeWhile_append_of_pos blank, indentation]

theorem indentation_trimStart (l : Text) : indentation (trimStart l) = [] := by
  rw [indentation, List.takeWhile_eq_nil_iff]
  intro pos
  have := head?_trimStart l (trimStart l)[0] (by simp [List.head?_eq_getElem?])
  simp [this]

theorem trimStart_trimStart (l : Text) : trimStart (trimStart l) = trimStart l :=
  List.dropWhile_idempotent _ _

theorem drop_of_indentation {l whole left : Text} (h : indentation l = whole ++ left) :
    l.drop whole.length = left ++ trimStart l := by
  conv_lhs => rw [← indentation_append_trimStart l, h, List.append_assoc]
  exact List.drop_left

theorem spaces_append_spaces (n m : Nat) : spaces n ++ spaces m = spaces (n + m) :=
  List.replicate_append_replicate

theorem byteLength_append (a b : Text) : byteLength (a ++ b) = byteLength a + byteLength b := by
  induction a with
  | nil => simp [byteLength]
  | cons c a ih => simp [byteLength, ih, Nat.add_assoc]

theorem length_le_byteLength (t : Text) : t.length ≤ byteLength t := by
  induction t with
  | nil => exact Nat.le_refl _
  | cons c t ih =>
    have := c.utf8Size_pos
    simp only [List.length_cons, byteLength]
    omega

theorem repeated_succ (n : Nat) (unit : Text) :
    repeated (n + 1) unit = unit ++ repeated n unit := by
  rw [repeated, List.replicate_succ, List.flatten_cons, repeated]

theorem length_repeated (n : Nat) (unit : Text) : (repeated n unit).length = n * unit.length := by
  simp [repeated]

theorem byteLength_repeated (n : Nat) (unit : Text) :
    byteLength (repeated n unit) = n * byteLength unit := by
  induction n with
  | zero => simp [repeated, byteLength]
  | succ n ih => rw [repeated_succ, byteLength_append, ih, Nat.succ_mul, Nat.add_comm]

theorem byteLength_spaces (n : Nat) : byteLength (spaces n) = n := by
  induction n with
  | zero => rfl
  | succ n ih =>
    rw [spaces, List.replicate_succ, byteLength, ← spaces, ih]
    exact Nat.add_comm _ _

theorem reindentLine_cases (unit : Text) (width : Nat) (l : Text) :
    reindentLine unit width l = l ∨ ∃ n left, 0 < n ∧ indentation l = repeated n unit ++ left ∧
      reindentLine unit width l = spaces (n * width) ++ (left ++ trimStart l) := by
  simp only [reindentLine, List.isPrefixOf_iff_prefix]
  generalize byteLength (indentation l) / byteLength unit = n
  split
  · rename_i front
    obtain ⟨left, hl⟩ := front
    rcases Nat.eq_zero_or_pos n with rfl | pos
    · simp [repeated, spaces]
    · exact .inr ⟨n, left, pos, hl.symm, congrArg _ (drop_of_indentation hl.symm)⟩
  · exact .inl rfl

theorem indentation_reindentLine {unit l : Text} {n left : Nat}
    (h : indentation l = repeated n unit ++ spaces left) (few : left < unit.length) (width : Nat) :
    indentation (reindentLine unit width l) = spaces (n * width + left) := by
  have levels : byteLength (indentation l) / byteLength unit = n := by
    have := length_le_byteLength unit
    rw [h, byteLength_append, byteLength_repeated, byteLength_spaces, Nat.mul_comm,
      Nat.mul_add_div (by omega), Nat.div_eq_of_lt (by omega), Nat.add_zero]
  simp only [reindentLine, levels]
  rw [if_pos (List.isPrefixOf_iff_prefix.2 (h ▸ List.prefix_append _ _)), drop_of_indentation h,
    ← List.append_assoc, spaces_append_spaces, indentation_blank_append (blank_spaces _),
    indentation_trimStart, List.append_nil]

def levelLine (width : Nat) : Option Text → Text → Text
  | none => id
  | some unit =>
    if !unit.contains '\t' && byteLength unit = width then id else reindentLine unit width

theorem levelLine_cases (width : Nat) (unit : Option Text) (l : Text) :
    levelLine width unit l = l ∨ ∃ u ∈ unit, ∃ n left, 0 < n ∧
      indentation l = repeated n u ++ left ∧
      levelLine width unit l = spaces (n * width) ++ (left ++ trimStart l) := by
  cases unit with
  | none => exact .inl rfl
  | some u =>
    rw [levelLine]
    split
    · exact .inl rfl
    · exact (reindentLine_cases u width l).imp_right fun h => ⟨u, rfl, h⟩

theorem suffix_of_indentation {l whole left : Text} (h : indentation l = whole ++ left) :
    left ++ trimStart l <:+ l :=
  drop_of_indentation h ▸ List.drop_suffix _ _

theorem trimStart_levelLine (width : Nat) (unit : Option Text) (l : Text) :
    trimStart (levelLine width unit l) = trimStart l := by
  rcases levelLine_cases width unit l with same | ⟨u, -, n, left, -, hl, made⟩
  · rw [same]
  · rw [made, trimStart_spaces_append, trimStart_blank_append, trimStart_trimStart]
    exact fun c hc => isBlank_of_mem_indentation (hl ▸ List.mem_append_right _ hc)

theorem mem_levelLine {width : Nat} {unit : Option Text} {l : Text} {c : Char}
    (h : c ∈ levelLine width unit l) : c = ' ' ∨ c ∈ l := by
  rcases levelLine_cases width unit l with same | ⟨u, -, n, left, -, hl, made⟩
  · exact .inr (same ▸ h)
  · rw [made, List.mem_append] at h
    exact h.imp List.eq_of_mem_replicate fun h => (suffix_of_indentation hl).subset h

theorem reindent_eq (width : Nat) (s : LineBreak) (t : Text) :
    reindent width s.text t =
      join s.text ((split s.text t).map (levelLine width (detectUnit (split s.text t)))) := by
  have same : t = join s.text ((split s.text t).map id) := by
    rw [List.map_id, join_split s.text_ne_nil]
  rw [reindent]
  split
  · rename_i h
    rw [h]
    exact same
  · rename_i unit h
    rw [h]
    simp only [levelLine]
    split
    · exact same
    · rfl

theorem normalize_eq {s : LineBreak} {t : Text}
    (two : ∀ b ∈ lineBreaks t, b = LineBreak.detect t ∨ b = s) (width : Nat) :
    normalize width s.text t =
      join s.text ((lines t).map (levelLine width (detectUnit (lines t)))) := by
  rw [normalize, reindent_eq, withSeparator_eq_join two, split_join_lines]

theorem lines_normalize {s : LineBreak} {t : Text}
    (two : ∀ b ∈ lineBreaks t, b = LineBreak.detect t ∨ b = s) (width : Nat) :
    lines (normalize width s.text t) = (lines t).map (levelLine width (detectUnit (lines t))) := by
  rw [normalize_eq two]
  refine lines_join s (by simp [lines_ne_nil]) fun l' hl' c hc => ?_
  obtain ⟨l, hl, rfl⟩ := List.mem_map.1 hl'
  rcases mem_levelLine hc with rfl | hc
  · rfl
  · exact unbroken_of_mem_lines hl c hc

def SameBodies (t u : Text) : Prop := (lines u).map trimStart = (lines t).map trimStart

def Indented (t u : Text) (m m' : Text) : Prop :=
  ∃ p ∈ (lines t).zip (lines u),
    isBlankLine p.1 = false ∧ indentation p.1 = m ∧ indentation p.2 = m'

/-- Lines are indented by whole units and by fewer further spaces than a unit has characters and a
level is wide. -/
def Regular (width : Nat) (ls : List Text) : Prop :=
  ∀ unit ∈ detectUnit ls, ∀ l ∈ ls, isBlankLine l = false → ∃ n left,
    indentation l = repeated n unit ++ spaces left ∧ left < unit.length ∧ left < width

theorem sameBodies_normalize {s : LineBreak} {t : Text}
    (two : ∀ b ∈ lineBreaks t, b = LineBreak.detect t ∨ b = s) (width : Nat) :
    SameBodies t (normalize width s.text t) := by
  rw [SameBodies, lines_normalize two, List.map_map]
  exact List.map_congr_left fun l _ => trimStart_levelLine width _ l

end PugWeave.Text
