import PugWeave.Proofs.Text.Reindentation

namespace PugWeave.Text

def Fits (width : Nat) (unit : Option Text) : Prop :=
  ∀ u ∈ unit, u.contains '\t' = false ∧ byteLength u = width

theorem levelLine_of_fits {width : Nat} {unit : Option Text} (h : Fits width unit) :
    levelLine width unit = id := by
  cases unit with
  | none => rfl
  | some u =>
    obtain ⟨noTab, wide⟩ := h u rfl
    rw [levelLine, noTab, if_pos (by simpa using wide)]

theorem levelLine_of_not_fits {width : Nat} {u : Text} (h : ¬Fits width (some u)) :
    levelLine width (some u) = reindentLine u width := by
  rw [levelLine, if_neg]
  intro fits
  rw [Bool.and_eq_true, decide_eq_true_iff] at fits
  refine h fun v hv => ?_
  obtain rfl := Option.some.inj hv
  exact ⟨by simpa using fits.1, fits.2⟩

theorem fits_spaces (width : Nat) : Fits width (some (spaces width)) := by
  intro u hu
  obtain rfl := Option.some.inj hu
  exact ⟨by simp [spaces], byteLength_spaces width⟩

theorem detectUnit_cons (l : Text) (ls : List Text) :
    detectUnit (l :: ls) =
      if isBlankLine l || (indentation l).isEmpty then detectUnit ls else some (indentation l) := by
  cases blank : isBlankLine l <;> cases flat : (indentation l).isEmpty <;>
    simp [detectUnit, blank, flat]

theorem ne_nil_of_detectUnit {ls : List Text} {unit : Text} (h : detectUnit ls = some unit) :
    unit ≠ [] := by
  have := List.find?_some h
  simpa using this

theorem isBlankLine_levelLine (width : Nat) (unit : Option Text) (l : Text) :
    isBlankLine (levelLine width unit l) = isBlankLine l := by
  rw [Bool.eq_iff_iff, ← trimStart_eq_nil_iff, ← trimStart_eq_nil_iff, trimStart_levelLine]

theorem levelLine_of_flat {l : Text} (flat : indentation l = []) (width : Nat)
    (unit : Option Text) (full : ∀ u ∈ unit, u ≠ []) : levelLine width unit l = l := by
  rcases levelLine_cases width unit l with same | ⟨u, hu, n, left, pos, hl, -⟩
  · exact same
  · obtain ⟨n, rfl⟩ := Nat.exists_eq_add_of_le' pos
    rw [flat, repeated_succ] at hl
    simp [full u hu] at hl

theorem indentation_reindentLine_repeated {unit l : Text} {n : Nat}
    (h : indentation l = repeated n unit) (ne : unit ≠ []) (width : Nat) :
    indentation (reindentLine unit width l) = spaces (n * width) := by
  have none : indentation l = repeated n unit ++ spaces 0 := h.trans (List.append_nil _).symm
  exact indentation_reindentLine none (List.length_pos_of_ne_nil ne) width

theorem detectUnit_map_levelLine {width : Nat} (wide : 0 < width) {ls : List Text} {unit : Text}
    (h : detectUnit ls = some unit) (misfit : ¬Fits width (some unit)) :
    detectUnit (ls.map (levelLine width (some unit))) = some (spaces width) := by
  have ne := ne_nil_of_detectUnit h
  induction ls with
  | nil => cases h
  | cons l rest ih =>
    rw [detectUnit_cons] at h
    rw [List.map_cons, detectUnit_cons, isBlankLine_levelLine]
    split at h
    · rename_i passed
      rw [if_pos, ih h]
      rcases Bool.or_eq_true_iff.1 passed with blank | flat
      · rw [blank, Bool.true_or]
      · rw [levelLine_of_flat (List.isEmpty_iff.1 flat) _ _ (by simpa using ne), flat, Bool.or_true]
    · rename_i found
      obtain rfl := Option.some.inj h
      have level : indentation (levelLine width (some (indentation l)) l) = spaces width := by
        rw [levelLine_of_not_fits misfit,
          indentation_reindentLine_repeated (n := 1) (by simp [repeated]) ne, Nat.one_mul]
      rw [level, if_neg]
      simp only [Bool.or_eq_true, not_or] at found ⊢
      exact ⟨found.1, by simp [spaces]; omega⟩

theorem fits_detectUnit {width : Nat} (wide : 0 < width) (ls : List Text) :
    Fits width (detectUnit (ls.map (levelLine width (detectUnit ls)))) := by
  by_cases fits : Fits width (detectUnit ls)
  · rwa [levelLine_of_fits fits, List.map_id]
  · cases hu : detectUnit ls with
    | none => exact absurd (by simp [Fits, hu]) fits
    | some unit =>
      rw [hu] at fits
      rw [detectUnit_map_levelLine wide hu fits]
      exact fits_spaces width

theorem whole_levelLine {s : LineBreak} {l : Text} (whole : ¬s.text <:+: l) (width : Nat)
    (unit : Option Text) : ¬s.text <:+: levelLine width unit l := by
  rcases levelLine_cases width unit l with same | ⟨u, -, n, left, -, hl, made⟩
  · rwa [same]
  · rw [made, infix_spaces_append]
    exact fun h => whole (h.trans (suffix_of_indentation hl).isInfix)

theorem split_reindent (width : Nat) (s : LineBreak) (t : Text) :
    split s.text (reindent width s.text t) =
      (split s.text t).map (levelLine width (detectUnit (split s.text t))) := by
  rw [reindent_eq, split_join]
  · simp [split_ne_nil]
  · intro l' hl'
    obtain ⟨l, hl, rfl⟩ := List.mem_map.1 hl'
    exact whole_levelLine (whole_of_mem_split hl) width _

theorem getElem?_split_reindent {s : LineBreak} {t l : Text} {p : Nat}
    (h : (split s.text t)[p]? = some l) (width : Nat) :
    (split s.text (reindent width s.text t))[p]? =
      some (levelLine width (detectUnit (split s.text t)) l) := by
  rw [split_reindent, List.getElem?_map, h]
  rfl

theorem reindent_reindent {width : Nat} (wide : 0 < width) (s : LineBreak) (t : Text) :
    reindent width s.text (reindent width s.text t) = reindent width s.text t := by
  rw [reindent_eq width s (reindent width s.text t), split_reindent,
    levelLine_of_fits (fits_detectUnit wide _), List.map_id, ← reindent_eq]

theorem repeated_spaces (n m : Nat) : repeated n (spaces m) = spaces (n * m) :=
  List.flatten_replicate_replicate

theorem levelLine_of_repeated {unit l : Text} {n : Nat} (h : indentation l = repeated n unit)
    (ne : unit ≠ []) (plain : ∀ c ∈ unit, c = ' ' ∨ c = '\t') (width : Nat) :
    levelLine width (some unit) l = spaces (n * width) ++ trimStart l := by
  have level : indentation (levelLine width (some unit) l) = spaces (n * width) := by
    by_cases fits : Fits width (some unit)
    · obtain ⟨noTab, wide⟩ := fits unit rfl
      have only : unit = spaces unit.length :=
        eq_spaces fun c hc => (plain c hc).resolve_right fun tab => by simp_all
      rw [only, byteLength_spaces] at wide
      rw [levelLine_of_fits fits, id, h, only, wide, repeated_spaces]
    · rw [levelLine_of_not_fits fits, indentation_reindentLine_repeated h ne]
  rw [← level, ← trimStart_levelLine width (some unit) l, indentation_append_trimStart]

/-- Reindenting a text keeps its lines, each with its text behind the indentation, makes `width`
spaces of each unit where lines are indented by whole units of spaces and tabs, and comes to an end
at once. -/
theorem reindent_exact (s : LineBreak) {width : Nat} (wide : 0 < width) (t : Text) :
    let ls := split s.text t
    let made := split s.text (reindent width s.text t)
    made.length = ls.length ∧ made.map trimStart = ls.map trimStart ∧
      (∀ unit ∈ detectUnit ls, (∀ c ∈ unit, c = ' ' ∨ c = '\t') →
        ∀ (p n : Nat) (l : Text), ls[p]? = some l → indentation l = repeated n unit →
          made[p]? = some (spaces (n * width) ++ trimStart l)) ∧
      reindent width s.text (reindent width s.text t) = reindent width s.text t := by
  intro ls made
  have lines : made = ls.map (levelLine width (detectUnit ls)) := split_reindent width s t
  refine ⟨by rw [lines, List.length_map], ?_, ?_, reindent_reindent wide s t⟩
  · rw [lines, List.map_map]
    exact List.map_congr_left fun l _ => trimStart_levelLine width _ l
  · intro unit hu plain p n l hl whole
    rw [getElem?_split_reindent hl, Option.mem_def.1 hu,
      levelLine_of_repeated whole (ne_nil_of_detectUnit hu) plain]

theorem reindent_exact_tabs :
    let t := "ul\r\n\t\tli\r\n\t\t\t\ta b\r\n   p".toList
    let ls := split LineBreak.crlf.text t
    let made := split LineBreak.crlf.text (reindent 2 LineBreak.crlf.text t)
    0 < 2 ∧ detectUnit ls = some ['\t', '\t'] ∧
      made.map trimStart = ["ul".toList, "li".toList, "a b".toList, "p".toList] ∧
      made[2]? = some "    a b".toList ∧
      reindent 2 LineBreak.crlf.text (reindent 2 LineBreak.crlf.text t) =
        reindent 2 LineBreak.crlf.text t := by
  intro t ls made
  have wide : 0 < 2 := by decide
  have unit : detectUnit ls = some ['\t', '\t'] := by decide +kernel
  have plain : ∀ c ∈ ['\t', '\t'], c = ' ' ∨ c = '\t' := by simp
  have texts : ls.map trimStart = ["ul".toList, "li".toList, "a b".toList, "p".toList] := by
    decide +kernel
  have third : ls[2]? = some "\t\t\t\ta b".toList := by decide +kernel
  have twice : indentation "\t\t\t\ta b".toList = repeated 2 ['\t', '\t'] := by decide
  have becomes : spaces (2 * 2) ++ trimStart "\t\t\t\ta b".toList = "    a b".toList := by decide
  obtain ⟨-, bodies, levels, still⟩ := reindent_exact .crlf wide t
  refine ⟨wide, unit, bodies.trans texts, ?_, still⟩
  rw [← becomes]
  exact levels _ unit plain 2 2 _ third twice

end PugWeave.Text
