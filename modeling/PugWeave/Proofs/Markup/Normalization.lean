import Mathlib.Data.List.Forall2
import PugWeave.Proofs.Markup.Margins
import PugWeave.Proofs.Text.Reindentation

namespace PugWeave

namespace Text

theorem join_cons (c : Char) {l m : Text} {ls : List Text} :
    join [c] (l :: m :: ls) = l ++ c :: join [c] (m :: ls) := join_cons_cons [c] l m ls

end Text

open Text

namespace Markup

namespace Lexer

def Remargined (K : Text → Text → Prop) (l l' : Text) : Prop :=
  trimStart l' = trimStart l ∧ (isBlankLine l = false → K (indentation l) (indentation l'))

def Ends (x : Text) : Prop := ∀ c ∈ x.head?, c = '\n'

theorem Ends.nil : Ends [] := by simp [Ends]

theorem Ends.newline (r : Text) : Ends ('\n' :: r) := by simp [Ends]

theorem takeWhile_line {l x : Text} (unbroken : '\n' ∉ l) (ends : Ends x) :
    (l ++ x).takeWhile (· ≠ '\n') = l := by
  have line : ∀ c ∈ l, decide (c ≠ '\n') = true := by
    intro c hc
    refine decide_eq_true ?_
    rintro rfl
    exact unbroken hc
  have stops : x.takeWhile (· ≠ '\n') = [] := by
    cases x with
    | nil => rfl
    | cons c x => simp [ends c rfl]
  rw [List.takeWhile_append_of_pos line, stops, List.append_nil]

section

variable {l x : Text} (unbroken : '\n' ∉ l) (ends : Ends x)
include unbroken ends

theorem margin_line : margin (l ++ x) = indentation l ∧ inward (l ++ x) = trimStart l ++ x := by
  induction l with
  | nil =>
    cases x with
    | nil => exact ⟨rfl, rfl⟩
    | cons c x =>
      obtain rfl := ends c rfl
      exact ⟨rfl, rfl⟩
  | cons c l ih =>
    rw [List.mem_cons, not_or] at unbroken
    obtain ⟨front, back⟩ := ih unbroken.2
    have other : c ≠ '\n' := Ne.symm unbroken.1
    cases hb : isBlank c with
    | true =>
      have marginal : isMarginal c = true := by simp [isMarginal, hb, other]
      constructor
      · rw [List.cons_append, margin, List.takeWhile_cons_of_pos marginal, indentation,
          List.takeWhile_cons_of_pos hb]
        exact congrArg _ front
      · rw [List.cons_append, inward, List.dropWhile_cons_of_pos marginal, Text.trimStart,
          List.dropWhile_cons_of_pos hb]
        exact back
    | false => simp [margin, inward, isMarginal, indentation, Text.trimStart, hb]

theorem body_line : body (l ++ x) = trimStart l := by
  rw [body, (margin_line unbroken ends).2]
  exact takeWhile_line (fun mem => unbroken ((List.dropWhile_suffix _).subset mem)) ends

end

section

variable {K : Text → Text → Prop}

theorem Respaced.line {l l' x x' : Text} (h : Remargined K l l') (unbroken : '\n' ∉ l)
    (unbroken' : '\n' ∉ l') (ends : Ends x) (behind : Respaced K x x') :
    Respaced K ('\n' :: (l ++ x)) ('\n' :: (l' ++ x')) := by
  have ends' : Ends x' := by rwa [Ends, behind.head?_eq]
  obtain ⟨front, back⟩ := margin_line unbroken ends
  obtain ⟨front', back'⟩ := margin_line unbroken' ends'
  refine .newline (fun full => ?_) ?_
  · rw [front, front']
    rw [body_line unbroken ends, ne_eq, trimStart_eq_nil_iff, Bool.not_eq_true] at full
    exact h.2 full
  · rw [back, back', h.1]
    exact .append (fun mem => unbroken ((List.dropWhile_suffix _).subset mem)) behind

theorem Respaced.of_lines {ls ls' : List Text} (h : List.Forall₂ (Remargined K) ls ls')
    (unbroken : ∀ l ∈ ls, '\n' ∉ l) (unbroken' : ∀ l ∈ ls', '\n' ∉ l) :
    Respaced K ('\n' :: join ['\n'] ls) ('\n' :: join ['\n'] ls') := by
  have last (l : Text) : join ['\n'] [l] = l ++ [] := by rw [join_singleton, List.append_nil]
  induction h with
  | nil => exact .newline (fun full => absurd rfl full) .nil
  | cons first rest ih =>
    rw [List.forall_mem_cons] at unbroken unbroken'
    have behind := ih unbroken.2 unbroken'.2
    cases rest with
    | nil =>
      rw [last, last]
      exact .line first unbroken.1 unbroken'.1 .nil .nil
    | cons =>
      rw [join_cons, join_cons]
      exact .line first unbroken.1 unbroken'.1 (.newline _) behind

theorem newline_not_mem_lines (t : Text) : ∀ l ∈ lines t, '\n' ∉ l := by
  intro l hl mem
  cases unbroken_of_mem_lines hl _ mem

theorem respaced_of_lines {t u : Text} (h : List.Forall₂ (Remargined K) (lines t) (lines u)) :
    Respaced K ('\n' :: join ['\n'] (lines t)) ('\n' :: join ['\n'] (lines u)) :=
  .of_lines h (newline_not_mem_lines t) (newline_not_mem_lines u)

end

end Lexer

open Lexer

theorem tokenize_eq_ok_iff {t : Text} {tokens : List Token} :
    tokenize t = .ok tokens ↔ ∃ read, spots t = .ok read ∧ read.map Spot.token = tokens := by
  rw [tokenize]
  cases spots t <;> simp [Except.map]

def ReadsAs (u : Text) (tokens : List Token) : Prop :=
  ∃ tokens', tokenize u = .ok tokens' ∧ tokens'.map Token.outline = tokens.map Token.outline

section

variable {K : Text → Text → Prop} {t u : Text} {tokens : List Token}

theorem readsAs_of_steady (steady : Steady K)
    (h : List.Forall₂ (Remargined K) (lines t) (lines u)) (ht : tokenize t = .ok tokens) :
    ReadsAs u tokens := by
  obtain ⟨read, hr, rfl⟩ := tokenize_eq_ok_iff.1 ht
  obtain ⟨read', hr', same⟩ := (respaced_of_lines h).readLines steady .none hr
  refine ⟨_, tokenize_eq_ok_iff.2 ⟨read', hr', rfl⟩, ?_⟩
  simpa [Function.comp_def] using same

theorem readsAs_iff (h : List.Forall₂ (Remargined K) (lines t) (lines u))
    (ht : tokenize t = .ok tokens) : ReadsAs u tokens ↔
      ∃ tokens', tokenize u = .ok tokens' ∧ tokens'.map Token.line = tokens.map Token.line := by
  refine exists_congr fun tokens' => and_congr_right fun hu =>
    ⟨lines_of_outlines id, fun same => ?_⟩
  obtain ⟨read, hr, rfl⟩ := tokenize_eq_ok_iff.1 ht
  obtain ⟨read', hr', rfl⟩ := tokenize_eq_ok_iff.1 hu
  have outlines := outlines_of_lines (respaced_of_lines h) hr hr'
    (by simpa [Function.comp_def] using same)
  simpa [Function.comp_def] using outlines

end

theorem remargined_of_sameBodies {t u : Text} (h : SameBodies t u) :
    List.Forall₂ (Remargined (Indented t u)) (lines t) (lines u) := by
  have paired : List.Forall₂ (fun l l' => trimStart l' = trimStart l) (lines t) (lines u) := by
    rw [SameBodies, ← List.forall₂_eq_eq_eq, List.forall₂_map_left_iff,
      List.forall₂_map_right_iff] at h
    exact h.flip
  obtain ⟨length, same⟩ := List.forall₂_iff_zip.1 paired
  exact List.forall₂_iff_zip.2 ⟨length, fun {l l'} mem =>
    ⟨same mem, fun full => ⟨(l, l'), mem, full, rfl, rfl⟩⟩⟩

theorem steady_eq : Steady Eq where
  order := by
    rintro a _ b _ rfl rfl
    rfl
  mixed := by
    rintro a _ rfl
    exact id

def Leveled (unit : Text) (width : Nat) (m m' : Text) : Prop :=
  ∃ n left, left < unit.length ∧ left < width ∧ m = repeated n unit ++ spaces left ∧
    m' = spaces (n * width + left)

theorem mul_add_lt_iff {base n m i j : Nat} (hi : i < base) (hj : j < base) :
    n * base + i < m * base + j ↔ n < m ∨ n = m ∧ i < j := by
  have below {n m : Nat} (h : n < m) : n * base + base ≤ m * base := by
    rw [← Nat.succ_mul]
    exact Nat.mul_le_mul_right base h
  rcases Nat.lt_trichotomy n m with h | rfl | h
  · have := below h
    omega
  · omega
  · have := below h
    omega

theorem isMixed_spaces (n : Nat) : isMixed (spaces n) = false := by
  simp [isMixed, spaces]

/-- Fewer spaces are left over than a unit or a level has, so that they never outweigh one. -/
theorem steady_leveled (unit : Text) (width : Nat) : Steady (Leveled unit width) where
  order := by
    rintro _ _ _ _ ⟨n, i, unitI, levelI, rfl, rfl⟩ ⟨m, j, unitJ, levelJ, rfl, rfl⟩
    simp only [List.length_append, length_repeated, spaces, List.length_replicate]
    rw [mul_add_lt_iff unitI unitJ, mul_add_lt_iff levelI levelJ]
  mixed := by
    rintro _ _ ⟨n, i, -, -, rfl, rfl⟩ mixed
    rw [isMixed_spaces] at mixed
    cases mixed

theorem exists_steady {width : Nat} {ls : List Text} (h : Regular width ls) :
    ∃ K, Steady K ∧ ∀ l ∈ ls, isBlankLine l = false →
      K (indentation l) (indentation (levelLine width (detectUnit ls) l)) := by
  cases hu : detectUnit ls with
  | none => exact ⟨Eq, steady_eq, fun _ _ _ => rfl⟩
  | some unit =>
    simp only [levelLine]
    split
    · exact ⟨Eq, steady_eq, fun _ _ _ => rfl⟩
    · refine ⟨Leveled unit width, steady_leveled unit width, fun l mem full => ?_⟩
      obtain ⟨n, left, hl, few, fewer⟩ := h unit hu l mem full
      exact ⟨n, left, few, fewer, hl, indentation_reindentLine hl few width⟩

/-- A normalized text is read as the text it was made of if its lines are indented regularly, or in
the same order as before and with no blanks newly mixed. What can differ is no more than the lines
that have tokens, as long as each line is the same behind its indentation. This is so if the text
has no other breaks than the one that is detected in it and the separator. -/
theorem readsAs_normalize (s : LineBreak) (width : Nat) {t : Text} {tokens : List Token}
    (h : tokenize t = .ok tokens) :
    let u := normalize width s.text t
    (SameBodies t u →
      (ReadsAs u tokens ↔
        ∃ tokens', tokenize u = .ok tokens' ∧ tokens'.map Token.line = tokens.map Token.line) ∧
      (Steady (Indented t u) → ReadsAs u tokens)) ∧
    ((∀ b ∈ lineBreaks t, b = LineBreak.detect t ∨ b = s) →
      SameBodies t u ∧ (Regular width (lines t) → ReadsAs u tokens)) := by
  intro u
  refine ⟨fun same => ?_, fun two => ?_⟩
  · have paired := remargined_of_sameBodies same
    exact ⟨readsAs_iff paired h, fun steady => readsAs_of_steady steady paired h⟩
  · refine ⟨sameBodies_normalize two width, fun regular => ?_⟩
    obtain ⟨K, steady, margins⟩ := exists_steady regular
    refine readsAs_of_steady steady ?_ h
    rw [lines_normalize two, List.forall₂_map_right_iff, List.forall₂_same]
    exact fun l mem => ⟨trimStart_levelLine width _ l, margins l mem⟩

theorem readsAs_normalize_tabs :
    let t := "ul\r\n\tli\r\n\t\ta(href='x')\r\n\tp.\r\n\t\t\traw\r\n\timg".toList
    let tokens := [.tag "ul".toList 1, .tag "li".toList 2, .tag "a".toList 3,
      .attr "href".toList "'x'".toList 3, .tag "p".toList 4, .tag "img".toList 6]
    tokenize t = .ok tokens ∧ Regular 2 (lines t) ∧ ReadsAs (normalize 2 ['\n'] t) tokens := by
  intro t tokens
  have read : tokenize t = .ok tokens := by decide +kernel
  have two : ∀ b ∈ lineBreaks t, b = LineBreak.detect t ∨ b = .lf := by decide +kernel
  have regular : Regular 2 (lines t) := by
    intro unit hu l hl _
    obtain rfl : unit = ['\t'] := by
      have tab : detectUnit (lines t) = some ['\t'] := by decide +kernel
      exact Option.some.inj (hu.symm.trans tab)
    refine ⟨(indentation l).length, 0, ?_, Nat.one_pos, Nat.two_pos⟩
    have tabs : ∀ l ∈ lines t, indentation l = repeated (indentation l).length ['\t'] ++ [] := by
      decide +kernel
    exact tabs l hl
  exact ⟨read, regular, ((readsAs_normalize .lf 2 read).2 two).2 regular⟩

theorem tokenize_normalize_two_tabs :
    let t := "ul\n\t\tli\n\t\t\ta".toList
    tokenize t = .ok [.tag "ul".toList 1, .tag "li".toList 2, .tag "a".toList 3] ∧
      normalize 2 ['\n'] t = "ul\n  li\n  \ta".toList ∧
      tokenize (normalize 2 ['\n'] t) = .error ⟨3, .mixedIndentation⟩ := by decide +kernel

end Markup

end PugWeave
