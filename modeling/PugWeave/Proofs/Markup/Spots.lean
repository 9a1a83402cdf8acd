import PugWeave.Proofs.Asset.Search
import PugWeave.Proofs.Markup.Passing

namespace PugWeave

namespace Markup

open Asset (Place isSign Signs)
open Lexer (Passed isPlainNameChar)
open Text

def Spot.StandsIn (spot : Spot) (s : Text) : Prop :=
  ∀ name value line, spot.token = .attr name (some value) line →
    ∃ rest, rest <:+ s ∧ rest.length = spot.left ∧ value <+: rest

structure Spelled (name written : Text) : Prop where
  longer : name.length ≤ written.length
  last : ∃ c, written.getLast? = some c ∧ isSign c = false ∧
    (isPlainNameChar c = true → written = name)

structure Written (s name value after : Text) : Prop where
  text : ∃ written sign, written ++ (sign ++ (value ++ after)) = s ∧ Spelled name written ∧ Signs sign
  closed : Place.Closed value
  trimmed : trim value = value
  ends : ∀ c ∈ after.head?, isBlank c = true ∨ c = ',' ∨ c = ')'

theorem Written.after_suffix {s name value after : Text} (h : Written s name value after) :
    value ++ after <:+ s := by
  obtain ⟨written, sign, rfl, -⟩ := h.text
  exact ⟨written ++ sign, List.append_assoc ..⟩

inductive Laid : Nat → Text → List Spot → Nat → Text → Prop
  | nil : Passed line s line' rest → Laid line s [] line' rest
  | bare : (∀ name value line, spot.token ≠ .attr name (some value) line) →
      Laid line s more line' rest → Laid line s (spot :: more) line' rest
  | value : Passed line s here t → Written t name value after → Passed here t mid m → m <:+ after →
      Laid mid m more line' rest →
      Laid line s (⟨.attr name (some value) here, (value ++ after).length⟩ :: more) line' rest

namespace Laid

variable {line mid line' : Nat} {s m rest : Text} {spots more : List Spot}

theorem of_passed (passed : Passed line s mid m) (h : Laid mid m spots line' rest) :
    Laid line s spots line' rest := by
  induction h generalizing line s with
  | nil h => exact .nil (passed.trans h)
  | bare none _ ih => exact .bare none (ih passed)
  | value front written back suffix later => exact .value (passed.trans front) written back suffix later

theorem append (h : Laid line s spots mid m) (later : Laid mid m more line' rest) :
    Laid line s (spots ++ more) line' rest := by
  induction h with
  | nil h => exact later.of_passed h
  | bare none _ ih => exact .bare none (ih later)
  | value front written back suffix _ ih => exact .value front written back suffix (ih later)

end Laid

namespace Lexer

variable {line opened : Nat} {s : Text} {read : List Spot} {cursor : Cursor}

theorem closed_of_readValue {depth : Nat} {last : Char} {t read : Text}
    (h : readValue opened depth last line t = .ok (read, cursor)) : Place.Closed read := by
  fun_induction readValue opened depth last line t generalizing read with
  | case3 _ _ _ _ _ hc body rest hs _ ih =>
    obtain ⟨tail, hr, rfl⟩ := passing_eq_ok_iff.1 h
    exact (closed_of_readString hc hs).append (ih hr)
  | case4 | case5 | case7 | case8 =>
    rename_i ih
    obtain ⟨tail, hr, rfl⟩ := passing_eq_ok_iff.1 h
    refine (Place.closed_of_plain ?_).append (ih hr)
    simp_all
  | case9 =>
    rename_i ih
    obtain ⟨tail, hr, rfl⟩ := passing_eq_ok_iff.1 h
    refine (Place.closed_of_plain (not_quote_of_blank_run ?_)).append (ih hr)
    simp_all
  | case6 | case10 =>
    cases h
    exact Place.closed_nil
  | _ => simp_all

theorem ends_of_readValue {depth : Nat} {last : Char} {t read : Text}
    (h : readValue opened depth last line t = .ok (read, cursor)) :
    ∀ c ∈ cursor.rest.head?, isBlank c = true ∨ c = ',' ∨ c = ')' := by
  fun_induction readValue opened depth last line t generalizing read with
  | case3 | case4 | case5 | case7 | case8 | case9 =>
    rename_i ih
    obtain ⟨tail, hr, rfl⟩ := passing_eq_ok_iff.1 h
    exact ih hr
  | case6 | case10 =>
    cases h
    simp_all [or_comm]
  | _ => simp_all

theorem isPlainNameChar_iff {c : Char} : isPlainNameChar c = true ↔
    isBlank c = false ∧ c ∉ ['=', '!', ',', ')', '(', apostrophe, quotationMark] := by
  simp [isPlainNameChar]

theorem isSign_of_isPlainNameChar {c : Char} (h : isPlainNameChar c = true) :
    isSign c = false := by
  obtain ⟨blank, other⟩ := isPlainNameChar_iff.1 h
  simp only [List.mem_cons, not_or] at other
  simp [isSign, blank, other]

theorem isBreak_of_isPlainNameChar {c : Char} (h : isPlainNameChar c = true) :
    isBreak c = false := by
  cases hc : isBreak c with
  | false => rfl
  | true =>
    have blank := isBlank_of_isBreak hc
    rw [(isPlainNameChar_iff.1 h).1] at blank
    cases blank

theorem isQuote_of_isPlainNameChar {c : Char} (h : isPlainNameChar c = true)
    (other : c ≠ backtick) : isQuote c = false := by
  have := (isPlainNameChar_iff.1 h).2
  simp_all [isQuote]

theorem spelled_quoted {c : Char} {r body rest : Text} (hc : c = apostrophe ∨ c = quotationMark)
    (h : readString c line r = .ok (body, rest)) :
    Spelled body.dropLast (c :: body) ∧ Passed line (c :: r) line rest := by
  obtain ⟨quote, single, nosign, other⟩ : isQuote c = true ∧ c ≠ backtick ∧ isSign c = false ∧
      isPlainNameChar c = false := by
    rcases hc with rfl | rfl <;> decide
  have slash : c ≠ '\\' := by
    rintro rfl
    cases quote
  have last : (c :: body).getLast? = some c := by
    simp [List.getLast?_cons, (scan_of_readString slash h).2]
  refine ⟨⟨by simp; omega, c, last, nosign, by simp [other]⟩, ?_⟩
  have inline : breaks body = 0 :=
    List.count_eq_zero.2 (newline_not_mem_of_readString quote single h)
  have passed := passed_of_readString quote h line
  rwa [inline, Nat.add_zero] at passed

theorem spelled_plain {c : Char} (hc : isPlainNameChar c = true) (r : Text) :
    Spelled (c :: r.takeWhile isPlainNameChar) (c :: r.takeWhile isPlainNameChar) ∧
      Passed line (c :: r) line (r.dropWhile isPlainNameChar) := by
  have plain : ∀ d ∈ c :: r.takeWhile isPlainNameChar, isPlainNameChar d = true := by
    intro d hd
    rcases List.mem_cons.1 hd with rfl | hd
    · exact hc
    · exact List.mem_takeWhile_imp hd
  have last := plain _ (List.getLast_mem (List.cons_ne_nil _ _))
  have whole : c :: r.takeWhile isPlainNameChar ++ r.dropWhile isPlainNameChar = c :: r := by simp
  refine ⟨⟨Nat.le_refl _, _, List.getLast?_eq_some_getLast (List.cons_ne_nil _ _),
    isSign_of_isPlainNameChar last, fun _ => rfl⟩, ⟨_, whole, ?_, fun clean => ?_⟩⟩
  · rw [breaks, List.count_eq_zero.2, Nat.add_zero]
    intro hn
    cases isBreak_of_isPlainNameChar (plain _ hn)
  · refine Place.calm_of_plain fun d hd => isQuote_of_isPlainNameChar (plain d hd) ?_
    rintro rfl
    exact (not_mem_of_tidy clean).2 (whole ▸ List.mem_append_left _ hd)

theorem exists_spelled_of_readName {c : Char} {r name rest : Text}
    (h : readName line c r = .ok (name, rest)) :
    ∃ written, written ++ rest = c :: r ∧ Spelled name written ∧ Passed line (c :: r) line rest := by
  simp only [readName] at h
  split at h
  · rename_i hc
    cases hs : readString c line r with
    | error => simp [hs, Except.map] at h
    | ok p =>
      obtain ⟨body, rest'⟩ := p
      obtain ⟨rfl, rfl⟩ : body.dropLast = name ∧ rest' = rest := by simpa [hs, Except.map] using h
      exact ⟨c :: body, by simp [append_of_readString hs], spelled_quoted (by simpa using hc) hs⟩
  · split at h
    · rename_i hc
      cases h
      exact ⟨c :: r.takeWhile isPlainNameChar, by simp, spelled_plain hc r⟩
    · cases h

theorem laid_of_readAttr {c : Char} {r : Text} {spot : Spot}
    (h : readAttr opened line c r = .ok (spot, cursor)) :
    Laid line (c :: r) [spot] cursor.line cursor.rest := by
  simp only [readAttr] at h
  split at h
  · cases h
  · rename_i name rest hn
    obtain ⟨written, front, spelled, name⟩ := exists_spelled_of_readName hn
    split at h
    · cases h
      exact .bare (by simp) (.nil name)
    · rename_i s ha
      split at h
      · cases h
      · rename_i read cursor' hv
        cases h
        have whole := append_of_readValue hv
        obtain ⟨b, blank, back⟩ := exists_blank_trimEnd read
        have trimmed := trim_of_append whole
        have value : trim read ++ (b ++ cursor.rest) = trimStart s := by
          rw [trimmed, ← List.append_assoc, back, whole]
        obtain ⟨margin, equals, hs, blanks, hequals⟩ := exists_of_assigned? ha
        have ahead : Passed line (c :: r) cursor.line cursor.rest :=
          (name.trans (passed_of_assigned? ha line)).trans
            ((passed_indentation line s).trans (passed_of_readValue hv))
        rw [← value]
        refine .value (.refl _ _) ⟨⟨written, margin ++ (equals ++ indentation s), ?_, spelled,
          ⟨margin, equals, indentation s, rfl, ?_, List.all_takeWhile, hequals⟩⟩, ?_, ?_, ?_⟩ ahead
          (List.suffix_append b cursor.rest) (.nil (.refl _ _))
        · rw [value, List.append_assoc, List.append_assoc, indentation_append_trimStart, hs, front]
        · refine List.all_eq_true.2 fun d hd => ?_
          have : d = ' ' ∨ d = '\t' := by simpa [isSpaceOrTab] using blanks d hd
          rcases this with rfl | rfl <;> rfl
        · rw [trimmed]
          exact Place.Closed.of_blank (back.symm ▸ closed_of_readValue hv) blank
        · rw [trim_of_append value, trimmed, trimEnd_trimEnd]
        · cases b with
          | nil => exact ends_of_readValue hv
          | cons d b =>
            rw [isBlankLine, List.all_cons, Bool.and_eq_true] at blank
            simpa using .inl blank.1

theorem laid_of_readList (h : readList opened line s = .ok (read, cursor)) :
    Laid line s read cursor.line cursor.rest := by
  fun_induction readList opened line s generalizing read with
  | case2 _ _ _ separates ih => exact (ih h).of_passed (passed_separator separates _)
  | case3 =>
    cases h
    exact .nil (.inner _ _ _ rfl (by decide))
  | case5 _ _ _ _ _ _ _ ha _ ih =>
    obtain ⟨tail, hr, rfl⟩ := passing_eq_ok_iff.1 h
    exact (laid_of_readAttr ha).append (ih hr)
  | _ => simp_all

theorem laid_of_readTail (h : readTail line s = .ok (read, cursor)) :
    Laid line s read cursor.line cursor.rest := by
  fun_induction readTail line s generalizing read with
  | case1 | case7 =>
    cases h
    exact .nil (.refl _ _)
  | case2 _ _ _ dot _ ih => exact (ih h).of_passed (passed_shorthand dot _)
  | case4 _ _ _ _ hl _ _ ih =>
    obtain ⟨tail, hr, rfl⟩ := passing_eq_ok_iff.1 h
    exact ((laid_of_readList hl).append (ih hr)).of_passed (.inner _ _ _ rfl (by decide))
  | case6 _ _ _ _ _ attr _ hl _ ih =>
    obtain ⟨hc, attr⟩ := Bool.and_eq_true_iff.1 attr
    rw [of_decide_eq_true hc]
    exact (ih h).of_passed (passed_spread attr hl)
  | _ => simp at h

theorem laid_tag {line' : Nat} {rest : Text} {more : List Spot} (line : Nat)
    (h : Laid line (tagName s).2 more line' rest) : Laid line s (tagSpot line s :: more) line' rest :=
  .bare (by simp [tagSpot]) (h.of_passed (passed_tagName line s))

theorem laid_of_readTags {opens : Bool} (h : readTags line s = .ok (read, opens, cursor)) :
    Laid line s read cursor.line cursor.rest := by
  fun_induction readTags line s generalizing read with
  | case1 =>
    cases h
    exact .nil (.refl _ _)
  | case2 => simp at h
  | case3 _ s _ _ _ ht _ =>
    cases h
    exact laid_tag _ (laid_of_readTail ht)
  | case4 _ s _ _ _ ht _ hn _ _ _ ih =>
    obtain ⟨tail, hr, rfl⟩ := passing_eq_ok_iff.1 h
    have nested := (ih hr).of_passed (passed_of_nested? hn _)
    exact laid_tag _ ((laid_of_readTail ht).append nested)

theorem laid_of_readLine {block block' : Option Nat}
    (h : readLine block line s = .ok (read, block', cursor)) :
    Laid line s read cursor.line cursor.rest := by
  simp only [readLine] at h
  split at h
  · cases h
    exact .nil (.refl _ _)
  · split at h
    · cases h
    · split at h
      · cases h
        exact .nil (.refl _ _)
      · cases h
        exact .nil (.refl _ _)
      · split at h
        · cases h
        · rename_i ht
          cases h
          exact (laid_of_readTags ht).of_passed (passed_margin line s)

theorem laid_of_readLines {block : Option Nat} (h : readLines block line s = .ok read) :
    ∃ line' rest, Laid line s read line' rest := by
  fun_induction readLines block line s generalizing read with
  | case1 => cases h
  | case2 _ _ _ _ _ cursor hl =>
    cases h
    exact ⟨_, _, laid_of_readLine hl⟩
  | case3 block line s first block' cursor hl c rest hd _ _ ih =>
    cases hr : readLines block' (cursor.line + 1) rest with
    | error e => simp [hr, Except.map] at h
    | ok later =>
      rw [hr] at h
      cases h
      obtain ⟨line', last, laid⟩ := ih hr
      exact ⟨line', last, (laid_of_readLine hl).append (laid.of_passed (passed_line hd _))⟩

end Lexer

theorem laid_of_spots {t : Text} {found : List Spot} (h : spots t = .ok found) :
    ∃ line rest, Laid 1 (join ['\n'] (lines t)) found line rest :=
  Lexer.laid_of_readLines h

theorem Laid.standsIn {line line' : Nat} {s rest : Text} {found : List Spot}
    (h : Laid line s found line' rest) : ∀ spot ∈ found, spot.StandsIn s := by
  induction h with
  | nil => simp
  | bare none _ ih =>
    intro spot hs
    rcases List.mem_cons.1 hs with rfl | hs
    · intro name value line ht
      exact absurd ht (none name value line)
    · exact ih spot hs
  | value front written back _ _ ih =>
    intro spot hs
    rcases List.mem_cons.1 hs with rfl | hs
    · intro name value line ht
      cases ht
      exact ⟨_, written.after_suffix.trans front.suffix, rfl, List.prefix_append _ _⟩
    · intro name' value' line' ht
      obtain ⟨rest, within, left, ahead⟩ := ih spot hs name' value' line' ht
      exact ⟨rest, (within.trans back.suffix).trans front.suffix, left, ahead⟩

theorem standsIn_of_spots {t : Text} {found : List Spot} (h : spots t = .ok found) :
    ∀ spot ∈ found, spot.StandsIn (join ['\n'] (lines t)) := by
  obtain ⟨_, _, laid⟩ := laid_of_spots h
  exact laid.standsIn

end Markup

end PugWeave
