import PugWeave.Proofs.Asset.Strings

namespace PugWeave.Markup

open Asset (Place)
open Text

/-- Whether a text has `\n` for its line breaks, no template strings, and no quotes in front of the
bracket of a spread object. -/
def tidy : Text → Bool
  | [] => true
  | c :: r =>
    c ≠ '\r' && c ≠ backtick && (c ≠ '&' || !"attr".toList.isPrefixOf r ||
      (r.takeWhile fun d => d ≠ '(' && d ≠ '\n').all (!isQuote ·)) && tidy r

theorem tidy_of_suffix {s t : Text} (h : tidy t = true) (suffix : s <:+ t) : tidy s = true := by
  obtain ⟨front, rfl⟩ := suffix
  induction front with
  | nil => exact h
  | cons c front ih =>
    rw [List.cons_append, tidy, Bool.and_eq_true] at h
    exact ih h.2

theorem tidy_head {c : Char} {r : Text} (h : tidy (c :: r) = true) : c ≠ '\r' ∧ c ≠ backtick := by
  simp only [tidy, Bool.and_eq_true, decide_eq_true_eq] at h
  exact h.1.1

theorem not_mem_of_tidy {t : Text} (h : tidy t = true) : '\r' ∉ t ∧ backtick ∉ t := by
  induction t with
  | nil => simp
  | cons c r ih =>
    have head := tidy_head h
    have tail := ih (tidy_of_suffix h (List.suffix_cons c r))
    simp only [List.mem_cons, not_or]
    exact ⟨⟨head.1.symm, tail.1⟩, ⟨head.2.symm, tail.2⟩⟩

namespace Lexer

/-- The text between two ends of a scan has as many line breaks as lines were counted, and leaves no
string open if all is tidy. -/
structure Passed (line : Nat) (s : Text) (line' : Nat) (rest : Text) : Prop where
  split : ∃ x, x ++ rest = s ∧ line' = line + breaks x ∧ (tidy s = true → Place.Calm x)

namespace Passed

variable {line line' line'' : Nat} {s mid rest x : Text} {c : Char} {r : Text}

theorem refl (line : Nat) (s : Text) : Passed line s line s :=
  ⟨[], rfl, rfl, fun _ => Place.calm_nil⟩

theorem suffix (h : Passed line s line' rest) : rest <:+ s := by
  obtain ⟨x, whole, -⟩ := h.split
  exact ⟨x, whole⟩

theorem trans (h : Passed line s line' mid) (later : Passed line' mid line'' rest) :
    Passed line s line'' rest := by
  have suffix := h.suffix
  obtain ⟨x, rfl, rfl, calm⟩ := h.split
  obtain ⟨y, rfl, rfl, calm'⟩ := later.split
  refine ⟨x ++ y, List.append_assoc .., ?_, fun clean => ?_⟩
  · rw [breaks, breaks, breaks, List.count_append, Nat.add_assoc]
  · exact (calm clean).append (calm' (tidy_of_suffix clean suffix))

theorem plain (line : Nat) (x rest : Text) (h : ∀ c ∈ x, isQuote c = false) :
    Passed line (x ++ rest) (line + breaks x) rest :=
  ⟨x, rfl, rfl, fun _ => Place.calm_of_plain h⟩

theorem char (line : Nat) (c : Char) (r : Text) (h : isQuote c = false) :
    Passed line (c :: r) (line + breaks [c]) r :=
  plain line [c] r (by simpa using h)

theorem within (line : Nat) (x rest : Text) (h : ∀ c ∈ x, isQuote c = false ∧ c ≠ '\n') :
    Passed line (x ++ rest) line rest := by
  have single : breaks x = 0 := List.count_eq_zero.2 fun hn => (h _ hn).2 rfl
  have := plain line x rest fun c hc => (h c hc).1
  rwa [single, Nat.add_zero] at this

theorem inner (line : Nat) (c : Char) (r : Text) (h : isQuote c = false) (hn : c ≠ '\n') :
    Passed line (c :: r) line r :=
  within line [c] r (by simpa using ⟨h, hn⟩)

end Passed

variable {line opened : Nat} {s : Text} {cursor : Cursor}

theorem scan_of_readString {quote : Char} {start : Nat} {t body rest : Text}
    (slash : quote ≠ '\\') (h : readString quote start t = .ok (body, rest)) :
    (Place.inside quote).scan body = .outside quote ∧ body.getLast? = some quote := by
  fun_induction readString quote start t generalizing body with
  | case3 c r _ ih =>
    obtain ⟨tail, hr, rfl⟩ := passing_eq_ok_iff.1 h
    obtain ⟨closed, last⟩ := ih hr
    exact ⟨by simpa [Place.next] using closed, by simp [List.getLast?_cons, last]⟩
  | case4 =>
    cases h
    simp [Place.next, slash]
  | case6 c r escape other _ ih =>
    obtain ⟨tail, hr, rfl⟩ := passing_eq_ok_iff.1 h
    obtain ⟨closed, last⟩ := ih hr
    have plain : c ≠ '\\' := by
      rintro rfl
      cases r with
      | nil => simp [readString] at hr
      | cons d r => exact escape d r rfl rfl
    exact ⟨by simpa [Place.next, plain, other] using closed, by simp [List.getLast?_cons, last]⟩
  | _ => simp_all

theorem closed_of_readString {c : Char} {start : Nat} {t body rest : Text} (hc : isQuote c = true)
    (h : readString c start t = .ok (body, rest)) : Place.Closed (c :: body) := by
  intro last
  have slash : c ≠ '\\' := by
    rintro rfl
    cases hc
  refine ⟨c, ?_⟩
  have enters : (Place.outside last).next c = .inside c := by simp [Place.next, hc]
  rw [Place.scan_cons, enters, (scan_of_readString slash h).1]

theorem not_quote_of_blank_run {c : Char} {r : Text} (h : isBlank c = true) :
    ∀ d ∈ c :: indentation r, isQuote d = false := by
  intro d hd
  apply isQuote_of_isBlank
  rcases List.mem_cons.1 hd with rfl | hd
  · exact h
  · exact List.all_eq_true.1 List.all_takeWhile d hd

theorem newline_not_mem_of_readString {quote : Char} (hq : isQuote quote = true)
    (single : quote ≠ backtick) {start : Nat} {t body rest : Text}
    (h : readString quote start t = .ok (body, rest)) : '\n' ∉ body := by
  fun_induction readString quote start t generalizing body with
  | case3 c r _ ih | case6 c r _ _ _ ih =>
    obtain ⟨tail, hr, rfl⟩ := passing_eq_ok_iff.1 h
    have := ih hr
    simp_all [eq_comm (a := '\n')]
  | case4 =>
    cases h
    simp only [List.mem_singleton]
    rintro rfl
    cases hq
  | _ => simp_all

theorem passed_of_readString {c : Char} {start : Nat} {t body rest : Text} (hc : isQuote c = true)
    (h : readString c start t = .ok (body, rest)) (line : Nat) :
    Passed line (c :: t) (line + breaks body) rest := by
  have whole : c :: body ++ rest = c :: t := by rw [List.cons_append, append_of_readString h]
  have other : c ≠ '\n' := by
    rintro rfl
    cases hc
  refine ⟨c :: body, whole, ?_, fun clean => ?_⟩
  · rw [breaks, breaks, List.count_cons_of_ne other]
  · refine (closed_of_readString hc h).calm fun d hd => ?_
    have returns := (not_mem_of_tidy clean).1
    have lines := newline_not_mem_of_readString hc (tidy_head clean).2 h
    rw [← whole] at returns
    cases hd' : isBreak d with
    | false => rfl
    | true =>
      have : d = '\r' ∨ d = '\n' := by simpa [isBreak] using hd'
      rcases this with rfl | rfl
      · exact absurd (List.mem_append_left _ hd) returns
      · rcases List.mem_cons.1 hd with rfl | hd
        · cases hc
        · exact absurd hd lines

theorem passed_of_readValue {depth : Nat} {last : Char} {t read : Text}
    (h : readValue opened depth last line t = .ok (read, cursor)) :
    Passed line t cursor.line cursor.rest := by
  fun_induction readValue opened depth last line t generalizing read with
  | case3 _ _ _ _ _ hc body rest hs _ ih =>
    obtain ⟨tail, hr, rfl⟩ := passing_eq_ok_iff.1 h
    exact (passed_of_readString hc hs _).trans (ih hr)
  | case4 | case5 | case7 =>
    rename_i ih
    obtain ⟨tail, hr, rfl⟩ := passing_eq_ok_iff.1 h
    refine (Passed.inner _ _ _ ?_ ?_).trans (ih hr)
    · simp_all
    · rintro rfl
      simp_all [isOpening, isClosing, isBlank]
  | case8 =>
    rename_i ih
    obtain ⟨tail, hr, rfl⟩ := passing_eq_ok_iff.1 h
    refine (Passed.char _ _ _ ?_).trans (ih hr)
    simp_all
  | case9 _ _ line c r _ _ _ _ blank _ _ _ ih =>
    obtain ⟨tail, hr, rfl⟩ := passing_eq_ok_iff.1 h
    have run := Passed.plain line (c :: indentation r) (trimStart r)
      (not_quote_of_blank_run (by simpa using blank))
    rw [List.cons_append, indentation_append_trimStart] at run
    exact run.trans (ih hr)
  | case6 | case10 =>
    cases h
    exact .refl _ _
  | _ => simp_all

theorem exists_of_assigned? {r : Text} (h : assigned? s = some r) :
    ∃ front equals, front ++ (equals ++ r) = s ∧ (∀ c ∈ front, isSpaceOrTab c = true) ∧
      (equals = ['='] ∨ equals = ['!', '=']) := by
  have whole := List.takeWhile_append_dropWhile (p := isSpaceOrTab) (l := s)
  have front : ∀ c ∈ s.takeWhile isSpaceOrTab, isSpaceOrTab c = true :=
    List.all_eq_true.1 List.all_takeWhile
  simp only [assigned?] at h
  split at h
  · rename_i hd
    cases h
    exact ⟨_, ['='], by rwa [hd] at whole, front, .inl rfl⟩
  · rename_i hd
    cases h
    exact ⟨_, ['!', '='], by rwa [hd] at whole, front, .inr rfl⟩
  · cases h

theorem not_quote_of_isSpaceOrTab {c : Char} (h : isSpaceOrTab c = true) :
    isQuote c = false ∧ c ≠ '\n' := by
  have : c = ' ' ∨ c = '\t' := by simpa [isSpaceOrTab] using h
  rcases this with rfl | rfl <;> decide

theorem passed_of_assigned? {r : Text} (h : assigned? s = some r) (line : Nat) :
    Passed line s line r := by
  obtain ⟨front, equals, rfl, blank, hequals⟩ := exists_of_assigned? h
  refine (Passed.within line front _ fun c hc => not_quote_of_isSpaceOrTab (blank c hc)).trans
    (Passed.within line equals r ?_)
  rcases hequals with rfl | rfl
  · exact List.forall_mem_singleton.2 (by decide)
  · exact List.forall_mem_cons.2 ⟨by decide, List.forall_mem_singleton.2 (by decide)⟩

theorem passed_of_readBalanced {depth : Nat} (h : readBalanced opened depth line s = .ok cursor) :
    Passed line s cursor.line cursor.rest := by
  fun_induction readBalanced opened depth line s with
  | case3 _ _ _ _ hc body _ hs _ ih => exact (passed_of_readString hc hs _).trans (ih h)
  | case4 | case6 =>
    rename_i ih
    exact (Passed.inner _ _ _ rfl (by decide)).trans (ih h)
  | case5 =>
    cases h
    exact .inner _ _ _ rfl (by decide)
  | case7 =>
    rename_i ih
    refine (Passed.char _ _ _ ?_).trans (ih h)
    simp_all
  | _ => simp_all

theorem exists_of_readSpread (h : readSpread line s = .ok cursor) :
    ∃ x, x ++ cursor.rest = s ∧ cursor.line = line + breaks x ∧ (tidy s = true →
      (∀ c ∈ s.takeWhile fun d => d ≠ '(' && d ≠ '\n', isQuote c = false) → Place.Calm x) := by
  fun_induction readSpread line s with
  | case1 =>
    cases h
    exact ⟨[], rfl, rfl, fun _ _ => Place.calm_nil⟩
  | case2 r =>
    have passed := (Passed.inner line '(' r rfl (by decide)).trans (passed_of_readBalanced h)
    obtain ⟨x, whole, lines, calm⟩ := passed.split
    exact ⟨x, whole, lines, fun clean _ => calm clean⟩
  | case3 =>
    cases h
    exact ⟨[], rfl, rfl, fun _ _ => Place.calm_nil⟩
  | case4 c r other single ih =>
    obtain ⟨x, rfl, lines, calm⟩ := ih h
    refine ⟨c :: x, rfl, ?_, fun clean quiet => ?_⟩
    · rw [lines, breaks, breaks, List.count_cons_of_ne single]
    · have more : (c :: (x ++ cursor.rest)).takeWhile (fun d => d ≠ '(' && d ≠ '\n') =
          c :: (x ++ cursor.rest).takeWhile fun d => d ≠ '(' && d ≠ '\n' := by
        rw [List.takeWhile_cons_of_pos]
        simp [other, single]
      rw [more] at quiet
      have first : Place.Calm [c] := Place.calm_of_plain (by simpa using quiet c List.mem_cons_self)
      exact first.append (calm (tidy_of_suffix clean (List.suffix_cons _ _))
        fun d hd => quiet d (.tail _ hd))

theorem passed_spread {r : Text} (attr : "attr".toList.isPrefixOf r = true)
    (h : readSpread line r = .ok cursor) : Passed line ('&' :: r) cursor.line cursor.rest := by
  obtain ⟨x, rfl, lines, calm⟩ := exists_of_readSpread h
  refine ⟨'&' :: x, rfl, ?_, fun clean => ?_⟩
  · rw [lines, breaks, breaks, List.count_cons_of_ne (by decide)]
  · have quiet : ∀ c ∈ (x ++ cursor.rest).takeWhile (fun d => d ≠ '(' && d ≠ '\n'),
        isQuote c = false := by
      rw [tidy, attr] at clean
      simpa using (Bool.and_eq_true_iff.1 (Bool.and_eq_true_iff.1 clean).1).2
    have first : Place.Calm ['&'] := Place.calm_of_plain (List.forall_mem_singleton.2 rfl)
    exact first.append (calm (tidy_of_suffix clean (List.suffix_cons _ _)) quiet)

theorem not_quote_of_isNameChar {c : Char} (h : isNameChar c = true) :
    isQuote c = false ∧ c ≠ '\n' := by
  constructor
  · cases hc : isQuote c with
    | false => rfl
    | true =>
      have : c = apostrophe ∨ c = quotationMark ∨ c = backtick := by
        simpa [isQuote, or_assoc] using hc
      rcases this with rfl | rfl | rfl <;> revert h <;> decide +kernel
  · rintro rfl
    revert h
    decide +kernel

theorem passed_separator {c : Char} {r : Text} (separates : (isBlank c || c = ',') = true)
    (line : Nat) : Passed line (c :: r) (line + breaks [c]) r := by
  refine .char line c r ?_
  rcases Bool.or_eq_true_iff.1 separates with blank | comma
  · exact isQuote_of_isBlank blank
  · rw [of_decide_eq_true comma]
    rfl

theorem passed_shorthand {c : Char} {r : Text}
    (dot : ((c = '.' || c = '#') && r.head?.any isNameChar) = true) (line : Nat) :
    Passed line (c :: r) line (r.dropWhile isNameChar) := by
  have run := Passed.within line (c :: r.takeWhile isNameChar) (r.dropWhile isNameChar)
  rw [List.cons_append, List.takeWhile_append_dropWhile] at run
  refine run fun d hd => ?_
  rcases List.mem_cons.1 hd with rfl | hd
  · have : d = '.' ∨ d = '#' := by simpa using (Bool.and_eq_true_iff.1 dot).1
    rcases this with rfl | rfl <;> decide
  · exact not_quote_of_isNameChar (List.mem_takeWhile_imp hd)

def isMark (c : Char) : Bool := c = '.' || c = '#'

theorem tagName_snd (s : Text) : (tagName s).2 =
    if s.head?.any isMark then s else s.drop (tagName s).1.length := by
  rw [tagName]
  split
  · rename_i mark
    exact (if_pos mark).symm
  · rename_i mark
    refine Eq.trans ?_ (if_neg mark).symm
    rw [readTagName]
    split <;> rfl

theorem prefix_of_tagName {s : Text} (mark : s.head?.any isMark = false) :
    (tagName s).1 <+: s.takeWhile fun c => isNameChar c || c = ':' := by
  have unmarked : ¬(s.head?.any fun c => c = '.' || c = '#') = true := by
    rw [Bool.not_eq_true]
    exact mark
  rw [tagName, if_neg unmarked, readTagName]
  split
  · exact List.rdropWhile_prefix _ _
  · exact List.nil_prefix

theorem passed_tagName (line : Nat) (s : Text) : Passed line s line (tagName s).2 := by
  rw [tagName_snd]
  cases mark : s.head?.any isMark with
  | true => exact .refl _ _
  | false =>
    have front := prefix_of_tagName mark
    have whole := List.prefix_iff_eq_append.1 (front.trans (List.takeWhile_prefix _))
    have chars : ∀ c ∈ (tagName s).1, isQuote c = false ∧ c ≠ '\n' := by
      intro c hc
      have hc : isNameChar c = true ∨ c = ':' := by
        simpa using List.mem_takeWhile_imp (front.subset hc)
      rcases hc with hc | rfl
      · exact not_quote_of_isNameChar hc
      · decide
    have passed := Passed.within line (tagName s).1 (s.drop (tagName s).1.length) chars
    rwa [whole] at passed

theorem passed_of_nested? {r : Text} (h : nested? s = some r) (line : Nat) :
    Passed line s line r := by
  simp only [nested?] at h
  split at h
  · rename_i c r'
    split at h
    · cases h
      have whole := List.takeWhile_append_dropWhile (p := isSpaceOrTab) (l := c :: r')
      have run := Passed.within line ((c :: r').takeWhile isSpaceOrTab)
        ((c :: r').dropWhile isSpaceOrTab) fun d hd =>
          not_quote_of_isSpaceOrTab (List.all_eq_true.1 List.all_takeWhile d hd)
      rw [whole] at run
      exact (Passed.inner line ':' _ rfl (by decide)).trans run
    · cases h
  · cases h

theorem passed_indentation (line : Nat) (s : Text) :
    Passed line s (line + breaks (indentation s)) (trimStart s) := by
  have passed := Passed.plain line (indentation s) (trimStart s) fun c hc =>
    isQuote_of_isBlank (List.mem_takeWhile_imp hc)
  rwa [indentation_append_trimStart] at passed

theorem passed_margin (line : Nat) (s : Text) :
    Passed line s line (s.drop (indentation (s.takeWhile (· ≠ '\n'))).length) := by
  have front : indentation (s.takeWhile (· ≠ '\n')) <+: s :=
    (List.takeWhile_prefix _).trans (List.takeWhile_prefix _)
  have passed := Passed.within line _ (s.drop (indentation (s.takeWhile (· ≠ '\n'))).length)
    fun c (hc : c ∈ indentation (s.takeWhile (· ≠ '\n'))) =>
      ⟨isQuote_of_isBlank (List.mem_takeWhile_imp hc), by
        simpa using List.mem_takeWhile_imp ((List.takeWhile_prefix _).subset hc)⟩
  rwa [List.prefix_iff_eq_append.1 front] at passed

theorem passed_line {c : Char} {rest : Text} (hd : s.dropWhile (· ≠ '\n') = c :: rest) (line : Nat) :
    Passed line s (line + 1) rest := by
  have whole := List.takeWhile_append_dropWhile (p := (· ≠ '\n')) (l := s)
  have first := List.head?_dropWhile_not (· ≠ '\n') s
  rw [hd] at whole first
  obtain rfl : c = '\n' := by simpa using first
  have single : breaks (s.takeWhile (· ≠ '\n')) = 0 := by
    refine List.count_eq_zero.2 fun hn => ?_
    simpa using List.mem_takeWhile_imp hn
  refine ⟨s.takeWhile (· ≠ '\n') ++ ['\n'], by simpa using whole, ?_, fun _ => Place.calm_line _⟩
  rw [breaks, List.count_append, ← breaks, single]
  rfl

end Lexer

end PugWeave.Markup
