import PugWeave.Proofs.Markup.Buffer
import PugWeave.Proofs.Markup.Failures

namespace PugWeave.Markup

open Lexer Text

def Stop.of (e : LexError) : Stop := if e.fault = .unclosedList then .more e.line else .fatal e

theorem Stop.of_eq_more_iff {e : LexError} {line : Nat} :
    Stop.of e = .more line ↔ e.fault = .unclosedList ∧ e.line = line := by
  rw [of]
  split <;> simp_all

theorem Stop.of_eq_fatal_iff {e e' : LexError} :
    Stop.of e = .fatal e' ↔ Fatal e ∧ e = e' := by
  rw [of, Fatal]
  split <;> simp_all

def attempted (f : α → β) : Except LexError α → Except Stop β
  | .ok a => .ok (f a)
  | .error e => .error (.of e)

section

variable {f : α → β} {scan : Except LexError α}

theorem attempted_eq_ok_iff {b : β} : attempted f scan = .ok b ↔ ∃ a, scan = .ok a ∧ f a = b := by
  cases scan <;> simp [attempted]

theorem attempted_eq_error_iff {stop : Stop} :
    attempted f scan = .error stop ↔ ∃ e, scan = .error e ∧ Stop.of e = stop := by
  cases scan <;> simp [attempted]

end

@[simp] theorem attempted_id_eq_ok_iff {a : α} {scan : Except LexError α} :
    attempted id scan = .ok a ↔ scan = .ok a := by
  cases scan <;> simp [attempted]

theorem attempted_passing {f : γ → δ} (seen : List α) (scan : Except LexError (List α × γ)) :
    attempted (Prod.map id f) (passing seen scan) = passing seen (attempted (Prod.map id f) scan) := by
  cases scan <;> simp [attempted, passing, Except.map]

theorem attempted_passing_map {f : α → β} {g : γ → δ} (seen : List α)
    (scan : Except LexError (List α × γ)) :
    attempted (Prod.map (List.map f) g) (passing seen scan) =
      passing (seen.map f) (attempted (Prod.map (List.map f) g) scan) := by
  cases scan <;> simp [attempted, passing, Except.map]

/-- A scan comes to something that no further line changes. -/
def Decided (done : α → Prop) : Except LexError α → Prop
  | .ok a => done a
  | .error e => Fatal e

theorem decided_false_iff {scan : Except LexError α} :
    Decided (fun _ => False) scan ↔ ∃ e, scan = .error e ∧ Fatal e := by
  cases scan <;> simp [Decided]

/-- What is scanned of a text up to one of its line breaks is decided. -/
def Settles (done : α → Prop) (scan : Text → Except LexError α) (s : Text) : Prop :=
  ∃ x y, s = x ++ '\n' :: y ∧ Decided done (scan x)

abbrev FailsEarly (scan : Text → Except LexError α) (s : Text) : Prop :=
  Settles (fun _ => False) scan s

namespace Settles

variable {done : α → Prop} {done' : β → Prop} {scan : Text → Except LexError α}
  {scan' : Text → Except LexError β} {s : Text}

theorem behind (h : Settles done scan s) (front : Text) {t : Text} (whole : front ++ s = t)
    (step : ∀ x y, s = x ++ '\n' :: y → Decided done (scan x) → Decided done' (scan' (front ++ x))) :
    Settles done' scan' t := by
  obtain ⟨x, y, rfl, decided⟩ := h
  exact ⟨front ++ x, y, by simp [← whole], step x y rfl decided⟩

end Settles

section

variable {done : α → Prop} {done' : β → Prop} {scan : Except LexError α}

theorem Decided.bind (h : Decided done scan) {next : α → Except LexError β}
    (step : ∀ a, scan = .ok a → done a → Decided done' (next a)) : Decided done' (scan.bind next) := by
  cases scan with
  | error e => exact h
  | ok a => exact step a rfl h

theorem decided_passing_iff {seen : List α} {done : List α × β → Prop}
    {scan : Except LexError (List α × β)} :
    Decided done (passing seen scan) ↔ Decided (fun a => done (seen ++ a.1, a.2)) scan := by
  cases scan <;> rfl

end

theorem FailsEarly.bind {done : β → Prop} {scan : Text → Except LexError α}
    {scan' : Text → Except LexError β} {s t : Text} (early : FailsEarly scan s) (front : Text)
    (whole : front ++ s = t) {next : Text → α → Except LexError β}
    (step : ∀ x, scan' (front ++ x) = (scan x).bind (next x)) : Settles done scan' t := by
  refine early.behind front whole fun x _ _ fails => ?_
  rw [step]
  exact Decided.bind fails fun _ _ => False.elim

theorem early_or_passing {scan scan' : Text → Except LexError (Text × γ)} {f : γ → δ}
    {attempt : Except Stop (Text × δ)} {s : Text} (seen : Text)
    (step : ∀ x, x <+: s → x = s ∨ Decided (fun _ => False) (scan' x) →
      scan (seen ++ x) = passing seen (scan' x))
    (h : FailsEarly scan' s ∨ attempt = attempted (Prod.map id f) (scan' s)) :
    FailsEarly scan (seen ++ s) ∨
      passing seen attempt = attempted (Prod.map id f) (scan (seen ++ s)) := by
  rcases h with early | same
  · refine .inl (early.behind seen rfl fun x y whole fails => ?_)
    rw [step x (by rw [whole]; exact List.prefix_append _ _) (.inr fails)]
    exact decided_passing_iff.2 fails
  · rw [step s (List.prefix_refl _) (.inl rfl), attempted_passing, same]
    exact .inr rfl

namespace Buffer

variable {b : Buffer} {s : Text}

theorem before_of_append {p : Text} (whole : p ++ s = b.text) : b.before s = p := by
  rw [before, ← whole, List.length_append, Nat.add_sub_cancel, List.take_left]

theorem line_append {x : Text} (within : x ++ s <:+ b.text) :
    b.line s = b.line (x ++ s) + breaks x := by
  obtain ⟨p, whole⟩ := within
  rw [line, line, before_of_append whole, before_of_append ((List.append_assoc _ _ _).trans whole),
    breaks_append, Nat.add_assoc]

theorem line_of_passed {line : Nat} {rest : Text} (passed : Passed (b.line s) s line rest)
    (within : s <:+ b.text) : line = b.line rest := by
  obtain ⟨x, rfl, rfl, -⟩ := passed.split
  exact (line_append within).symm

theorem last?_append {x : Text} (within : x ++ s <:+ b.text) :
    b.last? s = (x.reverse.find? (!isBlank ·)).or (b.last? (x ++ s)) := by
  obtain ⟨p, whole⟩ := within
  rw [last?, last?, before_of_append whole, before_of_append ((List.append_assoc _ _ _).trans whole),
    List.reverse_append, List.find?_append]

theorem string_eq {quote : Char} (hq : isQuote quote = true) (start : Nat) (s : Text) :
    FailsEarly (readString quote start) s ∨
      string quote start s = attempted id (readString quote start s) := by
  have line : '\n' ≠ quote := by
    rintro rfl
    cases hq
  have slash : '\\' ≠ quote := by
    rintro rfl
    cases hq
  have last : attempted id (readString quote start []) =
      .error (if quote = backtick then .more start else .fatal ⟨start, .unterminatedString⟩) := by
    rw [readString]
    split <;> rfl
  have lone : readString quote start ['\\'] = passing ['\\'] (readString quote start []) := by
    simp [readString, slash]
  fun_induction string quote start s with
  | case1 => exact .inr last.symm
  | case2 =>
    rw [lone, readString]
    split <;> exact .inr rfl
  | case3 c r ih =>
    by_cases single : (c = '\n' && quote ≠ backtick) = true
    · obtain ⟨rfl, inner⟩ : c = '\n' ∧ quote ≠ backtick := by simpa using single
      refine .inl ⟨['\\'], r, rfl, ?_⟩
      rw [lone, readString, if_neg inner]
      exact Fault.noConfusion
    · have step (x : Text) : readString quote start (['\\', c] ++ x) =
          passing ['\\', c] (readString quote start x) := by
        rw [List.cons_append, List.singleton_append, readString_escape, if_neg single]
      exact early_or_passing (f := id) _ (fun x _ _ => step x) ih
  | case4 c r alone escape single =>
    obtain ⟨rfl, -⟩ : c = '\n' ∧ quote ≠ backtick := by simpa using single
    rw [readString_char _ _ (by decide), if_neg line, if_pos single]
    exact .inr rfl
  | case5 r alone escape inline =>
    rw [readString_char _ _ slash.symm, if_pos rfl]
    exact .inr rfl
  | case6 c r alone escape inline other ih =>
    have plain : c ≠ '\\' := by
      rintro rfl
      cases r with
      | nil => exact alone rfl rfl
      | cons d r => exact escape d r rfl rfl
    have step (x : Text) :
        readString quote start ([c] ++ x) = passing [c] (readString quote start x) := by
      rw [List.singleton_append, readString_char _ _ plain, if_neg other, if_neg inline]
    exact early_or_passing (f := id) _ (fun x _ _ => step x) ih

theorem last?_step {c : Char} {r : Text} (within : c :: r <:+ b.text) (full : isBlank c = false) :
    b.last? r = some c := by
  have step := last?_append (x := [c]) within
  simpa [full] using step

theorem last?_blanks {x : Text} (within : x ++ s <:+ b.text) (blank : ∀ c ∈ x, isBlank c = true) :
    b.last? s = b.last? (x ++ s) := by
  have none : x.reverse.find? (!isBlank ·) = none := by
    simpa using blank
  rw [last?_append within, none, Option.none_or]

theorem line_step {c : Char} {r : Text} (within : c :: r <:+ b.text) :
    b.line r = b.line (c :: r) + breaks [c] := line_append (x := [c]) within

theorem line_full {c : Char} {r : Text} (within : c :: r <:+ b.text) (full : isBlank c = false) :
    b.line r = b.line (c :: r) := by
  have inline : c ≠ '\n' := by
    rintro rfl
    cases full
  rw [line_step within, breaks_of_ne inline, Nat.add_zero]

theorem goesOn_eq {c last : Char} {r : Text} (prior : b.last? (c :: r) = some last)
    (blank : isBlank c = true) : b.goesOn (c :: r) = continues last (trimStart r).head? := by
  have start : trimStart (c :: r) = trimStart r := by simp [trimStart, blank]
  rw [goesOn, prior, start, Option.any_some, continues]

theorem readValue_string {opened depth : Nat} {last c : Char} {body rest : Text}
    (within : c :: (body ++ rest) <:+ b.text) (quote : isQuote c = true)
    (read : readString c (b.line (c :: (body ++ rest))) (body ++ rest) = .ok (body, rest)) (x : Text) :
    readValue opened depth last (b.line (c :: (body ++ rest))) (c :: body ++ x) =
      passing (c :: body) (readValue opened depth c (b.line rest) x) := by
  have inline : c ≠ '\n' := by
    rintro rfl
    cases quote
  have line : b.line rest = b.line (c :: (body ++ rest)) + breaks body := by
    rw [line_append (x := c :: body) within, breaks, List.count_cons_of_ne inline]
    rfl
  rw [List.cons_append, readValue_quote quote, readString_rest quote read, line]
  rfl

/-- A string ends in its quote, which thus stands in front of what follows. -/
theorem suffix_of_string {c : Char} {start : Nat} {body rest : Text}
    (within : c :: (body ++ rest) <:+ b.text) (quote : isQuote c = true)
    (read : readString c start (body ++ rest) = .ok (body, rest)) : c :: rest <:+ b.text := by
  have slash : c ≠ '\\' := by
    rintro rfl
    cases quote
  obtain ⟨front, rfl⟩ := List.getLast?_eq_some_iff.1 (scan_of_readString slash read).2
  exact List.IsSuffix.trans ⟨c :: front, by simp⟩ within

theorem readValue_gap_onward {opened : Nat} {c last : Char} {r x : Text}
    (within : c :: r <:+ b.text) (blank : isBlank c = true)
    (goes : continues last (trimStart r).head? = true) (front : x <+: trimStart r)
    (read : x = trimStart r ∨
      Decided (fun _ => False) (readValue opened 0 last (b.line (trimStart r)) x)) :
    readValue opened 0 last (b.line (c :: r)) (c :: indentation r ++ x) =
      passing (c :: indentation r) (readValue opened 0 last (b.line (trimStart r)) x) := by
  have whole : c :: indentation r ++ trimStart r = c :: r := by
    rw [List.cons_append, indentation_append_trimStart]
  have inner : c :: indentation r ++ trimStart r <:+ b.text := whole ▸ within
  have same : x.head? = (trimStart r).head? := by
    rcases read with rfl | fails
    · rfl
    · -- An empty text leaves the value open, which a further line can mend.
      have some : x ≠ [] := by
        rintro rfl
        rw [readValue] at fails
        exact fails rfl
      obtain ⟨y, hy⟩ := front
      rw [← hy, List.head?_append_of_ne_nil _ some]
  rw [List.cons_append, readValue_onward blank goes same, line_append inner, whole]

theorem value_eq {opened depth : Nat} {last : Char} (within : s <:+ b.text)
    (prior : b.last? s = some last) :
    FailsEarly (readValue opened depth last (b.line s)) s ∨ b.value opened depth s =
      attempted (Prod.map id Cursor.rest) (readValue opened depth last (b.line s) s) := by
  -- As the buffer is read: what follows is read alike, or fails before a break.
  fun_induction b.value opened depth s generalizing last with
  | case1 =>
    rw [readValue]
    exact .inr rfl
  | case2 depth c r quote stop hs =>
    rcases string_eq quote (b.line (c :: r)) r with early | same
    · exact .inl (early.bind [c] rfl fun x => readValue_quote quote x)
    · rw [hs, eq_comm, attempted_eq_error_iff] at same
      obtain ⟨e, he, rfl⟩ := same
      rw [readValue_quote quote, he]
      exact .inr rfl
  | case3 depth c r quote body rest hs _ ih =>
    rcases string_eq quote (b.line (c :: r)) r with early | same
    · exact .inl (early.bind [c] rfl fun x => readValue_quote quote x)
    · rw [hs, eq_comm, attempted_id_eq_ok_iff] at same
      obtain rfl := append_of_readString same
      have closing := suffix_of_string within quote same
      have full : isBlank c = false := Bool.eq_false_iff.2 fun blank => by
        simp [isQuote_of_isBlank blank] at quote
      exact early_or_passing _ (fun x _ _ => readValue_string within quote same x)
        (ih ((List.suffix_cons c rest).trans closing) (last?_step closing full))
  | case4 depth c r quote opening ih =>
    have full : isBlank c = false := Bool.eq_false_iff.2 fun blank => by
      simp [isOpening_of_isBlank blank] at opening
    have step (x : Text) : readValue opened depth last (b.line (c :: r)) ([c] ++ x) =
        passing [c] (readValue opened (depth + 1) c (b.line r) x) := by
      rw [List.singleton_append, readValue, if_neg quote, if_pos opening, line_full within full]
    exact early_or_passing _ (fun x _ _ => step x)
      (ih ((List.suffix_cons c r).trans within) (last?_step within full))
  | case5 depth c r quote opening closing ih =>
    have full : isBlank c = false := Bool.eq_false_iff.2 fun blank => by
      simp [isClosing_of_isBlank blank] at closing
    have step (x : Text) : readValue opened depth last (b.line (c :: r)) ([c] ++ x) =
        passing [c] (readValue opened (depth - 1) c (b.line r) x) := by
      rw [List.singleton_append, readValue, if_neg quote, if_neg opening, if_pos closing,
        line_full within full]
    exact early_or_passing _ (fun x _ _ => step x)
      (ih ((List.suffix_cons c r).trans within) (last?_step within full))
  | case6 depth c r quote opening closing ends =>
    rw [readValue, if_neg quote, if_neg opening, if_neg closing, if_pos ends]
    exact .inr rfl
  | case7 depth c r quote opening closing ends gap goes _ ih =>
    obtain ⟨blank, rfl⟩ : isBlank c = true ∧ depth = 0 := by simpa using gap
    rw [goesOn_eq prior blank] at goes
    have run : ∀ d ∈ c :: indentation r, isBlank d = true :=
      List.forall_mem_cons.2 ⟨blank, fun d hd => List.mem_takeWhile_imp hd⟩
    have whole : c :: indentation r ++ trimStart r = c :: r := by
      rw [List.cons_append, indentation_append_trimStart]
    have inner : c :: indentation r ++ trimStart r <:+ b.text := whole ▸ within
    have later := early_or_passing _ (fun _ => readValue_gap_onward within blank goes) (ih ((List.suffix_append _ _).trans inner)
      ((last?_blanks inner run).trans (whole ▸ prior)))
    rwa [whole] at later
  | case8 depth c r quote opening closing ends gap stops =>
    obtain ⟨blank, rfl⟩ : isBlank c = true ∧ depth = 0 := by simpa using gap
    rw [goesOn_eq prior blank] at stops
    have start : trimStart (c :: r) = trimStart r := by simp [trimStart, blank]
    rw [readValue_gap _ _ _ blank, start, if_neg stops]
    exact .inr rfl
  | case9 depth c r quote opening closing ends inner ih =>
    have inside := (List.suffix_cons c r).trans within
    cases blank : isBlank c with
    | false =>
      have step (x : Text) : readValue opened depth last (b.line (c :: r)) ([c] ++ x) =
          passing [c] (readValue opened depth c (b.line r) x) := by
        rw [List.singleton_append, readValue, if_neg quote, if_neg opening, if_neg closing,
          if_neg ends, if_pos (by simp [blank]), line_full within blank]
      exact early_or_passing _ (fun x _ _ => step x) (ih inside (last?_step within blank))
    | true =>
      have deep : 0 < depth := by
        rw [blank, Bool.true_and, decide_eq_true_eq] at inner
        omega
      have step (x : Text) : readValue opened depth last (b.line (c :: r)) ([c] ++ x) =
          passing [c] (readValue opened depth last (b.line r) x) := by
        rw [List.singleton_append, readValue_blank _ deep _ _ blank, line_step within]
      have still := last?_blanks (x := [c]) within (List.forall_mem_singleton.2 blank)
      exact early_or_passing _ (fun x _ _ => step x) (ih inside (still.trans prior))

theorem name_eq (line : Nat) (c : Char) (r : Text) : FailsEarly (readName line c) r ∨
    name line c r = attempted id (readName line c r) := by
  rw [name]
  split
  · rename_i quoted
    have quote : isQuote c = true := by
      rw [isQuote, Bool.or_eq_true]
      exact .inl quoted
    have step (x : Text) :
        readName line c x = (readString c line x).map fun p => (p.1.dropLast, p.2) := by
      rw [readName, if_pos quoted]
    rcases string_eq quote line r with early | same
    · refine .inl (early.behind [] rfl fun x _ _ fails => ?_)
      rw [List.nil_append, step]
      cases hs : readString c line x with
      | error e =>
        rw [hs] at fails
        exact fails
      | ok p =>
        rw [hs] at fails
        exact fails
    · rw [same, step]
      cases readString c line r <;> exact .inr rfl
  · rename_i quoted
    rw [readName, if_neg quoted]
    split <;> exact .inr rfl

theorem last?_assigned {r : Text} (ha : assigned? s = some r) (within : s <:+ b.text) :
    b.last? (trimStart r) = some '=' := by
  have sign : '=' :: r <:+ s := by
    obtain ⟨front, _, rfl, -, rfl | rfl⟩ := exists_of_assigned? ha
    · exact List.suffix_append _ _
    · exact (List.suffix_cons '!' _).trans (List.suffix_append _ _)
  have inner : indentation r ++ trimStart r <:+ b.text := by
    rw [indentation_append_trimStart]
    exact (suffix_of_assigned? ha).trans within
  rw [last?_blanks inner fun d hd => List.mem_takeWhile_imp hd, indentation_append_trimStart]
  exact last?_step (sign.trans within) rfl

theorem failsEarly_readAttr {opened line : Nat} {c : Char} {r name rest u : Text}
    (hn : readName line c r = .ok (name, rest)) (ha : assigned? rest = some u)
    (early : FailsEarly (readValue opened 0 '=' (line + breaks (indentation u))) (trimStart u)) :
    FailsEarly (readAttr opened line c) r := by
  obtain ⟨x, hx, hname⟩ := readName_rest hn
  obtain ⟨y, hy, full, hassigned⟩ := assigned?_rest ha
  refine early.behind (x ++ (y ++ indentation u)) (by simp [hx, hy]) fun w z cut fails => ?_
  obtain ⟨e, hv, fatal⟩ := decided_false_iff.1 fails
  have some : w ≠ [] := ne_nil_of_readValue fatal hv
  have first : ∀ d ∈ w.head?, isBlank d = false := by
    rw [← List.head?_append_of_ne_nil _ some, ← cut]
    exact head?_trimStart u
  obtain ⟨start, front⟩ := trimStart_run (b := indentation u)
    (fun d hd => List.mem_takeWhile_imp hd) first
  have goes : (y ++ (indentation u ++ w)).head?.any isPlainNameChar =
      rest.head?.any isPlainNameChar := by
    rw [← hy, List.head?_append_of_ne_nil _ full, List.head?_append_of_ne_nil _ full]
  rw [List.append_assoc, List.append_assoc, readAttr_name, hname _ _ goes]
  dsimp only [Except.bind]
  rw [hassigned]
  dsimp only
  rw [start, front, hv]
  exact fatal

theorem attr_eq (opened : Nat) {c : Char} {r : Text} (within : c :: r <:+ b.text) :
    FailsEarly (readAttr opened (b.line (c :: r)) c) r ∨ b.attr opened c r =
      attempted (Prod.map Spot.token Cursor.rest) (readAttr opened (b.line (c :: r)) c r) := by
  rw [attr]
  rcases name_eq (b.line (c :: r)) c r with early | same
  · exact .inl (early.bind [] rfl fun x => readAttr_name c x)
  · rw [same, readAttr_name]
    cases hn : readName (b.line (c :: r)) c r with
    | error e => exact .inr rfl
    | ok p =>
      obtain ⟨name, rest⟩ := p
      dsimp only [attempted, Except.bind, id]
      cases ha : assigned? rest with
      | none => exact .inr rfl
      | some u =>
        obtain ⟨-, -, -, named⟩ := exists_spelled_of_readName hn
        have passed := (named.trans (passed_of_assigned? ha _)).trans (passed_indentation _ u)
        have line := line_of_passed passed within
        have prior := last?_assigned ha (named.suffix.trans within)
        rcases b.value_eq (passed.suffix.trans within) prior with early | same
        · rw [← line] at early
          exact .inl (failsEarly_readAttr hn ha early)
        · dsimp only
          rw [same, line]
          cases readValue opened 0 '=' (b.line (trimStart u)) (trimStart u) <;> exact .inr rfl

theorem list_eq (opened : Nat) (within : s <:+ b.text) :
    FailsEarly (readList opened (b.line s)) s ∨ b.list opened s =
      attempted (Prod.map (List.map Spot.token) Cursor.rest) (readList opened (b.line s) s) := by
  fun_induction b.list opened s with
  | case1 =>
    rw [readList.eq_def]
    exact .inr rfl
  | case2 c r separates ih =>
    rw [readList_blank _ _ separates, ← line_step within]
    refine (ih ((List.suffix_cons c r).trans within)).imp_left fun early =>
      early.behind [c] rfl fun x _ _ fails => ?_
    rw [List.singleton_append, readList_blank _ _ separates, ← line_step within]
    exact fails
  | case3 r =>
    rw [readList_close]
    exact .inr rfl
  | case4 c r separates closes stop ha =>
    rcases attr_eq opened within with early | same
    · exact .inl (early.bind [c] rfl fun x => readList_attr separates closes x)
    · rw [ha, eq_comm, attempted_eq_error_iff] at same
      obtain ⟨e, he, rfl⟩ := same
      rw [readList_attr separates closes, he]
      exact .inr rfl
  | case5 c r separates closes token rest ha _ ih =>
    rcases attr_eq opened within with early | same
    · exact .inl (early.bind [c] rfl fun x => readList_attr separates closes x)
    · rw [ha, eq_comm, attempted_eq_ok_iff] at same
      obtain ⟨⟨spot, mid⟩, he, same⟩ := same
      obtain ⟨rfl, rfl⟩ : spot.token = token ∧ mid.rest = rest := by simpa using same
      have passed := (laid_of_readAttr he).passed
      have line := line_of_passed passed within
      obtain ⟨x, rfl, later⟩ := readAttr_rest he
      rw [readList_attr separates closes, he]
      dsimp only [Except.bind]
      rw [line]
      rcases ih (passed.suffix.trans within) with early | same
      · refine .inl (early.behind (c :: x) rfl fun w z cut fails => ?_)
        obtain ⟨e, hl, fatal⟩ := decided_false_iff.1 fails
        have full := trimStart_ne_nil_of_readList fatal hl
        obtain ⟨spot', ha', -⟩ := later w
          (by rw [cut, List.head?_append_of_ne_nil _ (ne_nil_of_trimStart full)])
          (by rw [cut, (trimStart_append_of_ne_nil full _).1, List.head?_append_of_ne_nil _ full])
          (cut ▸ SameLine.cut w z).assigned?_eq_none
        rw [List.cons_append, readList_attr separates closes, ha']
        dsimp only [Except.bind]
        rw [line]
        exact decided_passing_iff.2 fails
      · rw [same, attempted_passing_map]
        exact .inr rfl

theorem balanced_opening (opened depth : Nat) (r : Text) :
    b.balanced opened depth ('(' :: r) = b.balanced opened (depth + 1) r := by
  rw [balanced.eq_def]
  rfl

theorem balanced_eq {opened depth : Nat} (within : s <:+ b.text) :
    FailsEarly (readBalanced opened depth (b.line s)) s ∨ b.balanced opened (depth + 1) s =
      attempted Cursor.rest (readBalanced opened depth (b.line s) s) := by
  -- The buffer counts the brackets with the one that was read, the text without it.
  generalize hd : depth + 1 = open'
  fun_induction b.balanced opened open' s generalizing depth with
  | case1 =>
    rw [readBalanced.eq_def]
    exact .inr rfl
  | case2 open' c r quote stop hs =>
    rcases string_eq quote (b.line (c :: r)) r with early | same
    · exact .inl (early.bind [c] rfl fun x => readBalanced_quote quote x)
    · rw [hs, eq_comm, attempted_eq_error_iff] at same
      obtain ⟨e, he, rfl⟩ := same
      rw [readBalanced_quote quote, he]
      exact .inr rfl
  | case3 open' c r quote body rest hs _ ih =>
    rcases string_eq quote (b.line (c :: r)) r with early | same
    · exact .inl (early.bind [c] rfl fun x => readBalanced_quote quote x)
    · rw [hs, eq_comm, attempted_id_eq_ok_iff] at same
      have passed := passed_of_readString quote same (b.line (c :: r))
      have line := line_of_passed passed within
      obtain rfl := append_of_readString same
      have step (x : Text) : readBalanced opened depth (b.line (c :: (body ++ rest)))
          (c :: body ++ x) = readBalanced opened depth (b.line rest) x := by
        rw [List.cons_append, readBalanced_quote quote, readString_rest quote same, ← line]
        rfl
      rcases ih (passed.suffix.trans within) hd with early | same
      · exact .inl (early.behind (c :: body) rfl fun x _ _ fails => by rwa [step])
      · exact .inr (same.trans (by rw [← step, List.cons_append]))
  | case4 open' r quote ih =>
    have step (x : Text) : readBalanced opened depth (b.line ('(' :: r)) ('(' :: x) =
        readBalanced opened (depth + 1) (b.line r) x := by
      rw [readBalanced_opening, line_full within rfl]
    rw [step]
    refine (ih ((List.suffix_cons _ r).trans within) (by rw [hd])).imp_left fun early =>
      early.behind ['('] rfl fun x _ _ fails => ?_
    rwa [List.singleton_append, step]
  | case5 open' r last quote opening =>
    obtain rfl : depth = 0 := by omega
    rw [readBalanced_closing]
    exact .inr rfl
  | case6 open' r more quote opening ih =>
    obtain ⟨depth, rfl⟩ : ∃ k, depth = k + 1 := ⟨depth - 1, by omega⟩
    have step (x : Text) : readBalanced opened (depth + 1) (b.line (')' :: r)) (')' :: x) =
        readBalanced opened depth (b.line r) x := by
      rw [readBalanced_closing, line_full within rfl]
    rw [step]
    refine (ih ((List.suffix_cons _ r).trans within) (by omega)).imp_left fun early =>
      early.behind [')'] rfl fun x _ _ fails => ?_
    rwa [List.singleton_append, step]
  | case7 open' c r quote opening closing ih =>
    have step (x : Text) : readBalanced opened depth (b.line (c :: r)) (c :: x) =
        readBalanced opened depth (b.line r) x := by
      rw [readBalanced_char (by simpa using quote) opening closing, line_step within]
    rw [step]
    refine (ih ((List.suffix_cons _ r).trans within) hd).imp_left fun early =>
      early.behind [c] rfl fun x _ _ fails => ?_
    rwa [List.singleton_append, step]

theorem spread_eq (within : s <:+ b.text) :
    Settles (fun mid => mid.rest = []) (readSpread (b.line s)) s ∨
      b.spread s = attempted Cursor.rest (readSpread (b.line s) s) := by
  induction s with
  | nil => exact .inr rfl
  | cons c r ih =>
    by_cases opening : c = '('
    · subst opening
      have step (x : Text) : readSpread (b.line ('(' :: r)) ('(' :: x) =
          readBalanced (b.line ('(' :: r)) 0 (b.line r) x := by
        rw [readSpread, if_pos rfl, line_full within rfl]
      have same : b.spread ('(' :: r) = b.balanced (b.line ('(' :: r)) 1 r := by
        rw [spread, List.dropWhile_cons_of_neg (by simp)]
        exact balanced_opening _ _ _
      rw [step, same]
      refine (balanced_eq ((List.suffix_cons _ r).trans within)).imp_left fun early =>
        early.behind ['('] rfl fun x _ _ fails => ?_
      obtain ⟨e, he, fatal⟩ := decided_false_iff.1 fails
      rw [List.singleton_append, step, he]
      exact fatal
    · by_cases single : c = '\n'
      · subst single
        exact .inl ⟨[], r, rfl, rfl⟩
      · have step (x : Text) : readSpread (b.line (c :: r)) (c :: x) = readSpread (b.line r) x := by
          rw [readSpread, if_neg opening, if_neg single, line_step within, breaks_of_ne single,
            Nat.add_zero]
        have same : b.spread (c :: r) = b.spread r := by
          rw [spread, List.dropWhile_cons_of_pos (by simpa using opening), spread]
        rw [step, same]
        refine (ih ((List.suffix_cons _ r).trans within)).imp_left fun early =>
          early.behind [c] rfl fun x _ _ decided => ?_
        rwa [List.singleton_append, step]

theorem tail_list_eq {r : Text} (within : '(' :: r <:+ b.text) :
    Settles (fun p => p.2.rest = []) (readTail (b.line ('(' :: r))) ('(' :: r) ∨
      b.list (b.line ('(' :: r)) r = attempted (Prod.map (List.map Spot.token) Cursor.rest)
        (readList (b.line ('(' :: r)) (b.line ('(' :: r)) r) := by
  have line : b.line r = b.line ('(' :: r) := line_full within rfl
  have list := b.list_eq (b.line ('(' :: r)) ((List.suffix_cons _ r).trans within)
  rw [line] at list
  exact list.imp_left fun early => early.bind ['('] rfl fun x => readTail_list x

theorem tail_spread_eq {r : Text} (attr : "attr".toList.isPrefixOf r = true)
    (within : '&' :: r <:+ b.text) :
    Settles (fun p => p.2.rest = []) (readTail (b.line ('&' :: r))) ('&' :: r) ∨
      b.spread r = attempted Cursor.rest (readSpread (b.line ('&' :: r)) r) := by
  have line : b.line r = b.line ('&' :: r) := line_full within rfl
  have spread := b.spread_eq ((List.suffix_cons _ r).trans within)
  rw [line] at spread
  refine spread.imp_left fun early => early.behind ['&'] rfl fun x y cut decided => ?_
  have same : SameLine r x := cut ▸ .cut x y
  rw [List.singleton_append, readTail_spread (by rw [same.isPrefixOf_eq (by decide), attr])]
  refine decided.bind fun mid _ last => ?_
  rw [last, readTail]
  exact rfl

theorem tail_list_step {r : Text} (within : '(' :: r <:+ b.text) {spots : List Spot} {mid : Cursor}
    (he : readList (b.line ('(' :: r)) (b.line ('(' :: r)) r = .ok (spots, mid))
    (behind : Settles (fun p => p.2.rest = []) (readTail (b.line mid.rest)) mid.rest ∨
      b.tail mid.rest = attempted (Prod.map (List.map Spot.token) Cursor.rest)
        (readTail (b.line mid.rest) mid.rest)) :
    Settles (fun p => p.2.rest = []) (readTail (b.line ('(' :: r))) ('(' :: r) ∨
      passing (spots.map Spot.token) (b.tail mid.rest) =
        attempted (Prod.map (List.map Spot.token) Cursor.rest)
          (readTail (b.line ('(' :: r)) ('(' :: r)) := by
  have passed := (Passed.inner (b.line ('(' :: r)) '(' r rfl (by decide)).trans
    (laid_of_readList he).passed
  have line := line_of_passed passed within
  obtain ⟨x, rfl, later⟩ := readList_rest he
  rcases behind with early | same
  · refine .inl (early.behind ('(' :: (x ++ [')'])) (by simp) fun w _ _ decided => ?_)
    -- The list is closed, and comes to the same in front of less text.
    obtain ⟨spots', hw, -⟩ := later w
    rw [List.cons_append, List.append_assoc, List.singleton_append, readTail_list, hw]
    dsimp only [Except.bind]
    rw [line]
    exact decided_passing_iff.2 decided
  · rw [same, readTail_list, he]
    dsimp only [Except.bind]
    rw [line, attempted_passing_map]
    exact .inr rfl

theorem tail_spread_step {r : Text} (attr : "attr".toList.isPrefixOf r = true)
    (within : '&' :: r <:+ b.text) {mid : Cursor} (he : readSpread (b.line ('&' :: r)) r = .ok mid)
    (behind : Settles (fun p => p.2.rest = []) (readTail (b.line mid.rest)) mid.rest ∨
      b.tail mid.rest = attempted (Prod.map (List.map Spot.token) Cursor.rest)
        (readTail (b.line mid.rest) mid.rest)) :
    Settles (fun p => p.2.rest = []) (readTail (b.line ('&' :: r))) ('&' :: r) ∨
      b.tail mid.rest = attempted (Prod.map (List.map Spot.token) Cursor.rest)
        (readTail (b.line ('&' :: r)) ('&' :: r)) := by
  have line := line_of_passed (passed_spread attr he) within
  obtain ⟨x, rfl, later⟩ := readSpread_rest he
  rw [readTail_spread attr, he]
  dsimp only [Except.bind]
  rw [line]
  refine behind.imp_left fun early => early.behind ('&' :: x) rfl fun w z cut decided => ?_
  have same : SameLine mid.rest w := cut ▸ .cut w z
  rw [List.cons_append, readTail_spread (by rw [(same.append x).isPrefixOf_eq (by decide), attr]),
    later w same]
  dsimp only [Except.bind]
  rwa [line]

theorem tail_eq (within : s <:+ b.text) :
    Settles (fun p => p.2.rest = []) (readTail (b.line s)) s ∨ b.tail s =
      attempted (Prod.map (List.map Spot.token) Cursor.rest) (readTail (b.line s) s) := by
  fun_induction b.tail s with
  | case1 =>
    rw [readTail]
    exact .inr rfl
  | case2 c r named _ ih =>
    have passed := passed_shorthand named (b.line (c :: r))
    rw [readTail_shorthand named, line_of_passed passed within]
    refine (ih (passed.suffix.trans within)).imp_left fun early =>
      early.behind (c :: r.takeWhile isNameChar) (by simp) fun x y cut decided => ?_
    rwa [List.cons_append, readTail_shorthand_append named (cut ▸ .cut x y)]
  | case3 r named stop hl =>
    rcases tail_list_eq within with early | same
    · exact .inl early
    · rw [hl, eq_comm, attempted_eq_error_iff] at same
      obtain ⟨e, he, rfl⟩ := same
      rw [readTail_list, he]
      exact .inr rfl
  | case4 r tokens rest named hl _ ih =>
    rcases tail_list_eq within with early | same
    · exact .inl early
    · rw [hl, eq_comm, attempted_eq_ok_iff] at same
      obtain ⟨⟨spots, mid⟩, he, same⟩ := same
      obtain ⟨rfl, rfl⟩ : spots.map Spot.token = tokens ∧ mid.rest = rest := by simpa using same
      exact tail_list_step within he
        (ih (((Passed.inner (b.line ('(' :: r)) '(' r rfl (by decide)).trans
          (laid_of_readList he).passed).suffix.trans within))
  | case5 c r _ _ spreads stop hl =>
    obtain ⟨hc, attr⟩ := Bool.and_eq_true_iff.1 spreads
    obtain rfl := of_decide_eq_true hc
    rcases tail_spread_eq attr within with early | same
    · exact .inl early
    · rw [hl, eq_comm, attempted_eq_error_iff] at same
      obtain ⟨e, he, rfl⟩ := same
      rw [readTail_spread attr, he]
      exact .inr rfl
  | case6 c r _ _ spreads rest hl _ ih =>
    obtain ⟨hc, attr⟩ := Bool.and_eq_true_iff.1 spreads
    obtain rfl := of_decide_eq_true hc
    rcases tail_spread_eq attr within with early | same
    · exact .inl early
    · rw [hl, eq_comm, attempted_eq_ok_iff] at same
      obtain ⟨mid, he, rfl⟩ := same
      exact tail_spread_step attr within he (ih ((passed_spread attr he).suffix.trans within))
  | case7 c r named list spread =>
    rw [readTail_end _ named list spread]
    exact .inr rfl

theorem tag_eq (within : s <:+ b.text) : b.tag s = (tagSpot (b.line s) s).token := by
  rw [tag, ← line_of_passed (passed_tagName (b.line s) s) within]
  rfl

theorem nested?_cases {r : Text} (h : nested? s = some r) :
    Lexer.nested? s = some r ∨ ∃ t, s = ':' :: '\n' :: t := by
  simp only [nested?] at h
  split at h
  · rename_i c t
    by_cases line : c = '\n'
    · subst line
      exact .inr ⟨t, rfl⟩
    · refine .inl ?_
      rw [Lexer.nested?, ← h]
      simp [line]
  · cases h

theorem nested?_append_eq_none {w t : Text} (h : nested? (w ++ t) = none) :
    Lexer.nested? w = none := by
  simp only [Lexer.nested?]
  split
  · rename_i c r
    split
    · rename_i blank
      rw [List.cons_append, List.cons_append, nested?, if_pos (Bool.and_eq_true_iff.1 blank).1] at h
      cases h
    · rfl
  · rfl

theorem endsInDot_eq (line : '\n' ∉ s) : endsInDot s = Lexer.endsInDot s := by
  cases s with
  | nil => rfl
  | cons c r =>
    have whole : r.takeWhile (· ≠ '\n') = r := by
      have single := takeWhile_line (List.not_mem_of_not_mem_cons line) .nil
      rwa [List.append_nil] at single
    by_cases dot : c = '.'
    · subst dot
      rw [endsInDot, Lexer.endsInDot, whole]
    · simp [endsInDot, Lexer.endsInDot, dot]

theorem settles_of_cut {line : Nat} (tag : (tagName s).1.isEmpty = false) {spots : List Spot}
    {mid : Cursor} (ht : readTail line (tagName s).2 = .ok (spots, mid)) {w z : Text}
    (cut : mid.rest = w ++ '\n' :: z) (last : Lexer.nested? w = none) :
    Settles (fun _ => True) (readTags line) s := by
  obtain ⟨x, hx, front⟩ := tagName_rest s
  obtain ⟨y, hy, later⟩ := readTail_rest ht
  have same : SameLine mid.rest w := cut ▸ .cut w z
  obtain ⟨spots', ht', -⟩ := later w same
  have name := front _ (same.behind hy)
  refine ⟨x ++ (y ++ w), z, by rw [← hx, ← hy, cut]; simp, ?_⟩
  rw [readTags_tag (by rw [name, tag]), name, ht']
  dsimp only [Except.bind]
  rw [last]
  trivial

theorem tags_tail_eq (within : s <:+ b.text) (tag : (tagName s).1.isEmpty = false) :
    Settles (fun _ => True) (readTags (b.line s)) s ∨ b.tail (tagName s).2 =
      attempted (Prod.map (List.map Spot.token) Cursor.rest)
        (readTail (b.line s) (tagName s).2) := by
  obtain ⟨x, hx, front⟩ := tagName_rest s
  have tail := b.tail_eq ((suffix_of_tagName s).trans within)
  rw [← line_of_passed (passed_tagName _ _) within] at tail
  refine tail.imp_left fun early => early.behind x hx fun w z cut decided => ?_
  have name := front w (cut ▸ .cut w z)
  rw [readTags_tag (by rw [name, tag]), name]
  refine decided.bind ?_
  rintro ⟨spots, mid⟩ - last
  dsimp only at last ⊢
  rw [last]
  trivial

theorem tags_nested_step (within : s <:+ b.text) (tag : (tagName s).1.isEmpty = false)
    {spots : List Spot} {mid : Cursor} {r : Text}
    (he : readTail (b.line s) (tagName s).2 = .ok (spots, mid))
    (nests : Lexer.nested? mid.rest = some r)
    (inner : Settles (fun _ => True) (readTags (b.line r)) r ∨ b.tags r =
      attempted (fun p => (p.1.map Spot.token, p.2.1)) (readTags (b.line r) r)) :
    Settles (fun _ => True) (readTags (b.line s)) s ∨
      passing (b.tag s :: spots.map Spot.token) (b.tags r) =
        attempted (fun p => (p.1.map Spot.token, p.2.1)) (readTags (b.line s) s) := by
  have passed := ((passed_tagName (b.line s) s).trans (laid_of_readTail he).passed).trans
    (passed_of_nested? nests _)
  have line := line_of_passed passed within
  obtain ⟨x, hx, front⟩ := tagName_rest s
  obtain ⟨y, hy, later⟩ := readTail_rest he
  obtain ⟨z, hz, nesting⟩ := nested?_rest nests
  rcases inner with early | same
  · refine .inl (early.behind (x ++ (y ++ z)) (by simp [hx, hy, hz]) fun w v cut decided => ?_)
    have inner : SameLine r w := cut ▸ .cut w v
    have middle := inner.behind hz
    have name := front _ (middle.behind hy)
    obtain ⟨spots', ht', -⟩ := later _ middle
    rw [List.append_assoc, List.append_assoc, readTags_tag (by rw [name, tag]), name, ht']
    dsimp only [Except.bind]
    rw [nesting _ inner]
    dsimp only
    rw [line]
    exact decided_passing_iff.2 decided
  · rw [same, tag_eq within, readTags_tag tag, he]
    dsimp only [Except.bind]
    rw [nests]
    dsimp only
    rw [line]
    cases readTags (b.line r) r <;> simp [attempted, passing, Except.map]

theorem tags_eq (within : s <:+ b.text) :
    Settles (fun _ => True) (readTags (b.line s)) s ∨ b.tags s =
      attempted (fun p => (p.1.map Spot.token, p.2.1)) (readTags (b.line s) s) := by
  fun_induction b.tags s with
  | case1 s tag =>
    rw [readTags, if_pos tag]
    exact .inr rfl
  | case2 s tag stop ht =>
    rw [Bool.not_eq_true] at tag
    rcases tags_tail_eq within tag with early | same
    · exact .inl early
    · rw [ht, eq_comm, attempted_eq_error_iff] at same
      obtain ⟨e, he, rfl⟩ := same
      rw [readTags_tag tag, he]
      exact .inr rfl
  | case3 s tag tokens rest ht hn =>
    rw [Bool.not_eq_true] at tag
    rcases tags_tail_eq within tag with early | same
    · exact .inl early
    · rw [ht, eq_comm, attempted_eq_ok_iff] at same
      obtain ⟨⟨spots, mid⟩, he, same⟩ := same
      obtain ⟨rfl, rfl⟩ : spots.map Spot.token = tokens ∧ mid.rest = rest := by simpa using same
      -- If a line break is left, all was decided at the end of its line.
      by_cases line : '\n' ∈ mid.rest
      · obtain ⟨w, z, cut⟩ := List.append_of_mem line
        exact .inl (settles_of_cut tag he cut (nested?_append_eq_none (cut ▸ hn)))
      · have last : Lexer.nested? mid.rest = none :=
          nested?_append_eq_none (t := []) (by rwa [List.append_nil])
        rw [readTags_tag tag, he, tag_eq within, endsInDot_eq line]
        dsimp only [Except.bind]
        rw [last]
        exact .inr rfl
  | case4 s tag tokens rest ht r hn _ _ _ ih =>
    rw [Bool.not_eq_true] at tag
    rcases tags_tail_eq within tag with early | same
    · exact .inl early
    · rw [ht, eq_comm, attempted_eq_ok_iff] at same
      obtain ⟨⟨spots, mid⟩, he, same⟩ := same
      obtain ⟨rfl, rfl⟩ : spots.map Spot.token = tokens ∧ mid.rest = rest := by simpa using same
      rcases nested?_cases hn with nests | ⟨t, cut⟩
      · exact tags_nested_step within tag he nests
          (ih ((((passed_tagName (b.line s) s).trans (laid_of_readTail he).passed).trans
            (passed_of_nested? nests _)).suffix.trans within))
      · exact .inl (settles_of_cut tag he (w := [':']) cut rfl)

end Buffer

end PugWeave.Markup
