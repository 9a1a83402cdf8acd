import PugWeave.Asset.Extraction
import PugWeave.Proofs.Text.Reindentation
import PugWeave.Proofs.Text.Replacement
import PugWeave.Proofs.Text.Respelling

namespace PugWeave.Text

def replacedLines (t : Text) : List Text :=
  split ['\n'] (replaceAll ['\r'] ['\n'] (replaceAll ['\r', '\n'] ['\n'] t))

/-- A `\r` is replaced as well where it came to stand before a `\n` only now. -/
theorem replaceAll_eq_unify (t : Text) :
    replaceAll ['\r'] ['\n'] (replaceAll ['\r', '\n'] ['\n'] t) = unify t := by
  have other {c : Char} (h : c ≠ '\r') (r : Text) :
      replaceAll ['\r'] ['\n'] (c :: r) = c :: replaceAll ['\r'] ['\n'] r :=
    replaceAll_cons (by simp) ['\n'] fun front => h (List.cons_prefix_cons.1 front).1.symm
  fun_induction unify t with
  | case1 => rw [replaceAll_nil (by simp), replaceAll_nil (by simp)]
  | case2 r ih =>
    have pair : replaceAll ['\r', '\n'] ['\n'] ('\r' :: '\n' :: r) =
        '\n' :: replaceAll ['\r', '\n'] ['\n'] r := replaceAll_key_append (by simp) ['\n'] r
    rw [pair, other (by decide), ih]
  | case3 c r single ih =>
    have alone : ¬['\r', '\n'] <+: c :: r := by
      rintro ⟨s, hs⟩
      cases hs
      exact single s rfl rfl
    rw [replaceAll_cons (by simp) _ alone]
    by_cases hr : c = '\r'
    · subst hr
      have front (s : Text) : replaceAll ['\r'] ['\n'] ('\r' :: s) =
          '\n' :: replaceAll ['\r'] ['\n'] s := replaceAll_key_append (by simp) ['\n'] s
      rw [front, ih]
      rfl
    · rw [other hr, ih]
      by_cases hn : c = '\n' <;> simp [isBreak, hr, hn]

theorem replacedLines_eq (t : Text) : replacedLines t = lines t := by
  rw [replacedLines, replaceAll_eq_unify, ← join_lines]
  exact split_join_lines .lf t

theorem aroundLine_zero (t : Text) :
    aroundLine 0 t = some ([], t.takeWhile (!isBreak ·), t.dropWhile (!isBreak ·)) := by
  cases t <;> rfl

theorem aroundLine_succ_nil (n : Nat) : aroundLine (n + 1) [] = none := rfl

section

variable {b : LineBreak} {r : Text} (apart : Breaks b r)
include apart

theorem aroundLine_zero_break : aroundLine 0 (b.text ++ r) = some ([], [], b.text ++ r) := by
  cases b <;> rfl

theorem aroundLine_succ_break (n : Nat) :
    aroundLine (n + 1) (b.text ++ r) = (aroundLine n r).map (Prod.map (b.text ++ ·) id) := by
  cases b with
  | lf | crlf => rfl
  | cr =>
    rw [LineBreak.text, List.singleton_append, aroundLine]
    · rfl
    · rintro r' - rfl
      exact apart rfl rfl

end

section

variable {c : Char} (h : isBreak c = false) (r : Text)
include h

theorem aroundLine_zero_cons :
    aroundLine 0 (c :: r) = (aroundLine 0 r).map (Prod.map id (Prod.map (c :: ·) id)) := by
  simp [aroundLine_zero, h]

theorem aroundLine_succ_cons (n : Nat) :
    aroundLine (n + 1) (c :: r) = (aroundLine (n + 1) r).map (Prod.map (c :: ·) id) := by
  rw [aroundLine]
  · rw [if_neg (by simp [h])]
    rfl
  · rintro r' rfl
    cases h

end

theorem getElem?_lines (n : Nat) (t : Text) :
    (lines t)[n]? = (aroundLine n t).map fun (_, line, _) => line := by
  induction t using breaks_induction generalizing n with
  | nil => cases n <;> rfl
  | broken b r apart ih =>
    rw [lines_break apart]
    cases n with
    | zero =>
      rw [aroundLine_zero_break apart]
      rfl
    | succ n =>
      rw [List.getElem?_cons_succ, ih, aroundLine_succ_break apart, Option.map_map]
      rfl
  | char c r hc ih =>
    obtain ⟨p, ps, hr⟩ := List.exists_cons_of_ne_nil (lines_ne_nil r)
    rw [lines_cons hc, hr, consFirst]
    rw [hr] at ih
    cases n with
    | zero =>
      obtain rfl : p = r.takeWhile (!isBreak ·) := by
        simpa [aroundLine_zero] using ih 0
      rw [aroundLine_zero_cons hc, aroundLine_zero]
      rfl
    | succ n =>
      rw [List.getElem?_cons_succ, ← List.getElem?_cons_succ (a := p), ih,
        aroundLine_succ_cons hc, Option.map_map]
      rfl

/-- Where a line begins and ends, in bytes. The scan has come to a byte of the current line, of
which it knows the number and the beginning, and looks one character ahead. -/
def boundsFrom (n : Nat) (current start here : Nat) : Text → Option (Nat × Nat)
  | [] => if current = n then some (start, here) else none
  | '\r' :: '\n' :: r =>
    if current = n then some (start, here) else boundsFrom n (current + 1) (here + 2) (here + 2) r
  | c :: r =>
    if isBreak c then
      if current = n then some (start, here)
      else boundsFrom n (current + 1) (here + 1) (here + 1) r
    else boundsFrom n current start (here + c.utf8Size) r

def lineBounds (n : Nat) (t : Text) : Option (Nat × Nat) := boundsFrom n 1 0 0 t

theorem boundsFrom_nil (n current start here : Nat) :
    boundsFrom n current start here [] = if current = n then some (start, here) else none := rfl

theorem boundsFrom_break {b : LineBreak} {r : Text} (apart : Breaks b r)
    (n current start here : Nat) :
    boundsFrom n current start here (b.text ++ r) =
      if current = n then some (start, here)
      else boundsFrom n (current + 1) (here + byteLength b.text) (here + byteLength b.text) r := by
  cases b with
  | lf | crlf => rfl
  | cr =>
    rw [LineBreak.text, List.singleton_append, boundsFrom]
    · rfl
    · rintro r' - rfl
      exact apart rfl rfl

theorem boundsFrom_cons {c : Char} (h : isBreak c = false) (r : Text)
    (n current start here : Nat) :
    boundsFrom n current start here (c :: r) =
      boundsFrom n current start (here + c.utf8Size) r := by
  rw [boundsFrom]
  · rw [if_neg (by simp [h])]
  · rintro r' rfl
    cases h

theorem boundsFrom_self (n start here : Nat) (t : Text) :
    boundsFrom n n start here t =
      (aroundLine 0 t).map fun (_, line, _) => (start, here + byteLength line) := by
  induction t using breaks_induction generalizing here with
  | nil => simp [boundsFrom_nil, aroundLine_zero, byteLength]
  | broken b r apart ih =>
    rw [boundsFrom_break apart, if_pos rfl, aroundLine_zero_break apart]
    rfl
  | char c r hc ih =>
    rw [boundsFrom_cons hc, ih, aroundLine_zero_cons hc, Option.map_map]
    simp [aroundLine_zero, byteLength, Nat.add_assoc]

theorem boundsFrom_add (n current start here : Nat) (t : Text) :
    boundsFrom (current + (n + 1)) current start here t =
      (aroundLine (n + 1) t).map fun (before, line, _) =>
        (here + byteLength before, here + byteLength before + byteLength line) := by
  induction t using breaks_induction generalizing n current start here with
  | nil => simp [boundsFrom_nil, aroundLine_succ_nil]
  | broken b r apart ih =>
    rw [boundsFrom_break apart, if_neg (by omega), aroundLine_succ_break apart, Option.map_map,
      ← Nat.succ_add_eq_add_succ]
    cases n with
    | zero =>
      rw [Nat.add_zero, boundsFrom_self]
      simp [aroundLine_zero]
    | succ n =>
      rw [ih]
      congr 1
      funext x
      simp [byteLength_append, Nat.add_assoc]
  | char c r hc ih =>
    rw [boundsFrom_cons hc, ih, aroundLine_succ_cons hc, Option.map_map]
    congr 1
    funext x
    simp [byteLength, Nat.add_assoc]

theorem boundsFrom_eq_none {n current : Nat} (h : n < current) (start here : Nat) (t : Text) :
    boundsFrom n current start here t = none := by
  induction t using breaks_induction generalizing current start here with
  | nil => rw [boundsFrom_nil, if_neg h.ne']
  | broken b r apart ih => rw [boundsFrom_break apart, if_neg h.ne', ih (Nat.lt_succ_of_lt h)]
  | char c r hc ih => rw [boundsFrom_cons hc, ih h]

theorem lineBounds_zero (t : Text) : lineBounds 0 t = none :=
  boundsFrom_eq_none Nat.one_pos 0 0 t

theorem lineBounds_succ (n : Nat) (t : Text) :
    lineBounds (n + 1) t = (aroundLine n t).map fun (before, line, _) =>
      (byteLength before, byteLength before + byteLength line) := by
  cases n with
  | zero =>
    rw [lineBounds, boundsFrom_self]
    simp [aroundLine_zero, byteLength]
  | succ n =>
    rw [lineBounds, Nat.add_comm, boundsFrom_add]
    simp

theorem isSome_lineBounds_iff (n : Nat) (t : Text) :
    (lineBounds n t).isSome = true ↔ 1 ≤ n ∧ n ≤ (lines t).length := by
  cases n with
  | zero => simp [lineBounds_zero]
  | succ n =>
    have found : (lineBounds (n + 1) t).isSome = (lines t)[n]?.isSome := by
      rw [lineBounds_succ, getElem?_lines, Option.isSome_map, Option.isSome_map]
    rw [found, Option.isSome_iff_ne_none, ne_eq, List.getElem?_eq_none_iff]
    omega

/-- Markup is read in the lines that are left when breaks are replaced, and the number of a line has
bounds in the text just if there is such a line. Between its bounds stands this line, where an
assignment of this number is looked for; one of another number is found nowhere. -/
theorem lineBounds_agree (t : Text) :
    Markup.spots t = Markup.Lexer.readLines none 1 (join ['\n'] (replacedLines t)) ∧
    ∀ n, ((lineBounds n t).isSome = true ↔ 1 ≤ n ∧ n ≤ (replacedLines t).length) ∧
      (∀ start stop, lineBounds n t = some (start, stop) → ∃ before line after,
        before ++ (line ++ after) = t ∧ byteLength before = start ∧
        byteLength (before ++ line) = stop ∧ (replacedLines t)[n - 1]? = some line ∧
        ∀ (a : Asset.Assignment) skip, a.line = n → a.locate? skip t =
          (a.onLine after skip (.outside none) line).map fun (front, rest) =>
            (before ++ front, rest)) ∧
      (lineBounds n t = none →
        ∀ (a : Asset.Assignment) skip, a.line = n → a.locate? skip t = none) := by
  rw [replacedLines_eq]
  refine ⟨rfl, fun n => ⟨isSome_lineBounds_iff n t, ?_, ?_⟩⟩
  · intro start stop h
    cases n with
    | zero =>
      rw [lineBounds_zero] at h
      cases h
    | succ n =>
      rw [lineBounds_succ] at h
      obtain ⟨⟨before, line, after⟩, around, same⟩ := Option.map_eq_some_iff.1 h
      cases same
      refine ⟨before, line, after, append_of_aroundLine around, rfl, byteLength_append _ _, ?_, ?_⟩
      · rw [Nat.add_sub_cancel, getElem?_lines, around]
        rfl
      · intro a skip number
        rw [Asset.Assignment.locate?, number]
        dsimp only
        rw [around]
  · intro h a skip number
    cases n with
    | zero => rw [Asset.Assignment.locate?, number]
    | succ n =>
      rw [lineBounds_succ, Option.map_eq_none_iff] at h
      rw [Asset.Assignment.locate?, number]
      dsimp only
      rw [h]

example : (List.range 6).map (fun n => lineBounds n "é\r\r\nab\n".toList) =
    [none, some (0, 2), some (3, 3), some (5, 7), some (8, 8), none] := by decide

end PugWeave.Text
