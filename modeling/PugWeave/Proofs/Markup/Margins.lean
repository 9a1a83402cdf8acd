import PugWeave.Proofs.Markup.Rereading
import PugWeave.Proofs.Markup.Spots

namespace PugWeave.Markup

open Text

theorem Laid.line_le {line line' : Nat} {s rest : Text} {spots : List Spot}
    (h : Laid line s spots line' rest) : line ≤ line' := by
  have passed {line line' : Nat} {s rest : Text} (h : Lexer.Passed line s line' rest) :
      line ≤ line' := by
    obtain ⟨x, -, rfl, -⟩ := h.split
    exact Nat.le_add_right _ _
  induction h with
  | nil h => exact passed h
  | bare _ _ ih => exact ih
  | value front _ back _ _ ih => exact Nat.le_trans (passed front) (Nat.le_trans (passed back) ih)

namespace Lexer

theorem indentation_takeWhile (s : Text) : indentation (s.takeWhile (· ≠ '\n')) = margin s := by
  rw [indentation, List.takeWhile_takeWhile, margin]
  congr 1
  funext c
  simp [isMarginal]

theorem trimStart_takeWhile (s : Text) : trimStart (s.takeWhile (· ≠ '\n')) = body s := by
  induction s with
  | nil => rfl
  | cons c r ih =>
    by_cases line : c = '\n'
    · subst line
      simp [body, inward, isMarginal, trimStart]
    · cases hb : isBlank c with
      | true => simpa [trimStart, body, inward, isMarginal, line, hb] using ih
      | false => simp [trimStart, body, inward, isMarginal, line, hb]

theorem drop_margin (s : Text) : s.drop (margin s).length = inward s := by
  calc s.drop (margin s).length = (margin s ++ inward s).drop (margin s).length := by
        rw [margin_append_inward]
    _ = inward s := List.drop_left

def after (s : Text) : Text := s.dropWhile (· ≠ '\n')

theorem after_inward (s : Text) : after (inward s) = after s := by
  conv_rhs => rw [← margin_append_inward s]
  exact (List.dropWhile_append_of_pos fun c hc => by simpa using (isBlank_of_mem_margin hc).2).symm

def isPassedOver (block : Option Nat) (s : Text) : Bool :=
  (body s).isEmpty || block.any (· < (margin s).length)

def isMixed (margin : Text) : Bool := margin.contains ' ' && margin.contains '\t'

theorem readLine_eq (block : Option Nat) (line : Nat) (s : Text) : readLine block line s =
    if isPassedOver block s then .ok ([], block, ⟨line, s⟩)
    else if isMixed (margin s) then .error ⟨line, .mixedIndentation⟩
    else
      match LineKind.of (body s) with
      | .rawText => .ok ([], some (margin s).length, ⟨line, s⟩)
      | .plain => .ok ([], none, ⟨line, s⟩)
      | .tag =>
        match readTags line (inward s) with
        | .error e => .error e
        | .ok (spots, opens, cursor) =>
          .ok (spots, if opens then some (margin s).length else none, cursor) := by
  rw [readLine]
  rw [indentation_takeWhile, trimStart_takeWhile, drop_margin]
  rfl

inductive Below (next : Option Nat) (cursor : Cursor) : List Spot → Prop
  | last : after cursor.rest = [] → Below next cursor []
  | more : after cursor.rest = '\n' :: rest →
      readLines next (cursor.line + 1) rest = .ok below → Below next cursor below

theorem below_iff_of_last {next : Option Nat} {cursor : Cursor} {below : List Spot}
    (last : after cursor.rest = []) : Below next cursor below ↔ below = [] := by
  constructor
  · intro h
    cases h with
    | last => rfl
    | more more =>
      rw [last] at more
      cases more
  · rintro rfl
    exact .last last

theorem below_iff_of_more {next : Option Nat} {cursor : Cursor} {rest : Text} {below : List Spot}
    (more : after cursor.rest = '\n' :: rest) :
    Below next cursor below ↔ readLines next (cursor.line + 1) rest = .ok below := by
  constructor
  · intro h
    cases h with
    | last last =>
      rw [last] at more
      cases more
    | more again read =>
      rw [more] at again
      cases again
      exact read
  · exact .more more

theorem readLines_eq_ok_iff {block : Option Nat} {line : Nat} {s : Text} {read : List Spot} :
    readLines block line s = .ok read ↔ ∃ first next cursor below,
      readLine block line s = .ok (first, next, cursor) ∧ Below next cursor below ∧
        first ++ below = read := by
  rw [readLines.eq_def]
  split
  · rename_i he
    simp [he]
  · rename_i first next cursor hl
    split
    · rename_i hd
      have last : after cursor.rest = [] := hd
      simp [hl, below_iff_of_last last]
    · rename_i c rest hd
      obtain rfl : c = '\n' := by
        have stops := List.head?_dropWhile_not (· ≠ '\n') cursor.rest
        rw [hd] at stops
        simpa using stops
      have more : after cursor.rest = '\n' :: rest := hd
      cases hr : readLines next (cursor.line + 1) rest <;>
        simp [hl, below_iff_of_more more, hr, Except.map]

theorem readLine_cases {block next : Option Nat} {line : Nat} {s : Text} {read : List Spot}
    {cursor : Cursor} (h : readLine block line s = .ok (read, next, cursor)) :
    (read = [] ∧ cursor.line = line ∧ after cursor.rest = after s) ∨
      (∃ opens, readTags line (inward s) = .ok (read, opens, cursor)) ∧
        ∃ spot more, read = spot :: more ∧ spot.token.line = line := by
  rw [readLine_eq] at h
  split at h
  · cases h
    exact .inl ⟨rfl, rfl, rfl⟩
  · split at h
    · cases h
    · split at h
      · cases h
        exact .inl ⟨rfl, rfl, rfl⟩
      · cases h
        exact .inl ⟨rfl, rfl, rfl⟩
      · split at h
        · cases h
        · rename_i opens cursor ht
          cases h
          cases tag : (tagName (inward s)).1.isEmpty with
          | true =>
            rw [readTags, if_pos tag] at ht
            cases ht
            exact .inl ⟨rfl, rfl, after_inward s⟩
          | false =>
            refine .inr ⟨⟨opens, ht⟩, ?_⟩
            obtain ⟨spots, mid, -, ht⟩ := (readTags_eq_ok_iff tag).1 ht
            split at ht
            · obtain ⟨rfl, -⟩ := ht
              exact ⟨_, spots, rfl, rfl⟩
            · obtain ⟨tail, -, rfl⟩ := ht
              exact ⟨_, spots ++ tail, rfl, rfl⟩

/-- Margins in which lines stand in the same order, and in none of which blanks are newly mixed. -/
structure Steady (K : Text → Text → Prop) : Prop where
  order : ∀ {a a' b b'}, K a a' → K b b' → (a.length < b.length ↔ a'.length < b'.length)
  mixed : ∀ {a a'}, K a a' → isMixed a' = true → isMixed a = true

def Blocks (K : Text → Text → Prop) : Option Nat → Option Nat → Prop :=
  Option.Rel fun n n' => ∃ m m', K m m' ∧ m.length = n ∧ m'.length = n'

section

variable {K : Text → Text → Prop} {block block' : Option Nat} {line : Nat} {s s' : Text}

theorem isPassedOver_eq (steady : Steady K) (blocks : Blocks K block block')
    (content : body s' = body s) (margins : body s ≠ [] → K (margin s) (margin s')) :
    isPassedOver block' s' = isPassedOver block s := by
  rw [isPassedOver, isPassedOver, content]
  cases hb : (body s).isEmpty with
  | true => rfl
  | false =>
    have margins := margins (by simpa using hb)
    cases blocks with
    | none => rfl
    | some h =>
      obtain ⟨m, m', hm, rfl, rfl⟩ := h
      simp [steady.order hm margins]

theorem Respaced.readLine (steady : Steady K) (blocks : Blocks K block block')
    (h : Respaced K ('\n' :: s) ('\n' :: s')) {read : List Spot} {next : Option Nat}
    {cursor : Cursor}
    (hs : readLine block line s = .ok (read, next, cursor)) :
    ∃ read' next' cursor', readLine block' line s' = .ok (read', next', cursor') ∧
      Blocks K next next' ∧ Matches K read read' ⟨cursor.line, after cursor.rest⟩
        ⟨cursor'.line, after cursor'.rest⟩ := by
  cases h with
  | char other => exact absurd rfl other
  | newline margins h =>
    obtain ⟨content, rest⟩ := h.dropWhile (p := (· ≠ '\n')) rfl
    have quiet : Matches K [] [] ⟨line, after s⟩ ⟨line, after s'⟩ :=
      ⟨rfl, rfl, by rw [← after_inward s, ← after_inward s']; exact rest⟩
    rw [readLine_eq] at hs ⊢
    rw [isPassedOver_eq steady blocks content margins, show body s' = body s from content]
    split at hs
    · rename_i passed
      cases hs
      rw [if_pos passed]
      exact ⟨_, _, _, rfl, blocks, quiet⟩
    · rename_i passed
      rw [if_neg passed]
      have margins : K (margin s) (margin s') := by
        refine margins fun empty => passed ?_
        rw [isPassedOver, empty]
        rfl
      split at hs
      · cases hs
      · rename_i pure
        rw [if_neg fun mixed => pure (steady.mixed margins mixed)]
        have opens : Blocks K (some (margin s).length) (some (margin s').length) :=
          .some ⟨_, _, margins, rfl, rfl⟩
        split at hs
        · cases hs
          dsimp only
          exact ⟨_, _, _, rfl, opens, quiet⟩
        · cases hs
          dsimp only
          exact ⟨_, _, _, rfl, .none, quiet⟩
        · split at hs
          · cases hs
          · rename_i ends cursor ht
            cases hs
            obtain ⟨read', cursor', ht', tags⟩ := h.readTags ht
            rw [ht']
            refine ⟨_, _, _, rfl, ?_, tags.outlines, tags.line, (tags.rest.dropWhile rfl).2⟩
            cases ends with
            | true => exact opens
            | false => exact .none

theorem after_cases (h : Respaced K (after s) (after s')) :
    after s = [] ∧ after s' = [] ∨ ∃ rest rest', after s = '\n' :: rest ∧
      after s' = '\n' :: rest' ∧ Respaced K ('\n' :: rest) ('\n' :: rest') := by
  have first := List.head?_dropWhile_not (· ≠ '\n') s
  rw [← after] at first
  generalize after s = t, after s' = t' at h first
  cases h with
  | nil => exact .inl ⟨rfl, rfl⟩
  | char other => exact absurd (by simpa using first) other
  | newline margins h => exact .inr ⟨_, _, rfl, rfl, .newline margins h⟩

theorem length_lt_of_after {t rest : Text} (suffix : t <:+ s) (h : after t = '\n' :: rest) :
    rest.length < s.length := by
  have shorter := (List.dropWhile_suffix (· ≠ '\n') (l := t)).length_le
  rw [← after, h] at shorter
  have := suffix.length_le
  simp only [List.length_cons] at shorter
  omega

theorem Respaced.readLines (steady : Steady K) (blocks : Blocks K block block')
    (h : Respaced K ('\n' :: s) ('\n' :: s')) {read : List Spot}
    (hs : readLines block line s = .ok read) :
    ∃ read', readLines block' line s' = .ok read' ∧
      read'.map (·.token.outline) = read.map (·.token.outline) := by
  induction hn : s.length using Nat.strongRecOn generalizing block block' line s s' read with
  | ind n ih =>
    subst hn
    obtain ⟨first, next, cursor, below, hl, hbelow, rfl⟩ := readLines_eq_ok_iff.1 hs
    obtain ⟨first', next', cursor', hl', blocks, same, line, rest⟩ := h.readLine steady blocks hl
    rcases after_cases rest with ⟨last, last'⟩ | ⟨rest, rest', more, more', hr⟩
    · obtain rfl := (below_iff_of_last last).1 hbelow
      refine ⟨first', readLines_eq_ok_iff.2 ⟨_, _, _, [], hl', .last last', by simp⟩, ?_⟩
      rw [List.append_nil, same]
    · have less := length_lt_of_after (suffix_of_readLine hl) more
      obtain ⟨below', hbelow', tail⟩ :=
        ih _ less blocks hr ((below_iff_of_more more).1 hbelow) rfl
      have line : cursor'.line = cursor.line := line
      rw [← line] at hbelow'
      refine ⟨first' ++ below', readLines_eq_ok_iff.2 ⟨_, _, _, below', hl', .more more' hbelow',
        rfl⟩, ?_⟩
      rw [List.map_append, List.map_append, same, tail]

end

def Since (line : Nat) (read : List Spot) : Prop := ∀ spot ∈ read, line ≤ spot.token.line

section

variable {line : Nat} {s : Text} {read : List Spot} {cursor : Cursor}

theorem Since.mono {line line' : Nat} (h : line ≤ line') (since : Since line' read) :
    Since line read := fun spot mem => Nat.le_trans h (since spot mem)

theorem Since.append {a b : List Spot} (ha : Since line a) (hb : Since line b) :
    Since line (a ++ b) := by
  intro spot mem
  exact (List.mem_append.1 mem).elim (ha spot) (hb spot)

theorem since_of_readAttr {opened : Nat} {c : Char} {r : Text} {spot : Spot}
    (h : readAttr opened line c r = .ok (spot, cursor)) : Since line [spot] := by
  have stands : spot.token.line = line := by
    simp only [readAttr] at h
    split at h
    · cases h
    · split at h
      · cases h
        rfl
      · split at h
        · cases h
        · cases h
          rfl
  exact List.forall_mem_singleton.2 (Nat.le_of_eq stands.symm)

theorem since_of_readList {opened : Nat} (h : readList opened line s = .ok (read, cursor)) :
    Since line read := by
  fun_induction readList opened line s generalizing read with
  | case2 _ _ _ _ ih => exact (ih h).mono (Nat.le_add_right _ _)
  | case3 =>
    cases h
    simp [Since]
  | case5 _ _ _ _ _ _ _ ha _ ih =>
    obtain ⟨tail, hr, rfl⟩ := passing_eq_ok_iff.1 h
    exact (since_of_readAttr ha).append ((ih hr).mono (laid_of_readAttr ha).line_le)
  | _ => simp_all

theorem since_of_readTail (h : readTail line s = .ok (read, cursor)) : Since line read := by
  fun_induction readTail line s generalizing read with
  | case1 | case7 =>
    cases h
    simp [Since]
  | case2 _ _ _ _ _ ih => exact ih h
  | case4 _ _ _ _ hl _ _ ih =>
    obtain ⟨tail, hr, rfl⟩ := passing_eq_ok_iff.1 h
    exact (since_of_readList hl).append ((ih hr).mono (laid_of_readList hl).line_le)
  | case6 _ _ _ _ _ _ _ hl _ ih =>
    obtain ⟨x, -, lines, -⟩ := exists_of_readSpread hl
    exact (ih h).mono (lines ▸ Nat.le_add_right _ _)
  | _ => simp at h

theorem since_tagSpot (line : Nat) (s : Text) : Since line [tagSpot line s] :=
  List.forall_mem_singleton.2 (Nat.le_refl _)

theorem since_of_readTags {opens : Bool} (h : readTags line s = .ok (read, opens, cursor)) :
    Since line read := by
  fun_induction readTags line s generalizing read with
  | case1 =>
    cases h
    simp [Since]
  | case2 => simp at h
  | case3 _ s _ _ _ ht _ =>
    cases h
    exact (since_tagSpot _ s).append (since_of_readTail ht)
  | case4 _ s _ _ _ ht _ hn _ _ _ ih =>
    obtain ⟨tail, hr, rfl⟩ := passing_eq_ok_iff.1 h
    have front := (since_tagSpot _ s).append (since_of_readTail ht)
    exact front.append ((ih hr).mono (laid_of_readTail ht).line_le)

theorem since_of_readLine {block next : Option Nat}
    (h : readLine block line s = .ok (read, next, cursor)) : Since line read := by
  rcases readLine_cases h with ⟨rfl, -⟩ | ⟨⟨opens, ht⟩, -⟩
  · simp [Since]
  · exact since_of_readTags ht

theorem since_of_readLines {block : Option Nat} (h : readLines block line s = .ok read) :
    Since line read := by
  induction hn : s.length using Nat.strongRecOn generalizing block line s read with
  | ind n ih =>
    subst hn
    obtain ⟨first, next, cursor, below, hl, hbelow, rfl⟩ := readLines_eq_ok_iff.1 h
    refine (since_of_readLine hl).append ?_
    cases hbelow with
    | last => simp [Since]
    | more more hbelow =>
      have := (laid_of_readLine hl).line_le
      exact (ih _ (length_lt_of_after (suffix_of_readLine hl) more) hbelow rfl).mono (by omega)

theorem Below.since {next : Option Nat} (h : Below next cursor read) :
    Since (cursor.line + 1) read := by
  cases h with
  | last => simp [Since]
  | more _ h => exact since_of_readLines h

theorem not_since_of_lines {spot : Spot} {more read' : List Spot}
    (same : read'.map (·.token.line) = (spot :: more).map (·.token.line)) :
    ¬Since (spot.token.line + 1) read' := by
  intro since
  cases read' with
  | nil => cases same
  | cons first rest =>
    have after := since first List.mem_cons_self
    have head : first.token.line = spot.token.line := (List.cons.inj same).1
    omega

end

theorem outline_line (t : Token) : t.outline.line = t.line := by
  cases t <;> rfl

theorem lines_of_outlines {read read' : List α} (f : α → Token)
    (h : read'.map (fun a => (f a).outline) = read.map fun a => (f a).outline) :
    read'.map (fun a => (f a).line) = read.map fun a => (f a).line := by
  have lines := congrArg (List.map Token.line) h
  simpa [outline_line, Function.comp_def] using lines

section

variable {K : Text → Text → Prop} {block block' : Option Nat} {line : Nat} {s s' : Text}

theorem outlines_of_lines (h : Respaced K ('\n' :: s) ('\n' :: s')) {read read' : List Spot}
    (hs : readLines block line s = .ok read) (hs' : readLines block' line s' = .ok read')
    (same : read'.map (·.token.line) = read.map (·.token.line)) :
    read'.map (·.token.outline) = read.map (·.token.outline) := by
  induction hn : s.length using Nat.strongRecOn generalizing block block' line s s' read read' with
  | ind n ih =>
    subst hn
    obtain ⟨first, next, cursor, below, hl, hbelow, rfl⟩ := readLines_eq_ok_iff.1 hs
    obtain ⟨first', next', cursor', below', hl', hbelow', rfl⟩ := readLines_eq_ok_iff.1 hs'
    have alike : first'.map (·.token.outline) = first.map (·.token.outline) ∧
        cursor'.line = cursor.line ∧ Respaced K (after cursor.rest) (after cursor'.rest) := by
      cases h with
      | char other => exact absurd rfl other
      | newline _ inner =>
        -- A line has tokens in both texts or in none, or else the lines of tokens would differ.
        rcases readLine_cases hl with ⟨rfl, stays, rest⟩ | ⟨⟨opens, ht⟩, spot, more, rfl, rfl⟩ <;>
          rcases readLine_cases hl' with
            ⟨rfl, stays', rest'⟩ | ⟨⟨opens', ht'⟩, spot', more', rfl, stands'⟩
        · refine ⟨rfl, stays'.trans stays.symm, ?_⟩
          rw [rest, rest', ← after_inward s, ← after_inward s']
          exact (inner.dropWhile rfl).2
        · subst stands'
          exact absurd (stays ▸ hbelow.since) (not_since_of_lines same.symm)
        · exact absurd (stays' ▸ hbelow'.since) (not_since_of_lines same)
        · obtain ⟨read, mid, ht'', tags⟩ := inner.readTags ht
          rw [ht'] at ht''
          cases ht''
          exact ⟨tags.outlines, tags.line, (tags.rest.dropWhile rfl).2⟩
    obtain ⟨outlines, lines, rest⟩ := alike
    rw [List.map_append, List.map_append, outlines]
    congr 1
    rcases after_cases rest with ⟨last, last'⟩ | ⟨rest, rest', more, more', hr⟩
    · rw [(below_iff_of_last last).1 hbelow, (below_iff_of_last last').1 hbelow']
    · rw [List.map_append, List.map_append, lines_of_outlines Spot.token outlines] at same
      rw [below_iff_of_more more] at hbelow
      rw [below_iff_of_more more', lines] at hbelow'
      exact ih _ (length_lt_of_after (suffix_of_readLine hl) more) hr hbelow hbelow'
        (List.append_cancel_left same) rfl

end

end Lexer

end PugWeave.Markup
