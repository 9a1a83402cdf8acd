import PugWeave.Proofs.Asset.Search
import PugWeave.Proofs.Markup.Spots
import PugWeave.Proofs.Text.Breaks

namespace PugWeave.Asset

open Text Markup.Lexer

def isPlainName (name : Text) : Bool :=
  !name.isEmpty && name.all fun c => isPlainNameChar c && !isQuote c

namespace Assignment

variable (a : Assignment)

def placesFrom (p : Place) (n : Nat) (t : Text) : List (Text × Text) :=
  match aroundLine n t with
  | none => []
  | some (start, current, after) =>
    (a.placesOnLine after (if n = 0 then p else .outside none) current).map fun (before, rest) =>
      (start ++ before, rest)

theorem places_eq {n : Nat} (h : a.line = n + 1) (t : Text) :
    a.places t = a.placesFrom (.outside none) n t := by
  cases hn : aroundLine n t with
  | none => simp [places, placesFrom, h, hn]
  | some parts => simp [places, placesFrom, h, hn]

theorem placesFrom_nil (p : Place) (n : Nat) : a.placesFrom p n [] = [] := by
  cases n <;> simp [placesFrom, aroundLine, placesOnLine]

theorem placesFrom_zero_break {c : Char} (h : isBreak c = true) (p : Place) (r : Text) :
    a.placesFrom p 0 (c :: r) = [] := by
  simp [placesFrom, aroundLine, h, placesOnLine]

theorem placesFrom_zero_cons {c : Char} (h : isBreak c = false) (p : Place) (r : Text) :
    a.placesFrom p 0 (c :: r) = (if p.opensName c then (a.front? (c :: r)).toList else []) ++
      (a.placesFrom (p.next c) 0 r).map (Prod.map (c :: ·) id) := by
  simp [placesFrom, aroundLine, h, placesOnLine, List.takeWhile_append_dropWhile]

theorem placesFrom_succ_crlf (p : Place) (n : Nat) (r : Text) :
    a.placesFrom p (n + 1) ('\r' :: '\n' :: r) =
      (a.placesFrom (.outside none) n r).map (Prod.map ('\r' :: '\n' :: ·) id) := by
  rw [placesFrom, placesFrom, aroundLine]
  cases aroundLine n r with
  | none => rfl
  | some parts => simp

theorem placesFrom_succ_break {c : Char} (h : isBreak c = true) {r : Text}
    (single : ∀ r', c = '\r' → r = '\n' :: r' → False) (p : Place) (n : Nat) :
    a.placesFrom p (n + 1) (c :: r) =
      (a.placesFrom (.outside none) n r).map (Prod.map (c :: ·) id) := by
  have step : aroundLine (n + 1) (c :: r) =
      (aroundLine n r).map (Prod.map (c :: ·) id) := by
    rw [aroundLine]
    · rw [if_pos h]
      rfl
    · exact single
  rw [placesFrom, placesFrom, step]
  cases aroundLine n r with
  | none => rfl
  | some parts => simp

theorem placesFrom_succ_cons {c : Char} (h : isBreak c = false) (p q : Place) (n : Nat) (r : Text) :
    a.placesFrom p (n + 1) (c :: r) =
      (a.placesFrom q (n + 1) r).map (Prod.map (c :: ·) id) := by
  have step : aroundLine (n + 1) (c :: r) =
      (aroundLine (n + 1) r).map (Prod.map (c :: ·) id) := by
    rw [aroundLine]
    · rw [if_neg (by simp [h])]
      rfl
    · rintro _ rfl
      cases h
  rw [placesFrom, placesFrom, step]
  cases aroundLine (n + 1) r with
  | none => rfl
  | some parts => simp

theorem mem_placesFrom {u : Text} {p : Place} {n : Nat} (hn : newlines u = n)
    {c : Char} {z b rest : Text} (hc : isBreak c = false)
    (opens : (p.follow u).opensName c = true) (front : a.front? (c :: z) = some (b, rest)) :
    (u ++ b, rest) ∈ a.placesFrom p n (u ++ c :: z) := by
  fun_induction unify u generalizing p n with
  | case1 =>
    obtain rfl : n = 0 := hn.symm
    have opens : p.opensName c = true := opens
    rw [List.nil_append, placesFrom_zero_cons a hc, if_pos opens, front]
    simp
  | case2 u ih =>
    rw [newlines_crlf] at hn
    subst hn
    rw [List.cons_append, List.cons_append, placesFrom_succ_crlf]
    exact List.mem_map.2 ⟨_, ih rfl (by simpa [isBreak] using opens), rfl⟩
  | case3 d u single ih =>
    have apart : ∀ r', d = '\r' → u ++ c :: z = '\n' :: r' → False := by
      rintro r' hd hu
      cases u with
      | nil =>
        cases hu
        cases hc
      | cons e u =>
        cases hu
        exact single u hd rfl
    rw [List.cons_append]
    cases hd : isBreak d with
    | true =>
      rw [newlines_break hd single] at hn
      subst hn
      rw [placesFrom_succ_break a hd apart]
      exact List.mem_map.2 ⟨_, ih rfl (by simpa [hd] using opens), rfl⟩
    | false =>
      rw [newlines_cons hd] at hn
      have opens : ((p.next d).follow u).opensName c = true := by simpa [hd] using opens
      have inner := ih hn opens
      cases n with
      | zero =>
        rw [placesFrom_zero_cons a hd]
        exact List.mem_append_right _ (List.mem_map.2 ⟨_, inner, rfl⟩)
      | succ n =>
        rw [placesFrom_succ_cons a hd p (p.next d)]
        exact List.mem_map.2 ⟨_, inner, rfl⟩

theorem exists_of_mem_placesFrom {t : Text} {p : Place} {n : Nat} {before rest : Text}
    (h : (before, rest) ∈ a.placesFrom p n t) :
    ∃ u c z b, u ++ c :: z = t ∧ u ++ b = before ∧ newlines u = n ∧ isBreak c = false ∧
      (p.follow u).opensName c = true ∧ a.front? (c :: z) = some (b, rest) := by
  -- As `unify` reads the text, so that a `\r\n` counts as one break.
  fun_induction unify t generalizing p n before with
  | case1 => simp [placesFrom_nil] at h
  | case2 r ih =>
    cases n with
    | zero =>
      rw [placesFrom_zero_break a rfl] at h
      cases h
    | succ n =>
      rw [placesFrom_succ_crlf] at h
      obtain ⟨⟨inner, rest⟩, inside, he⟩ := List.mem_map.1 h
      cases he
      obtain ⟨u, d, z, b, rfl, rfl, hn, hd, opens, front⟩ := ih inside
      exact ⟨'\r' :: '\n' :: u, d, z, b, rfl, rfl, by rw [newlines_crlf, hn], hd,
        by simpa [isBreak] using opens, front⟩
  | case3 c r single ih =>
    cases hc : isBreak c with
    | true =>
      cases n with
      | zero => simp [placesFrom_zero_break a hc] at h
      | succ n =>
        rw [placesFrom_succ_break a hc single] at h
        obtain ⟨⟨inner, rest⟩, inside, he⟩ := List.mem_map.1 h
        cases he
        obtain ⟨u, d, z, b, rfl, rfl, hn, hd, opens, front⟩ := ih inside
        refine ⟨c :: u, d, z, b, rfl, rfl, ?_, hd, by simpa [hc] using opens, front⟩
        rw [newlines_break hc, hn]
        rintro r' hr rfl
        exact single _ hr rfl
    | false =>
      -- A place further on in the same line begins behind `c`.
      have further {inner : Text} (h : (inner, rest) ∈ a.placesFrom (p.next c) n r) :
          ∃ u d z b, u ++ d :: z = c :: r ∧ u ++ b = c :: inner ∧ newlines u = n ∧
            isBreak d = false ∧ (p.follow u).opensName d = true ∧
            a.front? (d :: z) = some (b, rest) := by
        obtain ⟨u, d, z, b, rfl, rfl, hn, hd, opens, front⟩ := ih h
        exact ⟨c :: u, d, z, b, rfl, rfl, by rw [newlines_cons hc, hn], hd,
          by simpa [hc] using opens, front⟩
      cases n with
      | zero =>
        rw [placesFrom_zero_cons a hc] at h
        rcases List.mem_append.1 h with h | h
        · split at h
          · rename_i opens
            exact ⟨[], c, r, before, rfl, rfl, rfl, hc, opens, Option.mem_toList.1 h⟩
          · cases h
        · obtain ⟨⟨inner, rest⟩, inside, he⟩ := List.mem_map.1 h
          cases he
          exact further inside
      | succ n =>
        rw [placesFrom_succ_cons a hc p (p.next c)] at h
        obtain ⟨⟨inner, rest⟩, inside, he⟩ := List.mem_map.1 h
        cases he
        exact further inside

theorem mem_places_iff {t before rest : Text} : (before, rest) ∈ a.places t ↔
    ∃ u c z b, u ++ c :: z = t ∧ u ++ b = before ∧ newlines u + 1 = a.line ∧
      isBreak c = false ∧ ((Place.outside none).follow u).opensName c = true ∧
      a.front? (c :: z) = some (b, rest) := by
  constructor
  · intro h
    cases hl : a.line with
    | zero => simp [places, hl] at h
    | succ n =>
      rw [a.places_eq hl] at h
      obtain ⟨u, c, z, b, ht, hb, hn, seen⟩ := a.exists_of_mem_placesFrom h
      exact ⟨u, c, z, b, ht, hb, by rw [hn], seen⟩
  · rintro ⟨u, c, z, b, rfl, rfl, hn, hc, opens, front⟩
    rw [a.places_eq hn.symm]
    exact a.mem_placesFrom rfl hc opens front

theorem isQuote_of_isSign {c : Char} (h : isSign c = true) : isQuote c = false := by
  simp only [isSign, Bool.or_eq_true, decide_eq_true_eq] at h
  rcases h with (h | rfl) | rfl
  · exact isQuote_of_isBlank h
  · rfl
  · rfl

section Plain

variable {a} (plain : isPlainName a.name = true)
include plain

theorem plain_of_mem_name {c : Char} (h : c ∈ a.name) :
    isPlainNameChar c = true ∧ isQuote c = false := by
  simp only [isPlainName, Bool.and_eq_true, List.all_eq_true, Bool.not_eq_true'] at plain
  exact plain.2 c h

theorem isPlainNameChar_head {t b rest : Text} {c : Char}
    (front : a.front? (c :: t) = some (b, rest)) : isPlainNameChar c = true := by
  obtain ⟨sign, rfl, -, -, whole⟩ := a.front?_eq_some_iff.1 front
  apply (plain_of_mem_name plain _).1
  cases hn : a.name with
  | nil => simp [hn, isPlainName] at plain
  | cons d name =>
    rw [hn] at whole
    cases whole
    exact List.mem_cons_self

theorem isOutside_of_mem_places {t before rest : Text} (h : (before, rest) ∈ a.places t) :
    ((Place.outside none).follow before).IsOutside := by
  obtain ⟨u, c, z, b, rfl, rfl, -, -, opens, front⟩ := a.mem_places_iff.1 h
  obtain ⟨sign, rfl, signs, -⟩ := a.front?_eq_some_iff.1 front
  rw [Place.follow_append]
  refine Place.calm_of_plain ?_ _ (Place.isOutside_of_opensName opens)
  intro d hd
  rcases List.mem_append.1 hd with hd | hd
  · exact (plain_of_mem_name plain hd).2
  · exact isQuote_of_isSign (signs.isSign d hd)

theorem opensName_follow_name {p : Place} (hp : p.IsOutside) {t : Text} (ht : t <+: a.name)
    (ne : t ≠ []) (d : Char) : (p.follow t).opensName d = false := by
  obtain ⟨front, c, rfl⟩ := (List.eq_nil_or_concat t).resolve_left ne
  have quoteless : ∀ e ∈ front, isQuote e = false := fun e he =>
    (plain_of_mem_name plain (ht.subset (by simp [he]))).2
  have last : c ∈ a.name := ht.subset (by simp)
  obtain ⟨hc, quote⟩ := plain_of_mem_name plain last
  obtain ⟨blank, other⟩ := isPlainNameChar_iff.1 hc
  obtain ⟨before, hb⟩ := Place.calm_of_plain quoteless p hp
  simp only [List.mem_cons, not_or] at other
  simp [hb, isBreak_of_isPlainNameChar hc, Place.next, quote, Place.opensName, blank, other]

theorem length_le_of_later {p : Place} {c : Char} {r b inner rest rest' : Text}
    (opens : p.opensName c = true) (front : a.front? (c :: r) = some (b, rest))
    (later : (inner, rest') ∈ a.placesFrom (p.next c) 0 r) : b.length ≤ inner.length + 1 := by
  have hc := isPlainNameChar_head plain front
  obtain ⟨u, d, z, b', rfl, rfl, -, -, opens', front'⟩ := a.exists_of_mem_placesFrom later
  have hd := isPlainNameChar_head plain front'
  obtain ⟨sign, rfl, signs, -, whole⟩ := a.front?_eq_some_iff.1 front
  -- Else the later name would open in the earlier one or in its sign, where none does.
  by_contra short
  have piece : c :: u ++ [d] <+: a.name ++ sign := by
    refine List.prefix_of_prefix_length_le ⟨z, ?_⟩ ⟨_, whole⟩ ?_
    · simp
    · simp only [List.length_append, List.length_cons, List.length_nil] at short ⊢
      omega
  have within : ¬c :: u ++ [d] <+: a.name := by
    intro name
    have shut := opensName_follow_name plain (Place.isOutside_of_opensName opens)
      ((List.prefix_append _ _).trans name) (List.cons_ne_nil c u) d
    rw [Place.follow_cons, if_neg (by simp [isBreak_of_isPlainNameChar hc]), opens'] at shut
    cases shut
  obtain ⟨back, hback⟩ := piece
  rcases List.append_eq_append_iff.1 hback with ⟨gap, hname, -⟩ | ⟨gap, hgap, hsign⟩
  · exact within ⟨gap, hname.symm⟩
  · rcases List.eq_nil_or_concat gap with rfl | ⟨gap, e, rfl⟩
    · rw [List.append_nil] at hgap
      exact within (hgap ▸ List.prefix_refl _)
    · obtain rfl : d = e := by
        have ends := congrArg List.getLast? hgap
        rwa [List.concat_eq_append, ← List.append_assoc, List.getLast?_concat,
          List.getLast?_concat, Option.some.injEq] at ends
      have sign := signs.isSign d (by simp [hsign])
      rw [isSign_of_isPlainNameChar hd] at sign
      cases sign

theorem pairwise_placesFrom (p : Place) (n : Nat) (t : Text) :
    (a.placesFrom p n t).Pairwise fun x y => x.1.length ≤ y.1.length := by
  fun_induction unify t generalizing p n with
  | case1 => rw [placesFrom_nil]; exact .nil
  | case2 r ih =>
    cases n with
    | zero => rw [placesFrom_zero_break a rfl]; exact .nil
    | succ n =>
      rw [placesFrom_succ_crlf, List.pairwise_map]
      exact (ih _ n).imp (by simp)
  | case3 c r single ih =>
    have shift (p : Place) (n : Nat) : ((a.placesFrom p n r).map
        (Prod.map (c :: ·) id)).Pairwise fun x y => x.1.length ≤ y.1.length :=
      List.pairwise_map.2 ((ih p n).imp (by simp))
    cases hc : isBreak c with
    | true =>
      cases n with
      | zero =>
        rw [placesFrom_zero_break a hc]
        exact .nil
      | succ n =>
        rw [placesFrom_succ_break a hc single]
        exact shift _ n
    | false =>
      cases n with
      | zero =>
        rw [placesFrom_zero_cons a hc, List.pairwise_append]
        refine ⟨?_, shift _ 0, ?_⟩
        · split
          · cases a.front? (c :: r) <;> simp
          · exact .nil
        · rintro ⟨b, rest⟩ first y later
          obtain ⟨⟨inner, rest'⟩, inside, rfl⟩ := List.mem_map.1 later
          split at first
          · rename_i opens
            -- The assignment in front is the only one that later ones are compared with.
            exact length_le_of_later plain opens (Option.mem_toList.1 first) inside
          · cases first
      | succ n =>
        rw [placesFrom_succ_cons a hc p (p.next c)]
        exact shift _ (n + 1)

theorem length_le_of_first {t : Text} {first : Text × Text} {more : List (Text × Text)}
    (h : a.places t = first :: more) {place : Text × Text} (hp : place ∈ a.places t) :
    first.1.length ≤ place.1.length := by
  have ordered : (a.places t).Pairwise fun x y => x.1.length ≤ y.1.length := by
    cases hl : a.line with
    | zero => simp [places, hl]
    | succ n =>
      rw [a.places_eq hl]
      exact pairwise_placesFrom plain _ n t
  rw [h] at hp ordered
  rcases List.mem_cons.1 hp with rfl | hp
  · exact Nat.le_refl _
  · exact List.rel_of_pairwise_cons ordered hp

end Plain

end Assignment

end PugWeave.Asset
