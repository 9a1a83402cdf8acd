import PugWeave.Proofs.Asset.Sight

namespace PugWeave.Asset

open Text
open Markup (Written Spelled)
open Markup.Lexer (isPlainNameChar isPlainNameChar_iff isBreak_of_isPlainNameChar)

structure Inline (t : Text) : Prop where
  ne_nil : t ≠ []
  unbroken : ∀ c ∈ t, isBreak c = false
  closed : Place.Closed t

namespace Inline

variable {t u : Text} (h : Inline t)
include h

theorem getLast?_append (front : Text) : (front ++ t).getLast? ≠ some '\r' := by
  obtain ⟨init, c, rfl⟩ := (List.eq_nil_or_concat t).resolve_left h.ne_nil
  intro last
  have hc := h.unbroken c (by simp)
  rw [List.concat_eq_append, ← List.append_assoc, List.getLast?_concat, Option.some.injEq] at last
  subst last
  cases hc

theorem head?_append (back : Text) : (t ++ back).head? ≠ some '\n' := by
  obtain ⟨c, r, rfl⟩ := List.exists_cons_of_ne_nil h.ne_nil
  intro first
  have hc := h.unbroken c List.mem_cons_self
  obtain rfl : c = '\n' := by simpa using first
  cases hc

theorem unify_append (front back : Text) :
    unify (front ++ (t ++ back)) = unify front ++ (t ++ unify back) := by
  have ends : t.getLast? ≠ some '\r' := h.getLast?_append []
  rw [Text.unify_append (.inr (h.head?_append back)), Text.unify_append (.inl ends),
    unify_eq_self h.unbroken]

theorem newlines_append (front back : Text) :
    newlines (front ++ (t ++ back)) = newlines front + newlines back := by
  have ends : t.getLast? ≠ some '\r' := h.getLast?_append []
  rw [Text.newlines_append (.inr (h.head?_append back)), Text.newlines_append (.inl ends),
    newlines_eq_zero h.unbroken, Nat.zero_add]

theorem calm : Place.Calm t := h.closed.calm h.unbroken

theorem exchange (hu : Inline u) {front gap : Text} {p : Place} (hp : (p.follow front).IsOutside)
    (hg : (p.follow (front ++ (t ++ gap))).IsOutside) :
    (p.follow (front ++ (u ++ gap))).IsOutside := by
  rw [Place.follow_append, Place.follow_append] at hg ⊢
  exact (h.calm _ hp).follow_congr (hu.calm _ hp) hg

end Inline

theorem inline_of_isPlainName {name : Text} (h : isPlainName name = true) : Inline name := by
  simp only [isPlainName, Bool.and_eq_true, Bool.not_eq_true', List.isEmpty_eq_false_iff,
    List.all_eq_true] at h
  exact ⟨h.1, fun c hc => isBreak_of_isPlainNameChar (h.2 c hc).1,
    Place.closed_of_plain fun c hc => (h.2 c hc).2⟩

theorem not_isPlainNameChar_after {s name value after rest : Text}
    (h : Written s name value after) (read : unify rest = after) :
    ∀ c ∈ rest.head?, isPlainNameChar c = false := by
  intro c hc
  cases plain : isPlainNameChar c with
  | false => rfl
  | true =>
    have head := head?_unify hc (isBreak_of_isPlainNameChar plain)
    obtain ⟨blank, other⟩ := isPlainNameChar_iff.1 plain
    rw [read] at head
    rcases h.ends c head with h | rfl | rfl
    · rw [blank] at h
      cases h
    · simp at other
    · simp at other

theorem isSign_of_mem_unify {sign : Text} (h : Signs sign) {c : Char} (hc : c ∈ unify sign) :
    isSign c = true := by
  rcases mem_unify hc with hc | rfl
  · exact h.isSign c hc
  · rfl

theorem length_le_of_spelled {u name sign front spelt sign' : Text} (h : Spelled name spelt)
    (signs : ∀ c ∈ sign, isSign c = true)
    (same : (u ++ name) ++ sign = (front ++ spelt) ++ sign') : front.length ≤ u.length := by
  obtain ⟨d, last, nosign, -⟩ := h.last
  have longer := h.longer
  rcases List.append_eq_append_iff.1 same with ⟨gap, hgap, rfl⟩ | ⟨gap, hgap, -⟩
  · rcases List.eq_nil_or_concat gap with rfl | ⟨gap, e, rfl⟩
    · have := congrArg List.length hgap
      simp only [List.length_append, List.length_nil] at this
      omega
    · obtain rfl : d = e := by
        simpa [List.getLast?_append, last] using congrArg List.getLast? hgap
      have sign := signs d (by simp)
      rw [nosign] at sign
      cases sign
  · have := congrArg List.length hgap
    simp only [List.length_append] at this
    omega

/-- One text stands for another before the rest of a source: names in the rest stand on the same
lines and open behind both or behind neither. -/
structure Replaces (new old rest : Text) : Prop where
  newlines : newlines new = newlines old
  new_ends : new.getLast? ≠ some '\r'
  old_ends : old.getLast? ≠ some '\r'
  alike : (Place.outside none).follow new = (Place.outside none).follow old ∨
    ((Place.outside none).follow new).IsOutside ∧ ((Place.outside none).follow old).IsOutside ∧
      ∀ c ∈ rest.head?, isPlainNameChar c = false

namespace Replaces

theorem nil (rest : Text) : Replaces [] [] rest := ⟨rfl, by simp, by simp, .inl rfl⟩

variable {new old rest : Text}

theorem newlines_append (h : Replaces new old rest) (x : Text) :
    Text.newlines (new ++ x) = Text.newlines (old ++ x) := by
  rw [Text.newlines_append (.inl h.new_ends), Text.newlines_append (.inl h.old_ends), h.newlines]

theorem opensName {x z : Text} {c : Char} (h : Replaces new old (x ++ c :: z))
    (hc : isPlainNameChar c = true) : ((Place.outside none).follow (new ++ x)).opensName c =
      ((Place.outside none).follow (old ++ x)).opensName c := by
  rw [Place.follow_append, Place.follow_append]
  rcases h.alike with same | ⟨⟨_, hn⟩, ⟨_, ho⟩, shut⟩
  · rw [same]
  · rw [hn, ho]
    cases x with
    | nil =>
      rw [shut c (by simp)] at hc
      cases hc
    | cons d x => rfl

variable {s t after before : Text} {a : Assignment}

theorem unify_eq (h : Replaces new old s) (value : Inline a.value)
    (written : Written t a.name a.value after) (suffix : t <:+ unify s)
    (own : (before, rest) ∈ a.places (old ++ s))
    (left : (unify (a.value ++ rest)).length = (a.value ++ after).length) :
    unify rest = after ∧ ∃ front name sign,
      unify before = unify old ++ (front ++ (name ++ sign)) ∧ Spelled a.name name := by
  obtain ⟨name, sign, rfl, spelled, -⟩ := written.text
  obtain ⟨front, whole⟩ := suffix
  have split := congrArg unify (a.append_of_mem_places own)
  have values : unify (a.value ++ rest) = a.value ++ unify rest := value.unify_append [] rest
  rw [value.unify_append, Text.unify_append (.inl h.old_ends), ← whole] at split
  rw [values] at left
  have split : unify before ++ (a.value ++ unify rest) =
      (unify old ++ (front ++ (name ++ sign))) ++ (a.value ++ after) := by
    simpa using split
  obtain ⟨fronts, backs⟩ := List.append_inj' split left
  exact ⟨List.append_cancel_left backs, front, name, sign, fronts, spelled⟩

theorem mem_places (h : Replaces new old s) (plain : isPlainName a.name = true)
    (value : Inline a.value) (written : Written t a.name a.value after) (suffix : t <:+ unify s)
    (own : (before, rest) ∈ a.places (old ++ s))
    (left : (unify (a.value ++ rest)).length = (a.value ++ after).length) :
    ∃ front, (front, rest) ∈ a.places (new ++ s) := by
  obtain ⟨-, front, name, sign, hbefore, spelled⟩ := h.unify_eq value written suffix own left
  obtain ⟨u, c, z, b, hu, rfl, hn, hc, opens, hfront⟩ := a.mem_places_iff.1 own
  have head := Assignment.isPlainNameChar_head plain hfront
  obtain ⟨sign', rfl, signs, -⟩ := a.front?_eq_some_iff.1 hfront
  -- The name was read behind `old`, so what is seen does not begin in `old` either.
  have later : (unify old).length ≤ (unify u).length := by
    have split : (unify u ++ a.name) ++ unify sign' = (unify old ++ front ++ name) ++ sign := by
      rw [(inline_of_isPlainName plain).unify_append] at hbefore
      simpa using hbefore
    have le := length_le_of_spelled spelled (fun d hd => isSign_of_mem_unify signs hd) split
    rw [List.length_append] at le
    omega
  obtain ⟨x, rfl, rfl⟩ := exists_of_length_unify_le hc hu later
  refine ⟨new ++ x ++ (a.name ++ sign'),
    a.mem_places_iff.2 ⟨new ++ x, c, z, _, ?_, rfl, ?_, hc, ?_, hfront⟩⟩
  · simp
  · rw [h.newlines_append, hn]
  · rw [h.opensName head, opens]

theorem rewrite (h : Replaces new old s) (plain : isPlainName a.name = true)
    (value : Inline a.value) {asset : Text} (hasset : Inline asset) {front first back : Text}
    (own : (before, rest) ∈ a.places (old ++ s)) (seen : (front, rest) ∈ a.places (new ++ s))
    (found : (first, back) ∈ a.places (new ++ s)) (hle : first.length ≤ front.length)
    (shut : ∀ c ∈ rest.head?, isPlainNameChar c = false) :
    ∃ gap, back = gap ++ rest ∧ Replaces (first ++ (asset ++ gap)) (before ++ a.value) rest := by
  have whole := a.append_of_mem_places seen
  obtain ⟨gap, reach, rfl⟩ : ∃ gap, front ++ a.value = first ++ (a.value ++ gap) ∧
      back = gap ++ rest := by
    have same : (first ++ a.value) ++ back = (front ++ a.value) ++ rest := by
      simp only [List.append_assoc, whole, a.append_of_mem_places found]
    rcases List.append_eq_append_iff.1 same with ⟨gap, hgap, rfl⟩ | ⟨gap, hgap, rfl⟩
    · exact ⟨gap, by rw [hgap, List.append_assoc], rfl⟩
    · have := congrArg List.length hgap
      simp only [List.length_append] at this
      obtain rfl : gap = [] := List.length_eq_zero_iff.1 (by omega)
      exact ⟨[], by simpa using hgap.symm, rfl⟩
  have lines : Text.newlines front = Text.newlines before := by
    have both := h.newlines_append s
    rw [← whole, ← a.append_of_mem_places own, value.newlines_append, value.newlines_append] at both
    omega
  refine ⟨gap, rfl, ?_, ?_, value.getLast?_append before, .inr ⟨?_, ?_, shut⟩⟩
  · calc Text.newlines (first ++ (asset ++ gap))
        = Text.newlines (first ++ (a.value ++ gap)) := by
          rw [hasset.newlines_append, value.newlines_append]
      _ = Text.newlines (front ++ (a.value ++ [])) := by rw [← reach, List.append_nil]
      _ = Text.newlines (before ++ (a.value ++ [])) := by
          rw [value.newlines_append, value.newlines_append, lines]
      _ = Text.newlines (before ++ a.value) := by rw [List.append_nil]
  · rcases List.eq_nil_or_concat gap with rfl | ⟨gap, e, rfl⟩
    · rw [List.append_nil]
      exact hasset.getLast?_append first
    · have ends := value.getLast?_append front
      rw [reach] at ends
      simpa [List.getLast?_append] using ends
  · have outside := value.calm _ (Assignment.isOutside_of_mem_places plain seen)
    rw [← Place.follow_append, reach] at outside
    exact value.exchange hasset (Assignment.isOutside_of_mem_places plain found) outside
  · rw [Place.follow_append]
    exact value.calm _ (Assignment.isOutside_of_mem_places plain own)

end Replaces

end PugWeave.Asset
