import PugWeave.Asset.Extraction
import PugWeave.Proofs.Text.Blanks

namespace PugWeave.Asset.Place

open Text

def scan (p : Place) (t : Text) : Place := t.foldl (fun p c => p.next c) p

@[simp] theorem scan_nil (p : Place) : p.scan [] = p := rfl

@[simp] theorem scan_cons (p : Place) (c : Char) (t : Text) :
    p.scan (c :: t) = (p.next c).scan t := rfl

@[simp] theorem scan_append (p : Place) (t u : Text) : p.scan (t ++ u) = (p.scan t).scan u :=
  List.foldl_append

def Closed (t : Text) : Prop := ∀ last, ∃ last', (outside last).scan t = .outside last'

theorem Closed.append {t u : Text} (ht : Closed t) (hu : Closed u) : Closed (t ++ u) := by
  intro last
  obtain ⟨mid, hm⟩ := ht last
  rw [scan_append, hm]
  exact hu mid

theorem closed_nil : Closed [] := fun last => ⟨last, rfl⟩

theorem closed_of_plain {t : Text} (h : ∀ c ∈ t, isQuote c = false) : Closed t := by
  induction t with
  | nil => exact closed_nil
  | cons c r ih =>
    intro last
    have plain : (outside last).next c = .outside c := by simp [next, h c List.mem_cons_self]
    rw [scan_cons, plain]
    exact ih (fun d hd => h d (.tail _ hd)) c

theorem scan_blank {b : Text} (h : isBlankLine b = true) {p : Place} (ne : ∀ last, p ≠ .outside last)
    (sane : ∀ q, p = .inside q ∨ p = .hidden q → isQuote q = true) :
    ∀ last, p.scan b ≠ .outside last := by
  induction b generalizing p with
  | nil => exact ne
  | cons c b ih =>
    obtain ⟨hc, hb⟩ : isBlank c = true ∧ isBlankLine b = true := by simpa [isBlankLine] using h
    rw [scan_cons]
    cases p with
    | outside last => exact absurd rfl (ne last)
    | inside q =>
      have hq : isQuote q = true := sane q (.inl rfl)
      have other : c ≠ q := by
        rintro rfl
        rw [isQuote_of_isBlank hc] at hq
        cases hq
      have slash : c ≠ '\\' := by
        rintro rfl
        cases hc
      have stay : (inside q).next c = .inside q := by simp [next, other, slash]
      rw [stay]
      exact ih hb (by simp) (by simpa using hq)
    | hidden q =>
      have hq : isQuote q = true := sane q (.inr rfl)
      exact ih hb (by simp [next]) (by simpa [next] using hq)

theorem sane_scan {p : Place} (sane : ∀ q, p = .inside q ∨ p = .hidden q → isQuote q = true)
    (t : Text) : ∀ q, p.scan t = .inside q ∨ p.scan t = .hidden q → isQuote q = true := by
  induction t generalizing p with
  | nil => exact sane
  | cons c t ih =>
    refine ih (p := p.next c) fun q hq => ?_
    cases p with
    | outside last => grind [next]
    | inside r => grind [next]
    | hidden r => grind [next]

theorem Closed.of_blank {t b : Text} (h : Closed (t ++ b)) (blank : isBlankLine b = true) :
    Closed t := by
  intro last
  obtain ⟨last', h⟩ := h last
  rw [scan_append] at h
  cases ht : (outside last).scan t with
  | outside mid => exact ⟨mid, rfl⟩
  | _ =>
    refine absurd h (scan_blank blank (by simp [ht]) ?_ last')
    exact sane_scan (by simp) t

def follow (p : Place) (t : Text) : Place :=
  t.foldl (fun p c => if isBreak c then .outside none else p.next c) p

@[simp] theorem follow_nil (p : Place) : p.follow [] = p := rfl

@[simp] theorem follow_cons (p : Place) (c : Char) (t : Text) :
    p.follow (c :: t) = (if isBreak c then .outside none else p.next c : Place).follow t := rfl

@[simp] theorem follow_append (p : Place) (t u : Text) :
    p.follow (t ++ u) = (p.follow t).follow u := List.foldl_append

theorem follow_eq_scan {t : Text} (h : ∀ c ∈ t, isBreak c = false) (p : Place) :
    p.follow t = p.scan t := by
  induction t generalizing p with
  | nil => rfl
  | cons c t ih =>
    simp only [follow_cons, h c List.mem_cons_self, Bool.false_eq_true, if_false, scan_cons]
    exact ih (fun d hd => h d (.tail _ hd)) _

def IsOutside (p : Place) : Prop := ∃ last, p = .outside last

def Calm (t : Text) : Prop := ∀ p : Place, p.IsOutside → (p.follow t).IsOutside

theorem calm_nil : Calm [] := fun _ h => h

theorem Calm.append {t u : Text} (ht : Calm t) (hu : Calm u) : Calm (t ++ u) := by
  intro p hp
  rw [follow_append]
  exact hu _ (ht p hp)

theorem calm_of_plain {t : Text} (plain : ∀ c ∈ t, isQuote c = false) : Calm t := by
  intro p hp
  induction t generalizing p with
  | nil => exact hp
  | cons c t ih =>
    refine ih (fun d hd => plain d (.tail _ hd)) _ ?_
    obtain ⟨last, rfl⟩ := hp
    dsimp only
    split
    · exact ⟨none, rfl⟩
    · exact ⟨c, by simp [next, plain c List.mem_cons_self]⟩

theorem Closed.calm {t : Text} (h : Closed t) (unbroken : ∀ c ∈ t, isBreak c = false) : Calm t := by
  rintro p ⟨last, rfl⟩
  rw [follow_eq_scan unbroken]
  exact h last

theorem calm_line (t : Text) : Calm (t ++ ['\n']) := by
  intro p _
  rw [follow_append]
  exact ⟨none, rfl⟩

theorem getLast?_of_follow {p : Place} {t : Text} {last : Option Char}
    (h : p.follow t = .outside last) (ne : t ≠ []) : last = t.getLast? ∨
      last = none ∧ ∀ c ∈ t.getLast?, isBreak c = true := by
  obtain ⟨front, c, rfl⟩ := (List.eq_nil_or_concat t).resolve_left ne
  rw [List.concat_eq_append, follow_append] at h
  rw [List.concat_eq_append, List.getLast?_concat]
  cases hc : isBreak c with
  | true =>
    have hn : outside none = outside last := by simpa [hc] using h
    exact .inr ⟨(outside.inj hn).symm, by simpa using hc⟩
  | false =>
    have hn : (p.follow front).next c = outside last := by simpa [hc] using h
    left
    cases hp : p.follow front with
    | outside _ => grind [next]
    | inside q => grind [next]
    | hidden q => grind [next]

theorem isOutside_of_opensName {p : Place} {c : Char} (h : p.opensName c = true) :
    p.IsOutside := by
  cases p with
  | outside last => exact ⟨last, rfl⟩
  | inside q => cases h
  | hidden q => cases h

theorem IsOutside.follow_congr {p q : Place} (hp : p.IsOutside) (hq : q.IsOutside) {t : Text}
    (h : (p.follow t).IsOutside) : (q.follow t).IsOutside := by
  obtain ⟨last, rfl⟩ := hp
  obtain ⟨last', rfl⟩ := hq
  cases t with
  | nil => exact ⟨last', rfl⟩
  | cons c t => exact h

end PugWeave.Asset.Place
