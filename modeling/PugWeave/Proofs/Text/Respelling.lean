import Mathlib.Algebra.GroupWithZero.Nat
import Mathlib.Algebra.Order.BigOperators.Group.List
import Mathlib.Algebra.Order.Group.Nat
import PugWeave.Proofs.Text.Breaks
import PugWeave.Proofs.Text.Pieces

namespace PugWeave

namespace LineBreak

theorem text_injective : Function.Injective text := by
  intro b d h
  cases b <;> cases d <;> first | rfl | cases h

def rank : LineBreak → Nat
  | crlf => 0
  | cr => 1
  | lf => 2

theorem detect_first {d : LineBreak} {t : Text} (h : d.text <:+: t) :
    (detect t).text <:+: t ∧ (detect t).rank ≤ d.rank := by
  rw [← Text.occurs_iff] at h ⊢
  cases hcrlf : Text.occurs crlf.text t with
  | true => simp [detect, hcrlf, rank]
  | false =>
    cases hcr : Text.occurs cr.text t with
    | true => cases d <;> simp_all [detect, rank]
    | false => cases d <;> simp_all [detect, rank]

end LineBreak

namespace Text

def lineBreaks : Text → List LineBreak
  | [] => []
  | '\r' :: '\n' :: r => .crlf :: lineBreaks r
  | c :: r => if c = '\r' then .cr :: lineBreaks r else if c = '\n' then .lf :: lineBreaks r
    else lineBreaks r

def respell (spelling : LineBreak → LineBreak) : Text → Text
  | [] => []
  | '\r' :: '\n' :: r => (spelling .crlf).text ++ respell spelling r
  | c :: r =>
    (if c = '\r' then (spelling .cr).text else if c = '\n' then (spelling .lf).text else [c])
      ++ respell spelling r

def respelling (old new : LineBreak) (b : LineBreak) : LineBreak := if b = old then new else b

def Breaks (b : LineBreak) (r : Text) : Prop := b = .cr → r.head? ≠ some '\n'

theorem breaks_induction {P : Text → Prop} (nil : P [])
    (broken : ∀ b r, Breaks b r → P r → P (b.text ++ r))
    (char : ∀ c r, isBreak c = false → P r → P (c :: r)) (t : Text) : P t := by
  fun_induction lineBreaks t with
  | case1 => exact nil
  | case2 r ih => exact broken .crlf r (by simp [Breaks]) ih
  | case3 r single ih =>
    refine broken .cr r (fun _ h => ?_) ih
    obtain ⟨r', rfl⟩ := List.head?_eq_some_iff.1 h
    exact single r' rfl rfl
  | case4 r _ _ ih => exact broken .lf r (by simp [Breaks]) ih
  | case5 c r _ hr hn ih => exact char c r (by simp [isBreak, hr, hn]) ih

section

variable {b : LineBreak} {r : Text} (apart : Breaks b r)
include apart

theorem lines_break : lines (b.text ++ r) = [] :: lines r := by
  cases b with
  | lf | crlf => rfl
  | cr =>
    have := apart rfl
    rw [LineBreak.text, List.singleton_append, lines]
    · rfl
    · rintro r' - rfl
      simp at this

theorem lineBreaks_break : lineBreaks (b.text ++ r) = b :: lineBreaks r := by
  cases b with
  | lf | crlf => rfl
  | cr =>
    have := apart rfl
    rw [LineBreak.text, List.singleton_append, lineBreaks]
    · rfl
    · rintro r' - rfl
      simp at this

theorem respell_break (f : LineBreak → LineBreak) :
    respell f (b.text ++ r) = (f b).text ++ respell f r := by
  cases b with
  | lf | crlf => rfl
  | cr =>
    have := apart rfl
    rw [LineBreak.text, List.singleton_append, respell]
    · rfl
    · rintro r' - rfl
      simp at this

end

section

variable {c : Char} (h : isBreak c = false) (r : Text)
include h

theorem lines_cons : lines (c :: r) = consFirst c (lines r) := by
  rw [lines]
  · simp [h]
  · rintro r' rfl
    cases h

theorem lineBreaks_cons : lineBreaks (c :: r) = lineBreaks r := by
  have : c ≠ '\r' ∧ c ≠ '\n' := by simpa [isBreak] using h
  rw [lineBreaks, if_neg this.1, if_neg this.2]
  rintro r' rfl
  cases h

theorem respell_cons (f : LineBreak → LineBreak) : respell f (c :: r) = c :: respell f r := by
  have : c ≠ '\r' ∧ c ≠ '\n' := by simpa [isBreak] using h
  rw [respell, if_neg this.1, if_neg this.2]
  · rfl
  · rintro r' rfl
    cases h

end

theorem respell_congr {f g : LineBreak → LineBreak} {t : Text} (h : ∀ b ∈ lineBreaks t, f b = g b) :
    respell f t = respell g t := by
  induction t using breaks_induction with
  | nil => rfl
  | broken b r apart ih =>
    rw [lineBreaks_break apart, List.forall_mem_cons] at h
    rw [respell_break apart, respell_break apart, h.1, ih h.2]
  | char c r hc ih =>
    rw [lineBreaks_cons hc] at h
    rw [respell_cons hc, respell_cons hc, ih h]

theorem respell_id (t : Text) : respell id t = t := by
  induction t using breaks_induction with
  | nil => rfl
  | broken b r apart ih => rw [respell_break apart, ih]; rfl
  | char c r hc ih => rw [respell_cons hc, ih]

theorem join_lines_break {b : LineBreak} {r : Text} (apart : Breaks b r) (s : LineBreak) :
    join s.text (lines (b.text ++ r)) = s.text ++ join s.text (lines r) := by
  rw [lines_break apart, join, List.intercalate_cons_of_ne_nil (lines_ne_nil r)]
  rfl

theorem join_lines_eq_respell (s : LineBreak) (t : Text) :
    join s.text (lines t) = respell (fun _ => s) t := by
  induction t using breaks_induction with
  | nil => simp [lines, join, respell]
  | broken b r apart ih => rw [join_lines_break apart, ih, respell_break apart]
  | char c r hc ih => rw [lines_cons hc, join_consFirst, ih, respell_cons hc]

theorem count_respell {c : Char} (hc : isBreak c = true) (f : LineBreak → LineBreak) (t : Text) :
    (respell f t).count c = ((lineBreaks t).map fun b => (f b).text.count c).sum := by
  induction t using breaks_induction with
  | nil => rfl
  | broken b r apart ih =>
    rw [respell_break apart, lineBreaks_break apart, List.count_append, ih, List.map_cons,
      List.sum_cons]
  | char d r hd ih =>
    have other : d ≠ c := by
      rintro rfl
      rw [hc] at hd
      cases hd
    rw [respell_cons hd, lineBreaks_cons hd, List.count_cons_of_ne other, ih]

theorem join_splitFrom_cons (s : Text) {sep : Text} (ne : sep ≠ []) (c : Char) (r : Text) :
    join s (splitFrom sep 0 (c :: r)) =
      if sep <+: c :: r then s ++ join s (splitFrom sep 0 ((c :: r).drop sep.length))
      else c :: join s (splitFrom sep 0 r) := by
  obtain ⟨d, sep, rfl⟩ := List.exists_cons_of_ne_nil ne
  rw [splitFrom]
  simp only [List.isPrefixOf_iff_prefix]
  split
  · rw [join, List.intercalate_cons_of_ne_nil (splitFrom_ne_nil _ _ _), ← join, splitFrom_eq_drop]
    rfl
  · rw [join_consFirst]

theorem isBreak_of_front {d : LineBreak} {c : Char} {r : Text} (h : d.text <+: c :: r) :
    isBreak c = true := by
  cases d <;> rw [← (List.cons_prefix_cons.1 h).1] <;> rfl

/-- Pieces around a break are put together with another break in its place, if what stands for two
breaks is not taken for one of them. -/
theorem join_split_break (s d : LineBreak) {t : Text} (h : d = .crlf ∨ .crlf ∉ lineBreaks t) :
    join s.text (split d.text t) = respell (respelling d s) t := by
  have ne := d.text_ne_nil
  rw [split_eq_splitFrom]
  induction t using breaks_induction with
  | nil => simp [splitFrom, join, respell]
  | broken b r apart ih =>
    rw [lineBreaks_break apart, List.mem_cons, not_or] at h
    rw [respell_break apart, ← ih (h.imp_right And.right), respelling]
    by_cases hb : b = d
    · subst hb
      obtain ⟨c, r', hc⟩ := List.exists_cons_of_ne_nil (l := b.text ++ r) (by simp [ne])
      rw [hc, join_splitFrom_cons _ ne, ← hc, if_pos (List.prefix_append _ _), if_pos rfl,
        List.drop_left]
    · -- A break of one character that is not the separator does not begin it either.
      have single : b ≠ .crlf := by
        rintro rfl
        exact h.elim (fun h => hb h.symm) fun h => h.1 rfl
      obtain ⟨c, hc⟩ : ∃ c, b.text = [c] := by
        cases b with
        | lf | cr => exact ⟨_, rfl⟩
        | crlf => exact absurd rfl single
      rw [if_neg hb, hc, List.singleton_append, join_splitFrom_cons _ ne, if_neg]
      · rfl
      · intro front
        cases b <;> cases d <;> cases hc <;>
          simp [LineBreak.text, List.cons_prefix_cons] at front hb single
        obtain ⟨r', rfl⟩ := front
        simp [Breaks] at apart
  | char c r hc ih =>
    rw [lineBreaks_cons hc] at h
    rw [join_splitFrom_cons _ ne, if_neg, ih h, respell_cons hc]
    intro front
    rw [isBreak_of_front front] at hc
    cases hc

theorem occurs_of_mem_lineBreaks {d : LineBreak} {t : Text} (h : d ∈ lineBreaks t) :
    occurs d.text t = true := by
  rw [occurs_iff]
  induction t using breaks_induction with
  | nil => cases h
  | broken b r apart ih =>
    rw [lineBreaks_break apart] at h
    rcases List.mem_cons.1 h with rfl | h
    · exact (List.prefix_append _ _).isInfix
    · exact (ih h).trans (List.suffix_append _ _).isInfix
  | char c r hc ih =>
    rw [lineBreaks_cons hc] at h
    exact (ih h).trans (List.suffix_cons _ _).isInfix

theorem detect_cases (t : Text) :
    LineBreak.detect t = .crlf ∨ (LineBreak.detect t = .cr ∧ .crlf ∉ lineBreaks t) ∨
      (LineBreak.detect t = .lf ∧ ∀ b ∈ lineBreaks t, b = .lf) := by
  have missing {d : LineBreak} (h : occurs d.text t = false) : d ∉ lineBreaks t := by
    intro mem
    rw [occurs_of_mem_lineBreaks mem] at h
    cases h
  cases crlf : occurs LineBreak.crlf.text t with
  | true => simp [LineBreak.detect, crlf]
  | false =>
    cases cr : occurs LineBreak.cr.text t with
    | true => simp [LineBreak.detect, crlf, cr, missing crlf]
    | false =>
      refine .inr (.inr ⟨?_, fun b hb => ?_⟩)
      · cases lf : occurs LineBreak.lf.text t <;> simp [LineBreak.detect, crlf, cr, lf]
      · cases b with
        | lf => rfl
        | crlf => exact absurd hb (missing crlf)
        | cr => exact absurd hb (missing cr)

theorem withSeparator_eq (s : LineBreak) (t : Text) :
    withSeparator s.text t = t ∧ (LineBreak.detect t = s ∨ ∀ d : LineBreak, ¬d.text <:+: t) ∨
      (LineBreak.detect t).text <:+: t ∧
        withSeparator s.text t = join s.text (split (LineBreak.detect t).text t) := by
  simp only [withSeparator]
  split
  · rename_i h
    rcases Bool.or_eq_true_iff.1 h with same | none
    · exact .inl ⟨rfl, .inl (LineBreak.text_injective (of_decide_eq_true same))⟩
    · refine .inl ⟨rfl, .inr fun d hd => ?_⟩
      rw [occurs_iff.2 (LineBreak.detect_first hd).1] at none
      cases none
  · rename_i h
    rw [Bool.or_eq_true, not_or, Bool.not_eq_true', Bool.not_eq_false] at h
    exact .inr ⟨occurs_iff.1 h.2, rfl⟩

theorem withSeparator_eq_respell (s : LineBreak) (t : Text) :
    withSeparator s.text t = respell (respelling (LineBreak.detect t) s) t := by
  rcases withSeparator_eq s t with ⟨same, h⟩ | ⟨-, made⟩
  · rw [same]
    refine (respell_id t).symm.trans (respell_congr fun b hb => ?_)
    rcases h with rfl | none
    · rw [respelling, ite_eq_right_iff.2 Eq.symm]
      rfl
    · exact absurd (occurs_iff.1 (occurs_of_mem_lineBreaks hb)) (none b)
  · rw [made]
    refine join_split_break s _ ?_
    rcases detect_cases t with h | ⟨-, h⟩ | ⟨-, h⟩
    · exact .inl h
    · exact .inr h
    · exact .inr fun mem => by cases h _ mem

theorem unbroken_of_mem_lines {l t : Text} (h : l ∈ lines t) : ∀ c ∈ l, isBreak c = false := by
  induction t using breaks_induction generalizing l with
  | nil =>
    obtain rfl := List.mem_singleton.1 h
    simp
  | broken b r apart ih =>
    rw [lines_break apart] at h
    rcases List.mem_cons.1 h with rfl | h
    · simp
    · exact ih h
  | char c r hc ih =>
    rw [lines_cons hc] at h
    obtain ⟨p, ps, hr⟩ := List.exists_cons_of_ne_nil (lines_ne_nil r)
    rw [hr] at h ih
    rcases List.mem_cons.1 h with rfl | h
    · exact List.forall_mem_cons.2 ⟨hc, ih List.mem_cons_self⟩
    · exact ih (.tail _ h)

theorem split_join_lines (s : LineBreak) (t : Text) :
    split s.text (join s.text (lines t)) = lines t :=
  split_join (lines_ne_nil t) fun _ hl => whole_of_unbroken (unbroken_of_mem_lines hl)

theorem breaks_join_lines (s : LineBreak) (t : Text) : Breaks s (join s.text (lines t)) := by
  rintro rfl front
  have none : (join LineBreak.cr.text (lines t)).count '\n' = 0 := by
    rw [join_lines_eq_respell, count_respell rfl]
    simp [LineBreak.text]
  exact List.count_eq_zero.1 none (List.mem_of_mem_head? front)

theorem lineBreaks_join_lines (s : LineBreak) (t : Text) :
    ∀ b ∈ lineBreaks (join s.text (lines t)), b = s := by
  induction t using breaks_induction with
  | nil => cases s <;> simp [lines, join, lineBreaks]
  | broken b r apart ih =>
    rw [join_lines_break apart, lineBreaks_break (breaks_join_lines s r), List.forall_mem_cons]
    exact ⟨rfl, ih⟩
  | char c r hc ih => rwa [lines_cons hc, join_consFirst, lineBreaks_cons hc]

theorem count_of_lineBreaks {s : LineBreak} {u : Text} (h : ∀ b ∈ lineBreaks u, b = s) {c : Char}
    (hc : isBreak c = true) : u.count c = (lineBreaks u).length * s.text.count c := by
  have counts := count_respell hc id u
  rw [respell_id] at counts
  rw [counts, List.eq_replicate_iff.2 ⟨rfl, h⟩]
  simp

theorem count_text_le {b : LineBreak} {t : Text} (h : b ∈ lineBreaks t) (f : LineBreak → LineBreak)
    {c : Char} (hc : isBreak c = true) : (f b).text.count c ≤ (respell f t).count c := by
  rw [count_respell hc]
  exact List.single_le_sum (fun _ _ => Nat.zero_le _) _ (List.mem_map_of_mem h)

theorem eq_detect_or_of_lineBreaks {s : LineBreak} {t : Text}
    (h : ∀ b ∈ lineBreaks (withSeparator s.text t), b = s) {b : LineBreak} (hb : b ∈ lineBreaks t) :
    b = LineBreak.detect t ∨ b = s := by
  -- A third break would stay, and with it characters that the separator does not account for.
  by_contra other
  rw [not_or] at other
  have counts {c : Char} (hc : isBreak c = true) := count_of_lineBreaks h hc
  rw [withSeparator_eq_respell] at counts
  have kept : respelling (LineBreak.detect t) s b = b := if_neg other.1
  have left {c : Char} (hc : isBreak c = true) :=
    count_text_le hb (respelling (LineBreak.detect t) s) hc
  rw [kept] at left
  cases s with
  | lf =>
    have := left (c := '\r') rfl
    rw [counts rfl] at this
    cases b <;> simp_all [LineBreak.text]
  | cr =>
    have := left (c := '\n') rfl
    rw [counts rfl] at this
    cases b <;> simp_all [LineBreak.text]
  | crlf =>
    rcases detect_cases t with hd | ⟨hd, none⟩ | ⟨hd, all⟩
    · have same : respelling (LineBreak.detect t) .crlf = id := by
        funext d
        rw [respelling, hd, ite_eq_right_iff.2 Eq.symm]
        rfl
      rw [withSeparator_eq_respell, same, respell_id] at h
      exact other.2 (h b hb)
    · -- Each `\n` on its own is one more than there are `\r`.
      have fewer : (respell (respelling (LineBreak.detect t) .crlf) t).count '\r' <
          (respell (respelling (LineBreak.detect t) .crlf) t).count '\n' := by
        rw [count_respell rfl, count_respell rfl]
        refine List.sum_lt_sum _ _ (fun d mem => ?_) ⟨b, hb, ?_⟩
        · cases d with
          | lf => simp [respelling, hd, LineBreak.text]
          | cr => simp [respelling, hd, LineBreak.text]
          | crlf => exact absurd mem none
        · cases b with
          | lf => simp [respelling, hd, LineBreak.text]
          | cr => exact absurd hd.symm other.1
          | crlf => exact absurd rfl other.2
      rw [counts rfl, counts rfl] at fewer
      simp [LineBreak.text] at fewer
    · exact other.1 ((all b hb).trans hd.symm)

theorem withSeparator_eq_join {s : LineBreak} {t : Text}
    (two : ∀ b ∈ lineBreaks t, b = LineBreak.detect t ∨ b = s) :
    withSeparator s.text t = join s.text (lines t) := by
  rw [join_lines_eq_respell]
  refine (withSeparator_eq_respell s t).trans (respell_congr fun b hb => ?_)
  rcases two b hb with rfl | rfl <;> simp [respelling]

theorem lines_append_break {s : LineBreak} {l r : Text} (unbroken : ∀ c ∈ l, isBreak c = false)
    (apart : Breaks s r) : lines (l ++ (s.text ++ r)) = l :: lines r := by
  induction l with
  | nil => exact lines_break apart
  | cons c l ih =>
    rw [List.forall_mem_cons] at unbroken
    rw [List.cons_append, lines_cons unbroken.1, ih unbroken.2]
    rfl

theorem lines_eq_singleton {l : Text} (unbroken : ∀ c ∈ l, isBreak c = false) : lines l = [l] := by
  induction l with
  | nil => rfl
  | cons c l ih =>
    rw [List.forall_mem_cons] at unbroken
    rw [lines_cons unbroken.1, ih unbroken.2]
    rfl

theorem head?_join_ne {l : Text} {rest : List Text} (unbroken : ∀ c ∈ l, isBreak c = false) :
    (join LineBreak.cr.text (l :: rest)).head? ≠ some '\n' := by
  cases l with
  | cons c l =>
    intro front
    obtain rfl : c = '\n' := by
      rw [show (c :: l) :: rest = consFirst c (l :: rest) from rfl, join_consFirst] at front
      exact Option.some.inj front
    cases unbroken '\n' List.mem_cons_self
  | nil => cases rest <;> simp [join, LineBreak.text, List.intercalate_cons_of_ne_nil]

theorem lines_join (s : LineBreak) {ls : List Text} (ne : ls ≠ [])
    (unbroken : ∀ l ∈ ls, ∀ c ∈ l, isBreak c = false) : lines (join s.text ls) = ls := by
  induction ls with
  | nil => exact absurd rfl ne
  | cons l rest ih =>
    rw [List.forall_mem_cons] at unbroken
    cases rest with
    | nil =>
      rw [join_singleton, lines_eq_singleton unbroken.1]
    | cons l' rest =>
      have apart : Breaks s (join s.text (l' :: rest)) := by
        rintro rfl
        exact head?_join_ne (unbroken.2 l' List.mem_cons_self)
      rw [join_cons_cons, lines_append_break unbroken.1 apart,
        ih (List.cons_ne_nil _ _) unbroken.2]

/-- Brought to a separator, a text is split there into its lines if and only if its breaks are the
one that is detected in it and the separator. No other break is then left, and the text has the same
lines for those who know one separator as for those who know all breaks. -/
theorem split_withSeparator_iff (s : LineBreak) (t : Text) :
    let u := withSeparator s.text t
    let two := ∀ b ∈ lineBreaks t, b = LineBreak.detect t ∨ b = s
    (split s.text u = lines t ↔ two) ∧ ((∀ b ∈ lineBreaks u, b = s) ↔ two) ∧
      (split s.text u = lines u ↔ two) := by
  intro u two
  have joined (h : two) : u = join s.text (lines t) := withSeparator_eq_join h
  have single (h : ∀ b ∈ lineBreaks u, b = s) : u = join s.text (lines u) := by
    rw [join_lines_eq_respell, ← respell_congr (f := id) h, respell_id]
  have back {v : Text} (h : split s.text u = lines v) : u = join s.text (lines v) := by
    rw [← h, join_split s.text_ne_nil]
  have only (h : ∀ b ∈ lineBreaks u, b = s) : two := fun b hb => eq_detect_or_of_lineBreaks h hb
  have left (v : Text) (h : u = join s.text (lines v)) : ∀ b ∈ lineBreaks u, b = s := by
    rw [h]
    exact lineBreaks_join_lines s v
  refine ⟨⟨fun h => only (left t (back h)), fun h => ?_⟩,
    ⟨only, fun h => left t (joined h)⟩, fun h => only (left u (back h)), fun h => ?_⟩
  · rw [joined h, split_join_lines]
  · have := single (left t (joined h))
    rw [this, split_join_lines, ← this]

theorem split_withSeparator_mixed :
    let t := "a\r\nb\rc".toList
    split ['\n'] (withSeparator ['\n'] t) = ["a".toList, "b\rc".toList] ∧
      lines t = ["a".toList, "b".toList, "c".toList] := by decide +kernel

end Text

end PugWeave
