import Mathlib.Data.List.Forall2
import PugWeave.Proofs.Text.Leveling

namespace PugWeave

namespace LineBreak

theorem rank_injective : Function.Injective rank := by
  intro b d h
  cases b <;> cases d <;> first | rfl | cases h

theorem exists_count_lt {b s : LineBreak} (h : b.rank < s.rank) :
    ∃ c, Text.isBreak c = true ∧ s.text.count c < b.text.count c := by
  cases b <;> cases s <;> simp only [rank] at h <;> try omega
  · exact ⟨'\r', rfl, by decide⟩
  · exact ⟨'\n', rfl, by decide⟩
  · exact ⟨'\r', rfl, by decide⟩

end LineBreak

namespace Text

def Settled (s : LineBreak) (t : Text) : Prop := ∀ d : LineBreak, d.text <:+: t → s.rank ≤ d.rank

section

variable {s : LineBreak} {t : Text}

theorem Settled.mono {u : Text} (h : Settled s t)
    (within : ∀ d : LineBreak, d.text <:+: u → d.text <:+: t) : Settled s u :=
  fun d hd => h d (within d hd)

theorem infix_join {pieces : List Text} (h : 1 < pieces.length) :
    s.text <:+: join s.text pieces := by
  match pieces with
  | l :: m :: ls =>
    rw [join_cons_cons]
    exact (List.prefix_append _ _).isInfix.trans (List.suffix_append _ _).isInfix

theorem infix_withSeparator {d : LineBreak} (h : d.text <:+: withSeparator s.text t) :
    s.text <:+: withSeparator s.text t := by
  rcases withSeparator_eq s t with ⟨same, rfl | none⟩ | ⟨found, made⟩
  · rw [same] at h ⊢
    exact (LineBreak.detect_first h).1
  · rw [same] at h
    exact absurd h (none d)
  · rw [made]
    exact infix_join (infix_iff_of_split.1 found)

theorem infix_reindent_iff (width : Nat) (s : LineBreak) (t : Text) :
    s.text <:+: reindent width s.text t ↔ s.text <:+: t := by
  rw [infix_iff_of_split, infix_iff_of_split, split_reindent, List.length_map]

theorem withSeparator_of_settled (settled : Settled s t)
    (own : ∀ d : LineBreak, d.text <:+: t → s.text <:+: t) : withSeparator s.text t = t := by
  rcases withSeparator_eq s t with ⟨same, -⟩ | ⟨found, made⟩
  · exact same
  · have first := (LineBreak.detect_first (own _ found)).2
    have := LineBreak.rank_injective (Nat.le_antisymm first (settled _ found))
    rw [made, this, join_split s.text_ne_nil]

theorem count_join (sep : Text) (c : Char) (pieces : List Text) :
    (join sep pieces).count c =
      (pieces.map (List.count c)).sum + (pieces.length - 1) * sep.count c := by
  induction pieces with
  | nil => simp [join]
  | cons l rest ih =>
    cases rest with
    | nil => simp [join_singleton]
    | cons m rest =>
      rw [join_cons_cons, List.count_append, List.count_append, ih]
      simp only [List.map_cons, List.sum_cons, List.length_cons, Nat.add_sub_cancel, Nat.succ_mul]
      omega

theorem exists_count_withSeparator_lt (loose : ¬Settled s t) :
    ∃ c, isBreak c = true ∧ (withSeparator s.text t).count c < t.count c := by
  obtain ⟨d, hd, sooner⟩ : ∃ d : LineBreak, d.text <:+: t ∧ d.rank < s.rank := by
    simpa [Settled] using loose
  have first := LineBreak.detect_first hd
  rcases withSeparator_eq s t with ⟨-, rfl | none⟩ | ⟨found, made⟩
  · omega
  · exact absurd hd (none d)
  · obtain ⟨c, hc, fewer⟩ := LineBreak.exists_count_lt (first.2.trans_lt sooner)
    refine ⟨c, hc, ?_⟩
    have more := Nat.sub_pos_of_lt (infix_iff_of_split.1 found)
    conv_rhs => rw [← join_split (LineBreak.detect t).text_ne_nil t]
    rw [made, count_join, count_join]
    exact Nat.add_lt_add_left (Nat.mul_lt_mul_of_pos_left fewer more) _

end

theorem count_levelLine_le {c : Char} (other : c ≠ ' ') (width : Nat) (unit : Option Text)
    (l : Text) : (levelLine width unit l).count c ≤ l.count c := by
  rcases levelLine_cases width unit l with same | ⟨u, -, n, left, -, hl, made⟩
  · rw [same]
  · have none : (spaces (n * width)).count c = 0 :=
      List.count_eq_zero.2 fun h => other (List.eq_of_mem_replicate h)
    rw [made, List.count_append, none, Nat.zero_add]
    exact (suffix_of_indentation hl).sublist.count_le c

theorem count_reindent_le {c : Char} (other : c ≠ ' ') (width : Nat) (s : LineBreak) (t : Text) :
    (reindent width s.text t).count c ≤ t.count c := by
  conv_rhs => rw [← join_split s.text_ne_nil t]
  rw [reindent_eq, count_join, count_join, List.length_map, List.map_map]
  exact Nat.add_le_add_right (List.sum_le_sum fun l _ => count_levelLine_le other width _ l) _

def Refronted (l l' : Text) : Prop :=
  l = l' ∨ ∃ a b rest, l = a ++ rest ∧ l' = b ++ rest ∧ b ≠ [] ∧ ∀ c ∈ b, isBreak c = false

theorem infix_of_infix_append_unbroken {d : LineBreak} {b : Text} (ne : b ≠ [])
    (unbroken : ∀ c ∈ b, isBreak c = false) {x y : Text} (h : d.text <:+: x ++ (b ++ y)) :
    d.text <:+: x ∨ d.text <:+: y := by
  have foreign : ∀ c ∈ d.text, c ∉ b := by
    intro c hc hb
    have := d.isBreak_of_mem_text c hc
    rw [unbroken c hb] at this
    cases this
  have behind : d.text <:+: b ++ y ↔ d.text <:+: y := by
    obtain ⟨c, r, hd, -⟩ := d.exists_text
    rw [hd] at foreign ⊢
    exact infix_append_of_not_mem (foreign c List.mem_cons_self) y
  rw [List.infix_append_iff, behind] at h
  rcases h with h | h | ⟨v, w, hd, hv, hw⟩
  · exact .inl h
  · exact .inr h
  · -- What stands in both parts would begin the second one with a break.
    obtain ⟨e, b, rfl⟩ := List.exists_cons_of_ne_nil ne
    rcases List.prefix_cons_iff.1 hw with rfl | ⟨w, rfl, -⟩
    · rw [hd, List.append_nil]
      exact .inl hv.isInfix
    · have : e ∈ d.text := by simp [hd]
      exact absurd List.mem_cons_self (foreign e this)

theorem infix_of_refronted {s d : LineBreak} {ls ls' : List Text}
    (h : List.Forall₂ Refronted ls ls') (x : Text) :
    d.text <:+: x ++ join s.text ls' → d.text <:+: x ++ join s.text ls := by
  induction h generalizing x with
  | nil => exact id
  | @cons l l' ls ls' front rest ih =>
    -- The induction reaches over the separator: what stands before it is any text.
    obtain ⟨tail, tail', hl, hl', step⟩ : ∃ tail tail', join s.text (l :: ls) = l ++ tail ∧
        join s.text (l' :: ls') = l' ++ tail' ∧
          ∀ y, d.text <:+: y ++ tail' → d.text <:+: y ++ tail := by
      cases rest with
      | nil => exact ⟨[], [], by simp [join], by simp [join], fun _ => id⟩
      | cons _ _ =>
        refine ⟨_, _, join_cons_cons _ _ _ _, join_cons_cons _ _ _ _, fun y hy => ?_⟩
        rw [← List.append_assoc] at hy ⊢
        exact ih _ hy
    rw [hl, hl']
    intro within
    rcases front with rfl | ⟨a, b, z, rfl, rfl, ne, unbroken⟩
    · rw [← List.append_assoc] at within ⊢
      exact step _ within
    · rw [List.append_assoc] at within
      rcases infix_of_infix_append_unbroken ne unbroken within with before | behind
      · exact before.trans (List.prefix_append _ _).isInfix
      · rw [List.append_assoc]
        exact ((step z behind).trans (List.suffix_append a _).isInfix).trans
          (List.suffix_append x _).isInfix

theorem refronted_levelLine {width : Nat} (wide : 0 < width) (unit : Option Text) (l : Text) :
    Refronted l (levelLine width unit l) := by
  rcases levelLine_cases width unit l with same | ⟨u, -, n, left, pos, hl, made⟩
  · exact .inl same.symm
  · refine .inr ⟨repeated n u, spaces (n * width), left ++ trimStart l, ?_, made, ?_, ?_⟩
    · conv_lhs => rw [← indentation_append_trimStart l, hl, List.append_assoc]
    · exact List.ne_nil_of_length_pos (by rw [length_spaces]; exact Nat.mul_pos pos wide)
    · intro c hc
      rw [List.eq_of_mem_replicate hc]
      rfl

theorem levelLine_refronted {unit : Option Text} (full : ∀ u ∈ unit, u ≠ [])
    (unbroken : ∀ u ∈ unit, ∀ c ∈ u, isBreak c = false) (width : Nat) (l : Text) :
    Refronted (levelLine width unit l) l := by
  rcases levelLine_cases width unit l with same | ⟨u, hu, n, left, pos, hl, made⟩
  · exact .inl same
  · refine .inr ⟨spaces (n * width), repeated n u, left ++ trimStart l, made, ?_, ?_, ?_⟩
    · conv_lhs => rw [← indentation_append_trimStart l, hl, List.append_assoc]
    · have := List.length_pos_of_ne_nil (full u hu)
      exact List.ne_nil_of_length_pos (by rw [length_repeated]; exact Nat.mul_pos pos this)
    · intro c hc
      obtain ⟨v, hv, hcv⟩ := List.mem_flatten.1 hc
      exact unbroken u hu c (List.eq_of_mem_replicate hv ▸ hcv)

theorem infix_of_infix_reindent {width : Nat} (wide : 0 < width) {s d : LineBreak} {t : Text}
    (h : d.text <:+: reindent width s.text t) : d.text <:+: t := by
  rw [reindent_eq] at h
  rw [← join_split s.text_ne_nil t]
  refine infix_of_refronted ?_ [] h
  rw [List.forall₂_map_right_iff, List.forall₂_same]
  exact fun l _ => refronted_levelLine wide _ l

theorem infix_reindent_of_unbroken {s d : LineBreak} {t : Text}
    (unbroken : ∀ u ∈ detectUnit (split s.text t), ∀ c ∈ u, isBreak c = false) (width : Nat)
    (h : d.text <:+: t) : d.text <:+: reindent width s.text t := by
  rw [← join_split s.text_ne_nil t] at h
  rw [reindent_eq]
  refine infix_of_refronted ?_ [] h
  rw [List.forall₂_map_left_iff, List.forall₂_same]
  exact fun l _ => levelLine_refronted (fun u hu => ne_nil_of_detectUnit hu) unbroken width l

theorem normalize_eq_self_iff {width : Nat} (wide : 0 < width) (s : LineBreak) (t : Text) :
    let once := normalize width s.text t
    normalize width s.text once = once ↔ Settled s once := by
  intro once
  constructor
  · intro still
    by_contra loose
    obtain ⟨c, hc, fewer⟩ := exists_count_withSeparator_lt loose
    have other : c ≠ ' ' := by
      rintro rfl
      cases hc
    have := count_reindent_le other width s (withSeparator s.text once)
    rw [← normalize, still] at this
    omega
  · intro settled
    have own : ∀ d : LineBreak, d.text <:+: once → s.text <:+: once := fun d hd =>
      (infix_reindent_iff width s _).2 (infix_withSeparator (infix_of_infix_reindent wide hd))
    rw [normalize, withSeparator_of_settled settled own]
    exact reindent_reindent wide s _

/-- Texts that replacing breaks leaves settled. For `\r\n` these are all, for `\r` those that have no
`\n` behind a `\r\n`, and for `\n` those whose breaks are the detected one and `\n`. -/
def Settles : LineBreak → Text → Prop
  | .crlf, _ => True
  | .cr, t => ¬['\r', '\n', '\n'] <:+: t
  | .lf, t => ∀ b ∈ lineBreaks t, b = LineBreak.detect t ∨ b = .lf

theorem head?_respell_newline (t : Text) :
    (respell (respelling .crlf .cr) t).head? = some '\n' ↔ t.head? = some '\n' := by
  induction t using breaks_induction with
  | nil => rfl
  | broken b r apart => rw [respell_break apart]; cases b <;> simp [respelling, LineBreak.text]
  | char c r hc => rw [respell_cons hc]; rfl

theorem infix_respell_iff (t : Text) :
    LineBreak.crlf.text <:+: respell (respelling .crlf .cr) t ↔ ['\r', '\n', '\n'] <:+: t := by
  have pair (t : Text) : ['\n'] <+: t ↔ t.head? = some '\n' := by
    cases t <;> simp [List.cons_prefix_cons, eq_comm]
  have next := head?_respell_newline
  induction t using breaks_induction with
  | nil => decide
  | broken b r apart ih =>
    rw [respell_break apart]
    cases b with
    | crlf =>
      simpa [respelling, LineBreak.text, List.infix_cons_iff, pair, next] using
        or_congr_right (a := r.head? = some '\n') ih
    | cr =>
      have single : r.head? ≠ some '\n' := apart rfl
      have none : ¬['\n', '\n'] <+: r := by
        rintro ⟨u, rfl⟩
        exact single rfl
      simpa [respelling, LineBreak.text, List.infix_cons_iff, pair, next, single, none] using ih
    | lf => simpa [respelling, LineBreak.text, List.infix_cons_iff] using ih
  | char c r hc ih =>
    have other : '\r' ≠ c := by
      rintro rfl
      cases hc
    rw [respell_cons hc]
    simpa [LineBreak.text, List.infix_cons_iff, other] using ih

theorem detect_of_infix_crlf {t : Text} (h : LineBreak.crlf.text <:+: t) :
    LineBreak.detect t = .crlf :=
  LineBreak.rank_injective (Nat.le_zero.1 (LineBreak.detect_first h).2)

theorem not_infix_withSeparator_cr {t : Text} (none : ¬LineBreak.crlf.text <:+: t) :
    ¬LineBreak.crlf.text <:+: withSeparator LineBreak.cr.text t := by
  rcases withSeparator_eq .cr t with ⟨same, -⟩ | ⟨found, made⟩
  · rwa [same]
  rw [made]
  cases hd : LineBreak.detect t with
  | crlf => exact absurd (hd ▸ found) none
  | cr => rwa [join_split LineBreak.cr.text_ne_nil]
  | lf =>
    have gone (l : Text) (hl : l ∈ split LineBreak.lf.text t) : l.count '\n' = 0 := by
      refine List.count_eq_zero.2 fun h => whole_of_mem_split hl ?_
      obtain ⟨x, y, rfl⟩ := List.append_of_mem h
      exact ⟨x, y, List.append_assoc x ['\n'] y⟩
    have rest : (join LineBreak.cr.text (split LineBreak.lf.text t)).count '\n' = 0 := by
      rw [count_join, List.map_congr_left gone]
      simp [LineBreak.text]
    exact fun h => List.count_eq_zero.1 rest (h.subset (by simp [LineBreak.text]))

theorem settled_cr_iff {t : Text} : Settled .cr t ↔ ¬LineBreak.crlf.text <:+: t := by
  constructor
  · exact fun h hd => absurd (h .crlf hd) (by decide)
  · intro h d hd
    cases d with
    | crlf => exact absurd hd h
    | cr | lf => decide

theorem settled_lf_iff {t : Text} : Settled .lf t ↔ ∀ b ∈ lineBreaks t, b = .lf := by
  constructor
  · intro h b hb
    have last := h b (occurs_iff.1 (occurs_of_mem_lineBreaks hb))
    cases b with
    | lf => rfl
    | crlf | cr => exact absurd last (by decide)
  · intro h d hd
    have none : t.count '\r' = 0 := by
      rw [count_of_lineBreaks h rfl]
      rfl
    have foreign : '\r' ∉ d.text := fun hr => List.count_eq_zero.1 none (hd.subset hr)
    cases d with
    | lf => exact Nat.le_refl _
    | crlf | cr => simp [LineBreak.text] at foreign

theorem settled_withSeparator_iff (s : LineBreak) (t : Text) :
    Settled s (withSeparator s.text t) ↔ Settles s t := by
  cases s with
  | crlf => exact iff_of_true (fun _ _ => Nat.zero_le _) trivial
  | lf =>
    rw [settled_lf_iff]
    constructor
    · exact fun h b hb => eq_detect_or_of_lineBreaks h hb
    · intro two
      rw [withSeparator_eq_join two]
      exact lineBreaks_join_lines .lf t
  | cr =>
    rw [settled_cr_iff, Settles]
    by_cases h : LineBreak.crlf.text <:+: t
    · rw [withSeparator_eq_respell, detect_of_infix_crlf h, infix_respell_iff]
    · have shorter : LineBreak.crlf.text <:+: ['\r', '\n', '\n'] := ⟨[], ['\n'], rfl⟩
      exact iff_of_true (not_infix_withSeparator_cr h) (mt shorter.trans h)

/-- Normalizing a text again changes nothing exactly if the first time left it settled. That can be
read off the text itself, unless its unit of indentation holds breaks: they are lost where units
become levels, so that a text may be settled that replacing breaks did not settle. -/
theorem normalize_normalize_iff (s : LineBreak) {width : Nat} (wide : 0 < width) (t : Text) :
    let once := normalize width s.text t
    let again := normalize width s.text once
    (again = once ↔ Settled s once) ∧ (Settles s t → again = once) ∧
      ((∀ unit ∈ detectUnit (split s.text (withSeparator s.text t)),
          ∀ c ∈ unit, isBreak c = false) → (again = once ↔ Settles s t)) := by
  intro once again
  have main : again = once ↔ Settled s once := normalize_eq_self_iff wide s t
  have kept : Settles s t → Settled s once := fun h =>
    ((settled_withSeparator_iff s t).2 h).mono fun _ => infix_of_infix_reindent wide
  refine ⟨main, fun h => main.2 (kept h), fun unbroken => ?_⟩
  refine main.trans ⟨fun h => (settled_withSeparator_iff s t).1 ?_, kept⟩
  exact h.mono fun _ => infix_reindent_of_unbroken unbroken width

theorem normalize_normalize_iff_unit :
    let t := "a\r\n\r\rb\n\r\r\r\rc".toList
    let once := normalize 3 ['\n'] t
    0 < 3 ∧ ¬Settles .lf t ∧ once = "a\n   b\n      c".toList ∧
      normalize 3 ['\n'] once = once := by
  intro t once
  have made : once = "a\n   b\n      c".toList := by decide +kernel
  have settled : Settled .lf once := by
    rw [made, settled_lf_iff]
    decide +kernel
  refine ⟨by decide, ?_, made, (normalize_normalize_iff .lf (by decide) t).1.2 settled⟩
  intro h
  exact absurd (h .cr (by decide +kernel)) (by decide +kernel)

theorem normalize_again_mixed :
    let once := normalize 2 ['\n'] "a\r\nb\rc".toList
    once = "a\nb\rc".toList ∧ normalize 2 ['\n'] once = "a\nb\nc".toList ∧
      normalize 2 ['\n'] once ≠ once := by
  decide +kernel

end Text

end PugWeave
