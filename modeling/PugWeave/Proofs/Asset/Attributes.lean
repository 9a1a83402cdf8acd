import PugWeave.Proofs.Asset.Sight

namespace PugWeave.Asset

open Text
open Markup (Spot Token Spelled Written Laid tidy tidy_of_suffix)
open Markup.Lexer (Passed breaks isBreak_of_isPlainNameChar)

def tagAfter (tag : Option Text) : Token → Option Text
  | .tag name _ => some name
  | .attr .. => tag

def openTag (tokens : List Token) : Option Text := tokens.foldl tagAfter none

structure Attribute where
  before : List Token
  assignment : Assignment
  left : Nat
  asset : Option Path

variable (rules : Rules) (directory : Path)

def attributes : List Token → List Spot → List Attribute
  | _, [] => []
  | before, ⟨.attr name (some value) line, left⟩ :: rest =>
    ⟨before, ⟨line, name, trim value⟩, left,
      asset? rules directory (openTag before) name (trim value)⟩ ::
        attributes (before ++ [.attr name (some value) line]) rest
  | before, ⟨token, _⟩ :: rest => attributes (before ++ [token]) rest

variable {rules directory}

theorem attributes_valueless {spot : Spot}
    (h : ∀ name value line, spot.token ≠ .attr name (some value) line) (tokens : List Token)
    (more : List Spot) : attributes rules directory tokens (spot :: more) =
      attributes rules directory (tokens ++ [spot.token]) more := by
  obtain ⟨t, left⟩ := spot
  cases t with
  | tag name line => rfl
  | attr name value line =>
    cases value with
    | none => rfl
    | some value => exact absurd rfl (h name value line)

theorem asset_of_mem_attributes {tokens : List Token} {spots : List Spot} {x : Attribute}
    (h : x ∈ attributes rules directory tokens spots) : x.asset =
      asset? rules directory (openTag x.before) x.assignment.name x.assignment.value := by
  fun_induction attributes rules directory tokens spots with
  | case1 => cases h
  | case2 before name value line left rest ih =>
    rcases List.mem_cons.1 h with rfl | h
    · rfl
    · exact ih h
  | case3 before t left rest _ ih => exact ih h

namespace Attribute

def seen (source : Text) (x : Attribute) : Bool :=
  (x.assignment.places source).any fun (_, rest) =>
    (unify (x.assignment.value ++ rest)).length = x.left

def named (whole : Text) (x : Attribute) : Bool :=
  let front := (whole.take (whole.length - x.left)).reverse.dropWhile isSign
  isPlainName x.assignment.name && x.assignment.name.reverse.isPrefixOf front &&
    (front.drop x.assignment.name.length).head?.any fun c => c = '(' || c = ',' || isBlank c

theorem seen_iff {source : Text} {x : Attribute} : x.seen source = true ↔
    ∃ before rest, (before, rest) ∈ x.assignment.places source ∧
      (unify (x.assignment.value ++ rest)).length = x.left := by
  simp [seen]

structure ReadIn (whole : Text) (x : Attribute) : Prop where
  split : ∃ front back after, front ++ back = whole ∧
    Written back x.assignment.name x.assignment.value after ∧
    x.left = (x.assignment.value ++ after).length ∧ x.assignment.line = breaks front + 1 ∧
    ((Place.outside none).follow front).IsOutside

end Attribute

structure Reached (whole : Text) (line : Nat) (s : Text) : Prop where
  split : ∃ front, front ++ s = whole ∧ line = breaks front + 1 ∧
    ((Place.outside none).follow front).IsOutside

namespace Reached

variable {whole s rest : Text} {line line' : Nat}

theorem start (whole : Text) : Reached whole 1 whole := ⟨[], rfl, rfl, none, rfl⟩

theorem passed (h : Reached whole line s) (clean : tidy whole = true)
    (passed : Passed line s line' rest) : Reached whole line' rest := by
  obtain ⟨front, rfl, rfl, outside⟩ := h.split
  obtain ⟨x, rfl, rfl, calm⟩ := passed.split
  refine ⟨front ++ x, List.append_assoc .., ?_, ?_⟩
  · rw [breaks, breaks, breaks, List.count_append]
    omega
  · rw [Place.follow_append]
    exact calm (tidy_of_suffix clean (List.suffix_append _ _)) _ outside

theorem readIn_of_laid (clean : tidy whole = true) {spots : List Spot}
    (laid : Laid line s spots line' rest) (h : Reached whole line s) (tokens : List Token) :
    ∀ x ∈ attributes rules directory tokens spots, x.ReadIn whole := by
  induction laid generalizing tokens with
  | nil => simp [attributes]
  | @bare _ s more _ _ spot valueless _ ih =>
    rw [attributes_valueless valueless]
    exact ih h _
  | @value _ s line t name value after _ m more _ _ front written back _ _ ih =>
    have here := h.passed clean front
    have later := ih (here.passed clean back) (tokens ++ [.attr name (some value) line])
    intro x hx
    rw [attributes, written.trimmed] at hx
    rcases List.mem_cons.1 hx with rfl | hx
    · obtain ⟨front, whole, lines, outside⟩ := here.split
      exact ⟨front, t, after, whole, written, rfl, lines, outside⟩
    · exact later x hx

end Reached

theorem Place.follow_unify (p : Place) (t : Text) : p.follow (unify t) = p.follow t := by
  fun_induction unify t generalizing p with
  | case1 => rfl
  | case2 r ih => exact ih _
  | case3 c r _ ih =>
    rw [follow_cons, follow_cons, ih]
    cases hc : isBreak c with
    | true => rfl
    | false => rw [if_neg Bool.false_ne_true, hc]

theorem signs_of_unify {t : Text} (h : Signs (unify t)) : Signs t := by
  obtain ⟨front, equals, back, whole, hfront, hback, hequals⟩ := h
  have unbroken : ∀ c ∈ equals, isBreak c = false := by
    rcases hequals with rfl | rfl
    · exact List.forall_mem_singleton.2 rfl
    · exact List.forall_mem_cons.2 ⟨rfl, List.forall_mem_singleton.2 rfl⟩
  obtain ⟨u, b, rfl, rfl, rfl⟩ := exists_of_unify_piece whole.symm unbroken
  rw [isBlankLine_unify] at hfront hback
  exact ⟨u, equals, b, rfl, hfront, hback, hequals⟩

namespace Attribute

variable {source : Text} {x : Attribute}

theorem spelled_of_named {whole front spelt sign : Text}
    (before : whole.take (whole.length - x.left) = front ++ (spelt ++ sign))
    (spelled : Spelled x.assignment.name spelt) (signs : Signs sign) (h : x.named whole = true) :
    isPlainName x.assignment.name = true ∧ spelt = x.assignment.name ∧
      ∃ d, front.getLast? = some d ∧ (d = '(' ∨ d = ',' ∨ isBlank d = true) := by
  obtain ⟨d, last, nosign, plainly⟩ := spelled.last
  obtain ⟨init, hinit⟩ := List.getLast?_eq_some_iff.1 last
  have shape : (whole.take (whole.length - x.left)).reverse.dropWhile isSign =
      spelt.reverse ++ front.reverse := by
    rw [before, List.reverse_append, List.reverse_append, List.append_assoc,
      List.dropWhile_append_of_pos fun c hc => signs.isSign c (List.mem_reverse.1 hc), hinit,
      List.reverse_append, List.reverse_singleton, List.singleton_append, List.cons_append,
      List.dropWhile_cons_of_neg (by simp [nosign])]
  rw [named, shape, Bool.and_eq_true, Bool.and_eq_true, List.isPrefixOf_iff_prefix] at h
  obtain ⟨⟨plain, ahead⟩, opens⟩ := h
  have hspelt : spelt = x.assignment.name := by
    apply plainly
    obtain ⟨name, e, hname⟩ := (List.eq_nil_or_concat x.assignment.name).resolve_left (by
      intro empty
      simp [empty, isPlainName] at plain)
    rw [hname, hinit, List.concat_eq_append, List.reverse_append, List.reverse_append] at ahead
    obtain rfl : e = d := (List.cons_prefix_cons.1 ahead).1
    exact (Assignment.plain_of_mem_name plain (by simp [hname])).1
  refine ⟨plain, hspelt, ?_⟩
  rw [hspelt, ← List.length_reverse, List.drop_left, List.head?_reverse] at opens
  cases hf : front.getLast? with
  | none => simp [hf] at opens
  | some d => exact ⟨d, rfl, by simpa [hf, or_assoc] using opens⟩

theorem seen_of_named (read : x.ReadIn (unify source)) (h : x.named (unify source) = true)
    (ne : x.assignment.value ≠ []) (unbroken : ∀ c ∈ x.assignment.value, isBreak c = false) :
    x.seen source = true := by
  obtain ⟨front, back, after, whole, written, left, line, outside⟩ := read.split
  obtain ⟨spelt, sign, rfl, spelled, signs⟩ := written.text
  have before : (unify source).take ((unify source).length - x.left) = front ++ (spelt ++ sign) := by
    have split : unify source =
        (front ++ (spelt ++ sign)) ++ (x.assignment.value ++ after) := by simp [← whole]
    rw [split, left, List.length_append, Nat.add_sub_cancel, List.take_left]
  obtain ⟨plain, rfl, d, hd, opens⟩ := spelled_of_named before spelled signs h
  obtain ⟨c, r, hname⟩ : ∃ c r, x.assignment.name = c :: r := by
    refine List.exists_cons_of_ne_nil fun empty => ?_
    simp [empty, isPlainName] at plain
  obtain ⟨hc, quote⟩ := Assignment.plain_of_mem_name plain (c := c) (by simp [hname])
  have names : ∀ c ∈ x.assignment.name, isBreak c = false := fun c hc =>
    isBreak_of_isPlainNameChar (Assignment.plain_of_mem_name plain hc).1
  -- The pieces of the source, with its own line breaks.
  obtain ⟨u, w, rfl, rfl, hw⟩ := exists_of_unify_piece whole.symm names
  obtain ⟨between, rest, rfl, rfl, rfl⟩ := exists_of_unify_piece hw unbroken
  obtain ⟨last, hlast⟩ := outside
  have head : ∀ e ∈ (x.assignment.value ++ rest).head?, isBlank e = false := by
    obtain ⟨b, -, hb⟩ := exists_blank_trimEnd (trimStart x.assignment.value)
    rw [← trim, written.trimmed] at hb
    intro e he
    refine head?_trimStart x.assignment.value e ?_
    rw [← hb]
    obtain ⟨f, v, hv⟩ := List.exists_cons_of_ne_nil ne
    rw [hv] at he ⊢
    exact he
  refine seen_iff.2 ⟨u ++ (x.assignment.name ++ between), rest, ?_, ?_⟩
  · refine (x.assignment).mem_places_iff.2 ⟨u, c, r ++ (between ++ (x.assignment.value ++ rest)),
      x.assignment.name ++ between, ?_, rfl, line.symm, isBreak_of_isPlainNameChar hc, ?_, ?_⟩
    · simp [hname]
    · rw [← Place.follow_unify, hlast]
      have nonempty : unify u ≠ [] := by
        intro empty
        simp [empty] at hd
      rcases Place.getLast?_of_follow hlast nonempty with rfl | ⟨rfl, -⟩
      · simpa [Place.opensName, quote, hd, or_assoc] using opens
      · simp [Place.opensName, quote]
    · exact (x.assignment).front?_eq_some_iff.2 ⟨between, rfl, signs_of_unify signs, head,
        by simp [hname]⟩
  · have ends : x.assignment.value.getLast? ≠ some '\r' := by
      intro returns
      cases unbroken _ (List.mem_of_getLast? returns)
    rw [unify_append (.inl ends), unify_eq_self unbroken, left]

end Attribute

end PugWeave.Asset
