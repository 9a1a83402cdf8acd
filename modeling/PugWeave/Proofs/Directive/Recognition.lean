import PugWeave.Proofs.Directive.Opaque

namespace PugWeave.Text

def words (t : Text) : List Text := (t.splitOnP isBlank).filter (!·.isEmpty)

structure IsWord (w : Text) : Prop where
  ne_nil : w ≠ []
  solid : ∀ c ∈ w, isBlank c = false

instance (w : Text) : Decidable (IsWord w) :=
  decidable_of_iff (w ≠ [] ∧ w.all (!isBlank ·) = true)
    ⟨fun h => ⟨h.1, by simpa using h.2⟩, fun h => ⟨h.ne_nil, by simpa using h.solid⟩⟩

theorem words_append_blank (t : Text) {c : Char} (blank : isBlank c = true) (r : Text) :
    words (t ++ c :: r) = words t ++ words r := by
  rw [words, List.splitOnP_append_cons t r blank, List.filter_append, words, words]

theorem words_blank_cons {c : Char} (blank : isBlank c = true) (r : Text) :
    words (c :: r) = words r := words_append_blank [] blank r

theorem words_trimStart (t : Text) : words (trimStart t) = words t := by
  induction t with
  | nil => rfl
  | cons c r ih =>
    cases h : isBlank c with
    | false => rw [trimStart, List.dropWhile_cons_of_neg (by simp [h])]
    | true => rw [trimStart, List.dropWhile_cons_of_pos h, ← trimStart, ih, words_blank_cons h]

theorem IsWord.words_append {w r : Text} (h : IsWord w) (ends : ∀ c ∈ r.head?, isBlank c = true) :
    words (w ++ r) = w :: words r := by
  have single : words w = [w] := by
    rw [words, List.splitOnP_eq_singleton h.solid]
    exact List.filter_eq_self.2 (by simpa using h.ne_nil)
  cases r with
  | nil => rw [List.append_nil, single]; rfl
  | cons c r =>
    have blank := ends c rfl
    rw [words_append_blank w blank, single, words_blank_cons blank]
    rfl

theorem exists_word {t : Text} (h : ∀ c ∈ t.head?, isBlank c = false) :
    t = [] ∨ ∃ w r, w ++ r = t ∧ IsWord w ∧ ∀ c ∈ r.head?, isBlank c = true := by
  cases t with
  | nil => exact .inl rfl
  | cons c t =>
    refine .inr ⟨_, _, List.takeWhile_append_dropWhile (p := (!isBlank ·)), ⟨?_, ?_⟩, ?_⟩
    · rw [List.takeWhile_cons_of_pos (by simpa using h c rfl)]
      exact List.cons_ne_nil _ _
    · intro d hd
      simpa using List.all_eq_true.1 List.all_takeWhile d hd
    · intro d hd
      have stops := List.head?_dropWhile_not (!isBlank ·) (c :: t)
      rw [Option.mem_def.1 hd] at stops
      simpa using stops

end PugWeave.Text

namespace PugWeave.Directive

open Text

def Mode.ofWord? (w : Text) : Option Mode :=
  if w = "append".toList then some .append
  else if w = "prepend".toList then some .prepend
  else none

theorem Mode.ofWord?_eq_some_iff {w : Text} {mode : Mode} : ofWord? w = some mode ↔
    w = "append".toList ∧ mode = .append ∨ w = "prepend".toList ∧ mode = .prepend := by
  have other : "append".toList ≠ "prepend".toList := by decide
  rw [ofWord?]
  split
  · simp_all [eq_comm]
  · split <;> simp_all [eq_comm]

/-- Words that open a block. A word for a mode is itself the name where none follows. -/
inductive Opens (ws : List Text) : Text → Mode → Prop
  | amending : ws = "block".toList :: w :: name :: more → Mode.ofWord? w = some mode →
      Opens ws name mode
  | replacing : ws = "block".toList :: name :: more → Mode.ofWord? name = none ∨ more = [] →
      Opens ws name .replace
  | short : ws = w :: name :: more → Mode.ofWord? w = some mode → Opens ws name mode

theorem word?_word_append {w r : Text} (h : IsWord w) (ends : ∀ c ∈ r.head?, isBlank c = true) :
    word? (w ++ r) = some w := by
  have stops : r.takeWhile (!isBlank ·) = [] := by
    cases r with
    | nil => rfl
    | cons c r => simp [ends c rfl]
  have first : (w ++ r).takeWhile (!isBlank ·) = w := by
    rw [List.takeWhile_append_of_pos (by simpa using h.solid), stops, List.append_nil]
  obtain ⟨c, u, rfl⟩ := List.exists_cons_of_ne_nil h.ne_nil
  rw [word?, first]

section

variable {t : Text} (edge : ∀ c ∈ t.head?, isBlank c = false)
include edge

theorem word?_eq_head? : word? t = (words t).head? := by
  rcases exists_word edge with rfl | ⟨w, r, rfl, word, ends⟩
  · rfl
  · rw [word?_word_append word ends, word.words_append ends, List.head?_cons]

omit edge in
theorem after?_eq_some_iff {keyword : String} {rest : Text} : after? keyword t = some rest ↔
    ∃ c r, isBlank c = true ∧ keyword.toList ++ c :: r = t ∧ trimStart r = rest := by
  constructor
  · intro h
    obtain ⟨s, rfl⟩ := prefix_of_after? h
    rw [after?_keyword_append] at h
    cases s with
    | nil => cases h
    | cons c r => cases hc : isBlank c <;> simp_all [pastGap?]
  · rintro ⟨c, r, blank, rfl, rfl⟩
    rw [after?_keyword_append]
    simp [pastGap?, blank]

variable {keyword : String}

theorem exists_after? {a : Text} {more : List Text} (h : words t = keyword.toList :: a :: more) :
    ∃ rest, after? keyword t = some rest := by
  rcases exists_word edge with rfl | ⟨w, r, rfl, first, ends⟩
  · cases h
  · rw [first.words_append ends] at h
    obtain ⟨rfl, h⟩ := List.cons.inj h
    cases r with
    | nil => cases h
    | cons c r => exact ⟨_, after?_eq_some_iff.2 ⟨c, r, ends c rfl, rfl, rfl⟩⟩

variable (word : IsWord keyword.toList)
include word

omit edge in
theorem words_of_after? {rest : Text} (h : after? keyword t = some rest) :
    words t = keyword.toList :: words rest ∧ ∀ c ∈ rest.head?, isBlank c = false := by
  obtain ⟨c, r, blank, rfl, rfl⟩ := after?_eq_some_iff.1 h
  rw [word.words_append (by simpa using blank), words_blank_cons blank, words_trimStart]
  exact ⟨rfl, head?_trimStart r⟩

theorem argument?_eq_some_iff {a : Text} : argument? keyword t = some a ↔
    ∃ more, words t = keyword.toList :: a :: more := by
  constructor
  · intro h
    obtain ⟨rest, hr, ha⟩ := Option.bind_eq_some_iff.1 h
    obtain ⟨front, edge⟩ := words_of_after? word hr
    rw [word?_eq_head? edge] at ha
    obtain ⟨more, hm⟩ := List.head?_eq_some_iff.1 ha
    exact ⟨more, front.trans (congrArg _ hm)⟩
  · rintro ⟨more, h⟩
    obtain ⟨rest, hr⟩ := exists_after? edge h
    obtain ⟨front, edge⟩ := words_of_after? word hr
    rw [front] at h
    rw [argument?, hr, Option.bind_some, word?_eq_head? edge, (List.cons.inj h).2, List.head?_cons]

omit word

theorem extension?_eq_some_iff {name : Text} {mode : Mode} : extension? t = some (name, mode) ↔
    ∃ w more, Mode.ofWord? w = some mode ∧ words t = w :: name :: more := by
  have appends {a : Text} : argument? "append" t = some a ↔ _ :=
    argument?_eq_some_iff edge (by decide)
  have prepends {a : Text} : argument? "prepend" t = some a ↔ _ :=
    argument?_eq_some_iff edge (by decide)
  have found : extension? t = some (name, mode) ↔
      argument? "append" t = some name ∧ mode = .append ∨
        (∀ a, argument? "append" t ≠ some a) ∧ argument? "prepend" t = some name ∧
          mode = .prepend := by
    rw [extension?]
    cases argument? "append" t <;> cases argument? "prepend" t <;> simp [eq_comm]
  rw [found]
  simp only [ne_eq, appends, prepends, Mode.ofWord?_eq_some_iff]
  constructor
  · rintro (⟨⟨more, h⟩, rfl⟩ | ⟨-, ⟨more, h⟩, rfl⟩)
    · exact ⟨_, more, .inl ⟨rfl, rfl⟩, h⟩
    · exact ⟨_, more, .inr ⟨rfl, rfl⟩, h⟩
  · rintro ⟨w, more, ⟨rfl, rfl⟩ | ⟨rfl, rfl⟩, h⟩
    · exact .inl ⟨⟨more, h⟩, rfl⟩
    · refine .inr ⟨?_, ⟨more, h⟩, rfl⟩
      rintro a ⟨others, h'⟩
      rw [h] at h'
      exact absurd (List.cons.inj h').1 (by decide)

theorem block?_eq_some_iff {name : Text} {mode : Mode} :
    block? t = some (name, mode) ↔ Opens (words t) name mode := by
  have word : IsWord "block".toList := by decide
  rw [block?]
  cases hb : after? "block" t with
  | some rest =>
    obtain ⟨front, inner⟩ := words_of_after? word hb
    have extended {n : Text} {m : Mode} : extension? rest = some (n, m) ↔ _ :=
      extension?_eq_some_iff inner
    dsimp only
    rw [front, word?_eq_head? inner, Option.orElse_eq_orElse, Option.orElse_eq_or,
      Option.or_eq_some_iff]
    constructor
    · rintro (h | ⟨none, h⟩)
      · obtain ⟨w, more, hw, h⟩ := extended.1 h
        exact .amending (congrArg _ h) hw
      · obtain ⟨_, first, same⟩ := Option.map_eq_some_iff.1 h
        cases same
        obtain ⟨more, hm⟩ := List.head?_eq_some_iff.1 first
        refine .replacing (congrArg _ hm) ?_
        -- A word for a mode in front of another word would have been read as one.
        cases more with
        | nil => exact .inr rfl
        | cons n more =>
          refine .inl (Option.eq_none_iff_forall_ne_some.2 fun m hw => ?_)
          rw [extended.2 ⟨_, _, hw, hm⟩] at none
          cases none
    · rintro (⟨h, hw⟩ | ⟨h, plain⟩ | ⟨h, hw⟩)
      · exact .inl (extended.2 ⟨_, _, hw, (List.cons.inj h).2⟩)
      · obtain ⟨-, h⟩ := List.cons.inj h
        refine .inr ⟨Option.eq_none_iff_forall_ne_some.2 fun found he => ?_, by simp [h]⟩
        obtain ⟨w, more, hw, h'⟩ := extended.1 he
        rw [h] at h'
        obtain ⟨rfl, rfl⟩ := List.cons.inj h'
        simp [hw] at plain
      · rw [← (List.cons.inj h).1] at hw
        cases hw
  | none =>
    dsimp only
    rw [extension?_eq_some_iff edge]
    constructor
    · rintro ⟨w, more, hw, h⟩
      exact .short h hw
    · have bare {a : Text} {more : List Text} (h : words t = "block".toList :: a :: more) : False := by
        obtain ⟨rest, hr⟩ := exists_after? edge h
        rw [hb] at hr
        cases hr
      rintro (⟨h, -⟩ | ⟨h, -⟩ | ⟨h, hw⟩)
      · exact (bare h).elim
      · exact (bare h).elim
      · exact ⟨_, _, hw, h⟩

end

theorem Opens.first {ws : List Text} {name : Text} {mode : Mode} (h : Opens ws name mode) :
    ∃ w more, ws = w :: more ∧ w ≠ "include".toList ∧ w ≠ "extends".toList := by
  have opener {w : Text} {mode : Mode} (h : Mode.ofWord? w = some mode) :
      w ≠ "include".toList ∧ w ≠ "extends".toList := by
    rcases Mode.ofWord?_eq_some_iff.1 h with ⟨rfl, -⟩ | ⟨rfl, -⟩ <;> decide
  cases h with
  | amending h _ => exact ⟨_, _, h, by decide⟩
  | replacing h _ => exact ⟨_, _, h, by decide⟩
  | short h hw => exact ⟨_, _, h, opener hw⟩

theorem argument?_extends_eq_some_iff {line target : Text} :
    argument? "extends" line = some target ↔
      "extends".toList <+: line ∧ ∃ more, words line = "extends".toList :: target :: more := by
  have edge (front : "extends".toList <+: line) : ∀ c ∈ line.head?, isBlank c = false := by
    obtain ⟨r, rfl⟩ := front
    rintro c ⟨⟩
    rfl
  constructor
  · intro h
    obtain ⟨rest, hr, -⟩ := Option.bind_eq_some_iff.1 h
    have front := prefix_of_after? hr
    exact ⟨front, (argument?_eq_some_iff (edge front) (by decide)).1 h⟩
  · rintro ⟨front, h⟩
    exact (argument?_eq_some_iff (edge front) (by decide)).2 h

namespace Meaning

variable {line : Text}

theorem of_eq_inclusion_iff {target : Text} : Meaning.of line = .inclusion target ↔
    argument? "include" (trimStart line) = some target := by
  rw [Meaning.of_eq]
  cases argument? "include" (trimStart line) <;> cases argument? "extends" line <;>
    cases block? (trimStart line) <;> simp

theorem of_eq_parent_iff {target : Text} : Meaning.of line = .parent target ↔
    argument? "include" (trimStart line) = none ∧ argument? "extends" line = some target := by
  rw [Meaning.of_eq]
  cases argument? "include" (trimStart line) <;> cases argument? "extends" line <;>
    cases block? (trimStart line) <;> simp

theorem of_eq_block_iff {name : Text} {mode : Mode} : Meaning.of line = .block name mode ↔
    argument? "include" (trimStart line) = none ∧ argument? "extends" line = none ∧
      block? (trimStart line) = some (name, mode) := by
  rw [Meaning.of_eq]
  cases argument? "include" (trimStart line) <;> cases argument? "extends" line <;>
    cases block? (trimStart line) <;> simp [Prod.ext_iff]

end Meaning

/-- A line includes, extends or opens a block just if its first words say so, where it extends only
from the left edge. Any other line is text. -/
theorem Statement.meaning_iff_words (unit : Nat) (line : Text) :
    let meaning := (ofLine unit line).meaning
    let includes (target : Text) := ∃ more, words line = "include".toList :: target :: more
    let inherits (target : Text) := "extends".toList <+: line ∧
      ∃ more, words line = "extends".toList :: target :: more
    (∀ target, meaning = .inclusion target ↔ includes target) ∧
      (∀ target, meaning = .parent target ↔ inherits target) ∧
      (∀ name mode, meaning = .block name mode ↔ Opens (words line) name mode) ∧
      (meaning = .text ↔ (∀ target, ¬includes target) ∧ (∀ target, ¬inherits target) ∧
        ∀ name mode, ¬Opens (words line) name mode) := by
  intro meaning includes inherits
  have edge := head?_trimStart line
  have inclusion (target : Text) :
      argument? "include" (trimStart line) = some target ↔ includes target := by
    rw [argument?_eq_some_iff edge (by decide), words_trimStart]
  have parent (target : Text) : argument? "extends" line = some target ↔ inherits target :=
    argument?_extends_eq_some_iff
  have block (name : Text) (mode : Mode) :
      block? (trimStart line) = some (name, mode) ↔ Opens (words line) name mode := by
    rw [block?_eq_some_iff edge, words_trimStart]
  -- The first word tells the kinds apart, so that their order does not matter.
  have own : (∃ target, inherits target) → ∀ target, ¬includes target := by
    rintro ⟨_, -, more, h⟩ _ ⟨more', h'⟩
    exact absurd (List.cons.inj (h.symm.trans h')).1 (by decide)
  have apart {name : Text} {mode : Mode} (h : Opens (words line) name mode) :
      (∀ target, ¬includes target) ∧ ∀ target, ¬inherits target := by
    obtain ⟨w, more, h, included, inherited⟩ := h.first
    constructor
    · rintro _ ⟨more', h'⟩
      exact included (List.cons.inj (h.symm.trans h')).1
    · rintro _ ⟨-, more', h'⟩
      exact inherited (List.cons.inj (h.symm.trans h')).1
  refine ⟨fun target => ?_, fun target => ?_, fun name mode => ?_, ?_⟩
  · exact Meaning.of_eq_inclusion_iff.trans (inclusion target)
  · refine Meaning.of_eq_parent_iff.trans ?_
    rw [parent, Option.eq_none_iff_forall_ne_some]
    simp only [ne_eq, inclusion]
    exact and_iff_right_of_imp fun h => own ⟨_, h⟩
  · refine Meaning.of_eq_block_iff.trans ?_
    rw [block, Option.eq_none_iff_forall_ne_some, Option.eq_none_iff_forall_ne_some, ← and_assoc]
    simp only [ne_eq, inclusion, parent]
    exact and_iff_right_of_imp apart
  · refine Meaning.of_eq_text_iff.trans ?_
    simp only [Option.eq_none_iff_forall_ne_some, ne_eq, Prod.forall, inclusion, parent, block]

example : (Statement.ofLine 2 "  block append".toList).meaning =
    .block "append".toList .replace := by decide

end PugWeave.Directive
