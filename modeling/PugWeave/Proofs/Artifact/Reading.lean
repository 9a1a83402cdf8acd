import PugWeave.Proofs.Artifact.Program

namespace PugWeave

namespace Text

theorem length_le_of_dropPrefix? {t front rest : Text} (h : t.dropPrefix? front = some rest) :
    rest.length ≤ t.length := by
  obtain ⟨front', rfl, -⟩ := List.dropPrefix?_eq_some_iff.1 h
  simp

theorem dropPrefix?_append (front t : Text) : (front ++ t).dropPrefix? front = some t :=
  List.dropPrefix?_append_of_beq t BEq.rfl

end Text

open Text

namespace Json

def hexValue? (c : Char) : Option Nat := "0123456789abcdef".toList.idxOf? c

def named? : Char → Option Char
  | '\x22' => some '\x22'
  | '\\' => some '\\'
  | 'b' => some '\x08'
  | 'f' => some '\x0c'
  | 'n' => some '\n'
  | 'r' => some '\r'
  | 't' => some '\t'
  | _ => none

def readBody : Text → Option (Text × Text)
  | [] => none
  | '\x22' :: rest => some ([], rest)
  | '\\' :: 'u' :: '0' :: '0' :: high :: low :: rest => do
    let n := 16 * (← hexValue? high) + (← hexValue? low)
    let (t, behind) ← readBody rest
    return (Char.ofNat n :: t, behind)
  | '\\' :: mark :: rest => do
    let c ← named? mark
    let (t, behind) ← readBody rest
    return (c :: t, behind)
  | c :: rest => do
    let (t, behind) ← readBody rest
    return (c :: t, behind)

theorem hexValue?_digitChar : ∀ n < 16, hexValue? (Nat.digitChar n) = some n := by decide

theorem escape_cases (c : Char) :
    (∃ mark, escape c = ['\\', mark] ∧ named? mark = some c ∧ mark ≠ 'u') ∨
      (c.toNat < 0x20 ∧ escape c = '\\' :: 'u' :: '0' :: '0' :: hex2 c.toNat) ∨
      (c ≠ '\x22' ∧ c ≠ '\\' ∧ escape c = [c]) := by
  fun_cases escape c with
  | case1 | case2 | case3 | case4 | case5 | case6 | case7 =>
    subst_vars
    exact .inl ⟨_, rfl, rfl, by decide⟩
  | case8 _ _ _ _ _ _ _ control => exact .inr (.inl ⟨control, rfl⟩)
  | case9 quote backslash => exact .inr (.inr ⟨quote, backslash, rfl⟩)

theorem readBody_escape (c : Char) (rest : Text) :
    readBody (escape c ++ rest) = (readBody rest).map fun (t, behind) => (c :: t, behind) := by
  rcases escape_cases c with ⟨mark, written, named, other⟩ | ⟨control, written⟩ |
    ⟨quote, backslash, written⟩
  · rw [written, List.cons_append, List.cons_append, List.nil_append, readBody, named]
    · cases readBody rest <;> rfl
    · rintro high low rest' rfl
      exact absurd rfl other
  · have digits : 16 * (c.toNat / 16) + c.toNat % 16 = c.toNat := Nat.div_add_mod _ _
    rw [written, hex2]
    simp only [List.cons_append, List.nil_append, readBody]
    rw [hexValue?_digitChar _ (by omega), hexValue?_digitChar _ (by omega)]
    cases readBody rest <;> simp [digits]
  · rw [written, List.singleton_append, readBody]
    · cases readBody rest <;> rfl
    all_goals simp [quote, backslash]

def readLiteral : Text → Option (Text × Text)
  | '\x22' :: rest => readBody rest
  | _ => none

theorem readLiteral_literal (t rest : Text) : readLiteral (literal t ++ rest) = some (t, rest) := by
  have body : readBody (t.flatMap escape ++ '\x22' :: rest) = some (t, rest) := by
    induction t with
    | nil => rfl
    | cons c t ih => rw [List.flatMap_cons, List.append_assoc, readBody_escape, ih]; rfl
  rw [← body, literal]
  simp [readLiteral]

theorem length_lt_of_readBody {t s rest : Text} (h : readBody t = some (s, rest)) :
    rest.length < t.length := by
  fun_induction readBody t generalizing s with
  | case1 => cases h
  | case2 behind =>
    cases h
    exact Nat.lt_succ_self _
  | case3 high low behind ih =>
    obtain ⟨_, -, h⟩ := Option.bind_eq_some_iff.1 h
    obtain ⟨_, -, h⟩ := Option.bind_eq_some_iff.1 h
    obtain ⟨_, hr, h⟩ := Option.bind_eq_some_iff.1 h
    cases h
    exact Nat.lt_add_right 6 (ih hr)
  | case4 mark behind _ ih =>
    obtain ⟨_, -, h⟩ := Option.bind_eq_some_iff.1 h
    obtain ⟨_, hr, h⟩ := Option.bind_eq_some_iff.1 h
    cases h
    exact Nat.lt_add_right 2 (ih hr)
  | case5 c behind _ _ _ ih =>
    obtain ⟨_, hr, h⟩ := Option.bind_eq_some_iff.1 h
    cases h
    exact Nat.lt_succ_of_lt (ih hr)

theorem length_lt_of_readLiteral {t s rest : Text} (h : readLiteral t = some (s, rest)) :
    rest.length < t.length := by
  fun_cases readLiteral t with
  | case1 => exact Nat.lt_succ_of_lt (length_lt_of_readBody h)
  | case2 => simp [readLiteral] at h

def readFramed (a b c d t : Text) : Option ((Text × Text × Text) × Text) := do
  let (k, t) ← readLiteral (← t.dropPrefix? a)
  let (l, t) ← readLiteral (← t.dropPrefix? b)
  let (m, t) ← readLiteral (← t.dropPrefix? c)
  return ((k, l, m), ← t.dropPrefix? d)

section

variable {a b c d : Text}

theorem length_lt_of_readFramed {t rest : Text} {found : Text × Text × Text}
    (h : readFramed a b c d t = some (found, rest)) : rest.length < t.length := by
  obtain ⟨t₁, h₁, h⟩ := Option.bind_eq_some_iff.1 h
  obtain ⟨⟨_, t₂⟩, h₂, h⟩ := Option.bind_eq_some_iff.1 h
  obtain ⟨t₃, h₃, h⟩ := Option.bind_eq_some_iff.1 h
  obtain ⟨⟨_, t₄⟩, h₄, h⟩ := Option.bind_eq_some_iff.1 h
  obtain ⟨t₅, h₅, h⟩ := Option.bind_eq_some_iff.1 h
  obtain ⟨⟨_, t₆⟩, h₆, h⟩ := Option.bind_eq_some_iff.1 h
  obtain ⟨t₇, h₇, h⟩ := Option.bind_eq_some_iff.1 h
  cases h
  calc rest.length ≤ t₆.length := length_le_of_dropPrefix? h₇
    _ < t₅.length := length_lt_of_readLiteral h₆
    _ ≤ t₄.length := length_le_of_dropPrefix? h₅
    _ < t₃.length := length_lt_of_readLiteral h₄
    _ ≤ t₂.length := length_le_of_dropPrefix? h₃
    _ < t₁.length := length_lt_of_readLiteral h₂
    _ ≤ t.length := length_le_of_dropPrefix? h₁

theorem readFramed_framed (k l m rest : Text) :
    readFramed a b c d
        (a ++ literal k ++ b ++ literal l ++ c ++ literal m ++ d ++ rest) =
      some ((k, l, m), rest) := by
  simp only [List.append_assoc, readFramed, dropPrefix?_append, readLiteral_literal,
    Option.bind_eq_bind, Option.bind_some, Option.pure_def]

theorem readFramed_eq_none {t : Text} (h : t.dropPrefix? a = none) :
    readFramed a b c d t = none := by
  rw [readFramed, h]
  rfl

end

end Json

namespace Artifact

def Call.read? (t : Text) : Option (Call × Text) := do
  let ((key, specifier, message), t) ← Json.readFramed "try \x7b\n  requirePaths[".toList
    "] = require(".toList ");\n\x7d catch (error) \x7b\n  throw new Error(".toList
    " + error.message);\n\x7d\n".toList t
  return (⟨key, specifier, message⟩, t)

theorem Call.length_lt_of_read? {t rest : Text} {c : Call} (h : read? t = some (c, rest)) :
    rest.length < t.length := by
  obtain ⟨_, framed, h⟩ := Option.bind_eq_some_iff.1 h
  cases h
  exact Json.length_lt_of_readFramed framed

theorem Call.read?_text_append (c : Call) (rest : Text) :
    read? (c.text ++ rest) = some (c, rest) := by
  rw [text_eq]
  exact Option.bind_eq_some_iff.2 ⟨_, Json.readFramed_framed .., rfl⟩

theorem Call.read?_content (rest : Text) : read? ("var tpl = ".toList ++ rest) = none := by
  -- A call has another first letter.
  rw [read?, Json.readFramed_eq_none (by rfl)]
  rfl

def readCalls (t : Text) : List Call × Text :=
  match h : Call.read? t with
  | none => ([], t)
  | some (c, rest) =>
    have := Call.length_lt_of_read? h
    (c :: (readCalls rest).1, (readCalls rest).2)
  termination_by t.length

theorem readCalls_of_none {t : Text} (h : Call.read? t = none) : readCalls t = ([], t) := by
  rw [readCalls]
  split
  · rfl
  · rename_i found
    rw [h] at found
    cases found

theorem readCalls_of_some {t rest : Text} {c : Call} (h : Call.read? t = some (c, rest)) :
    readCalls t = (c :: (readCalls rest).1, (readCalls rest).2) := by
  rw [readCalls]
  split
  · rename_i none
    rw [h] at none
    cases none
  · rename_i found
    rw [h] at found
    cases found
    rfl

theorem readCalls_flatMap_text (calls : List Call) {rest : Text} (last : Call.read? rest = none) :
    readCalls (calls.flatMap Call.text ++ rest) = (calls, rest) := by
  induction calls with
  | nil => exact readCalls_of_none last
  | cons c calls ih =>
    rw [List.flatMap_cons, List.append_assoc, readCalls_of_some (Call.read?_text_append ..), ih]

def Program.readFramed (opening mark closing t : Text) : Option Program := do
  let (calls, t) := readCalls (← t.dropPrefix? opening)
  let (content, t) ← Json.readLiteral (← t.dropPrefix? mark)
  if t = closing then return ⟨calls, content⟩ else none

theorem Program.readFramed_framed {opening mark closing : Text}
    (last : ∀ rest, Call.read? (mark ++ rest) = none) (calls : List Call) (content : Text) :
    readFramed opening mark closing
        (opening ++ calls.flatMap Call.text ++ mark ++ Json.literal content ++ closing) =
      some ⟨calls, content⟩ := by
  simp only [List.append_assoc, readFramed, dropPrefix?_append, readCalls_flatMap_text calls (last _),
    Json.readLiteral_literal, Option.bind_eq_bind, Option.bind_some, Option.pure_def, if_true]

def Program.read? (t : Text) : Option Program :=
  readFramed "var requirePaths = \x7b\x7d;\n".toList "var tpl = ".toList substitution t

theorem Program.read?_text (p : Program) : read? p.text = some p := by
  rw [text_eq]
  exact readFramed_framed Call.read?_content p.calls p.content

theorem Program.text_injective : Function.Injective Program.text := fun p q same =>
  Option.some.inj (by rw [← read?_text p, same, read?_text])

theorem Requirement.call_injective : Function.Injective Requirement.call := by
  rintro ⟨⟨template⟩, ⟨asset⟩⟩ ⟨⟨template'⟩, ⟨asset'⟩⟩ h
  obtain ⟨key, -, message⟩ := Call.mk.inj h
  obtain rfl : asset = asset' := key
  obtain rfl : template = template' :=
    List.append_cancel_left (List.append_cancel_right message)
  rfl

/-- From the script of an artifact its content can be read, and in their order the paths that it
requires, each with its specifier and with the message that names its template. So artifacts that
have the same script have the same content and require the same for the same templates. -/
theorem script_determines (a : Artifact) :
    Program.read? a.script = some {
      calls := a.requirements.map fun r =>
        ⟨r.asset.text, r.asset.specifier, "Error in ".toList ++ r.template.text ++ ":\n".toList⟩
      content := a.content } ∧
    ∀ b : Artifact,
      a.script = b.script ↔ a.content = b.content ∧ a.requirements = b.requirements := by
  refine ⟨?_, fun b => ?_⟩
  · rw [← text_program]
    exact Program.read?_text a.program
  · rw [← text_program, ← text_program, Program.text_injective.eq_iff, program, program,
      Program.mk.injEq, Requirement.call_injective.list_map.eq_iff, and_comm]

theorem script_determines_page :
    let a : Artifact := {
      content := "img(src=\"/v/a.png\")".toList
      deps := ⟨[(.ofString "/v/page.pug", [.ofString "/v/a.png"]),
        (.ofString "/v/layout.pug", [.ofString "/v/a.png.webp", .ofString "/v/a.png"])]⟩ }
    Program.read? a.script = some {
      calls := [
        ⟨"/v/a.png.webp".toList, "/v/a.png.webp".toList, "Error in /v/layout.pug:\n".toList⟩,
        ⟨"/v/a.png".toList, "/v/a.png".toList, "Error in /v/page.pug:\n".toList⟩]
      content := "img(src=\"/v/a.png\")".toList } := by
  intro a
  have found : a.firstRequirements = [⟨.ofString "/v/page.pug", .ofString "/v/a.png"⟩,
      ⟨.ofString "/v/layout.pug", .ofString "/v/a.png.webp"⟩] := by decide +kernel
  have longer : ¬byteLength (Path.ofString "/v/a.png.webp").text ≤
      byteLength (Path.ofString "/v/a.png").text := by decide +kernel
  have required : a.requirements = [⟨.ofString "/v/layout.pug", .ofString "/v/a.png.webp"⟩,
      ⟨.ofString "/v/page.pug", .ofString "/v/a.png"⟩] := by
    rw [requirements, found]
    simp [List.mergeSort, longer]
  rw [(script_determines a).1, required]
  decide +kernel

end Artifact

end PugWeave
