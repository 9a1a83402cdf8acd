import PugWeave.Asset.Extraction
import PugWeave.Proofs.Text.Matching

namespace PugWeave.Asset

open Text

def isSign (c : Char) : Bool := isBlank c || c = '=' || c = '!'

def Signs (t : Text) : Prop :=
  ∃ front equals back, front ++ (equals ++ back) = t ∧ isBlankLine front = true ∧
    isBlankLine back = true ∧ (equals = ['='] ∨ equals = ['!', '='])

theorem Signs.isSign {t : Text} (h : Signs t) : ∀ c ∈ t, isSign c = true := by
  obtain ⟨front, equals, back, rfl, hfront, hback, hequals⟩ := h
  have blank {b : Text} (hb : isBlankLine b = true) {c : Char} (hc : c ∈ b) : Asset.isSign c = true := by
    simp [Asset.isSign, List.all_eq_true.1 hb c hc]
  intro c hc
  rcases List.mem_append.1 hc with hc | hc
  · exact blank hfront hc
  · rcases List.mem_append.1 hc with hc | hc
    · rcases hequals with rfl | rfl
      · simp_all [Asset.isSign]
      · rcases List.mem_cons.1 hc with rfl | hc
        · rfl
        · simp_all [Asset.isSign]
    · exact blank hback hc

theorem run_equals (t : Text) : (Regex.word ['=']).run
      ((Regex.star isBlank).run fun _ rest => some rest) [] t =
    match t with
    | '=' :: r => some (trimStart r)
    | _ => none := by
  split
  · rename_i r
    exact Regex.greedy_eq (.inl rfl)
  · rename_i other
    cases t with
    | nil => rfl
    | cons c r =>
      refine Regex.run_word_eq_none rfl ?_ _ _ r
      rintro rfl
      exact other r rfl

theorem assigns_rest? (name t : Text) : (assigns name).rest? t =
    if name.isPrefixOf t then
      match trimStart (t.drop name.length) with
      | '=' :: r => some (trimStart r)
      | '!' :: '=' :: r => some (trimStart r)
      | _ => none
    else none := by
  rw [Regex.rest?, assigns, Regex.run_append, Regex.run_append, Regex.run_append, Regex.run_append,
    Regex.run]
  split
  · rw [Regex.run_blanks]
    · generalize trimStart (t.drop name.length) = s
      rw [Regex.run_optional, run_equals]
      cases s with
      | nil => rfl
      | cons c r =>
        by_cases hc : c = '!'
        · subst hc
          have negated : (Regex.word ['!']).run ((Regex.word ['=']).run
              ((Regex.star isBlank).run fun _ rest => some rest)) [] ('!' :: r) = _ := run_equals r
          rw [negated]
          cases r with
          | nil => rfl
          | cons d r => by_cases hd : d = '=' <;> simp [hd]
        · rw [Regex.run_word_eq_none rfl fun h => hc h.symm]
          by_cases hd : c = '=' <;> simp [hc, hd]
    · intro c r blank
      rw [Regex.run_optional, Regex.run_word_blank_cons rfl rfl blank,
        Regex.run_word_blank_cons rfl rfl blank]
      rfl
  · rfl

theorem assigns_rest?_eq_some_iff {name t r : Text} : (assigns name).rest? t = some r ↔
    ∃ sign, name ++ (sign ++ r) = t ∧ Signs sign ∧ ∀ c ∈ r.head?, isBlank c = false := by
  constructor
  · intro h
    rw [assigns_rest?] at h
    split at h
    · rename_i front
      have whole : name ++ t.drop name.length = t :=
        List.prefix_iff_eq_append.1 (List.isPrefixOf_iff_prefix.1 front)
      have margin := indentation_append_trimStart (t.drop name.length)
      have assembled (equals s : Text) (hd : trimStart (t.drop name.length) = equals ++ s)
          (he : equals = ['='] ∨ equals = ['!', '=']) :
          ∃ sign, name ++ (sign ++ trimStart s) = t ∧ Signs sign ∧
            ∀ c ∈ (trimStart s).head?, isBlank c = false := by
        refine ⟨indentation (t.drop name.length) ++ (equals ++ indentation s), ?_,
          ⟨_, equals, _, rfl, List.all_takeWhile, List.all_takeWhile, he⟩, head?_trimStart s⟩
        rw [List.append_assoc, List.append_assoc, indentation_append_trimStart, ← hd, margin, whole]
      split at h
      · rename_i s hd
        cases h
        exact assembled ['='] s hd (.inl rfl)
      · rename_i s hd
        cases h
        exact assembled ['!', '='] s hd (.inr rfl)
      · cases h
    · cases h
  · rintro ⟨sign, rfl, ⟨front, equals, back, rfl, hfront, hback, hequals⟩, head⟩
    have past {b s : Text} (hb : isBlankLine b = true) (hs : ∀ c ∈ s.head?, isBlank c = false) :
        trimStart (b ++ s) = s := by
      rw [trimStart, List.dropWhile_append_of_pos (List.all_eq_true.1 hb), ← trimStart,
        trimStart_eq_self hs]
    have start : trimStart ((front ++ (equals ++ back)) ++ r) = equals ++ (back ++ r) := by
      rw [List.append_assoc, List.append_assoc, past hfront]
      rcases hequals with rfl | rfl
      · simp [isBlank]
      · simp [isBlank]
    rw [assigns_rest?, if_pos (List.isPrefixOf_iff_prefix.2 (List.prefix_append _ _)), List.drop_left,
      start]
    rcases hequals with rfl | rfl
    · exact congrArg some (past hback head)
    · exact congrArg some (past hback head)

namespace Assignment

variable (a : Assignment)

theorem front?_eq_some_iff {t before rest : Text} : a.front? t = some (before, rest) ↔
    ∃ sign, a.name ++ sign = before ∧ Signs sign ∧
      (∀ c ∈ (a.value ++ rest).head?, isBlank c = false) ∧ before ++ (a.value ++ rest) = t := by
  constructor
  · intro h
    simp only [front?] at h
    split at h
    · rename_i r hr
      split at h
      · rename_i hv
        obtain ⟨sign, rfl, signs, head⟩ := assigns_rest?_eq_some_iff.1 hr
        have value : a.value ++ r.drop a.value.length = r :=
          List.prefix_iff_eq_append.1 (List.isPrefixOf_iff_prefix.1 hv)
        rw [← List.append_assoc, List.length_append, Nat.add_sub_cancel, List.take_left] at h
        cases h
        exact ⟨sign, rfl, signs, value.symm ▸ head, by rw [value, List.append_assoc]⟩
      · cases h
    · cases h
  · rintro ⟨sign, rfl, signs, head, rfl⟩
    have assigned : (assigns a.name).rest? (a.name ++ sign ++ (a.value ++ rest)) = some (a.value ++ rest) :=
      assigns_rest?_eq_some_iff.2 ⟨sign, (List.append_assoc ..).symm, signs, head⟩
    rw [front?, assigned]
    dsimp only
    rw [if_pos (List.isPrefixOf_iff_prefix.2 (List.prefix_append _ _)), List.length_append,
      Nat.add_sub_cancel, List.take_left, List.drop_left]

def placesOnLine (after : Text) : Place → Text → List (Text × Text)
  | _, [] => []
  | place, c :: r =>
    (if place.opensName c then (a.front? (c :: r ++ after)).toList else []) ++
      (placesOnLine after (place.next c) r).map fun (before, rest) => (c :: before, rest)

theorem onLine_eq (after : Text) (skip : Nat) (place : Place) (t : Text) :
    a.onLine after skip place t = (a.placesOnLine after place t)[skip]? := by
  induction t generalizing skip place with
  | nil => rfl
  | cons c r ih =>
    simp only [onLine, placesOnLine, ih]
    split
    · cases a.front? (c :: r ++ after) with
      | none => simp
      | some found => cases skip <;> simp
    · simp

theorem append_of_mem_placesOnLine {after t before rest : Text} {place : Place}
    (h : (before, rest) ∈ a.placesOnLine after place t) :
    before ++ (a.value ++ rest) = t ++ after := by
  induction t generalizing place before with
  | nil => simp [placesOnLine] at h
  | cons c r ih =>
    rw [placesOnLine, List.mem_append] at h
    cases h with
    | inl h =>
      split at h
      · obtain ⟨-, -, -, -, whole⟩ := a.front?_eq_some_iff.1 (Option.mem_toList.1 h)
        exact whole
      · cases h
    | inr h =>
      obtain ⟨⟨b, t⟩, hb, he⟩ := List.mem_map.1 h
      cases he
      rw [List.cons_append, ih hb]
      rfl

def places (t : Text) : List (Text × Text) :=
  match a.line with
  | 0 => []
  | n + 1 =>
    match aroundLine n t with
    | none => []
    | some (start, current, after) =>
      (a.placesOnLine after (.outside none) current).map fun (before, rest) =>
        (start ++ before, rest)

theorem locate?_eq (skip : Nat) (t : Text) : a.locate? skip t = (a.places t)[skip]? := by
  simp only [locate?, places]
  cases hl : a.line with
  | zero => simp
  | succ n =>
    cases hn : aroundLine n t with
    | none => simp [hn]
    | some parts => simp [hn, onLine_eq]

theorem append_of_mem_places {t before rest : Text} (h : (before, rest) ∈ a.places t) :
    before ++ (a.value ++ rest) = t := by
  simp only [places] at h
  split at h
  · cases h
  · split at h
    · cases h
    · rename_i hline
      obtain ⟨⟨b, t⟩, hb, he⟩ := List.mem_map.1 h
      cases he
      rw [List.append_assoc, a.append_of_mem_placesOnLine hb]
      exact append_of_aroundLine hline

end Assignment

theorem value_ne_nil_of_asset? {rules : Rules} {directory : Path} {tag : Option Text}
    {name value : Text} {asset : Path} (h : asset? rules directory tag name value = some asset) :
    value ≠ [] := by
  rintro rfl
  simp [asset?, unquote] at h

theorem Progress.rewriting?_eq_some_iff {rules : Rules} {directory : Path} {p : Progress}
    {a : Assignment} {r : Rewriting} : p.rewriting? rules directory a = some r ↔
      asset? rules directory p.tag a.name a.value = some r.asset ∧ r.value = a.value ∧
        (a.places p.content)[p.untouched.count a]? = some (r.before, r.after) := by
  simp only [rewriting?]
  rw [← a.locate?_eq]
  cases asset? rules directory p.tag a.name a.value with
  | none => simp
  | some asset =>
    cases a.locate? (p.untouched.count a) p.content with
    | none => simp
    | some place =>
      constructor
      · intro h
        cases h
        exact ⟨rfl, rfl, rfl⟩
      · intro h
        cases r
        cases h.1
        cases h.2.1
        cases h.2.2
        rfl

end PugWeave.Asset
