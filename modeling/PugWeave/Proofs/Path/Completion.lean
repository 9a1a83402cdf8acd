import PugWeave.Proofs.Path.Components

namespace PugWeave.Path

theorem fileName?_congr {p q : Path} (h : p.components = q.components) :
    p.fileName? = q.fileName? := by rw [fileName?, fileName?, h]

theorem text_ne_nil_of_fileName? {p : Path} {name : Text} (h : p.fileName? = some name) :
    p.text ≠ [] := by
  intro empty
  rw [fileName?, components_eq_nil_iff.2 empty] at h
  cases h

theorem getLast?_of_fileName? {p : Path} {name : Text} (h : p.fileName? = some name) :
    p.components.getLast? = some (.name name) := by
  rw [fileName?] at h
  split at h
  · cases h
    assumption
  · cases h

theorem eq_of_ofPart? {part t : Text} (h : Component.ofPart? part = some (.name t)) : part = t := by
  rw [Component.ofPart?] at h
  split at h
  · cases h
  · split at h <;> cases h
    rfl

theorem ofPart?_of_ofFirst? {part t : Text} (h : Component.ofFirst? part = some (.name t)) :
    Component.ofPart? part = some (.name t) := by
  rw [Component.ofFirst?] at h
  split at h
  · cases h
  · exact h

theorem fileName?_of_getLast?_parts {p : Path} {t : Text} (hp : p.parts.getLast? = some t)
    (ht : Component.ofPart? t = some (.name t)) : p.fileName? = some t := by
  obtain ⟨init, hi⟩ := List.getLast?_eq_some_iff.1 hp
  have full : t ≠ [] := by
    rintro rfl
    cases ht
  have named : t ≠ ['.'] := by
    rintro rfl
    cases ht
  have text : p.text ≠ [] := by
    intro h
    rw [parts_eq, h, List.splitOn_nil] at hi
    cases init <;> simp_all
  have last : p.components.getLast? = some (.name t) := by
    rw [components_eq_ofPieces text, hi]
    cases init with
    | nil => simp [ofPieces, steps, Component.ofFirst?, full, named, ht]
    | cons first rest =>
      rw [ofPieces_append (List.cons_ne_nil _ _)]
      simp [steps, ht]
  rw [fileName?, last]

theorem join_append (sep : Text) (init : List Text) (t s : Text) :
    Text.join sep (init ++ [t]) ++ s = Text.join sep (init ++ [t ++ s]) := by
  simp only [Text.join]
  induction init with
  | nil => simp
  | cons first rest ih =>
    rw [List.cons_append, List.cons_append, List.intercalate_cons_of_ne_nil (by simp),
      List.intercalate_cons_of_ne_nil (by simp), ← ih]
    simp

theorem parts_join {parts : List Text} (h : ∀ t ∈ parts, '/' ∉ t) (ne : parts ≠ []) :
    (⟨Text.join ['/'] parts⟩ : Path).parts = parts := by
  rw [parts_eq]
  exact List.splitOn_intercalate '/' h ne

theorem parts_join_concat {init : List Text} {last : Text} (before : ∀ t ∈ init, '/' ∉ t)
    (inside : '/' ∉ last) :
    (⟨Text.join ['/'] (init ++ [last])⟩ : Path).parts = init ++ [last] := by
  refine parts_join (fun t ht => ?_) (by simp)
  rcases List.mem_append.1 ht with ht | ht
  · exact before t ht
  · exact List.mem_singleton.1 ht ▸ inside

theorem fileName?_join {init : List Text} {name : Text} (before : ∀ t ∈ init, '/' ∉ t)
    (inside : '/' ∉ name) (own : Component.ofPart? name = some (.name name)) :
    (⟨Text.join ['/'] (init ++ [name])⟩ : Path).fileName? = some name :=
  fileName?_of_getLast?_parts (by rw [parts_join_concat before inside, List.getLast?_concat]) own

theorem exists_join_of_fileName? {p : Path} {name : Text} (h : p.fileName? = some name) :
    ∃ init, (ofParts (dropSilent p.parts.reverse)).text = Text.join ['/'] (init ++ [name]) ∧
      (∀ t ∈ init, '/' ∉ t) ∧ '/' ∉ name ∧ Component.ofPart? name = some (.name name) := by
  have last := getLast?_of_fileName? h
  obtain ⟨first, rest, hs⟩ := List.exists_cons_of_ne_nil (parts_ne_nil p)
  have slash (t : Text) (ht : t ∈ first :: rest) : '/' ∉ t :=
    slash_not_mem_parts (hs ▸ ht)
  rw [components_eq_ofPieces (text_ne_nil_of_fileName? h), hs, ofPieces,
    ← List.reverse_reverse rest, ← steps_reverse_dropWhile] at last
  have kept : (rest.reverse.dropWhile isNothing) ⊆ rest := fun t ht =>
    List.mem_reverse.1 ((List.dropWhile_sublist isNothing).mem ht)
  rw [hs, List.reverse_cons, dropSilent_append]
  -- The file's name is the only part, or one behind a slash.
  cases hr : rest.reverse.dropWhile isNothing with
  | nil =>
    rw [hr] at last
    have full : first ≠ [] := by
      rintro rfl
      simp [steps] at last
    have part : Component.ofFirst? first = some (.name name) := by
      cases ho : Component.ofFirst? first with
      | none => exact absurd ho (ofFirst?_ne_none full)
      | some c => simpa [steps, full, ho] using last
    have own : Component.ofPart? first = some (.name name) := ofPart?_of_ofFirst? part
    obtain rfl := eq_of_ofPart? own
    refine ⟨[], ?_, by simp, slash first List.mem_cons_self, own⟩
    cases first with
    | nil => exact absurd rfl full
    | cons c t => rfl
  | cons part before =>
    rw [hr] at last kept
    have something : Component.ofPart? part ≠ none := by
      have := List.head?_dropWhile_not isNothing rest.reverse
      simpa [hr, isNothing, ← Option.isSome_iff_ne_none] using this
    obtain ⟨c, hc⟩ := Option.ne_none_iff_exists'.1 something
    have own : Component.ofPart? part = some (.name name) := by
      rw [List.reverse_cons, steps_append, ← List.append_assoc] at last
      simpa [steps, hc] using last
    obtain rfl := eq_of_ofPart? own
    refine ⟨first :: before.reverse, ?_, ?_, slash part (.tail _ (kept List.mem_cons_self)), own⟩
    · rw [List.cons_append, ofParts]
      · simp
      · simp
    · intro t ht
      rcases List.mem_cons.1 ht with rfl | ht
      · exact slash t List.mem_cons_self
      · exact slash t (.tail _ (kept (.tail _ (List.mem_reverse.1 ht))))

theorem ne_of_ofPart?_name {t : Text} (h : Component.ofPart? t = some (.name t)) :
    t ≠ [] ∧ t ≠ ['.'] := by
  constructor
  · rintro rfl
    cases h
  · rintro rfl
    cases h

theorem complete_of_hasExtension {extension : Text} {p : Path} {name : Text}
    (hp : p.fileName? = some name) (h : hasExtension name = true) : p.complete extension = p := by
  rw [complete, hp]
  simp [h]

theorem ofPart?_extended {name : Text} (own : Component.ofPart? name = some (.name name))
    (extension : Text) :
    Component.ofPart? (name ++ '.' :: extension) = some (.name (name ++ '.' :: extension)) ∧
      hasExtension (name ++ '.' :: extension) = true := by
  obtain ⟨full, dots⟩ := ne_of_ofPart?_name own
  obtain ⟨c, t, rfl⟩ := List.exists_cons_of_ne_nil full
  have two : c :: t ++ '.' :: extension ≠ ['.', '.'] := by
    rintro h
    cases t <;> simp_all
  refine ⟨?_, by simp [hasExtension]⟩
  rw [Component.ofPart?, if_neg (by simp), if_neg two]

theorem slash_not_mem_extended {name extension : Text} (inside : '/' ∉ name)
    (slash : '/' ∉ extension) : '/' ∉ name ++ '.' :: extension := by
  simp [inside, slash]

theorem fileName?_complete {extension : Text} (slash : '/' ∉ extension) {p : Path} {name : Text}
    (hp : p.fileName? = some name) :
    (⟨(ofParts (dropSilent p.parts.reverse)).text ++ '.' :: extension⟩ : Path).fileName? =
      some (name ++ '.' :: extension) ∧ hasExtension (name ++ '.' :: extension) = true := by
  obtain ⟨init, text, before, inside, own⟩ := exists_join_of_fileName? hp
  obtain ⟨named, extended⟩ := ofPart?_extended own extension
  rw [text, join_append]
  exact ⟨fileName?_join before (slash_not_mem_extended inside slash) named, extended⟩

theorem complete_of_completed {extension : Text} (slash : '/' ∉ extension) {p q : Path}
    (hp : p.components = (q.complete extension).components) : p.complete extension = p := by
  have same := fileName?_congr hp
  rw [complete] at same
  cases hq : q.fileName? with
  | none =>
    rw [hq] at same
    rw [complete, same.trans hq]
  | some name =>
    rw [hq] at same
    dsimp only at same
    split at same
    · rename_i h
      rw [complete, same.trans hq]
      dsimp only
      rw [if_pos h]
    · obtain ⟨named, extended⟩ := fileName?_complete slash hq
      exact complete_of_hasExtension (same.trans named) extended

end PugWeave.Path
