import PugWeave.Proofs.Asset.Reports
import PugWeave.Proofs.Path.Resolution

namespace PugWeave.Asset

open Text
open Markup (Token)

section

variable (rules : Rules) (directory : Path)

/-- The token at a position is an attribute that is selected in the tag that is open there, with a
relative path as its value. The asset is this path, seen from the directory. -/
inductive Selects (tokens : List Token) (i : Nat) : Path → Prop
  | attr : tokens[i]? = some (.attr name (some value) line) →
      rules.selects (openTag (tokens.take i)) name = true → unquote (trim value) = path →
      path ≠ [] → isUrl path = false → Path.isAbsolute ⟨path⟩ = false →
      Selects tokens i (directory.resolve ⟨path⟩)

end

variable {rules : Rules} {directory : Path}

theorem asset?_eq_some_iff {tag : Option Text} {name value : Text} {asset : Path} :
    asset? rules directory tag name value = some asset ↔ rules.selects tag name = true ∧
      unquote value ≠ [] ∧ isUrl (unquote value) = false ∧
      Path.isAbsolute ⟨unquote value⟩ = false ∧ directory.resolve ⟨unquote value⟩ = asset := by
  simp [asset?, and_assoc]

theorem selects_iff {tokens : List Token} {i : Nat} {asset : Path} :
    Selects rules directory tokens i asset ↔
      ∃ name value line, tokens[i]? = some (.attr name (some value) line) ∧
        asset? rules directory (openTag (tokens.take i)) name (trim value) = some asset := by
  simp only [asset?_eq_some_iff]
  constructor
  · rintro ⟨token, selected, rfl, ne, url, relative⟩
    exact ⟨_, _, _, token, selected, ne, url, relative, rfl⟩
  · rintro ⟨name, value, line, token, selected, ne, url, relative, rfl⟩
    exact .attr token selected rfl ne url relative

namespace Selects

variable {tokens : List Token} {i : Nat} {asset : Path}

theorem lt_length (h : Selects rules directory tokens i asset) : i < tokens.length := by
  obtain ⟨_, _, _, token, -⟩ := selects_iff.1 h
  exact (List.getElem?_eq_some_iff.1 token).1

theorem append (h : Selects rules directory tokens i asset) (more : List Token) :
    Selects rules directory (tokens ++ more) i asset := by
  have within := h.lt_length
  rw [selects_iff] at h ⊢
  rwa [List.getElem?_append_left within, List.take_append_of_le_length within.le]

theorem lt_length_of_mem {positions : List Nat} {assets : List Path}
    (h : List.Forall₂ (Selects rules directory tokens) positions assets) :
    ∀ i ∈ positions, i < tokens.length := by
  induction h with
  | nil => simp
  | cons first _ ih => exact List.forall_mem_cons.2 ⟨first.lt_length, ih⟩

theorem resolved_of_mem {positions : List Nat} {assets : List Path}
    (h : List.Forall₂ (Selects rules directory tokens) positions assets) :
    ∀ asset ∈ assets, ∃ path, directory.resolve path = asset := by
  induction h with
  | nil => simp
  | cons first _ ih =>
    refine List.forall_mem_cons.2 ⟨?_, ih⟩
    cases first
    exact ⟨_, rfl⟩

end Selects

theorem Progress.token_cases (p : Progress) (t : Token) :
    (p.token rules directory t).toExtraction = p.toExtraction ∨
      ∃ name value line asset, t = .attr name (some value) line ∧
        asset? rules directory p.tag name (trim value) = some asset ∧
        (p.token rules directory t).assets = Path.addNew p.assets asset := by
  cases t with
  | tag name line => exact .inl rfl
  | attr name value line =>
    cases value with
    | none => exact .inl rfl
    | some value =>
      rw [token, attr]
      cases hr : p.rewriting? rules directory ⟨line, name, trim value⟩ with
      | none => exact .inl rfl
      | some r =>
        exact .inr ⟨_, _, _, _, rfl, (Progress.rewriting?_eq_some_iff.1 hr).1, rfl⟩

/-- Assets that attributes at rising positions select, all of them different. -/
structure Supported (rules : Rules) (directory : Path) (tokens : List Token) (assets : List Path) :
    Prop where
  positions : ∃ positions : List Nat, positions.Pairwise (· < ·) ∧
    List.Forall₂ (Selects rules directory tokens) positions assets
  distinct : (assets.map Path.components).Nodup

namespace Supported

variable {tokens : List Token} {assets : List Path}

theorem nil : Supported rules directory [] [] := ⟨⟨[], .nil, .nil⟩, List.nodup_nil⟩

theorem append (h : Supported rules directory tokens assets) (more : List Token) :
    Supported rules directory (tokens ++ more) assets := by
  obtain ⟨positions, rising, selected⟩ := h.positions
  exact ⟨⟨positions, rising, selected.imp fun _ _ h => h.append more⟩, h.distinct⟩

theorem addNew (h : Supported rules directory tokens assets) {t : Token} {asset : Path}
    (last : Selects rules directory (tokens ++ [t]) tokens.length asset) :
    Supported rules directory (tokens ++ [t]) (Path.addNew assets asset) := by
  refine ⟨?_, Path.nodup_addNew h.distinct asset⟩
  obtain ⟨positions, rising, selected⟩ := h.positions
  have before := Selects.lt_length_of_mem selected
  replace selected := selected.imp fun _ _ h => h.append [t]
  rw [Path.addNew]
  split
  · exact ⟨positions, rising, selected⟩
  · refine ⟨positions ++ [tokens.length], ?_, List.rel_append selected (.cons last .nil)⟩
    rw [List.pairwise_append]
    refine ⟨rising, List.pairwise_singleton _ _, fun i hi j hj => ?_⟩
    rw [List.mem_singleton.1 hj]
    exact before i hi

end Supported

theorem selects_last {tokens : List Token} {name value : Text} {line : Nat} {asset : Path}
    (h : asset? rules directory (openTag tokens) name (trim value) = some asset) :
    Selects rules directory (tokens ++ [.attr name (some value) line]) tokens.length asset := by
  rw [selects_iff]
  exact ⟨name, value, line, by simp, by simpa using h⟩

theorem supported_progress (source : Text) (tokens : List Token) :
    Supported rules directory tokens (progress rules directory source tokens).assets := by
  induction tokens using List.reverseRecOn with
  | nil => exact .nil
  | append_singleton tokens t ih =>
    rw [progress_concat]
    rcases Progress.token_cases (progress rules directory source tokens) t with
      same | ⟨name, value, line, asset, rfl, selected, added⟩
    · rw [congrArg Extraction.assets same]
      exact ih.append [t]
    · rw [added]
      rw [tag_progress] at selected
      exact ih.addNew (selects_last selected)

theorem progress_of_unselected {tokens : List Token}
    (h : ∀ i asset, ¬Selects rules directory tokens i asset) (source : Text) :
    (progress rules directory source tokens).toExtraction = ⟨source, []⟩ := by
  induction tokens using List.reverseRecOn with
  | nil => rfl
  | append_singleton tokens t ih =>
    have before := ih fun i asset hi => h i asset (hi.append [t])
    rw [progress_concat]
    rcases Progress.token_cases (progress rules directory source tokens) t with
      same | ⟨name, value, line, asset, rfl, selected, -⟩
    · rw [same, before]
    · rw [tag_progress] at selected
      exact absurd (selects_last selected) (h _ _)

/-- What an extraction reports are different paths from the root, without a `..`, that attributes at
rising positions select. Where nothing is selected the text stays as it is. -/
theorem extract_sound (rules : Rules) {directory : Path} (absolute : directory.isAbsolute = true)
    (source : Text) (tokens : List Token) :
    let found := extract rules directory source tokens
    found.assets.Pairwise (fun p q => ¬p.same q = true) ∧
      (∀ p ∈ found.assets, p.isAbsolute = true ∧ .up ∉ p.components) ∧
      (∃ positions : List Nat, positions.Pairwise (· < ·) ∧
        List.Forall₂ (Selects rules directory tokens) positions found.assets) ∧
      ((∀ i asset, ¬Selects rules directory tokens i asset) → found = ⟨source, []⟩) := by
  intro found
  have supported : Supported rules directory tokens found.assets := supported_progress source tokens
  obtain ⟨positions, rising, selected⟩ := supported.positions
  refine ⟨?_, ?_, ⟨positions, rising, selected⟩, fun none => progress_of_unselected none source⟩
  · have distinct := supported.distinct
    rw [List.Nodup, List.pairwise_map] at distinct
    exact distinct.imp fun hs same => hs (Path.same_iff.1 same)
  · intro p hp
    obtain ⟨path, rfl⟩ := Selects.resolved_of_mem selected p hp
    exact Path.components_resolve_of_isAbsolute absolute path

theorem extract_sound_spellings :
    let rules : Rules := ⟨2, .lf, [⟨some "img".toList, "src".toList⟩], "pug".toList, by decide⟩
    let directory : Path := .ofString "/proj/views"
    let source := "img(src='../a.png'): img(src='./../a.png')\nimg(src='../../../b.png')".toList
    let tokens : List Token := [.tag "img".toList 1,
      .attr "src".toList (some "'../a.png'".toList) 1, .tag "img".toList 1,
      .attr "src".toList (some "'./../a.png'".toList) 1, .tag "img".toList 2,
      .attr "src".toList (some "'../../../b.png'".toList) 2]
    let found := extract rules directory source tokens
    let absolute : List Token :=
      [.tag "img".toList 1, .attr "src".toList (some "'/a.png'".toList) 1]
    let other := "img(src='/a.png')".toList
    Markup.tokenize source = .ok tokens ∧ directory.isAbsolute = true ∧
      found.assets = [.ofString "/proj/a.png", .ofString "/b.png"] ∧
      (∀ p ∈ found.assets, p.isAbsolute = true ∧ .up ∉ p.components) ∧
      (∃ positions : List Nat, positions.Pairwise (· < ·) ∧
        List.Forall₂ (Selects rules directory tokens) positions found.assets) ∧
      (∀ i asset, ¬Selects rules directory absolute i asset) ∧
      extract rules directory other absolute = ⟨other, []⟩ := by
  intro rules directory source tokens found absolute other
  have rooted : directory.isAbsolute = true := by decide
  obtain ⟨-, names, positions, -⟩ := extract_sound rules rooted source tokens
  have none : ∀ i asset, ¬Selects rules directory absolute i asset := by
    intro i asset h
    obtain ⟨name, value, line, token, selected⟩ := selects_iff.1 h
    have nothing : asset? rules directory (some "img".toList) "src".toList "'/a.png'".toList =
        .none := by decide +kernel
    match i with
    | 0 => cases token
    | 1 =>
      cases token
      cases nothing.symm.trans selected
    | i + 2 => cases token
  obtain ⟨-, -, -, same⟩ := extract_sound rules rooted other absolute
  exact ⟨by decide +kernel, rooted, by decide +kernel, names, positions, none, same none⟩

end PugWeave.Asset
