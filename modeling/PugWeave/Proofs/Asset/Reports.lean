import PugWeave.Proofs.Asset.Attributes
import PugWeave.Proofs.Asset.Rewording
import PugWeave.Proofs.Path.Distinct

namespace PugWeave.Asset

open Text
open Markup (Spot Token Written Laid)

variable (rules : Rules) (directory : Path)

def progress (source : Text) (tokens : List Token) : Progress :=
  tokens.foldl (Progress.token rules directory) (.start source)

/-- Whether the search for the value of an attribute ends at a place: there are more of them in the
text written so far than equal assignments left untouched. -/
def Attribute.found (source : Text) (x : Attribute) : Bool :=
  let p := progress rules directory source x.before
  p.untouched.count x.assignment < (x.assignment.places p.content).length

variable {rules directory}

theorem progress_append (source : Text) (tokens more : List Token) :
    progress rules directory source (tokens ++ more) =
      more.foldl (Progress.token rules directory) (progress rules directory source tokens) :=
  List.foldl_append

theorem progress_concat (source : Text) (tokens : List Token) (t : Token) :
    progress rules directory source (tokens ++ [t]) =
      (progress rules directory source tokens).token rules directory t :=
  progress_append source tokens [t]

theorem Progress.tag_token (p : Progress) (t : Token) :
    (p.token rules directory t).tag = tagAfter p.tag t := by
  cases t with
  | tag name line => rfl
  | attr name value line =>
    cases value with
    | none => rfl
    | some value =>
      rw [token, attr]
      split <;> rfl

theorem tag_progress (source : Text) (tokens : List Token) :
    (progress rules directory source tokens).tag = openTag tokens := by
  have follows (p : Progress) : (tokens.foldl (Progress.token rules directory) p).tag =
      tokens.foldl tagAfter p.tag := by
    induction tokens generalizing p with
    | nil => rfl
    | cons t rest ih => rw [List.foldl_cons, ih, Progress.tag_token, List.foldl_cons]
  exact follows (.start source)

theorem Progress.assets_attr (p : Progress) (a : Assignment) :
    (p.attr rules directory a).assets =
      if p.untouched.count a < (a.places p.content).length then
        (asset? rules directory p.tag a.name a.value).toList.foldl Path.addNew p.assets
      else p.assets := by
  rw [attr]
  cases hr : p.rewriting? rules directory a with
  | some r =>
    obtain ⟨hasset, -, hplace⟩ := rewriting?_eq_some_iff.1 hr
    rw [if_pos (List.getElem?_eq_some_iff.1 hplace).1, hasset]
    rfl
  | none =>
    by_cases within : p.untouched.count a < (a.places p.content).length
    · rw [if_pos within]
      cases hasset : asset? rules directory p.tag a.name a.value with
      | none => rfl
      | some asset =>
        let place := (a.places p.content)[p.untouched.count a]
        have found : p.rewriting? rules directory a = some ⟨place.1, a.value, place.2, asset⟩ :=
          rewriting?_eq_some_iff.2 ⟨hasset, rfl, List.getElem?_eq_getElem within⟩
        rw [hr] at found
        cases found
    · rw [if_neg within]
      rfl

theorem assets_progress (source : Text) (tokens : List Token) (spots : List Spot) :
    (progress rules directory source (tokens ++ spots.map Spot.token)).assets =
      (((attributes rules directory tokens spots).filter
        (Attribute.found rules directory source)).filterMap Attribute.asset).foldl Path.addNew
          (progress rules directory source tokens).assets := by
  induction spots generalizing tokens with
  | nil => simp [attributes]
  | cons spot rest ih =>
    obtain ⟨t, left⟩ := spot
    have later := ih (tokens ++ [t])
    rw [List.append_assoc, List.singleton_append, progress_concat] at later
    rw [List.map_cons, later]
    cases t with
    | tag name line => rfl
    | attr name value line =>
      cases value with
      | none => rfl
      | some value =>
        rw [Progress.token, Progress.assets_attr, attributes, List.filter_cons, Attribute.found,
          tag_progress]
        split
        · cases asset? rules directory (openTag tokens) name (trim value) <;> simp [*]
        · simp [*]

/-- Whether an attribute is seen in the source, and neither its value nor its asset changes what is
seen behind it. -/
def Attribute.plain (source : Text) (x : Attribute) : Bool :=
  x.seen source && isPlainName x.assignment.name && x.assignment.value.all (!isBreak ·) &&
    x.asset.all fun p => !p.text.isEmpty && p.text.all fun c => !isQuote c && !isBreak c

/-- Whether each selected attribute is plain, and of equal assignments all are selected or none. -/
def tame (source : Text) (read : List Attribute) : Bool :=
  read.all fun x => x.asset.isNone || x.plain source && read.all fun y =>
    y.assignment ≠ x.assignment || y.asset.isSome

theorem Attribute.plain_iff {source : Text} {x : Attribute} : x.plain source = true ↔
    x.seen source = true ∧ isPlainName x.assignment.name = true ∧
      (∀ c ∈ x.assignment.value, isBreak c = false) ∧
      ∀ p, x.asset = some p → p.text ≠ [] ∧ ∀ c ∈ p.text, isQuote c = false ∧ isBreak c = false := by
  cases hx : x.asset <;> simp [plain, and_assoc, hx]

theorem tame_iff {source : Text} {read : List Attribute} : tame source read = true ↔
    ∀ x ∈ read, x.asset ≠ none → x.plain source = true ∧
      ∀ y ∈ read, y.assignment = x.assignment → y.asset ≠ none := by
  simp only [tame, List.all_eq_true, Bool.or_eq_true, Bool.and_eq_true, Option.isNone_iff_eq_none,
    decide_eq_true_eq, Option.isSome_iff_ne_none]
  grind

structure Underway (read : List Attribute) (source rest : Text) (p : Progress) : Prop where
  split : ∃ new old back, source = old ++ back ∧ p.content = new ++ back ∧ Replaces new old back ∧
    rest <:+ unify back
  untouched : ∀ a ∈ p.untouched, ∃ y ∈ read, y.assignment = a ∧ y.asset = none

namespace Underway

variable {read : List Attribute} {source s after : Text} {p : Progress}

theorem start (read : List Attribute) (source : Text) :
    Underway read source (unify source) (.start source) :=
  ⟨⟨[], [], source, rfl, rfl, .nil source, List.suffix_refl _⟩, by simp [Progress.start]⟩

theorem leave (h : Underway read source s p) {a : Assignment}
    (written : Written s a.name a.value after) {x : Attribute} (hx : x ∈ read)
    (ha : x.assignment = a) (unselected : x.asset = none) :
    Underway read source after (p.leave a) := by
  obtain ⟨new, old, back, hsource, hcontent, replaces, suffix⟩ := h.split
  refine ⟨⟨new, old, back, hsource, hcontent, replaces, ?_⟩, ?_⟩
  · exact ((List.suffix_append _ _).trans written.after_suffix).trans suffix
  · intro b hb
    rcases List.mem_cons.1 hb with rfl | hb
    · exact ⟨x, hx, ha, unselected⟩
    · exact h.untouched b hb

theorem exists_rewriting (h : Underway read source s p) (calm : tame source read = true)
    {a : Assignment} (written : Written s a.name a.value after) {x : Attribute} (hx : x ∈ read)
    (ha : x.assignment = a) (left : x.left = (a.value ++ after).length) {path : Path}
    (hs : x.asset = some path) (selected : asset? rules directory p.tag a.name a.value = some path) :
    ∃ r, p.rewriting? rules directory a = some r ∧ ∀ assets,
      Underway read source after { p with content := r.content, assets } := by
  obtain ⟨new, old, back, hsource, hcontent, replaces, suffix⟩ := h.split
  obtain ⟨plain, alike⟩ := tame_iff.1 calm x hx (by simp [hs])
  obtain ⟨sight, hname, unbroken, leaves⟩ := Attribute.plain_iff.1 plain
  obtain ⟨before, rest, own, hleft⟩ := Attribute.seen_iff.1 sight
  obtain ⟨ne, inline⟩ := leaves path hs
  rw [ha] at hname unbroken own hleft
  have value : Inline a.value := ⟨value_ne_nil_of_asset? selected, unbroken, written.closed⟩
  have asset : Inline path.text :=
    ⟨ne, fun c hc => (inline c hc).2, Place.closed_of_plain fun c hc => (inline c hc).1⟩
  -- None that is equal was left untouched, so the first place is taken.
  have unskipped : p.untouched.count a = 0 := by
    refine List.count_eq_zero.2 fun hu => ?_
    obtain ⟨y, hy, same, none⟩ := h.untouched a hu
    exact alike y hy (same.trans ha.symm) none
  rw [hsource] at own
  rw [left] at hleft
  have read := (replaces.unify_eq value written suffix own hleft).1
  obtain ⟨place, seen⟩ := replaces.mem_places hname value written suffix own hleft
  obtain ⟨⟨first, last⟩, more, hplaces⟩ := List.exists_cons_of_ne_nil (List.ne_nil_of_mem seen)
  have earliest := Assignment.length_le_of_first hname hplaces seen
  have found : (first, last) ∈ a.places (new ++ back) := by simp [hplaces]
  obtain ⟨gap, rfl, replaces⟩ := replaces.rewrite hname value asset own seen found earliest
    (not_isPlainNameChar_after written read)
  refine ⟨⟨first, a.value, gap ++ rest, path⟩, ?_, fun assets => ⟨⟨first ++ (path.text ++ gap),
    before ++ a.value, rest, ?_, ?_, replaces, read ▸ List.suffix_refl _⟩, h.untouched⟩⟩
  · exact Progress.rewriting?_eq_some_iff.2
      ⟨selected, rfl, by simp [unskipped, hcontent, hplaces]⟩
  · rw [hsource, List.append_assoc, a.append_of_mem_places own]
  · simp [Rewriting.content]

theorem attr (rules : Rules) (directory : Path) (h : Underway read source s p)
    (calm : tame source read = true) {a : Assignment} (written : Written s a.name a.value after)
    {x : Attribute} (hx : x ∈ read) (ha : x.assignment = a)
    (left : x.left = (a.value ++ after).length)
    (asset : x.asset = asset? rules directory p.tag a.name a.value) :
    Underway read source after (p.attr rules directory a) ∧
      (x.asset ≠ none → p.untouched.count a < (a.places p.content).length) := by
  cases hs : x.asset with
  | none =>
    have none : p.rewriting? rules directory a = none := by
      rw [Progress.rewriting?, ← asset, hs]
    rw [Progress.attr, none]
    exact ⟨h.leave written hx ha hs, fun some => absurd rfl some⟩
  | some path =>
    obtain ⟨r, hr, later⟩ :=
      h.exists_rewriting calm written hx ha left hs (asset.symm.trans hs)
    rw [Progress.attr, hr]
    have place := (Progress.rewriting?_eq_some_iff.1 hr).2.2
    exact ⟨later _, fun _ => (List.getElem?_eq_some_iff.1 place).1⟩

theorem of_suffix (h : Underway read source s p) (suffix : after <:+ s) :
    Underway read source after p := by
  obtain ⟨new, old, back, hsource, hcontent, replaces, within⟩ := h.split
  exact ⟨⟨new, old, back, hsource, hcontent, replaces, suffix.trans within⟩, h.untouched⟩

theorem found_of_laid {tokens : List Token}
    (h : Underway read source s (progress rules directory source tokens))
    (calm : tame source read = true) {line line' : Nat} {rest : Text} {spots : List Spot}
    (laid : Laid line s spots line' rest)
    (within : ∀ x ∈ attributes rules directory tokens spots, x ∈ read) :
    ∀ x ∈ attributes rules directory tokens spots, x.asset ≠ none →
      x.found rules directory source = true := by
  induction laid generalizing tokens with
  | nil => simp [attributes]
  | @bare _ s more _ _ spot valueless _ ih =>
    rw [attributes_valueless valueless] at within ⊢
    refine ih ?_ within
    rw [progress_concat]
    cases ht : spot.token with
    | tag name line => exact ⟨h.split, h.untouched⟩
    | attr name value line =>
      cases value with
      | none => exact h
      | some value => exact absurd ht (valueless name value line)
  | @value _ s line t name value after _ m more _ _ front written _ suffix _ ih =>
    rw [attributes, written.trimmed] at within ⊢
    have member := within _ List.mem_cons_self
    obtain ⟨next, seen⟩ := (h.of_suffix front.suffix).attr rules directory calm
      (a := ⟨line, name, value⟩) written member rfl rfl (by rw [tag_progress])
    have step : Underway read source after
        (progress rules directory source (tokens ++ [.attr name (some value) line])) := by
      rwa [progress_concat, Progress.token, written.trimmed]
    have later := ih (step.of_suffix suffix) fun x hx => within x (.tail _ hx)
    intro x hx
    rcases List.mem_cons.1 hx with rfl | hx
    · intro selected
      exact decide_eq_true (seen selected)
    · exact later x hx

end Underway

/-- An extraction reports the assets that are found, each once; an asset is missed just if no search
for it ends at a place. In a tame source none is missed. A selected attribute whose name is written as
it is and whose value stands on one line is seen, unless the source is untidy. -/
theorem extract_reports_iff {source : Text} {spots : List Spot}
    (h : Markup.spots source = .ok spots) (rules : Rules) (directory : Path) :
    let read := attributes rules directory [] spots
    let found := (read.filter (Attribute.found rules directory source)).filterMap Attribute.asset
    let reported := (extract rules directory source (spots.map Spot.token)).assets
    reported = Path.distinct found ∧
      (∀ asset, reported.any (Path.same asset) = true ↔ found.any (Path.same asset) = true) ∧
      (tame source read = true → ∀ x ∈ read, ∀ asset, x.asset = some asset →
        reported.any (Path.same asset) = true) ∧
      (Markup.tidy (unify source) = true → ∀ x ∈ read, x.asset ≠ none →
        x.named (unify source) = true → x.assignment.value.all (!isBreak ·) = true →
          x.seen source = true) := by
  intro read found reported
  obtain ⟨_, _, laid⟩ := Markup.laid_of_spots h
  rw [join_lines] at laid
  have all : reported = Path.distinct found := assets_progress source [] spots
  have each (asset : Path) : reported.any (Path.same asset) = true ↔
      found.any (Path.same asset) = true := by
    rw [all, Path.distinct, Path.any_same_foldl_addNew]
    simp
  refine ⟨all, each, ?_, ?_⟩
  · intro calm x hx asset selected
    rw [each]
    have start : Underway read source (unify source) (progress rules directory source []) :=
      .start read source
    have seen := start.found_of_laid calm laid (fun _ hy => hy) x hx (by simp [selected])
    refine List.any_eq_true.2 ⟨asset, ?_, Path.same_self asset⟩
    exact List.mem_filterMap.2 ⟨x, List.mem_filter.2 ⟨hx, seen⟩, selected⟩
  · intro clean x hx selected named unbroken
    have reading := (Reached.start (unify source)).readIn_of_laid clean laid [] x hx
    obtain ⟨asset, hasset⟩ := Option.ne_none_iff_exists'.1 selected
    rw [asset_of_mem_attributes hx] at hasset
    exact Attribute.seen_of_named reading named (value_ne_nil_of_asset? hasset)
      (by simpa using unbroken)

theorem extract_reports_crlf :
    let rules : Rules := ⟨2, .lf, [⟨some "img".toList, "src".toList⟩], "pug".toList, by decide⟩
    let directory : Path := .ofString "/proj/views"
    let source := "img(\r\n  src='a.png',\r\n  alt='x y'): img(src='b.png')".toList
    ∃ spots, Markup.spots source = .ok spots ∧
      (∀ x ∈ attributes rules directory [] spots, ∀ asset, x.asset = some asset →
        (extract rules directory source (spots.map Spot.token)).assets.any asset.same = true) ∧
      ∀ x ∈ attributes rules directory [] spots, x.asset ≠ none → x.seen source = true := by
  intro rules directory source
  let spots : List Spot := [⟨.tag "img".toList 1, 50⟩,
    ⟨.attr "src".toList (some "'a.png'".toList) 2, 39⟩,
    ⟨.attr "alt".toList (some "'x y'".toList) 3, 24⟩, ⟨.tag "img".toList 3, 16⟩,
    ⟨.attr "src".toList (some "'b.png'".toList) 3, 8⟩]
  have read : Markup.spots source = .ok spots := by decide +kernel
  have calm : tame source (attributes rules directory [] spots) = true := by decide +kernel
  have clean : Markup.tidy (unify source) = true := by decide +kernel
  have names : ∀ x ∈ attributes rules directory [] spots, x.named (unify source) = true ∧
      x.assignment.value.all (!isBreak ·) = true := by decide +kernel
  obtain ⟨-, -, all, sight⟩ := extract_reports_iff read rules directory
  exact ⟨spots, read, all calm, fun x hx selected =>
    sight clean x hx selected (names x hx).1 (names x hx).2⟩

theorem extract_misses_quoted :
    let rules : Rules := ⟨2, .lf, [⟨some "img".toList, "src".toList⟩], "pug".toList, by decide⟩
    let directory : Path := .ofString "/proj/views"
    let source := "img('src'='a.png')".toList
    ∃ spots, Markup.spots source = .ok spots ∧
      (extract rules directory source (spots.map Spot.token)).assets = [] ∧
      ∃ x ∈ attributes rules directory [] spots, x.asset = some (.ofString "/proj/views/a.png") := by
  intro rules directory source
  let spots : List Spot := [⟨.tag "img".toList 1, 18⟩,
    ⟨.attr "src".toList (some "'a.png'".toList) 1, 8⟩]
  have read : Markup.spots source = .ok spots := by decide +kernel
  refine ⟨spots, read, by decide +kernel, ?_⟩
  exact ⟨_, List.mem_cons_self, by decide +kernel⟩

end PugWeave.Asset
