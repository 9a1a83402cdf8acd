import PugWeave.Proofs.Asset.Search
import PugWeave.Proofs.Markup.Spots

/-! Which text an extraction leaves alone. The characters of selected values are marked in the source,
and a rewriting marks what it writes. Text outside selected values survives just if the search for a
selected value never ends at unmarked characters. -/

namespace PugWeave.Asset

open Text
open Markup (Spot Token)

abbrev Marked := List (Char × Bool)

namespace Rewriting

structure Applies (r : Rewriting) (t : Text) : Prop where
  value : r.value ≠ []
  text : r.before ++ (r.value ++ r.after) = t

end Rewriting

namespace Marked

def text (m : Marked) : Text := m.map Prod.fst

inductive Spared : Marked → Marked → Prop
  | nil : Spared [] []
  | keep (c : Char) : Spared s t → Spared ((c, false) :: s) ((c, false) :: t)
  | change (c : Char) (x : Text) : Spared s t → Spared ((c, true) :: s) (x.map (·, true) ++ t)

def OnlyInside (m : Marked) (t : Text) : Prop := ∃ n, Spared m n ∧ n.text = t

theorem Spared.refl : ∀ m : Marked, Spared m m
  | [] => .nil
  | (c, false) :: m => .keep c (refl m)
  | (c, true) :: m => .change c [c] (refl m)

theorem Spared.front {s t : Marked} (h : Spared s t) :
    text (s.takeWhile (!·.2)) <+: t.text := by
  induction h with
  | nil => exact List.nil_prefix
  | keep c _ ih => exact List.cons_prefix_cons.2 ⟨rfl, ih⟩
  | change => exact List.nil_prefix

theorem OnlyInside.front {m : Marked} {t : Text} (h : m.OnlyInside t) :
    text (m.takeWhile (!·.2)) <+: t := by
  cases h with
  | intro n hn => exact hn.2 ▸ hn.1.front

def unmarked (m : Marked) : Nat := m.countP (!·.2)

@[simp] theorem unmarked_written (x : Text) : unmarked (x.map (·, true)) = 0 := by
  simp [unmarked, List.countP_map, Function.comp_def]

@[simp] theorem unmarked_append (m n : Marked) : unmarked (m ++ n) = unmarked m + unmarked n :=
  List.countP_append

theorem unmarked_eq_zero_iff {m : Marked} : unmarked m = 0 ↔ m.all Prod.snd = true := by
  simp [unmarked, List.countP_eq_zero]

theorem Spared.unmarked_eq {s t : Marked} (h : Spared s t) : unmarked s = unmarked t := by
  induction h with
  | nil => rfl
  | keep c _ ih => simpa [unmarked] using ih
  | change c x _ ih =>
    rw [unmarked_append, unmarked_written, Nat.zero_add, ← ih]
    simp [unmarked]

theorem Spared.replace {s t : Marked} (h : Spared s t) {front piece back : Marked}
    (ht : t = front ++ (piece ++ back)) (hp : piece ≠ []) (all : piece.all Prod.snd = true)
    (x : Text) : Spared s (front ++ (x.map (·, true) ++ back)) := by
  -- Along the marked text, to where the piece begins.
  induction h generalizing front piece x with
  | nil => simp_all
  | keep c h ih =>
    cases front with
    | nil =>
      cases piece with
      | nil => exact absurd rfl hp
      | cons d piece =>
        cases ht
        simp at all
    | cons d front =>
      cases ht
      exact .keep c (ih rfl hp all x)
  | @change s' t' c y h ih =>
    rcases List.append_eq_append_iff.1 ht with ⟨gap, rfl, rfl⟩ | ⟨tail, hy, hback⟩
    · -- The piece lies past what stands for `c`.
      rw [List.append_assoc]
      exact .change c y (ih rfl hp all x)
    · obtain ⟨y₁, y₂, rfl, rfl, rfl⟩ := List.map_eq_append_iff.1 hy
      rcases List.append_eq_append_iff.1 hback with ⟨rest, hy₂, rfl⟩ | ⟨beyond, rfl, rfl⟩
      · obtain ⟨y₃, y₄, rfl, rfl, rfl⟩ := List.map_eq_append_iff.1 hy₂
        have := Spared.change c (y₁ ++ (x ++ y₄)) h
        rwa [List.map_append, List.map_append, List.append_assoc, List.append_assoc] at this
      · -- The piece reaches further than what stands for `c`.
        have after : Spared s' back := by
          cases beyond with
          | nil => exact h
          | cons d beyond =>
            rw [List.all_append, Bool.and_eq_true] at all
            have start : d :: beyond ++ back = [] ++ (d :: beyond ++ back) := rfl
            exact ih start (List.cons_ne_nil _ _) all.2 []
        have := Spared.change c (y₁ ++ x) after
        rwa [List.map_append, List.append_assoc] at this

def rewrite (m : Marked) (r : Rewriting) : Marked :=
  m.take r.before.length ++
    (r.asset.text.map (·, true) ++ m.drop (r.before.length + r.value.length))

def replaced (m : Marked) (r : Rewriting) : Marked := (m.drop r.before.length).take r.value.length

theorem split_replaced (m : Marked) (r : Rewriting) :
    m = m.take r.before.length ++ (m.replaced r ++ m.drop (r.before.length + r.value.length)) := by
  rw [replaced, ← List.drop_drop, List.take_append_drop, List.take_append_drop]

theorem unmarked_rewrite (m : Marked) (r : Rewriting) :
    (m.rewrite r).unmarked + (m.replaced r).unmarked = m.unmarked := by
  have split := congrArg unmarked (m.split_replaced r)
  rw [unmarked_append, unmarked_append] at split
  rw [rewrite, unmarked_append, unmarked_append, unmarked_written, split]
  omega

theorem text_rewrite {m : Marked} {r : Rewriting} (h : r.Applies m.text) :
    (m.rewrite r).text = r.content := by
  have before : m.text.take r.before.length = r.before := by simp [← h.text]
  have after : m.text.drop (r.before.length + r.value.length) = r.after := by
    rw [← h.text, ← List.append_assoc, ← List.length_append, List.drop_left]
  rw [text, ← List.map_take] at before
  rw [text, ← List.map_drop] at after
  simp [text, rewrite, Rewriting.content, before, after, Function.comp_def]

theorem replaced_ne_nil {m : Marked} {r : Rewriting} (h : r.Applies m.text) :
    m.replaced r ≠ [] := by
  have room := congrArg List.length h.text
  have value := List.length_pos_iff.2 h.value
  simp only [text, List.length_append, List.length_map] at room
  intro none
  have := congrArg List.length none
  simp only [replaced, List.length_take, List.length_drop, List.length_nil] at this
  omega

theorem spared_rewrite {s m : Marked} {r : Rewriting} (h : Spared s m) (hr : r.Applies m.text)
    (all : (m.replaced r).all Prod.snd = true) : Spared s (m.rewrite r) :=
  h.replace (m.split_replaced r) (replaced_ne_nil hr) all r.asset.text

end Marked

theorem Progress.applies_of_rewriting? {rules : Rules} {directory : Path} {p : Progress}
    {a : Assignment} {r : Rewriting} (h : p.rewriting? rules directory a = some r) :
    r.Applies p.content := by
  rw [rewriting?_eq_some_iff] at h
  constructor
  · rw [h.2.1]
    exact value_ne_nil_of_asset? h.1
  · rw [h.2.1]
    exact a.append_of_mem_places (List.mem_of_getElem? h.2.2)

structure Following extends Progress where
  marked : Marked

namespace Following

variable (rules : Rules) (directory : Path)

def start (marked : Marked) : Following := { Progress.start marked.text with marked }

def rewriting? (f : Following) : Token → Option Rewriting
  | .attr name (some value) line => f.toProgress.rewriting? rules directory ⟨line, name, trim value⟩
  | .attr _ none _ | .tag .. => none

def token (f : Following) (t : Token) : Following :=
  { f.toProgress.token rules directory t with
    marked := ((f.rewriting? rules directory t).map f.marked.rewrite).getD f.marked }

/-- Whether the search for a selected value ends in a selected value, if it ends at a place at all.
It is to find the place past as many as there are equal assignments that still stand. -/
def hits (f : Following) : Token → Bool
  | .attr name (some value) line =>
    let a : Assignment := ⟨line, name, trim value⟩
    match asset? rules directory f.tag a.name a.value,
        (a.places f.content)[f.untouched.count a]? with
    | some _, some (before, _) =>
      ((f.marked.drop before.length).take a.value.length).all Prod.snd
    | _, _ => true
  | .attr _ none _ | .tag .. => true

def hitsAll : Following → List Token → Bool
  | _, [] => true
  | f, t :: rest => f.hits rules directory t && hitsAll (f.token rules directory t) rest

theorem unmarked_token_le (f : Following) (t : Token) :
    (f.token rules directory t).marked.unmarked ≤ f.marked.unmarked := by
  rw [token]
  cases f.rewriting? rules directory t with
  | none => exact Nat.le_refl _
  | some r =>
    have := f.marked.unmarked_rewrite r
    exact Nat.le.intro this

theorem unmarked_foldl_le (f : Following) (tokens : List Token) :
    (tokens.foldl (token rules directory) f).marked.unmarked ≤ f.marked.unmarked := by
  induction tokens generalizing f with
  | nil => exact Nat.le_refl _
  | cons t rest ih => exact Nat.le_trans (ih _) (unmarked_token_le rules directory f t)

variable {rules directory} {f : Following}

theorem applies_of_rewriting? {t : Token} {r : Rewriting}
    (h : f.rewriting? rules directory t = some r) : r.Applies f.content := by
  cases t with
  | tag name line => cases h
  | attr name value line =>
    cases value with
    | none => cases h
    | some value => exact Progress.applies_of_rewriting? h

theorem hits_iff {t : Token} : f.hits rules directory t = true ↔
    ∀ r, f.rewriting? rules directory t = some r → (f.marked.replaced r).all Prod.snd = true := by
  cases t with
  | tag name line => simp [hits, rewriting?]
  | attr name value line =>
    cases value with
    | none => simp [hits, rewriting?]
    | some value =>
      simp only [hits, rewriting?, Progress.rewriting?_eq_some_iff]
      constructor
      · intro hit r hr
        rw [hr.1, hr.2.2] at hit
        rw [Marked.replaced, hr.2.1]
        exact hit
      · intro all
        split
        · rename_i asset before after hasset hplace
          exact all ⟨before, trim value, after, asset⟩ ⟨hasset, rfl, hplace⟩
        · rfl

theorem content_token (f : Following) (t : Token) : (f.token rules directory t).content =
    ((f.rewriting? rules directory t).map Rewriting.content).getD f.content := by
  cases t with
  | tag name line => rfl
  | attr name value line =>
    cases value with
    | none => rfl
    | some value =>
      simp only [token, Progress.token, Progress.attr, rewriting?]
      cases f.toProgress.rewriting? rules directory ⟨line, name, trim value⟩ <;> rfl

theorem toProgress_foldl (f : Following) (tokens : List Token) :
    (tokens.foldl (token rules directory) f).toProgress =
      tokens.foldl (Progress.token rules directory) f.toProgress := by
  induction tokens generalizing f with
  | nil => rfl
  | cons t rest ih => exact ih (f.token rules directory t)

theorem text_token (h : f.marked.text = f.content) (t : Token) :
    (f.token rules directory t).marked.text = (f.token rules directory t).content := by
  rw [content_token, token]
  cases ht : f.rewriting? rules directory t with
  | none => exact h
  | some r =>
    apply Marked.text_rewrite
    rw [h]
    exact applies_of_rewriting? ht

theorem text_foldl (h : f.marked.text = f.content) (tokens : List Token) :
    (tokens.foldl (token rules directory) f).marked.text =
      (tokens.foldl (token rules directory) f).content := by
  induction tokens generalizing f with
  | nil => exact h
  | cons t rest ih => exact ih (text_token h t)

theorem hits_iff_unmarked {t : Token} : f.hits rules directory t = true ↔
    (f.token rules directory t).marked.unmarked = f.marked.unmarked := by
  rw [hits_iff, token]
  cases f.rewriting? rules directory t with
  | none => simp
  | some r =>
    have count := f.marked.unmarked_rewrite r
    simp only [Option.some.injEq, forall_eq', ← Marked.unmarked_eq_zero_iff, Option.map_some,
      Option.getD_some]
    omega

theorem spared_token {s : Marked} (h : f.marked.text = f.content) (hs : s.Spared f.marked)
    {t : Token} (ht : f.hits rules directory t = true) :
    s.Spared (f.token rules directory t).marked := by
  rw [hits_iff] at ht
  rw [token]
  cases hr : f.rewriting? rules directory t with
  | none => exact hs
  | some r => exact Marked.spared_rewrite hs (h ▸ applies_of_rewriting? hr) (ht r hr)

theorem spared_foldl_iff (rules : Rules) (directory : Path) {f : Following} {s : Marked}
    (h : f.marked.text = f.content) (hs : s.Spared f.marked) (tokens : List Token) :
    s.Spared (tokens.foldl (token rules directory) f).marked ↔
      f.hitsAll rules directory tokens = true := by
  induction tokens generalizing f with
  | nil => simp [hitsAll, hs]
  | cons t rest ih =>
    rw [List.foldl_cons, hitsAll, Bool.and_eq_true]
    constructor
    · intro last
      -- What a miss loses does not come back.
      have hit : f.hits rules directory t = true := by
        rw [hits_iff_unmarked]
        have := hs.unmarked_eq
        have := last.unmarked_eq
        have := unmarked_token_le rules directory f t
        have := unmarked_foldl_le rules directory (f.token rules directory t) rest
        omega
      exact ⟨hit, (ih (text_token h t) (spared_token h hs hit)).1 last⟩
    · intro both
      exact (ih (text_token h t) (spared_token h hs both.1)).2 both.2

end Following

structure Span where
  left : Nat
  length : Nat

def Span.covers (s : Span) (left : Nat) : Bool := left ≤ s.left && s.left < left + s.length

def selected (rules : Rules) (directory : Path) : Option Text → List Spot → List Span
  | _, [] => []
  | _, ⟨.tag name _, _⟩ :: rest => selected rules directory (some name) rest
  | tag, ⟨.attr _ none _, _⟩ :: rest => selected rules directory tag rest
  | tag, ⟨.attr name (some value) _, left⟩ :: rest =>
    let later := selected rules directory tag rest
    match asset? rules directory tag name (trim value) with
    | none => later
    | some _ => ⟨left, value.length⟩ :: later

def mark (spans : List Span) : Text → Marked
  | [] => []
  | c :: r =>
    let left := (join ['\n'] (lines (c :: r))).length
    (c, spans.any (·.covers left)) :: mark spans r

theorem text_mark (spans : List Span) (t : Text) : (mark spans t).text = t := by
  induction t with
  | nil => rfl
  | cons c r ih => exact congrArg (c :: ·) ih

/-- An extraction changes nothing but selected values, followed character by character, just if
each search for a selected value ends in a selected value or in what was written for one. -/
theorem extract_spares_iff {source : Text} {spots : List Spot}
    (h : Markup.spots source = .ok spots) (rules : Rules) (directory : Path) :
    let tokens := spots.map Spot.token
    let start := Following.start (mark (selected rules directory none spots) source)
    let final := tokens.foldl (Following.token rules directory) start
    (∀ spot ∈ spots, spot.StandsIn (join ['\n'] (lines source))) ∧
      start.marked.text = source ∧
      final.marked.text = (extract rules directory source tokens).content ∧
      (start.marked.Spared final.marked ↔ start.hitsAll rules directory tokens = true) ∧
      (start.hitsAll rules directory tokens = true →
        start.marked.OnlyInside (extract rules directory source tokens).content) := by
  intro tokens start final
  have text : start.marked.text = source := text_mark _ source
  have content : final.marked.text = (extract rules directory source tokens).content := by
    have last : final.toProgress = tokens.foldl (Progress.token rules directory) (.start source) := by
      rw [← text]
      exact start.toProgress_foldl tokens
    rw [extract, ← last]
    exact Following.text_foldl rfl tokens
  have spared := Following.spared_foldl_iff rules directory rfl (.refl start.marked) tokens
  exact ⟨Markup.standsIn_of_spots h, text, content, spared,
    fun all => ⟨final.marked, spared.2 all, content⟩⟩

theorem extract_spares_equal :
    let rules : Rules := ⟨2, .lf, [⟨some "img".toList, "src".toList⟩], "pug".toList, by decide⟩
    let directory : Path := .ofString "/proj/views"
    let source := "a(src='a.png'): img(src='a.png')".toList
    ∃ spots, Markup.spots source = .ok spots ∧
      (mark (selected rules directory none spots) source).OnlyInside
        (extract rules directory source (spots.map Spot.token)).content := by
  intro rules directory source
  let spots : List Spot := [⟨.tag "a".toList 1, 32⟩,
    ⟨.attr "src".toList (some "'a.png'".toList) 1, 26⟩, ⟨.tag "img".toList 1, 16⟩,
    ⟨.attr "src".toList (some "'a.png'".toList) 1, 8⟩]
  have read : Markup.spots source = .ok spots := by decide +kernel
  have spares := extract_spares_iff read rules directory
  exact ⟨spots, read, spares.2.2.2.2 (by decide +kernel)⟩

theorem extract_corrupts_longer :
    let rules : Rules := ⟨2, .lf, [⟨some "img".toList, "src".toList⟩], "pug".toList, by decide⟩
    let directory : Path := .ofString "/proj/views"
    let source := "a(src='a.png' + v): img(src='a.png')".toList
    ∃ spots, Markup.spots source = .ok spots ∧
      ¬(mark (selected rules directory none spots) source).OnlyInside
        (extract rules directory source (spots.map Spot.token)).content := by
  intro rules directory source
  let spots : List Spot := [⟨.tag "a".toList 1, 36⟩,
    ⟨.attr "src".toList (some "'a.png' + v".toList) 1, 30⟩, ⟨.tag "img".toList 1, 16⟩,
    ⟨.attr "src".toList (some "'a.png'".toList) 1, 8⟩]
  have read : Markup.spots source = .ok spots := by decide +kernel
  refine ⟨spots, read, ?_⟩
  intro inside
  have front := inside.front
  revert front
  decide +kernel

end PugWeave.Asset
