import Mathlib.Data.List.TakeWhile
import PugWeave.Directive.Node

/-! A tree that grows statement by statement. Blocks stay open while deeper statements follow, and a
block is put into the one around it only when it is closed. What has grown in the end is the tree of
all statements. -/

namespace PugWeave.Directive

section

variable {α : Type} {p q : α → Bool} (stronger : ∀ a, p a = true → q a = true)
include stronger

theorem takeWhile_takeWhile_of_imp (l : List α) :
    (l.takeWhile q).takeWhile p = l.takeWhile p := by
  rw [List.takeWhile_takeWhile]
  congr 1
  funext a
  simpa using stronger a

theorem dropWhile_takeWhile_of_imp (l : List α) :
    (l.takeWhile q).dropWhile p = (l.dropWhile p).takeWhile q := by
  induction l with
  | nil => rfl
  | cons a l ih =>
    cases hp : p a with
    | true => simp [hp, stronger a hp, ih]
    | false => cases hq : q a <;> simp [hp, hq]

theorem dropWhile_dropWhile_of_imp (l : List α) :
    (l.dropWhile p).dropWhile q = l.dropWhile q := by
  induction l with
  | nil => rfl
  | cons a l ih =>
    cases hp : p a with
    | true => simp [hp, stronger a hp, ih]
    | false => simp [hp]

end

theorem deeper_trans {depth : Nat} {s : Statement} (deeper : depth < s.indent) (u : Statement)
    (h : decide (s.indent < u.indent) = true) : decide (depth < u.indent) = true := by
  simp only [decide_eq_true_eq] at h ⊢
  omega

structure Opened where
  indent : Nat
  text : Text
  name : Text
  mode : Mode
  children : List Node := []

def Opened.close (b : Opened) : Node := .block b.indent b.text b.name b.mode b.children

/-- What has grown at the root, and the blocks that are open, the innermost first. -/
structure Growth where
  root : List Node := []
  opened : List Opened := []

namespace Growth

def attach (node : Node) : Growth → Growth
  | ⟨root, []⟩ => ⟨root ++ [node], []⟩
  | ⟨root, b :: outer⟩ => ⟨root, { b with children := b.children ++ [node] } :: outer⟩

@[simp] theorem length_opened_attach (node : Node) (g : Growth) :
    (g.attach node).opened.length = g.opened.length := by
  fun_cases attach node g <;> rfl

def settle (done : Opened → Bool) : Growth → Growth
  | ⟨root, []⟩ => ⟨root, []⟩
  | ⟨root, b :: outer⟩ =>
    if done b then (attach b.close ⟨root, outer⟩).settle done else ⟨root, b :: outer⟩
  termination_by g => g.opened.length

/-- A statement closes the blocks that are not shallower. A block is opened, and all else goes into
the innermost block. -/
def read (g : Growth) (s : Statement) : Growth :=
  let g := g.settle (s.indent ≤ ·.indent)
  match s.meaning with
  | .block name mode => { g with opened := ⟨s.indent, s.text, name, mode, []⟩ :: g.opened }
  | _ => g.attach (.ofStatement s [])

def finish (g : Growth) : List Node := (g.settle fun _ => true).root

/-- What comes of a growth when statements follow: each open block takes the deeper ones. -/
def fill (g : Growth) (ss : List Statement) : List Node :=
  match g with
  | ⟨root, []⟩ => root ++ tree ss
  | ⟨root, b :: outer⟩ =>
    let inner := tree (ss.takeWhile (b.indent < ·.indent))
    (attach { b with children := b.children ++ inner }.close ⟨root, outer⟩).fill
      (ss.dropWhile (b.indent < ·.indent))
  termination_by g.opened.length

theorem fill_settle {done : Opened → Bool} {ss : List Statement}
    (shallow : ∀ b, done b = true → ∀ s ∈ ss.head?, s.indent ≤ b.indent) (g : Growth) :
    (g.settle done).fill ss = g.fill ss := by
  fun_induction settle done g with
  | case1 | case3 => rfl
  | case2 root b outer hb ih =>
    rw [ih, fill]
    cases ss with
    | nil => simp [tree]
    | cons s rest =>
      have : ¬b.indent < s.indent := Nat.not_lt.2 (shallow b hb s rfl)
      simp [this, tree]

theorem settle_eq (done : Opened → Bool) (g : Growth) :
    ∀ b ∈ (g.settle done).opened.head?, done b = false := by
  fun_induction settle done g with
  | case1 => simp
  | case2 root b outer hb ih => exact ih
  | case3 root b outer hb => simpa using hb

theorem tree_takeWhile {depth : Nat} {s : Statement} (deeper : depth < s.indent)
    (rest : List Statement) :
    tree ((s :: rest).takeWhile (depth < ·.indent)) = .ofStatement s (tree (nested s rest)) ::
      tree ((following s rest).takeWhile (depth < ·.indent)) := by
  rw [List.takeWhile_cons_of_pos (by simpa using deeper), tree, nested, nested, following,
    following]
  split
  · rw [takeWhile_takeWhile_of_imp (deeper_trans deeper),
      dropWhile_takeWhile_of_imp (deeper_trans deeper)]
  · rfl

theorem dropWhile_following {depth : Nat} {s : Statement} (deeper : depth < s.indent)
    (rest : List Statement) :
    (following s rest).dropWhile (depth < ·.indent) =
      (s :: rest).dropWhile (depth < ·.indent) := by
  rw [List.dropWhile_cons_of_pos (by simpa using deeper), following]
  split
  · exact dropWhile_dropWhile_of_imp (deeper_trans deeper) rest
  · rfl

theorem fill_attach {g : Growth} {s : Statement}
    (deeper : ∀ b ∈ g.opened.head?, b.indent < s.indent) (rest : List Statement) :
    (g.attach (.ofStatement s (tree (nested s rest)))).fill (following s rest) =
      g.fill (s :: rest) := by
  obtain ⟨root, opened⟩ := g
  cases opened with
  | nil => simp [attach, fill, tree]
  | cons b outer =>
    have deeper : b.indent < s.indent := deeper b rfl
    rw [attach, fill, fill, dropWhile_following deeper, tree_takeWhile deeper]
    simp

theorem fill_read (g : Growth) (s : Statement) (rest : List Statement) :
    (g.read s).fill rest = g.fill (s :: rest) := by
  have settled : (g.settle (s.indent ≤ ·.indent)).fill (s :: rest) = g.fill (s :: rest) :=
    fill_settle (by simp) g
  have deeper : ∀ b ∈ (g.settle (s.indent ≤ ·.indent)).opened.head?, b.indent < s.indent := by
    simpa using settle_eq (s.indent ≤ ·.indent) g
  rw [← settled, ← fill_attach deeper, read]
  generalize g.settle (s.indent ≤ ·.indent) = h
  split
  · rename_i name mode hm
    obtain ⟨root, opened⟩ := h
    rw [fill]
    simp [Node.ofStatement, hm, nested, following, Meaning.isBlock, Opened.close]
  · rename_i other
    have : s.meaning.isBlock = false := by
      cases hm : s.meaning with
      | block name mode => exact absurd hm (other name mode)
      | _ => rfl
    simp [nested, following, this, tree]

theorem fill_foldl (g : Growth) (ss : List Statement) : (ss.foldl read g).fill [] = g.fill ss := by
  induction ss generalizing g with
  | nil => rfl
  | cons s rest ih => rw [List.foldl_cons, ih, fill_read]

theorem fill_nil (g : Growth) : g.fill [] = g.finish := by
  have settled : (g.settle fun _ => true).fill [] = g.fill [] := fill_settle (by simp) g
  rw [← settled, finish]
  have closed := settle_eq (fun _ => true) g
  generalize g.settle (fun _ => true) = h at closed
  obtain ⟨root, opened⟩ := h
  cases opened with
  | nil => simp [fill, tree]
  | cons b outer => cases closed b rfl

theorem finish_foldl (ss : List Statement) : (ss.foldl read {}).finish = tree ss := by
  rw [← fill_nil, fill_foldl]
  simp [fill]

end Growth

end PugWeave.Directive
