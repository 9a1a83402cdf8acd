import PugWeave.Artifact.Basic
import PugWeave.Proofs.Path.Distinct
import PugWeave.Proofs.Template.Lookup

namespace PugWeave.Composition.DependencyMap

inductive Built : DependencyMap → Prop
  | empty : Built {}
  | insert : Built m → Built (m.insert template assets)
  | merge : Built m → Built n → Built (m.merge n)

theorem contains_eq_isSome_get? (m : DependencyMap) (p : Path) :
    m.contains p = (m.get? p).isSome := by
  rw [contains, get?, Option.isSome_map, List.isSome_find?]

theorem get?_congr (m : DependencyMap) {p q : Path} (h : p.same q = true) :
    m.get? p = m.get? q := by
  have same : (fun e : Path × List Path => e.1.same p) = fun e => e.1.same q := by
    funext e
    rw [Path.same_comm, Path.same_trans_left h, Path.same_comm]
  rw [get?, same, get?]

theorem get?_insert (m : DependencyMap) (t : Path) (assets : List Path) (p : Path) :
    (m.insert t assets).get? p = (m.get? p).or (if t.same p then some assets else none) := by
  rw [insert]
  split
  · rename_i known
    split
    · rename_i same
      rw [contains_eq_isSome_get?, m.get?_congr same] at known
      rw [Option.or_of_isSome known]
    · rw [Option.or_none]
  · rw [get?, List.find?_append, Option.map_or, ← get?, List.find?_singleton]
    dsimp only
    split <;> rfl

theorem contains_insert (m : DependencyMap) (t : Path) (assets : List Path) (p : Path) :
    (m.insert t assets).contains p = (m.contains p || t.same p) := by
  simp only [contains_eq_isSome_get?, get?_insert, Option.isSome_or]
  cases t.same p <;> rfl

theorem get?_merge (m n : DependencyMap) (p : Path) :
    (m.merge n).get? p = (m.get? p).or (n.get? p) := by
  obtain ⟨entries⟩ := n
  induction entries generalizing m with
  | nil => exact Option.or_none.symm
  | cons e rest ih =>
    obtain ⟨t, assets⟩ := e
    have first : get? ⟨(t, assets) :: rest⟩ p =
        (if t.same p then some assets else none).or (get? ⟨rest⟩ p) := by
      simp only [get?, List.find?_cons]
      cases t.same p <;> rfl
    rw [first, ← Option.or_assoc, ← get?_insert]
    exact ih _

theorem contains_merge (m n : DependencyMap) (p : Path) :
    (m.merge n).contains p = (m.contains p || n.contains p) := by
  simp only [contains_eq_isSome_get?, get?_merge, Option.isSome_or]

theorem merge_insert (m n : DependencyMap) (t : Path) (assets : List Path) :
    m.merge (n.insert t assets) = (m.merge n).insert t assets := by
  rw [insert]
  split
  · rename_i h
    have : (m.merge n).contains t = true := by rw [contains_merge, h, Bool.or_true]
    rw [insert, if_pos this]
  · simp [merge]

theorem templates_insert (m : DependencyMap) (t : Path) (assets : List Path) :
    (m.insert t assets).templates = Path.addNew m.templates t := by
  have known : m.templates.any t.same = m.contains t := by
    rw [templates, List.any_map, contains]
    congr 1
    funext e
    exact Path.same_comm _ _
  rw [insert, Path.addNew, known]
  split
  · rfl
  · exact List.map_append

theorem templates_merge (m n : DependencyMap) :
    (m.merge n).templates = n.templates.foldl Path.addNew m.templates := by
  obtain ⟨entries⟩ := n
  induction entries generalizing m with
  | nil => rfl
  | cons e rest ih =>
    have next := ih (m.insert e.1 e.2)
    rwa [templates_insert] at next

theorem Built.nodup {m : DependencyMap} (h : m.Built) : (m.templates.map Path.components).Nodup := by
  induction h with
  | empty => exact List.nodup_nil
  | insert _ ih =>
    rw [templates_insert]
    exact Path.nodup_addNew ih _
  | @merge m n _ _ ih _ =>
    rw [templates_merge]
    exact Path.nodup_foldl_addNew n.templates ih

end PugWeave.Composition.DependencyMap
