import PugWeave.Artifact.Script
import PugWeave.Proofs.Path.Distinct
import PugWeave.Proofs.Text.Reindentation

namespace PugWeave.Artifact

open Text

theorem map_asset_addRequirement (found : List Requirement) (r : Requirement) :
    (addRequirement found r).map Requirement.asset =
      Path.addNew (found.map Requirement.asset) r.asset := by
  have known : found.any (·.asset.same r.asset) =
      (found.map Requirement.asset).any r.asset.same := by
    rw [List.any_map]
    congr 1
    funext s
    simp [Path.same, eq_comm]
  rw [addRequirement, Path.addNew, ← known]
  split
  · rfl
  · exact List.map_append

theorem map_asset_foldl (listed found : List Requirement) :
    (listed.foldl addRequirement found).map Requirement.asset =
      (listed.map Requirement.asset).foldl Path.addNew (found.map Requirement.asset) := by
  induction listed generalizing found with
  | nil => rfl
  | cons r rest ih => rw [List.foldl_cons, ih, map_asset_addRequirement]; rfl

theorem map_asset_firstRequirements (a : Artifact) :
    a.firstRequirements.map Requirement.asset = a.assets := by
  rw [firstRequirements, map_asset_foldl, List.map_flatMap]
  simp only [List.map_map]
  rw [assets, Composition.DependencyMap.flatten, Path.distinct]
  congr 1
  refine List.flatMap_congr fun e _ => ?_
  exact List.map_id _

theorem mem_foldl_addRequirement {listed found : List Requirement} {r : Requirement}
    (h : r ∈ listed.foldl addRequirement found) :
    r ∈ found ∨ ∃ before after, listed = before ++ r :: after ∧
      ∀ s ∈ found ++ before, ¬s.asset.same r.asset = true := by
  induction listed generalizing found with
  | nil => exact .inl h
  | cons s rest ih =>
    rw [List.foldl_cons, addRequirement] at h
    split at h
    · rename_i known
      refine (ih h).imp_right ?_
      rintro ⟨before, after, rfl, new⟩
      refine ⟨s :: before, after, rfl, fun u hu again => ?_⟩
      rcases List.mem_append.1 hu with hu | hu
      · exact new u (List.mem_append_left _ hu) again
      · rcases List.mem_cons.1 hu with rfl | hu
        · obtain ⟨v, hv, same⟩ := List.any_eq_true.1 known
          refine new v (List.mem_append_left _ hv) ?_
          rw [Path.same_iff] at same again ⊢
          exact same.trans again
        · exact new u (List.mem_append_right _ hu) again
    · rename_i new
      rcases ih h with h | ⟨before, after, rfl, first⟩
      · rcases List.mem_append.1 h with h | h
        · exact .inl h
        · obtain rfl := List.mem_singleton.1 h
          refine .inr ⟨[], rest, rfl, fun u hu again => new (List.any_eq_true.2 ⟨u, ?_, again⟩)⟩
          rwa [List.append_nil] at hu
      · refine .inr ⟨s :: before, after, rfl, fun u hu => first u ?_⟩
        rwa [List.append_assoc]

theorem exists_entry {entries : List (Path × List Path)} {before after : List Requirement}
    {r : Requirement}
    (h : (entries.flatMap fun (template, assets) => assets.map (Requirement.mk template)) =
      before ++ r :: after) :
    ∃ nearer assets later, entries = nearer ++ (r.template, assets) :: later ∧ r.asset ∈ assets ∧
      ∀ e ∈ nearer, ∀ p ∈ e.2, ⟨e.1, p⟩ ∈ before := by
  induction entries generalizing before with
  | nil => simp at h
  | cons e rest ih =>
    obtain ⟨template, assets⟩ := e
    rw [List.flatMap_cons] at h
    have beyond {x : List Requirement} (hx : before = assets.map (Requirement.mk template) ++ x)
        (hr : rest.flatMap (fun (template, assets) => assets.map (Requirement.mk template)) =
          x ++ r :: after) :
        ∃ nearer found later, (template, assets) :: rest =
          nearer ++ (r.template, found) :: later ∧ r.asset ∈ found ∧
            ∀ e ∈ nearer, ∀ p ∈ e.2, ⟨e.1, p⟩ ∈ before := by
      obtain ⟨nearer, found, later, rfl, mem, all⟩ := ih hr
      refine ⟨(template, assets) :: nearer, found, later, rfl, mem, ?_⟩
      rw [hx]
      refine List.forall_mem_cons.2 ⟨fun p hp => ?_, fun e he p hp => ?_⟩
      · exact List.mem_append_left _ (List.mem_map_of_mem hp)
      · exact List.mem_append_right _ (all e he p hp)
    -- The requirement is one of this template, or of a later one.
    rcases List.append_eq_append_iff.1 h with ⟨x, hx, hr⟩ | ⟨x, hx, hr⟩
    · exact beyond hx hr
    · cases x with
      | nil => exact beyond (x := []) (by simpa using hx.symm) hr.symm
      | cons s x =>
        obtain ⟨rfl, -⟩ := List.cons_eq_cons.1 hr
        have hx : assets.map (Requirement.mk template) = before ++ r :: x := hx
        have mem : r ∈ assets.map (Requirement.mk template) := hx ▸ by simp
        obtain ⟨p, hp, rfl⟩ := List.mem_map.1 mem
        exact ⟨[], assets, rest, rfl, hp, by simp⟩

theorem exists_of_mem_requirements {a : Artifact} {r : Requirement} (h : r ∈ a.requirements) :
    ∃ nearer assets later, a.deps.entries = nearer ++ (r.template, assets) :: later ∧
      r.asset ∈ assets ∧ ∀ e ∈ nearer, ∀ p ∈ e.2, ¬p.same r.asset = true := by
  rw [requirements, List.mem_mergeSort] at h
  rcases mem_foldl_addRequirement h with h | ⟨before, after, listed, first⟩
  · cases h
  · obtain ⟨nearer, assets, later, entries, mem, all⟩ := exists_entry listed
    exact ⟨nearer, assets, later, entries, mem, fun e he p hp => first _ (all e he p hp)⟩

theorem perm_requirements (a : Artifact) : (a.requirements.map Requirement.asset).Perm a.assets :=
  map_asset_firstRequirements a ▸ (List.mergeSort_perm _ _).map _

theorem exists_required_iff (a : Artifact) (p : Path) :
    (∃ r ∈ a.requirements, p.same r.asset = true) ↔
      ∃ e ∈ a.deps.entries, ∃ q ∈ e.2, p.same q = true := by
  have listed : a.assets.any p.same = true ↔ ∃ e ∈ a.deps.entries, ∃ q ∈ e.2, p.same q = true := by
    rw [assets, Composition.DependencyMap.flatten, Path.distinct, Path.any_same_foldl_addNew]
    simp only [List.any_nil, Bool.false_eq_true, false_or, List.any_flatMap, List.any_eq_true]
  rw [← listed, ← (perm_requirements a).any_eq]
  simp only [List.any_map, List.any_eq_true, Function.comp_apply]

theorem nodup_requirements (a : Artifact) :
    (a.requirements.map (·.asset.components)).Nodup := by
  have perm := (perm_requirements a).map Path.components
  rw [List.map_map] at perm
  exact perm.nodup_iff.2 (Path.nodup_distinct _)

theorem byteLength_lt_of_infix {x t : Text} (within : x <:+: t) (other : x ≠ t) :
    byteLength x < byteLength t := by
  obtain ⟨before, after, rfl⟩ := within
  have more : 0 < (before ++ after).length := by
    rw [List.length_pos_iff]
    intro none
    obtain ⟨rfl, rfl⟩ := List.append_eq_nil_iff.1 none
    simp at other
  have bytes := length_le_byteLength (before ++ after)
  simp only [byteLength_append] at bytes ⊢
  omega

theorem pairwise_requirements (a : Artifact) : a.requirements.Pairwise fun r s =>
    r.asset.text <:+: s.asset.text → r.asset.text = s.asset.text := by
  have sorted : a.requirements.Pairwise fun r s =>
      decide (byteLength s.asset.text ≤ byteLength r.asset.text) = true :=
    List.pairwise_mergeSort (by simp; omega) (by simp; omega) _
  refine sorted.imp fun le within => ?_
  by_contra other
  have := byteLength_lt_of_infix within other
  simp at le
  omega

end PugWeave.Artifact
