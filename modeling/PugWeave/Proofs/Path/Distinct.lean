import Mathlib.Data.List.Induction
import Mathlib.Data.List.Nodup
import PugWeave.Path.Basic

namespace PugWeave.Path

theorem any_same_iff {paths : List Path} {p : Path} :
    paths.any p.same = true ↔ p.components ∈ paths.map components := by
  simp [same_iff, eq_comm (a := p.components)]

theorem nodup_addNew {paths : List Path} (h : (paths.map components).Nodup) (p : Path) :
    ((addNew paths p).map components).Nodup := by
  rw [addNew]
  split
  · exact h
  · rename_i new
    rw [any_same_iff] at new
    rw [List.map_append, List.nodup_append]
    refine ⟨h, by simp, ?_⟩
    intro c hc d hd same
    rw [List.map_singleton, List.mem_singleton] at hd
    exact new (hd ▸ same ▸ hc)

theorem nodup_foldl_addNew (paths : List Path) {kept : List Path}
    (h : (kept.map components).Nodup) : ((paths.foldl addNew kept).map components).Nodup := by
  induction paths generalizing kept with
  | nil => exact h
  | cons p rest ih => exact ih (nodup_addNew h p)

theorem nodup_distinct (paths : List Path) : ((distinct paths).map components).Nodup :=
  nodup_foldl_addNew paths List.nodup_nil

theorem any_same_foldl_addNew (paths kept : List Path) (p : Path) :
    (paths.foldl addNew kept).any p.same = true ↔
      kept.any p.same = true ∨ paths.any p.same = true := by
  induction paths generalizing kept with
  | nil => simp
  | cons q rest ih =>
    have step : (addNew kept q).any p.same = true ↔ kept.any p.same = true ∨ p.same q = true := by
      rw [addNew]
      split
      · rename_i known
        simp only [any_same_iff] at known ⊢
        constructor
        · exact .inl
        · rintro (h | h)
          · exact h
          · rwa [same_iff.1 h]
      · simp
    rw [List.foldl_cons, ih, step, List.any_cons, Bool.or_eq_true, or_assoc]

theorem any_same_distinct (paths : List Path) (p : Path) :
    (distinct paths).any p.same = paths.any p.same := by
  rw [Bool.eq_iff_iff]
  exact (any_same_foldl_addNew paths [] p).trans (by simp)

theorem any_same_congr (paths : List Path) {p q : Path} (h : p.components = q.components) :
    paths.any p.same = paths.any q.same := by
  rw [Bool.eq_iff_iff, any_same_iff, any_same_iff, h]

theorem mem_map_filter_distinct {paths : List Path} {f : Path → Bool}
    (congr : ∀ {p q : Path}, p.components = q.components → f p = f q) {p : Path} :
    p.components ∈ ((distinct paths).filter f).map components ↔
      f p = true ∧ paths.any p.same = true := by
  rw [← any_same_distinct, List.any_eq_true, List.mem_map]
  constructor
  · rintro ⟨q, hq, same⟩
    obtain ⟨mem, holds⟩ := List.mem_filter.1 hq
    exact ⟨(congr same).symm.trans holds, q, mem, same_iff.2 same.symm⟩
  · rintro ⟨holds, q, hq, same⟩
    exact ⟨q, List.mem_filter.2 ⟨hq, (congr (same_iff.1 same)).symm.trans holds⟩,
      (same_iff.1 same).symm⟩

theorem length_filter_distinct {paths others : List Path} {f g : Path → Bool}
    (hf : ∀ {p q : Path}, p.components = q.components → f p = f q)
    (hg : ∀ {p q : Path}, p.components = q.components → g p = g q)
    (h : ∀ p : Path, (f p = true ∧ paths.any p.same = true) ↔
      (g p = true ∧ others.any p.same = true)) :
    ((distinct paths).filter f).length = ((distinct others).filter g).length := by
  have nodup (paths : List Path) (f : Path → Bool) :
      (((distinct paths).filter f).map components).Nodup :=
    (nodup_distinct paths).sublist (List.filter_sublist.map _)
  have perm : (((distinct paths).filter f).map components).Perm
      (((distinct others).filter g).map components) := by
    refine (List.perm_ext_iff_of_nodup (nodup _ _) (nodup _ _)).2 fun c => ⟨fun hc => ?_, fun hc => ?_⟩
    all_goals
      obtain ⟨p, -, rfl⟩ := List.mem_map.1 hc
    · rw [mem_map_filter_distinct hf] at hc
      exact (mem_map_filter_distinct hg).2 ((h p).1 hc)
    · rw [mem_map_filter_distinct hg] at hc
      exact (mem_map_filter_distinct hf).2 ((h p).2 hc)
  simpa using perm.length_eq

theorem distinct_concat (paths : List Path) (p : Path) :
    distinct (paths ++ [p]) = if paths.any p.same then distinct paths else distinct paths ++ [p] := by
  rw [← any_same_distinct, distinct, List.foldl_append]
  rfl

theorem countP_same (paths : List Path) (p : Path) :
    paths.countP p.same = (paths.map components).count p.components := by
  rw [List.count, List.countP_map]
  refine List.countP_congr fun q _ => ?_
  rw [same_iff, Function.comp_apply, beq_iff_eq]
  exact eq_comm

theorem countP_distinct (paths : List Path) (p : Path) :
    (distinct paths).countP p.same = if paths.any p.same then 1 else 0 := by
  rw [countP_same, (nodup_distinct paths).count, ← any_same_distinct]
  simp only [any_same_iff]

end PugWeave.Path
