import Mathlib.Data.List.Sort

/-!
Stable sorting by a key. The order of the keys and the order of the items under each key
determine the sorted list, so items can be taken out before the sort as well as behind it.
-/

namespace ScriptCoverage

variable {α κ : Type} [DecidableEq κ]

/-- Lists that agree under each key have the same items. -/
theorem mem_iff_of_filter_eq {key : α → κ} {xs ys : List α}
    (h : ∀ k, (xs.filter fun x => key x = k) = ys.filter fun x => key x = k) (x : α) :
    x ∈ xs ↔ x ∈ ys := by
  have hkey : x ∈ (xs.filter fun y => key y = key x) ↔ x ∈ ys.filter fun y => key y = key x := by
    rw [h (key x)]
  simpa using hkey

variable [LE κ]

/-- The items by ascending key; items of one key keep their order. -/
structure IsStableSort (key : α → κ) (items sorted : List α) : Prop where
  perm : sorted.Perm items
  ordered : sorted.Pairwise fun x y => key x ≤ key y
  stable : ∀ k, (sorted.filter fun x => key x = k) = items.filter fun x => key x = k

namespace IsStableSort

variable {key : α → κ} {items sorted : List α}

theorem filter (h : IsStableSort key items sorted) (keep : α → Bool) :
    IsStableSort key (items.filter keep) (sorted.filter keep) where
  perm := h.perm.filter keep
  ordered := h.ordered.filter keep
  stable := by
    intro k
    rw [List.filter_comm, h.stable k, List.filter_comm]

variable [Std.IsLinearOrder κ]

/-- Lists in the order of their keys are equal if they agree under each key. -/
theorem eq_of_filter_eq {xs ys : List α} (hxs : xs.Pairwise fun x y => key x ≤ key y)
    (hys : ys.Pairwise fun x y => key x ≤ key y)
    (h : ∀ k, (xs.filter fun x => key x = k) = ys.filter fun x => key x = k) : xs = ys := by
  induction xs generalizing ys with
  | nil =>
      refine (List.eq_nil_iff_forall_not_mem.mpr fun y hy => ?_).symm
      exact List.not_mem_nil ((mem_iff_of_filter_eq h y).mpr hy)
  | cons x xs ih =>
      have hmem := mem_iff_of_filter_eq h
      obtain ⟨y, ys, rfl⟩ : ∃ y rest, ys = y :: rest :=
        List.exists_cons_of_ne_nil (List.ne_nil_of_mem ((hmem x).mp List.mem_cons_self))
      obtain ⟨hx, hxs'⟩ := List.pairwise_cons.mp hxs
      obtain ⟨hy, hys'⟩ := List.pairwise_cons.mp hys
      -- neither head comes behind the other, so they have one key
      have hkey : key x = key y := by
        refine Std.le_antisymm ?_ ?_
        · rcases List.mem_cons.mp ((hmem y).mpr List.mem_cons_self) with rfl | hlater
          · exact Std.le_refl _
          · exact hx y hlater
        · rcases List.mem_cons.mp ((hmem x).mp List.mem_cons_self) with rfl | hlater
          · exact Std.le_refl _
          · exact hy x hlater
      have hhead := h (key x)
      simp only [List.filter_cons, hkey, decide_true, if_true, List.cons.injEq] at hhead
      obtain ⟨rfl, -⟩ := hhead
      have htail : ∀ k, (xs.filter fun x => key x = k) = ys.filter fun x => key x = k := by
        intro k
        have hk := h k
        rw [List.filter_cons, List.filter_cons] at hk
        split at hk
        · exact (List.cons.inj hk).2
        · exact hk
      rw [ih hxs' hys' htail]

theorem unique {other : List α} (h : IsStableSort key items sorted)
    (hother : IsStableSort key items other) : sorted = other :=
  eq_of_filter_eq h.ordered hother.ordered fun k => (h.stable k).trans (hother.stable k).symm

variable [DecidableLE κ]

theorem of_mergeSort (key : α → κ) (items : List α) :
    IsStableSort key items (items.mergeSort fun x y => key x ≤ key y) := by
  have trans (x y z : α) : decide (key x ≤ key y) = true → decide (key y ≤ key z) = true →
      decide (key x ≤ key z) = true := by
    simpa using Std.le_trans
  have total (x y : α) : (decide (key x ≤ key y) || decide (key y ≤ key x)) = true := by
    simpa using Std.le_total
  have hperm := List.mergeSort_perm items fun x y => decide (key x ≤ key y)
  refine ⟨hperm, ?_, fun k => ?_⟩
  · exact (List.pairwise_mergeSort trans total items).imp of_decide_eq_true
  · -- items of one key are in order already, so the sort leaves them in theirs
    have hequal : (items.filter fun x => key x = k).Pairwise
        fun x y => decide (key x ≤ key y) = true := by
      refine List.pairwise_of_forall_mem_list fun x hx y hy => ?_
      rw [List.mem_filter, decide_eq_true_eq] at hx hy
      rw [hx.2, hy.2, decide_eq_true_eq]
      exact Std.le_refl k
    have hsublist := (List.sublist_mergeSort trans total hequal List.filter_sublist).filter
      fun x => key x = k
    rw [List.filter_filter] at hsublist
    simp only [Bool.and_self] at hsublist
    exact (hsublist.eq_of_length (hperm.filter _).length_eq.symm).symm

theorem iff_eq_mergeSort :
    IsStableSort key items sorted ↔ sorted = items.mergeSort fun x y => key x ≤ key y := by
  constructor
  · intro h
    exact h.unique (of_mergeSort key items)
  · rintro rfl
    exact of_mergeSort key items

/-- Items that are taken out leave the others in their places. -/
theorem mergeSort_filter (key : α → κ) (keep : α → Bool) (items : List α) :
    ((items.filter keep).mergeSort fun x y => key x ≤ key y) =
      (items.mergeSort fun x y => key x ≤ key y).filter keep :=
  (iff_eq_mergeSort.mp ((of_mergeSort key items).filter keep)).symm

end IsStableSort

end ScriptCoverage
