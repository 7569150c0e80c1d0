import Mathlib.Algebra.BigOperators.Group.List.Basic
import Mathlib.Algebra.Group.Pi.Basic
import Mathlib.Algebra.Group.WithOne.Basic
import Mathlib.Data.List.Forall2
import ScriptCoverage.Proofs.Data.OrderedMap

/-!
What an ordered map holds for each key, with a zero adjoined for the keys that it
lacks. An entry that holds the number zero is not this zero, so maps that hold the same
amounts are equal, and adding maps key by key is adding functions.
-/

namespace ScriptCoverage.OrderedMap

variable {κ α M : Type} [Ord κ]

/-- What a map holds for a key, with zero for a key that it lacks. -/
def amount (value : α → M) (map : OrderedMap κ α) (key : κ) : WithZero M :=
  match map.get? key with
  | some held => (value held : WithZero M)
  | none => 0

theorem amount_of_some {value : α → M} {map : OrderedMap κ α} {key : κ} {held : α}
    (h : map.get? key = some held) : map.amount value key = (value held : WithZero M) := by
  rw [amount, h]

theorem amount_of_none {value : α → M} {map : OrderedMap κ α} {key : κ}
    (h : map.get? key = none) : map.amount value key = 0 := by
  rw [amount, h]

theorem amount_empty (value : α → M) : (∅ : OrderedMap κ α).amount value = 0 := by
  funext key
  exact amount_of_none rfl

variable [Std.TransOrd κ] [Std.LawfulEqOrd κ]

/-- Maps that hold the same amounts are equal. -/
theorem amount_injective {value : α → M} (hvalue : Function.Injective value) :
    Function.Injective (amount (κ := κ) value) := by
  intro x y heq
  apply ext_get?
  intro key
  have hkey := congrFun heq key
  unfold amount at hkey
  cases hx : x.get? key with
  | none =>
      cases hy : y.get? key with
      | none => rfl
      | some w => simp [hx, hy] at hkey
  | some v =>
      cases hy : y.get? key with
      | none => simp [hx, hy] at hkey
      | some w =>
          have hvw : value v = value w := by simpa [hx, hy] using hkey
          rw [hvalue hvw]

omit [Std.TransOrd κ] [Std.LawfulEqOrd κ] in
theorem amount_eq_coe_iff {value : α → M} (hvalue : Function.Injective value)
    {map : OrderedMap κ α} {key : κ} {held : α} :
    map.amount value key = (value held : WithZero M) ↔ map.get? key = some held := by
  unfold amount
  cases map.get? key with
  | none => simp
  | some other => simp [hvalue.eq_iff]

private theorem exists_mem_of_forall₂ {β γ : Type} {R : β → γ → Prop} {xs : List β}
    {ys : List γ} (h : List.Forall₂ R xs ys) {x : β} (member : x ∈ xs) : ∃ y ∈ ys, R x y := by
  induction h with
  | nil => simp at member
  | cons hhead _ ih =>
      rcases List.mem_cons.mp member with rfl | hmem
      · exact ⟨_, List.mem_cons_self, hhead⟩
      · obtain ⟨y, hy, hxy⟩ := ih hmem
        exact ⟨y, List.mem_cons_of_mem _ hy, hxy⟩

/-- Writing the sum of each entry adds one map's amounts to the other's. -/
theorem amount_insertAll [Add M] {value : α → M} {base more : OrderedMap κ α}
    {sums : List (κ × α)}
    (hsums : List.Forall₂ (fun entry sum => sum.1 = entry.1 ∧
      (value sum.2 : WithZero M) = base.amount value entry.1 + value entry.2)
      more.entries sums) :
    (base.insertAll sums).amount value = base.amount value + more.amount value := by
  have hkeys : sums.map (·.1) = more.keys := by
    have hsame : List.Forall₂ (fun entry sum => entry.1 = sum.1) more.entries sums :=
      hsums.imp fun _ _ h => h.1.symm
    exact (List.forall₂_eq_eq_eq ▸ List.forall₂_map_left_iff.mpr
      (List.forall₂_map_right_iff.mpr hsame) : more.keys = sums.map (·.1)).symm
  funext key
  rw [Pi.add_apply]
  cases hmore : more.get? key with
  | none =>
      have habsent : key ∉ sums.map (·.1) := hkeys ▸ get?_eq_none_iff.mp hmore
      rw [amount_of_none hmore, add_zero, amount, get?_insertAll_of_notMem habsent]
      rfl
  | some held =>
      obtain ⟨⟨k, total⟩, hmem, hkey, htotal⟩ :=
        exists_mem_of_forall₂ hsums (get?_eq_some_iff.mp hmore)
      have hkey : k = key := hkey
      subst hkey
      have hdistinct : (sums.map (·.1)).Nodup := hkeys ▸ more.keys_nodup
      rw [amount_of_some (get?_insertAll_of_mem hdistinct hmem base), amount_of_some hmore]
      exact htotal

/-- Replacing an entry by its sum with an amount adds the amount at its key. -/
theorem amount_insert_add [AddZeroClass M] [DecidableEq κ] {value : α → M}
    {map : OrderedMap κ α} {key : κ} {sum : α} {added : M}
    (hsum : (value sum : WithZero M) = map.amount value key + added) :
    (map.insert key sum).amount value = map.amount value + Pi.single key (added : WithZero M) := by
  funext other
  rw [Pi.add_apply]
  by_cases hkey : other = key
  · subst hkey
    rw [amount_of_some (get?_insert_self map other sum), Pi.single_eq_same]
    exact hsum
  · rw [Pi.single_eq_of_ne hkey, add_zero, amount, get?_insert_of_ne map hkey]
    rfl

/-- A map is the sum of its entries. -/
theorem sum_entries [AddMonoid M] [DecidableEq κ] (value : α → M) (map : OrderedMap κ α) :
    (map.entries.map fun entry => Pi.single entry.1 (value entry.2 : WithZero M)).sum =
      map.amount value := by
  suffices hlist : ∀ entries : List (κ × α), (entries.map (·.1)).Nodup →
      ∀ key, (entries.map fun entry => Pi.single entry.1 (value entry.2 : WithZero M)).sum key =
        match find? key entries with
        | some held => (value held : WithZero M)
        | none => 0 from
    funext fun key => hlist map.entries map.keys_nodup key
  intro entries hdistinct key
  induction entries with
  | nil => rfl
  | cons head rest ih =>
      obtain ⟨k, v⟩ := head
      obtain ⟨hhead, hrest⟩ := List.nodup_cons.mp hdistinct
      rw [List.map_cons, List.sum_cons, Pi.add_apply, ih hrest]
      by_cases hkey : key = k
      · subst hkey
        have hnone : find? key rest = none := by
          cases hfind : find? key rest with
          | none => rfl
          | some w => exact absurd (List.mem_map.mpr ⟨_, mem_of_find? hfind, rfl⟩) hhead
        rw [hnone, Pi.single_eq_same, add_zero]
        simp [find?]
      · have hcompare : compare key k ≠ .eq := fun heq =>
          hkey (Std.LawfulEqOrd.eq_of_compare heq)
        rw [Pi.single_eq_of_ne hkey, zero_add]
        simp only [find?, hcompare, if_false]

end ScriptCoverage.OrderedMap
