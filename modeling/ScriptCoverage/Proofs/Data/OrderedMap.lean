import Mathlib.Data.List.Nodup
import ScriptCoverage.Data.OrderedMap

/-!
Look-ups of an ordered map against its list of entries, and the look-ups that an
insertion or a list of insertions leaves behind.
-/

namespace ScriptCoverage.OrderedMap

variable {κ α : Type} [Ord κ] [Std.TransOrd κ] [Std.LawfulEqOrd κ]

private theorem find?_of_mem {key : κ} {value : α} {entries : List (κ × α)}
    (ascending : entries.Pairwise fun x y => compare x.1 y.1 = .lt)
    (member : (key, value) ∈ entries) : find? key entries = some value := by
  induction entries with
  | nil => simp at member
  | cons head rest ih =>
      obtain ⟨k, v⟩ := head
      have ⟨hhead, hrest⟩ := List.pairwise_cons.mp ascending
      rcases List.mem_cons.mp member with heq | hmem
      · cases heq
        simp [find?]
      · have hgt : compare key k = .gt := Std.OrientedCmp.gt_of_lt (hhead _ hmem)
        simp only [find?, hgt, reduceCtorEq, if_false]
        exact ih hrest hmem

omit [Std.TransOrd κ] in
theorem mem_of_find? {key : κ} {value : α} {entries : List (κ × α)}
    (found : find? key entries = some value) : (key, value) ∈ entries := by
  induction entries with
  | nil => simp [find?] at found
  | cons head rest ih =>
      obtain ⟨k, v⟩ := head
      unfold find? at found
      split at found
      · rename_i heq
        have hkey : key = k := Std.LawfulEqOrd.eq_of_compare heq
        have hvalue : v = value := by simpa using found
        simp [hkey, hvalue]
      · exact List.mem_cons_of_mem _ (ih found)

/-- A look-up reads the one entry of its key. -/
theorem get?_eq_some_iff {map : OrderedMap κ α} {key : κ} {value : α} :
    map.get? key = some value ↔ (key, value) ∈ map.entries :=
  ⟨mem_of_find?, find?_of_mem map.ascending⟩

theorem get?_eq_none_iff {map : OrderedMap κ α} {key : κ} :
    map.get? key = none ↔ key ∉ map.keys := by
  constructor
  · intro hnone hmem
    obtain ⟨⟨k, v⟩, hentry, hkey⟩ := List.mem_map.mp hmem
    have hkey : k = key := hkey
    subst hkey
    have hsome := get?_eq_some_iff.mpr hentry
    rw [hnone] at hsome
    cases hsome
  · intro habsent
    cases hget : map.get? key with
    | none => rfl
    | some value =>
        exact absurd (List.mem_map.mpr ⟨_, get?_eq_some_iff.mp hget, rfl⟩) habsent

theorem mem_keys_of_get? {map : OrderedMap κ α} {key : κ} {value : α}
    (held : map.get? key = some value) : key ∈ map.keys :=
  List.mem_map.mpr ⟨_, get?_eq_some_iff.mp held, rfl⟩

theorem contains_eq_true_iff {map : OrderedMap κ α} {key : κ} :
    map.contains key = true ↔ key ∈ map.keys := by
  rw [← not_iff_not, ← get?_eq_none_iff, Bool.not_eq_true]
  exact Option.isSome_eq_false_iff.trans Option.isNone_iff_eq_none

omit [Std.LawfulEqOrd κ] in
theorem keys_nodup (map : OrderedMap κ α) : map.keys.Nodup := by
  have hkeys : map.keys.Pairwise fun x y => compare x y = .lt :=
    List.pairwise_map.mpr map.ascending
  refine hkeys.imp fun {x y} hlt heq => ?_
  subst heq
  have hself : compare x x = .eq := Std.ReflCmp.compare_self
  rw [hself] at hlt
  cases hlt

theorem get?_insert [DecidableEq κ] (map : OrderedMap κ α) (key other : κ) (value : α) :
    (map.insert key value).get? other = if other = key then some value else map.get? other := by
  split
  · rename_i heq
    rw [heq, get?_insert_self]
  · rename_i hne
    exact get?_insert_of_ne map hne value

/-- Writing back what a key holds changes nothing. -/
theorem insert_of_get? {map : OrderedMap κ α} {key : κ} {value : α}
    (held : map.get? key = some value) : map.insert key value = map := by
  apply ext_get?
  intro other
  by_cases heq : other = key
  · rw [heq, get?_insert_self, held]
  · exact get?_insert_of_ne map heq value

omit [Std.TransOrd κ] [Std.LawfulEqOrd κ] in
@[simp] theorem get?_emptyCollection (key : κ) : (∅ : OrderedMap κ α).get? key = none := rfl

omit [Std.LawfulEqOrd κ] in
theorem entries_insert_empty (key : κ) (value : α) :
    ((∅ : OrderedMap κ α).insert key value).entries = [(key, value)] := rfl

theorem get?_insertAll_of_notMem {key : κ} {entries : List (κ × α)}
    (absent : key ∉ entries.map (·.1)) (map : OrderedMap κ α) :
    (map.insertAll entries).get? key = map.get? key := by
  induction entries generalizing map with
  | nil => rfl
  | cons head rest ih =>
      obtain ⟨k, v⟩ := head
      simp only [List.map_cons, List.mem_cons, not_or] at absent
      obtain ⟨hne, hrest⟩ := absent
      rw [show map.insertAll ((k, v) :: rest) = (map.insert k v).insertAll rest from rfl,
        ih hrest, get?_insert_of_ne map hne]

theorem get?_insertAll_of_mem {key : κ} {value : α} {entries : List (κ × α)}
    (distinct : (entries.map (·.1)).Nodup) (member : (key, value) ∈ entries)
    (map : OrderedMap κ α) : (map.insertAll entries).get? key = some value := by
  induction entries generalizing map with
  | nil => simp at member
  | cons head rest ih =>
      obtain ⟨k, v⟩ := head
      obtain ⟨hhead, hrest⟩ := List.nodup_cons.mp distinct
      rw [show map.insertAll ((k, v) :: rest) = (map.insert k v).insertAll rest from rfl]
      rcases List.mem_cons.mp member with heq | hmem
      · cases heq
        rw [get?_insertAll_of_notMem hhead, get?_insert_self]
      · exact ih hrest hmem _

/-- The entries whose value passes. -/
def filterValues (p : α → Bool) (map : OrderedMap κ α) : OrderedMap κ α :=
  ⟨map.entries.filter fun entry => p entry.2, map.ascending.filter _⟩

theorem get?_filterValues (p : α → Bool) (map : OrderedMap κ α) (key : κ) :
    (map.filterValues p).get? key = (map.get? key).filter p := by
  ext value
  rw [get?_eq_some_iff, Option.filter_eq_some_iff, get?_eq_some_iff]
  exact List.mem_filter

theorem filterValues_of_forall {p : α → Bool} {map : OrderedMap κ α}
    (h : ∀ key value, map.get? key = some value → p value = true) :
    map.filterValues p = map := by
  apply ext_get?
  intro key
  rw [get?_filterValues]
  cases hget : map.get? key with
  | none => rfl
  | some value => rw [Option.filter_some, if_pos (h key value hget)]

/-- The map with every value changed in the light of its key. -/
def mapEntries {β : Type} (f : κ → α → β) (map : OrderedMap κ α) : OrderedMap κ β :=
  ⟨map.entries.map fun entry => (entry.1, f entry.1 entry.2),
    List.pairwise_map.mpr map.ascending⟩

omit [Std.TransOrd κ] in
theorem get?_mapEntries {β : Type} (f : κ → α → β) (map : OrderedMap κ α) (key : κ) :
    (map.mapEntries f).get? key = (map.get? key).map (f key) := by
  obtain ⟨entries, ascending⟩ := map
  change find? key (entries.map fun entry => (entry.1, f entry.1 entry.2)) =
    (find? key entries).map (f key)
  clear ascending
  induction entries with
  | nil => rfl
  | cons head rest ih =>
      obtain ⟨k, v⟩ := head
      rw [List.map_cons, find?, find?]
      split
      · rename_i heq
        rw [Std.LawfulEqOrd.eq_of_compare heq, Option.map_some]
      · exact ih

end ScriptCoverage.OrderedMap
