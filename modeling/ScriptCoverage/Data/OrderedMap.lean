/-!
Finite maps as lists of entries with strictly ascending keys. Two maps with the
same look-ups are equal, so a map can be compared as a value.
-/

namespace ScriptCoverage

structure OrderedMap (κ α : Type) [Ord κ] where
  entries : List (κ × α)
  ascending : entries.Pairwise fun x y => compare x.1 y.1 = .lt

namespace OrderedMap

variable {κ α : Type} [Ord κ]

def empty : OrderedMap κ α := ⟨[], .nil⟩

instance : EmptyCollection (OrderedMap κ α) := ⟨empty⟩

instance : Inhabited (OrderedMap κ α) := ⟨empty⟩

instance [DecidableEq κ] [DecidableEq α] : DecidableEq (OrderedMap κ α) := fun x y =>
  if h : x.entries = y.entries then
    .isTrue (by cases x; cases y; cases h; rfl)
  else .isFalse fun e => h (congrArg entries e)

def find? (key : κ) : List (κ × α) → Option α
  | [] => none
  | (k, v) :: rest => if compare key k = .eq then some v else find? key rest

def get? (map : OrderedMap κ α) (key : κ) : Option α :=
  find? key map.entries

def contains (map : OrderedMap κ α) (key : κ) : Bool :=
  (map.get? key).isSome

def keys (map : OrderedMap κ α) : List κ :=
  map.entries.map (·.1)

def values (map : OrderedMap κ α) : List α :=
  map.entries.map (·.2)

def size (map : OrderedMap κ α) : Nat :=
  map.entries.length

def insertEntry (key : κ) (value : α) : List (κ × α) → List (κ × α)
  | [] => [(key, value)]
  | (k, v) :: rest =>
      match compare key k with
      | .lt => (key, value) :: (k, v) :: rest
      | .eq => (key, value) :: rest
      | .gt => (k, v) :: insertEntry key value rest

private theorem mem_insertEntry {key : κ} {value : α} {entry : κ × α} {entries : List (κ × α)}
    (h : entry ∈ insertEntry key value entries) : entry = (key, value) ∨ entry ∈ entries := by
  induction entries with
  | nil => simpa [insertEntry] using h
  | cons head rest ih =>
      obtain ⟨k, v⟩ := head
      unfold insertEntry at h
      split at h
      · simpa using h
      · rcases List.mem_cons.mp h with h | h
        · exact .inl h
        · exact .inr (List.mem_cons_of_mem _ h)
      · rcases List.mem_cons.mp h with h | h
        · exact .inr (h ▸ List.mem_cons_self)
        · exact (ih h).imp id (List.mem_cons_of_mem _)

private theorem insertEntry_ascending [Std.TransOrd κ] (key : κ) (value : α)
    {entries : List (κ × α)} (h : entries.Pairwise fun x y => compare x.1 y.1 = .lt) :
    (insertEntry key value entries).Pairwise fun x y => compare x.1 y.1 = .lt := by
  induction entries with
  | nil => simp [insertEntry]
  | cons head rest ih =>
      obtain ⟨k, v⟩ := head
      have ⟨hhead, hrest⟩ := List.pairwise_cons.mp h
      unfold insertEntry
      split
      · rename_i hlt
        refine List.pairwise_cons.mpr ⟨fun entry hmem => ?_, h⟩
        rcases List.mem_cons.mp hmem with rfl | hmem
        · exact hlt
        · exact Std.TransCmp.lt_trans hlt (hhead entry hmem)
      · rename_i heq
        exact List.pairwise_cons.mpr
          ⟨fun entry hmem => Std.TransCmp.lt_of_eq_of_lt heq (hhead entry hmem), hrest⟩
      · rename_i hgt
        refine List.pairwise_cons.mpr ⟨fun entry hmem => ?_, ih hrest⟩
        rcases mem_insertEntry hmem with rfl | hmem
        · exact Std.OrientedCmp.lt_of_gt hgt
        · exact hhead entry hmem

/-- Replaces the value of a key that has one. -/
def insert [Std.TransOrd κ] (map : OrderedMap κ α) (key : κ) (value : α) : OrderedMap κ α :=
  ⟨insertEntry key value map.entries, insertEntry_ascending key value map.ascending⟩

/-- Inserts the entries from left to right, so of equal keys the last counts. -/
def insertAll [Std.TransOrd κ] (map : OrderedMap κ α) (entries : List (κ × α)) :
    OrderedMap κ α :=
  entries.foldl (fun map (key, value) => map.insert key value) map

def erase (map : OrderedMap κ α) (key : κ) : OrderedMap κ α :=
  ⟨map.entries.filter fun entry => compare key entry.1 != .eq, map.ascending.filter _⟩

private theorem find?_insertEntry_self [Std.ReflOrd κ] (key : κ) (value : α)
    (entries : List (κ × α)) : find? key (insertEntry key value entries) = some value := by
  induction entries with
  | nil => simp [insertEntry, find?]
  | cons head rest ih =>
      obtain ⟨k, v⟩ := head
      unfold insertEntry
      split
      · simp [find?]
      · simp [find?]
      · rename_i hgt
        simpa [find?, hgt] using ih

private theorem find?_insertEntry_of_ne [Std.TransOrd κ] [Std.LawfulEqOrd κ] {key other : κ}
    (h : other ≠ key) (value : α) (entries : List (κ × α)) :
    find? other (insertEntry key value entries) = find? other entries := by
  have hne : compare other key ≠ .eq := fun e => h (Std.LawfulEqOrd.eq_of_compare e)
  induction entries with
  | nil => simp [insertEntry, find?, hne]
  | cons head rest ih =>
      obtain ⟨k, v⟩ := head
      unfold insertEntry
      split
      · simp [find?, hne]
      · rename_i heq
        have hk : key = k := Std.LawfulEqOrd.eq_of_compare heq
        subst hk
        simp [find?, hne]
      · simp only [find?, ih]

@[simp] theorem get?_empty (key : κ) : (empty : OrderedMap κ α).get? key = none := rfl

@[simp] theorem get?_insert_self [Std.TransOrd κ] (map : OrderedMap κ α) (key : κ) (value : α) :
    (map.insert key value).get? key = some value :=
  find?_insertEntry_self key value map.entries

theorem get?_insert_of_ne [Std.TransOrd κ] [Std.LawfulEqOrd κ] (map : OrderedMap κ α)
    {key other : κ} (h : other ≠ key) (value : α) :
    (map.insert key value).get? other = map.get? other :=
  find?_insertEntry_of_ne h value map.entries

private theorem find?_eq_none_of_lt [Std.TransOrd κ] {key : κ} {entries : List (κ × α)}
    (h : ∀ entry ∈ entries, compare key entry.1 = .lt) : find? key entries = none := by
  induction entries with
  | nil => rfl
  | cons head rest ih =>
      have hhead := h head List.mem_cons_self
      simp [find?, hhead, ih fun entry hmem => h entry (List.mem_cons_of_mem _ hmem)]

private theorem eq_of_find?_eq [Std.TransOrd κ] [Std.LawfulEqOrd κ] :
    {xs ys : List (κ × α)} → xs.Pairwise (fun x y => compare x.1 y.1 = .lt) →
      ys.Pairwise (fun x y => compare x.1 y.1 = .lt) →
      (∀ key, find? key xs = find? key ys) → xs = ys
  | [], [], _, _, _ => rfl
  | [], (k, v) :: ys, _, _, h => by simpa [find?] using h k
  | (k, v) :: xs, [], _, _, h => by simpa [find?] using h k
  | (k, v) :: xs, (l, w) :: ys, hx, hy, h => by
      have ⟨hxhead, hxrest⟩ := List.pairwise_cons.mp hx
      have ⟨hyhead, hyrest⟩ := List.pairwise_cons.mp hy
      have hkl : compare k l = .eq := by
        cases hc : compare k l with
        | eq => rfl
        | lt =>
            have hnone : find? k ((l, w) :: ys) = none :=
              find?_eq_none_of_lt fun entry hmem => by
                rcases List.mem_cons.mp hmem with rfl | hmem
                · exact hc
                · exact Std.TransCmp.lt_trans hc (hyhead entry hmem)
            have := h k
            rw [hnone] at this
            simp [find?] at this
        | gt =>
            have hlt : compare l k = .lt := Std.OrientedCmp.lt_of_gt hc
            have hnone : find? l ((k, v) :: xs) = none :=
              find?_eq_none_of_lt fun entry hmem => by
                rcases List.mem_cons.mp hmem with rfl | hmem
                · exact hlt
                · exact Std.TransCmp.lt_trans hlt (hxhead entry hmem)
            have := h l
            rw [hnone] at this
            simp [find?] at this
      have hkey : k = l := Std.LawfulEqOrd.eq_of_compare hkl
      subst hkey
      have hvalue : v = w := by simpa [find?] using h k
      subst hvalue
      have hrest : xs = ys := eq_of_find?_eq hxrest hyrest fun key => by
        by_cases hc : compare key k = .eq
        · have hk : key = k := Std.LawfulEqOrd.eq_of_compare hc
          subst hk
          rw [find?_eq_none_of_lt hxhead, find?_eq_none_of_lt hyhead]
        · simpa [find?, hc] using h key
      rw [hrest]

/-- Maps with the same look-ups are equal. -/
theorem ext_get? [Std.TransOrd κ] [Std.LawfulEqOrd κ] {x y : OrderedMap κ α}
    (h : ∀ key, x.get? key = y.get? key) : x = y := by
  have hentries := eq_of_find?_eq x.ascending y.ascending h
  cases x
  cases y
  cases hentries
  rfl

end OrderedMap

end ScriptCoverage
