import ScriptCoverage.Proofs.Coverage.AddressTable

/-!
The address table entry by entry. An address comes from the script, from the hits, from the
outcomes of branches, or from several of them. The table has one entry for each, which is the
entry of the instruction if one starts there and the entry of the counters otherwise; filling
a map in two passes, instructions first and recorded addresses over them, leaves the same.
-/

namespace ScriptCoverage

namespace Recording

/-- An instruction of the attached script starts at an address. -/
def StartsAt (recording : Recording) (address : UInt32) (insn : Instruction) : Prop :=
  ∃ script, recording.script = some script ∧ address ∈ script.addresses ∧
    Instruction.decodeAt script.bytes address.toNat = .ok insn

/-- Something was recorded at an address, if only zeros. -/
def RecordedAt (recording : Recording) (address : UInt32) : Prop :=
  address ∈ recording.counters.hits.keys ∨ address ∈ recording.counters.branches.keys

instance (recording : Recording) (address : UInt32) : Decidable (recording.RecordedAt address) :=
  inferInstanceAs (Decidable (_ ∨ _))

/-- A jump or call starts at an address, or outcomes were recorded there. -/
def BranchesAt (recording : Recording) (address : UInt32) : Prop :=
  (∃ insn, recording.StartsAt address insn ∧ insn.isBranch = true) ∨
    address ∈ recording.counters.branches.keys

theorem startsAt_iff {recording : Recording} {address : UInt32} {insn : Instruction} :
    recording.StartsAt address insn ↔
      ∃ script, recording.script = some script ∧ (address, insn) ∈ script.listing := by
  constructor
  · rintro ⟨script, hscript, haddress, hdecoded⟩
    obtain ⟨⟨start, insn'⟩, hmem, rfl⟩ := List.mem_map.mp haddress
    rw [script.decodeAt_of_mem_listing _ hmem] at hdecoded
    cases hdecoded
    exact ⟨script, hscript, hmem⟩
  · rintro ⟨script, hscript, hmem⟩
    exact ⟨script, hscript, List.mem_map_of_mem hmem, script.decodeAt_of_mem_listing _ hmem⟩

theorem StartsAt.unique {recording : Recording} {address : UInt32} {insn insn' : Instruction}
    (h : recording.StartsAt address insn) (h' : recording.StartsAt address insn') :
    insn = insn' := by
  obtain ⟨script, hscript, -, hdecoded⟩ := h
  obtain ⟨script', hscript', -, hdecoded'⟩ := h'
  rw [hscript] at hscript'
  cases hscript'
  rw [hdecoded] at hdecoded'
  exact Except.ok.inj hdecoded'

end Recording

/-- An entry shows what is known of its address: the hits or 0, an opcode exactly where an
instruction starts, and outcomes or zeros exactly where a branch stands or was recorded. -/
structure AddressCoverage.IsExact (recording : Recording) (entry : AddressCoverage) : Prop where
  hitCount : entry.hitCount = (recording.counters.hits.get? entry.address).getD 0
  opcode : ∀ op, entry.opcode = some op ↔
    ∃ insn, recording.StartsAt entry.address insn ∧ insn.opcode = op
  branch : ∀ count, entry.branch = some count ↔ recording.BranchesAt entry.address ∧
    count = (recording.counters.branches.get? entry.address).getD .zero

/-- A table holds one exact entry for every address that the script, the hits or the outcomes
mention, by ascending address. -/
structure Recording.Tabulates (recording : Recording) (table : List AddressCoverage) : Prop where
  ascending : (table.map (·.address)).Pairwise (· < ·)
  complete : ∀ address, address ∈ table.map (·.address) ↔
    (∃ insn, recording.StartsAt address insn) ∨ recording.RecordedAt address
  exact : ∀ entry ∈ table, entry.IsExact recording

namespace CoverageTree

variable {recording : Recording} {entry : AddressCoverage}

/-- The entries that belong into the table: an instruction takes precedence over what was
recorded at its address. -/
inductive IsEntry (recording : Recording) : AddressCoverage → Prop where
  | instruction {address : UInt32} {insn : Instruction}
      (starts : recording.StartsAt address insn) :
      IsEntry recording (addressOfInstruction recording.counters address insn)
  | record {address : UInt32} (recorded : recording.RecordedAt address)
      (starts : ∀ insn, ¬recording.StartsAt address insn) :
      IsEntry recording (addressOfRecord recording.counters address)

/-- The entry of an instruction shows outcomes if the instruction branches or if some were
recorded. -/
theorem isExact_addressOfInstruction {address : UInt32} {insn : Instruction}
    (starts : recording.StartsAt address insn) :
    (addressOfInstruction recording.counters address insn).IsExact recording where
  hitCount := rfl
  opcode := by
    intro op
    constructor
    · intro hop
      exact ⟨insn, starts, Option.some.inj hop⟩
    · rintro ⟨insn', starts', rfl⟩
      rw [starts'.unique starts]
      rfl
  branch := by
    intro count
    have hbranches : (insn.isBranch || recording.counters.branches.contains address) = true ↔
        recording.BranchesAt address := by
      rw [Bool.or_eq_true, OrderedMap.contains_eq_true_iff]
      refine or_congr_left ⟨fun hbranch => ⟨insn, starts, hbranch⟩, ?_⟩
      rintro ⟨insn', starts', hbranch⟩
      rwa [starts.unique starts']
    change (if _ then some (recording.counters.branchCount address) else none) = some count ↔ _
    split
    · rename_i hshown
      rw [Option.some.injEq, eq_comm]
      exact (and_iff_right (hbranches.mp hshown)).symm
    · rename_i hhidden
      constructor
      · intro hnone
        cases hnone
      · rintro ⟨hbranch, -⟩
        exact absurd (hbranches.mpr hbranch) hhidden

/-- Where no instruction starts, an entry shows the outcomes that were recorded. -/
theorem isExact_addressOfRecord {address : UInt32}
    (starts : ∀ insn, ¬recording.StartsAt address insn) :
    (addressOfRecord recording.counters address).IsExact recording where
  hitCount := rfl
  opcode := by
    intro op
    constructor
    · intro hop
      cases hop
    · rintro ⟨insn, hstarts, -⟩
      exact absurd hstarts (starts insn)
  branch := by
    intro count
    have hbranches : recording.BranchesAt address ↔
        address ∈ recording.counters.branches.keys :=
      or_iff_right fun ⟨insn, hstarts, _⟩ => starts insn hstarts
    change recording.counters.branches.get? address = some count ↔
      recording.BranchesAt address ∧
        count = (recording.counters.branches.get? address).getD .zero
    rw [hbranches]
    cases hget : recording.counters.branches.get? address with
    | none => simp [OrderedMap.get?_eq_none_iff.mp hget]
    | some recorded =>
        have hkey : address ∈ recording.counters.branches.keys :=
          List.mem_map.mpr ⟨_, OrderedMap.get?_eq_some_iff.mp hget, rfl⟩
        simp [hkey, eq_comm]

theorem IsEntry.isExact (h : IsEntry recording entry) : entry.IsExact recording := by
  cases h with
  | instruction starts => exact isExact_addressOfInstruction starts
  | record recorded starts => exact isExact_addressOfRecord starts

theorem exists_isEntry_iff {address : UInt32} :
    (∃ entry, IsEntry recording entry ∧ entry.address = address) ↔
      (∃ insn, recording.StartsAt address insn) ∨ recording.RecordedAt address := by
  constructor
  · rintro ⟨entry, hentry, rfl⟩
    cases hentry with
    | instruction starts => exact .inl ⟨_, starts⟩
    | record recorded starts => exact .inr recorded
  · intro hknown
    by_cases hstarts : ∃ insn, recording.StartsAt address insn
    · obtain ⟨insn, hstarts⟩ := hstarts
      exact ⟨_, .instruction hstarts, rfl⟩
    · have hrecorded := hknown.resolve_left hstarts
      exact ⟨_, .record hrecorded (not_exists.mp hstarts), rfl⟩

/-- An ascending list of the entries that belong into the table is a table. -/
theorem tabulates_of_isEntry {table : List AddressCoverage}
    (ascending : table.Pairwise fun x y => x.address < y.address)
    (mem_iff : ∀ entry, entry ∈ table ↔ IsEntry recording entry) :
    recording.Tabulates table where
  ascending := List.pairwise_map.mpr ascending
  complete := by
    intro address
    rw [← exists_isEntry_iff, List.mem_map]
    exact exists_congr fun entry => and_congr_left' (mem_iff entry)
  exact := fun entry hmem => ((mem_iff entry).mp hmem).isExact

theorem mem_addressTable_of_startsAt {address : UInt32} {insn : Instruction}
    (starts : recording.StartsAt address insn) :
    addressOfInstruction recording.counters address insn ∈ addressTable recording := by
  obtain ⟨script, hscript, hmem⟩ := Recording.startsAt_iff.mp starts
  refine mem_mergeRecorded_of_mem (mem_mergeRecorded_of_mem ?_)
  simp only [hscript]
  exact List.mem_map.mpr ⟨_, hmem, rfl⟩

theorem eq_of_mem_addressTable {entry' : AddressCoverage}
    (h : entry ∈ addressTable recording) (h' : entry' ∈ addressTable recording)
    (same : entry.address = entry'.address) : entry = entry' :=
  List.inj_on_of_nodup_map (addresses_nodup recording) h h' same

theorem isEntry_of_mem_addressTable (h : entry ∈ addressTable recording) :
    IsEntry recording entry := by
  rcases origin_of_mem_addressTable h with
    ⟨script, address, insn, hscript, hmem, rfl⟩ | ⟨address, recorded, rfl⟩
  · exact .instruction (Recording.startsAt_iff.mpr ⟨script, hscript, hmem⟩)
  · refine .record recorded fun insn starts => ?_
    -- The entry of the instruction is in the table too, and it has an opcode.
    have hsame := eq_of_mem_addressTable h (mem_addressTable_of_startsAt starts) rfl
    cases congrArg AddressCoverage.opcode hsame

theorem mem_addressTable_iff :
    entry ∈ addressTable recording ↔ IsEntry recording entry := by
  refine ⟨isEntry_of_mem_addressTable, fun hentry => ?_⟩
  cases hentry with
  | instruction starts => exact mem_addressTable_of_startsAt starts
  | record recorded starts =>
      obtain ⟨entry, hmem, haddress⟩ := exists_entry_of_mem_keys recorded
      cases isEntry_of_mem_addressTable hmem with
      | instruction starts' =>
          cases haddress
          exact absurd starts' (starts _)
      | record recorded' starts' =>
          cases haddress
          exact hmem

/-- The first pass of filling a map: an entry for each instruction, with outcomes where it
branches. -/
def fillInstructions (counters : Counters) (listing : List (UInt32 × Instruction)) :
    OrderedMap UInt32 AddressCoverage :=
  (∅ : OrderedMap UInt32 AddressCoverage).insertAll (listing.map fun (address, insn) =>
    (address, {
      address
      opcode := some insn.opcode
      hitCount := counters.hitCount address
      branch := if insn.isBranch then some (counters.branchCount address) else none }))

/-- The entry of a recorded address, on top of the one that is there already. -/
def recordOver (counters : Counters) (address : UInt32) (held : Option AddressCoverage) :
    AddressCoverage :=
  let entry := held.getD ⟨address, none, counters.hitCount address, none⟩
  if counters.branches.contains address then
    { entry with branch := some (counters.branchCount address) }
  else entry

/-- The second pass, over recorded addresses. -/
def fillRecorded (counters : Counters) (table : OrderedMap UInt32 AddressCoverage)
    (addresses : List UInt32) : OrderedMap UInt32 AddressCoverage :=
  addresses.foldl (fun table address =>
    table.insert address (recordOver counters address (table.get? address))) table

theorem recordOver_recordOver (counters : Counters) (address : UInt32)
    (held : Option AddressCoverage) :
    recordOver counters address (some (recordOver counters address held)) =
      recordOver counters address held := by
  unfold recordOver
  split <;> rfl

/-- An address is written once or more often, which makes no difference. -/
theorem get?_fillRecorded (counters : Counters) (table : OrderedMap UInt32 AddressCoverage)
    (addresses : List UInt32) (address : UInt32) :
    (fillRecorded counters table addresses).get? address =
      if address ∈ addresses then some (recordOver counters address (table.get? address))
      else table.get? address := by
  induction addresses generalizing table with
  | nil => rfl
  | cons first rest ih =>
      rw [fillRecorded, List.foldl_cons, ← fillRecorded, ih, OrderedMap.get?_insert]
      by_cases hfirst : address = first
      · subst hfirst
        simp [recordOver_recordOver]
      · simp [hfirst]

theorem get?_fillInstructions_of_mem {counters : Counters}
    {listing : List (UInt32 × Instruction)} (distinct : (listing.map (·.1)).Nodup)
    {address : UInt32} {insn : Instruction} (h : (address, insn) ∈ listing) :
    (fillInstructions counters listing).get? address = some {
      address
      opcode := some insn.opcode
      hitCount := counters.hitCount address
      branch := if insn.isBranch then some (counters.branchCount address) else none } := by
  rw [fillInstructions]
  apply OrderedMap.get?_insertAll_of_mem
  · rwa [List.map_map]
  · exact List.mem_map.mpr ⟨_, h, rfl⟩

theorem get?_fillInstructions_of_notMem {counters : Counters}
    {listing : List (UInt32 × Instruction)} {address : UInt32}
    (h : address ∉ listing.map (·.1)) :
    (fillInstructions counters listing).get? address = none := by
  rw [fillInstructions, OrderedMap.get?_insertAll_of_notMem, OrderedMap.get?_emptyCollection]
  rwa [List.map_map]

/-- What the first pass leaves. -/
def instructionTable (recording : Recording) : OrderedMap UInt32 AddressCoverage :=
  match recording.script with
  | some script => fillInstructions recording.counters script.decodedAnew
  | none => ∅

/-- The address table, filled in two passes. -/
def filledTable (recording : Recording) : OrderedMap UInt32 AddressCoverage :=
  fillRecorded recording.counters (instructionTable recording)
    (recording.counters.hits.keys ++ recording.counters.branches.keys)

theorem get?_instructionTable_of_startsAt {address : UInt32} {insn : Instruction}
    (starts : recording.StartsAt address insn) :
    (instructionTable recording).get? address = some {
      address
      opcode := some insn.opcode
      hitCount := recording.counters.hitCount address
      branch := if insn.isBranch then some (recording.counters.branchCount address)
        else none } := by
  obtain ⟨script, hscript, hmem⟩ := Recording.startsAt_iff.mp starts
  have hdistinct : script.addresses.Nodup :=
    script.addresses_ascending.imp fun h => UInt32.ne_of_lt h
  rw [instructionTable, hscript]
  simp only [script.decodedAnew_eq_listing]
  exact get?_fillInstructions_of_mem hdistinct hmem

theorem get?_instructionTable_of_not_startsAt {address : UInt32}
    (starts : ∀ insn, ¬recording.StartsAt address insn) :
    (instructionTable recording).get? address = none := by
  unfold instructionTable
  cases hscript : recording.script with
  | none => rfl
  | some script =>
      simp only [script.decodedAnew_eq_listing]
      refine get?_fillInstructions_of_notMem fun haddress => ?_
      obtain ⟨⟨start, insn⟩, hmem, rfl⟩ := List.mem_map.mp haddress
      exact starts insn (Recording.startsAt_iff.mpr ⟨script, hscript, hmem⟩)

theorem get?_filledTable (recording : Recording) (address : UInt32) :
    (filledTable recording).get? address =
      if recording.RecordedAt address then
        some (recordOver recording.counters address ((instructionTable recording).get? address))
      else (instructionTable recording).get? address := by
  rw [filledTable, get?_fillRecorded]
  simp only [List.mem_append]
  rfl

theorem contains_of_not_recordedAt {address : UInt32} (h : ¬recording.RecordedAt address) :
    recording.counters.branches.contains address = false := by
  rw [← Bool.not_eq_true, OrderedMap.contains_eq_true_iff]
  exact fun hkey => h (.inr hkey)

theorem get?_filledTable_of_startsAt {address : UInt32} {insn : Instruction}
    (starts : recording.StartsAt address insn) :
    (filledTable recording).get? address =
      some (addressOfInstruction recording.counters address insn) := by
  rw [get?_filledTable, get?_instructionTable_of_startsAt starts]
  split
  · rw [recordOver, addressOfInstruction]
    cases recording.counters.branches.contains address <;> simp
  · rename_i hrecorded
    rw [addressOfInstruction, contains_of_not_recordedAt hrecorded, Bool.or_false]

theorem get?_filledTable_of_not_startsAt {address : UInt32}
    (starts : ∀ insn, ¬recording.StartsAt address insn) :
    (filledTable recording).get? address =
      if recording.RecordedAt address then
        some (addressOfRecord recording.counters address)
      else none := by
  rw [get?_filledTable, get?_instructionTable_of_not_startsAt starts]
  refine ite_congr rfl (fun _ => ?_) fun _ => rfl
  rw [recordOver, addressOfRecord, OrderedMap.contains, Counters.branchCount]
  cases recording.counters.branches.get? address <;> rfl

theorem get?_filledTable_eq_some_iff {address : UInt32} :
    (filledTable recording).get? address = some entry ↔
      IsEntry recording entry ∧ entry.address = address := by
  constructor
  · intro hget
    by_cases hstarts : ∃ insn, recording.StartsAt address insn
    · obtain ⟨insn, hstarts⟩ := hstarts
      rw [get?_filledTable_of_startsAt hstarts] at hget
      cases hget
      exact ⟨.instruction hstarts, rfl⟩
    · rw [get?_filledTable_of_not_startsAt (not_exists.mp hstarts)] at hget
      split at hget
      · rename_i hrecorded
        cases hget
        exact ⟨.record hrecorded (not_exists.mp hstarts), rfl⟩
      · cases hget
  · rintro ⟨hentry, rfl⟩
    cases hentry with
    | instruction starts => exact get?_filledTable_of_startsAt starts
    | record recorded starts =>
        exact (get?_filledTable_of_not_startsAt starts).trans (if_pos recorded)

theorem mem_values_filledTable_iff :
    entry ∈ (filledTable recording).values ↔ IsEntry recording entry := by
  constructor
  · intro hmem
    obtain ⟨⟨address, entry⟩, hentry, rfl⟩ := List.mem_map.mp hmem
    exact (get?_filledTable_eq_some_iff.mp (OrderedMap.get?_eq_some_iff.mpr hentry)).1
  · intro hentry
    have hget := get?_filledTable_eq_some_iff.mpr ⟨hentry, rfl⟩
    exact List.mem_map.mpr ⟨_, OrderedMap.get?_eq_some_iff.mp hget, rfl⟩

theorem ascending_values_filledTable (recording : Recording) :
    (filledTable recording).values.Pairwise fun x y => x.address < y.address := by
  have haddress : ∀ item ∈ (filledTable recording).entries, item.2.address = item.1 :=
    fun item hmem =>
      (get?_filledTable_eq_some_iff.mp (OrderedMap.get?_eq_some_iff.mpr hmem)).2
  refine List.pairwise_map.mpr ((List.pairwise_map.mp (keys_ascending _)).imp_of_mem ?_)
  intro x y hx hy hlt
  rwa [haddress x hx, haddress y hy]

/-- An ascending list is determined by its entries. -/
theorem eq_of_ascending {table table' : List AddressCoverage}
    (ascending : table.Pairwise fun x y => x.address < y.address)
    (ascending' : table'.Pairwise fun x y => x.address < y.address)
    (same : ∀ entry, entry ∈ table ↔ entry ∈ table') : table = table' := by
  have hnodup {table : List AddressCoverage}
      (h : table.Pairwise fun x y => x.address < y.address) : table.Nodup :=
    h.imp fun hlt => ne_of_apply_ne AddressCoverage.address (UInt32.ne_of_lt hlt)
  have hperm : table.Perm table' :=
    (List.perm_ext_iff_of_nodup (hnodup ascending) (hnodup ascending')).mpr same
  refine hperm.eq_of_pairwise (fun x y _ _ hxy hyx => ?_) ascending ascending'
  exact absurd hyx (UInt32.lt_asymm hxy)

/-- The address table of a contract is complete and exact: it holds one entry for every
address where an instruction of the script starts or something was recorded, by ascending
address, and each entry shows the hits, the opcode and the outcomes that belong there. It is
what filling a map in two passes leaves, in the order of its keys. -/
theorem addresses_complete_exact (recording : Recording) :
    recording.Tabulates (ofRecording recording).addresses ∧
      (ofRecording recording).addresses = (filledTable recording).values := by
  constructor
  · exact tabulates_of_isEntry (ascending_addressTable recording) fun _ => mem_addressTable_iff
  · refine eq_of_ascending (ascending_addressTable recording)
      (ascending_values_filledTable recording) fun entry => ?_
    exact mem_addressTable_iff.trans mem_values_filledTable_iff.symm

end CoverageTree

end ScriptCoverage
