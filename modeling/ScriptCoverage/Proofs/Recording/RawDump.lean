import ScriptCoverage.Proofs.ContractHash
import ScriptCoverage.Proofs.Data.OrderedMap
import ScriptCoverage.Proofs.Text.Decimal
import ScriptCoverage.Recording.RawDump

/-!
Reading a printed dump. Every line is read as it was printed, so the dump holds what
storing the lines leaves. Lines that repeat counters of one set leave its nonzero
counters, for each address that they mention.
-/

namespace ScriptCoverage

/-- The counters that count something. -/
def Counters.nonzero (counters : Counters) : Counters where
  hits := counters.hits.filterValues fun count => count != 0
  branches := counters.branches.filterValues fun count => !count.isEmpty

namespace RawDump

namespace Line

theorem parse?_chars (line : Line) : parse? line.chars = some line := by
  cases line with
  | hits address count =>
      have hwords : Text.words (Line.hits address count).chars =
          [Decimal.digits address.toNat, Decimal.digits count.toNat] := by
        rw [chars, Text.words_append_cons (Decimal.isWord_digits _) (by decide),
          Text.words_of_isWord (Decimal.isWord_digits _)]
      rw [parse?, hwords]
      simp [Decimal.signedWord?_digits]
  | branch address count =>
      have hwords : Text.words (Line.branch address count).chars =
          [Decimal.digits address.toNat, Decimal.digits count.taken.toNat,
            Decimal.digits count.continued.toNat] := by
        rw [chars, List.append_assoc, List.cons_append,
          Text.words_append_cons (Decimal.isWord_digits _) (by decide),
          Text.words_append_cons (Decimal.isWord_digits _) (by decide),
          Text.words_of_isWord (Decimal.isWord_digits _)]
      rw [parse?, hwords]
      simp [Decimal.signedWord?_digits]

theorem trimmed_chars (line : Line) : Text.Trimmed line.chars := by
  cases line with
  | hits address count =>
      have hchars : (Line.hits address count).chars =
          Decimal.digits address.toNat ++ [' '] ++ Decimal.digits count.toNat := by
        rw [chars, List.append_assoc, List.singleton_append]
      rw [hchars]
      exact Text.trimmed_between (Decimal.isWord_digits _) (Decimal.isWord_digits _) _
  | branch address count =>
      have hchars : (Line.branch address count).chars =
          Decimal.digits address.toNat ++ (' ' :: Decimal.digits count.taken.toNat ++ [' ']) ++
            Decimal.digits count.continued.toNat := by
        simp [chars]
      rw [hchars]
      exact Text.trimmed_between (Decimal.isWord_digits _) (Decimal.isWord_digits _) _

theorem isContent_chars (line : Line) : Text.IsContent line.chars where
  nonempty := by cases line <;> simp [chars]
  trimmed := line.trimmed_chars
  single := by
    have hdigits (n : Nat) : '\n' ∉ Decimal.digits n := fun hmem =>
      absurd (Decimal.isBlank_of_mem_digits hmem) (by decide)
    cases line <;> simp [chars, hdigits]

end Line

/-- The counters after all lines are stored. -/
def storeAll (counters : Counters) (lines : List Line) : Counters :=
  lines.foldl Line.store counters

theorem contentLines_print (hash : ContractHash) (lines : List Line) :
    contentLines (print hash lines) =
      (hash.chars, 1) :: (lines.map Line.chars).zipIdx 2 := by
  have hprint : print hash lines =
      (hash.chars :: lines.map Line.chars).flatMap fun line => line ++ ['\n'] := by
    simp [print, List.flatMap_map]
  have hcontent : ∀ line ∈ hash.chars :: lines.map Line.chars, Text.IsContent line := by
    refine List.forall_mem_cons.mpr ⟨hash.isWord_chars.isContent, fun chars hmem => ?_⟩
    obtain ⟨line, -, rfl⟩ := List.mem_map.mp hmem
    exact line.isContent_chars
  have htrim : (hash.chars :: lines.map Line.chars).map Text.trim =
      hash.chars :: lines.map Line.chars := by
    refine (List.map_congr_left fun line hmem => ?_).trans (List.map_id _)
    exact Text.trim_of_trimmed (hcontent line hmem).trimmed
  have hkept : ∀ entry ∈ (hash.chars :: lines.map Line.chars).zipIdx 1,
      (!entry.1.isEmpty) = true := by
    intro entry hmem
    have hnonempty := (hcontent entry.1 (List.fst_mem_of_mem_zipIdx hmem)).nonempty
    simpa using hnonempty
  rw [contentLines, hprint, Text.lines_flatMap hcontent, htrim, List.filter_eq_self.mpr hkept,
    List.zipIdx_cons]

theorem storeLines_zipIdx (counters : Counters) (lines : List Line) (number : Nat) :
    storeLines counters ((lines.map Line.chars).zipIdx number) = .ok (storeAll counters lines) := by
  induction lines generalizing counters number with
  | nil => rfl
  | cons line rest ih =>
      rw [List.map_cons, List.zipIdx_cons, storeLines, Line.parse?_chars]
      exact ih _ _

/-- A printed dump is read as its hash and what its lines store. -/
theorem parse_print (hash : ContractHash) (lines : List Line) :
    parse (print hash lines) = .ok ⟨hash, storeAll .empty lines⟩ := by
  rw [parse, contentLines_print]
  simp only [storeLines_zipIdx]
  have hhash : ContractHash.parse (String.ofList hash.chars) = .ok hash := hash.parse_text
  rw [hhash]
  rfl

/-- A line prints what the counters hold at its address. -/
def Line.Reads (counters : Counters) : Line → Prop
  | .hits address count => count = counters.hitCount address
  | .branch address count => count = counters.branchCount address

theorem hits_store_branch (stored : Counters) (address : UInt32) (count : BranchCount) :
    ((Line.branch address count).store stored).hits = stored.hits := by
  simp only [Line.store]
  split <;> rfl

theorem branches_store_hits (stored : Counters) (address count : UInt32) :
    ((Line.hits address count).store stored).branches = stored.branches := by
  simp only [Line.store]
  split <;> rfl

theorem get?_hits_store (stored : Counters) (address count other : UInt32) :
    ((Line.hits address count).store stored).hits.get? other =
      if other = address ∧ count ≠ 0 then some count else stored.hits.get? other := by
  simp only [Line.store]
  split
  · rename_i hzero
    rw [if_neg fun h => h.2 hzero]
  · rename_i hcount
    simp [OrderedMap.get?_insert, hcount]

theorem get?_branches_store (stored : Counters) (address : UInt32) (count : BranchCount)
    (other : UInt32) :
    ((Line.branch address count).store stored).branches.get? other =
      if other = address ∧ count.isEmpty = false then some count
      else stored.branches.get? other := by
  simp only [Line.store]
  split
  · rename_i hzero
    rw [if_neg fun h => by simp [hzero] at h]
  · rename_i hcount
    simp [OrderedMap.get?_insert, hcount]

/-- Lines that read one set of counters store its hits that are not zero. -/
theorem get?_hits_storeAll {counters : Counters} {lines : List Line}
    (reads : ∀ line ∈ lines, line.Reads counters) (stored : Counters) (address : UInt32) :
    (storeAll stored lines).hits.get? address =
      if .hits address (counters.hitCount address) ∈ lines ∧ counters.hitCount address ≠ 0 then
        some (counters.hitCount address)
      else stored.hits.get? address := by
  induction lines generalizing stored with
  | nil => simp [storeAll]
  | cons line rest ih =>
      obtain ⟨hline, hrest⟩ := List.forall_mem_cons.mp reads
      have hcons : storeAll stored (line :: rest) = storeAll (line.store stored) rest := rfl
      rw [hcons, ih hrest]
      cases line with
      | branch a count => simp [hits_store_branch]
      | hits a count =>
          have hcount : count = counters.hitCount a := hline
          rw [get?_hits_store]
          grind

theorem get?_branches_storeAll {counters : Counters} {lines : List Line}
    (reads : ∀ line ∈ lines, line.Reads counters) (stored : Counters) (address : UInt32) :
    (storeAll stored lines).branches.get? address =
      if .branch address (counters.branchCount address) ∈ lines ∧
          (counters.branchCount address).isEmpty = false then
        some (counters.branchCount address)
      else stored.branches.get? address := by
  induction lines generalizing stored with
  | nil => simp [storeAll]
  | cons line rest ih =>
      obtain ⟨hline, hrest⟩ := List.forall_mem_cons.mp reads
      have hcons : storeAll stored (line :: rest) = storeAll (line.store stored) rest := rfl
      rw [hcons, ih hrest]
      cases line with
      | hits a count => simp [branches_store_hits]
      | branch a count =>
          have hcount : count = counters.branchCount a := hline
          rw [get?_branches_store]
          grind

/-- Lines that read one set of counters, and mention all that is not zero, store exactly
that. -/
theorem storeAll_eq_nonzero {counters : Counters} {lines : List Line}
    (reads : ∀ line ∈ lines, line.Reads counters)
    (hits : ∀ address count, counters.hits.get? address = some count → count ≠ 0 →
      .hits address count ∈ lines)
    (branches : ∀ address count, counters.branches.get? address = some count →
      count.isEmpty = false → .branch address count ∈ lines) :
    storeAll .empty lines = counters.nonzero := by
  have hhits : (storeAll .empty lines).hits = counters.nonzero.hits := by
    apply OrderedMap.ext_get?
    intro address
    have hempty : Counters.empty.hits.get? address = none := rfl
    rw [get?_hits_storeAll reads, Counters.nonzero, OrderedMap.get?_filterValues,
      Counters.hitCount, hempty]
    cases hget : counters.hits.get? address with
    | none => simp
    | some count =>
        by_cases hzero : count = 0
        · simp [hzero, Option.filter]
        · simp [hzero, hits address count hget hzero, Option.filter]
  have hbranches : (storeAll .empty lines).branches = counters.nonzero.branches := by
    apply OrderedMap.ext_get?
    intro address
    have hempty : Counters.empty.branches.get? address = none := rfl
    rw [get?_branches_storeAll reads, Counters.nonzero, OrderedMap.get?_filterValues,
      Counters.branchCount, hempty]
    cases hget : counters.branches.get? address with
    | none =>
        have hzero : BranchCount.zero.isEmpty = true := rfl
        simp [hzero]
    | some count =>
        cases hzero : count.isEmpty with
        | true => simp [hzero, Option.filter]
        | false => simp [hzero, branches address count hget hzero, Option.filter]
  cases hstored : storeAll .empty lines
  rw [hstored] at hhits hbranches
  simp only at hhits hbranches
  rw [hhits, hbranches]

end RawDump

end ScriptCoverage
