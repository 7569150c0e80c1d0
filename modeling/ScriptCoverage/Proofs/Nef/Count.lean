import ScriptCoverage.Proofs.Nef.Reader

/-!
Counts of variable length are read back from what is written, whatever follows them. The reader
takes every form that holds a count, the writer uses the shortest of them, and the limit alone
decides whether a count that is there is also returned.
-/

namespace ScriptCoverage.Nef.Read

/-- All of the bytes are read as the count, if the limit lets it pass. -/
def Accepts (form : List UInt8) (n : Nat) : Prop :=
  ∃ limit, count limit ⟨0, form⟩ = .ok (n, ⟨form.length, []⟩)

theorem accepts_iff_form {form : List UInt8} {n : Nat} :
    Accepts form n ↔ VarInt.Form form n := by
  constructor
  · rintro ⟨limit, hread⟩
    obtain ⟨bytes, hlayout, hrest, -⟩ := (exact_count limit _ _ _).mp hread
    rw [List.append_nil] at hrest
    obtain rfl : form = bytes := hrest
    exact hlayout.form
  · intro h
    refine ⟨n, (exact_count n _ _ _).mpr ⟨form, ⟨h, Nat.le_refl n⟩, ?_, ?_⟩⟩
    · exact (List.append_nil form).symm
    · exact (Nat.zero_add form.length).symm

theorem number_append {width n : Nat} (h : n < 256 ^ width) (offset : Nat) (rest : List UInt8) :
    number width ⟨offset, LittleEndian.encode width n ++ rest⟩ =
      .ok (n, ⟨offset + width, rest⟩) := by
  refine (exact_number width _ _ _).mpr ⟨_, ⟨h, rfl⟩, rfl, ?_⟩
  rw [LittleEndian.length_encode]

theorem bind_of_eq_ok {α β : Type} {read : Read α} {next : α → Read β} {cursor after : Cursor}
    {value : α} (h : read cursor = .ok (value, after)) :
    (read >>= next) cursor = next value after := by
  change (read cursor >>= fun (value, after) => next value after) = _
  rw [h]
  rfl

theorem limited_apply (n limit : Nat) (cursor : Cursor) :
    (do
      if limit < n then throw (.lengthExceedsLimit n limit)
      return n : Read Nat) cursor =
      if n ≤ limit then .ok (n, cursor) else .error (.lengthExceedsLimit n limit) := by
  by_cases hlimit : n ≤ limit
  · rw [if_pos hlimit, if_neg (Nat.not_lt_of_le hlimit)]
    rfl
  · rw [if_neg hlimit, if_pos (Nat.lt_of_not_le hlimit)]
    rfl

/-- A count is read in any form, whatever follows it, and then refused above the limit. -/
theorem count_append {form : List UInt8} {n : Nat} (h : VarInt.Form form n)
    (limit offset : Nat) (rest : List UInt8) :
    count limit ⟨offset, form ++ rest⟩ =
      if n ≤ limit then .ok (n, ⟨offset + form.length, rest⟩)
      else .error (.lengthExceedsLimit n limit) := by
  obtain ⟨first, behind, rfl, hbehind⟩ := VarInt.form_iff.mp h
  have hfirst : number 1 ⟨offset, first :: behind ++ rest⟩ =
      .ok (first.toNat, ⟨offset + 1, behind ++ rest⟩) := by
    have hlt : first.toNat < 256 ^ 1 := first.toNat_lt
    have hread := number_append hlt offset (behind ++ rest)
    rwa [LittleEndian.encode, LittleEndian.encode, UInt8.ofNat_toNat] at hread
  unfold count
  rw [bind_of_eq_ok hfirst, UInt8.ofNat_toNat]
  split at hbehind
  · rename_i width hwidth
    obtain ⟨hlt, rfl⟩ := hbehind
    have hlength : offset + 1 + width =
        offset + (first :: LittleEndian.encode width n).length := by
      rw [List.length_cons, LittleEndian.length_encode]
      omega
    rw [hwidth, ← hlength]
    exact (bind_of_eq_ok (number_append hlt (offset + 1) rest)).trans (limited_apply n limit _)
  · rename_i hnone
    obtain ⟨rfl, rfl⟩ := hbehind
    rw [hnone]
    exact limited_apply first.toNat limit _

/-- Counts are exact. The form that is written is read back as the count up to the limit, with
all that follows it left over, and refused above; with words of 64 bits it is the same. Every
other form of the count that the reader takes is longer. On any input the reader fails, or it
takes one, three, five or nine bytes for a count of 64 bits within the limit. -/
theorem count_exact_shortest :
    (∀ (v : UInt64) (limit offset : Nat) (rest : List UInt8),
      count limit ⟨offset, VarInt.encode v.toNat ++ rest⟩ =
        if v.toNat ≤ limit then
          .ok (v.toNat, ⟨offset + (VarInt.encode v.toNat).length, rest⟩)
        else .error (.lengthExceedsLimit v.toNat limit)) ∧
    (∀ v : UInt64, VarInt.encodeWord v = VarInt.encode v.toNat) ∧
    (∀ v : UInt64, Accepts (VarInt.encode v.toNat) v.toNat ∧
      ∀ form, Accepts form v.toNat →
        form = VarInt.encode v.toNat ∨ (VarInt.encode v.toNat).length < form.length) ∧
    ∀ limit cursor, (∃ e, count limit cursor = .error e) ∨
      ∃ n taken rest, count limit cursor = .ok (n, ⟨cursor.offset + taken.length, rest⟩) ∧
        cursor.rest = taken ++ rest ∧ taken.length ∈ [1, 3, 5, 9] ∧
        n ≤ limit ∧ n < UInt64.size := by
  have hwritten (v : UInt64) : VarInt.Form (VarInt.encode v.toNat) v.toNat :=
    VarInt.form_encode v.toNat_lt
  refine ⟨?readBack, VarInt.encodeWord_eq, ?shortest, ?taken⟩
  case readBack =>
    intro v
    exact count_append (hwritten v)
  case shortest =>
    intro v
    refine ⟨accepts_iff_form.mpr (hwritten v), ?_⟩
    intro form haccepts
    have hform := accepts_iff_form.mp haccepts
    rcases Nat.eq_or_lt_of_le (VarInt.length_encode_le hform) with hlength | hlonger
    · exact .inl (hform.eq_of_length_eq (hwritten v) hlength.symm)
    · exact .inr hlonger
  case taken =>
    intro limit cursor
    cases hread : count limit cursor with
    | error e => exact .inl ⟨e, rfl⟩
    | ok result =>
        obtain ⟨n, after, rest⟩ := result
        obtain ⟨taken, hlayout, hrest, hoffset⟩ := (exact_count limit _ _ _).mp hread
        obtain rfl : after = cursor.offset + taken.length := hoffset
        exact .inr ⟨n, taken, rest, rfl, hrest, hlayout.form.length_mem, hlayout.le,
          hlayout.form.lt⟩

/-- A count of one byte that is written with a mark is read as well. -/
theorem count_exact_shortest_marked :
    Accepts [0xFD, 5, 0] (5 : UInt64).toNat ∧
      (VarInt.encode (5 : UInt64).toNat).length < [(0xFD : UInt8), 5, 0].length := by
  have haccepts : Accepts [0xFD, 5, 0] (5 : UInt64).toNat := ⟨5, rfl⟩
  have hshortest := (count_exact_shortest.2.2.1 5).2 _ haccepts
  exact ⟨haccepts, hshortest.resolve_left (by decide)⟩

end ScriptCoverage.Nef.Read
