import Mathlib.Data.List.Infix
import ScriptCoverage.Proofs.Vm.Encoding
import ScriptCoverage.Vm.Script

/-!
Scripts are encodings laid end to end. A disassembly reads as many as there are and then
stops, at the end or at the first place where no encoding starts; since an encoding is
never the beginning of another one, there is only one way to cut a script into encodings.
-/

namespace ScriptCoverage

open Instruction (Encodes IsEncoding decodeAt decodeAt_eq_ok_iff)

/-- Instructions stand at the addresses where their encodings start, when these are laid
end to end from an address on. -/
def LaidOut : (address : Nat) → List (UInt32 × Instruction) → List (List UInt8) → Prop
  | _, [], [] => True
  | address, (start, insn) :: items, encoding :: encodings =>
      start.toNat = address ∧ Encodes encoding insn ∧
        LaidOut (address + encoding.length) items encodings
  | _, _, _ => False

/-- Why a disassembly goes no further than to an address. -/
inductive Stops (code : List UInt8) (address : Nat) : Option DecodeError → Prop where
  | atEnd (reached : address = code.length) : Stops code address none
  | cutOff {e : DecodeError} (before : address < code.length)
      (incomplete : ∀ encoding, encoding <+: code.drop address → ¬IsEncoding encoding)
      (refused : decodeAt code address = .error e) : Stops code address (some e)

namespace LaidOut

variable {address : Nat} {items : List (UInt32 × Instruction)} {encodings : List (List UInt8)}

theorem isEncoding (h : LaidOut address items encodings) :
    ∀ encoding ∈ encodings, IsEncoding encoding := by
  fun_induction LaidOut address items encodings with
  | case1 => simp
  | case2 address start insn items encoding encodings ih =>
      obtain ⟨-, hencodes, hrest⟩ := h
      exact List.forall_mem_cons.mpr ⟨⟨insn, hencodes⟩, ih hrest⟩
  | case3 => exact h.elim

theorem le_of_mem (h : LaidOut address items encodings) :
    ∀ item ∈ items, address ≤ item.1.toNat := by
  fun_induction LaidOut address items encodings with
  | case1 => simp
  | case2 address start insn items encoding encodings ih =>
      obtain ⟨hstart, -, hrest⟩ := h
      refine List.forall_mem_cons.mpr ⟨Nat.le_of_eq hstart.symm, fun item hmem => ?_⟩
      have hlater := ih hrest item hmem
      omega
  | case3 => exact h.elim

/-- Encodings are not empty, so the addresses ascend. -/
theorem ascending (h : LaidOut address items encodings) :
    (items.map (·.1)).Pairwise (· < ·) := by
  fun_induction LaidOut address items encodings with
  | case1 => simp
  | case2 address start insn items encoding encodings ih =>
      obtain ⟨hstart, hencodes, hrest⟩ := h
      refine List.pairwise_cons.mpr ⟨fun later hmem => ?_, ih hrest⟩
      obtain ⟨item, hitem, rfl⟩ := List.mem_map.mp hmem
      have hlater := hrest.le_of_mem item hitem
      have hpos := hencodes.length_pos
      have hlt : start.toNat < item.1.toNat := by omega
      exact UInt32.lt_iff_toNat_lt.mpr hlt
  | case3 => exact h.elim

/-- Jumps and calls take two bytes or more. -/
theorem two_mul_branches_le (h : LaidOut address items encodings) :
    2 * (items.filter fun item => item.2.isBranch).length ≤ encodings.flatten.length := by
  fun_induction LaidOut address items encodings with
  | case1 => simp
  | case2 address start insn items encoding encodings ih =>
      obtain ⟨-, hencodes, hrest⟩ := h
      have hlater := ih hrest
      rw [List.flatten_cons, List.length_append, List.filter_cons]
      split
      · rename_i hbranch
        have htwo := hencodes.two_le_length hbranch
        rw [List.length_cons]
        omega
      · omega
  | case3 => exact h.elim

/-- Every instruction is what decoding at its address gives. -/
theorem decodeAt_of_mem {code : List UInt8} (h : LaidOut address items encodings)
    (hcode : encodings.flatten <+: code.drop address) :
    ∀ item ∈ items, decodeAt code item.1.toNat = .ok item.2 := by
  fun_induction LaidOut address items encodings with
  | case1 => simp
  | case2 address start insn items encoding encodings ih =>
      obtain ⟨hstart, hencodes, hrest⟩ := h
      rw [List.flatten_cons] at hcode
      have hfirst : encoding <+: code.drop address := (List.prefix_append _ _).trans hcode
      have hlater : encodings.flatten <+: code.drop (address + encoding.length) := by
        obtain ⟨rest, hrest⟩ := hcode
        rw [← List.drop_drop, ← hrest, List.append_assoc, List.drop_left]
        exact List.prefix_append _ _
      refine List.forall_mem_cons.mpr ⟨?_, ih hrest hlater⟩
      rw [hstart]
      exact decodeAt_eq_ok_iff.mpr ⟨encoding, hencodes, hfirst⟩
  | case3 => exact h.elim

end LaidOut

/-- Encodings can be told apart, so bytes that begin like others begin with the same
encodings. -/
theorem isPrefix_of_flatten {first second : List (List UInt8)}
    (hfirst : ∀ encoding ∈ first, IsEncoding encoding)
    (hsecond : ∀ encoding ∈ second, IsEncoding encoding)
    (hbegins : first.flatten <+: second.flatten) : first <+: second := by
  induction first generalizing second with
  | nil => exact List.nil_prefix
  | cons encoding rest ih =>
      obtain ⟨⟨insn, hencodes⟩, hrest⟩ := List.forall_mem_cons.mp hfirst
      rw [List.flatten_cons] at hbegins
      cases second with
      | nil =>
          have hpos := hencodes.length_pos
          have hlength := hbegins.length_le
          rw [List.length_append, List.flatten_nil, List.length_nil] at hlength
          omega
      | cons encoding' rest' =>
          obtain ⟨⟨insn', hencodes'⟩, hrest'⟩ := List.forall_mem_cons.mp hsecond
          rw [List.flatten_cons] at hbegins
          have hstart : encoding <+: encoding' ++ rest'.flatten :=
            (List.prefix_append _ _).trans hbegins
          have hsame : encoding = encoding' :=
            (hencodes.unique hencodes' hstart (List.prefix_append _ _)).1
          subst hsame
          have hlater := (List.prefix_append_right_inj _).mp hbegins
          exact List.cons_prefix_cons.mpr ⟨rfl, ih hrest hrest' hlater⟩

/-- Bytes are cut into encodings in one way only. -/
theorem encodings_unique {first second : List (List UInt8)}
    (hfirst : ∀ encoding ∈ first, IsEncoding encoding)
    (hsecond : ∀ encoding ∈ second, IsEncoding encoding)
    (hsame : first.flatten = second.flatten) : first = second := by
  have hbegins := isPrefix_of_flatten hfirst hsecond (hsame ▸ List.prefix_rfl)
  have hbegins' := isPrefix_of_flatten hsecond hfirst (hsame ▸ List.prefix_rfl)
  exact hbegins.eq_of_length (Nat.le_antisymm hbegins.length_le hbegins'.length_le)

namespace Disassembly

/-- What a disassembly from some address on reads. It stops early only at an address that
needs more than 32 bits. -/
theorem decodeFrom_laidOut {code : List UInt8} {address : Nat} {suffix : List UInt8}
    (hsuffix : code.drop address = suffix) (hrange : address ≤ code.length) :
    ∃ encodings, encodings.flatten <+: suffix ∧
      LaidOut address (decodeFrom address suffix).items encodings ∧
      (Stops code (address + encodings.flatten.length) (decodeFrom address suffix).failure ∨
        UInt32.size ≤ address + encodings.flatten.length ∧ UInt32.size < code.length ∧
          (decodeFrom address suffix).failure = some (.scriptTooLarge code.length)) := by
  have hlength := congrArg List.length hsuffix
  rw [List.length_drop] at hlength
  fun_induction decodeFrom address suffix with
  | case1 address =>
      have hend : address = code.length := by
        rw [List.length_nil] at hlength
        omega
      exact ⟨[], List.prefix_rfl, trivial, .inl (.atEnd hend)⟩
  | case2 address op bytes hlarge =>
      rw [List.length_cons] at hlength
      have hwhole : address + bytes.length + 1 = code.length := by omega
      refine ⟨[], List.nil_prefix, trivial, .inr ⟨hlarge, by omega, ?_⟩⟩
      rw [hwhole]
  | case3 address op bytes hsmall e hfront =>
      have hdecode : decodeAt code address = .error e := by
        rw [decodeAt, hsuffix]
        exact hfront
      have hincomplete : ∀ encoding, encoding <+: code.drop address → ¬IsEncoding encoding := by
        rintro encoding hbegins ⟨insn, hencodes⟩
        rw [decodeAt_eq_ok_iff.mpr ⟨encoding, hencodes, hbegins⟩] at hdecode
        cases hdecode
      have hbefore : address < code.length := by
        rw [List.length_cons] at hlength
        omega
      exact ⟨[], List.nil_prefix, trivial, .inl (.cutOff hbefore hincomplete hdecode)⟩
  | case4 address op bytes hsmall insn hfront ih =>
      obtain ⟨encoding, hencodes, rest, hrest⟩ := Instruction.decodeFront_eq_ok_iff.mp hfront
      have hsize := hencodes.size_eq
      have hpos := hencodes.length_pos
      have hsum := congrArg List.length hrest
      rw [List.length_append] at hsum
      have hafter : code.drop (address + insn.size) = rest := by
        rw [← List.drop_drop, hsuffix, ← hrest, hsize, List.drop_left]
      have hdropped : bytes.drop (insn.size - 1) = rest := by
        rw [← hafter, ← List.drop_drop, hsuffix]
        obtain ⟨size, hsucc⟩ : ∃ size, insn.size = size + 1 := ⟨insn.size - 1, by omega⟩
        rw [hsucc, List.drop_succ_cons, Nat.add_sub_cancel]
      rw [hdropped] at ih ⊢
      obtain ⟨encodings, hflatten, hlaid, hstops⟩ := ih hafter (by omega) (by omega)
      refine ⟨encoding :: encodings, ?_, ⟨?_, hencodes, ?_⟩, ?_⟩
      · rw [List.flatten_cons, ← hrest]
        exact (List.prefix_append_right_inj _).mpr hflatten
      · exact UInt32.toNat_ofNat_of_lt' (by omega)
      · rwa [← hsize]
      · rw [List.flatten_cons, List.length_append, ← Nat.add_assoc, ← hsize]
        exact hstops

end Disassembly

/-- A script of at most 4 GiB is disassembled up to its end or to the first place where no
encoding starts. -/
theorem disassemble_laidOut {code : List UInt8} (hsize : code.length ≤ UInt32.size) :
    ∃ encodings, encodings.flatten <+: code ∧
      LaidOut 0 (disassemble code).items encodings ∧
      Stops code encodings.flatten.length (disassemble code).failure := by
  obtain ⟨encodings, hbegins, hlaid, hstops⟩ :=
    Disassembly.decodeFrom_laidOut (List.drop_zero : code.drop 0 = code) (Nat.zero_le _)
  rw [Nat.zero_add] at hstops
  rcases hstops with hstops | ⟨-, hlarge, -⟩
  · exact ⟨encodings, hbegins, hlaid, hstops⟩
  · omega

namespace Script

/-- A script is its encodings laid end to end, however long it is. -/
theorem exists_laidOut (script : Script) :
    ∃ encodings, encodings.flatten = script.bytes ∧ LaidOut 0 script.listing encodings := by
  obtain ⟨encodings, hbegins, hlaid, hstops⟩ :=
    Disassembly.decodeFrom_laidOut (List.drop_zero : script.bytes.drop 0 = script.bytes)
      (Nat.zero_le _)
  have hdisassembled : Disassembly.decodeFrom 0 script.bytes = ⟨script.listing, none⟩ :=
    script.disassembled
  rw [hdisassembled] at hlaid hstops
  refine ⟨encodings, ?_, hlaid⟩
  rcases hstops with hstops | ⟨-, -, hfailure⟩
  · cases hstops with
    | atEnd reached => exact hbegins.eq_of_length (by omega)
  · cases hfailure

theorem addresses_ascending (script : Script) : script.addresses.Pairwise (· < ·) := by
  obtain ⟨encodings, -, hlaid⟩ := script.exists_laidOut
  exact hlaid.ascending

theorem two_mul_branches_le (script : Script) :
    2 * (script.listing.filter fun item => item.2.isBranch).length ≤ script.bytes.length := by
  obtain ⟨encodings, hflatten, hlaid⟩ := script.exists_laidOut
  rw [← hflatten]
  exact hlaid.two_mul_branches_le

/-- The instructions decoded anew at addresses. An address where nothing can be decoded
drops out. -/
def decodedAt (script : Script) (addresses : List UInt32) : List (UInt32 × Instruction) :=
  addresses.filterMap fun address =>
    match decodeAt script.bytes address.toNat with
    | .ok insn => some (address, insn)
    | .error _ => none

/-- The instructions of a script, decoded anew at all its addresses. -/
def decodedAnew (script : Script) : List (UInt32 × Instruction) :=
  script.decodedAt script.addresses

theorem decodeAt_of_mem_listing (script : Script) :
    ∀ item ∈ script.listing, decodeAt script.bytes item.1.toNat = .ok item.2 := by
  obtain ⟨encodings, hflatten, hlaid⟩ := script.exists_laidOut
  refine hlaid.decodeAt_of_mem ?_
  rw [hflatten, List.drop_zero]

theorem decodedAt_map_of_subset {script : Script} {items : List (UInt32 × Instruction)}
    (hitems : items ⊆ script.listing) : script.decodedAt (items.map (·.1)) = items := by
  rw [decodedAt, List.filterMap_map]
  calc items.filterMap _
      = items.filterMap some := by
        refine List.filterMap_congr fun item hmem => ?_
        simp only [Function.comp_apply, script.decodeAt_of_mem_listing item (hitems hmem)]
    _ = items := List.filterMap_some

theorem decodedAnew_eq_listing (script : Script) : script.decodedAnew = script.listing :=
  decodedAt_map_of_subset (List.Subset.refl script.listing)

theorem ofBytes_eq_ok_iff {code : List UInt8} {script : Script} :
    ofBytes code = .ok script ↔ script.bytes = code := by
  constructor
  · intro h
    unfold ofBytes at h
    split at h
    · cases h
      rfl
    · cases h
  · rintro rfl
    have hdisassembled := script.disassembled
    unfold ofBytes
    split
    · rename_i listing h
      rw [hdisassembled] at h
      cases h
      rfl
    · rename_i h
      rw [hdisassembled] at h
      cases h

/-- Bytes that are encodings laid end to end are a script: the disassembly reads these
encodings, and cannot stop before the last. -/
theorem exists_ofBytes_of_flatten {code : List UInt8} (hsize : code.length ≤ UInt32.size)
    {encodings : List (List UInt8)} (hencodings : ∀ encoding ∈ encodings, IsEncoding encoding)
    (hflatten : encodings.flatten = code) : ∃ script, ofBytes code = .ok script := by
  obtain ⟨read, hbegins, hlaid, hstops⟩ := disassemble_laidOut hsize
  rw [← hflatten] at hbegins
  obtain ⟨more, hmore⟩ := isPrefix_of_flatten hlaid.isEncoding hencodings hbegins
  have hafter : code.drop read.flatten.length = more.flatten := by
    rw [← hflatten, ← hmore, List.flatten_append, List.drop_left]
  cases hfailure : (disassemble code).failure with
  | none =>
      have hdisassembled : disassemble code = ⟨(disassemble code).items, none⟩ := by
        rw [← hfailure]
      exact ⟨⟨code, _, hdisassembled⟩, ofBytes_eq_ok_iff.mpr rfl⟩
  | some e =>
      rw [hfailure] at hstops
      cases hstops with
      | cutOff before incomplete refused =>
          rw [hafter] at incomplete
          cases more with
          | nil =>
              have hlength := congrArg List.length hafter
              rw [List.length_drop, List.flatten_nil, List.length_nil] at hlength
              omega
          | cons encoding rest =>
              have hmem : encoding ∈ encodings := by
                rw [← hmore]
                exact List.mem_append_right _ List.mem_cons_self
              rw [List.flatten_cons] at incomplete
              exact absurd (hencodings encoding hmem)
                (incomplete encoding (List.prefix_append _ _))

/-- The decoder accepts exactly the instruction grammar. A disassembly reads encodings laid
end to end, up to the end or to the first place where none starts, and reports what
decoding reports there. Bytes are a script exactly when they are cut into encodings, which
is possible in one way only; the script's instructions are those of the encodings, and
decoding them anew at their ascending addresses loses none. -/
theorem decoder_accepts_grammar {code : List UInt8} (hsize : code.length < UInt32.size) :
    (∃ encodings, encodings.flatten <+: code ∧
      LaidOut 0 (disassemble code).items encodings ∧
      Stops code encodings.flatten.length (disassemble code).failure) ∧
    ((∃ script, ofBytes code = .ok script) ↔
      ∃ encodings : List (List UInt8),
        (∀ encoding ∈ encodings, IsEncoding encoding) ∧ encodings.flatten = code) ∧
    ∀ script, ofBytes code = .ok script →
      ∃ encodings, encodings.flatten = code ∧ LaidOut 0 script.listing encodings ∧
        (∀ others : List (List UInt8), (∀ encoding ∈ others, IsEncoding encoding) →
          others.flatten = code → others = encodings) ∧
        script.addresses.Pairwise (· < ·) ∧ script.decodedAnew = script.listing := by
  refine ⟨disassemble_laidOut (Nat.le_of_lt hsize), ⟨?_, ?_⟩, ?_⟩
  · rintro ⟨script, hscript⟩
    obtain ⟨encodings, hflatten, hlaid⟩ := script.exists_laidOut
    exact ⟨encodings, hlaid.isEncoding, hflatten.trans (ofBytes_eq_ok_iff.mp hscript)⟩
  · rintro ⟨encodings, hencodings, hflatten⟩
    exact exists_ofBytes_of_flatten (Nat.le_of_lt hsize) hencodings hflatten
  · intro script hscript
    obtain ⟨encodings, hflatten, hlaid⟩ := script.exists_laidOut
    rw [ofBytes_eq_ok_iff.mp hscript] at hflatten
    refine ⟨encodings, hflatten, hlaid, ?_, script.addresses_ascending,
      script.decodedAnew_eq_listing⟩
    intro others hothers hsame
    exact encodings_unique hothers hlaid.isEncoding (hsame.trans hflatten.symm)

/-- A pushed text of two bytes, and a jump that lacks its operand. -/
theorem decoder_accepts_grammar_cut_off :
    ([0x0C, 2, 7, 8, 0x22] : List UInt8).length < UInt32.size ∧
      (∃ encodings, encodings.flatten <+: [0x0C, 2, 7, 8, 0x22] ∧
        LaidOut 0 [(0, ⟨0x0C, [7, 8], 4⟩)] encodings ∧
        Stops [0x0C, 2, 7, 8, 0x22] encodings.flatten.length
          (some (.truncatedOperand 4 1 0))) ∧
      ¬∃ encodings : List (List UInt8),
        (∀ encoding ∈ encodings, IsEncoding encoding) ∧
          encodings.flatten = [0x0C, 2, 7, 8, 0x22] := by
  have hsize : ([0x0C, 2, 7, 8, 0x22] : List UInt8).length < UInt32.size := by decide
  have hread : disassemble [0x0C, 2, 7, 8, 0x22] =
      ⟨[(0, ⟨0x0C, [7, 8], 4⟩)], some (.truncatedOperand 4 1 0)⟩ := by cbv
  have h := decoder_accepts_grammar hsize
  rw [hread] at h
  refine ⟨hsize, h.1, fun hencodings => ?_⟩
  obtain ⟨script, hscript⟩ := h.2.1.mpr hencodings
  have hdisassembled := script.disassembled
  rw [ofBytes_eq_ok_iff.mp hscript, hread] at hdisassembled
  exact Option.some_ne_none _ (congrArg Disassembly.failure hdisassembled)

end Script

end ScriptCoverage
