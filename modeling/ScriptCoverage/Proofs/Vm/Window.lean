import Mathlib.Data.UInt
import ScriptCoverage.Proofs.Data.Cut
import ScriptCoverage.Proofs.Vm.Disassembly

/-!
The instructions between two addresses. Addresses ascend, so the two ends of a window can be
searched for by halving, and the instructions decoded anew at the addresses in between are
the ones a scan of the whole script finds there.
-/

namespace ScriptCoverage

namespace Script

variable {script : Script} {first last : UInt32}

/-- Among ascending addresses, lying before a bound ends once. -/
theorem endsOnce_lt {items : List UInt32} (hitems : items.Pairwise (· < ·)) (bound : UInt32) :
    Cut.EndsOnce (fun address => decide (address < bound)) items := by
  refine hitems.imp fun {x y} hlt hy => ?_
  rw [decide_eq_true_eq] at hy ⊢
  exact UInt32.lt_trans hlt hy

theorem endsOnce_le {items : List UInt32} (hitems : items.Pairwise (· < ·)) (bound : UInt32) :
    Cut.EndsOnce (fun address => decide (address ≤ bound)) items := by
  refine hitems.imp fun {x y} hlt hy => ?_
  rw [decide_eq_true_eq] at hy ⊢
  exact UInt32.le_trans (UInt32.le_of_lt hlt) hy

/-- A condition on addresses that ends once ends once on the instructions. -/
theorem endsOnce_listing {p : UInt32 → Bool} (h : Cut.EndsOnce p script.addresses) :
    Cut.EndsOnce (fun item => p item.1) script.listing :=
  List.pairwise_map.mp h

/-- A window of a script holds the instructions between its two ends. -/
theorem window_eq_filter (script : Script) (first last : UInt32) :
    script.window first last =
      script.listing.filter fun item => first ≤ item.1 ∧ item.1 ≤ last := by
  have hbelow := endsOnce_listing (endsOnce_lt script.addresses_ascending first)
  have hwithin := endsOnce_listing (endsOnce_le script.addresses_ascending last)
  rw [window, Cut.dropWhile_eq_filter hbelow, Cut.takeWhile_eq_filter (hwithin.filter _),
    List.filter_filter]
  refine List.filter_congr fun item _ => ?_
  rw [← decide_not, ← Bool.decide_and, decide_eq_decide, UInt32.not_lt, and_comm]

/-- A window is cut at any address but its last. -/
theorem window_append_window {cut : UInt32} (hfirst : first ≤ cut) (hlast : cut < last) :
    script.window first cut ++ script.window (cut + 1) last = script.window first last := by
  have hends := (endsOnce_listing (endsOnce_le script.addresses_ascending cut)).filter
    fun item => decide (first ≤ item.1 ∧ item.1 ≤ last)
  have hsucc : (cut + 1).toNat = cut.toNat + 1 := by
    have hbound := UInt32.toNat_lt last
    have hlt := UInt32.lt_iff_toNat_lt.mp hlast
    rw [UInt32.toNat_add, UInt32.toNat_one]
    omega
  have hparts := Cut.filter_append_filter_not hends
  rw [List.filter_filter, List.filter_filter] at hparts
  rw [window_eq_filter, window_eq_filter, window_eq_filter, ← hparts]
  congr 1
  · refine List.filter_congr fun item _ => ?_
    rw [← Bool.decide_and, decide_eq_decide]
    simp only [UInt32.le_iff_toNat_le, UInt32.lt_iff_toNat_lt] at hfirst hlast ⊢
    omega
  · refine List.filter_congr fun item _ => ?_
    rw [← decide_not, ← Bool.decide_and, decide_eq_decide]
    simp only [UInt32.le_iff_toNat_le, UInt32.lt_iff_toNat_lt, hsucc] at hfirst hlast ⊢
    omega

/-- A window whose two ends are searched for among the addresses, its instructions decoded
anew. The end does not lie before the beginning, even where `last` lies before `first`. -/
def searchedWindow (script : Script) (first last : UInt32) : List (UInt32 × Instruction) :=
  let low := Cut.search (· < first) script.addresses
  let high := max (Cut.search (· ≤ last) script.addresses) low
  script.decodedAt ((script.addresses.take high).drop low)

theorem searchedWindow_eq_window (script : Script) (first last : UInt32) :
    script.searchedWindow first last = script.window first last := by
  have haddresses : (script.addresses.take (max (Cut.search (· ≤ last) script.addresses)
      (Cut.search (· < first) script.addresses))).drop (Cut.search (· < first) script.addresses) =
        (script.window first last).map (·.1) := by
    rw [Cut.drop_take_search (endsOnce_lt script.addresses_ascending first)
      (endsOnce_le script.addresses_ascending last), addresses, List.dropWhile_map,
      List.takeWhile_map]
    rfl
  have hsubset : script.window first last ⊆ script.listing := by
    rw [window_eq_filter]
    exact List.filter_sublist.subset
  rw [searchedWindow, haddresses, decodedAt_map_of_subset hsubset]

/-- Searching agrees with scanning. A window is what a scan of the script keeps between its
two ends, whichever of them is the greater and whether or not an instruction stands there;
two windows of which one begins behind the other's end make up one. Searching for the ends
and decoding anew in between finds the same window, as decoding anew everywhere finds the
same instructions. -/
theorem window_agrees_with_scan (script : Script) (first last : UInt32) :
    script.window first last =
        script.listing.filter (fun item => first ≤ item.1 ∧ item.1 ≤ last) ∧
      (∀ cut, first ≤ cut → cut < last →
        script.window first cut ++ script.window (cut + 1) last = script.window first last) ∧
      script.searchedWindow first last = script.window first last ∧
      script.decodedAnew = script.listing :=
  ⟨window_eq_filter script first last, fun _ hfirst hlast => window_append_window hfirst hlast,
    searchedWindow_eq_window script first last, decodedAnew_eq_listing script⟩

/-- A push, a jump with its operand at 2, another push and a return. No instruction stands
at 2, and the addresses end before 9. -/
theorem window_agrees_with_scan_pushed : ∃ script,
    ofBytes [0x11, 0x26, 3, 0x12, 0x40] = .ok script ∧
      script.window 2 9 = [(3, ⟨0x12, [], 1⟩), (4, ⟨0x40, [], 1⟩)] ∧
      script.window 4 2 = [] ∧
      (1 : UInt32) ≤ 2 ∧ (2 : UInt32) < 9 ∧
      script.window 1 2 ++ script.window 3 9 = script.window 1 9 := by
  have hdisassembled : disassemble [0x11, 0x26, 3, 0x12, 0x40] =
      ⟨[(0, ⟨0x11, [], 1⟩), (1, ⟨0x26, [3], 2⟩), (3, ⟨0x12, [], 1⟩), (4, ⟨0x40, [], 1⟩)],
        none⟩ := by decide +kernel
  refine ⟨⟨_, _, hdisassembled⟩, ofBytes_eq_ok_iff.mpr rfl, ?_, ?_, by decide, by decide, ?_⟩
  · rw [(window_agrees_with_scan _ 2 9).1]
    rfl
  · rw [(window_agrees_with_scan _ 4 2).1]
    rfl
  · exact (window_agrees_with_scan _ 1 9).2.1 2 (by decide) (by decide)

end Script

end ScriptCoverage
