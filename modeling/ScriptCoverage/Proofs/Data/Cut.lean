import Mathlib.Data.List.Basic

/-!
Cutting a list where a condition ends. When the condition never returns once it has ended,
the part before the cut is what satisfies it and the part behind is the rest, and a search
that halves the list finds the cut.
-/

namespace ScriptCoverage.Cut

variable {α : Type} {p : α → Bool} {items : List α}

/-- A condition that ends in a list does not return. -/
def EndsOnce (p : α → Bool) (items : List α) : Prop :=
  items.Pairwise fun x y => p y = true → p x = true

theorem EndsOnce.filter (h : EndsOnce p items) (q : α → Bool) :
    EndsOnce p (items.filter q) :=
  List.Pairwise.filter q h

theorem takeWhile_eq_filter (h : EndsOnce p items) : items.takeWhile p = items.filter p := by
  induction items with
  | nil => rfl
  | cons x rest ih =>
      obtain ⟨hhead, hrest⟩ := List.pairwise_cons.mp h
      cases hx : p x with
      | true => rw [List.takeWhile_cons_of_pos hx, List.filter_cons_of_pos hx, ih hrest]
      | false =>
          have hnone : ∀ y ∈ rest, ¬p y = true := by
            intro y hmem hy
            rw [hhead y hmem hy] at hx
            cases hx
          have hnot : ¬p x = true := by simp [hx]
          rw [List.takeWhile_cons_of_neg hnot, List.filter_cons_of_neg hnot,
            List.filter_eq_nil_iff.mpr hnone]

theorem dropWhile_eq_filter (h : EndsOnce p items) :
    items.dropWhile p = items.filter fun x => !p x := by
  induction items with
  | nil => rfl
  | cons x rest ih =>
      obtain ⟨hhead, hrest⟩ := List.pairwise_cons.mp h
      cases hx : p x with
      | true =>
          rw [List.dropWhile_cons_of_pos hx, ih hrest, List.filter_cons]
          simp [hx]
      | false =>
          have hall : ∀ y ∈ x :: rest, (!p y) = true := by
            intro y hmem
            rcases List.mem_cons.mp hmem with rfl | hlater
            · simp [hx]
            · rw [Bool.not_eq_true', ← Bool.not_eq_true]
              intro hy
              rw [hhead y hlater hy] at hx
              cases hx
          have hnot : ¬p x = true := by simp [hx]
          rw [List.dropWhile_cons_of_neg hnot, List.filter_eq_self.mpr hall]

/-- The two parts of a cut make up the list. -/
theorem filter_append_filter_not (h : EndsOnce p items) :
    items.filter p ++ items.filter (fun x => !p x) = items := by
  rw [← takeWhile_eq_filter h, ← dropWhile_eq_filter h, List.takeWhile_append_dropWhile]

theorem takeWhile_drop (h : EndsOnce p items) (count : Nat) :
    (items.drop count).takeWhile p = (items.takeWhile p).drop count := by
  induction items generalizing count with
  | nil => simp
  | cons x rest ih =>
      cases count with
      | zero => rfl
      | succ count =>
          obtain ⟨hhead, hrest⟩ := List.pairwise_cons.mp h
          rw [List.drop_succ_cons, ih hrest]
          cases hx : p x with
          | true => rw [List.takeWhile_cons_of_pos hx, List.drop_succ_cons]
          | false =>
              have hnone : rest.takeWhile p = [] := by
                rw [takeWhile_eq_filter hrest, List.filter_eq_nil_iff]
                intro y hmem hy
                rw [hhead y hmem hy] at hx
                cases hx
              have hnot : ¬p x = true := by simp [hx]
              rw [hnone, List.takeWhile_cons_of_neg hnot, List.drop_nil, List.drop_nil]

/-- Looks for the cut between two places, in the half that the condition at the middle
leaves. -/
def searchBetween (p : α → Bool) (items : List α) (low high : Nat) : Nat :=
  if low < high then
    let middle := low + (high - low) / 2
    if items[middle]?.any p then searchBetween p items (middle + 1) high
    else searchBetween p items low middle
  else low
termination_by high - low

def search (p : α → Bool) (items : List α) : Nat :=
  searchBetween p items 0 items.length

theorem any_getElem?_iff (h : EndsOnce p items) (place : Nat) :
    items[place]?.any p = true ↔ place < (items.takeWhile p).length := by
  induction items generalizing place with
  | nil => simp
  | cons x rest ih =>
      obtain ⟨hhead, hrest⟩ := List.pairwise_cons.mp h
      cases hx : p x with
      | true =>
          rw [List.takeWhile_cons_of_pos hx, List.length_cons]
          cases place with
          | zero => simp [hx]
          | succ place => rw [List.getElem?_cons_succ, ih hrest, Nat.succ_lt_succ_iff]
      | false =>
          have hnot : ¬p x = true := by simp [hx]
          rw [List.takeWhile_cons_of_neg hnot, List.length_nil, Option.any_eq_true]
          constructor
          · rintro ⟨y, hy, hpy⟩
            rcases List.mem_cons.mp (List.mem_of_getElem? hy) with rfl | hlater
            · exact absurd hpy hnot
            · exact absurd (hhead y hlater hpy) hnot
          · intro hlt
            omega

/-- The cut stays between the two places of the search. -/
theorem searchBetween_eq (h : EndsOnce p items) {low high : Nat}
    (hlow : low ≤ (items.takeWhile p).length) (hhigh : (items.takeWhile p).length ≤ high) :
    searchBetween p items low high = (items.takeWhile p).length := by
  fun_induction searchBetween p items low high with
  | case1 low high hlt middle hbefore ih =>
      have hcut := (any_getElem?_iff h middle).mp hbefore
      exact ih hcut hhigh
  | case2 low high hlt middle hbehind ih =>
      have hcut := mt (any_getElem?_iff h middle).mpr hbehind
      exact ih hlow (Nat.not_lt.mp hcut)
  | case3 low high hlt => omega

theorem search_eq (h : EndsOnce p items) : search p items = (items.takeWhile p).length :=
  searchBetween_eq h (Nat.zero_le _) (List.takeWhile_prefix p).length_le

/-- The part between the cuts of two conditions. It is empty when the second cut comes
before the first. -/
theorem drop_take_search (hp : EndsOnce p items) {q : α → Bool} (hq : EndsOnce q items) :
    (items.take (max (search q items) (search p items))).drop (search p items) =
      (items.dropWhile p).takeWhile q := by
  have hdrop : items.drop (items.takeWhile p).length = items.dropWhile p := by
    have hleft := @List.drop_left _ (items.takeWhile p) (items.dropWhile p)
    rwa [List.takeWhile_append_dropWhile] at hleft
  have htake : items.take (items.takeWhile q).length = items.takeWhile q :=
    (List.prefix_iff_eq_take.mp (List.takeWhile_prefix q)).symm
  have hrepair : max (items.takeWhile q).length (items.takeWhile p).length -
      (items.takeWhile p).length =
        (items.takeWhile q).length - (items.takeWhile p).length := by
    omega
  rw [search_eq hp, search_eq hq, List.drop_take, hrepair, ← List.drop_take, htake,
    ← takeWhile_drop hq, hdrop]

end ScriptCoverage.Cut
