/-
# The two orders of `std::swap(flipped[last], flipped[--last])`

What the loop after `push_back` makes of an ascending list under each order. Under both of them it
adds one entry and leaves the others in their order.
-/

import Mathlib.Data.List.Induction
import LatinSquares.LocalSearch.Net

namespace LatinSquares.LocalSearch

open LatinSquares.Math

variable {order : SwapOrder} {l : List Nat} {x y v : Nat}

theorem insertFromBack_append_singleton (l : List Nat) (x y : Nat) :
    insertFromBack (l ++ [y]) x = if x < y then insertFromBack l x ++ [y] else l ++ [y, x] := by
  unfold insertFromBack
  rw [List.reverse_append, List.reverse_singleton, List.singleton_append, List.orderedInsert_cons]
  by_cases hxy : x < y
  · rw [if_neg (not_le.mpr hxy), if_pos hxy, List.reverse_cons]
  · rw [if_pos (not_lt.mp hxy), if_neg hxy]
    simp

/-- With the first argument first, the loop puts the entry into its place. -/
theorem settle_leftFirst (l suffix : List Nat) (x : Nat) :
    SwapOrder.leftFirst.settle l.length (l ++ x :: suffix) = insertFromBack l x ++ suffix := by
  induction l using List.reverseRecOn generalizing suffix with
  | nil => rfl
  | append_singleton l y ih =>
      rw [insertFromBack_append_singleton, List.length_append, List.length_singleton,
        SwapOrder.settle]
      have hlast : (l ++ [y] ++ x :: suffix).getD (l.length + 1) 0 = x := by simp
      have hbefore : (l ++ [y] ++ x :: suffix).getD l.length 0 = y := by simp
      rw [hlast, hbefore]
      split
      · have hswap : SwapOrder.leftFirst.swap (l ++ [y] ++ x :: suffix) l.length =
            l ++ x :: y :: suffix := by
          rw [SwapOrder.swap, hlast, hbefore]
          simp
        rw [hswap, ih, List.append_assoc, List.singleton_append]
      · simp

theorem enter_leftFirst (l : List Nat) (x : Nat) :
    SwapOrder.leftFirst.enter l x = insertFromBack l x := by
  rw [SwapOrder.enter, settle_leftFirst, List.append_nil]

/-- With the second argument first, the loop changes nothing. -/
theorem settle_rightFirst (last : Nat) (l : List Nat) :
    SwapOrder.rightFirst.settle last l = l := by
  induction last with
  | zero => rfl
  | succ last ih =>
      rw [SwapOrder.settle]
      split
      · exact ih
      · rfl

theorem enter_rightFirst (l : List Nat) (x : Nat) :
    SwapOrder.rightFirst.enter l x = l ++ [x] := by
  rw [SwapOrder.enter, settle_rightFirst]

theorem perm_enter (order : SwapOrder) (l : List Nat) (x : Nat) :
    (order.enter l x).Perm (x :: l) := by
  cases order with
  | leftFirst =>
      rw [enter_leftFirst]
      exact ((List.reverse_perm _).trans (List.perm_orderedInsert _ x l.reverse)).trans
        ((List.reverse_perm l).cons x)
  | rightFirst =>
      rw [enter_rightFirst]
      exact List.perm_append_singleton x l

theorem mem_enter : v ∈ order.enter l x ↔ v = x ∨ v ∈ l := by
  rw [(perm_enter order l x).mem_iff, List.mem_cons]

theorem mem_foldl_enter {vs : List Nat} : v ∈ vs.foldl order.enter l ↔ v ∈ l ∨ v ∈ vs := by
  induction vs generalizing l with
  | nil => simp
  | cons x vs ih =>
      rw [List.foldl_cons, ih, mem_enter, List.mem_cons]
      tauto

theorem pairwise_append_singleton_iff (hl : l.Pairwise (· < ·)) :
    (l ++ [x]).Pairwise (· < ·) ↔ ∀ y ∈ l, y < x := by
  rw [List.pairwise_append]
  simp [hl]

/-- A new entry leaves the list ascending with the first order, and with the second one if it is
greater than all others. -/
theorem pairwise_enter_iff (hl : l.Pairwise (· < ·)) (hx : x ∉ l) :
    (order.enter l x).Pairwise (· < ·) ↔ order = .leftFirst ∨ ∀ y ∈ l, y < x := by
  cases order with
  | leftFirst =>
      rw [enter_leftFirst]
      exact iff_of_true (pairwise_insertFromBack hl hx) (Or.inl rfl)
  | rightFirst =>
      rw [enter_rightFirst, pairwise_append_singleton_iff hl]
      simp

end LatinSquares.LocalSearch
