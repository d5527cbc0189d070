/-
# Partitions of a number

The partitions of `n` into parts of at least `m`, each written in ascending order,
in lexicographic order. `smallest` is the first of them, `[n]` the last, and a
partition that ends in the parts `a, b` is followed by the one that keeps what
stands before them and continues with `smallest (a + b) (a + 1)`.
-/

import Mathlib.Data.List.Chain
import Mathlib.Data.List.Nodup
import Mathlib.Data.List.Basic
import Mathlib.Algebra.BigOperators.Group.List.Basic
import Mathlib.Tactic.Ring

namespace LatinSquares.Math

/-- The partitions of `n` with parts of at least `m`. -/
def partitions (n m : Nat) : List (List Nat) :=
  if n < 2 * m ∨ m = 0 then [[n]]
  else (partitions (n - m) m).map (m :: ·) ++ partitions n (m + 1)
termination_by 2 * n - m

theorem partitions_of_lt {n m : Nat} (h : n < 2 * m) : partitions n m = [[n]] := by
  rw [partitions, if_pos (Or.inl h)]

theorem partitions_of_le {n m : Nat} (hm : 0 < m) (h : 2 * m ≤ n) :
    partitions n m = (partitions (n - m) m).map (m :: ·) ++ partitions n (m + 1) := by
  rw [partitions, if_neg (by omega)]

/-- The induction that follows the list: a partition starts with the least part
allowed, or the least part is raised. -/
theorem partitions_induction {motive : Nat → Nat → Prop}
    (last : ∀ n m, 0 < m → m ≤ n → n < 2 * m → motive n m)
    (step : ∀ n m, 0 < m → 2 * m ≤ n → motive (n - m) m → motive n (m + 1) → motive n m)
    (n m : Nat) (hm : 0 < m) (hn : m ≤ n) : motive n m := by
  rcases Nat.lt_or_ge n (2 * m) with h | h
  · exact last n m hm hn h
  · exact step n m hm h (partitions_induction last step (n - m) m hm (by omega))
      (partitions_induction last step n (m + 1) (by omega) (by omega))
termination_by 2 * n - m

/-- The first partition: as many copies of `m` as leave a last part of at least `m`. -/
def smallest (n m : Nat) : List Nat :=
  List.replicate (n / m - 1) m ++ [n - (n / m - 1) * m]

theorem smallest_of_lt {n m : Nat} (hn : n < 2 * m) : smallest n m = [n] := by
  have hdiv : n / m - 1 = 0 := by
    have := Nat.div_lt_of_lt_mul (Nat.mul_comm 2 m ▸ hn)
    omega
  rw [smallest, hdiv]
  simp

theorem smallest_of_le {n m : Nat} (hm : 0 < m) (hn : 2 * m ≤ n) :
    smallest n m = m :: smallest (n - m) m := by
  have hdiv : n / m = (n - m) / m + 1 := by
    rw [← Nat.add_div_right _ hm, Nat.sub_add_cancel (by omega)]
  have hpos : 0 < (n - m) / m := Nat.div_pos (by omega) hm
  obtain ⟨copies, hcopies⟩ : ∃ copies, (n - m) / m = copies + 1 := ⟨(n - m) / m - 1, by omega⟩
  simp only [smallest, hdiv, hcopies, Nat.add_sub_cancel, List.replicate_succ, List.cons_append,
    Nat.add_mul, Nat.one_mul]
  rw [Nat.add_comm (copies * m) m, Nat.sub_sub]

/-- The parts add up to `n` and none is smaller than `m`. -/
theorem sum_of_mem_partitions {n m : Nat} (hm : 0 < m) (hn : m ≤ n) :
    ∀ l ∈ partitions n m, l.sum = n ∧ ∀ a ∈ l, m ≤ a := by
  refine partitions_induction (motive := fun n m => ∀ l ∈ partitions n m,
    l.sum = n ∧ ∀ a ∈ l, m ≤ a) (fun n m hm hn h l hl => ?_)
    (fun n m hm h ih ih' l hl => ?_) n m hm hn
  · rw [partitions_of_lt h, List.mem_singleton] at hl
    simp [hl, hn]
  · rw [partitions_of_le hm h, List.mem_append, List.mem_map] at hl
    rcases hl with ⟨l, hl, rfl⟩ | hl
    · obtain ⟨hsum, hparts⟩ := ih l hl
      refine ⟨by rw [List.sum_cons, hsum]; omega, ?_⟩
      simpa using hparts
    · obtain ⟨hsum, hparts⟩ := ih' l hl
      exact ⟨hsum, fun a ha => (Nat.le_succ m).trans (hparts a ha)⟩

/-- Every ascending list of parts of at least `m` that add up to `n` is listed. -/
theorem mem_partitions {n m : Nat} (hm : 0 < m) (hn : m ≤ n) :
    ∀ l : List Nat, l.Pairwise (· ≤ ·) → (∀ a ∈ l, m ≤ a) → l.sum = n → l ∈ partitions n m := by
  refine partitions_induction (motive := fun n m => ∀ l : List Nat, l.Pairwise (· ≤ ·) →
    (∀ a ∈ l, m ≤ a) → l.sum = n → l ∈ partitions n m)
    (fun n m hm hn h l hsorted hparts hsum => ?_)
    (fun n m hm h ih ih' l hsorted hparts hsum => ?_) n m hm hn
  · rw [partitions_of_lt h, List.mem_singleton]
    match l with
    | [] => simp at hsum; omega
    | [a] => simpa using hsum
    | a :: b :: l =>
        have ha := hparts a (by simp)
        have hb := hparts b (by simp)
        simp only [List.sum_cons] at hsum
        omega
  · rw [partitions_of_le hm h, List.mem_append, List.mem_map]
    match l with
    | [] => simp at hsum; omega
    | a :: l =>
        have hle := (List.pairwise_cons.mp hsorted).1
        rcases Nat.eq_or_lt_of_le (hparts a (by simp)) with ha | ha
        · left
          refine ⟨l, ih l (List.pairwise_cons.mp hsorted).2
            (fun b hb => hparts b (List.mem_cons_of_mem _ hb)) ?_, by rw [ha]⟩
          rw [List.sum_cons] at hsum
          omega
        · right
          refine ih' (a :: l) hsorted (fun b hb => ?_) hsum
          rcases List.mem_cons.mp hb with rfl | hb
          · exact ha
          · exact (Nat.succ_le_of_lt ha).trans (hle b hb)

/-- Every listed partition is ascending. -/
theorem sorted_of_mem_partitions {n m : Nat} (hm : 0 < m) (hn : m ≤ n) :
    ∀ l ∈ partitions n m, l.Pairwise (· ≤ ·) := by
  refine partitions_induction (motive := fun n m => ∀ l ∈ partitions n m, l.Pairwise (· ≤ ·))
    (fun n m _ _ h l hl => ?_) (fun n m hm h ih ih' l hl => ?_) n m hm hn
  · rw [partitions_of_lt h, List.mem_singleton] at hl
    simp [hl]
  · rw [partitions_of_le hm h, List.mem_append, List.mem_map] at hl
    rcases hl with ⟨l, hl, rfl⟩ | hl
    · have hparts := (sum_of_mem_partitions hm (by omega) l hl).2
      exact List.pairwise_cons.mpr ⟨hparts, ih l hl⟩
    · exact ih' l hl

/-- No partition is listed twice: those that start with the least part allowed differ from
those whose parts are all larger. -/
theorem nodup_partitions {n m : Nat} (hm : 0 < m) (hn : m ≤ n) : (partitions n m).Nodup := by
  refine partitions_induction (motive := fun n m => (partitions n m).Nodup)
    (fun n m _ _ h => ?_) (fun n m hm h ih ih' => ?_) n m hm hn
  · rw [partitions_of_lt h]
    exact List.nodup_singleton _
  · rw [partitions_of_le hm h]
    apply List.Nodup.append
    · exact ih.map (List.cons_injective)
    · exact ih'
    · intro l hl hl'
      obtain ⟨tail, -, rfl⟩ := List.mem_map.mp hl
      have hparts := (sum_of_mem_partitions (by omega) (by omega) _ hl').2 m List.mem_cons_self
      omega

/-- There are at most `2 ^ (n + 1 - m)` partitions. -/
theorem length_partitions_le {n m : Nat} (hm : 0 < m) (hn : m ≤ n) :
    (partitions n m).length ≤ 2 ^ (n + 1 - m) := by
  refine partitions_induction (motive := fun n m => (partitions n m).length ≤ 2 ^ (n + 1 - m))
    (fun n m _ _ h => ?_) (fun n m hm h ih ih' => ?_) n m hm hn
  · rw [partitions_of_lt h]
    exact Nat.one_le_two_pow
  · rw [partitions_of_le hm h, List.length_append, List.length_map]
    calc (partitions (n - m) m).length + (partitions n (m + 1)).length
      _ ≤ 2 ^ (n - m + 1 - m) + 2 ^ (n + 1 - (m + 1)) := Nat.add_le_add ih ih'
      _ ≤ 2 ^ (n - m) + 2 ^ (n - m) := by
        apply Nat.add_le_add
        · exact Nat.pow_le_pow_right (by decide) (by omega)
        · exact Nat.pow_le_pow_right (by decide) (by omega)
      _ = 2 ^ (n + 1 - m) := by
        rw [show n + 1 - m = n - m + 1 from by omega, Nat.pow_succ]
        omega

/-- The list runs from the smallest partition to `[n]`. -/
theorem head_partitions {n m : Nat} (hm : 0 < m) (hn : m ≤ n) :
    (partitions n m).head? = some (smallest n m) := by
  refine partitions_induction (motive := fun n m => (partitions n m).head? = some (smallest n m))
    (fun n m _ _ h => ?_) (fun n m hm h ih _ => ?_) n m hm hn
  · rw [partitions_of_lt h, smallest_of_lt h, List.head?_cons]
  · rw [partitions_of_le hm h, smallest_of_le hm h, List.head?_append, List.head?_map, ih]
    simp

theorem getLast_partitions {n m : Nat} (hm : 0 < m) (hn : m ≤ n) :
    (partitions n m).getLast? = some [n] := by
  refine partitions_induction (motive := fun n m => (partitions n m).getLast? = some [n])
    (fun n m _ _ h => ?_) (fun n m hm h _ ih => ?_) n m hm hn
  · rw [partitions_of_lt h, List.getLast?_singleton]
  · rw [partitions_of_le hm h, List.getLast?_append, ih]
    simp

/-- The partition after `x` is `y`: a common start, then the last two parts of `x`
are written anew. -/
def Follows (x y : List Nat) : Prop :=
  ∃ start a b, x = start ++ [a, b] ∧ y = start ++ smallest (a + b) (a + 1)

theorem Follows.cons {x y : List Nat} (a : Nat) (h : Follows x y) : Follows (a :: x) (a :: y) := by
  obtain ⟨start, b, c, rfl, rfl⟩ := h
  exact ⟨a :: start, b, c, rfl, rfl⟩

theorem Follows.exists_length {x y : List Nat} (h : Follows x y) : 2 ≤ x.length := by
  obtain ⟨start, a, b, rfl, -⟩ := h
  simp

theorem isChain_partitions {n m : Nat} (hm : 0 < m) (hn : m ≤ n) :
    (partitions n m).IsChain Follows := by
  refine partitions_induction (motive := fun n m => (partitions n m).IsChain Follows)
    (fun n m _ _ h => ?_) (fun n m hm h ih ih' => ?_) n m hm hn
  · rw [partitions_of_lt h]
    exact List.isChain_singleton _
  · rw [partitions_of_le hm h, List.isChain_append]
    refine ⟨(List.isChain_map_of_isChain (m :: ·) (fun _ _ hxy => hxy.cons m)) ih, ih', ?_⟩
    intro x hx y hy
    rw [List.getLast?_map, getLast_partitions hm (by omega), Option.map_some,
      Option.mem_some_iff] at hx
    rw [head_partitions (by omega) (by omega), Option.mem_some_iff] at hy
    refine ⟨[], m, n - m, hx.symm, ?_⟩
    rw [← hy, List.nil_append, Nat.add_sub_cancel' (by omega)]

end LatinSquares.Math
