/-
# How many bags there are

`get_number_of_combinations` of `utils/utils.cpp`, which decides in `solve` whether all bags are
tried or a sample of them. The falling factorial is multiplied up first and divided by the
factorial in the end. The guard after a multiplication asks whether the same factor would fit
once more, so nothing wraps around; it also turns away numbers of combinations that would fit.
-/

import Mathlib.Data.Nat.Choose.Basic
import Mathlib.Data.Nat.Factorial.BigOperators

namespace LatinSquares.LocalSearch

/-- `UINT64_MAX`. -/
def uint64Max : UInt64 := 18446744073709551615

/-- The body of the first loop; `none` stands for the early return. -/
def multiply (n : UInt32) (result : UInt64) (i : Nat) : Option UInt64 :=
  let factor := (n - UInt32.ofNat i).toUInt64
  let result := result * factor
  if uint64Max / factor < result then none else some result

/-- The first loop after some rounds. -/
def fallingProduct (n : UInt32) (rounds : Nat) : Option UInt64 :=
  (List.range rounds).foldlM (multiply n) 1

/-- The second loop up to a divisor. -/
def divideBy (result : UInt64) (last : Nat) : UInt64 :=
  (List.range' 2 (last - 1)).foldl (fun result i => result / UInt64.ofNat i) result

/-- `get_number_of_combinations`. -/
def getNumberOfCombinations (n k : UInt32) : UInt64 :=
  match fallingProduct n k.toNat with
  | none => uint64Max
  | some result => divideBy result k.toNat

/-- The test in `solve` that chooses the sample. -/
def samples (size bagSize : UInt32) : Bool :=
  getNumberOfCombinations size bagSize > 10000000

/-- What is asked of the function: no product wraps, every quotient is the floor of the true
one, the result is the number of combinations if that has 64 bits, and `solve` chooses the
branch for the true number. -/
structure CountsExactly (n k : UInt32) : Prop where
  noWrap : ∀ i < k.toNat, ∀ result, fallingProduct n i = some result →
    result.toNat * (n - UInt32.ofNat i).toNat < 2 ^ 64
  floors : ∀ result, fallingProduct n k.toNat = some result → ∀ j ≤ k.toNat,
    (divideBy result j).toNat = n.toNat.descFactorial k.toNat / j.factorial
  value : n.toNat.choose k.toNat < 2 ^ 64 →
    (getNumberOfCombinations n k).toNat = n.toNat.choose k.toNat
  gaveUp : fallingProduct n k.toNat = none → 2 ^ 64 ≤ n.toNat.choose k.toNat
  branch : samples n k = true ↔ 10000000 < n.toNat.choose k.toNat

/-- Every product of the first loop fits a second time. -/
def FitsTwice (n k : Nat) : Prop := ∀ i < k, n.descFactorial (i + 1) * (n - i) < 2 ^ 64

instance (n k : Nat) : Decidable (FitsTwice n k) :=
  inferInstanceAs (Decidable (∀ i < k, n.descFactorial (i + 1) * (n - i) < 2 ^ 64))

variable {n k : UInt32} {result : UInt64} {i : Nat}

theorem toNat_sub_ofNat (hi : i < n.toNat) : (n - UInt32.ofNat i).toNat = n.toNat - i := by
  have hsize : i < UInt32.size := hi.trans n.toNat_lt
  have hle : UInt32.ofNat i ≤ n := by
    rw [UInt32.le_iff_toNat_le, UInt32.toNat_ofNat_of_lt' hsize]
    exact hi.le
  rw [UInt32.toNat_sub_of_le n _ hle, UInt32.toNat_ofNat_of_lt' hsize]

/-- One round on a product that leaves room for the factor. -/
theorem multiply_eq (hi : i < n.toNat) (hroom : result.toNat * (n.toNat - i) < 2 ^ 64) :
    multiply n result i =
      if result.toNat * (n.toNat - i) * (n.toNat - i) < 2 ^ 64 then
        some (result * (n - UInt32.ofNat i).toUInt64)
      else none := by
  have hfactor : (n - UInt32.ofNat i).toUInt64.toNat = n.toNat - i := by
    rw [UInt32.toNat_toUInt64, toNat_sub_ofNat hi]
  have hproduct : (result * (n - UInt32.ofNat i).toUInt64).toNat =
      result.toNat * (n.toNat - i) := by
    rw [UInt64.toNat_mul, hfactor, Nat.mod_eq_of_lt hroom]
  have hguard : uint64Max / (n - UInt32.ofNat i).toUInt64 <
      result * (n - UInt32.ofNat i).toUInt64 ↔
        ¬ result.toNat * (n.toNat - i) * (n.toNat - i) < 2 ^ 64 := by
    rw [UInt64.lt_iff_toNat_lt, UInt64.toNat_div, hproduct, hfactor,
      Nat.div_lt_iff_lt_mul (by omega)]
    have hmax : uint64Max.toNat = 2 ^ 64 - 1 := rfl
    omega
  unfold multiply
  simp only [hguard, ite_not]

/-- What fits twice leaves room for the next factor, which is smaller. -/
theorem FitsTwice.room (h : FitsTwice n.toNat i) :
    n.toNat.descFactorial i * (n.toNat - i) < 2 ^ 64 := by
  cases i with
  | zero =>
      have hlt := n.toNat_lt
      simp only [Nat.descFactorial_zero, one_mul, Nat.sub_zero]
      omega
  | succ i =>
      calc n.toNat.descFactorial (i + 1) * (n.toNat - (i + 1))
          ≤ n.toNat.descFactorial (i + 1) * (n.toNat - i) := by
            apply Nat.mul_le_mul_left
            omega
        _ < 2 ^ 64 := h i i.lt_succ_self

theorem FitsTwice.mono {n j : Nat} (h : FitsTwice n (j + 1)) : FitsTwice n j :=
  fun i hi => h i (Nat.lt_succ_of_lt hi)

theorem fallingProduct_succ :
    fallingProduct n (i + 1) = (fallingProduct n i).bind fun result => multiply n result i := by
  unfold fallingProduct
  rw [List.range_succ, List.foldlM_append]
  simp

/-- The rounds compute the falling factorial as long as every product fits twice, and no
longer. -/
theorem fallingProduct_spec (hi : i ≤ n.toNat) :
    (FitsTwice n.toNat i → ∃ result, fallingProduct n i = some result ∧
      result.toNat = n.toNat.descFactorial i) ∧
    (¬ FitsTwice n.toNat i → fallingProduct n i = none) := by
  induction i with
  | zero =>
      constructor
      · exact fun _ => ⟨1, rfl, rfl⟩
      · exact fun h => absurd (fun j hj => absurd hj j.not_lt_zero) h
  | succ i ih =>
      obtain ⟨hfits, hnone⟩ := ih (Nat.le_of_succ_le hi)
      rw [fallingProduct_succ]
      by_cases h : FitsTwice n.toNat i
      · obtain ⟨result, hresult, hvalue⟩ := hfits h
        have hroom := h.room
        rw [← hvalue] at hroom
        have hnext : n.toNat.descFactorial (i + 1) = result.toNat * (n.toNat - i) := by
          rw [Nat.descFactorial_succ, hvalue, Nat.mul_comm]
        rw [hresult, Option.bind_some, multiply_eq hi hroom, ← hnext]
        constructor
        · intro hsucc
          refine ⟨_, if_pos (hsucc i i.lt_succ_self), ?_⟩
          rw [UInt64.toNat_mul, UInt32.toNat_toUInt64, toNat_sub_ofNat hi,
            Nat.mod_eq_of_lt hroom, hnext]
        · intro hsucc
          apply if_neg
          intro hlast
          apply hsucc
          intro j hj
          rcases Nat.lt_succ_iff_lt_or_eq.mp hj with hlt | rfl
          · exact h j hlt
          · exact hlast
      · rw [hnone h]
        exact ⟨fun hsucc => absurd hsucc.mono h, fun _ => rfl⟩

theorem fitsTwice_of_fallingProduct (hi : i ≤ n.toNat) (h : fallingProduct n i = some result) :
    FitsTwice n.toNat i ∧ result.toNat = n.toNat.descFactorial i := by
  obtain ⟨hfits, hnone⟩ := fallingProduct_spec hi
  by_cases hi : FitsTwice n.toNat i
  · obtain ⟨result', hresult, hvalue⟩ := hfits hi
    cases h.symm.trans hresult
    exact ⟨hi, hvalue⟩
  · cases h.symm.trans (hnone hi)

/-- Dividing by the numbers up to `last` in turn is dividing by their product. -/
theorem toNat_divideBy {last : Nat} (hlast : last < 2 ^ 64) :
    (divideBy result last).toNat = result.toNat / last.factorial := by
  induction last with
  | zero => simp [divideBy]
  | succ last ih =>
      cases last with
      | zero => simp [divideBy]
      | succ last =>
          have hstep : divideBy result (last + 2) =
              divideBy result (last + 1) / UInt64.ofNat (last + 2) := by
            unfold divideBy
            rw [Nat.add_sub_cancel, show last + 2 - 1 = last + 1 by omega, List.range'_concat,
              List.foldl_append]
            simp [Nat.add_comm]
          rw [hstep, UInt64.toNat_div, ih (by omega), UInt64.toNat_ofNat_of_lt' hlast,
            Nat.div_div_eq_div_mul, Nat.mul_comm, ← Nat.factorial_succ]

/-- The value of the function when no product is turned away. -/
theorem toNat_getNumberOfCombinations (hk : k ≤ n) (h : fallingProduct n k.toNat = some result) :
    (getNumberOfCombinations n k).toNat = n.toNat.choose k.toNat := by
  obtain ⟨-, hvalue⟩ := fitsTwice_of_fallingProduct (UInt32.le_iff_toNat_le.mp hk) h
  have hlt := k.toNat_lt
  unfold getNumberOfCombinations
  rw [h, toNat_divideBy (by omega), hvalue, Nat.choose_eq_descFactorial_div_factorial]

/-- The function counts exactly if and only if every product of the loop fits once more with its
last factor, or the true number does not have 64 bits. -/
theorem countsExactly_iff (hk : k ≤ n) :
    CountsExactly n k ↔ FitsTwice n.toNat k.toNat ∨ 2 ^ 64 ≤ n.toNat.choose k.toNat := by
  have hkn := UInt32.le_iff_toNat_le.mp hk
  obtain ⟨hfits, hnone⟩ := fallingProduct_spec hkn
  constructor
  · intro h
    by_cases hfit : FitsTwice n.toNat k.toNat
    · exact Or.inl hfit
    · exact Or.inr (h.gaveUp (hnone hfit))
  · intro h
    constructor
    · intro i hi result hresult
      obtain ⟨hfit, hvalue⟩ := fitsTwice_of_fallingProduct (by omega) hresult
      rw [toNat_sub_ofNat (by omega), hvalue]
      exact hfit.room
    · intro result hresult j hj
      have hlt := k.toNat_lt
      rw [toNat_divideBy (by omega), (fitsTwice_of_fallingProduct hkn hresult).2]
    · intro hsmall
      obtain ⟨result, hresult, -⟩ := hfits (h.resolve_right (by omega))
      exact toNat_getNumberOfCombinations hk hresult
    · intro hgave
      refine h.resolve_left fun hfit => ?_
      obtain ⟨result, hresult, -⟩ := hfits hfit
      cases hgave.symm.trans hresult
    · unfold samples
      rw [decide_eq_true_iff, gt_iff_lt, UInt64.lt_iff_toNat_lt]
      by_cases hfit : FitsTwice n.toNat k.toNat
      · obtain ⟨result, hresult, -⟩ := hfits hfit
        rw [toNat_getNumberOfCombinations hk hresult]
        rfl
      · have hbig := h.resolve_left hfit
        have hmax : (getNumberOfCombinations n k).toNat = 2 ^ 64 - 1 := by
          unfold getNumberOfCombinations
          rw [hnone hfit]
          rfl
        rw [hmax]
        have hten : (10000000 : UInt64).toNat = 10000000 := rfl
        omega

theorem countsExactly_sixtyFive : CountsExactly 60 5 :=
  (countsExactly_iff (by decide)).mpr (Or.inl (by decide))

/-- Of 30 meta variables there are 30 bags of 29, and `solve` takes a sample of them. -/
theorem not_countsExactly :
    ¬ ∀ n k : UInt32, 1 ≤ k → k ≤ n → CountsExactly n k := by
  intro h
  have hcount := (h 30 29 (by decide) (by decide)).value (by decide)
  exact absurd hcount (by decide)

end LatinSquares.LocalSearch
