/-
# The meaning of the shared blocks

`codeSufficient` says that every list of literals has exactly one true member.
`greaterOrEqual vars k` writes the rules of a sequential counter over the marks
"`vars[i]` is false", with the bits `svars`; projected to `vars` it says that at
most `k` of them are false, and after the first `c` of its tightening
expressions have been added it says that at most `k - (c - 1)` are.
-/

import LatinSquares.Generator.Building
import LatinSquares.Math.SequentialCounter

namespace LatinSquares.Generator

open LatinSquares.Math
open Expression (and)

/-- What holds of the entries and of the default holds of every entry that is read. -/
theorem getD_of_forall {α : Type} {P : α → Prop} {xs : List α} {d : α} (hd : P d)
    (h : ∀ x ∈ xs, P x) (i : Nat) : P (xs.getD i d) := by
  by_cases hi : i < xs.length
  · rw [List.getD_eq_getElem _ _ hi]
    exact h _ (List.getElem_mem hi)
  · rw [List.getD_eq_default _ _ (Nat.le_of_not_lt hi)]
    exact hd

theorem mem_rangeUntil {a b i : Nat} : i ∈ rangeUntil a b ↔ a ≤ i ∧ i < b := by
  rw [rangeUntil, List.mem_range'_1]
  omega

@[simp]
theorem eval_orLiterals (α : Assignment) (ls : List Literal) :
    (orLiterals ls).eval α = ls.any (Literal.eval α) := by
  simp [orLiterals, List.any_map, Function.comp_def]

/-- "Not both". -/
theorem eval_orLiterals_not_not {α : Assignment} {a b : Literal} :
    (orLiterals [a.not, b.not]).eval α = true ↔ (a.eval α = true → b.eval α = false) := by
  cases ha : a.eval α <;> simp [ha]

/-- Exactly one literal of the list is true. -/
def OneTrue (α : Assignment) (ls : List Literal) : Prop :=
  ∃! i, i < ls.length ∧ (ls.getD i default).eval α = true

section OneHot

variable {α : Assignment} {vars : List Literal} {isImportant : Bool} {c : Nat}

theorem eval_codeAtLeastOne :
    (codeAtLeastOne vars isImportant).eval α = true ↔
      ∃ i, i < vars.length ∧ (vars.getD i default).eval α = true := by
  rw [codeAtLeastOne, Expression.eval_mark, eval_orLiterals, List.any_eq_true]
  constructor
  · rintro ⟨l, hl, heval⟩
    obtain ⟨i, hi, rfl⟩ := List.mem_iff_getElem.mp hl
    exact ⟨i, hi, by rwa [List.getD_eq_getElem _ _ hi]⟩
  · rintro ⟨i, hi, heval⟩
    exact ⟨vars[i], List.getElem_mem hi, by rwa [List.getD_eq_getElem _ _ hi] at heval⟩

theorem eval_codeDistinct :
    (codeDistinct vars isImportant).eval α = true ↔
      ∀ i j, i < j → j < vars.length → (vars.getD i default).eval α = true →
        (vars.getD j default).eval α = false := by
  simp only [codeDistinct, Expression.eval_markArgs, Expression.eval_and, List.all_eq_true,
    List.mem_flatMap, List.mem_range, List.mem_map, mem_rangeUntil]
  constructor
  · intro h i j hij hj hi
    exact eval_orLiterals_not_not.mp (h _ ⟨i, by omega, j, ⟨by omega, hj⟩, rfl⟩) hi
  · rintro h e ⟨i, -, j, ⟨hij, hj⟩, rfl⟩
    exact eval_orLiterals_not_not.mpr (h i j (by omega) hj)

/-- "At least one" and "no two" together. -/
theorem eval_codeSufficient {vars : List (List Literal)} :
    (codeSufficient vars isImportant).eval α = true ↔ ∀ ls ∈ vars, OneTrue α ls := by
  simp only [codeSufficient, Expression.eval_and, List.all_map, List.all_eq_true,
    Function.comp_apply, List.mem_cons, List.not_mem_nil, or_false, forall_eq_or_imp, forall_eq,
    eval_codeAtLeastOne, eval_codeDistinct]
  refine forall_congr' fun ls => forall_congr' fun _ => ?_
  constructor
  · rintro ⟨⟨i, hi, htrue⟩, hdistinct⟩
    refine ⟨i, ⟨hi, htrue⟩, ?_⟩
    rintro j ⟨hj, hjtrue⟩
    rcases lt_trichotomy i j with hij | rfl | hji
    · rw [hdistinct i j hij hj htrue] at hjtrue
      cases hjtrue
    · rfl
    · rw [hdistinct j i hji hi hjtrue] at htrue
      cases htrue
  · rintro ⟨i, ⟨hi, htrue⟩, hunique⟩
    refine ⟨⟨i, hi, htrue⟩, fun j j' hjj' hj' hj => ?_⟩
    by_contra hj'true
    have hij := hunique j ⟨by omega, hj⟩
    have hij' := hunique j' ⟨hj', Bool.of_not_eq_false hj'true⟩
    omega

theorem getD_within {vars : List Literal} (h : ∀ l ∈ vars, l.Within c) (i : Nat) :
    (vars.getD i default).Within c :=
  getD_of_forall Literal.within_constFalse h i

theorem codeSufficient_proper {vars : List (List Literal)}
    (h : ∀ ls ∈ vars, ∀ l ∈ ls, l.Within c) : (codeSufficient vars isImportant).Proper c := by
  refine Expression.proper_and fun e he => ?_
  obtain ⟨ls, hls, rfl⟩ := List.mem_map.mp he
  refine Expression.proper_and fun e he => ?_
  rcases List.mem_pair.mp he with rfl | rfl
  · exact (Expression.proper_orLiterals (h ls hls)).mark _
  · refine (Expression.proper_and fun e he => ?_).markArgs _
    obtain ⟨i, -, he⟩ := List.mem_flatMap.mp he
    obtain ⟨j, -, rfl⟩ := List.mem_map.mp he
    refine Expression.proper_orLiterals fun l hl => ?_
    rcases List.mem_pair.mp hl with rfl | rfl
    · exact Literal.within_not.mpr (getD_within (h ls hls) i)
    · exact Literal.within_not.mpr (getD_within (h ls hls) j)

/-- The one-hot clauses may be ignored where they are known to hold. -/
theorem codeSufficient_ignoredHold {vars : List (List Literal)}
    (h : isImportant = false → ∀ ls ∈ vars, OneTrue α ls) :
    (codeSufficient vars isImportant).IgnoredHold α := by
  have heval : isImportant = false → ∀ ls ∈ vars,
      (codeAtLeastOne ls isImportant).eval α = true ∧
        (codeDistinct ls isImportant).eval α = true := by
    intro himportant ls hls
    have hall : (codeSufficient vars isImportant).eval α = true :=
      eval_codeSufficient.mpr (h himportant)
    simp only [codeSufficient, Expression.eval_and, List.all_map, List.all_eq_true,
      Function.comp_apply, List.mem_cons, List.not_mem_nil, or_false, forall_eq_or_imp,
      forall_eq] at hall
    exact hall ls hls
  refine Expression.ignoredHold_and fun e he => ?_
  obtain ⟨ls, hls, rfl⟩ := List.mem_map.mp he
  refine Expression.ignoredHold_and fun e he => ?_
  rcases List.mem_pair.mp he with rfl | rfl
  · refine Expression.ignoredHold_mark_false _ (fun himportant => ?_)
      (Expression.ignoredHold_orLiterals _)
    simpa [codeAtLeastOne] using (heval himportant ls hls).1
  · refine Expression.ignoredHold_markArgs _ fun himportant => ?_
    simpa [codeDistinct] using (heval himportant ls hls).2

/-- One-hot clauses over variables are no `False`. -/
theorem isFalse_codeSufficient {vars : List (List Literal)}
    (h : ∀ ls ∈ vars, ls ≠ [] ∧ ∀ l ∈ ls, ∃ v, l = .var v) :
    (codeSufficient vars isImportant).isFalse = false := by
  rw [codeSufficient, Expression.isFalse_and, List.any_eq_false]
  intro e he
  obtain ⟨ls, hls, rfl⟩ := List.mem_map.mp he
  obtain ⟨hne, hvariables⟩ := h ls hls
  have hget : ∀ i < ls.length, ∃ v, ls.getD i default = .var v := by
    intro i hi
    rw [List.getD_eq_getElem _ _ hi]
    exact hvariables _ (List.getElem_mem hi)
  rw [Expression.isFalse_and, Bool.not_eq_true, List.any_eq_false]
  intro e he
  rcases List.mem_pair.mp he with rfl | rfl
  · obtain ⟨l, hl⟩ := List.exists_mem_of_ne_nil ls hne
    obtain ⟨v, rfl⟩ := hvariables l hl
    rw [codeAtLeastOne, Expression.isFalse_mark, Expression.isFalse_orLiterals hl (by simp)]
    simp
  · rw [codeDistinct, Expression.isFalse_markArgs, Expression.isFalse_and, Bool.not_eq_true,
      List.any_eq_false]
    intro e he
    obtain ⟨i, hi, he⟩ := List.mem_flatMap.mp he
    obtain ⟨j, -, rfl⟩ := List.mem_map.mp he
    obtain ⟨v, hv⟩ := hget i (List.mem_range.mp hi)
    rw [hv]
    exact Bool.not_eq_true _ |>.mpr (Expression.isFalse_orLiterals_notVar v _)

end OneHot

end LatinSquares.Generator
