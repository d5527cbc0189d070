/-
# Ordered systems of definitions

A definition gives one variable a value computed from the variables it reads. In an
ordered system every definition comes after those of the variables it reads, so one
pass makes all of them hold, and the values of the other variables leave no choice.
-/

import Mathlib.Logic.Function.Basic
import Mathlib.Data.List.Basic

namespace LatinSquares.Math

variable {V B : Type}

/-- A variable together with the function that computes it and the variables this
function depends on. -/
structure Definition (V B : Type) where
  target : V
  reads : List V
  value : (V → B) → B
  value_congr : ∀ f g, (∀ v ∈ reads, f v = g v) → value f = value g

/-- Every variable has the value of its definition. -/
def Respects (ds : List (Definition V B)) (f : V → B) : Prop :=
  ∀ d ∈ ds, f d.target = d.value f

/-- No definition reads its own variable or one defined later, and no variable is
defined twice. -/
structure Ordered (ds : List (Definition V B)) : Prop where
  irreflexive : ∀ d ∈ ds, d.target ∉ d.reads
  forward : ds.Pairwise fun d e => e.target ∉ d.reads ∧ d.target ≠ e.target

namespace Ordered

variable {d : Definition V B} {ds : List (Definition V B)}

theorem tail (h : Ordered (d :: ds)) : Ordered ds where
  irreflexive e he := h.irreflexive e (List.mem_cons_of_mem _ he)
  forward := (List.pairwise_cons.mp h.forward).2

/-- The first definition reads no variable of the system. -/
theorem head_reads (h : Ordered (d :: ds)) : ∀ e ∈ d :: ds, e.target ∉ d.reads := by
  intro e he
  cases List.mem_cons.mp he with
  | inl heq =>
      rw [heq]
      exact h.irreflexive d List.mem_cons_self
  | inr htail => exact ((List.pairwise_cons.mp h.forward).1 e htail).1

end Ordered

variable [DecidableEq V]

/-- Every variable recomputed in turn. -/
def recompute (ds : List (Definition V B)) (f : V → B) : V → B :=
  ds.foldl (fun f d => Function.update f d.target (d.value f)) f

@[simp]
theorem recompute_nil (f : V → B) : recompute [] f = f := rfl

@[simp]
theorem recompute_cons (d : Definition V B) (ds : List (Definition V B)) (f : V → B) :
    recompute (d :: ds) f = recompute ds (Function.update f d.target (d.value f)) := rfl

/-- Variables without a definition keep their values. -/
theorem recompute_of_not_target {ds : List (Definition V B)} {v : V} (f : V → B)
    (hv : ∀ d ∈ ds, d.target ≠ v) : recompute ds f v = f v := by
  induction ds generalizing f with
  | nil => rfl
  | cons d ds ih =>
      rw [recompute_cons, ih _ fun e he => hv e (List.mem_cons_of_mem _ he)]
      exact Function.update_of_ne (hv d List.mem_cons_self).symm _ _

/-- Where all definitions hold already, recomputing changes nothing. -/
theorem recompute_of_respects {ds : List (Definition V B)} {f : V → B} (h : Respects ds f) :
    recompute ds f = f := by
  induction ds with
  | nil => rfl
  | cons d ds ih =>
      rw [recompute_cons, ← h d List.mem_cons_self, Function.update_eq_self]
      exact ih fun e he => h e (List.mem_cons_of_mem _ he)

/-- The result depends on the variables without a definition only. -/
theorem recompute_congr {ds : List (Definition V B)} {f g : V → B} (hds : Ordered ds)
    (hfg : ∀ v, (∀ d ∈ ds, d.target ≠ v) → f v = g v) : recompute ds f = recompute ds g := by
  induction ds generalizing f g with
  | nil =>
      funext v
      exact hfg v (by simp)
  | cons d ds ih =>
      have hvalue : d.value f = d.value g := by
        apply d.value_congr
        intro v hv
        apply hfg
        intro e he heq
        exact hds.head_reads e he (heq ▸ hv)
      rw [recompute_cons, recompute_cons]
      apply ih hds.tail
      intro v hv
      by_cases hd : v = d.target
      · rw [hd, Function.update_self, Function.update_self, hvalue]
      · rw [Function.update_of_ne hd, Function.update_of_ne hd]
        apply hfg
        intro e he
        cases List.mem_cons.mp he with
        | inl heq => rw [heq]; exact fun h => hd h.symm
        | inr htail => exact hv e htail

/-- One pass in order makes every definition hold. -/
theorem respects_recompute {ds : List (Definition V B)} (hds : Ordered ds) (f : V → B) :
    Respects ds (recompute ds f) := by
  induction ds generalizing f with
  | nil => exact fun d hd => by simp at hd
  | cons d ds ih =>
      intro e he
      rw [recompute_cons]
      cases List.mem_cons.mp he with
      | inr htail => exact ih hds.tail _ e htail
      | inl heq =>
          subst heq
          have hlater : ∀ e' ∈ ds, e'.target ≠ e.target := fun e' he' =>
            ((List.pairwise_cons.mp hds.forward).1 e' he').2.symm
          rw [recompute_of_not_target _ hlater, Function.update_self]
          apply e.value_congr
          intro v hv
          have hread : ∀ e' ∈ e :: ds, e'.target ≠ v := fun e' he' h =>
            hds.head_reads e' he' (h ▸ hv)
          rw [recompute_of_not_target _ fun e' he' => hread e' (List.mem_cons_of_mem _ he'),
            Function.update_of_ne (hread e List.mem_cons_self).symm]

/-- The variables without a definition determine the others. -/
theorem Respects.unique {ds : List (Definition V B)} {f g : V → B} (hds : Ordered ds)
    (hf : Respects ds f) (hg : Respects ds g)
    (hfg : ∀ v, (∀ d ∈ ds, d.target ≠ v) → f v = g v) : f = g :=
  calc
    f = recompute ds f := (recompute_of_respects hf).symm
    _ = recompute ds g := recompute_congr hds hfg
    _ = g := recompute_of_respects hg

end LatinSquares.Math
