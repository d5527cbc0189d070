/-
# Programs that write constraints

A program that writes constraints one after the other is described by what it adds to those
already there. Steps that each add a condition and keep an invariant of the writer compose: a
sequence adds both conditions, and a loop adds its condition for every round.
-/

import Mathlib.Data.List.Induction

namespace LatinSquares.Math

variable {S A X : Type} {Holds : S → A → Prop} {Inv Inv' : S → Prop} {m m' m'' : S}
variable {P Q : A → Prop}

/-- From `m` to `m'` the condition `P` is added, and the invariant holds in the end. -/
structure Adds (Holds : S → A → Prop) (Inv : S → Prop) (m m' : S) (P : A → Prop) : Prop where
  holds : ∀ a, Holds m' a ↔ Holds m a ∧ P a
  keeps : Inv m'

theorem adds_refl (hm : Inv m) : Adds Holds Inv m m fun _ => True where
  holds _ := (and_iff_left trivial).symm
  keeps := hm

theorem Adds.trans (h : Adds Holds Inv m m' P) (h' : Adds Holds Inv' m' m'' Q) :
    Adds Holds Inv' m m'' fun a => P a ∧ Q a where
  holds a := by rw [h'.holds, h.holds, and_assoc]
  keeps := h'.keeps

theorem Adds.congr (h : Adds Holds Inv m m' P) (hPQ : ∀ a, P a ↔ Q a) : Adds Holds Inv m m' Q where
  holds a := by rw [h.holds, hPQ]
  keeps := h.keeps

/-- A loop whose rounds keep the invariant. -/
theorem adds_foldl {f : S → X → S} {l : List X} {P : X → A → Prop} (hm : Inv m)
    (hstep : ∀ m, Inv m → ∀ x ∈ l, Adds Holds Inv m (f m x) (P x)) :
    Adds Holds Inv m (l.foldl f m) fun a => ∀ x ∈ l, P x a := by
  induction l generalizing m with
  | nil => exact (adds_refl hm).congr fun a => by simp
  | cons x l ih =>
      have hhead := hstep m hm x List.mem_cons_self
      have htail := ih hhead.keeps fun m hm x hx => hstep m hm x (List.mem_cons_of_mem _ hx)
      exact (hhead.trans htail).congr fun a => (List.forall_mem_cons (p := fun x => P x a)).symm

/-- A loop over the first numbers whose invariant depends on the number reached. -/
theorem adds_foldl_range {f : S → Nat → S} {n : Nat} {P : Nat → A → Prop} (I : Nat → S → Prop)
    (hm : I 0 m) (hstep : ∀ m, ∀ i < n, I i m → Adds Holds (I (i + 1)) m (f m i) (P i)) :
    Adds Holds (I n) m ((List.range n).foldl f m) fun a => ∀ i < n, P i a := by
  induction n with
  | zero => exact (adds_refl hm).congr fun a => by simp
  | succ n ih =>
      have hfirst := ih fun m i hi => hstep m i (Nat.lt_succ_of_lt hi)
      have hlast := hstep _ n n.lt_succ_self hfirst.keeps
      rw [List.range_succ, List.foldl_append]
      exact (hfirst.trans hlast).congr fun a => Nat.forall_lt_succ_right.symm

end LatinSquares.Math
