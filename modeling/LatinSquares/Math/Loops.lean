/-
# Loops over lists

A loop that changes single entries of a table or of a list: what each entry is in the end.
A loop whose body may fail: what its states have in common.
-/

import Mathlib.Data.List.Forall2
import Mathlib.Data.List.Induction
import Mathlib.Logic.Function.Iterate

namespace LatinSquares.Math

variable {A B : Type}

theorem filter_eraseP (p : A → Bool) (l : List A) :
    ((l.eraseP p).filter fun a => !p a) = l.filter fun a => !p a := by
  induction l with
  | nil => rfl
  | cons a l ih =>
      cases ha : p a with
      | true => simp [ha]
      | false => simp [ha, ih]

theorem countP_eraseP (p : A → Bool) (l : List A) : (l.eraseP p).countP p = l.countP p - 1 := by
  induction l with
  | nil => rfl
  | cons a l ih =>
      cases ha : p a with
      | true => simp [ha]
      | false => simp [ha, ih]

/-- The first element with a property is removed until none is left. -/
theorem iterate_eraseP {p : A → Bool} {n : Nat} {l : List A} (hn : l.countP p ≤ n) :
    (List.eraseP p)^[n] l = l.filter fun a => !p a := by
  induction n generalizing l with
  | zero =>
      have hnone := List.countP_eq_zero.mp (Nat.le_zero.mp hn)
      rw [Function.iterate_zero_apply, List.filter_eq_self.mpr]
      intro a ha
      simpa using hnone a ha
  | succ n ih =>
      rw [Function.iterate_succ_apply, ih, filter_eraseP]
      rw [countP_eraseP]
      omega

/-- Entries of a list are changed at the given positions, one after the other. -/
theorem getElem?_foldl_modify (f : A → A) (positions : List Nat) (l : List A) (i : Nat) :
    (positions.foldl (fun l i => l.modify i f) l)[i]? = l[i]?.map f^[positions.count i] := by
  induction positions generalizing l with
  | nil => simp
  | cons position positions ih =>
      rw [List.foldl_cons, ih, List.getElem?_modify]
      by_cases h : position = i
      · subst h
        rw [List.count_cons_self, Function.iterate_succ]
        simp
      · rw [List.count_cons_of_ne h]
        simp [h]

/-- A function is applied to the entries of several keys, one after the other. -/
theorem foldl_update {K : Type} [DecidableEq K] (f : A → A) (keys : List K) (table : K → A)
    (k : K) : keys.foldl (fun table key => Function.update table key (f (table key))) table k =
      f^[keys.count k] (table k) := by
  induction keys generalizing table with
  | nil => rfl
  | cons key keys ih =>
      rw [List.foldl_cons, ih]
      by_cases hk : key = k
      · subst hk
        rw [Function.update_self, List.count_cons_self, Function.iterate_succ_apply]
      · rw [Function.update_of_ne (Ne.symm hk), List.count_cons_of_ne hk]

/-- One value is entered for several keys. -/
theorem foldl_update_const {K : Type} [DecidableEq K] (keys : List K) (a : A) (table : K → A)
    (k : K) : keys.foldl (fun table key => Function.update table key a) table k =
      if k ∈ keys then a else table k := by
  induction keys using List.reverseRecOn with
  | nil => simp
  | append_singleton keys key ih =>
      rw [List.foldl_append, List.foldl_cons, List.foldl_nil, Function.update_apply, ih]
      by_cases hk : k = key <;> simp [hk]

/-- A loop of steps in a preorder is a step in it. -/
theorem foldlM_rel {R : A → A → Prop} {f : A → B → Option A} (hrefl : ∀ a, R a a)
    (htrans : ∀ {a b c}, R a b → R b c → R a c) {l : List B}
    (hstep : ∀ b ∈ l, ∀ a a', f a b = some a' → R a a') {a a' : A}
    (h : l.foldlM f a = some a') : R a a' := by
  induction l generalizing a with
  | nil =>
      cases h
      exact hrefl _
  | cons b l ih =>
      obtain ⟨hhead, htail⟩ := List.forall_mem_cons.mp hstep
      rw [List.foldlM_cons] at h
      obtain ⟨middle, hfirst, hrest⟩ := Option.bind_eq_some_iff.mp h
      exact htrans (hhead a middle hfirst) (ih htail hrest)

/-- A loop over the first numbers whose steps keep what holds of the number reached. -/
theorem exists_foldlM_range {f : A → Nat → Option A} {P : Nat → A → Prop} {a : A} {n : Nat}
    (hzero : P 0 a) (hstep : ∀ i < n, ∀ a, P i a → ∃ a', f a i = some a' ∧ P (i + 1) a') :
    ∃ a', (List.range n).foldlM f a = some a' ∧ P n a' := by
  induction n with
  | zero => exact ⟨a, rfl, hzero⟩
  | succ n ih =>
      obtain ⟨middle, hfold, hmiddle⟩ := ih fun i hi => hstep i (Nat.lt_succ_of_lt hi)
      obtain ⟨a', hlast, ha'⟩ := hstep n n.lt_succ_self middle hmiddle
      refine ⟨a', ?_, ha'⟩
      rw [List.range_succ, List.foldlM_append, hfold]
      simp [hlast]

/-- A loop whose steps keep what they need goes to its end. -/
theorem exists_foldlM {P : A → Prop} {f : A → B → Option A} {l : List B} {a : A} (ha : P a)
    (hstep : ∀ b ∈ l, ∀ a, P a → ∃ a', f a b = some a' ∧ P a') :
    ∃ a', l.foldlM f a = some a' ∧ P a' := by
  induction l generalizing a with
  | nil => exact ⟨a, rfl, ha⟩
  | cons b l ih =>
      obtain ⟨hhead, htail⟩ := List.forall_mem_cons.mp hstep
      obtain ⟨middle, hfirst, hmiddle⟩ := hhead a ha
      obtain ⟨a', hrest, ha'⟩ := ih hmiddle htail
      refine ⟨a', ?_, ha'⟩
      rw [List.foldlM_cons, hfirst]
      exact hrest

theorem exists_of_forall₂ {R : A → B → Prop} {l : List A} {l' : List B} (h : List.Forall₂ R l l')
    {b : B} (hb : b ∈ l') : ∃ a ∈ l, R a b := by
  induction h with
  | nil => cases hb
  | cons hab _ ih =>
      rcases List.mem_cons.mp hb with rfl | htail
      · exact ⟨_, List.mem_cons_self, hab⟩
      · obtain ⟨a, ha, hR⟩ := ih htail
        exact ⟨a, List.mem_cons_of_mem _ ha, hR⟩

theorem map_eq_of_forall₂ {C : Type} {R : A → B → Prop} {f : A → C} {g : B → C} {l : List A}
    {l' : List B} (h : List.Forall₂ R l l') (hfg : ∀ a b, R a b → f a = g b) :
    l.map f = l'.map g := by
  induction h with
  | nil => rfl
  | cons hab _ ih => rw [List.map_cons, List.map_cons, hfg _ _ hab, ih]

/-- The results of a loop that maps its entries. -/
theorem forall₂_of_mapM {f : A → Option B} {l : List A} {l' : List B} (h : l.mapM f = some l') :
    List.Forall₂ (fun a b => f a = some b) l l' := by
  induction l generalizing l' with
  | nil =>
      cases h
      exact List.Forall₂.nil
  | cons a l ih =>
      rw [List.mapM_cons] at h
      obtain ⟨b, hb, hrest⟩ := Option.bind_eq_some_iff.mp h
      obtain ⟨tail, htail, hcons⟩ := Option.bind_eq_some_iff.mp hrest
      cases hcons
      exact List.Forall₂.cons hb (ih htail)

end LatinSquares.Math
