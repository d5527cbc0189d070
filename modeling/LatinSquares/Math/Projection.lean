/-
# Projection of auxiliary variables

A translation into propositional clauses introduces variables the original
problem does not have. What such a formula says about the original variables is
its projection: an assignment satisfies it when it can be changed on the
auxiliary variables alone so that every clause holds.

Variables are numbered in the order in which they are introduced, so a formula
written in one stage of a translation mentions variables up to the current
counter only. `Projects` records that bookkeeping together with the two halves
of correctness, and `Projects.bind` is the rule that composes two stages: the
second stage may read the auxiliary variables of the first as long as the first
determines what the second says about them.
-/

import Mathlib.Order.Nat

namespace LatinSquares.Math

/-- A truth value for every numbered variable. -/
abbrev Assignment := Nat → Bool

/-- `β` gives every variable up to `c` the value `α` gives it. -/
def AgreeUpTo (c : Nat) (α β : Assignment) : Prop :=
  ∀ v, v ≤ c → β v = α v

namespace AgreeUpTo

variable {c d : Nat} {α β γ : Assignment}

theorem refl (c : Nat) (α : Assignment) : AgreeUpTo c α α := fun _ _ => rfl

theorem symm (h : AgreeUpTo c α β) : AgreeUpTo c β α := fun v hv => (h v hv).symm

theorem trans (h₁ : AgreeUpTo c α β) (h₂ : AgreeUpTo c β γ) : AgreeUpTo c α γ :=
  fun v hv => (h₂ v hv).trans (h₁ v hv)

theorem mono (hcd : c ≤ d) (h : AgreeUpTo d α β) : AgreeUpTo c α β :=
  fun v hv => h v (hv.trans hcd)

end AgreeUpTo

/-- Variables past `c` can be given any values. -/
theorem exists_extend (c : Nat) (α : Assignment) (t : Nat → Bool) :
    ∃ β, AgreeUpTo c α β ∧ ∀ i, β (c + i + 1) = t i := by
  refine ⟨fun v => if v ≤ c then α v else t (v - c - 1), fun v hv => if_pos hv, fun i => ?_⟩
  have hpast : ¬ c + i + 1 ≤ c := by omega
  have hindex : c + i + 1 - c - 1 = i := by omega
  simp only [hpast, if_false, hindex]

/-- A rectangle of variables past `c`, laid out row by row, can be given any values. -/
theorem exists_extend_rows (c k : Nat) (α : Assignment) (t : Nat → Nat → Bool) :
    ∃ β, AgreeUpTo c α β ∧ ∀ i, ∀ j < k, β (c + i * k + j + 1) = t i j := by
  obtain ⟨β, hαβ, hβ⟩ := exists_extend c α fun x => t (x / k) (x % k)
  refine ⟨β, hαβ, fun i j hj => ?_⟩
  have hdiv : (i * k + j) / k = i := by
    rw [Nat.mul_comm, Nat.mul_add_div (by omega), Nat.div_eq_of_lt hj, Nat.add_zero]
  have hmod : (i * k + j) % k = j := by
    rw [Nat.mul_comm, Nat.mul_add_mod, Nat.mod_eq_of_lt hj]
  rw [Nat.add_assoc c, hβ, hdiv, hmod]

/-- The truth of `P` is decided by the variables up to `c`. -/
def DependsUpTo (c : Nat) (P : Assignment → Prop) : Prop :=
  ∀ ⦃α β⦄, AgreeUpTo c α β → (P α ↔ P β)

namespace DependsUpTo

variable {c d : Nat} {P Q : Assignment → Prop}

theorem mono (hcd : c ≤ d) (h : DependsUpTo c P) : DependsUpTo d P :=
  fun _ _ hαβ => h (hαβ.mono hcd)

theorem const (c : Nat) (p : Prop) : DependsUpTo c fun _ => p := fun _ _ _ => Iff.rfl

theorem and (hP : DependsUpTo c P) (hQ : DependsUpTo c Q) :
    DependsUpTo c fun α => P α ∧ Q α :=
  fun _ _ hαβ => and_congr (hP hαβ) (hQ hαβ)

theorem forall_ {ι : Sort*} {P : ι → Assignment → Prop} (h : ∀ i, DependsUpTo c (P i)) :
    DependsUpTo c fun α => ∀ i, P i α :=
  fun _ _ hαβ => forall_congr' fun i => h i hαβ

theorem exists_ {ι : Sort*} {P : ι → Assignment → Prop} (h : ∀ i, DependsUpTo c (P i)) :
    DependsUpTo c fun α => ∃ i, P i α :=
  fun _ _ hαβ => exists_congr fun i => h i hαβ

theorem congr (h : ∀ α, P α ↔ Q α) (hP : DependsUpTo c P) : DependsUpTo c Q :=
  fun α β hαβ => (h α).symm.trans ((hP hαβ).trans (h β))

end DependsUpTo

/-- The formula `C`, written while the counter moved from `c` to `c'`, says
exactly `P` about the variables up to `c`. -/
structure Projects (c c' : Nat) (C P : Assignment → Prop) : Prop where
  le : c ≤ c'
  formula : DependsUpTo c' C
  base : DependsUpTo c P
  sound : ∀ α, C α → P α
  complete : ∀ α, P α → ∃ β, AgreeUpTo c α β ∧ C β

namespace Projects

variable {c c' c'' : Nat} {C C₁ C₂ P P₁ P₂ Q : Assignment → Prop}

/-- The same for a property that reads the variables `1..c` only. -/
theorem holds_iff_of_range (h : Projects c c' C P)
    (hP : ∀ α β, (∀ v ∈ List.range' 1 c, β v = α v) → (P β ↔ P α)) (α : Assignment) :
    (∃ β, (∀ v ∈ List.range' 1 c, β v = α v) ∧ C β) ↔ P α := by
  constructor
  · rintro ⟨β, hαβ, hC⟩
    exact (hP α β hαβ).mp (h.sound β hC)
  · intro hPα
    obtain ⟨β, hαβ, hC⟩ := h.complete α hPα
    refine ⟨β, fun v hv => hαβ v ?_, hC⟩
    rw [List.mem_range'_1] at hv
    omega

/-- The formula is satisfiable exactly when its projection is. -/
theorem satisfiable_iff (h : Projects c c' C P) : (∃ α, C α) ↔ ∃ α, P α := by
  constructor
  · rintro ⟨α, hα⟩
    exact ⟨α, h.sound α hα⟩
  · rintro ⟨α, hα⟩
    obtain ⟨β, -, hβ⟩ := h.complete α hα
    exact ⟨β, hβ⟩

/-- A formula without auxiliary variables projects to itself. -/
theorem refl (h : DependsUpTo c C) : Projects c c C C where
  le := le_rfl
  formula := h
  base := h
  sound := fun _ hC => hC
  complete := fun α hC => ⟨α, AgreeUpTo.refl c α, hC⟩

theorem congr (hC : ∀ α, C₁ α ↔ C₂ α) (hP : ∀ α, P₁ α ↔ P₂ α)
    (h : Projects c c' C₁ P₁) : Projects c c' C₂ P₂ where
  le := h.le
  formula := h.formula.congr hC
  base := h.base.congr hP
  sound := fun α hα => (hP α).mp (h.sound α ((hC α).mpr hα))
  complete := fun α hα => by
    obtain ⟨β, hαβ, hβ⟩ := h.complete α ((hP α).mpr hα)
    exact ⟨β, hαβ, (hC β).mp hβ⟩

/-- Sequential composition. The second stage projects to a property `P₂` of the
variables the first stage has reached; wherever the first stage holds, `P₂` says
the same as a property `Q` of the original variables. -/
theorem bind (h₁ : Projects c c' C₁ P₁) (h₂ : Projects c' c'' C₂ P₂)
    (hQ : DependsUpTo c Q) (hdetermined : ∀ α, C₁ α → (P₂ α ↔ Q α)) :
    Projects c c'' (fun α => C₁ α ∧ C₂ α) fun α => P₁ α ∧ Q α where
  le := h₁.le.trans h₂.le
  formula := (h₁.formula.mono h₂.le).and h₂.formula
  base := h₁.base.and hQ
  sound := by
    rintro α ⟨hC₁, hC₂⟩
    exact ⟨h₁.sound α hC₁, (hdetermined α hC₁).mp (h₂.sound α hC₂)⟩
  complete := by
    rintro α ⟨hP₁, hQα⟩
    obtain ⟨β, hαβ, hC₁⟩ := h₁.complete α hP₁
    have hP₂ : P₂ β := (hdetermined β hC₁).mpr ((hQ hαβ).mp hQα)
    obtain ⟨γ, hβγ, hC₂⟩ := h₂.complete β hP₂
    exact ⟨γ, hαβ.trans (hβγ.mono h₁.le), (h₁.formula hβγ).mp hC₁, hC₂⟩

/-- Two stages that both speak about the original variables. -/
theorem and (h₁ : Projects c c' C₁ P₁) (h₂ : Projects c' c'' C₂ P₂)
    (hP₂ : DependsUpTo c P₂) :
    Projects c c'' (fun α => C₁ α ∧ C₂ α) fun α => P₁ α ∧ P₂ α :=
  h₁.bind h₂ hP₂ fun _ _ => Iff.rfl

/-- Projecting in two steps: what the formula says about an intermediate set of
variables is projected further down. -/
theorem trans (h₁ : Projects c c' P₁ P) (h₂ : Projects c' c'' C P₁) :
    Projects c c'' C P where
  le := h₁.le.trans h₂.le
  formula := h₂.formula
  base := h₁.base
  sound := fun α hC => h₁.sound α (h₂.sound α hC)
  complete := fun α hP => by
    obtain ⟨β, hαβ, hP₁⟩ := h₁.complete α hP
    obtain ⟨γ, hβγ, hC⟩ := h₂.complete β hP₁
    exact ⟨γ, hαβ.trans (hβγ.mono h₁.le), hC⟩

end Projects

end LatinSquares.Math
