/-
# Dealing in turn

Items `0, 1, 2, ...` are dealt in turn to `P` receivers: item `s` goes to receiver
`s % P` and is the one numbered `s / P` there. After `t` items receiver `p` holds
`dealt P t p` of them, and these are the ones numbered below that.
-/

import Mathlib.Data.Nat.Count

namespace LatinSquares.Math

/-- The number of the first `t` items that receiver `p` holds. -/
def dealt (P t p : Nat) : Nat := Nat.count (fun s => s % P = p) t

variable {P t p r : Nat}

/-- Item `r` of receiver `p` is the one dealt at time `r * P + p`. -/
theorem lt_dealt_iff (hp : p < P) : r < dealt P t p ↔ r * P + p < t := by
  induction t generalizing r with
  | zero => simp [dealt]
  | succ t ih =>
      rw [dealt, Nat.count_succ, ← dealt]
      have hdivision := Nat.div_add_mod t P
      by_cases hturn : t % P = p
      · -- it is the turn of `p`, and `t / P` of its items have been dealt
        have hheld : dealt P t p = t / P := by
          have hsame : ∀ r, r < dealt P t p ↔ r < t / P := by
            intro r
            rw [ih, ← hturn]
            constructor
            · intro h
              by_contra hge
              have hmul : t / P * P ≤ r * P := Nat.mul_le_mul_right P (by omega)
              rw [Nat.mul_comm] at hdivision
              omega
            · intro h
              have hmul : (r + 1) * P ≤ t / P * P := Nat.mul_le_mul_right P h
              rw [Nat.add_mul] at hmul
              rw [Nat.mul_comm] at hdivision
              omega
          exact Nat.le_antisymm (Nat.le_of_not_lt fun h => by simpa using (hsame _).mp h)
            (Nat.le_of_not_lt fun h => by simpa using (hsame _).mpr h)
        rw [if_pos hturn, hheld]
        rw [Nat.mul_comm] at hdivision
        constructor
        · intro h
          have hmul : r * P ≤ t / P * P := Nat.mul_le_mul_right P (by omega)
          omega
        · intro h
          by_contra hge
          have hmul : (t / P + 1) * P ≤ r * P := Nat.mul_le_mul_right P (by omega)
          rw [Nat.add_mul] at hmul
          omega
      · rw [if_neg hturn, Nat.add_zero, ih]
        have hne : r * P + p ≠ t := by
          rintro rfl
          exact hturn (by rw [Nat.add_comm, Nat.add_mul_mod_self_right, Nat.mod_eq_of_lt hp])
        omega

/-- `K` full rounds give every receiver `K` items. -/
theorem dealt_le {K : Nat} (hp : p < P) (ht : t ≤ K * P) : dealt P t p ≤ K := by
  by_contra hover
  have hlast := (lt_dealt_iff hp).mp (Nat.lt_of_not_le hover)
  omega

/-- What holds of the first `t` items holds of every receiver's items. -/
theorem forall_dealt_iff (hP : 0 < P) {Q : Nat → Nat → Prop} :
    (∀ s < t, Q (s % P) (s / P)) ↔ ∀ p < P, ∀ r < dealt P t p, Q p r := by
  constructor
  · intro h p hp r hr
    have hitem := h (r * P + p) ((lt_dealt_iff hp).mp hr)
    rwa [Nat.add_comm, Nat.add_mul_mod_self_right, Nat.mod_eq_of_lt hp,
      Nat.add_mul_div_right _ _ hP, Nat.div_eq_of_lt hp, Nat.zero_add] at hitem
  · intro h s hs
    refine h (s % P) (Nat.mod_lt _ hP) (s / P) ((lt_dealt_iff (Nat.mod_lt _ hP)).mpr ?_)
    rwa [Nat.mul_comm, Nat.div_add_mod]

end LatinSquares.Math
