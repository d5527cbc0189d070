/-
# Odometers

A list of digits counts like an odometer: the first digit goes up by one, and a digit that
reaches its upper bound goes back to its lowest value and carries into the digits behind it. The
bound of a digit may depend on the digits behind it. A loop that counts until the last digit
carries goes through all lists within the bounds, and through each of them once.
-/

import Mathlib.Data.List.Chain
import Mathlib.Data.List.Nodup
import Mathlib.Data.List.Range

namespace LatinSquares.Math

section Loops

variable {A : Type}

/-- `do { ... } while (next(a))`: the values the body sees, with fuel for its rounds. A call of
`next` changes its argument and says whether there is another round. -/
def visits (next : A → Option (A × Bool)) : Nat → A → Option (List A)
  | 0, _ => none
  | fuel + 1, a => do
      let (b, more) ← next a
      if more then return a :: (← visits next fuel b) else return [a]

/-- `do { if (!next(a)) return false; } while (!wanted(a)); return true;` -/
def nextWhere (next : A → A × Bool) (wanted : A → Bool) : Nat → A → Option (A × Bool)
  | 0, _ => none
  | fuel + 1, a =>
      let (b, more) := next a
      if more then if wanted b then some (b, true) else nextWhere next wanted fuel b
      else some (b, false)

/-- `do { ... } while (next(a))` with a body that may end the loop with a result, or fail. -/
def seek {B : Type} (next : A → A × Bool) (body : A → Option (Option B)) : Nat → A →
    Option (Option B)
  | 0, _ => none
  | fuel + 1, a => do
      let result ← body a
      if result.isSome then return result
      let (b, more) := next a
      if more then seek next body fuel b else return none

/-- The values `next` goes through from `a` on; it is over after the last one. -/
inductive Course (next : A → A × Bool) : A → List A → Prop
  | last {a b : A} (hlast : next a = (b, false)) : Course next a []
  | more {a b : A} {l : List A} (hmore : next a = (b, true)) (hrest : Course next b l) :
      Course next a (b :: l)

variable {next : A → A × Bool} {wanted : A → Bool} {a : A} {l : List A} {fuel rounds : Nat}

theorem Course.visits (h : Course next a l) (hfuel : l.length < fuel) :
    visits (fun a => some (next a)) fuel a = some (a :: l) := by
  induction h generalizing fuel with
  | last hlast =>
      obtain ⟨fuel, rfl⟩ := Nat.exists_eq_add_one_of_ne_zero (Nat.ne_of_gt hfuel)
      simp [Math.visits, hlast]
  | more hmore _ ih =>
      obtain ⟨fuel, rfl⟩ :=
        Nat.exists_eq_add_one_of_ne_zero (Nat.ne_of_gt (Nat.zero_lt_of_lt hfuel))
      simp [Math.visits, hmore, ih (Nat.lt_of_succ_lt_succ hfuel)]

/-- The first wanted value, or the end of the course. -/
theorem Course.nextWhere_cases (h : Course next a l) (wanted : A → Bool)
    (hrounds : l.length < rounds) :
    (l.filter wanted = [] ∧ ∃ b, nextWhere next wanted rounds a = some (b, false)) ∨
      ∃ b rest, Course next b rest ∧ rest.length < l.length ∧
        l.filter wanted = b :: rest.filter wanted ∧
        nextWhere next wanted rounds a = some (b, true) := by
  induction h generalizing rounds with
  | last hlast =>
      obtain ⟨rounds, rfl⟩ := Nat.exists_eq_add_one_of_ne_zero (Nat.ne_of_gt hrounds)
      exact Or.inl ⟨rfl, _, by rw [nextWhere, hlast]; rfl⟩
  | @more a b l hmore hrest ih =>
      obtain ⟨rounds, rfl⟩ :=
        Nat.exists_eq_add_one_of_ne_zero (Nat.ne_of_gt (Nat.zero_lt_of_lt hrounds))
      by_cases hwanted : wanted b = true
      · refine Or.inr ⟨b, l, hrest, Nat.lt_succ_self _, List.filter_cons_of_pos hwanted, ?_⟩
        simp [nextWhere, hmore, hwanted]
      · have hskip : nextWhere next wanted (rounds + 1) a = nextWhere next wanted rounds b := by
          simp [nextWhere, hmore, hwanted]
        rw [hskip, List.filter_cons_of_neg hwanted]
        obtain hnone | ⟨c, rest, hcourse, hlt, hfilter⟩ := ih (Nat.lt_of_succ_lt_succ hrounds)
        · exact Or.inl hnone
        · exact Or.inr ⟨c, rest, hcourse, hlt.trans (Nat.lt_succ_self _), hfilter⟩

/-- The loop that skips unwanted values goes through the wanted ones. -/
theorem Course.visits_nextWhere (h : Course next a l) (hfuel : l.length < fuel)
    (hrounds : l.length < rounds) :
    Math.visits (nextWhere next wanted rounds) fuel a = some (a :: l.filter wanted) := by
  induction fuel generalizing a l with
  | zero => exact absurd hfuel (Nat.not_lt_zero _)
  | succ fuel ih =>
      obtain ⟨hnone, b, hnext⟩ | ⟨b, rest, hrest, hlt, hfilter, hnext⟩ :=
        h.nextWhere_cases wanted hrounds
      · simp [Math.visits, hnext, hnone]
      · have hvisits := ih hrest (by omega) (hlt.trans hrounds)
        simp [Math.visits, hnext, hvisits, hfilter]

/-- The result of a loop is that of its body for some value. -/
theorem exists_body_of_seek {B : Type} {body : A → Option (Option B)} {result : B}
    (hseek : seek next body fuel a = some (some result)) : ∃ x, body x = some (some result) := by
  induction fuel generalizing a with
  | zero => cases hseek
  | succ fuel ih =>
      match hbody : body a with
      | none => simp [seek, hbody] at hseek
      | some none =>
          simp only [seek, hbody, Option.bind_eq_bind, Option.bind_some, Option.isSome_none,
            Bool.false_eq_true, if_false] at hseek
          split at hseek
          · exact ih hseek
          · cases hseek
      | some (some found) =>
          simp only [seek, hbody, Option.bind_eq_bind, Option.bind_some, Option.isSome_some,
            if_true] at hseek
          exact ⟨a, hbody.trans hseek⟩

/-- A course can be joined where the loop stands. -/
theorem Course.drop (h : Course next a l) {before after : List A} {x : A}
    (hsplit : a :: l = before ++ x :: after) : Course next x after := by
  induction h generalizing before with
  | last hlast =>
      cases before with
      | nil =>
          obtain ⟨rfl, rfl⟩ := List.cons.inj hsplit
          exact .last hlast
      | cons y before => simp at hsplit
  | more hmore hrest ih =>
      cases before with
      | nil =>
          obtain ⟨rfl, rfl⟩ := List.cons.inj hsplit
          exact .more hmore hrest
      | cons y before => exact ih (List.cons.inj hsplit).2

end Loops

/-- The lowest value of the digit at an index, and its bound, given the digits behind it. -/
structure Odometer where
  low : Nat → Nat
  upper : Nat → List Nat → Nat

namespace Odometer

variable (o : Odometer)

/-- The digits from index `i` on, counted up, and whether some digit did not carry. -/
def count : Nat → List Nat → List Nat × Bool
  | _, [] => ([], false)
  | i, x :: rest =>
      if x + 1 = o.upper i rest then
        let carried := count (i + 1) rest
        (o.low i :: carried.1, carried.2)
      else ((x + 1) :: rest, true)

/-- The digits from index `i` on are within their bounds. -/
def Within : Nat → List Nat → Prop
  | _, [] => True
  | i, x :: rest => o.low i ≤ x ∧ x < o.upper i rest ∧ Within (i + 1) rest

/-- The lists of `k` digits from index `i` on, in the order they are counted. -/
def readings : Nat → Nat → List (List Nat)
  | _, 0 => [[]]
  | i, k + 1 => (readings (i + 1) k).flatMap fun rest =>
      (List.range' (o.low i) (o.upper i rest - o.low i)).map (· :: rest)

/-- The digits behind never leave a digit without a value. -/
def Turns (size : Nat) : Prop :=
  ∀ i rest, i + rest.length + 1 = size → o.Within (i + 1) rest → o.low i < o.upper i rest

variable {o : Odometer} {i k size : Nat} {digits rest : List Nat}

theorem mem_readings : digits ∈ o.readings i k ↔ digits.length = k ∧ o.Within i digits := by
  induction k generalizing i digits with
  | zero =>
      rw [readings, List.mem_singleton]
      constructor
      · rintro rfl
        exact ⟨rfl, trivial⟩
      · rintro ⟨hlength, -⟩
        exact List.length_eq_zero_iff.mp hlength
  | succ k ih =>
      rw [readings, List.mem_flatMap]
      constructor
      · rintro ⟨rest, hrest, hdigits⟩
        obtain ⟨x, hx, rfl⟩ := List.mem_map.mp hdigits
        obtain ⟨hlength, hwithin⟩ := ih.mp hrest
        obtain ⟨hle, hlt⟩ := List.mem_range'_1.mp hx
        exact ⟨congrArg Nat.succ hlength, hle, by omega, hwithin⟩
      · rintro ⟨hlength, hwithin⟩
        cases digits with
        | nil => cases hlength
        | cons x rest =>
            obtain ⟨hle, hlt, hrest⟩ := hwithin
            refine ⟨rest, ih.mpr ⟨Nat.succ.inj hlength, hrest⟩, List.mem_map.mpr ⟨x, ?_, rfl⟩⟩
            exact List.mem_range'_1.mpr ⟨hle, by omega⟩

/-- The order of the readings: the digits behind decide first. -/
def Below : List Nat → List Nat → Prop
  | x :: digits, y :: digits' => Below digits digits' ∨ digits = digits' ∧ x < y
  | _, _ => False

theorem Below.ne {digits' : List Nat} (h : Below digits digits') : digits ≠ digits' := by
  induction digits generalizing digits' with
  | nil => exact h.elim
  | cons x digits ih =>
      cases digits' with
      | nil => exact h.elim
      | cons y digits' =>
          intro heq
          obtain ⟨rfl, rfl⟩ := List.cons.inj heq
          cases h with
          | inl hbelow => exact ih hbelow rfl
          | inr hlt => exact hlt.2.ne rfl

theorem pairwise_readings (o : Odometer) (i k : Nat) : (o.readings i k).Pairwise Below := by
  induction k generalizing i with
  | zero => exact List.pairwise_singleton _ _
  | succ k ih =>
      rw [readings, List.pairwise_flatMap]
      constructor
      · intro rest _
        exact List.pairwise_map.mpr ((List.pairwise_lt_range').imp fun hlt => Or.inr ⟨rfl, hlt⟩)
      · refine (ih (i + 1)).imp fun hbelow => ?_
        intro digits hdigits digits' hdigits'
        obtain ⟨x, -, rfl⟩ := List.mem_map.mp hdigits
        obtain ⟨y, -, rfl⟩ := List.mem_map.mp hdigits'
        exact Or.inl hbelow

/-- The digits from index `i` on at their lowest values. -/
def lows (o : Odometer) (i k : Nat) : List Nat := (List.range' i k).map o.low

/-- With the lowest digits in front of it, a last digit comes after the smaller ones only. -/
theorem lt_of_below_lows {x y : Nat} (h : Below (digits ++ [x]) (o.lows i k ++ [y]))
    (hwithin : o.Within i (digits ++ [x])) (hlength : digits.length = k) : x < y := by
  induction digits generalizing i k with
  | nil =>
      subst hlength
      cases h with
      | inl hbelow => exact hbelow.elim
      | inr hlt => exact hlt.2
  | cons z digits ih =>
      subst hlength
      obtain ⟨hle, -, hrest⟩ := hwithin
      cases h with
      | inl hbelow => exact ih hbelow hrest rfl
      | inr hlt => exact absurd hlt.2 (Nat.not_lt.mpr hle)

/-- Below its bound a digit goes up by one. -/
theorem course_block {x : Nat} {after : List (List Nat)} (hx : x < o.upper i rest)
    (hend : Course (o.count i) ((o.upper i rest - 1) :: rest) after) :
    Course (o.count i) (x :: rest)
      ((List.range' (x + 1) (o.upper i rest - (x + 1))).map (· :: rest) ++ after) := by
  obtain ⟨d, hd⟩ := Nat.exists_eq_add_of_le (Nat.succ_le_of_lt hx)
  induction d generalizing x with
  | zero =>
      obtain rfl : x = o.upper i rest - 1 := by omega
      have hnone : o.upper i rest - (o.upper i rest - 1 + 1) = 0 := by omega
      rw [hnone]
      exact hend
  | succ d ih =>
      have hstep : o.count i (x :: rest) = ((x + 1) :: rest, true) := by
        rw [count, if_neg (by omega)]
      have hblock : o.upper i rest - (x + 1) = (o.upper i rest - (x + 1 + 1)) + 1 := by omega
      rw [hblock, List.range'_succ]
      exact .more hstep (ih (by omega) (by omega))

/-- Every turn of the digits behind takes the digit through all its values. -/
theorem course_flatMap {l : List (List Nat)} (h : Course (o.count (i + 1)) rest l)
    (hturns : ∀ r ∈ rest :: l, o.low i < o.upper i r) :
    ∃ after, ((rest :: l).flatMap fun r =>
        (List.range' (o.low i) (o.upper i r - o.low i)).map (· :: r)) =
          (o.low i :: rest) :: after ∧ Course (o.count i) (o.low i :: rest) after := by
  have hblock : ∀ r, o.low i < o.upper i r → ∀ after,
      (List.range' (o.low i) (o.upper i r - o.low i)).map (· :: r) ++ after =
        (o.low i :: r) ::
          ((List.range' (o.low i + 1) (o.upper i r - (o.low i + 1))).map (· :: r) ++ after) := by
    intro r hr after
    have hlength : o.upper i r - o.low i = (o.upper i r - (o.low i + 1)) + 1 := by omega
    rw [hlength, List.range'_succ]
    rfl
  have hlast : ∀ r, o.low i < o.upper i r → o.count i ((o.upper i r - 1) :: r) =
      (o.low i :: (o.count (i + 1) r).1, (o.count (i + 1) r).2) := by
    intro r hr
    rw [count, if_pos (by omega)]
  induction h with
  | @last r b hover =>
      have hr := hturns r List.mem_cons_self
      refine ⟨_, by rw [List.flatMap_cons, hblock r hr], course_block hr ?_⟩
      exact .last (b := o.low i :: b) (by rw [hlast r hr, hover])
  | @more r r' l hcarry hcourse ih =>
      have hr := hturns r List.mem_cons_self
      obtain ⟨after, hafter, htail⟩ := ih fun r hmem => hturns r (List.mem_cons_of_mem _ hmem)
      refine ⟨_, by rw [List.flatMap_cons, hblock r hr, hafter], course_block hr ?_⟩
      exact .more (by rw [hlast r hr, hcarry]) htail

/-- Counting goes through the readings, from the lowest digits on. -/
theorem exists_course (hturns : o.Turns size) (hk : i + k = size) :
    ∃ l, o.readings i k = o.lows i k :: l ∧ Course (o.count i) (o.lows i k) l := by
  induction k generalizing i with
  | zero => exact ⟨[], rfl, .last (b := []) rfl⟩
  | succ k ih =>
      obtain ⟨l, hreadings, hcourse⟩ := ih (i := i + 1) (by omega)
      have hpos : ∀ r ∈ o.lows (i + 1) k :: l, o.low i < o.upper i r := by
        intro r hr
        obtain ⟨hlength, hwithin⟩ := mem_readings.mp (hreadings ▸ hr)
        exact hturns i r (by omega) hwithin
      obtain ⟨after, hafter, htail⟩ := course_flatMap hcourse hpos
      refine ⟨after, ?_, ?_⟩
      · rw [readings, hreadings, hafter]
        rfl
      · exact htail

/-- From any reading on, counting goes through those behind it. -/
theorem course_of_readings (hturns : o.Turns size) {before after : List (List Nat)}
    (hsplit : o.readings 0 size = before ++ digits :: after) : Course (o.count 0) digits after := by
  obtain ⟨l, hreadings, hcourse⟩ := exists_course hturns (Nat.zero_add size)
  exact hcourse.drop (hreadings ▸ hsplit)

end Odometer

end LatinSquares.Math
