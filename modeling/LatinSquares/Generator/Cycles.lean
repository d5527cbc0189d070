/-
# Symmetry-breaking cycles

`getCycles` lists the partitions of `n` into parts of at least two, and
`breakingSymmetry` asks that a row of cells runs along one of them: each part is a
block of consecutive cells, and every cell holds the number of the next cell of
its block.
-/

import LatinSquares.Generator.Squares
import LatinSquares.Math.CycleLayout

namespace LatinSquares.Generator

open LatinSquares.Math
open Expression (and)

/-- One round of `getCycles` steps from a partition to the next. -/
theorem nextCycle_of_follows {n : Nat} {x y : List Nat} (hxy : Follows x y) (hsum : x.sum = n)
    (hparts : ∀ a ∈ x, 2 ≤ a) : nextCycle n x = y := by
  obtain ⟨start, a, b, rfl, rfl⟩ := hxy
  have hb : 2 ≤ b := hparts b (by simp)
  have hbn : b ≤ n := by
    rw [← hsum]
    simp
    omega
  have hdrop : (start ++ [a, b]).dropLast = start ++ [a] := by
    rw [show start ++ [a, b] = (start ++ [a]) ++ [b] by simp, List.dropLast_concat]
  have hlast : (start ++ [a, b]).getLastD 0 = b := by simp
  have hlast' : (start ++ [a]).getLastD 0 = a := by simp
  rw [nextCycle]
  simp only [hdrop, hlast, hlast', List.dropLast_concat]
  split
  · next h => rw [smallest_of_lt (by omega), show a + 1 + (n - (n - b + 1)) = a + b by omega]
  · next h =>
      have hdiv : (a + b) / (a + 1) = (n - (n - b + 1)) / (a + 1) + 1 := by
        rw [← Nat.add_div_right _ (by omega)]
        congr 1
        omega
      have hpos : 0 < (n - (n - b + 1)) / (a + 1) := Nat.div_pos (by omega) (by omega)
      obtain ⟨copies, hcopies⟩ : ∃ copies, (n - (n - b + 1)) / (a + 1) = copies + 1 :=
        ⟨(n - (n - b + 1)) / (a + 1) - 1, by omega⟩
      rw [smallest, hdiv, hcopies, Nat.add_sub_cancel, Nat.add_sub_cancel, List.replicate_succ,
        Nat.add_mul copies]
      have hrest : n - (n - b + 1 + copies * (a + 1)) =
          a + b - (copies * (a + 1) + 1 * (a + 1)) := by omega
      simp [hrest]

theorem getCyclesLoop_eq {n : Nat} : ∀ {rest : List (List Nat)} {x : List Nat}
    {fuel : Nat} {cycles : List (List Nat)}, (x :: rest).IsChain Follows →
    (x :: rest).getLast? = some [n] → (∀ l ∈ x :: rest, l.sum = n ∧ ∀ a ∈ l, 2 ≤ a) →
    rest.length < fuel → getCyclesLoop n fuel x cycles = some (cycles ++ rest)
  | [], x, fuel + 1, cycles, _, hlast, _, _ => by
      rw [List.getLast?_singleton, Option.some_inj] at hlast
      rw [getCyclesLoop, hlast, if_pos (by simp), List.append_nil]
  | y :: rest, x, fuel + 1, cycles, hchain, hlast, hpartition, hfuel => by
      obtain ⟨hxy, hchain⟩ := List.isChain_cons_cons.mp hchain
      obtain ⟨hx, hpartition⟩ := List.forall_mem_cons.mp hpartition
      have hlength := hxy.exists_length
      have hne : x ≠ [] := by
        rintro rfl
        simp at hlength
      rw [List.getLast?_cons_cons] at hlast
      rw [getCyclesLoop, if_neg (by omega), if_neg hne, nextCycle_of_follows hxy hx.1 hx.2,
        getCyclesLoop_eq hchain hlast hpartition (by simpa using hfuel)]
      simp

/-- The start of the loop. -/
theorem firstCycle_eq {n : Nat} (hn : 2 ≤ n) :
    (if n % 2 = 0 then List.replicate (n / 2) 2
      else (List.range (n / 2)).map fun i => if i = n / 2 - 1 then 3 else 2) = smallest n 2 := by
  obtain ⟨half, hhalf⟩ : ∃ half, n / 2 = half + 1 := ⟨n / 2 - 1, by omega⟩
  rw [smallest, hhalf, Nat.add_sub_cancel]
  split
  · rw [List.replicate_succ', show n - half * 2 = 2 by omega]
  · rw [List.range_succ, List.map_append, List.map_singleton, if_pos rfl,
      show n - half * 2 = 3 by omega]
    congr 1
    rw [← List.length_range (n := half), ← List.map_const', List.length_range]
    apply List.map_congr_left
    intro i hi
    rw [if_neg (by have := List.mem_range.mp hi; omega)]

/-- `getCycles` lists all partitions into parts of at least two. -/
theorem getCycles_eq {n : Nat} (hn : 2 ≤ n) : getCycles n = some (partitions n 2) := by
  have hhead := head_partitions (n := n) (m := 2) (by decide) hn
  have hlast := getLast_partitions (n := n) (m := 2) (by decide) hn
  have hlength := length_partitions_le (n := n) (m := 2) (by decide) hn
  have hfuel : 2 ^ (n + 1 - 2) < 2 ^ n := Nat.pow_lt_pow_right (by decide) (by omega)
  have hchain := isChain_partitions (n := n) (m := 2) (by decide) hn
  have hpartition := sum_of_mem_partitions (n := n) (m := 2) (by decide) hn
  rw [getCycles]
  simp only [firstCycle_eq hn]
  generalize partitions n 2 = l at *
  match l with
  | [] => simp at hhead
  | x :: rest =>
      rw [List.head?_cons, Option.some_inj] at hhead
      rw [List.length_cons] at hlength
      rw [← hhead, getCyclesLoop_eq hchain hlast hpartition (by omega)]
      rfl

section Layout

variable {n : Nat} {g : Nat → Nat → Literal} {c : Nat}

/-- The clauses of `equal` for the cells `g` of a row, along the blocks of a partition. -/
def EqualAlong (n : Nat) (g : Nat → Nat → Literal) (first : Nat) (cycle : List Nat)
    (α : Assignment) : Prop :=
  LaidOut (fun j v => (equal ((List.range n).map (g j)) (v + 1)).eval α = true) cycle first

/-- The row of cells `g`. -/
def rowOf (n : Nat) (g : Nat → Nat → Literal) : List (List Literal) :=
  (List.range n).map fun j => (List.range n).map (g j)

theorem forall_mem_cycleEqualities {P : Expression → Prop} : ∀ {cycle : List Nat} {first : Nat},
    first + cycle.sum ≤ n → ((∀ e ∈ cycleEqualities (rowOf n g) cycle first, P e) ↔
      LaidOut (fun j v => P (equal ((List.range n).map (g j)) (v + 1))) cycle first)
  | [], _, _ => by simp [cycleEqualities, LaidOut]
  | p :: cycle, first, hsum => by
      rw [List.sum_cons] at hsum
      rw [cycleEqualities, List.forall_mem_append, forall_mem_cycleEqualities (by omega), LaidOut,
        List.forall_mem_map]
      refine and_congr_left' (forall_congr' fun i => ?_)
      rw [List.mem_range]
      refine forall_congr' fun hi => ?_
      have hnext : first + 1 + (i + 1) % p = first + (i + 1) % p + 1 := by omega
      rw [rowOf, getD_map_range _ _ (by omega), hnext]

theorem eval_cycleEqualities {cycle : List Nat} {first : Nat} (hsum : first + cycle.sum ≤ n)
    {α : Assignment} : (and (cycleEqualities (rowOf n g) cycle first)).eval α = true ↔
      EqualAlong n g first cycle α := by
  rw [Expression.eval_and, List.all_eq_true]
  exact forall_mem_cycleEqualities hsum

theorem cycleEqualities_definable {cycle : List Nat} {first : Nat} (hsum : first + cycle.sum ≤ n)
    (hg : ∀ j < n, ∀ v < n, (g j v).Within c) :
    (and (cycleEqualities (rowOf n g) cycle first)).Definable c := by
  apply Expression.definable_and
  · rw [forall_mem_cycleEqualities hsum]
    exact laidOut_of_forall (fun j hj v _ => equal_proper (hg j hj)) hsum
  · rw [forall_mem_cycleEqualities hsum]
    exact laidOut_of_forall (fun j _ v _ => equal_ofLiterals _ _) hsum

theorem equalAlong_dependsUpTo {cycle : List Nat} {first : Nat} (hsum : first + cycle.sum ≤ n)
    (hg : ∀ j < n, ∀ v < n, (g j v).Within c) : DependsUpTo c (EqualAlong n g first cycle) := by
  have hdefinable := cycleEqualities_definable hsum hg
  refine DependsUpTo.congr (fun α => eval_cycleEqualities hsum) fun α β hαβ => ?_
  rw [hdefinable.eval_eq hαβ]

/-- The cycles that `cycle` leaves to choose from, by their position in the list:
all of them for `-1`. -/
def CycleChosen (cycle : Int) (i : Nat) : Prop := cycle = -1 ∨ cycle = i

/-- What `breakingSymmetry` asks of a row. -/
def AlongCycle (n : Nat) (g : Nat → Nat → Literal) (first : Nat) (cycle : Int)
    (α : Assignment) : Prop :=
  ∃ i, ∃ h : i < (partitions (n - first) 2).length, CycleChosen cycle i ∧
    EqualAlong n g first (partitions (n - first) 2)[i] α

/-- The last conjunct of `breakingSymmetry` asks for the cycle numbered `cycle`. -/
structure FixesCycle (c : Nat) (vs : List Nat) (cycle : Int) (fixed : Expression) : Prop where
  proper : fixed.Proper c
  notFalse : fixed.isFalse = false
  ignored : ∀ α, fixed.IgnoredHold α
  eval : ∀ α, fixed.eval α = true ↔
    cycle = -1 ∨ ∃ i, ∃ h : i < vs.length, cycle = i ∧ α vs[i] = true

theorem ensures_fixedCycle {vs : List Nat} {cycle : Int} {s : GenState}
    (hvs : ∀ v ∈ vs, 1 ≤ v ∧ v ≤ s.varCounter)
    (hcycle : cycle = -1 ∨ 0 ≤ cycle ∧ cycle < vs.length) :
    Ensures (fixedCycle vs cycle) s fun fixed s' =>
      s' = s ∧ FixesCycle s.varCounter vs cycle fixed := by
  rw [fixedCycle]
  split
  · next hall =>
      exact Ensures.of_pure ⟨rfl, Expression.proper_constTrue, rfl,
        fun α => Expression.ignoredHold_of_eval (by simp), by simp [hall]⟩
  · next hall =>
      obtain ⟨hpos, hlt⟩ := hcycle.resolve_left hall
      obtain ⟨i, rfl⟩ := Int.eq_ofNat_of_zero_le hpos
      have hi : i < vs.length := by omega
      rw [if_neg (by omega)]
      refine (Ensures.of_lift (Q := fun v t => v = vs[i] ∧ t = s) (List.getElem?_eq_getElem hi)
        ⟨rfl, rfl⟩).bind ?_
      rintro v t ⟨rfl, rfl⟩
      refine Ensures.of_pure ⟨rfl, ?_, by simp, fun α => Expression.ignoredHold_literal _,
        fun α => ?_⟩
      · exact Expression.proper_literal (Literal.within_var.mpr (hvs _ (List.getElem_mem hi)))
      · simp [hi]

/-- One of the variables is true. -/
theorem eval_orLiterals_vars {vs : List Nat} {α : Assignment} :
    (orLiterals (vs.map .var)).eval α = true ↔ ∃ i, ∃ h : i < vs.length, α vs[i] = true := by
  rw [eval_orLiterals, List.any_map, List.any_eq_true]
  simp only [Function.comp_apply, Literal.eval_var]
  constructor
  · rintro ⟨v, hv, hα⟩
    obtain ⟨i, hi, rfl⟩ := List.getElem_of_mem hv
    exact ⟨i, hi, hα⟩
  · rintro ⟨i, hi, hα⟩
    exact ⟨_, List.getElem_mem hi, hα⟩

section Choice

variable {first : Nat} {cycle : Int} {s s₁ s' : GenState} {vs : List Nat}
variable {phis : List Expression} {fixed : Expression} {α : Assignment}

/-- One of the variables is true, the one numbered `cycle` unless that is `-1`. -/
def ChoosesCycle (cycle : Int) (vs : List Nat) (α : Assignment) : Prop :=
  (∃ i, ∃ h : i < vs.length, α vs[i] = true) ∧
    (cycle = -1 ∨ ∃ i, ∃ h : i < vs.length, cycle = i ∧ α vs[i] = true)

/-- The equalities along a cycle. -/
def cycleOf (n : Nat) (g : Nat → Nat → Literal) (first : Nat) (l : List Nat) : Expression :=
  and (cycleEqualities (rowOf n g) l first)

theorem first_add_sum_le (hn : first + 2 ≤ n) :
    ∀ l ∈ partitions (n - first) 2, first + l.sum ≤ n := by
  intro l hl
  have hsum := (sum_of_mem_partitions (n := n - first) (m := 2) (by decide) (by omega) l hl).1
  omega

theorem partitions_ne_nil (hn : first + 2 ≤ n) : partitions (n - first) 2 ≠ [] := by
  intro hnil
  have hhead := head_partitions (n := n - first) (m := 2) (by decide) (by omega)
  rw [hnil] at hhead
  simp at hhead

theorem eval_chosenCycle (hlength : vs.length = (partitions (n - first) 2).length)
    (hphis : Defines s₁ s' phis (definitions (cycleOf n g first) (partitions (n - first) 2) vs))
    (hfixed : FixesCycle c vs cycle fixed) :
    (and [and [and phis, orLiterals (vs.map .var)], fixed]).eval α = true ↔
      vs.map α = ((partitions (n - first) 2).map fun l => (cycleOf n g first l).eval α) ∧
        ChoosesCycle cycle vs α := by
  rw [Expression.eval_and_pair, Expression.eval_and_pair, eval_orLiterals_vars, hfixed.eval,
    ← definitions_hold_iff hlength, ← hphis.eval α, and_assoc, ChoosesCycle]
  simp

theorem builds_chosenCycle (hn : first + 2 ≤ n)
    (hs₁ : s₁ = { s with varCounter := s.varCounter + (partitions (n - first) 2).length })
    (hvars : vs = List.range' (s.varCounter + 1) (partitions (n - first) 2).length)
    (hphis : Defines s₁ s' phis (definitions (cycleOf n g first) (partitions (n - first) 2) vs))
    (hfixed : FixesCycle s₁.varCounter vs cycle fixed) :
    Builds s s' [and [and [and phis, orLiterals (vs.map .var)], fixed]] [] := by
  have hcounter : s₁.varCounter = s.varCounter + (partitions (n - first) 2).length := by rw [hs₁]
  have hlength : vs.length = (partitions (n - first) 2).length := by
    rw [hvars, List.length_range']
  have hsome : (orLiterals (vs.map .var)).Proper s₁.varCounter := by
    refine Expression.proper_orLiterals fun l hl => ?_
    obtain ⟨v, hv, rfl⟩ := List.mem_map.mp hl
    rw [hvars, List.mem_range'_1] at hv
    exact Literal.within_var.mpr (by omega)
  have hproper : (and [and [and phis, orLiterals (vs.map .var)], fixed]).Proper s₁.varCounter :=
    Expression.proper_and_pair
      (Expression.proper_and_pair (Expression.proper_and hphis.proper) hsome) hfixed.proper
  have hsomeFalse : (orLiterals (vs.map .var)).isFalse = false := by
    have hpos : 0 < vs.length := by
      rw [hlength, List.length_pos_iff]
      exact partitions_ne_nil hn
    exact Expression.isFalse_orLiterals (List.mem_map_of_mem (List.getElem_mem hpos)) (by simp)
  refine (hphis.builds [and [and [and phis, orLiterals (vs.map .var)], fixed]]
    (by simpa using hproper) ?_ ?_).of_introduced (by omega) (by rw [hs₁]) ?_
  · have hphisFalse := hphis.notFalse
    simp [hfixed.notFalse, hsomeFalse]
    exact hphisFalse
  · intro α hα
    rw [List.forall_mem_singleton]
    exact Expression.ignoredHold_and_pair (Expression.ignoredHold_and_pair
      (Expression.ignoredHold_and fun e he => Expression.ignoredHold_of_eval (hα e he))
      (Expression.ignoredHold_orLiterals _)) (hfixed.ignored α)
  · rw [map_fst_definitions hlength, fresh, hcounter, hvars, Nat.add_sub_cancel_left,
      List.append_nil]

/-- With the values of their cycles, the variables choose what the row is asked for. -/
theorem choosesCycle_iff (hn : first + 2 ≤ n)
    (hvalues : vs.map α = (partitions (n - first) 2).map fun l => (cycleOf n g first l).eval α) :
    ChoosesCycle cycle vs α ↔ AlongCycle n g first cycle α := by
  have hlength : vs.length = (partitions (n - first) 2).length := by
    simpa using congrArg List.length hvalues
  have hvalue : ∀ i (h : i < vs.length) (h' : i < (partitions (n - first) 2).length),
      α vs[i] = true ↔ EqualAlong n g first (partitions (n - first) 2)[i] α := by
    intro i h h'
    rw [← eval_cycleEqualities (first_add_sum_le hn _ (List.getElem_mem h'))]
    have hmap : i < (vs.map α).length := by simpa using h
    have hi : (vs.map α)[i] = _ := List.getElem_of_eq hvalues hmap
    rw [List.getElem_map, List.getElem_map] at hi
    rw [hi, cycleOf]
  constructor
  · rintro ⟨⟨i, hi, hα⟩, rfl | ⟨j, hj, rfl, hα'⟩⟩
    · exact ⟨i, by omega, Or.inl rfl, (hvalue i hi _).mp hα⟩
    · exact ⟨j, by omega, Or.inr rfl, (hvalue j hj _).mp hα'⟩
  · rintro ⟨i, hi, hchosen, hα⟩
    have hα' := (hvalue i (by omega) hi).mpr hα
    exact ⟨⟨i, _, hα'⟩, hchosen.imp_right fun h => ⟨i, _, h, hα'⟩⟩

/-- The variables of the cycles may be projected away. -/
theorem projects_chosenCycle (hn : first + 2 ≤ n)
    (hg : ∀ j < n, ∀ v < n, (g j v).Within c)
    (hvars : vs = List.range' (c + 1) (partitions (n - first) 2).length) :
    Projects c (c + (partitions (n - first) 2).length)
      (fun α => vs.map α = ((partitions (n - first) 2).map fun l =>
        (cycleOf n g first l).eval α) ∧ ChoosesCycle cycle vs α)
      (AlongCycle n g first cycle) := by
  have hdefinable : ∀ l ∈ partitions (n - first) 2, (cycleOf n g first l).Definable c :=
    fun l hl => cycleEqualities_definable (first_add_sum_le hn l hl) hg
  have hintroduced := projects_definitions (s := { varCounter := c }) hdefinable
  rw [← hvars] at hintroduced
  refine (hintroduced.bind (Projects.refl ?_) ?_
    fun α hvalues => choosesCycle_iff hn hvalues).congr (fun _ => Iff.rfl)
      fun α => by rw [true_and]
  · intro α β hαβ
    have hsame : ∀ v ∈ vs, β v = α v := fun v hv => by
      rw [hvars, List.mem_range'_1] at hv
      exact hαβ v (by show v ≤ c + _; omega)
    have hat : ∀ i, ∀ h : i < vs.length, β vs[i] = α vs[i] :=
      fun i hi => hsame _ (List.getElem_mem hi)
    simp +contextual only [ChoosesCycle, hat]
  · exact DependsUpTo.exists_ fun i => DependsUpTo.exists_ fun hi =>
      (DependsUpTo.const _ _).and
        (equalAlong_dependsUpTo (first_add_sum_le hn _ (List.getElem_mem hi)) hg)

/-- `breakingSymmetry` puts the row in the form of one of the cycles to choose from. -/
theorem ensures_breakingSymmetry (hn : first + 2 ≤ n)
    (hcycle : cycle = -1 ∨ 0 ≤ cycle ∧ cycle < (partitions (n - first) 2).length)
    (hg : ∀ j < n, ∀ v < n, (g j v).Within s.varCounter) :
    Ensures (breakingSymmetry (rowOf n g) first cycle) s fun r s' => Builds s s' [r] [] ∧
      Projects s.varCounter s'.varCounter (fun α => r.eval α = true)
        (AlongCycle n g first cycle) := by
  have hcycles : getCycles ((rowOf n g).length - first) = some (partitions (n - first) 2) := by
    rw [rowOf, List.length_map, List.length_range, getCycles_eq (by omega)]
  refine (Ensures.of_lift (Q := fun a t => a = partitions (n - first) 2 ∧ t = s) hcycles
    ⟨rfl, rfl⟩).bind ?_
  rintro _ t ⟨rfl, rfl⟩
  refine (ensures_newVariables (partitions (n - first) 2) t).bind ?_
  rintro vs s₁ ⟨hvars, hs₁⟩
  have hcounter : s₁.varCounter = t.varCounter + (partitions (n - first) 2).length := by rw [hs₁]
  have hlength : vs.length = (partitions (n - first) 2).length := by
    rw [hvars, List.length_range']
  have hscope : ∀ v ∈ vs, 1 ≤ v ∧ v ≤ s₁.varCounter := by
    intro v hv
    rw [hvars, List.mem_range'_1] at hv
    omega
  refine (ensures_mapM_iff (g := cycleOf n g first) hscope fun l hl =>
    (cycleEqualities_definable (first_add_sum_le hn l hl) hg).mono (by omega)).bind ?_
  intro phis s₂ hphis
  refine (ensures_fixedCycle (by rwa [hphis.counter]) (by rwa [hlength])).bind ?_
  rintro fixed u ⟨rfl, hfixed⟩
  rw [hphis.counter] at hfixed
  refine Ensures.of_pure ⟨builds_chosenCycle hn hs₁ hvars hphis hfixed, ?_⟩
  rw [hphis.counter, hcounter]
  exact (projects_chosenCycle hn hg hvars).congr
    (fun α => (eval_chosenCycle hlength hphis hfixed).symm) fun _ => Iff.rfl

end Choice

/-- The row `L` runs along one of the cycles to choose from. -/
def RowAlong (L : Fin n → Fin n) (first : Nat) (cycle : Int) : Prop :=
  ∃ i, ∃ h : i < (partitions (n - first) 2).length, CycleChosen cycle i ∧
    RowLaidOut L (partitions (n - first) 2)[i] first

/-- With every cycle to choose from, any partition will do. -/
theorem rowAlong_all_iff {L : Fin n → Fin n} {first : Nat} :
    RowAlong L first (-1) ↔ ∃ l ∈ partitions (n - first) 2, RowLaidOut L l first := by
  constructor
  · rintro ⟨i, hi, -, hlaid⟩
    exact ⟨_, List.getElem_mem hi, hlaid⟩
  · rintro ⟨l, hl, hlaid⟩
    obtain ⟨i, hi, rfl⟩ := List.getElem_of_mem hl
    exact ⟨i, hi, Or.inl rfl, hlaid⟩

/-- Literals that show the symbols of a row run along the blocks the row does. -/
theorem equalAlong_iff {L : Fin n → Fin n} {first : Nat} {l : List Nat} {α : Assignment}
    (hsum : first + l.sum ≤ n) (hL : ∀ j v : Fin n, (g j v).eval α = true ↔ L j = v) :
    EqualAlong n g first l α ↔ RowLaidOut L l first := by
  have hcell : ∀ j < n, ∀ v < n, ((equal ((List.range n).map (g j)) (v + 1)).eval α = true ↔
      ∃ h : j < n, (L ⟨j, h⟩ : Nat) = v) := by
    intro j hj v hv
    have hequal := eval_equal_of_cell (hL ⟨j, hj⟩) ⟨v, hv⟩
    rw [Fin.ext_iff] at hequal
    exact hequal.trans ⟨fun h => ⟨hj, h⟩, fun h => h.2⟩
  exact ⟨LaidOut.mono (fun j hj v hv => (hcell j hj v hv).mp) hsum,
    LaidOut.mono (fun j hj v hv => (hcell j hj v hv).mpr) hsum⟩

theorem alongCycle_iff {L : Fin n → Fin n} {first : Nat} {cycle : Int} {α : Assignment}
    (hn : first + 2 ≤ n) (hL : ∀ j v : Fin n, (g j v).eval α = true ↔ L j = v) :
    AlongCycle n g first cycle α ↔ RowAlong L first cycle := by
  have hpartition := sum_of_mem_partitions (n := n - first) (m := 2) (by decide) (by omega)
  refine exists_congr fun i => exists_congr fun hi => and_congr_right fun _ => ?_
  apply equalAlong_iff _ hL
  rw [(hpartition _ (List.getElem_mem hi)).1]
  omega

/-- `getCycles` lists every partition into parts of at least two once, and the permutations
`breakingSymmetry` asks a row of `n` cells to follow are one of each cycle type. -/
theorem getCycles_oneOfEachType (hn : 2 ≤ n) (first : Nat) :
    ∃ cycles, getCycles n = some cycles ∧ cycles.Nodup ∧
      (∀ l, l ∈ cycles ↔ l.sum = n ∧ (∀ a ∈ l, 2 ≤ a) ∧ l.Pairwise (· ≤ ·)) ∧
      (∀ l ∈ cycles, ∀ (g : Nat → Nat → Literal) (α : Assignment)
        (L : Fin (first + n) → Fin (first + n)),
        (∀ j v : Fin (first + n), (g j v).eval α = true ↔ L j = v) →
        ((and (cycleEqualities (rowOf (first + n) g) l first)).eval α = true ↔
          ∀ c : Fin (first + n), first ≤ c → L c = cyclePermutation (first + n) first l c)) ∧
      (∀ l ∈ cycles, ∀ c : Fin (first + n),
        cyclePermutation (first + n) first l c = c ↔ (c : Nat) < first) ∧
      ∀ σ : Equiv.Perm (Fin (first + n)), (∀ c, σ c = c ↔ (c : Nat) < first) →
        ∃! l, l ∈ cycles ∧ (cyclePermutation (first + n) first l).cycleType = σ.cycleType := by
  have hpartition := sum_of_mem_partitions (n := n) (m := 2) (by decide) hn
  have hcells : first + n - first = n := Nat.add_sub_cancel_left first n
  refine ⟨partitions n 2, getCycles_eq hn, nodup_partitions (by decide) hn, fun l => ?_,
    fun l hl g α L hL => ?_, fun l hl c => ?_, fun σ hσ => ?_⟩
  · constructor
    · intro hl
      exact ⟨(hpartition l hl).1, (hpartition l hl).2,
        sorted_of_mem_partitions (by decide) hn l hl⟩
    · rintro ⟨hsum, hparts, hsorted⟩
      exact mem_partitions (by decide) hn l hsorted hparts hsum
  · obtain ⟨hsum, hparts⟩ := hpartition l hl
    have hlaid : RowLaidOut (cyclePermutation (first + n) first l) l first :=
      laidOut_cyclePermutation hparts (hsum.trans hcells.symm)
    rw [eval_cycleEqualities (by omega), equalAlong_iff (by omega) hL,
      rowLaidOut_iff (by omega) hlaid]
    have hbound : ∀ c : Fin (first + n), (c : Nat) < first + l.sum := fun c => by omega
    exact forall_congr' fun c => imp_congr_right fun _ => imp_iff_right (hbound c)
  · obtain ⟨hsum, hparts⟩ := hpartition l hl
    exact cyclePermutation_apply_eq_iff hparts (hsum.trans hcells.symm) c
  · simpa only [hcells] using existsUnique_cycleType (n := first + n) (by omega) σ hσ

theorem getCycles_oneOfEachType_seven :
    ∃ cycles, getCycles 7 = some cycles ∧ cycles.Nodup ∧ [2, 2, 3] ∈ cycles := by
  obtain ⟨cycles, hcycles, hnodup, hmem, -⟩ := getCycles_oneOfEachType (n := 7) (by decide) 0
  exact ⟨cycles, hcycles, hnodup, (hmem _).mpr (by decide)⟩

end Layout

end LatinSquares.Generator
