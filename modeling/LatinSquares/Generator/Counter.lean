/-
# The sequential counter of `greaterOrEqual`

The clauses `greaterOrEqual vars k` writes are the rules of a counter over the
marks "`vars[i]` is false", with the bits `svars`. Projected to `vars` they say
that at most `k` of the variables are false; together with the first `c` of the
tightening expressions they say that at most `k - (c - 1)` are.
-/

import LatinSquares.Generator.Blocks

namespace LatinSquares.Generator

open LatinSquares.Math
open Expression (and)

theorem range_eq_zero_cons {k : Nat} (hk : 0 < k) : List.range k = 0 :: rangeUntil 1 k := by
  obtain ⟨j, rfl⟩ := Nat.exists_eq_add_of_lt hk
  rw [rangeUntil, List.range_eq_range', Nat.zero_add, Nat.add_sub_cancel, List.range'_succ]

/-- What row `i` says about the bits of its own row and of the row before it. -/
def CounterRow (v : Nat → Nat) (s : Nat → Nat → Nat) (k i : Nat) (α : Assignment) : Prop :=
  (((!α (v i)) = true → α (s i 0) = true) ∧ (α (s (i - 1) 0) = true → α (s i 0) = true)) ∧
  (∀ j, 1 ≤ j → j < k →
    ((!α (v i)) = true → α (s (i - 1) (j - 1)) = true → α (s i j) = true) ∧
      (α (s (i - 1) j) = true → α (s i j) = true)) ∧
  ((!α (v i)) = true → α (s (i - 1) (k - 1)) = false)

section Rows

variable {v : Nat → Nat} {s : Nat → Nat → Nat} {k i : Nat} {st : GenState}

/-- The first row, with the nodes that compute its bits. -/
theorem ensures_greaterOrEqualHead (hk : 0 < k)
    (hv : 1 ≤ v 0 ∧ v 0 ≤ st.varCounter)
    (hs : ∀ j < k, 1 ≤ s 0 j ∧ s 0 j ≤ st.varCounter) :
    Ensures (greaterOrEqualHead v s k) st fun e st' =>
      Builds st st' [e] ((List.range k).map (s 0)) ∧ st'.varCounter = st.varCounter ∧
        ∀ α, e.eval α = true ↔ ((!α (v 0)) = true → α (s 0 0) = true) ∧
          ∀ j, 1 ≤ j → j < k → α (s 0 j) = false := by
  have hloop := ensures_mapM_emit
    (f := fun it => do
      addNode (.value (s 0 it) false)
      return Expression.literal (.notVar (s 0 it)))
    (g := fun it => Expression.literal (.notVar (s 0 it)))
    (fun it t => (ensures_addNode t (.value (s 0 it) false)).bind fun _ _ h =>
      Ensures.of_pure ⟨rfl, h⟩) (rangeUntil 1 k) st
  refine hloop.bind ?_
  rintro headNots st' ⟨rfl, rfl⟩
  refine (ensures_addNode _ _).bind ?_
  rintro _ st'' rfl
  have heval : ∀ α, ((and [orLiterals [.var (v 0), .var (s 0 0)],
      and ((rangeUntil 1 k).map fun it => Expression.literal (.notVar (s 0 it)))]).markArgs
        false).eval α = true ↔ ((!α (v 0)) = true → α (s 0 0) = true) ∧
          ∀ j, 1 ≤ j → j < k → α (s 0 j) = false := by
    intro α
    simp only [Expression.eval_markArgs, Expression.eval_and, List.all_cons, List.all_nil,
      Bool.and_true, Bool.and_eq_true, eval_orLiterals, List.any_cons, List.any_nil,
      Bool.or_false, Literal.eval_var, List.all_map, List.all_eq_true, mem_rangeUntil,
      Function.comp_apply, Expression.eval_literal, Literal.eval_notVar, and_imp]
    refine and_congr ?_ ?_
    · cases α (v 0) <;> simp
    · exact forall_congr' fun j => by simp
  refine Ensures.of_pure ⟨?_, rfl, heval⟩
  -- the nodes of the row, `svars[0][0]` last
  have hnodes : st.nodes ++ (rangeUntil 1 k).flatMap (fun it => [Node.value (s 0 it) false]) ++
      [.andIff (s 0 0) [.notVar (v 0)]] = st.nodes ++
        ((rangeUntil 1 k).map (fun it => Node.value (s 0 it) false) ++
          [.andIff (s 0 0) [.notVar (v 0)]]) := by
    rw [← List.map_eq_flatMap, List.append_assoc]
  simp only [hnodes]
  refine Builds.of_nodes ?_ ?_ ?_ ?_ ?_
  · refine (Expression.proper_and fun e he => ?_).markArgs _
    rcases List.mem_pair.mp he with rfl | rfl
    · apply Expression.proper_orLiterals
      simp [hv, hs 0 hk]
    · refine Expression.proper_and fun e he => ?_
      obtain ⟨j, hj, rfl⟩ := List.mem_map.mp he
      exact Expression.proper_literal (Literal.within_notVar.mpr (hs j (mem_rangeUntil.mp hj).2))
  · simp
  · intro node hnode
    rcases List.mem_append.mp hnode with hnode | hnode
    · obtain ⟨j, hj, rfl⟩ := List.mem_map.mp hnode
      exact ⟨hs j (mem_rangeUntil.mp hj).2, by simp [Node.args]⟩
    · obtain rfl := List.mem_singleton.mp hnode
      exact ⟨hs 0 hk, by simpa [Node.args] using hv⟩
  · rw [range_eq_zero_cons hk, List.map_append, List.map_map, List.map_cons]
    exact List.perm_append_singleton _ _
  · intro α hα
    apply Expression.ignoredHold_markArgs
    intro _
    have hstart := hα (.andIff (s 0 0) [.notVar (v 0)]) (by simp)
    have hfalse : ∀ j, 1 ≤ j → j < k → α (s 0 j) = false := fun j h1 hj =>
      hα (.value (s 0 j) false) (List.mem_append_left _
        (List.mem_map.mpr ⟨j, mem_rangeUntil.mpr ⟨h1, hj⟩, rfl⟩))
    rw [← Expression.eval_markArgs α false]
    refine (heval α).mpr ⟨fun hmark => ?_, hfalse⟩
    simpa [Node.Holds, Node.var, Node.eval, hmark] using hstart

/-- The clauses of the first bit of row `i`. -/
def firstOf (v : Nat → Nat) (s : Nat → Nat → Nat) (i : Nat) : Expression :=
  (and [orLiterals [.var (v i), .var (s i 0)],
    orLiterals [.notVar (s (i - 1) 0), .var (s i 0)]]).markArgs false

/-- The clauses of bit `j` of row `i`. -/
def bitOf (v : Nat → Nat) (s : Nat → Nat → Nat) (i j : Nat) : Expression :=
  and [orLiterals [.var (v i), .notVar (s (i - 1) (j - 1)), .var (s i j)],
    orLiterals [.notVar (s (i - 1) j), .var (s i j)]]

/-- The clauses of the other bits of row `i`. -/
def secondOf (v : Nat → Nat) (s : Nat → Nat → Nat) (k i : Nat) : Expression :=
  (and ((rangeUntil 1 k).map (bitOf v s i))).markArgs false

/-- The clause that stops the counter. -/
def stopOf (last bit : Nat) : Expression := orLiterals [.var last, .notVar bit]

/-- The node of bit `j` of row `i`. -/
def nodeOf (v : Nat → Nat) (s : Nat → Nat → Nat) (i j : Nat) : Node :=
  .orAnd (s i j) [[.notVar (v i), .var (s (i - 1) (j - 1))], [.var (s (i - 1) j)]]

/-- The nodes of row `i`. -/
def nodesOf (v : Nat → Nat) (s : Nat → Nat → Nat) (k i : Nat) : List Node :=
  .orIff (s i 0) [.notVar (v i), .var (s (i - 1) 0)] :: (rangeUntil 1 k).map (nodeOf v s i)

theorem eval_firstOf {α : Assignment} : (firstOf v s i).eval α = true ↔
    ((!α (v i)) = true → α (s i 0) = true) ∧ (α (s (i - 1) 0) = true → α (s i 0) = true) := by
  simp only [firstOf, Expression.eval_markArgs, Expression.eval_and, List.all_cons, List.all_nil,
    Bool.and_true, Bool.and_eq_true, eval_orLiterals, List.any_cons, List.any_nil,
    Bool.or_false, Literal.eval_var, Literal.eval_notVar]
  cases α (v i) <;> cases α (s (i - 1) 0) <;> simp

theorem eval_secondOf {α : Assignment} : (secondOf v s k i).eval α = true ↔
    ∀ j, 1 ≤ j → j < k →
      ((!α (v i)) = true → α (s (i - 1) (j - 1)) = true → α (s i j) = true) ∧
        (α (s (i - 1) j) = true → α (s i j) = true) := by
  simp only [secondOf, bitOf, Expression.eval_markArgs, Expression.eval_and, List.all_map,
    List.all_eq_true, mem_rangeUntil, Function.comp_apply, List.all_cons, List.all_nil,
    Bool.and_true, Bool.and_eq_true, eval_orLiterals, List.any_cons, List.any_nil,
    Bool.or_false, Literal.eval_var, Literal.eval_notVar, and_imp]
  refine forall_congr' fun j => forall_congr' fun _ => forall_congr' fun _ => ?_
  cases α (v i) <;> cases α (s (i - 1) (j - 1)) <;> cases α (s (i - 1) j) <;> simp

theorem eval_stopOf {last bit : Nat} {α : Assignment} :
    (stopOf last bit).eval α = true ↔ ((!α last) = true → α bit = false) := by
  simp only [stopOf, eval_orLiterals, List.any_cons, List.any_nil, Bool.or_false,
    Literal.eval_var, Literal.eval_notVar]
  cases α last <;> simp

theorem stopOf_proper {last bit c : Nat} (hlast : 1 ≤ last ∧ last ≤ c)
    (hbit : 1 ≤ bit ∧ bit ≤ c) : (stopOf last bit).Proper c :=
  Expression.proper_orLiterals (by simp [hlast, hbit])

theorem row_proper {c : Nat} (hk : 0 < k) (hv : 1 ≤ v i ∧ v i ≤ c)
    (hprev : ∀ j < k, 1 ≤ s (i - 1) j ∧ s (i - 1) j ≤ c)
    (hs : ∀ j < k, 1 ≤ s i j ∧ s i j ≤ c) :
    (and [firstOf v s i, secondOf v s k i, stopOf (v i) (s (i - 1) (k - 1))]).Proper c := by
  have hbefore := hprev 0 hk
  refine Expression.proper_and fun e he => ?_
  simp only [List.mem_cons, List.not_mem_nil, or_false] at he
  rcases he with rfl | rfl | rfl
  · refine (Expression.proper_and fun e he => ?_).markArgs _
    rcases List.mem_pair.mp he with rfl | rfl
    · exact Expression.proper_orLiterals (by simp [hv, hs 0 hk])
    · exact Expression.proper_orLiterals (by simp [hbefore, hs 0 hk])
  · refine (Expression.proper_and fun e he => ?_).markArgs _
    obtain ⟨j, hj, rfl⟩ := List.mem_map.mp he
    have hj := (mem_rangeUntil.mp hj).2
    have hleft := hprev (j - 1) (by omega)
    refine Expression.proper_and fun e he => ?_
    rcases List.mem_pair.mp he with rfl | rfl
    · exact Expression.proper_orLiterals (by simp [hv, hs j hj, hleft])
    · exact Expression.proper_orLiterals (by simp [hs j hj, hprev j hj])
  · exact stopOf_proper hv (hprev (k - 1) (by omega))

theorem nodesOf_proper {c : Nat} (hk : 0 < k) (hv : 1 ≤ v i ∧ v i ≤ c)
    (hprev : ∀ j < k, 1 ≤ s (i - 1) j ∧ s (i - 1) j ≤ c)
    (hs : ∀ j < k, 1 ≤ s i j ∧ s i j ≤ c) : ∀ node ∈ nodesOf v s k i, node.Proper c := by
  intro node hnode
  rcases List.mem_cons.mp hnode with rfl | hnode
  · have hbefore := hprev 0 hk
    exact ⟨hs 0 hk, by simp [Node.args, hv, hbefore]⟩
  · obtain ⟨j, hj, rfl⟩ := List.mem_map.mp hnode
    have hj := (mem_rangeUntil.mp hj).2
    have hleft := hprev (j - 1) (by omega)
    exact ⟨hs j hj, by simp [nodeOf, Node.args, hv, hleft, hprev j hj]⟩

theorem map_var_nodesOf (hk : 0 < k) :
    (nodesOf v s k i).map Node.var = (List.range k).map (s i) := by
  rw [range_eq_zero_cons hk, nodesOf, List.map_cons, List.map_cons, List.map_map]
  rfl

/-- The nodes of a row make its definitions true. -/
theorem eval_of_nodesOf {α : Assignment} (h : ∀ node ∈ nodesOf v s k i, node.Holds α) :
    (firstOf v s i).eval α = true ∧ (secondOf v s k i).eval α = true := by
  have hstart := h (.orIff (s i 0) [.notVar (v i), .var (s (i - 1) 0)]) List.mem_cons_self
  have hbits : ∀ j, 1 ≤ j → j < k → (nodeOf v s i j).Holds α := fun j h1 hj =>
    h (nodeOf v s i j) (List.mem_cons_of_mem _
      (List.mem_map.mpr ⟨j, mem_rangeUntil.mpr ⟨h1, hj⟩, rfl⟩))
  constructor
  · rw [eval_firstOf]
    simp only [Node.Holds, Node.var, Node.eval, List.any_cons, List.any_nil, Bool.or_false,
      Literal.eval_var, Literal.eval_notVar] at hstart
    rw [hstart]
    cases α (v i) <;> cases α (s (i - 1) 0) <;> simp
  · rw [eval_secondOf]
    intro j h1 hj
    have hbit := hbits j h1 hj
    simp only [nodeOf, Node.Holds, Node.var, Node.eval, List.any_cons, List.any_nil,
      List.all_cons, List.all_nil, Bool.and_true, Bool.or_false, Literal.eval_var,
      Literal.eval_notVar] at hbit
    rw [hbit]
    cases α (v i) <;> cases α (s (i - 1) (j - 1)) <;> cases α (s (i - 1) j) <;> simp

/-- Row `i`, with the nodes that compute its bits. -/
theorem ensures_greaterOrEqualMiddle (hk : 0 < k)
    (hv : 1 ≤ v i ∧ v i ≤ st.varCounter)
    (hprev : ∀ j < k, 1 ≤ s (i - 1) j ∧ s (i - 1) j ≤ st.varCounter)
    (hs : ∀ j < k, 1 ≤ s i j ∧ s i j ≤ st.varCounter) :
    Ensures (greaterOrEqualMiddle v s k i) st fun e st' =>
      Builds st st' [e] ((List.range k).map (s i)) ∧ st'.varCounter = st.varCounter ∧
        ∀ α, e.eval α = true ↔ CounterRow v s k i α := by
  refine (ensures_addNode _ _).bind ?_
  rintro _ st' rfl
  have hloop := ensures_mapM_emit
    (f := fun j => do
      addNode (nodeOf v s i j)
      return bitOf v s i j)
    (g := bitOf v s i)
    (fun j t => (ensures_addNode t (nodeOf v s i j)).bind fun _ _ h => Ensures.of_pure ⟨rfl, h⟩)
    (rangeUntil 1 k) { st with nodes :=
      st.nodes ++ [.orIff (s i 0) [.notVar (v i), .var (s (i - 1) 0)]] }
  refine hloop.bind ?_
  rintro second st' ⟨rfl, rfl⟩
  refine Ensures.of_pure ⟨?_, rfl, fun α => ?_⟩
  · have hnodes : st.nodes ++ [.orIff (s i 0) [.notVar (v i), .var (s (i - 1) 0)]] ++
        (rangeUntil 1 k).flatMap (fun j => [nodeOf v s i j]) = st.nodes ++ nodesOf v s k i := by
      rw [← List.map_eq_flatMap, List.append_assoc, List.singleton_append, nodesOf]
    simp only [hnodes]
    refine Builds.of_nodes (row_proper hk hv hprev hs) (by simp [bitOf])
      (nodesOf_proper hk hv hprev hs) (List.Perm.of_eq (map_var_nodesOf hk)) fun α hα => ?_
    -- the nodes make the row's definitions true, and the stop clause is marked
    obtain ⟨hfirst, hsecond⟩ := eval_of_nodesOf hα
    refine Expression.ignoredHold_and fun e he => ?_
    simp only [List.mem_cons, List.not_mem_nil, or_false] at he
    rcases he with rfl | rfl | rfl
    · exact Expression.ignoredHold_of_eval hfirst
    · exact Expression.ignoredHold_of_eval hsecond
    · exact Expression.ignoredHold_orLiterals _
  · have hrow : (and [firstOf v s i, secondOf v s k i,
        stopOf (v i) (s (i - 1) (k - 1))]).eval α = true ↔ CounterRow v s k i α := by
      rw [Expression.eval_and, CounterRow, ← eval_firstOf, ← eval_secondOf, ← eval_stopOf]
      simp only [List.all_cons, List.all_nil, Bool.and_true, Bool.and_eq_true]
    exact hrow

end Rows

/-- The conjunction of a loop's results says what its rounds say. -/
theorem eval_and_of_traversal {α : Type} {R : α → GenState → Expression → GenState → Prop}
    {C : α → Assignment → Prop} (hC : ∀ x s e s', R x s e s' → ∀ a, e.eval a = true ↔ C x a)
    {xs : List α} {es : List Expression} {s s' : GenState} (h : Traversal R xs s es s')
    (a : Assignment) : (and es).eval a = true ↔ ∀ x ∈ xs, C x a := by
  rw [Expression.eval_and]
  induction h with
  | nil s => simp
  | cons head tail ih => simp [ih, hC _ _ _ _ head a]

theorem getD_map_range {α : Type} (f : Nat → α) (d : α) {n i : Nat} (hi : i < n) :
    ((List.range n).map f).getD i d = f i := by
  rw [List.getD_eq_getElem _ _ (by simpa using hi), List.getElem_map, List.getElem_range]

theorem getD_range' {start n i d : Nat} (hi : i < n) :
    (List.range' start n).getD i d = start + i := by
  rw [List.getD_eq_getElem _ _ (by simpa using hi), List.getElem_range', Nat.one_mul]

/-- Rows of `k` consecutive numbers, one after the other. -/
theorem flatMap_range' (start n k : Nat) :
    (List.range n).flatMap (fun i => List.range' (start + i * k + 1) k) =
      List.range' (start + 1) (n * k) := by
  induction n with
  | zero => simp
  | succ n ih =>
      rw [List.range_succ, List.flatMap_append, ih, List.flatMap_singleton, Nat.succ_mul,
        ← List.range'_append, Nat.one_mul]
      congr 2
      omega

theorem row_index_lt {m k i j : Nat} (hi : i < m - 1) (hj : j < k) :
    i * k + j + 1 ≤ (m - 1) * k := by
  have hrow : (i + 1) * k ≤ (m - 1) * k := Nat.mul_le_mul_right k hi
  rw [Nat.add_mul, Nat.one_mul] at hrow
  omega

/-- The counter's rules over variables past `start`, with the first `c` tightening
conditions, bound the number of false variables among `vars`. -/
theorem projects_isCounter {vars : List Nat} {k c start : Nat} {C : Assignment → Prop}
    (hk : 0 < k) (hlength : 2 ≤ vars.length) (hc : c ≤ k) (hvars : ∀ v ∈ vars, v ≤ start)
    (hC : ∀ α, C α ↔
      IsCounter vars.length k (fun i => !α (vars.getD i 0))
          (fun i j => α (start + i * k + j + 1)) ∧
        ∀ r < c, Tightened vars.length k r (fun i => !α (vars.getD i 0))
          (fun i j => α (start + i * k + j + 1))) :
    Projects start (start + (vars.length - 1) * k) C
      (fun α => vars.countP (fun v => !α v) ≤ k - (c - 1)) := by
  have hmark : ∀ {α β : Assignment}, AgreeUpTo start α β → ∀ i < vars.length,
      (!α (vars.getD i 0)) = !β (vars.getD i 0) := by
    intro α β hαβ i hi
    rw [List.getD_eq_getElem _ _ hi, hαβ _ (hvars _ (List.getElem_mem hi))]
  have hcount : ∀ α : Assignment,
      (∃ s, IsCounter vars.length k (fun i => !α (vars.getD i 0)) s ∧
        ∀ r < c, Tightened vars.length k r (fun i => !α (vars.getD i 0)) s) ↔
          vars.countP (fun v => !α v) ≤ k - (c - 1) := by
    intro α
    rw [exists_isCounter_iff hlength hk hc, count_getD_eq_countP (fun v => !α v)]
  refine ⟨Nat.le_add_right _ _, ?_, ?_, ?_, ?_⟩
  · -- the formula mentions `vars` and the bits only
    have hmono : ∀ {α β : Assignment},
        AgreeUpTo (start + (vars.length - 1) * k) α β → C α → C β := by
      intro α β hαβ hα
      have hbits : ∀ i < vars.length - 1, ∀ j < k,
          α (start + i * k + j + 1) = β (start + i * k + j + 1) := by
        intro i hi j hj
        have hindex := row_index_lt hi hj
        rw [hαβ _ (by omega)]
      have hmarks := hmark (hαβ.mono (Nat.le_add_right _ _))
      obtain ⟨hcounter, htightened⟩ := (hC α).mp hα
      refine (hC β).mpr ⟨hcounter.congr hlength hk hmarks hbits, fun r hr => ?_⟩
      exact (htightened r hr).congr hlength (by omega) hmarks hbits
    exact fun α β hαβ => ⟨hmono hαβ, hmono hαβ.symm⟩
  · intro α β hαβ
    have heq : vars.countP (fun v => !α v) = vars.countP fun v => !β v :=
      List.countP_congr fun v hv => by rw [hαβ v (hvars v hv)]
    simp only [heq]
  · intro α hα
    exact (hcount α).mp ⟨_, (hC α).mp hα⟩
  · intro α hα
    obtain ⟨s, hcounter, htightened⟩ := (hcount α).mpr hα
    obtain ⟨β, hαβ, hβ⟩ := exists_extend_rows start k α s
    have hbits : ∀ i < vars.length - 1, ∀ j < k, s i j = β (start + i * k + j + 1) :=
      fun i _ j hj => (hβ i j hj).symm
    refine ⟨β, hαβ, (hC β).mpr ⟨hcounter.congr hlength hk (hmark hαβ) hbits, fun r hr => ?_⟩⟩
    exact (htightened r hr).congr hlength (by omega) (hmark hαβ) hbits

/-- The clauses of the three parts are the counter's rules. -/
theorem isCounter_iff_rows {v : Nat → Nat} {s : Nat → Nat → Nat} {m k : Nat} {α : Assignment} :
    IsCounter m k (fun i => !α (v i)) (fun i j => α (s i j)) ↔
      (((!α (v 0)) = true → α (s 0 0) = true) ∧ ∀ j, 1 ≤ j → j < k → α (s 0 j) = false) ∧
      (∀ i ∈ rangeUntil 1 (m - 1), CounterRow v s k i α) ∧
      ((!α (v (m - 1))) = true → α (s (m - 2) (k - 1)) = false) := by
  constructor
  · intro h
    refine ⟨⟨h.first, h.firstUnset⟩, fun i hi => ?_, h.stopLast⟩
    obtain ⟨h1, hi⟩ := mem_rangeUntil.mp hi
    exact ⟨⟨h.start i h1 hi, h.keepStart i h1 hi⟩,
      fun j hj1 hj => ⟨h.count i h1 hi j hj1 hj, h.keep i h1 hi j hj1 hj⟩, h.stop i h1 hi⟩
  · rintro ⟨⟨hfirst, hunset⟩, hrows, hlast⟩
    have hrow : ∀ i, 1 ≤ i → i < m - 1 → CounterRow v s k i α :=
      fun i h1 hi => hrows i (mem_rangeUntil.mpr ⟨h1, hi⟩)
    exact {
      first := hfirst
      firstUnset := hunset
      start := fun i h1 hi => (hrow i h1 hi).1.1
      keepStart := fun i h1 hi => (hrow i h1 hi).1.2
      count := fun i h1 hi j hj1 hj => ((hrow i h1 hi).2.1 j hj1 hj).1
      keep := fun i h1 hi j hj1 hj => ((hrow i h1 hi).2.1 j hj1 hj).2
      stop := fun i h1 hi => (hrow i h1 hi).2.2
      stopLast := hlast }

theorem forall_mem_take_mapIdx {α β : Type} {f : Nat → α → β} {P : β → Prop} {l : List α}
    {c : Nat} (hc : c ≤ l.length) (d : α) :
    (∀ e ∈ (l.mapIdx f).take c, P e) ↔ ∀ r < c, P (f r (l.getD r d)) := by
  simp only [List.mem_iff_getElem]
  constructor
  · intro h r hr
    refine h _ ⟨r, by simp; omega, ?_⟩
    rw [List.getElem_take, List.getElem_mapIdx, List.getD_eq_getElem _ _ (by omega)]
  · rintro h e ⟨r, hr, rfl⟩
    rw [List.length_take, List.length_mapIdx] at hr
    have hP := h r (by omega)
    rw [List.getD_eq_getElem _ _ (by omega)] at hP
    rwa [List.getElem_take, List.getElem_mapIdx]

theorem tightening_proper {last c : Nat} {row : List Nat} (hlast : 1 ≤ last ∧ last ≤ c)
    (hrow : ∀ bit ∈ row, 1 ≤ bit ∧ bit ≤ c) {r it : Nat} (hr : r < row.length) (hit : it ∈ row) :
    (and [orLiterals [.var last, .notVar it],
      if r = 0 then .constTrue else .literal (.notVar (row.getD (r - 1) 0))]).Proper c := by
  refine Expression.proper_and fun e he => ?_
  rcases List.mem_pair.mp he with rfl | rfl
  · exact Expression.proper_orLiterals (by simp [hlast, hrow it hit])
  · split
    · exact Expression.proper_constTrue
    · rw [List.getD_eq_getElem _ _ (by omega)]
      exact Expression.proper_literal (Literal.within_notVar.mpr (hrow _ (List.getElem_mem _)))

/-- The expressions that tighten the counter, as `greaterOrEqual` builds them from
the last variable and the last row of bits. -/
theorem tightening_spec {last r : Nat} {row : List Nat} (hr : r < row.length) (α : Assignment) :
    (and [orLiterals [.var last, .notVar (row.reverse.getD r 0)],
        if r = 0 then .constTrue else .literal (.notVar (row.reverse.getD (r - 1) 0))]).eval α =
          true ↔
      ((!α last) = true → α (row.getD (row.length - 1 - r) 0) = false) ∧
        (0 < r → α (row.getD (row.length - r) 0) = false) := by
  have hreverse : ∀ i, i < row.length →
      row.reverse.getD i 0 = row.getD (row.length - 1 - i) 0 := by
    intro i hi
    rw [List.getD_eq_getElem _ _ (by simpa using hi), List.getD_eq_getElem _ _ (by omega),
      List.getElem_reverse]
  have hstop : (orLiterals [.var last, .notVar (row.reverse.getD r 0)]).eval α = true ↔
      ((!α last) = true → α (row.getD (row.length - 1 - r) 0) = false) := by
    rw [hreverse r hr]
    exact eval_stopOf
  rw [Expression.eval_and]
  simp only [List.all_cons, List.all_nil, Bool.and_true, Bool.and_eq_true, hstop]
  apply and_congr Iff.rfl
  rcases Nat.eq_zero_or_pos r with rfl | hpos
  · simp
  · have hindex : row.length - 1 - (r - 1) = row.length - r := by omega
    rw [if_neg (by omega), hreverse (r - 1) (by omega), hindex]
    simp [hpos]

section Bits

variable {v : Nat → Nat} {s : Nat → Nat → Nat} {m k start : Nat} {row vars : List Nat}

/-- The rows define the bits that have been introduced for them. -/
theorem bits_eq_range' (hm : 2 ≤ m)
    (hs : ∀ i < m - 1, ∀ j < k, s i j = start + i * k + j + 1) :
    (List.range k).map (s 0) ++
      (rangeUntil 1 (m - 1)).flatMap (fun i => (List.range k).map (s i)) =
        List.range' (start + 1) ((m - 1) * k) := by
  calc
    _ = (List.range (m - 1)).flatMap fun i => (List.range k).map (s i) := by
      rw [range_eq_zero_cons (k := m - 1) (by omega), List.flatMap_cons]
    _ = (List.range (m - 1)).flatMap fun i => List.range' (start + i * k + 1) k := by
      refine List.flatMap_congr fun i hi => ?_
      rw [List.range'_eq_map_range]
      refine List.map_congr_left fun j hj => ?_
      rw [hs i (List.mem_range.mp hi) j (List.mem_range.mp hj)]
      omega
    _ = List.range' (start + 1) ((m - 1) * k) := flatMap_range' _ _ _

/-- The head, the rows and the last clause of the counter. -/
theorem builds_counter {st st₁ st₂ st₃ : GenState} {head : Expression}
    {middle : List Expression} (hm : 2 ≤ m)
    (hs : ∀ i < m - 1, ∀ j < k, s i j = st.varCounter + i * k + j + 1)
    (hst₁ : st₁ = { st with varCounter := st.varCounter + (m - 1) * k })
    (hhead : Builds st₁ st₂ [head] ((List.range k).map (s 0)))
    (hmiddle : Traversal (fun i t e t' => Builds t t' [e] ((List.range k).map (s i)))
      (rangeUntil 1 (m - 1)) st₂ middle st₃) {last bit : Nat}
    (hstop : (stopOf last bit).Proper st₃.varCounter) :
    Builds st st₃ [and [head, and middle, stopOf last bit]] [] := by
  have hcounter : st₁.varCounter = st.varCounter + (m - 1) * k := by rw [hst₁]
  have hbuilt := (hhead.append (Builds.of_traversal hmiddle).and).join [stopOf last bit]
    (by simpa using hstop) (by simp [stopOf])
    fun α => by simpa [stopOf] using Expression.ignoredHold_orLiterals _
  refine hbuilt.and.of_introduced (by omega) (by rw [hst₁]) ?_
  rw [bits_eq_range' hm hs, fresh, hcounter, Nat.add_sub_cancel_left, List.append_nil]

/-- The clauses of the counter are its rules. -/
theorem eval_counter {st₂ st₃ : GenState} {head : Expression} {middle : List Expression}
    {α : Assignment}
    (hhead : head.eval α = true ↔ ((!α (v 0)) = true → α (s 0 0) = true) ∧
      ∀ j, 1 ≤ j → j < k → α (s 0 j) = false)
    (hmiddle : Traversal (fun i _ e _ => ∀ α : Assignment, e.eval α = true ↔ CounterRow v s k i α)
      (rangeUntil 1 (m - 1)) st₂ middle st₃) :
    (and [head, and middle, stopOf (v (m - 1)) (s (m - 2) (k - 1))]).eval α = true ↔
      IsCounter m k (fun i => !α (v i)) fun i j => α (s i j) := by
  have hrows := eval_and_of_traversal (fun _ _ _ _ h => h) hmiddle α
  rw [isCounter_iff_rows, Expression.eval_and]
  simp only [List.all_cons, List.all_nil, Bool.and_true, Bool.and_eq_true]
  rw [hhead, hrows, eval_stopOf]

/-- The first `c` of the expressions that tighten the counter are the first `c` conditions. -/
theorem eval_take_tightenings {c last : Nat} {α : Assignment} {mark : Nat → Bool}
    {bits : Nat → Nat → Bool} (hc : c ≤ k) (hlength : row.length = k)
    (hmark : mark (m - 1) = !α last) (hbits : ∀ j < k, α (row.getD j 0) = bits (m - 2) j) :
    (∀ e ∈ (row.reverse.mapIdx fun i it => and [orLiterals [.var last, .notVar it],
        if i = 0 then .constTrue else .literal (.notVar (row.reverse.getD (i - 1) 0))]).take c,
      e.eval α = true) ↔ ∀ r < c, Tightened m k r mark bits := by
  rw [forall_mem_take_mapIdx (by rw [List.length_reverse, hlength]; exact hc) 0]
  refine forall_congr' fun r => forall_congr' fun hr => ?_
  rw [tightening_spec (by omega), hlength, Tightened, hbits (k - 1 - r) (by omega), hmark]
  refine and_congr Iff.rfl (forall_congr' fun hpos => ?_)
  rw [hbits (k - r) (by omega)]

theorem getD_scope {c : Nat} (hvars : ∀ v ∈ vars, 1 ≤ v ∧ v ≤ c) {i : Nat}
    (hi : i < vars.length) : 1 ≤ vars.getD i 0 ∧ vars.getD i 0 ≤ c := by
  rw [List.getD_eq_getElem _ _ hi]
  exact hvars _ (List.getElem_mem hi)

end Bits

/-- `greaterOrEqual` for a positive bound. -/
theorem ensures_greaterOrEqual_pos {vars : List Nat} {k : Nat} {st : GenState} (hk : 0 < k)
    (hlength : 2 ≤ vars.length) (hvars : ∀ v ∈ vars, 1 ≤ v ∧ v ≤ st.varCounter) :
    Ensures (greaterOrEqual vars k) st fun r st' =>
      Tightens st st' r k fun c α => vars.countP (fun v => !α v) ≤ k - (c - 1) := by
  unfold greaterOrEqual
  refine (ensures_newVariableRows (vars.length - 1) k st).bind ?_
  rintro svars st₁ ⟨hsvars, hst₁⟩
  rw [if_neg (by omega)]
  refine (Ensures.of_guard (Q := fun _ t => st₁ = t) (by omega) rfl).bind ?_
  rintro _ _ rfl
  let v (i : Nat) : Nat := vars.getD i 0
  let s (i j : Nat) : Nat := (svars.getD i []).getD j 0
  have hs : ∀ i < vars.length - 1, ∀ j < k, s i j = st.varCounter + i * k + j + 1 := by
    intro i hi j hj
    show (svars.getD i []).getD j 0 = _
    rw [hsvars, getD_map_range _ _ hi, getD_range' hj]
    omega
  have hcounter : st₁.varCounter = st.varCounter + (vars.length - 1) * k := by rw [hst₁]
  have hvScope : ∀ i < vars.length, 1 ≤ v i ∧ v i ≤ st₁.varCounter := fun i hi =>
    getD_scope (fun v hv => ⟨(hvars v hv).1, (hvars v hv).2.trans (by omega)⟩) hi
  have hsScope : ∀ i < vars.length - 1, ∀ j < k, 1 ≤ s i j ∧ s i j ≤ st₁.varCounter := by
    intro i hi j hj
    have hindex := row_index_lt hi hj
    rw [hs i hi j hj]
    omega
  refine (ensures_greaterOrEqualHead (v := v) (s := s) hk (hvScope 0 (by omega))
    (hsScope 0 (by omega))).bind ?_
  rintro head st₂ ⟨hhead, hst₂, hheadEval⟩
  refine (ensures_mapM_of_counter (f := greaterOrEqualMiddle v s k)
    (R := fun i t e t' => Builds t t' [e] ((List.range k).map (s i)) ∧
      ∀ α, e.eval α = true ↔ CounterRow v s k i α) fun i hi t ht => ?_).bind ?_
  · obtain ⟨hi1, hi⟩ := mem_rangeUntil.mp hi
    rw [← hst₂, ← ht] at hvScope hsScope
    exact (ensures_greaterOrEqualMiddle hk (hvScope i (by omega)) (hsScope (i - 1) (by omega))
      (hsScope i hi)).mono fun e t' h => ⟨⟨h.1, h.2.2⟩, h.2.1⟩
  rintro middle st₃ ⟨hmiddle, hst₃⟩
  have hst₃ : st₃.varCounter = st₁.varCounter := hst₃.trans hst₂
  rw [← hst₃] at hvScope hsScope
  have hrow : svars.getD (vars.length - 2) [] =
      List.range' (st.varCounter + (vars.length - 2) * k + 1) k := by
    rw [hsvars, getD_map_range _ _ (by omega)]
  have hrowLength : (svars.getD (vars.length - 2) []).length = k := by
    rw [hrow, List.length_range']
  refine Ensures.of_pure ⟨?_, ?_, ?_, fun c hc => ?_⟩
  · refine builds_counter (m := vars.length) hlength hs hst₁ hhead
      (hmiddle.mono fun _ _ _ _ _ h => h.1) ?_
    exact stopOf_proper (hvScope _ (by omega)) (hsScope _ (by omega) _ (by omega))
  · rw [List.length_mapIdx, List.length_reverse, hrowLength]
  · intro e he
    obtain ⟨r, hr, rfl⟩ := List.mem_mapIdx.mp he
    refine tightening_proper (hvScope _ (by omega)) (fun bit hbit => ?_) hr (List.getElem_mem hr)
    obtain ⟨j, hj, rfl⟩ := List.mem_iff_getElem.mp (List.mem_reverse.mp hbit)
    rw [← List.getD_eq_getElem _ 0]
    exact hsScope (vars.length - 2) (by omega) j (hrowLength ▸ hj)
  · rw [hst₃, hcounter]
    refine projects_isCounter hk hlength hc (fun v hv => (hvars v hv).2) fun α => ?_
    have hbits : ∀ i < vars.length - 1, ∀ j < k,
        α (s i j) = α (st.varCounter + i * k + j + 1) := fun i hi j hj => by rw [hs i hi j hj]
    have hcount := eval_counter (m := vars.length) (hheadEval α)
      (hmiddle.mono fun _ _ _ _ _ h => h.2)
    refine and_congr (hcount.trans ?_)
      (eval_take_tightenings hc hrowLength rfl (hbits _ (by omega)))
    exact ⟨fun h => h.congr hlength hk (fun _ _ => rfl) hbits,
      fun h => h.congr hlength hk (fun _ _ => rfl) fun i hi j hj => (hbits i hi j hj).symm⟩

/-- `greaterOrEqual` for the bound zero asks for all the variables. -/
theorem ensures_greaterOrEqual_zero {vars : List Nat} {st : GenState}
    (hvars : ∀ v ∈ vars, 1 ≤ v ∧ v ≤ st.varCounter) :
    Ensures (greaterOrEqual vars 0) st fun r st' =>
      Tightens st st' r 0 fun c α => vars.countP (fun v => !α v) ≤ 0 - (c - 1) := by
  unfold greaterOrEqual
  refine (ensures_newVariableRows (vars.length - 1) 0 st).bind ?_
  rintro svars st₁ ⟨-, hst₁⟩
  have hst₁ : st₁ = st := by simpa using hst₁
  subst hst₁
  rw [if_pos rfl]
  refine Ensures.of_pure (Tightens.of_pure ?_ ?_ (fun α => ?_) fun α => ?_)
  · refine Expression.proper_and fun e he => ?_
    obtain ⟨v, hv, rfl⟩ := List.mem_map.mp he
    exact Expression.proper_literal (Literal.within_var.mpr (hvars v hv))
  · rw [Expression.isFalse_and, List.any_eq_false]
    intro e he
    obtain ⟨v, -, rfl⟩ := List.mem_map.mp he
    simp
  · refine Expression.ignoredHold_and fun e he => ?_
    obtain ⟨v, -, rfl⟩ := List.mem_map.mp he
    exact Expression.ignoredHold_literal _
  · simp [List.countP_eq_zero]

/-- At most `k` variables are false, and one fewer for every tightening expression
after the first. -/
theorem ensures_greaterOrEqual {vars : List Nat} {k : Nat} {st : GenState}
    (hlength : 2 ≤ vars.length) (hvars : ∀ v ∈ vars, 1 ≤ v ∧ v ≤ st.varCounter) :
    Ensures (greaterOrEqual vars k) st fun r st' =>
      Tightens st st' r k fun c α => vars.countP (fun v => !α v) ≤ k - (c - 1) := by
  rcases Nat.eq_zero_or_pos k with rfl | hk
  · exact ensures_greaterOrEqual_zero hvars
  · exact ensures_greaterOrEqual_pos hk hlength hvars

end LatinSquares.Generator
