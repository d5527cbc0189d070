/-
# Steps that write formulas

Every step of an encoder extends the state in the same way: it may raise the
variable counter, it appends nodes to the net, and it returns expressions.
`Builds s s' exprs defined` collects what holds of all of them: the expressions
and nodes mention only variables given out so far, none of the expressions is the
object `False`, and the new nodes compute every variable the step has introduced
once, besides the variables `defined` that an earlier step introduced. Under an
assignment that agrees with the new nodes the clauses without an `isImportant` mark
are true.

Steps compose by `Builds.append` and loops by `Builds.of_traversal`, so each
function of the encoders needs a statement about its own body only.
-/

import LatinSquares.Generator.Scope

namespace LatinSquares.Generator

open LatinSquares.Math
open Expression (and)

/-- The variables introduced between two states. -/
def fresh (s s' : GenState) : List Nat :=
  List.range' (s.varCounter + 1) (s'.varCounter - s.varCounter)

theorem mem_fresh {s s' : GenState} {name : Nat} :
    name ∈ fresh s s' ↔ s.varCounter < name ∧ name ≤ s'.varCounter := by
  rw [fresh, List.mem_range'_1]
  omega

@[simp]
theorem fresh_self (s : GenState) : fresh s s = [] := by simp [fresh]

theorem fresh_of_varCounter_eq {s s' : GenState} (h : s'.varCounter = s.varCounter) :
    fresh s s' = [] := by simp [fresh, h]

theorem fresh_append {s s' s'' : GenState} (h : s.varCounter ≤ s'.varCounter)
    (h' : s'.varCounter ≤ s''.varCounter) : fresh s s' ++ fresh s' s'' = fresh s s'' := by
  have hstart : s'.varCounter + 1 = s.varCounter + 1 + 1 * (s'.varCounter - s.varCounter) := by
    omega
  have hlength : s''.varCounter - s.varCounter =
      (s'.varCounter - s.varCounter) + (s''.varCounter - s'.varCounter) := by omega
  rw [fresh, fresh, fresh, hstart, hlength, ← List.range'_append]

/-- What a step from `s` to `s'` that returns `exprs` and completes the definitions
of the variables `defined` has done. -/
structure Builds (s s' : GenState) (exprs : List Expression) (defined : List Nat) :
    Prop where
  le : s.varCounter ≤ s'.varCounter
  proper : ∀ e ∈ exprs, e.Proper s'.varCounter
  notFalse : ∀ e ∈ exprs, e.isFalse = false
  emitted : ∃ nodes, s'.nodes = s.nodes ++ nodes ∧
    (nodes.map Node.var).Perm (fresh s s' ++ defined) ∧
    (∀ node ∈ nodes, node.Proper s'.varCounter) ∧
    ∀ α, (∀ node ∈ nodes, node.Holds α) → ∀ e ∈ exprs, e.IgnoredHold α

namespace Builds

variable {s s' s'' : GenState} {exprs exprs' : List Expression} {e : Expression}
  {defined defined' : List Nat}

/-- A step that changes nothing, with nothing ignored in its result. -/
theorem of_pure (hproper : ∀ e ∈ exprs, e.Proper s.varCounter)
    (hnotFalse : ∀ e ∈ exprs, e.isFalse = false)
    (hignored : ∀ α, ∀ e ∈ exprs, e.IgnoredHold α) : Builds s s exprs [] where
  le := le_rfl
  proper := hproper
  notFalse := hnotFalse
  emitted := ⟨[], by simp, by simp, by simp, fun α _ => hignored α⟩

/-- A step that emits nodes and introduces no variable. -/
theorem of_nodes {nodes : List Node} (hproper : e.Proper s.varCounter)
    (hnotFalse : e.isFalse = false)
    (hnodes : ∀ node ∈ nodes, node.Proper s.varCounter)
    (hdefined : (nodes.map Node.var).Perm defined)
    (hignored : ∀ α, (∀ node ∈ nodes, node.Holds α) → e.IgnoredHold α) :
    Builds s { s with nodes := s.nodes ++ nodes } [e] defined where
  le := le_rfl
  proper := by simpa using hproper
  notFalse := by simpa using hnotFalse
  emitted := ⟨nodes, rfl, by simpa [fresh] using hdefined, hnodes,
    fun α hα => by simpa using hignored α hα⟩

theorem append (h : Builds s s' exprs defined) (h' : Builds s' s'' exprs' defined') :
    Builds s s'' (exprs ++ exprs') (defined ++ defined') where
  le := h.le.trans h'.le
  proper := by
    intro e he
    rcases List.mem_append.mp he with he | he
    · exact (h.proper e he).mono h'.le
    · exact h'.proper e he
  notFalse := by
    intro e he
    rcases List.mem_append.mp he with he | he
    · exact h.notFalse e he
    · exact h'.notFalse e he
  emitted := by
    obtain ⟨nodes, hnodes, hvars, hproper, hignored⟩ := h.emitted
    obtain ⟨nodes', hnodes', hvars', hproper', hignored'⟩ := h'.emitted
    refine ⟨nodes ++ nodes', by rw [hnodes', hnodes, List.append_assoc], ?_, ?_, ?_⟩
    · rw [List.map_append, ← fresh_append h.le h'.le]
      have hswap : (fresh s s' ++ defined ++ (fresh s' s'' ++ defined')).Perm
          (fresh s s' ++ fresh s' s'' ++ (defined ++ defined')) := by
        rw [List.append_assoc, List.append_assoc]
        refine List.Perm.append_left _ ?_
        rw [← List.append_assoc, ← List.append_assoc]
        exact List.Perm.append_right _ List.perm_append_comm
      exact (hvars.append hvars').trans hswap
    · intro node hnode
      rcases List.mem_append.mp hnode with hnode | hnode
      · exact (hproper node hnode).mono h'.le
      · exact hproper' node hnode
    · intro α hα e he
      rcases List.mem_append.mp he with he | he
      · exact hignored α (fun node hnode => hα node (List.mem_append_left _ hnode)) e he
      · exact hignored' α (fun node hnode => hα node (List.mem_append_right _ hnode)) e he

/-- The results of a step combined by operations that keep scope and marks. -/
theorem map (h : Builds s s' exprs defined)
    (hproper : (∀ e ∈ exprs, e.Proper s'.varCounter) → ∀ e ∈ exprs', e.Proper s'.varCounter)
    (hnotFalse : (∀ e ∈ exprs, e.isFalse = false) → ∀ e ∈ exprs', e.isFalse = false)
    (hignored : ∀ α, (∀ e ∈ exprs, e.IgnoredHold α) → ∀ e ∈ exprs', e.IgnoredHold α) :
    Builds s s' exprs' defined where
  le := h.le
  proper := hproper h.proper
  notFalse := hnotFalse h.notFalse
  emitted := by
    obtain ⟨nodes, hnodes, hvars, hproper, hnodeIgnored⟩ := h.emitted
    exact ⟨nodes, hnodes, hvars, hproper, fun α hα => hignored α (hnodeIgnored α hα)⟩

theorem and (h : Builds s s' exprs defined) : Builds s s' [Expression.and exprs] defined :=
  h.map (fun hproper => by simpa using Expression.proper_and hproper) (by simp)
    fun _ hignored => by simpa using Expression.ignoredHold_and hignored

/-- Further expressions without nodes of their own join a step. -/
theorem join (h : Builds s s' exprs defined) (exprs' : List Expression)
    (hproper : ∀ e ∈ exprs', e.Proper s'.varCounter)
    (hnotFalse : ∀ e ∈ exprs', e.isFalse = false)
    (hignored : ∀ α, ∀ e ∈ exprs', e.IgnoredHold α) :
    Builds s s' (exprs ++ exprs') defined := by
  simpa using h.append (Builds.of_pure hproper hnotFalse hignored)

/-- A step that only introduces variables, whose definitions the next step gives. -/
theorem of_introduced (h : Builds s' s'' exprs defined) (hle : s.varCounter ≤ s'.varCounter)
    (hnodes : s'.nodes = s.nodes) (hdefined : defined.Perm (fresh s s' ++ defined')) :
    Builds s s'' exprs defined' where
  le := hle.trans h.le
  proper := h.proper
  notFalse := h.notFalse
  emitted := by
    obtain ⟨nodes, hemitted, hvars, hproper, hignored⟩ := h.emitted
    refine ⟨nodes, by rw [hemitted, hnodes], ?_, hproper, hignored⟩
    rw [← fresh_append hle h.le]
    have hswap : (fresh s' s'' ++ (fresh s s' ++ defined')).Perm
        (fresh s s' ++ fresh s' s'' ++ defined') := by
      rw [← List.append_assoc]
      exact List.Perm.append_right _ List.perm_append_comm
    exact hvars.trans ((List.Perm.append_left _ hdefined).trans hswap)

/-- A loop builds what its rounds build. -/
theorem of_traversal {α : Type} {xs : List α} {exprs : List Expression}
    {defined : α → List Nat}
    (h : Traversal (fun x s e s' => Builds s s' [e] (defined x)) xs s exprs s') :
    Builds s s' exprs (xs.flatMap defined) := by
  induction h with
  | nil s => exact of_pure (by simp) (by simp) (by simp)
  | cons head tail ih => exact head.append ih

end Builds

/-- A loop whose rounds read nothing of the counter and emit nodes. -/
theorem ensures_mapM_of_counter {α β : Type} {f : α → Gen β}
    {R : α → GenState → β → GenState → Prop} {xs : List α} {s : GenState}
    (hstep : ∀ x ∈ xs, ∀ t : GenState, t.varCounter = s.varCounter →
      Ensures (f x) t fun y t' => R x t y t' ∧ t'.varCounter = t.varCounter) :
    Ensures (xs.mapM f) s fun ys s' =>
      Traversal R xs s ys s' ∧ s'.varCounter = s.varCounter := by
  have hinv : (fun t : GenState => t.varCounter = s.varCounter) s := rfl
  refine Ensures.mapM hinv fun x hx t ht => ?_
  refine (hstep x hx t ht).mono fun y t' h => ⟨h.1, ?_⟩
  rw [h.2, ht]

/-- A loop whose rounds build formulas about variables given out before it. -/
theorem ensures_mapM_projects {α : Type} {f : α → Gen Expression} {P : α → Assignment → Prop}
    {defined : α → List Nat} {xs : List α} {s : GenState} {c : Nat} (hc : c ≤ s.varCounter)
    (hbase : ∀ x ∈ xs, DependsUpTo c (P x))
    (hstep : ∀ x ∈ xs, ∀ t : GenState, s.varCounter ≤ t.varCounter →
      Ensures (f x) t fun r t' => Builds t t' [r] (defined x) ∧
        Projects t.varCounter t'.varCounter (fun α => r.eval α = true) (P x)) :
    Ensures (xs.mapM f) s fun rs s' => Builds s s' [and rs] (xs.flatMap defined) ∧
      Projects s.varCounter s'.varCounter (fun α => (and rs).eval α = true)
        fun α => ∀ x ∈ xs, P x α := by
  have hloop : Ensures (xs.mapM f) s fun rs s' =>
      Traversal (fun x t r t' => Builds t t' [r] (defined x) ∧
        Projects t.varCounter t'.varCounter (fun α => r.eval α = true) (P x)) xs s rs s' ∧
      s.varCounter ≤ s'.varCounter := by
    refine Ensures.mapM (le_refl s.varCounter) fun x hx t ht => ?_
    exact (hstep x hx t ht).mono fun r t' h => ⟨h, ht.trans h.1.le⟩
  refine hloop.mono ?_
  rintro rs s' ⟨htraversal, -⟩
  constructor
  · exact (Builds.of_traversal (htraversal.mono fun _ _ _ _ _ h => h.1)).and
  · have hprojects : Projects s.varCounter s'.varCounter
        (fun α => List.Forall₂ (fun _ r => r.eval α = true) xs rs) fun α => ∀ x ∈ xs, P x α :=
      htraversal.projects hbase (fun _ _ _ _ h => h.2) hc
    refine hprojects.congr (fun α => ?_) fun _ => Iff.rfl
    rw [forall₂_const_iff htraversal.length_eq, Expression.eval_and, List.all_eq_true]

theorem ensures_newVariable (s : GenState) :
    Ensures newVariable s fun v s' =>
      v = s.varCounter + 1 ∧ s' = { s with varCounter := s.varCounter + 1 } :=
  ⟨s.varCounter + 1, { s with varCounter := s.varCounter + 1 }, rfl, rfl, rfl⟩

theorem ensures_addNode (s : GenState) (node : Node) :
    Ensures (addNode node) s fun _ s' => s' = { s with nodes := s.nodes ++ [node] } :=
  Ensures.of_modify rfl

/-- A loop whose rounds emit nodes computed from the element alone. -/
theorem ensures_mapM_emit {α β : Type} {f : α → Gen β} {g : α → β} {nodes : α → List Node}
    (hf : ∀ x s, Ensures (f x) s fun y s' =>
      y = g x ∧ s' = { s with nodes := s.nodes ++ nodes x }) (xs : List α) (s : GenState) :
    Ensures (xs.mapM f) s fun ys s' =>
      ys = xs.map g ∧ s' = { s with nodes := s.nodes ++ xs.flatMap nodes } := by
  induction xs generalizing s with
  | nil => exact Ensures.of_pure ⟨rfl, by simp⟩
  | cons x xs ih =>
      rw [List.mapM_cons]
      refine (hf x s).bind ?_
      rintro y s' ⟨rfl, rfl⟩
      refine (ih _).bind ?_
      rintro ys s'' ⟨rfl, rfl⟩
      exact Ensures.of_pure ⟨rfl, by simp [List.append_assoc]⟩

/-- `List(k) { newVariable }`. -/
theorem ensures_newVariables {α : Type} (xs : List α) (s : GenState) :
    Ensures (xs.mapM fun _ => newVariable) s fun vs s' =>
      vs = List.range' (s.varCounter + 1) xs.length ∧
        s' = { s with varCounter := s.varCounter + xs.length } := by
  induction xs generalizing s with
  | nil => exact Ensures.of_pure ⟨rfl, rfl⟩
  | cons x xs ih =>
      rw [List.mapM_cons]
      refine (ensures_newVariable s).bind ?_
      rintro v s' ⟨rfl, rfl⟩
      refine (ih _).bind ?_
      rintro vs s'' ⟨rfl, rfl⟩
      refine Ensures.of_pure ⟨?_, ?_⟩
      · rw [List.length_cons, List.range'_succ]
      · simp only [List.length_cons]
        congr 1
        omega

/-- `List(n) { List(k) { newVariable } }`. -/
theorem ensures_newVariableRows (n k : Nat) (s : GenState) :
    Ensures ((List.range n).mapM fun _ => (List.range k).mapM fun _ => newVariable) s
      fun rows s' =>
        rows = (List.range n).map (fun i => List.range' (s.varCounter + i * k + 1) k) ∧
          s' = { s with varCounter := s.varCounter + n * k } := by
  refine Ensures.mapM_range (I := fun i t => t = { s with varCounter := s.varCounter + i * k })
    (by rw [Nat.zero_mul, Nat.add_zero]) fun i _ t ht => ?_
  refine (ensures_newVariables (List.range k) t).mono ?_
  rintro vs t' ⟨rfl, rfl⟩
  rw [ht, List.length_range]
  refine ⟨rfl, ?_⟩
  rw [Nat.add_mul, Nat.one_mul, Nat.add_assoc]

/-- What a step has done that returns a formula together with `k` expressions that
tighten it: with the first `c` of them added, the formula says `P c`. -/
structure Tightens (s s' : GenState) (r : VariabledExpression) (k : Nat)
    (P : Nat → Assignment → Prop) : Prop where
  builds : Builds s s' [r.expr] []
  length : r.vars.length = k
  proper : ∀ e ∈ r.vars, e.Proper s'.varCounter
  projects : ∀ c ≤ k, Projects s.varCounter s'.varCounter
    (fun α => r.expr.eval α = true ∧ ∀ e ∈ r.vars.take c, e.eval α = true) (P c)

/-- A formula of core variables alone has nothing that tightens it. -/
theorem Tightens.of_pure {s : GenState} {e : Expression} {P : Nat → Assignment → Prop}
    (hproper : e.Proper s.varCounter) (hnotFalse : e.isFalse = false)
    (hignored : ∀ α, e.IgnoredHold α) (heval : ∀ α, e.eval α = true ↔ P 0 α) :
    Tightens s s { expr := e } 0 P where
  builds := Builds.of_pure (by simpa using hproper) (by simpa using hnotFalse)
    (by simpa using hignored)
  length := rfl
  proper := by simp
  projects := by
    intro c hc
    obtain rfl := Nat.le_zero.mp hc
    exact (Projects.refl hproper.dependsUpTo).congr (by simp) heval

end LatinSquares.Generator
