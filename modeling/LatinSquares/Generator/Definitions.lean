/-
# Definitions of auxiliary variables

`iff v expr` writes the clauses of `v ↔ expr` and emits the node that computes
`v`. Both are tied to the same pair `(v, expr)`: the clauses hold exactly when
`v` has the value of `expr`, and so does the node. `Defines` collects this for a
sequence of definitions, and `Defines.builds` turns it into what the rest of the
encoder needs, whatever mark the definitions carry.
-/

import LatinSquares.Generator.Blocks
import LatinSquares.Generator.Latin

namespace LatinSquares.Generator

open LatinSquares.Math
open Expression (and)

/-- Every clause of the expression is a single literal. -/
def Expression.OfLiterals (e : Expression) : Prop :=
  ∀ cj ∈ e.args, ∃ l, cj.clause = .literal l

/-- The expressions `iff` has a case for, over variables numbered `1..c`. -/
inductive Expression.Definable (c : Nat) : Expression → Prop
  | constTrue : Definable c .constTrue
  | constFalse : Definable c .constFalse
  | conj {cs : List Conjunct} (h : ∀ cj ∈ cs, ∃ l, cj.clause = .literal l ∧ l.Proper c) :
      Definable c (.conj cs)
  | disj {ls : List Literal} {isImportant : Bool} (h : ∀ l ∈ ls, l.Proper c) :
      Definable c (.clause ⟨.disj ls, isImportant⟩)

namespace Expression

variable {c d : Nat} {e : Expression} {es : List Expression}

theorem Definable.mono (hcd : c ≤ d) (h : e.Definable c) : e.Definable d := by
  cases h with
  | constTrue => exact .constTrue
  | constFalse => exact .constFalse
  | conj h =>
      refine .conj fun cj hcj => ?_
      obtain ⟨l, hclause, hl⟩ := h cj hcj
      exact ⟨l, hclause, hl.mono hcd⟩
  | disj h => exact .disj fun l hl => (h l hl).mono hcd

/-- Variables past the scope do not matter. -/
theorem Definable.eval_eq (h : e.Definable c) {α β : Assignment} (hαβ : AgreeUpTo c α β) :
    e.eval β = e.eval α := by
  cases h with
  | constTrue => simp
  | constFalse => simp
  | @conj cs h =>
      rw [eval_conj, eval_conj, Bool.eq_iff_iff, List.all_eq_true, List.all_eq_true]
      refine forall_congr' fun cj => forall_congr' fun hcj => ?_
      obtain ⟨l, hclause, hl⟩ := h cj hcj
      rw [hclause, Clause.eval_literal, Clause.eval_literal, hl.2.eval_eq hαβ]
  | @disj ls b h =>
      rw [eval_clause, eval_clause, Clause.eval_disj, Clause.eval_disj, Bool.eq_iff_iff,
        List.any_eq_true, List.any_eq_true]
      refine exists_congr fun l => and_congr_right fun hl => ?_
      rw [(h l hl).2.eval_eq hαβ]

theorem ofLiterals_literal (l : Literal) : (literal l).OfLiterals := by
  intro cj hcj
  obtain rfl := List.mem_singleton.mp hcj
  exact ⟨l, rfl⟩

theorem OfLiterals.conjuncts (h : e.OfLiterals) :
    ∀ cj ∈ e.conjuncts, ∃ l, cj.clause = .literal l := by
  intro cj hcj
  cases e with
  | clause c =>
      rw [Expression.conjuncts] at hcj
      split at hcj
      · cases hcj
      · exact h cj hcj
  | conj cs =>
      rw [Expression.conjuncts, andArgs] at hcj
      split at hcj
      · exact ofLiterals_literal _ cj hcj
      · split at hcj
        · exact ofLiterals_literal _ cj hcj
        · exact h cj (List.mem_of_mem_filter hcj)

theorem ofLiterals_and (h : ∀ e ∈ es, e.OfLiterals) : (and es).OfLiterals := by
  rcases and_cases es with heq | heq | ⟨-, -, heq⟩
  · rw [heq]
    exact ofLiterals_literal _
  · rw [heq]
    exact ofLiterals_literal _
  · rw [heq]
    intro cj hcj
    obtain ⟨e, he, hcj⟩ := List.mem_flatMap.mp hcj
    exact (h e he).conjuncts cj hcj

/-- A conjunction of literals can be defined. -/
theorem definable_and (hproper : ∀ e ∈ es, e.Proper c) (h : ∀ e ∈ es, e.OfLiterals) :
    (and es).Definable c := by
  have hand := proper_and hproper
  have hliterals := ofLiterals_and h
  rcases and_cases es with heq | heq | ⟨-, -, heq⟩
  · rw [heq]
    exact .constFalse
  · rw [heq]
    exact .constTrue
  · rw [heq] at hand hliterals ⊢
    refine .conj fun cj hcj => ?_
    obtain ⟨l, hl⟩ := hliterals cj hcj
    refine ⟨l, hl, (hand.2 cj hcj).literals l ?_⟩
    rw [hl]
    exact List.mem_singleton.mpr rfl

end Expression

section Clauses

variable {v c : Nat} {args : List Literal} {α : Assignment}

theorem eval_iffAnd : (iffAnd v args).eval α = true ↔ α v = args.all (Literal.eval α) := by
  simp only [iffAnd, Expression.eval_and, List.all_append, List.all_map, List.all_cons,
    List.all_nil, Bool.and_true, Bool.and_eq_true, Function.comp_def, eval_orLiterals,
    List.any_append, List.any_map, List.any_cons, List.any_nil, Bool.or_false, Literal.eval_var,
    Literal.eval_notVar, Literal.eval_not]
  cases hv : α v with
  | true => simp
  | false =>
      rw [eq_comm (a := false), List.all_eq_false]
      simp

theorem eval_iffOr : (iffOr v args).eval α = true ↔ α v = args.any (Literal.eval α) := by
  simp only [iffOr, Expression.eval_and, List.all_append, List.all_map, List.all_cons,
    List.all_nil, Bool.and_true, Bool.and_eq_true, Function.comp_def, eval_orLiterals,
    List.any_append, List.any_cons, List.any_nil, Bool.or_false, Literal.eval_var,
    Literal.eval_notVar, Literal.eval_not]
  cases hv : α v with
  | true =>
      rw [eq_comm]
      simp
  | false =>
      rw [eq_comm (a := false), List.any_eq_false]
      simp

theorem iffAnd_proper (hv : 1 ≤ v ∧ v ≤ c) (hargs : ∀ l ∈ args, l.Proper c) :
    (iffAnd v args).Proper c := by
  refine Expression.proper_and fun e he => ?_
  rcases List.mem_append.mp he with he | he
  · obtain ⟨l, hl, rfl⟩ := List.mem_map.mp he
    exact Expression.proper_orLiterals (by simp [hv, (hargs l hl).2])
  · obtain rfl := List.mem_singleton.mp he
    refine Expression.proper_orLiterals fun l hl => ?_
    rcases List.mem_append.mp hl with hl | hl
    · obtain ⟨arg, harg, rfl⟩ := List.mem_map.mp hl
      exact Literal.within_not.mpr (hargs arg harg).2
    · obtain rfl := List.mem_singleton.mp hl
      exact Literal.within_var.mpr hv

theorem iffOr_proper (hv : 1 ≤ v ∧ v ≤ c) (hargs : ∀ l ∈ args, l.Proper c) :
    (iffOr v args).Proper c := by
  refine Expression.proper_and fun e he => ?_
  rcases List.mem_append.mp he with he | he
  · obtain ⟨l, hl, rfl⟩ := List.mem_map.mp he
    exact Expression.proper_orLiterals (by simp [hv, (hargs l hl).2])
  · obtain rfl := List.mem_singleton.mp he
    refine Expression.proper_orLiterals fun l hl => ?_
    rcases List.mem_append.mp hl with hl | hl
    · exact (hargs l hl).2
    · obtain rfl := List.mem_singleton.mp hl
      exact Literal.within_notVar.mpr hv

theorem isFalse_iffAnd : (iffAnd v args).isFalse = false := by
  rw [iffAnd, Expression.isFalse_and, List.any_eq_false]
  intro e he
  rcases List.mem_append.mp he with he | he
  · obtain ⟨l, -, rfl⟩ := List.mem_map.mp he
    simp
  · obtain rfl := List.mem_singleton.mp he
    rw [Expression.isFalse_orLiterals (l := .var v) (by simp) (by simp)]
    simp

theorem isFalse_iffOr : (iffOr v args).isFalse = false := by
  rw [iffOr, Expression.isFalse_and, List.any_eq_false]
  intro e he
  rcases List.mem_append.mp he with he | he
  · obtain ⟨l, -, rfl⟩ := List.mem_map.mp he
    simp
  · obtain rfl := List.mem_singleton.mp he
    rw [Expression.isFalse_orLiterals (l := .notVar v) (by simp) (by simp)]
    simp

end Clauses

/-- What a step has done that returns `exprs` and defines variables given out
before it, each by an expression. -/
structure Defines (s s' : GenState) (exprs : List Expression)
    (defined : List (Nat × Expression)) : Prop where
  counter : s'.varCounter = s.varCounter
  proper : ∀ e ∈ exprs, e.Proper s.varCounter
  notFalse : ∀ e ∈ exprs, e.isFalse = false
  eval : ∀ α, (∀ e ∈ exprs, e.eval α = true) ↔ ∀ d ∈ defined, α d.1 = d.2.eval α
  emitted : ∃ nodes, s'.nodes = s.nodes ++ nodes ∧
    nodes.map Node.var = defined.map Prod.fst ∧
    (∀ node ∈ nodes, node.Proper s.varCounter) ∧
    ∀ α, (∀ node ∈ nodes, node.Holds α) → ∀ d ∈ defined, α d.1 = d.2.eval α

namespace Defines

variable {s s' s'' : GenState} {exprs exprs' : List Expression} {r e : Expression}
  {v : Nat} {defined defined' : List (Nat × Expression)}

theorem nil (s : GenState) : Defines s s [] [] where
  counter := rfl
  proper := by simp
  notFalse := by simp
  eval := by simp
  emitted := ⟨[], by simp⟩

/-- One definition: its clauses and its node compute the same expression. -/
theorem of_node {node : Node} (hproper : r.Proper s.varCounter) (hnotFalse : r.isFalse = false)
    (heval : ∀ α, r.eval α = true ↔ α v = e.eval α) (hvar : node.var = v)
    (hnode : node.Proper s.varCounter) (hcompute : ∀ α, node.eval α = e.eval α) :
    Defines s { s with nodes := s.nodes ++ [node] } [r] [(v, e)] where
  counter := rfl
  proper := by simpa using hproper
  notFalse := by simpa using hnotFalse
  eval := by simpa using heval
  emitted := by
    refine ⟨[node], rfl, by simp [hvar], by simpa using hnode, fun α hα d hd => ?_⟩
    obtain rfl := List.mem_singleton.mp hd
    have hholds : α node.var = node.eval α := hα node (List.mem_singleton.mpr rfl)
    rw [← hvar, hholds, hcompute]

theorem append (h : Defines s s' exprs defined) (h' : Defines s' s'' exprs' defined') :
    Defines s s'' (exprs ++ exprs') (defined ++ defined') where
  counter := h'.counter.trans h.counter
  proper := by
    intro e he
    rcases List.mem_append.mp he with he | he
    · exact h.proper e he
    · rw [← h.counter]
      exact h'.proper e he
  notFalse := by
    intro e he
    rcases List.mem_append.mp he with he | he
    · exact h.notFalse e he
    · exact h'.notFalse e he
  eval α := by rw [List.forall_mem_append, List.forall_mem_append, h.eval α, h'.eval α]
  emitted := by
    obtain ⟨nodes, hnodes, hvars, hproper, hholds⟩ := h.emitted
    obtain ⟨nodes', hnodes', hvars', hproper', hholds'⟩ := h'.emitted
    rw [h.counter] at hproper'
    refine ⟨nodes ++ nodes', by rw [hnodes', hnodes, List.append_assoc], ?_, ?_, fun α hα => ?_⟩
    · rw [List.map_append, List.map_append, hvars, hvars']
    · exact List.forall_mem_append.mpr ⟨hproper, hproper'⟩
    · obtain ⟨hα, hα'⟩ := List.forall_mem_append.mp hα
      exact List.forall_mem_append.mpr ⟨hholds α hα, hholds' α hα'⟩

/-- A loop defines what its rounds define. -/
theorem of_traversal {α : Type} {xs : List α} {exprs : List Expression}
    {defined : α → List (Nat × Expression)}
    (h : Traversal (fun x s e s' => Defines s s' [e] (defined x)) xs s exprs s') :
    Defines s s' exprs (xs.flatMap defined) := by
  induction h with
  | nil s => exact nil s
  | cons head tail ih => exact head.append ih

/-- The definitions hold wherever the nodes do, so what follows from them may
carry either mark. -/
theorem builds (h : Defines s s' exprs defined) (exprs' : List Expression)
    (hproper : ∀ e ∈ exprs', e.Proper s.varCounter)
    (hnotFalse : ∀ e ∈ exprs', e.isFalse = false)
    (hignored : ∀ α, (∀ e ∈ exprs, e.eval α = true) → ∀ e ∈ exprs', e.IgnoredHold α) :
    Builds s s' exprs' (defined.map Prod.fst) where
  le := h.counter.ge
  proper := by
    rw [h.counter]
    exact hproper
  notFalse := hnotFalse
  emitted := by
    obtain ⟨nodes, hnodes, hvars, hproper, hholds⟩ := h.emitted
    refine ⟨nodes, hnodes, ?_, ?_, fun α hα => ?_⟩
    · rw [fresh_of_varCounter_eq h.counter, List.nil_append, hvars]
    · rw [h.counter]
      exact hproper
    · exact hignored α ((h.eval α).mpr (hholds α hα))

theorem and (h : Defines s s' exprs defined) : Defines s s' [Expression.and exprs] defined where
  counter := h.counter
  proper := by simpa using Expression.proper_and h.proper
  notFalse := by simpa using h.notFalse
  eval α := by
    rw [← h.eval α]
    simp
  emitted := h.emitted

end Defines

/-- A loop whose rounds define variables given out before it. -/
theorem ensures_mapM_defines {α : Type} {f : α → Gen Expression}
    {defined : α → List (Nat × Expression)} {xs : List α} {s : GenState}
    (hstep : ∀ x ∈ xs, ∀ t : GenState, t.varCounter = s.varCounter →
      Ensures (f x) t fun r t' => Defines t t' [r] (defined x)) :
    Ensures (xs.mapM f) s fun rs s' =>
      Defines s s' [Expression.and rs] (xs.flatMap defined) := by
  refine (ensures_mapM_of_counter (R := fun x t r t' => Defines t t' [r] (defined x))
    fun x hx t ht => (hstep x hx t ht).mono fun r t' h => ⟨h, h.counter⟩).mono ?_
  rintro rs s' ⟨htraversal, -⟩
  exact (Defines.of_traversal htraversal).and

/-- The literals of a conjunction of literals. -/
theorem mapM_literal? {c : Nat} {cs : List Conjunct}
    (h : ∀ cj ∈ cs, ∃ l, cj.clause = .literal l ∧ l.Proper c) :
    ∃ args, cs.mapM (fun it => it.clause.literal?) = some args ∧ (∀ l ∈ args, l.Proper c) ∧
      (∀ α, args.all (Literal.eval α) = cs.all fun c => c.clause.eval α) ∧
      args.flatMap Literal.names = cs.flatMap fun c => c.clause.names := by
  induction cs with
  | nil => exact ⟨[], rfl, by simp, by simp, rfl⟩
  | cons cj cs ih =>
      obtain ⟨l, hclause, hl⟩ := h cj (List.mem_cons_self ..)
      obtain ⟨args, hargs, hproper, heval, hnames⟩ :=
        ih fun cj hcj => h cj (List.mem_cons_of_mem _ hcj)
      refine ⟨l :: args, ?_, List.forall_mem_cons.mpr ⟨hl, hproper⟩, fun α => ?_, ?_⟩
      · rw [List.mapM_cons, hargs, hclause]
        rfl
      · rw [List.all_cons, List.all_cons, heval, hclause, Clause.eval_literal]
      · rw [List.flatMap_cons, List.flatMap_cons, hnames, hclause, Clause.names_literal]

/-- `iff` defines `v` by any expression it has a case for. -/
theorem ensures_iff {v : Nat} {e : Expression} {s : GenState} (hv : 1 ≤ v ∧ v ≤ s.varCounter)
    (he : e.Definable s.varCounter) :
    Ensures (iff v e) s fun r s' => Defines s s' [r] [(v, e)] := by
  cases he with
  | constTrue =>
      refine (ensures_addNode _ _).bind ?_
      rintro _ s' rfl
      refine Ensures.of_pure (Defines.of_node ?_ (by simp) (by simp) rfl ⟨hv, ?_⟩
        (by simp [Node.eval]))
      · exact Expression.proper_literal (by simpa using hv)
      · simp [Node.args]
  | constFalse =>
      refine (ensures_addNode _ _).bind ?_
      rintro _ s' rfl
      refine Ensures.of_pure (Defines.of_node ?_ (by simp) (by simp) rfl ⟨hv, ?_⟩
        (by simp [Node.eval]))
      · exact Expression.proper_literal (by simpa using hv)
      · simp [Node.args]
  | @conj cs h =>
      obtain ⟨args, hargs, hproper, heval, -⟩ := mapM_literal? h
      refine (Ensures.of_lift (Q := fun a t => a = args ∧ t = s) hargs ⟨rfl, rfl⟩).bind ?_
      rintro _ _ ⟨rfl, rfl⟩
      refine (ensures_addNode _ _).bind ?_
      rintro _ s' rfl
      refine Ensures.of_pure (Defines.of_node (iffAnd_proper hv hproper) isFalse_iffAnd
        (fun α => ?_) rfl ⟨hv, hproper⟩ fun α => heval α)
      rw [eval_iffAnd, heval, Expression.eval_conj]
  | @disj ls b h =>
      refine (ensures_addNode _ _).bind ?_
      rintro _ s' rfl
      refine Ensures.of_pure (Defines.of_node (iffOr_proper hv h) isFalse_iffOr
        (fun α => ?_) rfl ⟨hv, h⟩ fun α => ?_)
      · rw [eval_iffOr, Expression.eval_clause, Clause.eval_disj]
      · rw [Expression.eval_clause, Clause.eval_disj]
        rfl

/-- What an encoder may do to the definitions before it adds them to the formula. -/
structure IsMark (mark : Expression → Expression) : Prop where
  eval : ∀ α e, (mark e).eval α = e.eval α
  proper : ∀ {c e}, e.Proper c → (mark e).Proper c
  isFalse : ∀ e, (mark e).isFalse = e.isFalse
  ignored : ∀ α e, e.eval α = true → (mark e).IgnoredHold α

theorem isMark_id : IsMark id where
  eval _ _ := rfl
  proper h := h
  isFalse _ := rfl
  ignored _ _ h := Expression.ignoredHold_of_eval h

theorem isMark_markArgs_false : IsMark (Expression.markArgs false) where
  eval _ _ := Expression.eval_markArgs _ _ _
  proper h := h.markArgs false
  isFalse _ := Expression.isFalse_markArgs _ _
  ignored _ _ h := Expression.ignoredHold_markArgs false fun _ => h

/-- No two of the truth values are true. -/
def NoTwo (values : List Bool) : Prop := values.Pairwise fun a b => ¬ (a = true ∧ b = true)

theorem eval_atMostOneOf {vars : List Nat} {α : Assignment} :
    (atMostOneOf vars).eval α = true ↔ NoTwo (vars.map α) := by
  rw [NoTwo, List.pairwise_map, List.pairwise_iff_getElem]
  simp only [atMostOneOf, Expression.eval_and, List.all_eq_true, List.mem_flatMap,
    List.mem_range, List.mem_map, mem_rangeUntil]
  have hclause : ∀ i j, (orLiterals [.notVar (vars.getD i 0), .notVar (vars.getD j 0)]).eval α =
      true ↔ ¬ (α (vars.getD i 0) = true ∧ α (vars.getD j 0) = true) := by
    intro i j
    simp only [eval_orLiterals, List.any_cons, List.any_nil, Bool.or_false, Literal.eval_notVar]
    cases α (vars.getD i 0) <;> simp
  constructor
  · intro h i j hi hj hij
    have hpair := (hclause i j).mp (h _ ⟨i, hi, j, ⟨hij, hj⟩, rfl⟩)
    rwa [List.getD_eq_getElem _ _ hi, List.getD_eq_getElem _ _ hj] at hpair
  · rintro h e ⟨i, hi, j, ⟨hij, hj⟩, rfl⟩
    rw [hclause, List.getD_eq_getElem _ _ hi, List.getD_eq_getElem _ _ hj]
    exact h i j hi hj (by omega)

theorem atMostOneOf_proper {vars : List Nat} {c : Nat} (h : ∀ v ∈ vars, 1 ≤ v ∧ v ≤ c) :
    (atMostOneOf vars).Proper c := by
  refine Expression.proper_and fun e he => ?_
  obtain ⟨i, hi, he⟩ := List.mem_flatMap.mp he
  obtain ⟨j, hj, rfl⟩ := List.mem_map.mp he
  have hi := List.mem_range.mp hi
  have hj := (mem_rangeUntil.mp hj).2
  rw [List.getD_eq_getElem _ _ hi, List.getD_eq_getElem _ _ hj]
  exact Expression.proper_orLiterals
    (by simp [h _ (List.getElem_mem hi), h _ (List.getElem_mem hj)])

theorem isFalse_atMostOneOf (vars : List Nat) : (atMostOneOf vars).isFalse = false := by
  rw [atMostOneOf, Expression.isFalse_and, List.any_eq_false]
  intro e he
  obtain ⟨i, -, he⟩ := List.mem_flatMap.mp he
  obtain ⟨j, -, rfl⟩ := List.mem_map.mp he
  simp

theorem ignoredHold_atMostOneOf (vars : List Nat) (α : Assignment) :
    (atMostOneOf vars).IgnoredHold α := by
  refine Expression.ignoredHold_and fun e he => ?_
  obtain ⟨i, -, he⟩ := List.mem_flatMap.mp he
  obtain ⟨j, -, rfl⟩ := List.mem_map.mp he
  exact Expression.ignoredHold_orLiterals _

theorem forall_mem_zip_iff {α β γ : Type} {f : β → γ} {g : α → γ} {xs : List α} {ys : List β}
    (h : ys.length = xs.length) :
    (∀ p ∈ xs.zip ys, f p.2 = g p.1) ↔ ys.map f = xs.map g := by
  induction xs generalizing ys with
  | nil =>
      rw [List.length_nil, List.length_eq_zero_iff] at h
      simp [h]
  | cons x xs ih =>
      cases ys with
      | nil => cases h
      | cons y ys =>
          rw [List.zip_cons_cons, List.forall_mem_cons, List.map_cons, List.map_cons,
            List.cons.injEq, ih (Nat.succ.inj h)]

theorem any_eq_of_map_eq {α β : Type} {f : α → Bool} {g : β → Bool} {l : List α} {l' : List β}
    (h : l.map f = l'.map g) : l.any f = l'.any g := by
  have hany := congrArg (fun values => values.any id) h
  simpa only [List.any_map, Function.id_comp] using hany

section Introduced

variable {β : Type} {g : β → Expression} {xs : List β} {vs : List Nat} {s : GenState}

/-- The definitions of the variables `vs` by the expressions of `xs`. -/
def definitions (g : β → Expression) (xs : List β) (vs : List Nat) : List (Nat × Expression) :=
  (xs.zip vs).map fun p => (p.2, g p.1)

theorem map_fst_definitions (hlength : vs.length = xs.length) :
    (definitions g xs vs).map Prod.fst = vs := by
  rw [definitions, List.map_map]
  exact List.map_snd_zip hlength.le

theorem definitions_hold_iff (hlength : vs.length = xs.length) {α : Assignment} :
    (∀ d ∈ definitions g xs vs, α d.1 = d.2.eval α) ↔
      vs.map α = xs.map fun x => (g x).eval α := by
  rw [definitions, List.forall_mem_map]
  exact forall_mem_zip_iff (f := α) (g := fun x => (g x).eval α) hlength

/-- A loop that defines the variables `vs`. -/
theorem ensures_mapM_iff (hvs : ∀ v ∈ vs, 1 ≤ v ∧ v ≤ s.varCounter)
    (hexprs : ∀ x ∈ xs, (g x).Definable s.varCounter) :
    Ensures ((xs.zip vs).mapM fun p => iff p.2 (g p.1)) s fun phis s' =>
      Defines s s' phis (definitions g xs vs) := by
  refine (ensures_mapM_of_counter (R := fun p t r t' => Defines t t' [r] [(p.2, g p.1)])
    fun p hp t ht => ?_).mono ?_
  · obtain ⟨hx, hv⟩ := List.of_mem_zip hp
    rw [← ht] at hvs hexprs
    exact (ensures_iff (hvs p.2 hv) (hexprs p.1 hx)).mono fun r t' h => ⟨h, h.counter⟩
  · rintro phis s' ⟨hphis, -⟩
    rw [definitions, List.map_eq_flatMap]
    exact Defines.of_traversal hphis

/-- Variables introduced for expressions of the variables before them may take
the values of these. -/
theorem projects_definitions (hexprs : ∀ x ∈ xs, (g x).Definable s.varCounter) :
    Projects s.varCounter (s.varCounter + xs.length)
      (fun α => (List.range' (s.varCounter + 1) xs.length).map α = xs.map fun x => (g x).eval α)
      fun _ => True where
  le := Nat.le_add_right _ _
  formula := by
    intro α β hαβ
    have hvars : (List.range' (s.varCounter + 1) xs.length).map β =
        (List.range' (s.varCounter + 1) xs.length).map α := by
      apply List.map_congr_left
      intro v hv
      rw [List.mem_range'_1] at hv
      exact hαβ v (by omega)
    have hvalues : (xs.map fun x => (g x).eval β) = xs.map fun x => (g x).eval α :=
      List.map_congr_left fun x hx =>
        ((hexprs x hx).mono (Nat.le_add_right _ _)).eval_eq hαβ
    simp only [hvars, hvalues]
  base := DependsUpTo.const _ True
  sound := fun _ _ => trivial
  complete := by
    intro α _
    obtain ⟨β, hαβ, hβ⟩ := exists_extend s.varCounter α fun i =>
      ((xs.map g).getD i default).eval α
    refine ⟨β, hαβ, List.ext_getElem (by simp) fun i hi hi' => ?_⟩
    rw [List.length_map] at hi'
    have hvar : s.varCounter + 1 + 1 * i = s.varCounter + i + 1 := by omega
    have hi'' : i < (xs.map g).length := by rwa [List.length_map]
    rw [List.getElem_map, List.getElem_map, List.getElem_range', hvar, hβ,
      List.getD_eq_getElem _ _ hi'', List.getElem_map,
      (hexprs _ (List.getElem_mem hi')).eval_eq hαβ]

end Introduced

section SymbolPair

variable {mark : Expression → Expression} {equalExprs : List Expression} {q chi : Nat}
  {s : GenState}

/-- What the clauses for a pair of symbols say: `chi` holds when the pair occurs,
and when every pair has to occur no pair may occur twice. -/
def PairDefined (equalExprs : List Expression) (q chi : Nat) (α : Assignment) : Prop :=
  α chi = equalExprs.any (Expression.eval α) ∧
    (q = equalExprs.length → NoTwo (equalExprs.map (Expression.eval α)))

theorem pairDefined_dependsUpTo {c : Nat} (hchi : chi ≤ c)
    (hexprs : ∀ e ∈ equalExprs, e.Definable c) :
    DependsUpTo c (PairDefined equalExprs q chi) := by
  intro α β hαβ
  have hvalues : equalExprs.map (Expression.eval β) = equalExprs.map (Expression.eval α) :=
    List.map_congr_left fun e he => (hexprs e he).eval_eq hαβ
  rw [PairDefined, PairDefined, hαβ chi hchi, hvalues, any_eq_of_map_eq hvalues]

/-- No two of the variables `vars` hold if `q` pairs are all there are; else nothing. -/
def addendOf (q : Nat) (vars : List Nat) : Expression :=
  if q = vars.length then atMostOneOf vars else and []

theorem addendOf_proper {vars : List Nat} {c : Nat} (h : ∀ v ∈ vars, 1 ≤ v ∧ v ≤ c) :
    (addendOf q vars).Proper c := by
  unfold addendOf
  split
  · exact atMostOneOf_proper h
  · exact Expression.proper_constTrue

theorem isFalse_addendOf (vars : List Nat) : (addendOf q vars).isFalse = false := by
  unfold addendOf
  split
  · exact isFalse_atMostOneOf _
  · rfl

theorem ignoredHold_addendOf (vars : List Nat) (α : Assignment) :
    (addendOf q vars).IgnoredHold α := by
  unfold addendOf
  split
  · exact ignoredHold_atMostOneOf _ _
  · exact Expression.ignoredHold_and (by simp)

theorem eval_addendOf {vars : List Nat} {α : Assignment} :
    (addendOf q vars).eval α = true ↔ (q = vars.length → NoTwo (vars.map α)) := by
  unfold addendOf
  split
  · next hq => simp [hq, eval_atMostOneOf]
  · next hq => simp [hq]

/-- What the definitions for a pair of symbols add to the formula and to the net. -/
theorem builds_symbolPair {s₁ s' : GenState} {phis : List Expression}
    {chiExpr e : Expression} {vars : List Nat} (hmark : IsMark mark)
    (h : Defines s₁ s' (phis ++ [chiExpr]) (definitions id equalExprs vars ++ [(chi, e)]))
    (hs₁ : s₁ = { s with varCounter := s.varCounter + equalExprs.length })
    (hvars : vars = List.range' (s.varCounter + 1) equalExprs.length) :
    Builds s s' [and [mark (and (phis ++ [and [chiExpr]])), addendOf q vars]] [chi] := by
  have hcounter : s₁.varCounter = s.varCounter + equalExprs.length := by rw [hs₁]
  have hlength : vars.length = equalExprs.length := by rw [hvars, List.length_range']
  have hscope : ∀ v ∈ vars, 1 ≤ v ∧ v ≤ s₁.varCounter := by
    intro v hv
    rw [hvars, List.mem_range'_1] at hv
    omega
  have hdefinitions : (and (phis ++ [and [chiExpr]])).Proper s₁.varCounter := by
    refine Expression.proper_and fun e he => ?_
    rcases List.mem_append.mp he with he | he
    · exact h.proper e (List.mem_append_left _ he)
    · obtain rfl := List.mem_singleton.mp he
      exact Expression.proper_and fun e he => h.proper e (List.mem_append_right _ he)
  have hbuilds := h.builds [mark (and (phis ++ [and [chiExpr]])), addendOf q vars] ?_ ?_ ?_
  · refine hbuilds.and.of_introduced (by omega) (by rw [hs₁]) ?_
    have hfresh : fresh s s₁ = vars := by
      rw [fresh, hcounter, hvars, Nat.add_sub_cancel_left]
    rw [hfresh, List.map_append, map_fst_definitions hlength]
    exact List.Perm.refl _
  · simpa using ⟨hmark.proper hdefinitions, addendOf_proper hscope⟩
  · have hphis : ∀ e ∈ phis, e.isFalse = false :=
      fun e he => h.notFalse e (List.mem_append_left _ he)
    have hchi := h.notFalse chiExpr (by simp)
    simp only [List.forall_mem_cons, hmark.isFalse, isFalse_addendOf, Expression.isFalse_and]
    simpa [hchi] using hphis
  · intro α hα
    simp only [List.forall_mem_cons]
    refine ⟨hmark.ignored α _ ?_, ignoredHold_addendOf vars α, by simp⟩
    rw [List.forall_mem_append] at hα
    simpa using hα

/-- The indicators of the positions may be projected away. -/
theorem projects_symbolPair {vars : List Nat} (hchi : chi ≤ s.varCounter)
    (hexprs : ∀ e ∈ equalExprs, e.Definable s.varCounter)
    (hvars : vars = List.range' (s.varCounter + 1) equalExprs.length) :
    Projects s.varCounter (s.varCounter + equalExprs.length)
      (fun α => vars.map α = equalExprs.map (Expression.eval α) ∧
        α chi = vars.any α ∧ (q = vars.length → NoTwo (vars.map α)))
      (PairDefined equalExprs q chi) := by
  have hlength : vars.length = equalExprs.length := by rw [hvars, List.length_range']
  have hintroduced := projects_definitions (g := id) hexprs
  rw [← hvars] at hintroduced
  refine (hintroduced.bind (Projects.refl ?_) (pairDefined_dependsUpTo hchi hexprs) ?_).congr
    (fun _ => Iff.rfl) fun α => by rw [true_and]
  · intro α β hαβ
    have hvalues : vars.map β = vars.map α := by
      refine List.map_congr_left fun v hv => hαβ v ?_
      rw [hvars, List.mem_range'_1] at hv
      omega
    simp only [any_eq_of_map_eq hvalues, hvalues, hαβ chi (by omega)]
  · intro α hvalues
    rw [PairDefined, any_eq_of_map_eq hvalues, hvalues, hlength]
    exact Iff.rfl

theorem ensures_symbolPair (hmark : IsMark mark) (hchi : 1 ≤ chi ∧ chi ≤ s.varCounter)
    (hexprs : ∀ e ∈ equalExprs, e.Definable s.varCounter) :
    Ensures (symbolPair mark equalExprs q chi) s fun r s' => Builds s s' [r] [chi] ∧
      Projects s.varCounter s'.varCounter (fun α => r.eval α = true)
        (PairDefined equalExprs q chi) := by
  refine (ensures_newVariables equalExprs s).bind ?_
  rintro equalVars s₁ ⟨hvars, hs₁⟩
  have hcounter : s₁.varCounter = s.varCounter + equalExprs.length := by rw [hs₁]
  have hlength : equalVars.length = equalExprs.length := by rw [hvars, List.length_range']
  have hscope : ∀ v ∈ equalVars, 1 ≤ v ∧ v ≤ s₁.varCounter := by
    intro v hv
    rw [hvars, List.mem_range'_1] at hv
    omega
  refine (ensures_mapM_iff (g := id) hscope fun e he => (hexprs e he).mono (by omega)).bind ?_
  intro phis s₂ hphis
  have hdisj : (Expression.ofClause (.disj (equalVars.map .var))).Definable s₂.varCounter := by
    refine .disj fun l hl => ?_
    obtain ⟨v, hv, rfl⟩ := List.mem_map.mp hl
    rw [hphis.counter]
    exact Literal.proper_var.mpr (hscope v hv)
  refine (ensures_iff (v := chi) (by rw [hphis.counter]; omega) hdisj).bind ?_
  intro chiExpr s₃ hchiExpr
  -- the definitions of the indicators, and of `chi` from them
  have hdefines := hphis.append hchiExpr
  have hs₃ : s₃.varCounter = s.varCounter + equalExprs.length := hdefines.counter.trans hcounter
  have hsemantics : ∀ α, (∀ e ∈ phis ++ [chiExpr], e.eval α = true) ↔
      equalVars.map α = equalExprs.map (Expression.eval α) ∧ α chi = equalVars.any α := by
    intro α
    rw [hdefines.eval α, List.forall_mem_append, definitions_hold_iff hlength]
    simp [Function.comp_def]
  rw [← hlength]
  refine Ensures.of_pure ⟨builds_symbolPair hmark hdefines hs₁ hvars, ?_⟩
  rw [hs₃]
  refine (projects_symbolPair hchi.2 hexprs hvars).congr (fun α => ?_) fun _ => Iff.rfl
  rw [← and_assoc, ← hsemantics, ← eval_addendOf, List.forall_mem_append, addendOf]
  simp [hmark.eval]

end SymbolPair

end LatinSquares.Generator
