/-
# What an expression mentions

Three facts about the expressions the encoders build are needed wherever the
finished formula is used: which variables a clause mentions, that no constant is
left in it, and what is known about the clauses whose `isImportant` mark is off.
`Proper c` says that the literals are variables numbered `1..c`, possibly negated;
`IgnoredHold α` says that the unmarked clauses are true under `α`. Both survive
`and`, `or` and the marking functions.
-/

import LatinSquares.Generator.Common

namespace LatinSquares.Generator

open LatinSquares.Math
open Expression (and)

/-- Every variable of the literal is numbered `1..c`. -/
def Literal.Within (c : Nat) (l : Literal) : Prop :=
  ∀ name ∈ l.names, 1 ≤ name ∧ name ≤ c

/-- A variable numbered `1..c` or its negation. -/
def Literal.Proper (c : Nat) (l : Literal) : Prop :=
  l.names ≠ [] ∧ l.Within c

namespace Literal

variable {c d : Nat} {l : Literal}

theorem Within.mono (hcd : c ≤ d) (h : l.Within c) : l.Within d :=
  fun name hname => ⟨(h name hname).1, (h name hname).2.trans hcd⟩

theorem Proper.mono (hcd : c ≤ d) (h : l.Proper c) : l.Proper d := ⟨h.1, h.2.mono hcd⟩

@[simp]
theorem within_constTrue : constTrue.Within c := by simp [Within, names]

@[simp]
theorem within_constFalse : constFalse.Within c := by simp [Within, names]

@[simp]
theorem within_var {name : Nat} : (var name).Within c ↔ 1 ≤ name ∧ name ≤ c := by
  simp [Within, names]

@[simp]
theorem within_notVar {name : Nat} : (notVar name).Within c ↔ 1 ≤ name ∧ name ≤ c := by
  simp [Within, names]

@[simp]
theorem within_not : l.not.Within c ↔ l.Within c := by
  simp only [Within, names_not]

@[simp]
theorem proper_var {name : Nat} : (var name).Proper c ↔ 1 ≤ name ∧ name ≤ c := by
  simp [Proper, names]

@[simp]
theorem proper_notVar {name : Nat} : (notVar name).Proper c ↔ 1 ≤ name ∧ name ≤ c := by
  simp [Proper, names]

@[simp]
theorem not_proper_constTrue : ¬ constTrue.Proper c := by simp [Proper, names]

@[simp]
theorem not_proper_constFalse : ¬ constFalse.Proper c := by simp [Proper, names]

/-- A literal within scope is a constant or proper. -/
theorem Within.proper (h : l.Within c) (htrue : l ≠ constTrue) (hfalse : l ≠ constFalse) :
    l.Proper c := by
  cases l with
  | constFalse => exact absurd rfl hfalse
  | constTrue => exact absurd rfl htrue
  | var name => exact ⟨by simp [names], h⟩
  | notVar name => exact ⟨by simp [names], h⟩

theorem Within.eval_eq (h : l.Within c) {α β : Assignment} (hαβ : AgreeUpTo c α β) :
    l.eval β = l.eval α := by
  cases l with
  | constFalse => rfl
  | constTrue => rfl
  | var name => exact hαβ name (within_var.mp h).2
  | notVar name => simp only [eval_notVar, hαβ name (within_notVar.mp h).2]

end Literal

/-- A nonempty disjunction of variables numbered `1..c` and their negations. -/
structure Clause.Proper (c : Nat) (cl : Clause) : Prop where
  nonempty : cl.args ≠ []
  literals : ∀ l ∈ cl.args, l.Proper c

namespace Clause

variable {c d : Nat} {cl : Clause}

theorem Proper.mono (hcd : c ≤ d) (h : cl.Proper c) : cl.Proper d :=
  ⟨h.nonempty, fun l hl => (h.literals l hl).mono hcd⟩

theorem Proper.ne_constTrue (h : cl.Proper c) : cl ≠ literal .constTrue := by
  rintro rfl
  exact Literal.not_proper_constTrue (h.literals .constTrue (by simp [args]))

theorem Proper.ne_constFalse (h : cl.Proper c) : cl ≠ literal .constFalse := by
  rintro rfl
  exact Literal.not_proper_constFalse (h.literals .constFalse (by simp [args]))

theorem Proper.eval_eq (h : cl.Proper c) {α β : Assignment} (hαβ : AgreeUpTo c α β) :
    cl.eval β = cl.eval α := by
  have hpointwise : ∀ l ∈ cl.args, l.eval β = l.eval α :=
    fun l hl => (h.literals l hl).2.eval_eq hαβ
  rw [Bool.eq_iff_iff, eval, eval, List.any_eq_true, List.any_eq_true]
  constructor
  · rintro ⟨l, hl, heval⟩
    exact ⟨l, hl, hpointwise l hl ▸ heval⟩
  · rintro ⟨l, hl, heval⟩
    exact ⟨l, hl, (hpointwise l hl).trans heval⟩

/-- `or` over literals in scope leaves a constant or a proper clause. -/
theorem or_literals_proper {ls : List Literal} (h : ∀ l ∈ ls, l.Within c) :
    or (ls.map literal) = literal .constTrue ∨ or (ls.map literal) = literal .constFalse ∨
      (or (ls.map literal)).Proper c := by
  unfold or
  split
  · exact .inl rfl
  · next htrue =>
      split
      · exact .inr (.inl rfl)
      · next ls' hne =>
          refine .inr (.inr ⟨hne, fun l hl => ?_⟩)
          have hl : l ∈ (ls.map literal).flatMap disjuncts := hl
          obtain ⟨_, hmem, hdisj⟩ := List.mem_flatMap.mp hl
          obtain ⟨l', hl', rfl⟩ := List.mem_map.mp hmem
          cases l' with
          | constFalse => simp [disjuncts] at hdisj
          | constTrue => exact absurd hmem htrue
          | var name =>
              obtain rfl : l = .var name := by simpa [disjuncts] using hdisj
              exact ⟨by simp [Literal.names], h _ hl'⟩
          | notVar name =>
              obtain rfl : l = .notVar name := by simpa [disjuncts] using hdisj
              exact ⟨by simp [Literal.names], h _ hl'⟩

end Clause

/-- A constant, or clauses over variables numbered `1..c`. -/
def Expression.Proper (c : Nat) : Expression → Prop
  | .clause cj => cj.clause = .literal .constTrue ∨ cj.clause = .literal .constFalse ∨
      cj.clause.Proper c
  | .conj cs => cs ≠ [] ∧ ∀ cj ∈ cs, cj.clause.Proper c

/-- Every clause whose mark is off is true. -/
def Expression.IgnoredHold (α : Assignment) (e : Expression) : Prop :=
  ∀ cj ∈ e.conjuncts, cj.isImportant = false → cj.clause.eval α = true

namespace Expression

variable {c d : Nat} {α : Assignment} {e : Expression} {es : List Expression}

theorem Proper.mono (hcd : c ≤ d) (h : e.Proper c) : e.Proper d := by
  cases e with
  | clause cj => exact h.imp_right fun h => h.imp_right fun h => h.mono hcd
  | conj cs => exact ⟨h.1, fun cj hcj => (h.2 cj hcj).mono hcd⟩

theorem proper_constTrue : constTrue.Proper c := .inl rfl

theorem proper_constFalse : constFalse.Proper c := .inr (.inl rfl)

theorem proper_literal {l : Literal} (h : l.Within c) : (literal l).Proper c := by
  by_cases htrue : l = .constTrue
  · exact .inl (by rw [htrue])
  · by_cases hfalse : l = .constFalse
    · exact .inr (.inl (by rw [hfalse]))
    · refine .inr (.inr ⟨by simp [Clause.args], fun l' hl' => ?_⟩)
      obtain rfl : l' = l := by simpa [Clause.args] using hl'
      exact h.proper htrue hfalse

theorem proper_orLiterals {ls : List Literal} (h : ∀ l ∈ ls, l.Within c) :
    (orLiterals ls).Proper c :=
  Clause.or_literals_proper h

theorem andArgs_of_proper {cs : List Conjunct} (hne : cs ≠ [])
    (h : ∀ cj ∈ cs, cj.clause.Proper c) : andArgs cs = conj cs := by
  have hfalse : ¬ cs.any (fun c => c.clause = .literal .constFalse) = true := by
    rw [List.any_eq_true]
    rintro ⟨cj, hcj, hclause⟩
    exact (h cj hcj).ne_constFalse (of_decide_eq_true hclause)
  have hfilter : (cs.filter fun c => c.clause ≠ .literal .constTrue) = cs := by
    rw [List.filter_eq_self]
    intro cj hcj
    simpa using (h cj hcj).ne_constTrue
  rw [andArgs, if_neg hfalse, hfilter]
  cases cs with
  | nil => exact absurd rfl hne
  | cons cj cs => rfl

theorem proper_conjuncts (h : e.Proper c) (hfalse : e.isFalse = false) :
    ∀ cj ∈ e.conjuncts, cj.clause.Proper c := by
  cases e with
  | conj cs =>
      rw [conjuncts, andArgs_of_proper h.1 h.2]
      exact h.2
  | clause cj =>
      intro cj' hcj'
      by_cases htrue : cj.clause = .literal .constTrue
      · simp [conjuncts, htrue] at hcj'
      · obtain rfl : cj' = cj := by simpa [conjuncts, htrue] using hcj'
        rcases h with h | h | h
        · exact absurd h htrue
        · simp [isFalse, h] at hfalse
        · exact h

/-- The outcome of `and`: a constant, or an `And` of its arguments' clauses. -/
theorem and_cases (es : List Expression) :
    and es = constFalse ∨ and es = constTrue ∨
      (∀ e ∈ es, e.isFalse = false) ∧ es.flatMap conjuncts ≠ [] ∧
        and es = conj (es.flatMap conjuncts) := by
  unfold and
  split
  · exact .inl rfl
  · next hfalse =>
      split
      · exact .inr (.inl rfl)
      · next cs hne =>
          refine .inr (.inr ⟨fun e he => ?_, hne, rfl⟩)
          by_contra htrue
          exact hfalse (List.any_eq_true.mpr ⟨e, he, by simpa using htrue⟩)

/-- Only an argument can make a conjunction the object `False`. -/
@[simp]
theorem isFalse_and (es : List Expression) : (and es).isFalse = es.any isFalse := by
  unfold and
  split
  · next hany =>
      rw [hany]
      rfl
  · next hany =>
      rw [Bool.not_eq_true _ |>.mp hany]
      split <;> rfl

@[simp]
theorem isFalse_mark (e : Expression) (isImportant : Bool) :
    (e.mark isImportant).isFalse = e.isFalse := by
  cases e <;> rfl

@[simp]
theorem isFalse_markArgs (e : Expression) (isImportant : Bool) :
    (e.markArgs isImportant).isFalse = e.isFalse := by
  cases e <;> rfl

@[simp]
theorem isFalse_conj (cs : List Conjunct) : (conj cs).isFalse = false := rfl

@[simp]
theorem isFalse_literal (l : Literal) : (literal l).isFalse = decide (l = .constFalse) := by
  cases l <;> rfl

/-- A disjunction with an argument other than `False` is not `False`. -/
theorem isFalse_orLiterals {ls : List Literal} {l : Literal} (hl : l ∈ ls)
    (hfalse : l ≠ .constFalse) : (orLiterals ls).isFalse = false := by
  have hne : Clause.or (ls.map .literal) ≠ .literal .constFalse := by
    unfold Clause.or
    split
    · simp
    · next htrue =>
        have hdisj : l ∈ (ls.map Clause.literal).flatMap Clause.disjuncts := by
          refine List.mem_flatMap.mpr ⟨.literal l, List.mem_map.mpr ⟨l, hl, rfl⟩, ?_⟩
          cases l with
          | constFalse => exact absurd rfl hfalse
          | constTrue => exact absurd (List.mem_map.mpr ⟨_, hl, rfl⟩) htrue
          | var name => exact List.mem_singleton.mpr rfl
          | notVar name => exact List.mem_singleton.mpr rfl
        split
        · next hnil =>
            rw [hnil] at hdisj
            cases hdisj
        · simp
  simpa [orLiterals, ofClause, isFalse] using hne

@[simp]
theorem isFalse_orLiterals_var (name : Nat) (ls : List Literal) :
    (orLiterals (.var name :: ls)).isFalse = false :=
  isFalse_orLiterals (List.mem_cons_self ..) (by simp)

@[simp]
theorem isFalse_orLiterals_notVar (name : Nat) (ls : List Literal) :
    (orLiterals (.notVar name :: ls)).isFalse = false :=
  isFalse_orLiterals (List.mem_cons_self ..) (by simp)

theorem eval_and_pair {e e' : Expression} :
    (and [e, e']).eval α = true ↔ e.eval α = true ∧ e'.eval α = true := by simp

theorem proper_and (h : ∀ e ∈ es, e.Proper c) : (and es).Proper c := by
  rcases and_cases es with heq | heq | ⟨hfalse, hne, heq⟩
  · rw [heq]
    exact proper_constFalse
  · rw [heq]
    exact proper_constTrue
  · rw [heq]
    refine ⟨hne, fun cj hcj => ?_⟩
    obtain ⟨e, he, hcj⟩ := List.mem_flatMap.mp hcj
    exact proper_conjuncts (h e he) (hfalse e he) cj hcj

theorem proper_and_pair {e e' : Expression} (h : e.Proper c) (h' : e'.Proper c) :
    (and [e, e']).Proper c :=
  proper_and (by simpa using ⟨h, h'⟩)

theorem Proper.mark (h : e.Proper c) (isImportant : Bool) : (e.mark isImportant).Proper c := by
  cases e <;> exact h

theorem Proper.markArgs (h : e.Proper c) (isImportant : Bool) :
    (e.markArgs isImportant).Proper c := by
  cases e with
  | clause cj => exact h
  | conj cs =>
      refine ⟨by simpa using h.1, fun cj hcj => ?_⟩
      obtain ⟨cj', hcj', rfl⟩ := List.mem_map.mp hcj
      exact h.2 cj' hcj'

/-- Variables past the scope do not matter. -/
theorem Proper.eval_eq (h : e.Proper c) {α β : Assignment} (hαβ : AgreeUpTo c α β) :
    e.eval β = e.eval α := by
  cases e with
  | clause cj =>
      rw [eval_clause, eval_clause]
      rcases h with h | h | h
      · simp [h]
      · simp [h]
      · exact h.eval_eq hαβ
  | conj cs =>
      rw [eval_conj, eval_conj, Bool.eq_iff_iff, List.all_eq_true, List.all_eq_true]
      exact forall_congr' fun cj => forall_congr' fun hcj => by
        rw [(h.2 cj hcj).eval_eq hαβ]

theorem Proper.dependsUpTo (h : e.Proper c) : DependsUpTo c fun α => e.eval α = true :=
  fun α β hαβ => by
    show e.eval α = true ↔ e.eval β = true
    rw [h.eval_eq hαβ]

/-- `False` cannot be satisfied. -/
theorem isFalse_of_eval (h : e.eval α = true) : e.isFalse = false := by
  cases e with
  | conj cs => rfl
  | clause c =>
      rw [isFalse, decide_eq_false_iff_not]
      intro hc
      rw [eval_clause, hc] at h
      simp at h

theorem ignoredHold_of_eval (h : e.eval α = true) : e.IgnoredHold α := by
  rw [← all_eval_conjuncts, List.all_eq_true] at h
  exact fun cj hcj _ => h cj hcj

theorem ignoredHold_literal (l : Literal) : (literal l).IgnoredHold α := by
  intro cj hcj himportant
  by_cases hl : l = .constTrue
  · simp [conjuncts, literal, hl] at hcj
  · obtain rfl : cj = ⟨.literal l, true⟩ := by simpa [conjuncts, literal, hl] using hcj
    simp at himportant

theorem ignoredHold_orLiterals (ls : List Literal) : (orLiterals ls).IgnoredHold α := by
  intro cj hcj himportant
  by_cases htrue : Clause.or (ls.map .literal) = .literal .constTrue
  · simp [orLiterals, ofClause, conjuncts, htrue] at hcj
  · simp only [orLiterals, ofClause, conjuncts, htrue, if_false, List.mem_singleton] at hcj
    rw [hcj] at himportant
    cases himportant

/-- The clauses an `And` contributes when it is an argument of `and` again. -/
theorem ignoredHold_conj {cs : List Conjunct}
    (h : ∀ cj ∈ cs, cj.isImportant = false → cj.clause.eval α = true) :
    (conj cs).IgnoredHold α := by
  intro cj hcj himportant
  rw [conjuncts, andArgs] at hcj
  split at hcj
  · obtain rfl := List.mem_singleton.mp hcj
    cases himportant
  · split at hcj
    · obtain rfl := List.mem_singleton.mp hcj
      cases himportant
    · exact h cj (List.mem_of_mem_filter hcj) himportant

theorem ignoredHold_and (h : ∀ e ∈ es, e.IgnoredHold α) : (and es).IgnoredHold α := by
  rcases and_cases es with heq | heq | ⟨-, -, heq⟩
  · rw [heq]
    exact ignoredHold_literal _
  · rw [heq]
    exact ignoredHold_literal _
  · rw [heq]
    refine ignoredHold_conj fun cj hcj himportant => ?_
    obtain ⟨e, he, hcj⟩ := List.mem_flatMap.mp hcj
    exact h e he cj hcj himportant

theorem ignoredHold_and_pair {e e' : Expression} (h : e.IgnoredHold α) (h' : e'.IgnoredHold α) :
    (and [e, e']).IgnoredHold α :=
  ignoredHold_and (by simpa using ⟨h, h'⟩)

/-- Whatever is true may be marked as unimportant. -/
theorem ignoredHold_mark_false (isImportant : Bool)
    (h : isImportant = false → e.eval α = true) (he : e.IgnoredHold α) :
    (e.mark isImportant).IgnoredHold α := by
  cases isImportant with
  | false => exact ignoredHold_of_eval (by rw [eval_mark]; exact h rfl)
  | true =>
      cases e with
      | conj cs => exact he
      | clause cj =>
          intro cj' hcj' himportant
          by_cases htrue : cj.clause = .literal .constTrue
          · simp [mark, conjuncts, htrue] at hcj'
          · simp only [mark, conjuncts, htrue, if_false, List.mem_singleton] at hcj'
            rw [hcj'] at himportant
            cases himportant

/-- Marking the arguments of a formula as important keeps no unmarked clause. -/
theorem ignoredHold_markArgs (isImportant : Bool)
    (h : isImportant = false → e.eval α = true) : (e.markArgs isImportant).IgnoredHold α := by
  cases isImportant with
  | false => exact ignoredHold_of_eval (by rw [eval_markArgs]; exact h rfl)
  | true =>
      cases e with
      | conj cs =>
          refine ignoredHold_conj fun cj hcj himportant => ?_
          obtain ⟨cj', -, rfl⟩ := List.mem_map.mp hcj
          cases himportant
      | clause cj =>
          intro cj' hcj' himportant
          by_cases htrue : cj.clause = .literal .constTrue
          · simp [markArgs, conjuncts, htrue] at hcj'
          · simp only [markArgs, conjuncts, htrue, if_false, List.mem_singleton] at hcj'
            rw [hcj'] at himportant
            cases himportant

end Expression

namespace Node

/-- The value a node computes from an assignment. -/
def eval (α : Assignment) : Node → Bool
  | .value _ b => b
  | .andIff _ args => args.all (Literal.eval α)
  | .orIff _ args => args.any (Literal.eval α)
  | .orAnd _ args => args.any fun args => args.all (Literal.eval α)

/-- The literals a node reads. -/
def args : Node → List Literal
  | value _ _ => []
  | andIff _ args => args
  | orIff _ args => args
  | orAnd _ args => args.flatten

/-- The node's variable has the value the node computes. -/
def Holds (α : Assignment) (node : Node) : Prop := α node.var = node.eval α

/-- The node's variable and arguments are variables numbered `1..c`. -/
structure Proper (c : Nat) (node : Node) : Prop where
  var : 1 ≤ node.var ∧ node.var ≤ c
  args : ∀ l ∈ node.args, l.Proper c

theorem Proper.mono {c d : Nat} {node : Node} (hcd : c ≤ d) (h : node.Proper c) :
    node.Proper d :=
  ⟨⟨h.var.1, h.var.2.trans hcd⟩, fun l hl => (h.args l hl).mono hcd⟩

end Node

end LatinSquares.Generator
