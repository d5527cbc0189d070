/-
# The dual-rail reduction

`HornifyCnfEncoder` gives every variable of a formula a rail for true and a rail for false. The
hard clauses forbid both rails of a variable and state every clause by the rails of its negated
literals, and the soft clauses ask for all rails. There are as many pairs of rails as the formula
has clauses. A clause that is a bare negated variable counts as the variable, since `args` of a
`Not` is the expression under it.
-/

import LatinSquares.Generator.Assembly

namespace LatinSquares.Generator

open LatinSquares.Math
open Expression (and)

/-- The class `WCNF`. -/
structure WCNF where
  clauses : List Conjunct
  softArgs : List Conjunct
  variables_ : List Nat
  deriving Repr

/-- The constructor of `WCNF` from two formulas. -/
def WCNF.ofCNFs (hard soft : CNF) : WCNF where
  clauses := hard.clauses
  softArgs := soft.clauses
  variables_ := (hard.variables_ ++ soft.variables_).dedup

/-- `args` of the object: that of an `Or` are its literals, a variable is its own argument, and
a `Not` has the expression under it. -/
def Clause.objectArgs : Clause → List Literal
  | .literal (.notVar name) => [.var name]
  | c => c.args

/-- The class `HornifyCnfEncoder`. -/
structure HornifyCnfEncoder where
  hcnf : CNF
  n : Nat
  nop : Bool

namespace HornifyCnfEncoder

/-- `mapping` for `m` clauses. -/
def mapping (m : Nat) : List (Literal × Literal) :=
  ((List.range' 1 m).map Literal.notVar ++ (List.range' 1 m).map Literal.var).zip
    ((List.range' 1 (m * 2)).map .notVar)

/-- `mapping[it] ?: it`. -/
def mapped (m : Nat) (it : Literal) : Literal := ((mapping m).lookup it).getD it

/-- `cnf`. The lists `subList` gives have to be there. -/
def cnf (e : HornifyCnfEncoder) : Option WCNF := do
  let m := e.hcnf.clauses.length
  let variables_ := List.range' 1 (m * 2)
  guard (e.n ≤ m)
  let soft ← (and ((variables_.take e.n ++ (variables_.drop m).take e.n).map fun v =>
    .literal (.var v))).andArgs?
  let rails := if e.nop then [] else (List.range m).map fun i =>
    orLiterals [.notVar (variables_.getD i 0), .notVar (variables_.getD (i + m) 0)]
  let hard ← (and (rails ++ e.hcnf.clauses.map fun expr =>
    orLiterals (expr.clause.objectArgs.map (mapped m)))).andArgs?
  return .ofCNFs (.ofAnd hard []) (.ofAnd soft [])

end HornifyCnfEncoder

/-- All hard clauses hold. -/
def WCNF.Holds (f : WCNF) (α : Assignment) : Prop := ∀ cj ∈ f.clauses, cj.clause.eval α = true

instance (f : WCNF) (α : Assignment) : Decidable (f.Holds α) :=
  inferInstanceAs (Decidable (∀ cj ∈ f.clauses, cj.clause.eval α = true))

/-- How many soft clauses hold. -/
def WCNF.softCount (f : WCNF) (α : Assignment) : Nat :=
  f.softArgs.countP fun cj => cj.clause.eval α

/-- The reduction: `cnf()` returns, and the formula over `1..v` is satisfiable if and only if
some assignment satisfies the hard clauses and `v` soft ones. -/
def DualRail (f : CNF) (v : Nat) : Prop :=
  ∃ w, HornifyCnfEncoder.cnf { hcnf := f, n := v, nop := false } = some w ∧
    ((∃ α, f.Holds α) ↔ ∃ α, w.Holds α ∧ w.softCount α = v)

/-- The formula over `1..v` that the encoder sees. -/
def CNF.HoldsUnsigned (f : CNF) (α : Assignment) : Prop :=
  ∀ cj ∈ f.clauses, cj.clause.objectArgs.any (Literal.eval α) = true

section Rails

variable {m v name : Nat} {α : Assignment}

theorem lookup_zip {A B : Type} [BEq A] [LawfulBEq A] {keys : List A} {values : List B} {a : A}
    {b : B} {i : Nat} (hkeys : keys.Nodup) (ha : keys[i]? = some a) (hb : values[i]? = some b) :
    (keys.zip values).lookup a = some b := by
  induction keys generalizing values i with
  | nil => cases ha
  | cons key keys ih =>
      cases values with
      | nil => cases hb
      | cons value values =>
          obtain ⟨hkey, hrest⟩ := List.nodup_cons.mp hkeys
          rw [List.zip_cons_cons]
          cases i with
          | zero =>
              cases ha
              cases hb
              exact List.lookup_cons_self
          | succ i =>
              have hne : a ≠ key := by
                intro heq
                exact hkey (heq ▸ List.mem_of_getElem? ha)
              rw [List.lookup_cons, beq_false_of_ne hne]
              exact ih hrest ha hb

theorem nodup_keys :
    ((List.range' 1 m).map Literal.notVar ++ (List.range' 1 m).map Literal.var).Nodup := by
  apply List.Nodup.append
  · exact (List.nodup_range' ..).map fun _ _ => Literal.notVar.inj
  · exact (List.nodup_range' ..).map fun _ _ => Literal.var.inj
  · intro l hl hl'
    obtain ⟨i, -, rfl⟩ := List.mem_map.mp hl
    obtain ⟨j, -, heq⟩ := List.mem_map.mp hl'
    cases heq

theorem getElem?_range' {i n : Nat} (hi : i < n) :
    (List.range' 1 n)[i]? = some (i + 1) := by
  rw [List.getElem?_range' hi]
  congr 1
  omega

/-- A negated variable keeps its rail. -/
theorem mapped_notVar (hpos : 1 ≤ name) (hname : name ≤ m) :
    HornifyCnfEncoder.mapped m (.notVar name) = .notVar name := by
  have hrail : name - 1 + 1 = name := Nat.sub_add_cancel hpos
  have hkey : ((List.range' 1 m).map Literal.notVar ++ (List.range' 1 m).map .var)[name - 1]? =
      some (.notVar name) := by
    rw [List.getElem?_append_left (by rw [List.length_map, List.length_range']; omega),
      List.getElem?_map, getElem?_range' (by omega), hrail]
    rfl
  have hvalue : ((List.range' 1 (m * 2)).map Literal.notVar)[name - 1]? = some (.notVar name) := by
    rw [List.getElem?_map, getElem?_range' (by omega), hrail]
    rfl
  unfold HornifyCnfEncoder.mapped HornifyCnfEncoder.mapping
  rw [lookup_zip nodup_keys hkey hvalue, Option.getD_some]

/-- A variable has the second rail. -/
theorem mapped_var (hpos : 1 ≤ name) (hname : name ≤ m) :
    HornifyCnfEncoder.mapped m (.var name) = .notVar (m + name) := by
  have hrail : m + (name - 1) + 1 = m + name := by omega
  have hkey : ((List.range' 1 m).map Literal.notVar ++
      (List.range' 1 m).map .var)[m + (name - 1)]? = some (.var name) := by
    rw [List.getElem?_append_right (by rw [List.length_map, List.length_range']; omega),
      List.length_map, List.length_range', Nat.add_sub_cancel_left, List.getElem?_map,
      getElem?_range' (by omega), Nat.sub_add_cancel hpos]
    rfl
  have hvalue : ((List.range' 1 (m * 2)).map Literal.notVar)[m + (name - 1)]? =
      some (.notVar (m + name)) := by
    rw [List.getElem?_map, getElem?_range' (by omega), hrail]
    rfl
  unfold HornifyCnfEncoder.mapped HornifyCnfEncoder.mapping
  rw [lookup_zip nodup_keys hkey hvalue, Option.getD_some]

/-- Numbers whose two marks are never set together have one mark each exactly when there are as
many marks as numbers. -/
theorem countP_add_countP_iff {A : Type} {p q : A → Bool} {l : List A}
    (h : ∀ a ∈ l, ¬ (p a = true ∧ q a = true)) :
    l.countP p + l.countP q ≤ l.length ∧
      (l.countP p + l.countP q = l.length ↔ ∀ a ∈ l, q a = !p a) := by
  induction l with
  | nil => simp
  | cons a l ih =>
      obtain ⟨ha, hl⟩ := List.forall_mem_cons.mp h
      obtain ⟨hle, hiff⟩ := ih hl
      rw [List.forall_mem_cons, ← hiff, List.countP_cons, List.countP_cons, List.length_cons]
      cases hp : p a with
      | true =>
          cases hq : q a with
          | true => exact absurd ⟨hp, hq⟩ ha
          | false =>
              simp only [if_true, Bool.false_eq_true, if_false, Bool.not_true, true_and]
              omega
      | false =>
          cases hq : q a with
          | true =>
              simp only [if_true, Bool.false_eq_true, if_false, Bool.not_false, true_and]
              omega
          | false =>
              simp only [Bool.false_eq_true, if_false, Bool.not_false, false_and, iff_false]
              omega

end Rails

section Encoding

variable {f : CNF} {v m : Nat} {α : Assignment}

theorem distinct_of_nodup {cs : List Conjunct} (h : (cs.map Conjunct.clause).Nodup) :
    distinct cs = cs := by
  induction cs with
  | nil => rfl
  | cons c cs ih =>
      obtain ⟨hc, hcs⟩ := List.nodup_cons.mp h
      rw [distinct, ih hcs, List.filter_eq_self.mpr]
      intro d hd
      apply decide_eq_true
      intro heq
      exact hc (heq ▸ List.mem_map_of_mem hd)

/-- A conjunction of variables. -/
theorem and_vars {vs : List Nat} (hvs : vs ≠ []) :
    and (vs.map fun v => .literal (.var v)) =
      .conj (vs.map fun v => ⟨.literal (.var v), true⟩) := by
  have hfalse : (vs.map fun v => Expression.literal (.var v)).any Expression.isFalse = false := by
    rw [List.any_map, List.any_eq_false]
    intro v _
    simp [Expression.isFalse, Expression.literal]
  have hconjuncts : (vs.map fun v => Expression.literal (.var v)).flatMap Expression.conjuncts =
      vs.map fun v => ⟨.literal (.var v), true⟩ := by
    rw [List.flatMap_map, List.map_eq_flatMap]
    rfl
  unfold Expression.and
  rw [hfalse, hconjuncts]
  cases vs with
  | nil => exact absurd rfl hvs
  | cons v vs => rfl

/-- The rails the soft clauses ask for. -/
def softRails (m v : Nat) : List Nat := List.range' 1 v ++ List.range' (m + 1) v

theorem nodup_softRails (hv : v ≤ m) : (softRails m v).Nodup := by
  apply List.Nodup.append (List.nodup_range' ..) (List.nodup_range' ..)
  intro i hi hi'
  rw [List.mem_range'_1] at hi hi'
  omega

theorem countP_softRails (p : Nat → Bool) :
    (softRails m v).countP p =
      (List.range' 1 v).countP p + (List.range' 1 v).countP fun i => p (m + i) := by
  have hsecond : List.range' (m + 1) v = (List.range' 1 v).map (m + ·) := by
    rw [List.map_add_range']
  rw [softRails, List.countP_append, hsecond, List.countP_map]
  rfl

/-- The hard clauses before the cast. -/
def hardClauses (f : CNF) : List Expression :=
  (List.range f.clauses.length).map (fun i =>
    orLiterals [.notVar (i + 1), .notVar (i + f.clauses.length + 1)]) ++
  f.clauses.map fun expr =>
    orLiterals (expr.clause.objectArgs.map (HornifyCnfEncoder.mapped f.clauses.length))

/-- What `cnf` computes, with the lists it indexes written out. -/
theorem cnf_eq (f : CNF) (v : Nat) :
    HornifyCnfEncoder.cnf { hcnf := f, n := v, nop := false } =
      if v ≤ f.clauses.length then do
        let soft ← (and ((softRails f.clauses.length v).map fun v => .literal (.var v))).andArgs?
        let hard ← (and (hardClauses f)).andArgs?
        return .ofCNFs (.ofAnd hard []) (.ofAnd soft [])
      else none := by
  have hsoft (hv : v ≤ f.clauses.length) :
      (List.range' 1 (f.clauses.length * 2)).take v ++
        ((List.range' 1 (f.clauses.length * 2)).drop f.clauses.length).take v =
          softRails f.clauses.length v := by
    rw [softRails, List.take_range'_of_length_ge (by omega), List.drop_range',
      List.take_range'_of_length_ge (by omega), Nat.mul_one, Nat.add_comm 1]
  have hrail (i : Nat) (hi : i < f.clauses.length * 2) :
      (List.range' 1 (f.clauses.length * 2)).getD i 0 = i + 1 := by
    rw [List.getD_eq_getElem?_getD, getElem?_range' hi, Option.getD_some]
  have hhard : ((List.range f.clauses.length).map fun i =>
      orLiterals [.notVar ((List.range' 1 (f.clauses.length * 2)).getD i 0),
        .notVar ((List.range' 1 (f.clauses.length * 2)).getD (i + f.clauses.length) 0)]) =
      (List.range f.clauses.length).map fun i =>
        orLiterals [.notVar (i + 1), .notVar (i + f.clauses.length + 1)] := by
    apply List.map_congr_left
    intro i hi
    have hlt := List.mem_range.mp hi
    rw [hrail i (by omega), hrail (i + f.clauses.length) (by omega)]
  unfold HornifyCnfEncoder.cnf
  by_cases hv : v ≤ f.clauses.length
  · simp only [hsoft hv, hhard, hv, guard_true, if_true, hardClauses]
    rfl
  · simp only [hv, guard_false, if_false]
    rfl

/-- A literal over the first variables is mapped to a rail. -/
theorem exists_mapped_eq {l : Literal} (hl : l.Proper v) (hv : v ≤ m) :
    ∃ rail, HornifyCnfEncoder.mapped m l = .notVar rail := by
  cases l with
  | constFalse => exact absurd hl Literal.not_proper_constFalse
  | constTrue => exact absurd hl Literal.not_proper_constTrue
  | var name =>
      obtain ⟨hpos, hle⟩ := Literal.proper_var.mp hl
      exact ⟨_, mapped_var hpos (hle.trans hv)⟩
  | notVar name =>
      obtain ⟨hpos, hle⟩ := Literal.proper_notVar.mp hl
      exact ⟨_, mapped_notVar hpos (hle.trans hv)⟩

/-- Where the rails of a variable are opposite, they say what the literals say. -/
theorem eval_mapped {l : Literal} (hl : l.Proper v) (hv : v ≤ m)
    (hα : ∀ i ∈ List.range' 1 v, α (m + i) = !α i) :
    (HornifyCnfEncoder.mapped m l).eval α = l.eval α := by
  cases l with
  | constFalse => exact absurd hl Literal.not_proper_constFalse
  | constTrue => exact absurd hl Literal.not_proper_constTrue
  | var name =>
      obtain ⟨hpos, hle⟩ := Literal.proper_var.mp hl
      have hrail := hα name (List.mem_range'_1.mpr ⟨hpos, by omega⟩)
      rw [mapped_var hpos (hle.trans hv), Literal.eval_notVar, hrail, Bool.not_not,
        Literal.eval_var]
  | notVar name =>
      obtain ⟨hpos, hle⟩ := Literal.proper_notVar.mp hl
      rw [mapped_notVar hpos (hle.trans hv)]

theorem proper_objectArgs {c : Clause} (hc : ∀ l ∈ c.args, l.Proper v) :
    ∀ l ∈ c.objectArgs, l.Proper v := by
  unfold Clause.objectArgs
  split
  · next name =>
      have hname : (Literal.notVar name).Proper v := hc _ (List.mem_singleton_self _)
      intro l hl
      rw [List.mem_singleton.mp hl]
      exact Literal.proper_var.mpr (Literal.proper_notVar.mp hname)
  · exact hc

/-- Variables of the formula are numbered `1..v`. -/
def CNF.Over (f : CNF) (v : Nat) : Prop :=
  ∀ cj ∈ f.clauses, ∀ l ∈ cj.clause.args, l.Proper v

/-- An empty clause makes the hard clauses `False`, which is no `And`. -/
theorem isFalse_hardClauses (hf : f.Over v) (hv : v ≤ f.clauses.length) :
    (and (hardClauses f)).isFalse = false ↔ ∀ cj ∈ f.clauses, cj.clause ≠ .disj [] := by
  rw [Expression.isFalse_and, List.any_eq_false, hardClauses]
  constructor
  · intro h cj hcj hempty
    apply h (orLiterals (cj.clause.objectArgs.map (HornifyCnfEncoder.mapped f.clauses.length)))
      (List.mem_append_right _ (List.mem_map_of_mem hcj))
    rw [hempty]
    rfl
  · intro h e he
    rw [Bool.not_eq_true]
    rcases List.mem_append.mp he with he | he
    · obtain ⟨i, -, rfl⟩ := List.mem_map.mp he
      exact Expression.isFalse_orLiterals_notVar ..
    · obtain ⟨cj, hcj, rfl⟩ := List.mem_map.mp he
      have hproper := proper_objectArgs (hf cj hcj)
      obtain ⟨l, hl⟩ : ∃ l, l ∈ cj.clause.objectArgs := by
        apply List.exists_mem_of_ne_nil
        unfold Clause.objectArgs
        split
        · simp
        · intro hnil
          apply h cj hcj
          cases hclause : cj.clause with
          | literal l => simp [hclause, Clause.args] at hnil
          | disj ls => simpa [hclause, Clause.args] using hnil
      obtain ⟨rail, hrail⟩ := exists_mapped_eq (hproper l hl) hv
      exact Expression.isFalse_orLiterals (List.mem_map_of_mem hl) (by simp [hrail])

/-- The encoder returns for a formula with variables, no more of them than clauses, and no empty
clause, and then the clauses are these. -/
theorem exists_cnf (hf : f.Over v) (hpos : 1 ≤ v) (hv : v ≤ f.clauses.length)
    (hempty : ∀ cj ∈ f.clauses, cj.clause ≠ .disj []) :
    ∃ w, HornifyCnfEncoder.cnf { hcnf := f, n := v, nop := false } = some w ∧
      (∀ α, w.Holds α ↔ ∀ e ∈ hardClauses f, e.eval α = true) ∧
      ∀ α, w.softCount α = (softRails f.clauses.length v).countP α := by
  have hsoft : softRails f.clauses.length v ≠ [] := by
    unfold softRails
    intro hnil
    have hlength := congrArg List.length hnil
    simp at hlength
    omega
  have hfalsified : (and (hardClauses f)).eval (fun _ => true) = false := by
    rw [Expression.eval_and, List.all_eq_false]
    refine ⟨_, List.mem_append_left _ (List.mem_map_of_mem (List.mem_range.mpr
      (show 0 < f.clauses.length by omega))), ?_⟩
    simp
  obtain ⟨args, hargs, hconj⟩ := andArgs?_and ((isFalse_hardClauses hf hv).mpr hempty) hfalsified
  refine ⟨.ofCNFs (.ofAnd args []) (.ofAnd ((softRails f.clauses.length v).map fun v =>
    ⟨.literal (.var v), true⟩) []), ?_, fun α => ?_, fun α => ?_⟩
  · rw [cnf_eq, if_pos hv, and_vars hsoft, hargs]
    rfl
  · have hholds : (CNF.ofAnd args []).Holds α ↔ (Expression.conj args).eval α = true :=
      holds_iff_conj rfl
    rw [← hconj, Expression.eval_and, List.all_eq_true] at hholds
    exact hholds
  · have hnodup : (((softRails f.clauses.length v).map fun v =>
        (⟨.literal (.var v), true⟩ : Conjunct)).map Conjunct.clause).Nodup := by
      rw [List.map_map]
      apply (nodup_softRails hv).map
      intro i j hij
      cases hij
      rfl
    unfold WCNF.softCount WCNF.ofCNFs CNF.ofAnd
    rw [distinct_of_nodup hnodup, List.countP_map]
    simp [Function.comp_def]

theorem bounds_of_cnf {w : WCNF} (hf : f.Over v)
    (h : HornifyCnfEncoder.cnf { hcnf := f, n := v, nop := false } = some w) :
    (1 ≤ v ∧ v ≤ f.clauses.length) ∧ ∀ cj ∈ f.clauses, cj.clause ≠ .disj [] := by
  rw [cnf_eq] at h
  split at h
  · next hv =>
      obtain ⟨soft, hsoft, h⟩ := Option.bind_eq_some_iff.mp h
      obtain ⟨hard, hhard, -⟩ := Option.bind_eq_some_iff.mp h
      refine ⟨⟨?_, hv⟩, (isFalse_hardClauses hf hv).mp ?_⟩
      · apply Nat.one_le_iff_ne_zero.mpr
        rintro rfl
        cases hsoft
      · rcases Expression.and_cases (hardClauses f) with heq | heq | ⟨-, -, heq⟩
        · rw [heq] at hhard
          cases hhard
        · rw [heq]
          rfl
        · rw [heq]
          rfl
  · cases h

/-- A clause of rails says what the encoder sees of the clause. -/
theorem eval_mappedClause {cj : Conjunct} (hf : f.Over v) (hcj : cj ∈ f.clauses) (hv : v ≤ m)
    (hα : ∀ i ∈ List.range' 1 v, α (m + i) = !α i) :
    (orLiterals (cj.clause.objectArgs.map (HornifyCnfEncoder.mapped m))).eval α =
      cj.clause.objectArgs.any (Literal.eval α) := by
  rw [eval_orLiterals, List.any_map, Bool.eq_iff_iff, List.any_eq_true, List.any_eq_true]
  apply exists_congr
  intro l
  apply and_congr_right
  intro hl
  rw [Function.comp_apply, eval_mapped (proper_objectArgs (hf cj hcj) l hl) hv hα]

theorem forall_hardClauses : (∀ e ∈ hardClauses f, e.eval α = true) ↔
    (∀ i < f.clauses.length, ¬ (α (i + 1) = true ∧ α (i + f.clauses.length + 1) = true)) ∧
      ∀ cj ∈ f.clauses, (orLiterals (cj.clause.objectArgs.map
        (HornifyCnfEncoder.mapped f.clauses.length))).eval α = true := by
  unfold hardClauses
  rw [List.forall_mem_append, List.forall_mem_map, List.forall_mem_map]
  apply and_congr_left'
  apply forall_congr'
  intro i
  rw [List.mem_range]
  apply imp_congr_right
  intro _
  rw [eval_orLiterals]
  cases hfirst : α (i + 1) <;> simp [hfirst]

/-- The rails of an assignment to `1..v`. -/
def railsOf (m v : Nat) (β : Assignment) : Assignment := fun x =>
  if x ≤ v then β x else if m < x ∧ x ≤ m + v then !β (x - m) else false

/-- Hard clauses and `v` soft ones can be satisfied just when the formula the encoder sees can. -/
theorem exists_rails_iff (hf : f.Over v) (hv : v ≤ f.clauses.length) :
    (∃ α, (∀ e ∈ hardClauses f, e.eval α = true) ∧
        (softRails f.clauses.length v).countP α = v) ↔ ∃ α, f.HoldsUnsigned α := by
  constructor
  · rintro ⟨α, hhard, hsoft⟩
    obtain ⟨hrails, hclauses⟩ := forall_hardClauses.mp hhard
    have hapart : ∀ i ∈ List.range' 1 v, ¬ (α i = true ∧ α (f.clauses.length + i) = true) := by
      intro i hi
      rw [List.mem_range'_1] at hi
      have hrail := hrails (i - 1) (by omega)
      rwa [Nat.sub_add_cancel hi.1, show i - 1 + f.clauses.length + 1 = f.clauses.length + i by
        omega] at hrail
    rw [countP_softRails] at hsoft
    have hopposite := (countP_add_countP_iff hapart).2.mp (by rw [hsoft, List.length_range'])
    refine ⟨α, fun cj hcj => ?_⟩
    rw [← eval_mappedClause hf hcj hv hopposite]
    exact hclauses cj hcj
  · rintro ⟨β, hβ⟩
    have hlow (x : Nat) (hx : x ≤ v) : railsOf f.clauses.length v β x = β x := if_pos hx
    have hhigh (i : Nat) (hpos : 1 ≤ i) (hi : i ≤ v) :
        railsOf f.clauses.length v β (f.clauses.length + i) = !β i := by
      unfold railsOf
      rw [if_neg (by omega), if_pos (by omega), Nat.add_sub_cancel_left]
    have hopposite : ∀ i ∈ List.range' 1 v,
        railsOf f.clauses.length v β (f.clauses.length + i) =
          !railsOf f.clauses.length v β i := by
      intro i hi
      rw [List.mem_range'_1] at hi
      rw [hhigh i hi.1 (by omega), hlow i (by omega)]
    refine ⟨railsOf f.clauses.length v β, forall_hardClauses.mpr ⟨?_, ?_⟩, ?_⟩
    · rintro i hi ⟨hfirst, hsecond⟩
      by_cases hiv : i + 1 ≤ v
      · rw [show i + f.clauses.length + 1 = f.clauses.length + (i + 1) by omega,
          hhigh (i + 1) (by omega) hiv, ← hlow (i + 1) hiv, hfirst] at hsecond
        cases hsecond
      · unfold railsOf at hfirst
        rw [if_neg hiv, if_neg (by omega)] at hfirst
        cases hfirst
    · intro cj hcj
      rw [eval_mappedClause hf hcj hv hopposite, ← hβ cj hcj, Bool.eq_iff_iff, List.any_eq_true,
        List.any_eq_true]
      apply exists_congr
      intro l
      apply and_congr_right
      intro hl
      have hproper := proper_objectArgs (hf cj hcj) l hl
      cases l with
      | constFalse => exact absurd hproper Literal.not_proper_constFalse
      | constTrue => exact absurd hproper Literal.not_proper_constTrue
      | var name =>
          rw [Literal.eval_var, Literal.eval_var, hlow name (Literal.proper_var.mp hproper).2]
      | notVar name =>
          rw [Literal.eval_notVar, Literal.eval_notVar,
            hlow name (Literal.proper_notVar.mp hproper).2]
    · have hapart : ∀ i ∈ List.range' 1 v, ¬ (railsOf f.clauses.length v β i = true ∧
          railsOf f.clauses.length v β (f.clauses.length + i) = true) := by
        intro i hi
        rw [hopposite i hi]
        simp
      rw [countP_softRails, (countP_add_countP_iff hapart).2.mpr hopposite, List.length_range']

/-- The reduction is right if and only if the formula has variables, no more of them than clauses,
no empty clause, and is satisfiable just when it is with its bare negated variables read as
variables. -/
theorem dualRail_iff (hf : f.Over v) : DualRail f v ↔
    (1 ≤ v ∧ v ≤ f.clauses.length) ∧ (∀ cj ∈ f.clauses, cj.clause ≠ .disj []) ∧
      ((∃ α, f.Holds α) ↔ ∃ α, f.HoldsUnsigned α) := by
  constructor
  · rintro ⟨w, hw, hsat⟩
    obtain ⟨⟨hpos, hv⟩, hempty⟩ := bounds_of_cnf hf hw
    refine ⟨⟨hpos, hv⟩, hempty, ?_⟩
    obtain ⟨w', hw', hholds, hcount⟩ := exists_cnf hf hpos hv hempty
    cases hw.symm.trans hw'
    rw [hsat, ← exists_rails_iff hf hv]
    simp only [hholds, hcount]
  · rintro ⟨⟨hpos, hv⟩, hempty, hsat⟩
    obtain ⟨w, hw, hholds, hcount⟩ := exists_cnf hf hpos hv hempty
    refine ⟨w, hw, ?_⟩
    rw [hsat, ← exists_rails_iff hf hv]
    simp only [hholds, hcount]

/-- Two variables that differ. -/
theorem dualRail_different :
    DualRail { clauses := [⟨.disj [.var 1, .var 2], true⟩, ⟨.disj [.notVar 1, .notVar 2], true⟩]
               variables_ := [1, 2] } 2 := by
  refine (dualRail_iff ?_).mpr ⟨by decide, by decide, ?_⟩
  · unfold CNF.Over
    simp [Clause.args, Literal.proper_var, Literal.proper_notVar]
  · simp [CNF.Holds, CNF.HoldsUnsigned, Clause.objectArgs, Clause.args]

/-- One variable that is true and false: the encoder sees it true twice. -/
theorem not_dualRail :
    ¬ ∀ (f : CNF) (v : Nat), f.Over v → DualRail f v := by
  intro h
  let f : CNF := { clauses := [⟨.literal (.var 1), true⟩, ⟨.literal (.notVar 1), true⟩]
                   variables_ := [1] }
  have hf : f.Over 1 := by
    unfold CNF.Over
    simp [f, Clause.args, Literal.proper_var, Literal.proper_notVar]
  obtain ⟨w, hw, hsat⟩ := h f 1 hf
  have hsatisfied : ∃ α, w.Holds α ∧ w.softCount α = 1 := by
    cases hw
    exact ⟨fun x => x == 1, by decide, by decide⟩
  obtain ⟨α, hα⟩ := hsat.mpr hsatisfied
  have htrue := hα ⟨.literal (.var 1), true⟩ (by simp [f])
  have hfalse := hα ⟨.literal (.notVar 1), true⟩ (by simp [f])
  simp at htrue hfalse
  rw [htrue] at hfalse
  cases hfalse

end Encoding

end LatinSquares.Generator
