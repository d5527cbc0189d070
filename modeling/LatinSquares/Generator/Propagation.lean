/-
# Propagating known values

`propagate` of `Expression.kt` replaces the variables of a map by the constants they are
mapped to and builds the expressions anew. A `CNF` also gets a clause for every entry of
the map, so that it still says what it said before.
-/

import LatinSquares.Generator.Assembly

namespace LatinSquares.Generator

open LatinSquares.Math
open Expression (and)

/-- A map from variables to `True` and `False`, with its entries in order. -/
structure UnitMap where
  entries : List (Nat × Bool)
  nodup : (entries.map Prod.fst).Nodup

namespace UnitMap

/-- The value of a variable, if the map has one. -/
def find (units : UnitMap) (name : Nat) : Option Bool := units.entries.lookup name

/-- An assignment gives the variables of the map their values. -/
def Agrees (units : UnitMap) (α : Assignment) : Prop := ∀ p ∈ units.entries, α p.1 = p.2

/-- The map makes the literal false. -/
def falsifies (units : UnitMap) : Literal → Bool
  | .constFalse => true
  | .constTrue => false
  | .var name => units.find name == some false
  | .notVar name => units.find name == some true

/-- The map excludes a value of a cell. -/
def contradicts (units : UnitMap) (literals : List Literal) : Bool := literals.any units.falsifies

end UnitMap

/-- `Variable.propagate`. -/
def UnitMap.getOrDefault (units : UnitMap) (name : Nat) : Literal :=
  match units.find name with
  | some true => .constTrue
  | some false => .constFalse
  | none => .var name

/-- `propagate` of the constants, of `Variable` and of `Not`. -/
def Literal.propagate (units : UnitMap) : Literal → Literal
  | .constFalse => .constFalse
  | .constTrue => .constTrue
  | .var name => units.getOrDefault name
  | .notVar name => (units.getOrDefault name).not

/-- `propagate` of a literal or an `Or`. -/
def Clause.propagate (units : UnitMap) : Clause → Clause
  | .literal l => .literal (l.propagate units)
  | .disj args => Clause.or (args.map fun l => .literal (l.propagate units))

/-- A variable without a value is returned as it is, with its mark; `Not` and `Or` build
new objects. -/
def Conjunct.propagate (units : UnitMap) (c : Conjunct) : Conjunct :=
  match c.clause with
  | .literal (.var name) => if units.find name = none then c else ⟨c.clause.propagate units, true⟩
  | _ => ⟨c.clause.propagate units, true⟩

/-- `propagate` of an expression. -/
def Expression.propagate (units : UnitMap) : Expression → Expression
  | .clause c => .clause (c.propagate units)
  | .conj args => and (args.map fun c => .clause (c.propagate units))

/-- `propagate` of the values of a cell; `none` stands for `return null`. -/
def MetaVariable.propagateValues (units : UnitMap) :
    List (Nat × List Literal) → Option (List (Nat × List Literal))
  | [] => some []
  | (key, literals) :: values =>
      let expr := (and (literals.map .literal)).propagate units
      if expr.isFalse then propagateValues units values
      else if expr.isTrue then none
      else do
        let new ← propagateValues units values
        return (key, (expr.args.flatMap fun c => c.clause.args).filter fun l =>
          l ≠ .constFalse ∧ l ≠ .constTrue) :: new

/-- `MetaVariable.propagate`. -/
def MetaVariable.propagate (units : UnitMap) (metaVar : MetaVariable) : Option MetaVariable := do
  let new ← propagateValues units metaVar.values
  if new = [] then none else some { metaVar with values := new }

/-- `propagateClauses`. -/
def propagateClauses (clauses : List Conjunct) (units : UnitMap) : List Expression :=
  clauses.map (fun c => .clause (c.propagate units)) ++
    [and (units.entries.map fun p =>
      .ofClause (Clause.or [.literal (if p.2 then .var p.1 else (Literal.var p.1).not)]))]

/-- `CNF.propagate`. -/
def CNF.propagate (units : UnitMap) (cnf : CNF) : CNF where
  clauses := distinct (and (propagateClauses cnf.clauses units)).args
  variables_ := cnf.variables_
  coreVariables := cnf.coreVariables.filter fun name => units.find name = none
  metaVariables := cnf.metaVariables.filterMap (MetaVariable.propagate units)
  incremental := cnf.incremental
  net := cnf.net

/-- All literals of a value hold. -/
def valueHolds (α : Assignment) (entry : Nat × List Literal) : Bool :=
  entry.2.all (Literal.eval α)

variable {units : UnitMap} {α β : Assignment} {name : Nat} {b : Bool} {l : Literal}
variable {cnf : CNF}

namespace UnitMap

theorem mem_of_find (h : units.find name = some b) : (name, b) ∈ units.entries := by
  obtain ⟨l₁, l₂, heq, -⟩ := List.lookup_eq_some_iff.mp h
  rw [heq]
  exact List.mem_append_right _ List.mem_cons_self

theorem Agrees.eq_of_find (h : units.Agrees α) (hfind : units.find name = some b) : α name = b :=
  h (name, b) (mem_of_find hfind)

theorem eval_getOrDefault (h : units.Agrees α) (name : Nat) :
    (units.getOrDefault name).eval α = α name := by
  unfold getOrDefault
  split
  · next hfind => exact (h.eq_of_find hfind).symm
  · next hfind => exact (h.eq_of_find hfind).symm
  · rfl

end UnitMap

/-- Replacing variables by their values changes no literal. -/
theorem Literal.eval_propagate (h : units.Agrees α) (l : Literal) :
    (l.propagate units).eval α = l.eval α := by
  cases l with
  | constFalse => rfl
  | constTrue => rfl
  | var name => exact units.eval_getOrDefault h name
  | notVar name => rw [propagate, eval_not, units.eval_getOrDefault h, eval_notVar]

theorem Clause.eval_propagate (h : units.Agrees α) (c : Clause) :
    (c.propagate units).eval α = c.eval α := by
  cases c with
  | literal l => rw [propagate, eval_literal, eval_literal, l.eval_propagate h]
  | disj args =>
      rw [propagate, eval_or, List.any_map, eval_disj]
      apply congrArg
      funext l
      exact (eval_literal _ _).trans (l.eval_propagate h)

theorem Conjunct.clause_propagate (c : Conjunct) :
    (c.propagate units).clause = c.clause.propagate units := by
  obtain ⟨clause, isImportant⟩ := c
  unfold propagate
  split
  · next name heq =>
      dsimp only at heq
      subst heq
      split
      · next hfind => simp [Clause.propagate, Literal.propagate, UnitMap.getOrDefault, hfind]
      · rfl
  · rfl

/-- The clauses for the entries of the map say that an assignment agrees with it. -/
theorem eval_unitClauses :
    (and (units.entries.map fun p =>
      Expression.ofClause (Clause.or [.literal (if p.2 then .var p.1 else (Literal.var p.1).not)]))
      ).eval α = true ↔ units.Agrees α := by
  rw [Expression.eval_and, List.all_map, List.all_eq_true]
  apply forall₂_congr
  intro p _
  obtain ⟨name, b⟩ := p
  cases b <;> simp

/-- Propagation keeps the meaning of a formula and adds the known values. -/
theorem CNF.holds_propagate :
    (cnf.propagate units).Holds α ↔ cnf.Holds α ∧ units.Agrees α := by
  have hargs : (Expression.conj (and (propagateClauses cnf.clauses units)).args).eval α =
      (and (propagateClauses cnf.clauses units)).eval α := rfl
  rw [holds_iff_conj rfl, hargs, Expression.eval_and, propagateClauses, List.all_append,
    Bool.and_eq_true, List.all_cons, List.all_nil, Bool.and_true, eval_unitClauses]
  apply and_congr_left
  intro hagrees
  rw [CNF.Holds, List.all_map, List.all_eq_true]
  apply forall₂_congr
  intro c _
  rw [Function.comp_apply, Expression.eval_clause, Conjunct.clause_propagate,
    Clause.eval_propagate hagrees]

section Values

variable {literals : List Literal} {values new : List (Nat × List Literal)}

/-- Literals as the arguments of an `And`. -/
def literalArgs (literals : List Literal) : List Conjunct :=
  literals.map fun l => ⟨.literal l, true⟩

/-- `and` of clauses, none of which is an `And`. -/
theorem and_map_clause (cs : List Conjunct) : and (cs.map .clause) = Expression.andArgs cs := by
  have hflat : (cs.map Expression.clause).flatMap Expression.conjuncts =
      cs.filter fun c => c.clause ≠ .literal .constTrue := by
    induction cs with
    | nil => rfl
    | cons c cs ih =>
        rw [List.map_cons, List.flatMap_cons, ih]
        by_cases hc : c.clause = .literal .constTrue <;> simp [Expression.conjuncts, hc]
  unfold Expression.and Expression.andArgs
  rw [hflat, List.any_map]
  rfl

/-- Arguments that are `True` are dropped. -/
theorem andArgs_eq_of_filter {cs cs' : List Conjunct}
    (h : (cs.filter fun c => c.clause ≠ .literal .constTrue) =
      cs'.filter fun c => c.clause ≠ .literal .constTrue) :
    Expression.andArgs cs = Expression.andArgs cs' := by
  have hany : ∀ cs : List Conjunct, (cs.any fun c => c.clause = .literal .constFalse) =
      (cs.filter fun c => c.clause ≠ .literal .constTrue).any fun c =>
        c.clause = .literal .constFalse := by
    intro cs
    rw [List.any_filter]
    apply congrArg
    funext c
    by_cases hc : c.clause = .literal .constFalse <;> simp [hc]
  unfold Expression.andArgs
  rw [hany cs, hany cs', h]

theorem andArgs_of_false (h : .constFalse ∈ literals) :
    Expression.andArgs (literalArgs literals) = .constFalse := by
  apply if_pos
  rw [literalArgs, List.any_map]
  exact List.any_eq_true.mpr ⟨_, h, by simp⟩

theorem filter_literalArgs (literals : List Literal) :
    (literalArgs literals).filter (fun c => c.clause ≠ .literal .constTrue) =
      literalArgs (literals.filter (· ≠ .constTrue)) := by
  simp [literalArgs, List.filter_map, Function.comp_def]

/-- An `And` of literals, none of which is `False`. -/
theorem andArgs_literalArgs (h : .constFalse ∉ literals) :
    Expression.andArgs (literalArgs literals) =
      if literals.filter (· ≠ .constTrue) = [] then .constTrue
      else .conj (literalArgs (literals.filter (· ≠ .constTrue))) := by
  have hany : ¬ ((literalArgs literals).any fun c => c.clause = .literal .constFalse) = true := by
    rw [literalArgs, List.any_map, List.any_eq_true]
    rintro ⟨l, hl, hfalse⟩
    have heq : l = .constFalse := by simpa using hfalse
    exact h (heq ▸ hl)
  rw [Expression.andArgs, if_neg hany, filter_literalArgs]
  cases literals.filter (· ≠ .constTrue) with
  | nil => rfl
  | cons l literals => rfl

theorem Conjunct.propagate_literal (l : Literal) :
    Conjunct.propagate units ⟨.literal l, true⟩ = ⟨.literal (l.propagate units), true⟩ := by
  cases l with
  | constFalse => rfl
  | constTrue => rfl
  | var name =>
      cases hfind : units.find name with
      | none => simp [propagate, Literal.propagate, UnitMap.getOrDefault, hfind]
      | some b => simp [propagate, Clause.propagate, hfind]
  | notVar name => rfl

/-- The values of the literals of a cell's value, taken together. -/
theorem propagate_and_literals (literals : List Literal) :
    (and (literals.map .literal)).propagate units =
      Expression.andArgs (literalArgs (literals.map (Literal.propagate units))) := by
  have hliterals : literals.map Expression.literal = (literalArgs literals).map .clause := by
    rw [literalArgs, List.map_map]
    rfl
  rw [hliterals, and_map_clause]
  by_cases hfalse : .constFalse ∈ literals
  · rw [andArgs_of_false hfalse, andArgs_of_false (List.mem_map.mpr ⟨_, hfalse, rfl⟩)]
    rfl
  · have hfilter : (literals.map (Literal.propagate units)).filter (· ≠ .constTrue) =
        ((literals.filter (· ≠ .constTrue)).map (Literal.propagate units)).filter
          (· ≠ .constTrue) := by
      rw [List.filter_map, List.filter_map, List.filter_filter]
      congr 1
      apply List.filter_congr
      intro l _
      by_cases hl : l = .constTrue <;> simp [hl, Literal.propagate]
    have hargs : Expression.andArgs (literalArgs (literals.map (Literal.propagate units))) =
        Expression.andArgs (literalArgs
          ((literals.filter (· ≠ .constTrue)).map (Literal.propagate units))) :=
      andArgs_eq_of_filter (by rw [filter_literalArgs, filter_literalArgs, hfilter])
    rw [andArgs_literalArgs hfalse, hargs]
    split
    · next hnil => rw [hnil]; rfl
    · have hmap : (literalArgs (literals.filter (· ≠ .constTrue))).map
          (fun c => Expression.clause (c.propagate units)) =
          (literalArgs ((literals.filter (· ≠ .constTrue)).map (Literal.propagate units))).map
            .clause := by
        simp [literalArgs, Conjunct.propagate_literal]
      rw [Expression.propagate, hmap, and_map_clause]

theorem falsifies_eq (l : Literal) :
    units.falsifies l = decide (l.propagate units = .constFalse) := by
  have hvar : ∀ name, (units.getOrDefault name = .constFalse ↔ units.find name = some false) ∧
      (units.getOrDefault name = .constTrue ↔ units.find name = some true) := by
    intro name
    unfold UnitMap.getOrDefault
    split
    · next hfind => simp [hfind]
    · next hfind => simp [hfind]
    · next hfind => simp [hfind]
  have hnot : ∀ l : Literal, l.not = .constFalse ↔ l = .constTrue := by
    intro l
    cases l <;> simp [Literal.not]
  cases l with
  | constFalse => rfl
  | constTrue => rfl
  | var name => simp [UnitMap.falsifies, Literal.propagate, (hvar name).1, beq_eq_decide]
  | notVar name => simp [UnitMap.falsifies, Literal.propagate, hnot, (hvar name).2, beq_eq_decide]

theorem contradicts_iff :
    units.contradicts literals = true ↔ .constFalse ∈ literals.map (Literal.propagate units) := by
  simp [UnitMap.contradicts, falsifies_eq]

/-- What is left of the literals of a value. -/
def undecided (units : UnitMap) (literals : List Literal) : List Literal :=
  (literals.map (Literal.propagate units)).filter (· ≠ .constTrue)

theorem propagateValues_cons (key : Nat) :
    MetaVariable.propagateValues units ((key, literals) :: values) =
      if units.contradicts literals then MetaVariable.propagateValues units values
      else if undecided units literals = [] then none
      else (MetaVariable.propagateValues units values).map
        ((key, undecided units literals) :: ·) := by
  rw [MetaVariable.propagateValues, propagate_and_literals]
  by_cases hfalse : .constFalse ∈ literals.map (Literal.propagate units)
  · rw [andArgs_of_false hfalse, if_pos (contradicts_iff.mpr hfalse)]
    rfl
  · rw [andArgs_literalArgs hfalse, if_neg (mt contradicts_iff.mp hfalse), ← undecided]
    by_cases hnil : undecided units literals = []
    · simp only [hnil, if_true]
      rfl
    · have hargs : ((literalArgs (undecided units literals)).flatMap fun c => c.clause.args) =
          undecided units literals := by
        simp [literalArgs, List.flatMap_map, Clause.args]
      have hkept : (undecided units literals).filter
          (fun l => l ≠ .constFalse ∧ l ≠ .constTrue) = undecided units literals := by
        rw [List.filter_eq_self]
        intro l hl
        have hmem := List.mem_of_mem_filter hl
        have htrue : l ≠ .constTrue := by simpa using (List.mem_filter.mp hl).2
        have hne : l ≠ .constFalse := fun heq => hfalse (heq ▸ hmem)
        simp [hne, htrue]
      simp only [hnil, if_false, Expression.isFalse, Expression.isTrue, Bool.false_eq_true,
        Expression.args, hargs, hkept]
      cases MetaVariable.propagateValues units values <;> rfl

theorem eval_undecided (h : units.Agrees α) (literals : List Literal) :
    (undecided units literals).all (Literal.eval α) = literals.all (Literal.eval α) := by
  rw [undecided, List.all_filter, List.all_map]
  apply congrArg
  funext l
  rw [Function.comp_apply, ← l.eval_propagate h]
  by_cases htrue : l.propagate units = .constTrue <;> simp [htrue]

theorem not_holds_of_contradicts (h : units.Agrees α) (hcon : units.contradicts literals = true) :
    literals.all (Literal.eval α) = false := by
  obtain ⟨l, hl, hfalse⟩ := List.mem_map.mp (contradicts_iff.mp hcon)
  apply List.all_eq_false.mpr
  refine ⟨l, hl, ?_⟩
  rw [← l.eval_propagate h, hfalse]
  exact Bool.false_ne_true

/-- A cell is dropped early only if the map decides one of its values. -/
theorem exists_of_propagateValues_eq_none (h : MetaVariable.propagateValues units values = none) :
    ∃ entry ∈ values, undecided units entry.2 = [] := by
  induction values with
  | nil => cases h
  | cons entry values ih =>
      obtain ⟨key, literals⟩ := entry
      rw [propagateValues_cons] at h
      split at h
      · obtain ⟨entry, hentry, hnil⟩ := ih h
        exact ⟨entry, List.mem_cons_of_mem _ hentry, hnil⟩
      · split at h
        · next hnil => exact ⟨_, List.mem_cons_self, hnil⟩
        · obtain ⟨entry, hentry, hnil⟩ := ih (Option.map_eq_none_iff.mp h)
          exact ⟨entry, List.mem_cons_of_mem _ hentry, hnil⟩

/-- Otherwise it keeps the values that the map does not exclude. -/
theorem propagateValues_eq_some (h : MetaVariable.propagateValues units values = some new) :
    new = (values.filter fun entry => !units.contradicts entry.2).map fun entry =>
      (entry.1, undecided units entry.2) := by
  induction values generalizing new with
  | nil => exact (Option.some.inj h).symm
  | cons entry values ih =>
      obtain ⟨key, literals⟩ := entry
      rw [propagateValues_cons] at h
      split at h
      · next hcon => rw [ih h, List.filter_cons_of_neg (by simp [hcon])]
      · next hcon =>
          split at h
          · cases h
          · obtain ⟨rest, hrest, rfl⟩ := Option.map_eq_some_iff.mp h
            rw [ih hrest, List.filter_cons_of_pos (by simp [hcon]), List.map_cons]

/-- Which values hold is not changed. -/
theorem filter_valueHolds (hagrees : units.Agrees α)
    (h : MetaVariable.propagateValues units values = some new) :
    new.filter (valueHolds α) =
      (values.filter (valueHolds α)).map fun entry => (entry.1, undecided units entry.2) := by
  rw [propagateValues_eq_some h, List.filter_map, List.filter_filter]
  apply congrArg
  apply List.filter_congr
  intro entry _
  rw [Function.comp_apply, valueHolds, valueHolds, eval_undecided hagrees]
  cases hcon : units.contradicts entry.2 with
  | false => simp
  | true => simp [not_holds_of_contradicts hagrees hcon]

end Values

/-- A cell of which one value holds is absent after the propagation only if the map alone
decides it; otherwise it keeps the values not excluded, and the same value holds. -/
theorem MetaVariable.propagate_cases {metaVar : MetaVariable} {entry : Nat × List Literal}
    (hagrees : units.Agrees α) (hone : metaVar.values.filter (valueHolds α) = [entry]) :
    match metaVar.propagate units with
    | none => ∀ β, units.Agrees β → valueHolds β entry = true
    | some metaVar' =>
        (metaVar'.matrix, metaVar'.row, metaVar'.column) =
            (metaVar.matrix, metaVar.row, metaVar.column) ∧
          metaVar'.values.map Prod.fst =
            (metaVar.values.filter fun entry => !units.contradicts entry.2).map Prod.fst ∧
          (metaVar'.values.filter (valueHolds α)).map Prod.fst = [entry.1] := by
  unfold MetaVariable.propagate
  cases hnew : propagateValues units metaVar.values with
  | none =>
      obtain ⟨decided, hmem, hnil⟩ := exists_of_propagateValues_eq_none hnew
      have hholds : ∀ β, units.Agrees β → valueHolds β decided = true := by
        intro β hβ
        rw [valueHolds, ← eval_undecided hβ, hnil]
        rfl
      have hdecided : decided ∈ metaVar.values.filter (valueHolds α) :=
        List.mem_filter.mpr ⟨hmem, hholds α hagrees⟩
      rw [hone, List.mem_singleton] at hdecided
      exact hdecided ▸ hholds
  | some new =>
      have hfilter := filter_valueHolds hagrees hnew
      rw [hone, List.map_cons, List.map_nil] at hfilter
      have hne : new ≠ [] := by
        rintro rfl
        cases hfilter
      simp only [Option.bind_eq_bind, Option.bind_some, hne, if_false]
      refine ⟨trivial, ?_, ?_⟩
      · rw [propagateValues_eq_some hnew, List.map_map]
        rfl
      · rw [hfilter]
        rfl

/-- Propagating known values adds them to what a formula says, and keeps of every cell
what they leave open. -/
theorem propagate_keeps_meaning (units : UnitMap) (α : Assignment) :
    (∀ cnf : CNF, (cnf.propagate units).Holds α ↔ cnf.Holds α ∧ units.Agrees α) ∧
      ∀ (metaVar : MetaVariable) (entry : Nat × List Literal), units.Agrees α →
        metaVar.values.filter (valueHolds α) = [entry] →
        match metaVar.propagate units with
        | none => ∀ β, units.Agrees β → valueHolds β entry = true
        | some metaVar' =>
            (metaVar'.matrix, metaVar'.row, metaVar'.column) =
                (metaVar.matrix, metaVar.row, metaVar.column) ∧
              metaVar'.values.map Prod.fst =
                (metaVar.values.filter fun entry => !units.contradicts entry.2).map Prod.fst ∧
              (metaVar'.values.filter (valueHolds α)).map Prod.fst = [entry.1] :=
  ⟨fun _ => CNF.holds_propagate, fun _ _ => MetaVariable.propagate_cases⟩

/-- With `1` false the second value of the cell is left. -/
theorem propagate_keeps_meaning_small :
    let units : UnitMap := ⟨[(1, false)], by decide⟩
    let metaVar : MetaVariable := ⟨0, 1, 1, [(1, [.var 1, .notVar 2]), (3, [.notVar 1, .var 2])]⟩
    let α : Assignment := fun name => name == 2
    match metaVar.propagate units with
    | none => ∀ β, units.Agrees β → valueHolds β (3, [.notVar 1, .var 2]) = true
    | some metaVar' =>
        (metaVar'.matrix, metaVar'.row, metaVar'.column) = (0, 1, 1) ∧
          metaVar'.values.map Prod.fst =
            (metaVar.values.filter fun entry => !units.contradicts entry.2).map Prod.fst ∧
          (metaVar'.values.filter (valueHolds α)).map Prod.fst = [3] := by
  intro units metaVar α
  exact (propagate_keeps_meaning units α).2 metaVar (3, [.notVar 1, .var 2])
    (by simp [UnitMap.Agrees, units, α]) (by decide)

end LatinSquares.Generator
