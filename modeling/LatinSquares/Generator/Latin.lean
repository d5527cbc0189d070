/-
# Latin squares as formulas

`latin.kt`: the tables of literals an encoder starts from, the constraints of a
Latin square, the two ways of asking for pairs of symbols in two superimposed
squares, and the symmetry-breaking cycles.

`shuffled()` orders a list at random. The order it produces is a parameter: an
`Order` names one permutation for every call, and a statement about all orders
is a statement about every random choice. Calls are told apart by the counter at
the moment of the call, which grows from one call to the next.
-/

import LatinSquares.Generator.Common

namespace LatinSquares.Generator

open Expression (and)

/-- A square of cells, each cell a list of literals. -/
abbrev Matrix := List (List (List Literal))

/-- `matrix[i][j]`. -/
def Matrix.cell (matrix : Matrix) (i j : Nat) : List Literal := (matrix.getD i []).getD j []

/-- `matrix[i][j][k]`. -/
def Matrix.entry (matrix : Matrix) (i j k : Nat) : Literal := (matrix.cell i j).getD k default

/-- `List(n) { i -> List(m) { j -> List(q) { k -> ... } } }`. -/
def listOfLists (n m q : Nat) (f : Nat → Nat → Nat → Gen Literal) : Gen Matrix :=
  (List.range n).mapM fun i => (List.range m).mapM fun j => (List.range q).mapM fun k => f i j k

/-- `if (...) True else False`. -/
def constant (condition : Bool) : Gen Literal :=
  return if condition then .constTrue else .constFalse

/-- `newVariable` as an entry of a table. -/
def newLiteral : Gen Literal := Literal.var <$> newVariable

def initFirstReducedLogMatrix (n m q : Nat) : Gen Matrix :=
  listOfLists n m q fun i j k =>
    if i = 0 then constant ((j >>> k) % 2 = 1)
    else if j = 0 then constant ((i >>> k) % 2 = 1)
    else newLiteral

def initReducedLogMatrix (n m q : Nat) : Gen Matrix :=
  listOfLists n m q fun i j k =>
    if j = 0 then constant ((i >>> k) % 2 = 1) else newLiteral

def initMatrix (n m q : Nat) : Gen Matrix :=
  listOfLists n m q fun _ _ _ => newLiteral

def initReducedArray (s size n : Nat) : Gen Matrix :=
  listOfLists s size n fun i j k =>
    if i = 0 then constant (k = j / n)
    else if i = 1 then constant (k = j % n)
    else newLiteral

/-- One round of the loop of `getCycles`: the next partition of `n`. -/
def nextCycle (n : Nat) (curCycle : List Nat) : List Nat :=
  let shorter := curCycle.dropLast
  let value := shorter.getLastD 0 + 1
  let sum := n - curCycle.getLastD 0 + 1
  if value > n - sum then
    shorter.dropLast ++ [value + (n - sum)]
  else
    let copies := (n - sum) / value - 1
    shorter.dropLast ++ [value] ++ List.replicate copies value ++
      [n - (sum + copies * value)]

/-- The loop of `getCycles`, for at most `fuel` rounds. -/
def getCyclesLoop (n : Nat) : Nat → List Nat → List (List Nat) → Option (List (List Nat))
  | 0, _, _ => none
  | fuel + 1, curCycle, cycles =>
      if curCycle.length = 1 then some cycles
      -- `curCycle.last()` of an empty list throws
      else if curCycle = [] then none
      else
        let next := nextCycle n curCycle
        getCyclesLoop n fuel next (cycles ++ [next])

/-- `getCycles`. A partition of `n` costs one round, and there are fewer than
`2 ^ n` of them. -/
def getCycles (n : Nat) : Option (List (List Nat)) :=
  let curCycle :=
    if n % 2 = 0 then List.replicate (n / 2) 2
    else (List.range (n / 2)).map fun i => if i = n / 2 - 1 then 3 else 2
  getCyclesLoop n (2 ^ n) curCycle [curCycle]

/-- `it` as a literal argument of `iff`; its callers pass conjunctions of
literals, and the other case has no negation in clausal form. -/
def Clause.literal? : Clause → Option Literal
  | .literal l => some l
  | .disj _ => none

/-- The clauses of `iff` for a conjunction. -/
def iffAnd (variable_ : Nat) (args : List Literal) : Expression :=
  and (args.map (fun it => orLiterals [.notVar variable_, it]) ++
    [orLiterals (args.map Literal.not ++ [.var variable_])])

/-- The clauses of `iff` for a disjunction. -/
def iffOr (variable_ : Nat) (args : List Literal) : Expression :=
  and (args.map (fun it => orLiterals [.var variable_, it.not]) ++
    [orLiterals (args ++ [.notVar variable_])])

def iff (variable_ : Nat) : Expression → Gen Expression
  | .conj args => do
      let args ← liftM (args.mapM fun it => it.clause.literal?)
      addNode (.andIff variable_ args)
      return iffAnd variable_ args
  | .clause ⟨.disj args, _⟩ => do
      addNode (.orIff variable_ args)
      return iffOr variable_ args
  | .clause ⟨.literal (.var name), _⟩ => do
      addNode (.andIff variable_ [.var name])
      return and [orLiterals [.var variable_, .var name],
        orLiterals [.notVar variable_, .notVar name]]
  | .clause ⟨.literal .constTrue, _⟩ => do
      addNode (.value variable_ true)
      return .literal (.var variable_)
  | .clause ⟨.literal .constFalse, _⟩ => do
      addNode (.value variable_ false)
      return .literal (.notVar variable_)
  | .clause ⟨.literal (.notVar _), _⟩ => failure

/-- The equalities `row[c] = next of c` along the cycles of a partition laid out
from `index` on. -/
def cycleEqualities (vars : List (List Literal)) : List Nat → Nat → List Expression
  | [], _ => []
  | n :: cycle, index =>
      (List.range n).map (fun it => equal (vars.getD (index + it) []) (index + 1 + (it + 1) % n)) ++
        cycleEqualities vars cycle (index + n)

/-- `if (cycle == -1) True else breakingSymmetryVars[cycle]`. -/
def fixedCycle (breakingSymmetryVars : List Nat) (cycle : Int) : Gen Expression :=
  if cycle = -1 then return .constTrue
  else if cycle < 0 then failure
  else do
    let v ← liftM breakingSymmetryVars[cycle.toNat]?
    return .literal (.var v)

def breakingSymmetry (vars : List (List Literal)) (firstIndex : Nat := 0) (cycle : Int := -1) :
    Gen Expression := do
  let cycles ← liftM (getCycles (vars.length - firstIndex))
  let breakingSymmetryVars ← cycles.mapM fun _ => newVariable
  let phis ← (cycles.zip breakingSymmetryVars).mapM fun p =>
    iff p.2 (and (cycleEqualities vars p.1 firstIndex))
  let fixed ← fixedCycle breakingSymmetryVars cycle
  return and [and [and phis, orLiterals (breakingSymmetryVars.map .var)], fixed]

def initReducedMatrix (n m q : Nat) : Gen Matrix :=
  listOfLists n m q fun i j k =>
    if j = 0 then constant (i = k)
    else if i = 0 then
      if j = k then constant false else newLiteral
    else
      if i = k then constant false else newLiteral

def initFirstReducedMatrix (n m q : Nat) : Gen Matrix :=
  listOfLists n m q fun i j k =>
    if i = 0 then constant (j = k)
    else if j = 0 then constant (i = k)
    else
      if k = j then constant false
      else if k = i then constant false
      else newLiteral

def logLatin (ceitinVars : Matrix) : Expression :=
  and (ceitinVars.map (fun matrix => codeSufficient (transpose matrix)) ++
    (transpose ceitinVars).map fun matrix => codeSufficient (transpose matrix))

def latin (square : Matrix) : Expression :=
  and (square.map codeLine ++
    (transpose square).map fun matrix => codeSufficient (transpose matrix))

/-- No two of the variables hold. -/
def atMostOneOf (vars : List Nat) : Expression :=
  and ((List.range vars.length).flatMap fun i =>
    (rangeUntil (i + 1) vars.length).map fun j =>
      orLiterals [.notVar (vars.getD i 0), .notVar (vars.getD j 0)])

/-- What `orthogonal` and `logOrthogonal` do for one pair of symbols: `chi` holds
when the pair occurs at one of the positions. `equalExprs` says at which positions
it does, and `mark` is applied to the definitions. -/
def symbolPair (mark : Expression → Expression) (equalExprs : List Expression) (q : Nat)
    (chi : Nat) : Gen Expression := do
  let equalVars ← equalExprs.mapM fun _ => newVariable
  let phis ← (equalExprs.zip equalVars).mapM fun p => iff p.2 p.1
  let addend := if q = equalExprs.length then atMostOneOf equalVars else and []
  let chiExpr ← iff chi (.ofClause (.disj (equalVars.map .var)))
  return and [mark (and (phis ++ [and [chiExpr]])), addend]

/-- The common body of `orthogonal` and `logOrthogonal`: `n` symbols, and
`equalExprs aN bN` for the pair of the symbols numbered `aN` and `bN`. -/
def orthogonalBy (order : Nat → List Nat → List Nat) (mark : Expression → Expression)
    (equalExprs : Nat → Nat → Option (List Expression)) (n q : Nat) :
    Gen VariabledExpression := do
  let chis ← (List.range n).mapM fun _ => (List.range n).mapM fun _ => newVariable
  let pairwiseOrtho ← (List.range' 1 n).mapM fun aN => do
    let row ← (List.range' 1 n).mapM fun bN => do
      let exprs ← liftM (equalExprs aN bN)
      symbolPair mark exprs q ((chis.getD (aN - 1) []).getD (bN - 1) 0)
    return and row
  -- `List(k)` rejects a negative size
  guard (q ≤ n * n)
  let vars := order (← get).varCounter chis.flatten
  let greater ← greaterOrEqual vars (n * n - q)
  return { expr := and [and pairwiseOrtho, greater.expr], vars := greater.vars }

/-- `as And`. -/
def Expression.asAnd : Expression → Option Expression
  | .conj args => some (.conj args)
  | .clause _ => none

/-- The positions at which `a` has the symbol numbered `aN` and `b` the symbol
numbered `bN`, read off indicator variables. -/
def logEqualExprs (a b : List (List Literal)) (aN bN : Nat) : Option (List Expression) :=
  (List.range a.length).mapM fun i => Expression.asAnd
    (and [.literal ((a.getD i []).getD (aN - 1) default),
      .literal ((b.getD i []).getD (bN - 1) default)])

def logOrthogonal (a b : List (List Literal)) (q : Nat) : Gen VariabledExpression :=
  orthogonalBy (fun _ vars => vars) id (logEqualExprs a b) (b.getD 0 []).length q

/-- The positions at which cell `a[i]` is `aN` and cell `b[i]` is `bN`. -/
def equalExprs (a b : List (List Literal)) (aN bN : Nat) : List Expression :=
  (List.range a.length).map fun i => and [equal (a.getD i []) aN, equal (b.getD i []) bN]

/-- The outcome of every call of `shuffled()`. -/
structure Order where
  shuffled : Nat → List Nat → List Nat
  perm : ∀ counter vars, (shuffled counter vars).Perm vars

/-- The order that leaves every list as it is. -/
def Order.identity : Order where
  shuffled := fun _ vars => vars
  perm := fun _ vars => List.Perm.refl vars

def orthogonal (order : Order) (a b : List (List Literal)) (q : Nat) :
    Gen VariabledExpression :=
  orthogonalBy order.shuffled (Expression.markArgs false)
    (fun aN bN => some (equalExprs a b aN bN)) (b.getD 0 []).length q

def fullyOrthogonalSquare (a b : Matrix) : Expression :=
  and ((List.range a.length).flatMap fun i1 =>
    (List.range (a.getD i1 []).length).flatMap fun j1 =>
      (rangeUntil (i1 + 1) a.length).flatMap fun i2 =>
        ((List.range (a.getD i2 []).length).filter (· ≠ j1)).flatMap fun j2 =>
          (List.range (a.cell i1 i2).length).flatMap fun k1 =>
            (List.range (a.cell i1 i2).length).map fun k2 =>
              orLiterals [(a.entry i1 j1 k1).not, (a.entry i2 j2 k1).not,
                (b.entry i1 j1 k2).not, (b.entry i2 j2 k2).not])

def orthogonalLogSquare (a b : Matrix) (q : Nat) : Gen VariabledExpression :=
  if q ≠ a.length * a.length then logOrthogonal a.flatten b.flatten q
  else return { expr := fullyOrthogonalSquare a b }

def orthogonalSquare (order : Order) (a b : Matrix) (q : Nat) : Gen VariabledExpression :=
  if q ≠ a.length * a.length then orthogonal order a.flatten b.flatten q
  else return { expr := fullyOrthogonalSquare a b }

end LatinSquares.Generator
