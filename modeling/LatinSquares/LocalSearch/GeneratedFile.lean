/-
# The files of the one-hot encoder

Every formula of the encoder can be printed, and a reduced or unreduced square of order three or
more always has a cell that is free. So the local search reads the file of an encoder as it is
printed exactly if no pair of symbols may be missing: then there are no incremental expressions.
-/

import LatinSquares.Generator.NetReads
import LatinSquares.Generator.Tightenings
import LatinSquares.LocalSearch.Ignored
import LatinSquares.LocalSearch.RoundTrip

namespace LatinSquares.Generator

open LatinSquares.Math

/-- The lists of an `or_and` are there, and none of them is empty. -/
def Node.Filled (node : Node) : Prop :=
  ∀ var conjs, node = .orAnd var conjs → conjs ≠ [] ∧ ∀ conj ∈ conjs, conj ≠ []

/-- A step that adds no other nodes. -/
abbrev AddsFilled {A : Type} (m : Gen A) : Prop := Keeps (fun s => ∀ node ∈ s.nodes, node.Filled) m

theorem addsFilled_newVariable : AddsFilled newVariable := fun s hs =>
  Yields.of_ensures ((ensures_newVariable s).mono fun _ _ h => h.2 ▸ hs)

theorem addsFilled_addNode {node : Node} (h : node.Filled) : AddsFilled (addNode node) := by
  intro s hs
  refine (yields_addNode node).mono ?_
  rintro _ _ rfl
  exact List.forall_mem_append.mpr ⟨hs, List.forall_mem_singleton.mpr h⟩

theorem addsFilled_iff (v : Nat) (e : Expression) : AddsFilled (iff v e) := by
  cases e with
  | conj cs =>
      exact (Keeps.of_lift _).bind fun args =>
        (addsFilled_addNode (by nofun)).bind fun _ => Keeps.of_pure _
  | clause cj =>
      obtain ⟨clause, isImportant⟩ := cj
      cases clause with
      | disj args => exact (addsFilled_addNode (by nofun)).bind fun _ => Keeps.of_pure _
      | literal l =>
          cases l with
          | notVar name => exact Keeps.of_failure
          | constTrue => exact (addsFilled_addNode (by nofun)).bind fun _ => Keeps.of_pure _
          | constFalse => exact (addsFilled_addNode (by nofun)).bind fun _ => Keeps.of_pure _
          | var name => exact (addsFilled_addNode (by nofun)).bind fun _ => Keeps.of_pure _

theorem addsFilled_symbolPair (mark : Expression → Expression) (exprs : List Expression)
    (q chi : Nat) : AddsFilled (symbolPair mark exprs q chi) := by
  refine (Keeps.mapM fun _ _ => addsFilled_newVariable).bind fun vs => ?_
  refine (Keeps.mapM fun p _ => addsFilled_iff p.2 p.1).bind fun phis => ?_
  exact (addsFilled_iff _ _).bind fun chiExpr => Keeps.of_pure _

/-- The lists of the counter have two literals and one. -/
theorem addsFilled_greaterOrEqualMiddle (v : Nat → Nat) (w : Nat → Nat → Nat) (k i : Nat) :
    AddsFilled (greaterOrEqualMiddle v w k i) := by
  refine (addsFilled_addNode (by nofun)).bind fun _ => ?_
  refine (Keeps.mapM fun j _ => ?_).bind fun second => Keeps.of_pure _
  refine (addsFilled_addNode ?_).bind fun _ => Keeps.of_pure _
  rintro var conjs heq
  cases heq
  simp

theorem addsFilled_greaterOrEqual (vars : List Nat) (k : Nat) :
    AddsFilled (greaterOrEqual vars k) := by
  refine (Keeps.mapM fun _ _ => Keeps.mapM fun _ _ => addsFilled_newVariable).bind fun svars => ?_
  dsimp only
  split
  · exact Keeps.of_pure _
  · refine (Keeps.of_guard _).bind fun _ => ?_
    refine Keeps.bind ?_ fun head => ?_
    · refine (Keeps.mapM fun it _ => ?_).bind fun headNots => ?_
      · exact (addsFilled_addNode (by nofun)).bind fun _ => Keeps.of_pure _
      · exact (addsFilled_addNode (by nofun)).bind fun _ => Keeps.of_pure _
    · refine (Keeps.mapM fun i _ => addsFilled_greaterOrEqualMiddle _ _ _ _).bind fun middle => ?_
      exact Keeps.of_pure _

theorem addsFilled_orthogonalSquare (order : Order) (a b : Matrix) (q : Nat) :
    AddsFilled (orthogonalSquare order a b q) := by
  unfold orthogonalSquare
  split
  · refine (Keeps.mapM fun _ _ => Keeps.mapM fun _ _ => addsFilled_newVariable).bind fun chis => ?_
    refine (Keeps.mapM fun aN _ => ?_).bind fun pairwise => ?_
    · refine (Keeps.mapM fun bN _ => ?_).bind fun row => Keeps.of_pure _
      exact (Keeps.of_lift _).bind fun exprs => addsFilled_symbolPair _ _ _ _
    · refine (Keeps.of_guard _).bind fun _ => Keeps.of_get.bind fun _ => ?_
      exact (addsFilled_greaterOrEqual _ _).bind fun greater => Keeps.of_pure _
  · exact Keeps.of_pure _

theorem addsFilled_breakingSymmetry (vars : List (List Literal)) (firstIndex : Nat) (cycle : Int) :
    AddsFilled (breakingSymmetry vars firstIndex cycle) := by
  refine (Keeps.of_lift _).bind fun cycles => ?_
  refine (Keeps.mapM fun _ _ => addsFilled_newVariable).bind fun vs => ?_
  refine (Keeps.mapM fun p _ => addsFilled_iff _ _).bind fun phis => ?_
  refine Keeps.bind ?_ fun fixed => Keeps.of_pure _
  unfold fixedCycle
  split
  · exact Keeps.of_pure _
  · split
    · exact Keeps.of_failure
    · exact (Keeps.of_lift _).bind fun v => Keeps.of_pure _

namespace LatinSquareEncoder

variable {e : LatinSquareEncoder}

theorem addsFilled_symmetry (core : List Matrix) : AddsFilled (e.symmetry core) := by
  unfold symmetry
  split
  · split
    · exact (Keeps.of_lift _).bind fun square => (Keeps.of_lift _).bind fun row =>
        addsFilled_breakingSymmetry _ _ _
    · exact (Keeps.of_lift _).bind fun square => (Keeps.of_lift _).bind fun row =>
        addsFilled_breakingSymmetry _ _ _
    · exact Keeps.of_pure _
  · exact Keeps.of_pure _

/-- The nodes of a file. -/
theorem yields_filled (order : Order) (hk : 0 < e.k) :
    Yields (e.program order) {} fun f _ => ∀ node ∈ f.net, node.Filled := by
  refine (Yields.of_ensures (ensures_coreVariables hk)).bind ?_
  rintro core s ⟨rfl, rfl⟩
  have hs : ∀ node ∈ e.coreState.nodes, node.Filled := fun _ hnode => absurd hnode List.not_mem_nil
  refine (Yields.of_ensures (Ensures.of_get (Q := fun _ u => u = e.coreState) rfl)).bind ?_
  rintro _ _ rfl
  refine (addsFilled_symmetry _ _ hs).bind fun breaking s hs => ?_
  refine (Keeps.mapM (fun p _ => addsFilled_orthogonalSquare _ _ _ _) s hs).bind
    fun ortho s hs => ?_
  refine (Yields.of_guard (Q := fun _ t => t = s) fun _ => rfl).bind ?_
  rintro _ s rfl
  refine (Yields.of_lift (Q := fun _ t => t = s) fun _ _ => rfl).bind ?_
  rintro args s rfl
  refine (Yields.of_ensures (Ensures.of_get (Q := fun t u => t = s ∧ u = s) ⟨rfl, rfl⟩)).bind ?_
  rintro _ _ ⟨rfl, rfl⟩
  exact Yields.of_pure hs

/-- Some cell of the second square is free. -/
theorem metaVars_ne_nil (hn : 3 ≤ e.n) (hk : 2 ≤ e.k) : e.metaVars e.tables ≠ [] := by
  have hnone : oneHotKind e.reduced 1 1 1 0 = none := by
    cases e.reduced <;> rfl
  have hfree : ∀ k, oneHotKind e.reduced 1 1 1 k ≠ some true := by
    intro k
    cases e.reduced with
    | false => exact nofun
    | true =>
        show (if 1 = k then some false else none) ≠ some true
        split <;> simp
  exact List.ne_nil_of_mem (mem_metaVars_of_free (t := 1) (i := 1) (j := 1) (by omega) (by omega)
    (by omega) ⟨⟨0, by omega, hnone⟩, fun k _ => hfree k⟩)

end LatinSquareEncoder

end LatinSquares.Generator

namespace LatinSquares.LocalSearch

open LatinSquares.Math
open LatinSquares.Generator (BreakingSymmetryType CNF GenState LatinSquareEncoder Order
  VariabledExpression)

variable {e : LatinSquareEncoder} {f : CNF} {s₁ s : GenState} {breaking : Generator.Expression}
variable {ortho : List VariabledExpression} {args : List Generator.Conjunct}

/-- The cells of an encoder can be printed. -/
theorem cellPrintable_of_mem {it : Generator.MetaVariable} (hn : e.n < 2 ^ 8) (hk : e.k ≤ 2 ^ 8)
    (hc : e.coreSize < 2 ^ 31) (hit : it ∈ e.metaVars e.tables) : CellPrintable it := by
  obtain ⟨⟨t, ht, i, hi, j, hj, rfl⟩, -⟩ := LatinSquareEncoder.mem_metaVars.mp hit
  refine ⟨ht.trans_le hk, hi.trans hn, hj.trans hn, fun entry hentry => ?_⟩
  have hwithin := LatinSquareEncoder.cellOf_within ht hi hj
  obtain ⟨hvalue, -, -⟩ := Generator.mem_metaValues.mp hentry
  refine ⟨hvalue.2.trans_lt hn, fun l hl => ?_⟩
  obtain ⟨cs, hequal, hliterals⟩ := Generator.equal_of_mem_metaValues hwithin hentry
  have hproper : (Generator.equal (e.cellOf t i j) entry.1).Proper e.coreSize :=
    Generator.equal_proper_of_within hwithin
  rw [hequal] at hproper
  rw [hliterals] at hl
  obtain ⟨cj, hcj, hl⟩ := List.mem_flatMap.mp hl
  exact ((hproper.2 cj hcj).literals l hl).fits hc

/-- A formula of an encoder can be printed. -/
theorem printable_of_returned (hn : 3 ≤ e.n) (hn' : e.n < 2 ^ 8) (hk : e.k ≤ 2 ^ 8)
    (h : e.Returned f s₁ s breaking ortho args) (hfilled : ∀ node ∈ f.net, node.Filled)
    (hvariables : f.variables_.length + 1 < 2 ^ 31) (hlength : f.clauses.length < 2 ^ 31) :
    Printable f := by
  have hpos : 0 < e.n := by omega
  rw [h.length_variables hpos] at hvariables
  have hcore : e.coreSize ≤ s.varCounter := h.builds.le
  have hsize : s.varCounter < 2 ^ 31 := by omega
  refine ⟨fun cj hcj l hl => ?_, fun v hv => ?_, fun it hit => ?_, fun node hnode => ?_,
    fun weight hweight => ?_, ?_, hlength⟩
  · exact ((h.clauses_proper hpos cj hcj).literals l hl).fits hsize
  · have hcoreVariables : f.coreVariables = List.range' 1 e.coreSize := by
      rw [h.result]
      rfl
    rw [hcoreVariables, List.mem_range'_1] at hv
    omega
  · rw [h.metaVariables] at hit
    exact cellPrintable_of_mem hn' hk (hcore.trans_lt hsize) hit
  · have hproper := net_proper h node hnode
    refine ⟨?_, fun l hl => (hproper.args l hl).fits hsize, hfilled node hnode⟩
    exact (Nat.succ_le_succ hproper.var.2).trans_lt hvariables
  · have hweights : ∀ weight ∈ f.weights, weight = e.n ∨ weight = 1 := by
      rw [h.result]
      intro weight hweight
      rcases List.mem_append.mp hweight with hweight | hweight
      · rcases List.mem_append.mp hweight with hweight | hweight
        · rw [(List.mem_replicate.mp hweight).2]
          split <;> simp
        · exact Or.inr (List.mem_replicate.mp hweight).2
      · exact Or.inr (List.mem_replicate.mp hweight).2
    rcases hweights weight hweight with rfl | rfl
    · exact hn'.trans (by decide)
    · decide
  · rw [h.length_variables hpos]
    exact hsize

/-- The file of an encoder is read as it is printed exactly if all pairs of symbols have to
occur. -/
theorem readDimacs_cnf_iff (order : Order) (reduced weighted : Bool)
    (breaking : BreakingSymmetryType) (cycleNum : Int) {n k q : Nat} (hn : 3 ≤ n) (hn' : n < 2 ^ 8)
    (hk : 2 ≤ k) (hk' : k ≤ 2 ^ 8) {f : CNF}
    (hf : (⟨reduced, weighted, breaking, cycleNum, n, k, q⟩ : LatinSquareEncoder).cnf order =
      some f) (hvariables : f.variables_.length + 1 < 2 ^ 31)
    (hlength : f.clauses.length < 2 ^ 31) :
    readDimacs f.text = some (.ofCNF f) ↔ q = n * n := by
  obtain ⟨s₁, s, breakingExpr, ortho, args, h, hends⟩ :=
    LatinSquareEncoder.exists_returned_netEnds order hn hk hf
  have hq : q ≤ n * n := hends.index
  obtain ⟨_, hfilled⟩ := Generator.of_run' (LatinSquareEncoder.yields_filled order
    (show 0 < k by omega)) hf
  obtain ⟨-, -, hincremental⟩ := LatinSquareEncoder.inScope_of_cnf order hn hk hq hf
  have hprintable : Printable f := printable_of_returned hn hn' hk' h hfilled hvariables hlength
  have hmeta : f.metaVariables ≠ [] := by
    rw [h.metaVariables]
    exact LatinSquareEncoder.metaVars_ne_nil hn hk
  have hpairs : (Generator.squarePairs k).length ≠ 0 :=
    fun hzero => Generator.squarePairs_ne_nil hk (List.length_eq_zero_iff.mp hzero)
  have hnil : f.incremental = [] ↔ q = n * n := by
    rw [← List.length_eq_zero_iff, hincremental, Nat.mul_eq_zero, or_iff_left hpairs]
    change n * n - q = 0 ↔ q = n * n
    omega
  rw [← hnil]
  constructor
  · intro hread
    by_contra hne
    exact lt_irrefl _ (sum_values_lt hprintable hne hmeta hread)
  · intro hskip
    exact readDimacs_of_comments hprintable rfl (foldlM_comments hprintable (Or.inl hskip))

theorem readDimacs_cnf_iff_three :
    ∃ f, (⟨true, false, .none, -1, 3, 2, 9⟩ : LatinSquareEncoder).cnf Order.identity = some f ∧
      readDimacs f.text = some (.ofCNF f) := by
  have hsizes : ((⟨true, false, .none, -1, 3, 2, 9⟩ : LatinSquareEncoder).cnf
      Order.identity).any (fun f => decide (f.variables_.length + 1 < 2 ^ 31 ∧
        f.clauses.length < 2 ^ 31)) = true := by
    decide +kernel
  obtain ⟨f, hf, hsizes⟩ := (Option.any_eq_true _ _).mp hsizes
  obtain ⟨hvariables, hlength⟩ := of_decide_eq_true hsizes
  have hiff := readDimacs_cnf_iff Order.identity true false .none (-1) (by decide) (by decide)
    (by decide) (by decide) hf hvariables hlength
  exact ⟨f, hf, hiff.mpr rfl⟩

end LatinSquares.LocalSearch
