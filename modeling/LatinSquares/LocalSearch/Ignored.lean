/-
# Clauses the local search does not compute

The solver starts from one value for every meta variable and lets the net compute the other
variables. The clauses that are not listed in the line `c toCompute:` are satisfied then:
the cells have one symbol each and the nodes have the values they define.
-/

import LatinSquares.Generator.Cells
import LatinSquares.LocalSearch.Input

namespace LatinSquares.LocalSearch

open LatinSquares.Math
open LatinSquares.Generator (CNF LatinSquareEncoder BreakingSymmetryType Order IsChoice)

/-- The values the constructor gives to the cells before the net computes the others. -/
def chosenUnits (choice : List (Nat × List Generator.Literal)) : Units :=
  setLiterals (fun _ => 2) (choice.flatMap fun entry => entry.2.filterMap readLiteral)

section Evaluation

variable {α : Nat → Bool} {units : Units} {args : List Literal} {number : Nat}

theorem flippedValue_of_eq (h : units number = (α number).toUInt8) :
    flippedValue units number false = α number := by
  unfold flippedValue
  rw [h]
  cases α number <;> decide

namespace Node

theorem andScan_nil (h : ∀ arg ∈ args, units arg.number = (α arg.number).toUInt8) :
    andScan units args [] = args.all fun arg => α arg.number == arg.value := by
  induction args with
  | nil => rfl
  | cons arg args ih =>
      obtain ⟨harg, hargs⟩ := List.forall_mem_cons.mp h
      show (if flippedValue units arg.number false != arg.value then false
        else andScan units args []) = _
      rw [flippedValue_of_eq harg, ih hargs, List.all_cons]
      cases hvalue : α arg.number == arg.value <;> simp [bne, hvalue]

theorem orScan_nil (h : ∀ arg ∈ args, units arg.number = (α arg.number).toUInt8) :
    orScan units args [] = args.any fun arg => α arg.number == arg.value := by
  induction args with
  | nil => rfl
  | cons arg args ih =>
      obtain ⟨harg, hargs⟩ := List.forall_mem_cons.mp h
      show (if flippedValue units arg.number false == arg.value then true
        else orScan units args []) = _
      rw [flippedValue_of_eq harg, ih hargs, List.any_cons]
      cases hvalue : α arg.number == arg.value <;> simp

/-- Without flips a node is evaluated on the values of its arguments. -/
theorem propagate_nil (node : Node)
    (h : ∀ arg ∈ node.args, units arg.number = (α arg.number).toUInt8) :
    node.propagate units [] = node.eval α := by
  cases node with
  | value var b => rfl
  | andIff var args => exact andScan_nil h
  | orIff var args => exact orScan_nil h
  | orAnd var orAndArgs =>
      apply any_congr_of_mem
      intro args hargs
      apply all_congr_of_mem
      intro arg harg
      show (flippedValue units arg.number false == arg.value) = _
      rw [flippedValue_of_eq (h arg (List.mem_flatten_of_mem hargs harg))]

end Node

/-- One pass over nodes whose variables are unknown gives them their values. -/
theorem foldl_evaluate {nodes : List Node} (hordered : Ordered (nodes.map Node.definition))
    (hunknown : ∀ node ∈ nodes, units node.var = 2)
    (hknown : ∀ node ∈ nodes, ∀ arg ∈ node.args, (∀ node' ∈ nodes, node'.var ≠ arg.number) →
      units arg.number = (α arg.number).toUInt8)
    (hnumber : units number = (α number).toUInt8 ∨ ∃ node ∈ nodes, node.var = number) :
    nodes.foldl (fun units node =>
      if units node.var == 2 then
        Function.update units node.var (node.propagate units []).toUInt8
      else units) units number =
        (recompute (nodes.map Node.definition) α number).toUInt8 := by
  induction nodes generalizing units α with
  | nil => exact hnumber.resolve_right (by simp)
  | cons node nodes ih =>
      have hpropagate : node.propagate units [] = node.eval α := by
        apply Node.propagate_nil
        intro arg harg
        apply hknown node List.mem_cons_self arg harg
        intro node' hnode' heq
        have hread := hordered.head_reads node'.definition (List.mem_map_of_mem hnode')
        exact hread (List.mem_map.mpr ⟨arg, harg, heq.symm⟩)
      rw [List.foldl_cons, if_pos (beq_iff_eq.mpr (hunknown node List.mem_cons_self)),
        List.map_cons, recompute_cons, hpropagate]
      have hother : ∀ node' ∈ nodes, node'.var ≠ node.var := fun node' hnode' =>
        ((List.pairwise_cons.mp hordered.forward).1 _ (List.mem_map_of_mem hnode')).2.symm
      have hupdate : ∀ k, units k = (α k).toUInt8 ∨ k = node.var →
          Function.update units node.var (node.eval α).toUInt8 k =
            (Function.update α node.var (node.eval α) k).toUInt8 := by
        intro k hk
        by_cases heq : k = node.var
        · rw [heq, Function.update_self, Function.update_self]
        · rw [Function.update_of_ne heq, Function.update_of_ne heq, hk.resolve_right heq]
      apply ih hordered.tail
      · intro node' hnode'
        rw [Function.update_of_ne (hother node' hnode')]
        exact hunknown node' (List.mem_cons_of_mem _ hnode')
      · intro node' hnode' arg harg hnot
        apply hupdate
        by_cases heq : arg.number = node.var
        · exact Or.inr heq
        · exact Or.inl (hknown node' (List.mem_cons_of_mem _ hnode') arg harg
            (List.forall_mem_cons.mpr ⟨Ne.symm heq, hnot⟩))
      · cases hnumber with
        | inl hvalue => exact Or.inl (hupdate number (Or.inl hvalue))
        | inr hnode =>
            obtain ⟨node', hnode', rfl⟩ := hnode
            cases List.mem_cons.mp hnode' with
            | inl heq => exact Or.inl (hupdate _ (Or.inr (by rw [heq])))
            | inr htail => exact Or.inr ⟨node', htail, rfl⟩

end Evaluation

section Reading

variable {α : Nat → Bool} {c : Nat}

theorem var_readNode (node : Generator.Node) : (readNode node).var = node.var := by
  cases node <;> rfl

theorem readLiteral_of_proper {l : Generator.Literal} (h : l.Proper c) :
    ∃ l', readLiteral l = some l' ∧ (1 ≤ l'.number ∧ l'.number ≤ c) ∧
      ∀ α : Nat → Bool, (α l'.number == l'.value) = l.eval α := by
  cases l with
  | constFalse => exact absurd h Generator.Literal.not_proper_constFalse
  | constTrue => exact absurd h Generator.Literal.not_proper_constTrue
  | var name => exact ⟨_, rfl, Generator.Literal.proper_var.mp h, fun α => by simp⟩
  | notVar name => exact ⟨_, rfl, Generator.Literal.proper_notVar.mp h, fun α => by simp⟩

/-- The literals of a list as they are read. -/
theorem filterMap_readLiteral {ls : List Generator.Literal} (h : ∀ l ∈ ls, l.Proper c) :
    (∀ l ∈ ls.filterMap readLiteral, 1 ≤ l.number ∧ l.number ≤ c) ∧
      (∀ α : Nat → Bool, (ls.filterMap readLiteral).all (fun l => α l.number == l.value) =
        ls.all (Generator.Literal.eval α)) ∧
      ∀ α : Nat → Bool, (ls.filterMap readLiteral).any (fun l => α l.number == l.value) =
        ls.any (Generator.Literal.eval α) := by
  induction ls with
  | nil => simp
  | cons l ls ih =>
      obtain ⟨hl, hls⟩ := List.forall_mem_cons.mp h
      obtain ⟨l', hread, hscope, hvalue⟩ := readLiteral_of_proper hl
      obtain ⟨hrest, hall, hany⟩ := ih hls
      rw [List.filterMap_cons_some hread]
      refine ⟨List.forall_mem_cons.mpr ⟨hscope, hrest⟩, fun α => ?_, fun α => ?_⟩
      · rw [List.all_cons, List.all_cons, hvalue, hall]
      · rw [List.any_cons, List.any_cons, hvalue, hany]

/-- A node means what it is read as. -/
theorem readNode_of_proper {node : Generator.Node} (h : node.Proper c) :
    (∀ arg ∈ (readNode node).args, 1 ≤ arg.number ∧ arg.number ≤ c) ∧
      ∀ α, (readNode node).eval α = node.eval α := by
  cases node with
  | value var b => exact ⟨by simp [readNode, Node.args], fun α => rfl⟩
  | andIff var args =>
      obtain ⟨hscope, hall, -⟩ := filterMap_readLiteral h.args
      exact ⟨hscope, hall⟩
  | orIff var args =>
      obtain ⟨hscope, -, hany⟩ := filterMap_readLiteral h.args
      exact ⟨hscope, hany⟩
  | orAnd var args =>
      have hargs : ∀ ls ∈ args, ∀ l ∈ ls, l.Proper c :=
        fun ls hls l hl => h.args l (List.mem_flatten_of_mem hls hl)
      constructor
      · intro arg harg
        obtain ⟨ls', hls', harg⟩ := List.mem_flatten.mp harg
        obtain ⟨ls, hls, rfl⟩ := List.mem_map.mp hls'
        exact (filterMap_readLiteral (hargs ls hls)).1 arg harg
      · intro α
        show (args.map fun ls => ls.filterMap readLiteral).any _ = args.any _
        rw [List.any_map]
        exact any_congr_of_mem fun ls hls => (filterMap_readLiteral (hargs ls hls)).2.1 α

/-- A clause that holds has a true literal when it is read. -/
theorem propagate_readClause_pos {clause : Generator.Clause} {units : Units}
    (hclause : clause.Proper c) (heval : clause.eval α = true)
    (hunits : ∀ v, 1 ≤ v → v ≤ c → units v = (α v).toUInt8) :
    0 < (readClause clause).propagate units := by
  obtain ⟨l, hl, htrue⟩ := List.any_eq_true.mp heval
  obtain ⟨l', hread, hscope, hvalue⟩ := readLiteral_of_proper (hclause.literals l hl)
  rw [Clause.propagate, List.countP_pos_iff]
  refine ⟨l', List.mem_filterMap.mpr ⟨l, hl, hread⟩, ?_⟩
  rw [hunits _ hscope.1 hscope.2]
  rw [← hvalue α, beq_iff_eq] at htrue
  rw [htrue, beq_self_eq_true]

end Reading

section Start

variable {e : LatinSquareEncoder} {f : CNF} {s₁ s : Generator.GenState}
variable {breaking : Generator.Expression} {ortho : List Generator.VariabledExpression}
variable {args : List Generator.Conjunct} {choice : List (Nat × List Generator.Literal)}
variable {α : Nat → Bool} {net : Net} {v : Nat}

theorem chosen_proper (hchoice : IsChoice (e.metaVars e.tables) choice) :
    ∀ entry ∈ choice, ∀ l ∈ entry.2, l.Proper e.coreSize := by
  intro entry hentry l hl
  obtain ⟨hlength, hmem⟩ := List.forall₂_iff_zip.mp hchoice
  rw [← List.map_snd_zip hlength.ge] at hentry
  obtain ⟨⟨it, entry⟩, hp, rfl⟩ := List.mem_map.mp hentry
  have hit := (List.of_mem_zip hp).1
  have hwithin := LatinSquareEncoder.metaVars_within it hit entry (hmem hp) l hl
  obtain ⟨⟨t, ht, i, hi, j, hj, rfl⟩, -⟩ := LatinSquareEncoder.mem_metaVars.mp hit
  obtain ⟨-, hliterals, -⟩ := Generator.mem_metaValues.mp (hmem hp)
  have hl : l ∈ entry.2 := hl
  rw [hliterals] at hl
  have hconst := (List.mem_filter.mp hl).2
  rw [decide_eq_true_eq] at hconst
  exact hwithin.proper hconst.1 hconst.2

/-- The values of the cells, once the constructor has set them. -/
theorem chosenUnits_eq (hn : 3 ≤ e.n) (hchoice : IsChoice (e.metaVars e.tables) choice)
    (hα : ∀ entry ∈ choice, ∀ l ∈ entry.2, l.eval α = true) :
    chosenUnits choice v = if 1 ≤ v ∧ v ≤ e.coreSize then (α v).toUInt8 else 2 := by
  have hproper := chosen_proper hchoice
  have htrue : ∀ l ∈ choice.flatMap fun entry => entry.2.filterMap readLiteral,
      α l.number = l.value := by
    intro l hl
    obtain ⟨entry, hentry, hl⟩ := List.mem_flatMap.mp hl
    obtain ⟨l₀, hl₀, hread⟩ := List.mem_filterMap.mp hl
    obtain ⟨l', hread', -, hvalue⟩ := readLiteral_of_proper (hproper entry hentry l₀ hl₀)
    obtain rfl : l' = l := Option.some.inj (hread'.symm.trans hread)
    exact beq_iff_eq.mp ((hvalue α).trans (hα entry hentry l₀ hl₀))
  have hmem : v ∈ (choice.flatMap fun entry => entry.2.filterMap readLiteral).map Literal.number ↔
      1 ≤ v ∧ v ≤ e.coreSize := by
    constructor
    · intro hv
      obtain ⟨l, hl, rfl⟩ := List.mem_map.mp hv
      obtain ⟨entry, hentry, hl⟩ := List.mem_flatMap.mp hl
      exact (filterMap_readLiteral (hproper entry hentry)).1 l hl
    · rintro ⟨hv, hle⟩
      obtain ⟨entry, hentry, hname⟩ :=
        LatinSquareEncoder.exists_mem_chosen hn hchoice hv hle
      obtain ⟨l, hl, hname⟩ := List.mem_flatMap.mp hname
      have hread : ∃ l', readLiteral l = some l' ∧ l'.number = v := by
        cases l with
        | constFalse => cases hname
        | constTrue => cases hname
        | var name => exact ⟨_, rfl, (List.mem_singleton.mp hname).symm⟩
        | notVar name => exact ⟨_, rfl, (List.mem_singleton.mp hname).symm⟩
      obtain ⟨l', hread, rfl⟩ := hread
      exact List.mem_map_of_mem (List.mem_flatMap.mpr ⟨entry, hentry,
        List.mem_filterMap.mpr ⟨l, hl, hread⟩⟩)
  rw [chosenUnits, setLiterals_eq htrue]
  simp only [hmem]

theorem perm_vars (h : e.Returned f s₁ s breaking ortho args) :
    ((f.net.map readNode).map Node.var).Perm (Generator.fresh e.coreState s) := by
  obtain ⟨nodes, hnodes, hvars, -⟩ := h.builds.emitted
  have hnet : f.net = nodes := h.net.trans hnodes
  rw [List.append_nil] at hvars
  have hmap : (nodes.map readNode).map Node.var = nodes.map Generator.Node.var := by
    rw [List.map_map]
    exact List.map_congr_left fun node _ => var_readNode node
  rw [hnet, hmap]
  exact hvars

/-- The variables of the nodes are those past the core variables. -/
theorem mem_vars_iff (h : e.Returned f s₁ s breaking ortho args) :
    v ∈ (f.net.map readNode).map Node.var ↔ e.coreSize < v ∧ v ≤ s.varCounter := by
  rw [(perm_vars h).mem_iff, Generator.mem_fresh]
  rfl

theorem vars_nodup (h : e.Returned f s₁ s breaking ortho args) :
    ((f.net.map readNode).map Node.var).Nodup :=
  (perm_vars h).nodup_iff.mpr List.nodup_range'

theorem net_proper (h : e.Returned f s₁ s breaking ortho args) :
    ∀ node ∈ f.net, node.Proper s.varCounter := by
  obtain ⟨nodes, hnodes, -, hproper, -⟩ := h.builds.emitted
  have hnet : f.net = nodes := h.net.trans hnodes
  rwa [hnet]

/-- The values the net computes: those of the cells, and for the others the values the
nodes define. -/
theorem evaluate_chosenUnits (hn : 3 ≤ e.n) (h : e.Returned f s₁ s breaking ortho args)
    (hchoice : IsChoice (e.metaVars e.tables) choice)
    (hα : ∀ entry ∈ choice, ∀ l ∈ entry.2, l.eval α = true)
    (hnet : Net.Finalizes (f.net.map readNode) net) (hv : 1 ≤ v) (hle : v ≤ s.varCounter) :
    net.evaluate (chosenUnits choice) v = (recompute net.definitions α v).toUInt8 := by
  have hmem : ∀ v, (∃ node ∈ net.finalized, node.var = v) ↔ e.coreSize < v ∧ v ≤ s.varCounter := by
    intro v
    rw [← mem_vars_iff h, ← List.mem_map, (hnet.perm.map Node.var).mem_iff]
  have hunits := fun v => chosenUnits_eq hn hchoice hα (v := v)
  apply foldl_evaluate (hnet.ordered (vars_nodup h))
  · intro node hnode
    have hscope := (hmem node.var).mp ⟨node, hnode, rfl⟩
    rw [hunits, if_neg (by omega)]
  · intro node hnode arg harg hnot
    obtain ⟨node₀, hnode₀, rfl⟩ := List.mem_map.mp (hnet.perm.mem_iff.mp hnode)
    have hscope := (readNode_of_proper (net_proper h node₀ hnode₀)).1 arg harg
    have hcore : arg.number ≤ e.coreSize := by
      by_contra hlt
      obtain ⟨node', hnode', heq⟩ := (hmem arg.number).mpr ⟨not_le.mp hlt, hscope.2⟩
      exact hnot node' hnode' heq
    rw [hunits, if_pos ⟨hscope.1, hcore⟩]
  · by_cases hcore : v ≤ e.coreSize
    · exact Or.inl (by rw [hunits, if_pos ⟨hv, hcore⟩])
    · exact Or.inr ((hmem v).mpr ⟨not_le.mp hcore, hle⟩)

/-- The squares of a choice, and values of the other variables that respect the net. -/
theorem exists_described_respects (hn : 3 ≤ e.n) (h : e.Returned f s₁ s breaking ortho args)
    (hchoice : IsChoice (e.metaVars e.tables) choice)
    (hnet : Net.Finalizes (f.net.map readNode) net) :
    ∃ β F, e.Describes β F ∧ (∀ node ∈ f.net, node.Holds β) ∧
      ∀ v, 1 ≤ v → v ≤ s.varCounter → net.evaluate (chosenUnits choice) v = (β v).toUInt8 := by
  obtain ⟨α, F, hF, hα⟩ := LatinSquareEncoder.exists_described hn hchoice
  have hrespects := respects_recompute (hnet.ordered (vars_nodup h)) α
  refine ⟨recompute net.definitions α, F, ?_, fun node hnode => ?_, fun v hv hle =>
    evaluate_chosenUnits hn h hchoice hα hnet hv hle⟩
  · refine (LatinSquareEncoder.describes_dependsUpTo F fun v hv => ?_).mp hF
    apply recompute_of_not_target
    intro d hd heq
    obtain ⟨node, hnode, rfl⟩ := List.mem_map.mp hd
    have hscope := (mem_vars_iff h).mp
      (List.mem_map_of_mem (f := Node.var) (hnet.perm.mem_iff.mp hnode))
    have heq : node.var = v := heq
    omega
  · have hmem := hnet.perm.mem_iff.mpr (List.mem_map_of_mem (f := readNode) hnode)
    have hvalue := hrespects (readNode node).definition (List.mem_map_of_mem hmem)
    have hread := (readNode_of_proper (net_proper h node hnode)).2
      (recompute net.definitions α)
    rw [Generator.Node.Holds, ← hread, ← var_readNode]
    exact hvalue

end Start

/-- Whatever values are chosen for the cells, once the net has computed the other variables
every clause that is not listed in `c toCompute:` is satisfied. -/
theorem ignored_clauses_satisfied (order : Order) (reduced weighted : Bool)
    (breaking : BreakingSymmetryType) (cycleNum : Int) {n k q : Nat} (hn : 3 ≤ n) (hk : 2 ≤ k)
    (hq : q ≤ n * n) {f : CNF}
    (hf : (⟨reduced, weighted, breaking, cycleNum, n, k, q⟩ : LatinSquareEncoder).cnf order =
      some f) {choice : List (Nat × List Generator.Literal)}
    (hchoice : IsChoice f.metaVariables choice) {net : Net}
    (hnet : Net.Finalizes (f.net.map readNode) net) :
    ∀ i (hi : i < f.clauses.length), i ∉ f.toCompute →
      0 < (readClause f.clauses[i].clause).propagate (net.evaluate (chosenUnits choice)) := by
  obtain ⟨s, s₁, breakingExpr, ortho, args, h⟩ :=
    Generator.of_run' (LatinSquareEncoder.yields_returned order hn hk hq) hf
  rw [h.metaVariables] at hchoice
  obtain ⟨β, F, hF, hnodes, hvalues⟩ := exists_described_respects hn h hchoice hnet
  intro i hi hignored
  have himportant : f.clauses[i].isImportant = false := by
    by_contra himportant
    apply hignored
    rw [CNF.toCompute, List.mem_filter, List.mem_range, List.getD_eq_getElem _ _ hi]
    exact ⟨hi, by simpa using himportant⟩
  have heval := h.ignored_hold hn hF hnodes _ (List.getElem_mem hi) himportant
  have hproper := h.clauses_proper (show 0 < n by omega) _ (List.getElem_mem hi)
  exact propagate_readClause_pos hproper heval hvalues

theorem ignored_clauses_satisfied_three :
    ∃ f choice net, (⟨true, false, .first, -1, 3, 2, 8⟩ : LatinSquareEncoder).cnf
        Order.identity = some f ∧ IsChoice f.metaVariables choice ∧
      Net.Finalizes (f.net.map readNode) net ∧
      ∀ i (hi : i < f.clauses.length), i ∉ f.toCompute →
        0 < (readClause f.clauses[i].clause).propagate (net.evaluate (chosenUnits choice)) := by
  have hnodes : (((⟨true, false, .first, -1, 3, 2, 8⟩ : LatinSquareEncoder).program
      Order.identity).run {}).any (fun p => decide (∀ node ∈ p.2.nodes.map readNode,
        (Net.depth (p.2.nodes.map readNode) 12 node).isSome = true)) = true := by
    decide +kernel
  obtain ⟨⟨f, s⟩, hrun, hdepth⟩ := (Option.any_eq_true _ _).mp hnodes
  have hf : (⟨true, false, .first, -1, 3, 2, 8⟩ : LatinSquareEncoder).cnf Order.identity =
      some f := run'_of_run hrun
  obtain ⟨s₁, breaking, ortho, args, h⟩ :=
    LatinSquareEncoder.yields_returned (e := ⟨true, false, .first, -1, 3, 2, 8⟩) Order.identity
      (by decide) (by decide) (by decide) f s hrun
  obtain ⟨choice, hchoice⟩ := h.exists_choice
  have hnet : f.net = s.nodes := by
    rw [h.result]
    rfl
  have hfinalizes : Net.Finalizes (f.net.map readNode) (Net.sortedNet 12 (f.net.map readNode)) := by
    rw [hnet]
    exact Net.finalizes_sortedNet fun node hnode =>
      Option.isSome_iff_exists.mp (of_decide_eq_true hdepth node hnode)
  exact ⟨f, choice, _, hf, hchoice, hfinalizes,
    ignored_clauses_satisfied Order.identity true false .first (-1) (by decide) (by decide)
      (by decide) hf hchoice hfinalizes⟩

end LatinSquares.LocalSearch
