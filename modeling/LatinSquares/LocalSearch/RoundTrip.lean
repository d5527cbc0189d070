/-
# What the local search reads of a printed formula

The printer and the reader agree on every section but one. The reader does not know the heading
of the incremental expressions. Where the section of the meta variables is open, it takes their
lines for further values of the last cell; elsewhere it skips them.
-/

import LatinSquares.Generator.Printing
import LatinSquares.Generator.Scope
import LatinSquares.LocalSearch.Dimacs
import LatinSquares.LocalSearch.Input

namespace LatinSquares.LocalSearch

open LatinSquares.Math
open LatinSquares.Generator (CNF joinToString commentLines)

/-- A node comes in, and `variable_to_node` leads to it. -/
def NetReader.add (r : NetReader) (node : Node) : NetReader where
  nodes := r.nodes ++ [node]
  variableToNode := (resize (max r.variableToNode.length (node.var + 1)) none
    r.variableToNode).set node.var (some r.nodes.length)

/-- The nodes and `variable_to_node` once they have been read. -/
def NetReader.ofNodes (nodes : List Node) : NetReader := nodes.foldl NetReader.add {}

/-- What `readDimacs` should find in the text of a formula. -/
def Dimacs.ofCNF (cnf : CNF) : Dimacs where
  clauses := cnf.clauses.map fun c => readClause c.clause
  literalCount := UInt32.ofNat cnf.variables_.length
  coreVariables := cnf.coreVariables.map fun v => ⟨v, true⟩
  metaVars := cnf.metaVariables.map readMetaVariable
  net := NetReader.ofNodes (cnf.net.map readNode)
  weights := cnf.weights.map UInt32.ofNat
  toCompute := cnf.toCompute.map UInt32.ofNat

/-- The literals of a node are printed as numbers, and no list of an `or_and` is empty. -/
def NodePrintable (node : Generator.Node) : Prop :=
  node.var + 1 < 2 ^ 31 ∧ (∀ l ∈ node.args, l.Fits) ∧
    ∀ var conjs, node = .orAnd var conjs → conjs ≠ [] ∧ ∀ conj ∈ conjs, conj ≠ []

/-- The indices and the values of a cell have 8 bits. -/
def CellPrintable (m : Generator.MetaVariable) : Prop :=
  m.matrix < 2 ^ 8 ∧ m.row < 2 ^ 8 ∧ m.column < 2 ^ 8 ∧
    ∀ entry ∈ m.values, entry.1 < 2 ^ 8 ∧ ∀ l ∈ entry.2, l.Fits

/-- All literals are those of variables, and all numbers have the sizes of their types. -/
structure Printable (cnf : CNF) : Prop where
  clauses : ∀ c ∈ cnf.clauses, ∀ l ∈ c.clause.args, l.Fits
  core : ∀ v ∈ cnf.coreVariables, 0 < v ∧ v < 2 ^ 31
  cells : ∀ m ∈ cnf.metaVariables, CellPrintable m
  net : ∀ node ∈ cnf.net, NodePrintable node
  weights : ∀ weight ∈ cnf.weights, weight < 2 ^ 31
  variables_ : cnf.variables_.length < 2 ^ 31
  length : cnf.clauses.length < 2 ^ 31

section Net

/-- `variable_to_node` is as long as the largest variable asks for, and it leads to the last node
of a variable. -/
structure NetReader.Leads (r : NetReader) : Prop where
  length : r.variableToNode.length = Net.variableToNodeSize r.nodes
  lt : ∀ (k i : Nat), r.variableToNode[k]?.join = some i → i < r.nodes.length
  node : ∀ k : Nat, (r.variableToNode[k]?.join.bind fun i => r.nodes[i]?) = Net.nodeOf r.nodes k

variable {r : NetReader} {node : Node} {nodes : List Node}

theorem variableToNodeSize_append (nodes : List Node) (node : Node) :
    Net.variableToNodeSize (nodes ++ [node]) =
      max (Net.variableToNodeSize nodes) (node.var + 1) := by
  simp [Net.variableToNodeSize]

theorem nodeOf_append (nodes : List Node) (node : Node) (k : Nat) :
    Net.nodeOf (nodes ++ [node]) k = if node.var = k then some node else Net.nodeOf nodes k := by
  by_cases hk : node.var = k <;> simp [Net.nodeOf, hk]

/-- The table after a node, at any index. -/
theorem NetReader.join_add (r : NetReader) (node : Node) (k : Nat) :
    (r.add node).variableToNode[k]?.join =
      if node.var = k then some r.nodes.length else r.variableToNode[k]?.join := by
  have hlength : r.variableToNode.length ≤ max r.variableToNode.length (node.var + 1) :=
    le_max_left _ _
  have hvar : node.var < max r.variableToNode.length (node.var + 1) := by omega
  unfold add resize
  rw [List.take_of_length_le hlength, List.getElem?_set]
  by_cases hk : node.var = k
  · simp [hk]
  · rw [if_neg hk, if_neg hk, List.getElem?_append]
    split
    · rfl
    · next hge =>
        rw [List.getElem?_replicate, List.getElem?_eq_none (not_lt.mp hge)]
        split <;> rfl

theorem NetReader.Leads.add (h : r.Leads) : (r.add node).Leads where
  length := by
    change ((resize _ none r.variableToNode).set _ _).length = _
    rw [List.length_set, show (r.add node).nodes = r.nodes ++ [node] from rfl,
      variableToNodeSize_append, ← h.length, resize, List.length_append, List.length_take,
      List.length_replicate]
    omega
  lt k i hi := by
    change i < (r.nodes ++ [node]).length
    rw [r.join_add] at hi
    rw [List.length_append, List.length_singleton]
    split at hi
    · cases hi
      exact Nat.lt_succ_self _
    · exact Nat.lt_succ_of_lt (h.lt k i hi)
  node k := by
    change (_ : Option Nat).bind (fun i => (r.nodes ++ [node])[i]?) =
      Net.nodeOf (r.nodes ++ [node]) k
    rw [r.join_add, nodeOf_append]
    split
    · simp
    · rw [← h.node k]
      cases hi : r.variableToNode[k]?.join with
      | none => rfl
      | some i => exact List.getElem?_append_left (h.lt k i hi)

/-- The table that `parse_node` builds leads where the net looks its nodes up. -/
theorem NetReader.leads_foldl (h : r.Leads) : (nodes.foldl NetReader.add r).Leads := by
  induction nodes generalizing r with
  | nil => exact h
  | cons node nodes ih => exact ih h.add

theorem NetReader.nodes_foldl (r : NetReader) (nodes : List Node) :
    (nodes.foldl NetReader.add r).nodes = r.nodes ++ nodes := by
  induction nodes generalizing r with
  | nil => exact (List.append_nil _).symm
  | cons node nodes ih =>
      rw [List.foldl_cons, ih]
      exact List.append_assoc _ _ _

theorem NetReader.leads_ofNodes (nodes : List Node) : (NetReader.ofNodes nodes).Leads :=
  leads_foldl ⟨rfl, nofun, fun _ => rfl⟩

theorem NetReader.nodes_ofNodes (nodes : List Node) : (NetReader.ofNodes nodes).nodes = nodes :=
  nodes_foldl {} nodes

end Net

section Literals

variable {l : Generator.Literal} {ls : List Generator.Literal}

/-- A printed literal is read as it is. -/
theorem ofDimacs_signed (h : l.Fits) :
    some (Literal.ofDimacs (signed l.number.1 l.number.2)) = readLiteral l := by
  have hpos := h.1
  cases l with
  | constFalse => exact absurd hpos (Nat.lt_irrefl 0)
  | constTrue => exact absurd hpos (Nat.lt_irrefl 0)
  | var name =>
      change 0 < name at hpos
      simp [Generator.Literal.number, signed, Literal.ofDimacs, readLiteral, hpos]
  | notVar name => simp [Generator.Literal.number, signed, Literal.ofDimacs, readLiteral]

theorem filterMap_readLiteral_of_fits (h : ∀ l ∈ ls, l.Fits) :
    ls.filterMap readLiteral =
      ls.map fun l => Literal.ofDimacs (signed l.number.1 l.number.2) := by
  rw [← List.filterMap_eq_map]
  exact List.filterMap_congr fun l hl => (ofDimacs_signed (h l hl)).symm

theorem lt_of_fits (h : ∀ l ∈ ls, l.Fits) :
    ∀ x ∈ ls.map Generator.Literal.number, x.2 < 2 ^ 31 := by
  intro x hx
  obtain ⟨l, hl, rfl⟩ := List.mem_map.mp hx
  exact (h l hl).2

theorem texts_of_fits (h : ∀ l ∈ ls, l.Fits) : ls.map Generator.Literal.text =
    (ls.map Generator.Literal.number).map fun x => signedNumeral x.1 x.2 := by
  rw [List.map_map]
  exact List.map_congr_left fun l hl => (h l hl).text

/-- Literals on a line are read one by one. -/
theorem readLiterals_texts (h : ∀ l ∈ ls, l.Fits) :
    readLiterals (some (' ' :: joinToString [' '] [] [] (ls.map Generator.Literal.text))) =
      ls.filterMap readLiteral := by
  rw [readLiterals, Generator.joinToString_blank, texts_of_fits h, readInts_unwords (lt_of_fits h),
    filterMap_readLiteral_of_fits h, List.map_map, List.map_map]
  rfl

theorem unwords_append {words words' : List (List Char)} (hwords : words ≠ [])
    (hwords' : words' ≠ []) :
    unwords (words ++ words') = unwords words ++ ' ' :: unwords words' := by
  obtain ⟨word, words, rfl⟩ := List.exists_cons_of_ne_nil hwords
  obtain ⟨word', words', rfl⟩ := List.exists_cons_of_ne_nil hwords'
  rw [List.cons_append, unwords_cons, unwords_cons, unwords_cons, List.flatMap_append,
    List.flatMap_cons]
  simp

/-- The lists of an `or_and` are printed with a zero behind each of them. -/
theorem orAnd_text {conjs : List (List Generator.Literal)} (hne : conjs ≠ [])
    (hconjs : ∀ conj ∈ conjs, conj ≠ []) :
    joinToString " 0 ".toList [] " 0".toList
        (conjs.map fun conj => joinToString [' '] [] [] (conj.map Generator.Literal.text)) =
      unwords (conjs.flatMap fun conj => conj.map Generator.Literal.text ++ [['0']]) := by
  have hzero : unwords [['0']] = ['0'] := rfl
  induction conjs with
  | nil => exact absurd rfl hne
  | cons conj conjs ih =>
      obtain ⟨hconj, hconjs⟩ := List.forall_mem_cons.mp hconjs
      have hconj : conj.map Generator.Literal.text ≠ [] := mt List.map_eq_nil_iff.mp hconj
      cases conjs with
      | nil =>
          rw [List.map_singleton, Generator.joinToString_singleton, List.flatMap_singleton,
            unwords_append hconj (List.cons_ne_nil _ _), Generator.joinToString_blank, hzero]
          rfl
      | cons next conjs =>
          have hrest := ih (List.cons_ne_nil _ _) hconjs
          have hnonempty : ((next :: conjs).flatMap fun conj =>
              conj.map Generator.Literal.text ++ [['0']]) ≠ [] := by
            simp
          have hfirst : conj.map Generator.Literal.text ++ [['0']] ≠ [] := by simp
          have hwords := unwords_append hfirst hnonempty
          rw [List.map_cons] at hrest
          rw [List.map_cons, List.map_cons, Generator.joinToString_cons_cons, hrest,
            show (conj :: next :: conjs).flatMap _ = _ from List.flatMap_cons, hwords,
            unwords_append hconj (List.cons_ne_nil _ _), Generator.joinToString_blank, hzero]
          simp

theorem orAndLists_append (currentArgs : List Literal) {numbers : List Int}
    (hnumbers : ∀ x ∈ numbers, x ≠ 0) (rest : List Int) :
    orAndLists currentArgs (numbers ++ 0 :: rest) =
      (currentArgs ++ numbers.map Literal.ofDimacs) :: orAndLists [] rest := by
  induction numbers generalizing currentArgs with
  | nil => simp [orAndLists]
  | cons x numbers ih =>
      obtain ⟨hx, hnumbers⟩ := List.forall_mem_cons.mp hnumbers
      rw [List.cons_append, orAndLists, if_neg hx, ih _ hnumbers]
      simp

/-- The lists of an `or_and` are read back. -/
theorem orAndLists_texts {conjs : List (List Generator.Literal)} (hne : conjs ≠ [])
    (hconjs : ∀ conj ∈ conjs, conj ≠ []) (h : ∀ conj ∈ conjs, ∀ l ∈ conj, l.Fits) :
    orAndLists [] (readInts (' ' :: joinToString " 0 ".toList [] " 0".toList
        (conjs.map fun conj => joinToString [' '] [] [] (conj.map Generator.Literal.text)))) =
      conjs.map fun conj => conj.filterMap readLiteral := by
  have hzero : signedNumeral true 0 = ['0'] := rfl
  have htexts : (conjs.flatMap fun conj => conj.map Generator.Literal.text ++ [['0']]) =
      (conjs.flatMap fun conj => conj.map Generator.Literal.number ++ [(true, 0)]).map
        fun x => signedNumeral x.1 x.2 := by
    rw [List.map_flatMap]
    exact List.flatMap_congr fun conj hconj => by
      rw [texts_of_fits (h conj hconj), List.map_append, List.map_singleton, hzero]
  rw [orAnd_text hne hconjs, htexts, readInts_unwords]
  · clear hne hconjs htexts
    induction conjs with
    | nil => rfl
    | cons conj conjs ih =>
        obtain ⟨hconj, h⟩ := List.forall_mem_cons.mp h
        have hnumbers : ∀ x ∈ conj.map fun l => signed l.number.1 l.number.2, x ≠ 0 := by
          intro x hx
          obtain ⟨l, hl, rfl⟩ := List.mem_map.mp hx
          have hpos := (hconj l hl).1
          unfold signed
          split <;> omega
        have hlist := orAndLists_append [] hnumbers ((conjs.flatMap fun conj =>
          conj.map Generator.Literal.number ++ [(true, 0)]).map fun x => signed x.1 x.2)
        rw [ih h, List.nil_append, List.map_map] at hlist
        rw [List.map_cons, filterMap_readLiteral_of_fits hconj, List.flatMap_cons, List.map_append,
          List.map_append, List.map_map, List.append_assoc]
        exact hlist
  · intro x hx
    obtain ⟨conj, hconj, hx⟩ := List.mem_flatMap.mp hx
    rcases List.mem_append.mp hx with hx | hx
    · exact lt_of_fits (h conj hconj) x hx
    · rw [List.mem_singleton.mp hx]
      decide

end Literals

section Integers

theorem uint32_ofInt_natCast (number : Nat) :
    UInt32.ofInt (number : Int) = UInt32.ofNat number := by
  rw [← UInt32.toNat_inj, UInt32.ofInt, UInt32.toNat_ofNat', UInt32.toNat_ofNat']
  omega

theorem uint8_ofInt_natCast (number : Nat) : UInt8.ofInt (number : Int) = UInt8.ofNat number := by
  rw [← UInt8.toNat_inj, UInt8.ofInt, UInt8.toNat_ofNat', UInt8.toNat_ofNat']
  omega

end Integers

section Headings

variable {line : List Char}

/-- The headings start with `c`, and none of them has another third character. -/
theorem ofHeading_of_third (h : ∀ c ∈ (line)[2]?, c ∉ "cmiwt".toList) :
    Parameter.ofHeading line = none := by
  unfold Parameter.ofHeading
  split_ifs with hcore hnet hmeta hincremental hweights hcompute
  · exact absurd (h 'c' (by rw [hcore]; rfl)) (by decide)
  · exact absurd (h 'c' (by rw [hnet]; rfl)) (by decide)
  · exact absurd (h 'm' (by rw [hmeta]; rfl)) (by decide)
  · exact absurd (h 'i' (by rw [hincremental]; rfl)) (by decide)
  · exact absurd (h 'w' (by rw [hweights]; rfl)) (by decide)
  · exact absurd (h 't' (by rw [hcompute]; rfl)) (by decide)
  · rfl

theorem not_mem_of_isDigit {c : Char} (h : c.isDigit = true) : c ∉ "cmiwt".toList := by
  intro hmem
  obtain rfl | rfl | rfl | rfl | rfl : c = 'c' ∨ c = 'm' ∨ c = 'i' ∨ c = 'w' ∨ c = 't' := by
    simpa using hmem
  all_goals exact absurd h (by decide)

/-- A line that goes on with a numeral is no heading. -/
theorem ofHeading_numeral (number : Nat) (rest : List Char) :
    Parameter.ofHeading ('c' :: ' ' :: (numeral number ++ rest)) = none := by
  obtain ⟨c, cs, heq, hdigit⟩ := exists_numeral_eq_cons number
  apply ofHeading_of_third
  rw [heq]
  intro d hd
  obtain rfl := Option.some.inj hd
  exact not_mem_of_isDigit hdigit

theorem ofHeading_numbers (numbers : List Nat) :
    Parameter.ofHeading ('c' :: numbers.flatMap fun number => ' ' :: numeral number) = none := by
  cases numbers with
  | nil => rfl
  | cons number numbers => exact ofHeading_numeral number _

/-- The numbers of a line. -/
theorem numbers_numerals {numbers : List Nat} (h : ∀ number ∈ numbers, number < 2 ^ 31) :
    Reader.numbers ('c' :: numbers.flatMap fun number => ' ' :: numeral number) =
      numbers.map fun number : Nat => (number : Int) := by
  have hword : readWord ('c' :: numbers.flatMap fun number => ' ' :: numeral number) =
      some (['c'], numbers.flatMap fun number => ' ' :: numeral number) := by
    cases numbers <;> rfl
  have hfits : ∀ x ∈ numbers.map fun number => (true, number), x.2 < 2 ^ 31 := by
    intro x hx
    obtain ⟨number, hnumber, rfl⟩ := List.mem_map.mp hx
    exact h number hnumber
  have hnone : readInt [] = none := rfl
  have hread := readInts_numerals hfits hnone nofun
  rw [List.append_nil, List.flatMap_map, List.map_map] at hread
  rw [Reader.numbers, hword]
  exact hread

end Headings

section Sections

variable {cnf : CNF} {r : Reader}

theorem readLine_of_heading {line : List Char} {parameter : Parameter}
    (h : Parameter.ofHeading line = some parameter) :
    r.readLine line = some { r with parameter } := by
  rw [Reader.readLine, h]

/-- The section of the core variables. -/
theorem foldlM_coreLines (h : ∀ v ∈ cnf.coreVariables, 0 < v ∧ v < 2 ^ 31)
    (hr : r.parameter = .nothing) :
    cnf.coreLines.foldlM Reader.readLine r =
      some { r with
        coreVariables := r.coreVariables ++ cnf.coreVariables.map fun v => ⟨v, true⟩ } := by
  unfold CNF.coreLines
  split
  · next hnil =>
      rw [List.isEmpty_iff.mp hnil, List.map_nil, List.append_nil]
      rfl
  · next hne =>
      have hline : "c ".toList ++ unwords (cnf.coreVariables.map numeral) =
          'c' :: cnf.coreVariables.flatMap fun v => ' ' :: numeral v := by
        obtain ⟨v, vs, hcore⟩ := List.exists_cons_of_ne_nil (mt List.isEmpty_iff.mpr hne)
        rw [hcore, List.map_cons, unwords_cons, List.flatMap_map]
        rfl
      have hliterals : (cnf.coreVariables.map fun v : Nat => (v : Int)).map Literal.ofDimacs =
          cnf.coreVariables.map fun v => ⟨v, true⟩ := by
        rw [List.map_map]
        refine List.map_congr_left fun v hv => ?_
        have hpos := (h v hv).1
        simp [Literal.ofDimacs, hpos]
      rw [List.foldlM_cons, readLine_of_heading rfl, hline]
      simp only [Option.bind_eq_bind, Option.bind_some, List.foldlM_cons, List.foldlM_nil,
        Reader.readLine, ofHeading_numbers, numbers_numerals fun v hv => (h v hv).2, hliterals]
      rw [← hr]
      rfl

theorem foldlM_weightsLines (h : ∀ weight ∈ cnf.weights, weight < 2 ^ 31) :
    cnf.weightsLines.foldlM Reader.readLine r =
      some { r with
        parameter := if cnf.weights.isEmpty then r.parameter else .nothing
        weights := r.weights ++ cnf.weights.map UInt32.ofNat } := by
  unfold CNF.weightsLines
  split
  · next hnil =>
      rw [List.isEmpty_iff.mp hnil, List.map_nil, List.append_nil]
      rfl
  · have hweights : (cnf.weights.map fun weight : Nat => (weight : Int)).map UInt32.ofInt =
        cnf.weights.map UInt32.ofNat := by
      rw [List.map_map]
      exact List.map_congr_left fun weight _ => uint32_ofInt_natCast weight
    rw [List.foldlM_cons, readLine_of_heading rfl]
    simp only [Option.bind_eq_bind, Option.bind_some, List.foldlM_cons, List.foldlM_nil,
      Reader.readLine, ofHeading_numbers, numbers_numerals h, hweights]
    rfl

theorem foldlM_toComputeLines (h : cnf.clauses.length < 2 ^ 31) :
    cnf.toComputeLines.foldlM Reader.readLine r =
      some { r with
        parameter := .nothing
        toCompute := r.toCompute ++ cnf.toCompute.map UInt32.ofNat } := by
  have hlt : ∀ i ∈ cnf.toCompute, i < 2 ^ 31 := by
    intro i hi
    exact (List.mem_range.mp (List.mem_filter.mp hi).1).trans h
  have hindices : (cnf.toCompute.map fun i : Nat => (i : Int)).map UInt32.ofInt =
      cnf.toCompute.map UInt32.ofNat := by
    rw [List.map_map]
    exact List.map_congr_left fun i _ => uint32_ofInt_natCast i
  rw [CNF.toComputeLines, List.foldlM_cons, readLine_of_heading rfl]
  simp only [Option.bind_eq_bind, Option.bind_some, List.foldlM_cons, List.foldlM_nil,
    Reader.readLine, ofHeading_numbers, numbers_numerals hlt, hindices]
  rfl

/-- A line of the net. -/
theorem parseNode_text {node : Generator.Node} (h : NodePrintable node) (r : NetReader) :
    r.parseNode ('c' :: ' ' :: node.text) = some (r.add (readNode node)) := by
  obtain ⟨hvar, hargs, hlists⟩ := h
  have hsize : node.var < 2 ^ 31 := Nat.lt_of_succ_lt hvar
  have hblank : ∀ (text : List Char), ∀ c ∈ (' ' :: text).head?, c.isDigit = false := by
    intro text c hc
    obtain rfl := Option.some.inj hc
    rfl
  have hword : ∀ text, readWord ('c' :: ' ' :: text) = some (['c'], ' ' :: text) := fun _ => rfl
  -- what is left to do once the tag and the variable have been read
  have hrest : ∀ (tag rest : List Char) (node' : Node), node'.var = node.var →
      readWord (' ' :: node.text) = some (tag, ' ' :: (numeral node.var ++ ' ' :: rest)) →
      nodeOfLine tag node.var (some (' ' :: rest)) = some node' →
      r.parseNode ('c' :: ' ' :: node.text) = some (r.add node') := by
    intro tag rest node' hsame htag hnode
    have hbounds : (0 : Int) ≤ node.var ∧ (node.var : Int) + 1 < 2 ^ 31 := by omega
    rw [NetReader.parseNode]
    refine Option.bind_eq_some_iff.mpr ⟨_, hword _, Option.bind_eq_some_iff.mpr ⟨_, htag, ?_⟩⟩
    refine Option.bind_eq_some_iff.mpr ⟨_, extractInt_numeral hsize (hblank rest), ?_⟩
    refine Option.bind_eq_some_iff.mpr ⟨(), if_pos hbounds, ?_⟩
    rw [NetReader.add, hsame]
    change some _ = some _
    rw [show ((node.var : Nat) : Int).toNat = node.var from rfl, hnode]
    rfl
  cases node with
  | value var b =>
      cases b with
      | false => exact hrest "value".toList "false".toList (.value var false) rfl rfl rfl
      | true => exact hrest "value".toList "true".toList (.value var true) rfl rfl rfl
  | andIff var args =>
      refine hrest "andIff".toList _ (readNode (.andIff var args)) rfl rfl ?_
      exact congrArg some (congrArg (Node.andIff var) (readLiterals_texts hargs))
  | orIff var args =>
      refine hrest "orIff".toList _ (readNode (.orIff var args)) rfl rfl ?_
      exact congrArg some (congrArg (Node.orIff var) (readLiterals_texts hargs))
  | orAnd var conjs =>
      obtain ⟨hne, hconjs⟩ := hlists var conjs rfl
      refine hrest "or_and".toList _ (readNode (.orAnd var conjs)) rfl rfl ?_
      refine congrArg some (congrArg (Node.orAnd var) (orAndLists_texts hne hconjs ?_))
      exact fun conj hconj l hl => hargs l (List.mem_flatten_of_mem hconj hl)

theorem ofHeading_nodeText (node : Generator.Node) :
    Parameter.ofHeading ('c' :: ' ' :: node.text) = none := by
  apply ofHeading_of_third
  cases node <;>
    · intro c hc
      obtain rfl := Option.some.inj hc
      decide

/-- The section of the net. -/
theorem foldlM_netLines (h : ∀ node ∈ cnf.net, NodePrintable node) :
    cnf.netLines.foldlM Reader.readLine r =
      some { r with
        parameter := if cnf.net.isEmpty then r.parameter else .net
        net := (cnf.net.map readNode).foldl NetReader.add r.net } := by
  have hlines : ∀ (nodes : List Generator.Node) (r : Reader), (∀ node ∈ nodes, NodePrintable node) →
      r.parameter = .net →
      (nodes.map fun node => 'c' :: ' ' :: node.text).foldlM Reader.readLine r =
        some { r with net := (nodes.map readNode).foldl NetReader.add r.net } := by
    intro nodes
    induction nodes with
    | nil =>
        intro r _ _
        rfl
    | cons node nodes ih =>
        intro r hnodes hr
        obtain ⟨hnode, hnodes⟩ := List.forall_mem_cons.mp hnodes
        have hstep : r.readLine ('c' :: ' ' :: node.text) =
            some { r with net := r.net.add (readNode node) } := by
          rw [Reader.readLine, ofHeading_nodeText, hr]
          simp only [parseNode_text hnode, Option.bind_eq_bind, Option.bind_some]
          rw [← hr]
          rfl
        rw [List.map_cons, List.foldlM_cons, hstep]
        exact ih _ hnodes hr
  unfold CNF.netLines
  split
  · next hnil =>
      rw [List.isEmpty_iff.mp hnil]
      rfl
  · next hne =>
      have hnodes : cnf.net.map Generator.Node.text ≠ [] := fun hnil =>
        hne (List.isEmpty_iff.mpr (List.map_eq_nil_iff.mp hnil))
      rw [List.foldlM_cons, readLine_of_heading rfl, commentLines, if_neg hnodes, List.map_map]
      exact hlines cnf.net { r with parameter := .net } h rfl

theorem readLine_of_metaVariables {line : List Char} (h : Parameter.ofHeading line = none)
    (hr : r.parameter = .metaVariables) : r.readLine line = r.readMetaLine line := by
  rw [Reader.readLine, h, hr]

/-- Whether a line opens a cell shows at its third character. -/
theorem isPrefixOf_newVar_numeral (number : Nat) (rest : List Char) :
    "c newVar".toList.isPrefixOf ('c' :: ' ' :: (numeral number ++ rest)) = false := by
  obtain ⟨c, cs, heq, hdigit⟩ := exists_numeral_eq_cons number
  have hc : 'n' ≠ c := by
    rintro rfl
    cases hdigit
  change ("newVar".toList.isPrefixOf (numeral number ++ rest)) = false
  rw [heq]
  simp [List.isPrefixOf, hc]

theorem head?_blank (text : List Char) : ∀ c ∈ (' ' :: text).head?, c.isDigit = false := by
  intro c hc
  obtain rfl := Option.some.inj hc
  rfl

/-- The line that opens a cell. -/
theorem readLine_newVar {m row column : Nat} (hm : m < 2 ^ 8) (hrow : row < 2 ^ 8)
    (hcolumn : column < 2 ^ 8) (hr : r.parameter = .metaVariables) :
    r.readLine ("c newVar ".toList ++ numeral m ++ ' ' :: numeral row ++ ' ' :: numeral column ++
        [':']) =
      some { r with metaVariables := r.metaVariables ++
        [⟨UInt8.ofNat m, UInt8.ofNat row, UInt8.ofNat column, [], []⟩] } := by
  have hline : "c newVar ".toList ++ numeral m ++ ' ' :: numeral row ++ ' ' :: numeral column ++
      [':'] = "c newVar".toList ++
        ' ' :: (numeral m ++ ' ' :: (numeral row ++ ' ' :: (numeral column ++ [':']))) := by
    simp
  have hlt : ∀ {number : Nat}, number < 2 ^ 8 → number < 2 ^ 32 :=
    fun h => h.trans (by decide)
  have hcolon : ∀ c ∈ ([':'] : List Char).head?, c.isDigit = false := by
    intro c hc
    obtain rfl := Option.some.inj hc
    rfl
  rw [hline]
  have hheading : ∀ text, Parameter.ofHeading ("c newVar".toList ++ text) = none := by
    intro text
    apply ofHeading_of_third
    intro c hc
    obtain rfl := Option.some.inj hc
    decide
  have hlead : ∀ text, "c newVar".toList.isPrefixOf ("c newVar".toList ++ text) = true :=
    fun _ => List.isPrefixOf_iff_prefix.mpr (List.prefix_append _ _)
  rw [readLine_of_metaVariables (hheading _) hr, Reader.readMetaLine, if_pos (hlead _)]
  refine Option.bind_eq_some_iff.mpr ⟨(['c'], _), rfl, ?_⟩
  refine Option.bind_eq_some_iff.mpr ⟨("newVar".toList, _), rfl, ?_⟩
  refine Option.bind_eq_some_iff.mpr
    ⟨_, extractUnsigned_numeral (hlt hm) (head?_blank _), ?_⟩
  refine Option.bind_eq_some_iff.mpr ⟨_, rfl, ?_⟩
  refine Option.bind_eq_some_iff.mpr
    ⟨_, extractUnsigned_numeral (hlt hrow) (head?_blank _), ?_⟩
  refine Option.bind_eq_some_iff.mpr ⟨_, rfl, ?_⟩
  refine Option.bind_eq_some_iff.mpr ⟨_, extractUnsigned_numeral (hlt hcolumn) hcolon, ?_⟩
  simp only [uint8_ofInt_natCast]
  rfl

/-- The line of a value of the last cell. -/
theorem readLine_value {value : Nat} {ls : List Generator.Literal} (hvalue : value < 2 ^ 8)
    (hls : ∀ l ∈ ls, l.Fits) (hr : r.parameter = .metaVariables)
    {cells : List MetaVariable} {last : MetaVariable} (hcells : r.metaVariables = cells ++ [last]) :
    r.readLine ("c ".toList ++ numeral value ++
        ' ' :: joinToString [' '] [] [] (ls.map Generator.Literal.text)) =
      some { r with metaVariables := cells ++ [{ last with
        variables_ := last.variables_ ++ [ls.filterMap readLiteral]
        values := last.values ++ [UInt8.ofNat value] }] } := by
  have hline : "c ".toList ++ numeral value ++
      ' ' :: joinToString [' '] [] [] (ls.map Generator.Literal.text) =
        'c' :: ' ' :: (numeral value ++
          ' ' :: joinToString [' '] [] [] (ls.map Generator.Literal.text)) := by
    simp
  have hlast : r.metaVariables.getLast? = some last := by
    rw [hcells, List.getLast?_append]
    rfl
  have hdropLast : r.metaVariables.dropLast = cells := by
    rw [hcells, List.dropLast_concat]
  have hlt : value < 2 ^ 31 := hvalue.trans (by decide)
  rw [hline, readLine_of_metaVariables (ofHeading_numeral _ _) hr, Reader.readMetaLine,
    isPrefixOf_newVar_numeral, if_neg Bool.false_ne_true]
  refine Option.bind_eq_some_iff.mpr ⟨last, hlast, ?_⟩
  refine Option.bind_eq_some_iff.mpr ⟨(['c'], _), rfl, ?_⟩
  refine Option.bind_eq_some_iff.mpr ⟨_, extractInt_numeral hlt (head?_blank _), ?_⟩
  simp only [readLiterals_texts hls, uint8_ofInt_natCast, hdropLast]
  rfl

/-- The values of the last cell. -/
theorem foldlM_values {entries : List (Nat × List Generator.Literal)} {cells : List MetaVariable}
    {last : MetaVariable} (h : ∀ entry ∈ entries, entry.1 < 2 ^ 8 ∧ ∀ l ∈ entry.2, l.Fits)
    (hr : r.parameter = .metaVariables) (hcells : r.metaVariables = cells ++ [last]) :
    (entries.map fun entry => "c ".toList ++ numeral entry.1 ++
        ' ' :: joinToString [' '] [] [] (entry.2.map Generator.Literal.text)).foldlM
          Reader.readLine r =
      some { r with metaVariables := cells ++ [{ last with
        variables_ := last.variables_ ++ entries.map fun entry => entry.2.filterMap readLiteral
        values := last.values ++ entries.map fun entry => UInt8.ofNat entry.1 }] } := by
  induction entries generalizing r last with
  | nil =>
      simp only [List.map_nil, List.append_nil, ← hcells]
      rfl
  | cons entry entries ih =>
      obtain ⟨⟨hvalue, hls⟩, h⟩ := List.forall_mem_cons.mp h
      rw [List.map_cons, List.foldlM_cons, readLine_value hvalue hls hr hcells, Option.bind_eq_bind,
        Option.bind_some]
      let next : MetaVariable := { last with
        variables_ := last.variables_ ++ [entry.2.filterMap readLiteral]
        values := last.values ++ [UInt8.ofNat entry.1] }
      have hrest := ih (r := { r with metaVariables := cells ++ [next] }) h hr rfl
      refine hrest.trans ?_
      simp [next]

theorem foldlM_cells {metaVars : List Generator.MetaVariable}
    (h : ∀ m ∈ metaVars, CellPrintable m) (hr : r.parameter = .metaVariables) :
    (metaVars.flatMap Generator.MetaVariable.lines).foldlM Reader.readLine r =
      some { r with metaVariables := r.metaVariables ++ metaVars.map readMetaVariable } := by
  induction metaVars generalizing r with
  | nil =>
      rw [List.map_nil, List.append_nil]
      rfl
  | cons m metaVars ih =>
      obtain ⟨⟨hm, hrow, hcolumn, hentries⟩, h⟩ := List.forall_mem_cons.mp h
      rw [List.flatMap_cons, List.foldlM_append, Generator.MetaVariable.lines, List.foldlM_cons,
        readLine_newVar hm hrow hcolumn hr, Option.bind_eq_bind, Option.bind_some]
      let opened : MetaVariable :=
        ⟨UInt8.ofNat m.matrix, UInt8.ofNat m.row, UInt8.ofNat m.column, [], []⟩
      have hvalues := foldlM_values (r := { r with metaVariables := r.metaVariables ++ [opened] })
        hentries hr rfl
      have hrest := ih (r := { r with
        metaVariables := r.metaVariables ++ [readMetaVariable m] }) h hr
      refine Option.bind_eq_some_iff.mpr ⟨_, hvalues, hrest.trans ?_⟩
      simp

/-- The section of the meta variables. -/
theorem foldlM_metaLines (h : ∀ m ∈ cnf.metaVariables, CellPrintable m) :
    cnf.metaLines.foldlM Reader.readLine r =
      some { r with
        parameter := if cnf.metaVariables.isEmpty then r.parameter else .metaVariables
        metaVariables := r.metaVariables ++ cnf.metaVariables.map readMetaVariable } := by
  unfold CNF.metaLines
  split
  · next hnil =>
      rw [List.isEmpty_iff.mp hnil, List.map_nil, List.append_nil]
      rfl
  · rw [List.foldlM_cons, readLine_of_heading rfl]
    exact foldlM_cells h rfl

end Sections

section Incremental

variable {cnf : CNF} {r r' : Reader} {line : List Char} {lines : List (List Char)}

theorem head?_literalText (l : Generator.Literal) : ∀ c ∈ l.text.head?, c ∉ "cmiwt".toList := by
  intro c hc
  cases l with
  | constFalse => cases hc
  | constTrue => cases hc
  | var name =>
      obtain ⟨d, ds, heq, hdigit⟩ := exists_numeral_eq_cons name
      rw [Generator.Literal.text, heq] at hc
      obtain rfl := Option.some.inj hc
      exact not_mem_of_isDigit hdigit
  | notVar name =>
      obtain rfl := Option.some.inj hc
      decide

theorem head?_clauseText (clause : Generator.Clause) :
    ∀ c ∈ clause.text.head?, c ∉ "cmiwt".toList := by
  cases clause with
  | literal l => exact head?_literalText l
  | disj args =>
      rw [Generator.Clause.text]
      cases args with
      | nil => exact fun c hc => by cases hc
      | cons l args =>
          cases args with
          | nil =>
              rw [List.map_singleton, Generator.joinToString_singleton, List.nil_append,
                List.append_nil]
              exact head?_literalText l
          | cons next args =>
              rw [List.map_cons, List.map_cons, Generator.joinToString_cons_cons, List.nil_append,
                List.append_assoc]
              intro c hc
              cases htext : l.text with
              | nil =>
                  rw [htext] at hc
                  obtain rfl := Option.some.inj hc
                  decide
              | cons d ds =>
                  rw [htext] at hc
                  obtain rfl := Option.some.inj hc
                  exact head?_literalText l d (by rw [htext]; rfl)

/-- The lines of the incremental expressions are no headings for the reader. -/
theorem ofHeading_incrementalLines (hline : line ∈ cnf.incrementalLines) :
    Parameter.ofHeading line = none := by
  have htexts : ∀ inc : Generator.Expression, ∀ text ∈ inc.argTexts,
      ∀ c ∈ text.head?, c ∉ "cmiwt".toList := by
    intro inc text htext
    unfold Generator.Expression.argTexts at htext
    split at htext
    · obtain ⟨c, -, rfl⟩ := List.mem_map.mp htext
      exact head?_clauseText c.clause
    · next name _ =>
        rw [List.mem_singleton.mp htext]
        exact head?_literalText (.var name)
    · rw [List.mem_singleton.mp htext]
      exact head?_literalText _
    · obtain ⟨l, -, rfl⟩ := List.mem_map.mp htext
      exact head?_literalText l
  unfold CNF.incrementalLines at hline
  split at hline
  · cases hline
  · rcases List.mem_cons.mp hline with rfl | hline
    · decide
    · obtain ⟨inc, -, hline⟩ := List.mem_flatMap.mp hline
      rcases List.mem_cons.mp hline with rfl | hline
      · decide
      · obtain ⟨text, htext, rfl⟩ := List.mem_map.mp hline
        apply ofHeading_of_third
        change ∀ c ∈ text[0]?, _
        rw [← List.head?_eq_getElem?]
        split at htext
        · rw [List.mem_singleton.mp htext]
          exact fun c hc => by cases hc
        · exact htexts inc text htext

/-- Outside the sections such lines are skipped. -/
theorem foldlM_of_nothing (h : ∀ line ∈ lines, Parameter.ofHeading line = none)
    (hr : r.parameter = .nothing) : lines.foldlM Reader.readLine r = some r := by
  induction lines with
  | nil => rfl
  | cons line lines ih =>
      obtain ⟨hline, h⟩ := List.forall_mem_cons.mp h
      have hstep : r.readLine line = some r := by rw [Reader.readLine, hline, hr]
      rw [List.foldlM_cons, hstep]
      exact ih h

/-- How many values the cells have that were read so far. -/
def Reader.valueCount (r : Reader) : Nat := (r.metaVariables.map fun m => m.values.length).sum

/-- A line of the section of the meta variables that opens no cell adds a value. -/
theorem valueCount_readMetaLine (h : r.readMetaLine line = some r') :
    r'.valueCount =
      r.valueCount + if "c newVar".toList.isPrefixOf line then 0 else 1 := by
  unfold Reader.readMetaLine at h
  split at h
  · next hopens =>
      obtain ⟨_, -, h⟩ := Option.bind_eq_some_iff.mp h
      obtain ⟨_, -, h⟩ := Option.bind_eq_some_iff.mp h
      obtain ⟨_, -, h⟩ := Option.bind_eq_some_iff.mp h
      obtain ⟨_, -, h⟩ := Option.bind_eq_some_iff.mp h
      obtain ⟨_, -, h⟩ := Option.bind_eq_some_iff.mp h
      obtain ⟨_, -, h⟩ := Option.bind_eq_some_iff.mp h
      obtain ⟨_, -, h⟩ := Option.bind_eq_some_iff.mp h
      cases h
      rw [if_pos hopens]
      simp [Reader.valueCount]
  · next hvalue =>
      obtain ⟨last, hlast, h⟩ := Option.bind_eq_some_iff.mp h
      obtain ⟨_, -, h⟩ := Option.bind_eq_some_iff.mp h
      obtain ⟨_, -, h⟩ := Option.bind_eq_some_iff.mp h
      cases h
      have hcells := List.dropLast_append_getLast? last hlast
      have hcount : r.valueCount = (r.metaVariables.dropLast.map fun m => m.values.length).sum +
          last.values.length := by
        rw [Reader.valueCount, ← hcells]
        simp
      rw [hcount, if_neg hvalue]
      simp [Reader.valueCount, add_assoc]

/-- No line takes a value away. -/
theorem valueCount_readLine (h : r.readLine line = some r') : r.valueCount ≤ r'.valueCount := by
  unfold Reader.readLine at h
  split at h
  · cases h
    exact le_rfl
  · split at h
    · cases h
      exact le_rfl
    · obtain ⟨_, -, h⟩ := Option.bind_eq_some_iff.mp h
      cases h
      exact le_rfl
    · exact (valueCount_readMetaLine h).ge.trans' (Nat.le_add_right _ _)
    · cases h
      exact le_rfl
    · cases h
      exact le_rfl
    · cases h
      exact le_rfl

theorem valueCount_readComments {stop : List Char} {rest : List (List Char)}
    (h : r.readComments lines = some (r', stop, rest)) : r.valueCount ≤ r'.valueCount := by
  induction lines generalizing r with
  | nil => cases h
  | cons line lines ih =>
      obtain ⟨next, hnext, h⟩ := Option.bind_eq_some_iff.mp h
      refine (valueCount_readLine hnext).trans ?_
      split at h
      · exact ih h
      · cases h
        exact le_rfl

theorem readComments_append (h : ∀ line ∈ lines, line.head? = some 'c')
    (rest : List (List Char)) : r.readComments (lines ++ rest) =
      (lines.foldlM Reader.readLine r).bind fun r => r.readComments rest := by
  induction lines generalizing r with
  | nil => rfl
  | cons line lines ih =>
      obtain ⟨hline, h⟩ := List.forall_mem_cons.mp h
      rw [List.cons_append, Reader.readComments, List.foldlM_cons]
      cases r.readLine line with
      | none => rfl
      | some next =>
          change (if line.head? = some 'c' then next.readComments (lines ++ rest)
            else some (next, line, lines ++ rest)) = _
          rw [if_pos hline, ih h]
          rfl

end Incremental

section Clauses

/-- Where an `int` is read, it is extracted. -/
theorem extractInt_of_readInt {text rest : List Char} {value : Int}
    (h : readInt text = some (value, rest)) : extractInt text = some (value, some rest) := by
  unfold readInt at h
  split at h
  next positive digits hsign =>
  split at h
  · cases h
  · next hdigits =>
      dsimp only at h
      split at h
      · next hfits =>
          cases h
          unfold extractInt extract
          cases hskip : text.dropWhile isSpace with
          | nil =>
              rw [hskip] at hsign
              cases hsign
              exact absurd rfl hdigits
          | cons c cs =>
              rw [hskip] at hsign
              simp only [hsign]
              cases htake : digits.takeWhile Char.isDigit with
              | nil => exact absurd htake hdigits
              | cons d ds =>
                  rw [htake] at hfits
                  simp only [hfits, decide_true, Bool.and_self, if_true]
      · cases h

theorem readClauseFrom_of_readToZeroFrom {fuel : Nat} {text rest : List Char} {values : List Int}
    (h : readToZeroFrom fuel text = some (values, rest)) :
    readClauseFrom fuel text = some (values.map Literal.ofDimacs, some rest) := by
  induction fuel generalizing text values with
  | zero => cases h
  | succ fuel ih =>
      obtain ⟨⟨value, next⟩, hvalue, h⟩ := Option.bind_eq_some_iff.mp h
      rw [readClauseFrom, extractInt_of_readInt hvalue]
      by_cases hzero : value = 0
      · simp only [hzero, if_true] at h
        cases h
        simp [hzero]
      · simp only [hzero, if_false] at h
        obtain ⟨⟨values', rest'⟩, hrest, h⟩ := Option.bind_eq_some_iff.mp h
        cases h
        simp [hzero, ih hrest]

/-- A printed clause is read, and the stream stays at the end of its line. -/
theorem readClauses_succ {n : Nat} {c : Generator.Clause} {clauses : List Clause}
    {blank rest : List Char} (hc : ∀ l ∈ c.args, l.Fits) (hblank : ∀ d ∈ blank, isSpace d = true)
    (hrest : readClauses n (some ('\n' :: rest)) = some clauses) :
    readClauses (n + 1) (some (blank ++ c.text ++ ' ' :: '0' :: '\n' :: rest)) =
      some (readClause c :: clauses) := by
  have hread := readClauseFrom_of_readToZeroFrom (Generator.readToZero_text hc hblank rest)
  have hliterals : (c.args.map fun l => signed l.number.1 l.number.2).map Literal.ofDimacs =
      c.args.filterMap readLiteral := by
    rw [filterMap_readLiteral_of_fits hc, List.map_map]
    rfl
  refine Option.bind_eq_some_iff.mpr ⟨_, hread, ?_⟩
  refine Option.bind_eq_some_iff.mpr ⟨clauses, hrest, ?_⟩
  rw [hliterals]
  rfl

/-- The clauses are read one after the other. -/
theorem readClauses_texts {clauses : List Generator.Conjunct}
    (h : ∀ c ∈ clauses, ∀ l ∈ c.clause.args, l.Fits) {blank : List Char}
    (hblank : ∀ d ∈ blank, isSpace d = true) :
    readClauses clauses.length (some (blank ++
      joinToString " 0\n".toList [] " 0\n".toList (clauses.map fun c => c.clause.text))) =
        some (clauses.map fun c => readClause c.clause) := by
  induction clauses generalizing blank with
  | nil => rfl
  | cons c clauses ih =>
      obtain ⟨hc, h⟩ := List.forall_mem_cons.mp h
      cases clauses with
      | nil =>
          rw [List.map_singleton, Generator.joinToString_singleton, List.nil_append,
            ← List.append_assoc]
          exact readClauses_succ hc hblank rfl
      | cons next clauses =>
          have hnewline : ∀ d ∈ ['\n'], isSpace d = true := by simp [isSpace_newline]
          have htext : blank ++ joinToString " 0\n".toList [] " 0\n".toList
              ((c :: next :: clauses).map fun c => c.clause.text) =
              blank ++ c.clause.text ++ ' ' :: '0' :: '\n' ::
                joinToString " 0\n".toList [] " 0\n".toList
                  ((next :: clauses).map fun c => c.clause.text) := by
            rw [List.map_cons, List.map_cons, Generator.joinToString_cons_cons]
            simp
          rw [htext]
          exact readClauses_succ hc hblank (ih h hnewline)

end Clauses

section Text

variable {cnf : CNF} {r : Reader}

/-- The problem line ends the comments. -/
theorem readComments_problemLine (hr : r.parameter = .nothing) (lines : List (List Char)) :
    r.readComments (cnf.problemLine :: lines) = some (r, cnf.problemLine, lines) := by
  have hhead : cnf.problemLine.head? = some 'p' := rfl
  have hheading : Parameter.ofHeading cnf.problemLine = none := by
    unfold Parameter.ofHeading
    split_ifs with hcore hnet hmeta hincremental hweights hcompute
    · rw [hcore] at hhead
      cases hhead
    · rw [hnet] at hhead
      cases hhead
    · rw [hmeta] at hhead
      cases hhead
    · rw [hincremental] at hhead
      cases hhead
    · rw [hweights] at hhead
      cases hhead
    · rw [hcompute] at hhead
      cases hhead
    · rfl
  have hstep : r.readLine cnf.problemLine = some r := by rw [Reader.readLine, hheading, hr]
  rw [Reader.readComments, hstep]
  rfl

/-- What is left once the comments have been read. -/
theorem readDimacs_of_comments (h : Printable cnf) (hr : r.parameter = .nothing)
    (hcomments : cnf.comments.foldlM Reader.readLine {} = some r) :
    readDimacs cnf.text = some
      { clauses := cnf.clauses.map fun c => readClause c.clause
        literalCount := UInt32.ofNat cnf.variables_.length
        coreVariables := r.coreVariables
        metaVars := r.metaVariables
        net := r.net
        weights := r.weights
        toCompute := r.toCompute } := by
  have hread : ({} : Reader).readComments (getlines cnf.text) =
      some (r, cnf.problemLine, getlines cnf.clauseLines) := by
    rw [CNF.getlines_text, readComments_append fun line hline => (CNF.comment_of_mem hline).head,
      hcomments, Option.bind_some, readComments_problemLine hr]
  have hdrop : cnf.problemLine.drop 5 =
      ' ' :: (numeral cnf.variables_.length ++ ' ' :: numeral cnf.clauses.length) := rfl
  have hlength : 5 ≤ cnf.problemLine.length := Nat.le_of_ble_eq_true rfl
  have hclauses : readClauses cnf.clauses.length (some cnf.clauseLines) =
      some (cnf.clauses.map fun c => readClause c.clause) :=
    readClauses_texts h.clauses fun _ hd => absurd hd List.not_mem_nil
  have hcount : extractInt (' ' :: numeral cnf.clauses.length) =
      some ((cnf.clauses.length : Int), some []) := by
    rw [← List.append_nil (numeral cnf.clauses.length)]
    exact extractInt_numeral h.length nofun
  refine Option.bind_eq_some_iff.mpr ⟨_, hread, ?_⟩
  refine Option.bind_eq_some_iff.mpr ⟨(), if_pos hlength, ?_⟩
  refine Option.bind_eq_some_iff.mpr
    ⟨_, hdrop ▸ extractInt_numeral h.variables_ (head?_blank _), ?_⟩
  refine Option.bind_eq_some_iff.mpr ⟨_, rfl, ?_⟩
  refine Option.bind_eq_some_iff.mpr ⟨_, hcount, ?_⟩
  refine Option.bind_eq_some_iff.mpr ⟨(), if_pos (Int.natCast_nonneg _), ?_⟩
  refine Option.bind_eq_some_iff.mpr ⟨_, by rw [textOf_getlines]; exact hclauses, ?_⟩
  rw [uint32_ofInt_natCast]
  rfl

/-- The sections around the incremental expressions, for a reader that skips these. -/
theorem foldlM_comments (h : Printable cnf)
    (hskip : cnf.incremental = [] ∨ cnf.metaVariables = []) :
    cnf.comments.foldlM Reader.readLine {} = some
      { parameter := .nothing
        coreVariables := (Dimacs.ofCNF cnf).coreVariables
        metaVariables := (Dimacs.ofCNF cnf).metaVars
        net := (Dimacs.ofCNF cnf).net
        weights := (Dimacs.ofCNF cnf).weights
        toCompute := (Dimacs.ofCNF cnf).toCompute } := by
  have hincremental : ∀ r : Reader, (cnf.incremental ≠ [] → r.parameter = .nothing) →
      cnf.incrementalLines.foldlM Reader.readLine r = some r := by
    intro r hr
    by_cases hnil : cnf.incremental = []
    · rw [CNF.incrementalLines, if_pos (List.isEmpty_iff.mpr hnil)]
      rfl
    · exact foldlM_of_nothing (fun _ => ofHeading_incrementalLines) (hr hnil)
  simp only [CNF.comments, List.foldlM_append, Option.bind_eq_bind]
  rw [foldlM_coreLines h.core rfl, Option.bind_some, foldlM_metaLines h.cells, Option.bind_some,
    hincremental, Option.bind_some, foldlM_netLines h.net, Option.bind_some,
    foldlM_weightsLines h.weights, Option.bind_some, foldlM_toComputeLines h.length]
  · rfl
  · intro hne
    simp [hskip.resolve_left hne]

/-- With cells and incremental expressions, more values are read than were printed. -/
theorem sum_values_lt (h : Printable cnf) (hincremental : cnf.incremental ≠ [])
    (hmeta : cnf.metaVariables ≠ []) {d : Dimacs} (hd : readDimacs cnf.text = some d) :
    ((Dimacs.ofCNF cnf).metaVars.map fun m => m.values.length).sum <
      (d.metaVars.map fun m => m.values.length).sum := by
  obtain ⟨⟨r, stop, rest⟩, hread, hd⟩ := Option.bind_eq_some_iff.mp hd
  have hvalues : (d.metaVars.map fun m => m.values.length).sum = r.valueCount := by
    obtain ⟨_, -, hd⟩ := Option.bind_eq_some_iff.mp hd
    obtain ⟨_, -, hd⟩ := Option.bind_eq_some_iff.mp hd
    obtain ⟨_, -, hd⟩ := Option.bind_eq_some_iff.mp hd
    obtain ⟨_, -, hd⟩ := Option.bind_eq_some_iff.mp hd
    obtain ⟨_, -, hd⟩ := Option.bind_eq_some_iff.mp hd
    obtain ⟨_, -, hd⟩ := Option.bind_eq_some_iff.mp hd
    cases hd
    rfl
  obtain ⟨lines, hlines⟩ : ∃ lines,
      cnf.incrementalLines = "c incrementalExprs:".toList :: lines := by
    rw [CNF.incrementalLines, if_neg fun hnil => hincremental (List.isEmpty_iff.mp hnil)]
    exact ⟨_, rfl⟩
  have hbefore : cnf.before.foldlM Reader.readLine {} = some
      { parameter := .metaVariables
        coreVariables := (Dimacs.ofCNF cnf).coreVariables
        metaVariables := (Dimacs.ofCNF cnf).metaVars } := by
    rw [CNF.before, List.foldlM_append, foldlM_coreLines h.core rfl, Option.bind_eq_bind,
      Option.bind_some, foldlM_metaLines h.cells,
      if_neg fun hnil => hmeta (List.isEmpty_iff.mp hnil)]
    rfl
  rw [CNF.getlines_text, CNF.comments_eq, List.append_assoc,
    readComments_append fun line hline => (CNF.otherComment_before hline).head, hbefore,
    Option.bind_some, hlines, List.cons_append, List.cons_append] at hread
  obtain ⟨next, hnext, hread⟩ := Option.bind_eq_some_iff.mp hread
  rw [readLine_of_metaVariables (by decide) rfl] at hnext
  have hstep := valueCount_readMetaLine hnext
  rw [if_neg (by decide)] at hstep
  rw [if_pos (show "c incrementalExprs:".toList.head? = some 'c' from rfl)] at hread
  rw [hvalues]
  exact (Nat.lt_of_succ_le hstep.ge).trans_le (valueCount_readComments hread)

/-- The local search reads back what was printed exactly if there are no incremental expressions
or no cells, and `variable_to_node` leads to the nodes. -/
theorem readDimacs_text_iff (h : Printable cnf) :
    (readDimacs cnf.text = some (.ofCNF cnf) ↔
      cnf.incremental = [] ∨ cnf.metaVariables = []) ∧
    (Dimacs.ofCNF cnf).net.nodes = cnf.net.map readNode ∧ (Dimacs.ofCNF cnf).net.Leads := by
  refine ⟨?_, NetReader.nodes_ofNodes _, NetReader.leads_ofNodes _⟩
  constructor
  · intro hread
    by_contra hneither
    obtain ⟨hincremental, hmeta⟩ := not_or.mp hneither
    exact lt_irrefl _ (sum_values_lt h hincremental hmeta hread)
  · intro hskip
    exact readDimacs_of_comments h rfl (foldlM_comments h hskip)

/-- A formula with a cell and an incremental expression. -/
def bothSections : CNF where
  clauses := [⟨.disj [.var 1, .notVar 2], true⟩]
  variables_ := [1, 2]
  coreVariables := [1]
  metaVariables := [⟨0, 0, 0, [(1, [.var 1])]⟩]
  incremental := [.literal (.notVar 2)]
  net := [.andIff 2 [.notVar 1]]
  weights := [1]

theorem readDimacs_text_bothSections :
    readDimacs bothSections.text ≠ some (.ofCNF bothSections) := by
  have hprintable : Printable bothSections := by
    refine ⟨by decide, by decide, ?_, ?_, by decide, by decide, by decide⟩
    · exact List.forall_mem_singleton.mpr ⟨by decide, by decide, by decide, by decide⟩
    · exact List.forall_mem_singleton.mpr ⟨by decide, by decide, nofun⟩
  have hiff := (readDimacs_text_iff hprintable).1
  exact mt hiff.mp (by simp [bothSections])

end Text

end LatinSquares.LocalSearch
