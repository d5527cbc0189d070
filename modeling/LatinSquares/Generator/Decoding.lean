/-
# Decoding inverts encoding

A parser lays out the tables of its encoder, so what it reads off a model are the squares the
core literals of the model denote. The array parsers take the number of squares for the number
of rows, while the encoder lays out two rows more, so they return an array without its last
two rows.
-/

import LatinSquares.Generator.Reading
import LatinSquares.Generator.Numbering
import LatinSquares.Generator.Arrays

namespace LatinSquares.Generator

open LatinSquares.Math

section Shown

variable {n k : Nat} {F : Fin k → Square (Fin n)} {α : Assignment} {s : ParserState}

/-- Squares as a parser returns them, with the symbols `1..n`. -/
def shownSquares (F : Fin k → Square (Fin n)) : List (List (List Int)) :=
  List.ofFn fun t => List.ofFn fun i => List.ofFn fun j => ((F t i j : Nat) : Int) + 1

/-- The number shown in cell `(i, j)` of square `t`. -/
def symbolAt (F : Fin k → Square (Fin n)) (t i j : Nat) : Int :=
  if h : t < k ∧ i < n ∧ j < n then
    ((F ⟨t, h.1⟩ ⟨i, h.2.1⟩ ⟨j, h.2.2⟩ : Nat) : Int) + 1
  else 0

/-- The squares read off tables of bits. -/
def ReadsBits (core : List Matrix) (α : Assignment) (F : Fin k → Square (Fin n)) : Prop :=
  ∀ (t : Fin k) (i j : Fin n),
    cellNumber (log2 n) (Matrix.entry (core.getD t []) i j) α = F t i j

theorem ofFn_eq_map_range {β : Type} {f : Fin n → β} {g : Nat → β}
    (h : ∀ i : Fin n, f i = g i) : List.ofFn f = (List.range n).map g := by
  apply List.ext_getElem
  · simp
  · intro i hi _
    rw [List.length_ofFn] at hi
    simpa using h ⟨i, hi⟩

theorem shownSquares_eq (F : Fin k → Square (Fin n)) :
    shownSquares F = (List.range k).map fun t =>
      (List.range n).map fun i => (List.range n).map (symbolAt F t i) := by
  refine ofFn_eq_map_range fun t => ofFn_eq_map_range fun i => ofFn_eq_map_range fun j => ?_
  rw [symbolAt, dif_pos ⟨t.isLt, i.isLt, j.isLt⟩]

theorem zipIdx_map_range {β : Type} (f : Nat → β) (length : Nat) :
    ((List.range length).map f).zipIdx = (List.range length).map fun i => (f i, i) := by
  apply List.ext_getElem
  · simp
  · intro i _ _
    simp

/-- Allocating tables changes the generator's state only. -/
theorem ensures_allocate_eq {β : Type} {m : Gen β} {Q : β → GenState → Prop}
    (h : Ensures m s.generator Q) : Ensures (allocate m) s fun tables s' =>
      Q tables s'.generator ∧ s' = { s with generator := s'.generator } := by
  obtain ⟨tables, generator, hrun, hq⟩ := h
  refine ⟨tables, { s with generator }, ?_, hq, rfl⟩
  simp only [allocate, run_get_bind, hrun]
  rfl

theorem ensures_allocate {β : Type} {m : Gen β} {Q : β → GenState → Prop}
    (h : Ensures m s.generator Q) : Ensures (allocate m) s fun tables s' =>
      Q tables s'.generator ∧ s'.currentIndex = s.currentIndex :=
  (ensures_allocate_eq h).mono fun _ _ h => ⟨h.1, by rw [h.2]⟩

/-- Latin squares pass the assertions. -/
theorem ensures_assertLatin (hF : ∀ t, IsLatin (F t)) (assertions : Bool) :
    Ensures (assertLatin assertions (shownSquares F)) s fun _ _ => True := by
  refine Ensures.of_guard (fun _ matrix hmatrix => ?_) trivial
  obtain ⟨t, rfl⟩ := List.mem_ofFn.mp hmatrix
  have hline : ∀ f : Fin n → Fin n, Function.Injective f →
      (List.ofFn fun j => ((f j : Nat) : Int) + 1).dedup.length =
        (List.ofFn fun j => ((f j : Nat) : Int) + 1).length := by
    intro f hf
    refine congrArg List.length (List.dedup_eq_self.mpr (List.nodup_ofFn.mpr fun a b hab => ?_))
    exact hf (Fin.ext (by simpa using hab))
  refine ⟨fun line hline' => ?_, fun line hline' => ?_⟩
  · obtain ⟨i, rfl⟩ := List.mem_ofFn.mp hline'
    exact hline _ ((hF t).row i)
  · by_cases hn : 0 < n
    · have hrows : (List.ofFn fun i => List.ofFn fun j => ((F t i j : Nat) : Int) + 1) =
          (List.range n).map fun i => (List.range n).map (symbolAt F t i) := by
        refine ofFn_eq_map_range fun i => ofFn_eq_map_range fun j => ?_
        rw [symbolAt, dif_pos ⟨t.isLt, i.isLt, j.isLt⟩]
      rw [hrows, transpose_map_range hn] at hline'
      obtain ⟨j, hj, rfl⟩ := List.mem_map.mp hline'
      have hcolumn : ((List.range n).map fun i => symbolAt F t i j) =
          List.ofFn fun i => ((F t i ⟨j, List.mem_range.mp hj⟩ : Nat) : Int) + 1 := by
        refine (ofFn_eq_map_range fun i => ?_).symm
        rw [symbolAt, dif_pos ⟨t.isLt, i.isLt, List.mem_range.mp hj⟩]
      rw [hcolumn]
      exact hline _ ((hF t).column _)
    · obtain rfl : n = 0 := by omega
      cases hline'

end Shown

/-- A layout with an entry that is no constant has a variable. -/
theorem layoutSize_pos {n m q tables t i j v : Nat}
    {kind : Nat → Nat → Nat → Nat → Option Bool} (ht : t < tables) (hi : i < n) (hj : j < m)
    (hv : v < q) (hnone : kind t i j v = none) : 0 < layoutSize n m q kind tables := by
  obtain ⟨name, hentry⟩ := layoutEntry_of_none hi hj hv hnone
  have hwithin : (layoutEntry n m q kind t i j v).Within (layoutSize n m q kind tables) :=
    layoutEntry_within ht hi hj hv
  rw [hentry, Literal.within_var] at hwithin
  omega

namespace LatinSquareEncoder

variable {e : LatinSquareEncoder} {F : Fin e.k → Square (Fin e.n)} {α : Assignment}
variable {size : Nat} {extra : List Bool}

theorem coreSize_pos (hn : 3 ≤ e.n) (hk : 0 < e.k) : 0 < e.coreSize :=
  layoutSize_pos (i := 1) (j := 1) (v := 0) hk (by omega) (by omega) (by omega)
    (by simp [oneHotKind])

/-- What is read off a cell that shows a symbol. -/
theorem parse_cell (hF : e.Describes α F) {t i j : Nat} (ht : t < e.k) (hi : i < e.n)
    (hj : j < e.n) :
    let cell := layoutCell e.n e.n e.n (oneHotKind e.reduced) t i j
    parseIntOneHot ((cellNames cell).map α) cell = some (symbolAt F t i j) := by
  intro cell
  have hsymbol := (F ⟨t, ht⟩ ⟨i, hi⟩ ⟨j, hj⟩).isLt
  refine (parseIntOneHot_eq (fun v => isEntry_layoutEntry t i j v) hsymbol fun v hv => ?_).trans ?_
  · exact (hF ⟨t, ht⟩ ⟨i, hi⟩ ⟨j, hj⟩ ⟨v, hv⟩).trans Fin.ext_iff
  · rw [symbolAt, dif_pos ⟨ht, hi, hj⟩]

/-- Every cell of an unreduced encoder has a variable for each symbol. -/
theorem length_cellNames_unreduced (hreduced : e.reduced = false) (t i j : Nat) :
    (cellNames (layoutCell e.n e.n e.n (oneHotKind e.reduced) t i j)).length = e.n := by
  rw [cellNames_layoutCell, List.length_range', cellStart, byIndex_oneHotKind hreduced,
    variablesBefore_none, variablesBefore_none, Nat.add_sub_cancel_left]

/-- `LatinParser` returns the squares a model of the unreduced formula describes. -/
theorem ensures_latinParser (hreduced : e.reduced = false) (hF : e.Describes α F)
    (hsize : e.coreSize ≤ size) :
    Ensures (LatinParser.construct e.n e.k (modelValues α size ++ extra)) {} fun ys _ =>
      ys = shownSquares F := by
  refine (ensures_allocate (ensures_unreducedTables hreduced rfl)).bind ?_
  rintro _ s ⟨⟨rfl, -⟩, hindex⟩
  have hread := ensures_readMatrices (α := α) (s := s) (g := symbolAt F) extra (fun _ => e.n)
    parseIntOneHot e.k 0 e.k (by omega) hsize
    (by simp [hindex, layoutSize, variablesBefore])
    (fun t _ i _ j _ => (length_cellNames_unreduced hreduced t i j).symm)
    fun t ht i hi j hj => parse_cell hF ht hi hj
  rw [← List.range_eq_range'] at hread
  refine hread.mono fun ys s' h => ?_
  rw [h.1, shownSquares_eq]

/-- The cells of the tables are read as the numbers `g`. -/
def ParsesTo (e : LatinSquareEncoder) (α : Assignment) (g : Nat → Nat → Nat → Int) : Prop :=
  ∀ t < e.k, ∀ i < e.n, ∀ j < e.n,
    parseIntOneHot ((cellNames (layoutCell e.n e.n e.n (oneHotKind e.reduced) t i j)).map α)
      (layoutCell e.n e.n e.n (oneHotKind e.reduced) t i j) = some (g t i j)

/-- The loop of `ReducedLatinParser` reads what its tables say. -/
theorem ensures_readSquares {g : Nat → Nat → Nat → Int} (hg : e.ParsesTo α g)
    (hsize : e.coreSize ≤ size) {others : List Matrix} (hothers : others.length = e.k)
    {s : ParserState} (hindex : s.currentIndex = 0) :
    Ensures (ReducedLatinParser.readSquares (modelValues α size ++ extra) others e.tables) s
      fun ys _ => ys = (List.range e.k).map fun t =>
        (List.range e.n).map fun i => (List.range e.n).map (g t i) := by
  have hloop : Ensures (ReducedLatinParser.readSquares (modelValues α size ++ extra) others
      e.tables) s fun ys s' => ys = ((List.range e.k).map fun t =>
        (List.range e.n).map fun i => (List.range e.n).map (g t i)) ∧
          s'.currentIndex = e.tablesSize e.k := by
    rw [ReducedLatinParser.readSquares, tables, zipIdx_map_range, List.mapM_map]
    refine Ensures.mapM_range (I := fun t (s : ParserState) => s.currentIndex = e.tablesSize t)
      (by simp [hindex, tablesSize, layoutSize, variablesBefore]) fun t ht u hu => ?_
    refine (Ensures.of_lift (Q := fun _ u' => u' = u)
      (List.getElem?_eq_getElem (hothers ▸ ht)) rfl).bind ?_
    rintro other u rfl
    have hnext : t * (e.n * e.n * e.n) + e.n * e.n * e.n = (t + 1) * (e.n * e.n * e.n) := by
      rw [Nat.add_mul, Nat.one_mul]
    rw [tablesSize, layoutSize, ← hnext]
    simp only [table, matrixOf, zipIdx_map_range, List.mapM_map, Function.comp_def]
    refine (ensures_readRows hu rfl fun i hi j hj v hv hgen => ?_).mono fun ys u' h => ⟨h.1, h.2.1⟩
    rw [← bind_assoc]
    refine (ensures_layoutCell ht hi hj hsize hv (variableCount_eq isEntry_of_mem_layoutCell)
      (hg t ht i hi j hj)).bind ?_
    rintro y v' ⟨rfl, rfl⟩
    exact (Ensures.of_modify ⟨rfl, hgen⟩).bind fun _ w hw => Ensures.of_pure ⟨rfl, hw⟩
  exact hloop.mono fun ys s' h => h.1

/-- `ReducedLatinParser` returns what its tables say. -/
theorem ensures_construct {g : Nat → Nat → Nat → Int} (hreduced : e.reduced = true)
    (hk : 0 < e.k) (hg : e.ParsesTo α g) (hsize : e.coreSize ≤ size) :
    Ensures (ReducedLatinParser.construct e.n e.k (modelValues α size ++ extra)) {} fun ys _ =>
      ys = (List.range e.k).map fun t =>
        (List.range e.n).map fun i => (List.range e.n).map (g t i) := by
  let unreduced : LatinSquareEncoder := { e with reduced := false }
  have hrange : (List.range (e.k - 1)).length = (List.range' 1 (e.k - 1)).length := by simp
  have hunreduced : Ensures ((List.range e.k).mapM fun _ => initMatrix e.n e.n e.n) {}
      fun Ms _ => Ms.length = e.k :=
    (ensures_unreducedTables (e := unreduced) rfl rfl).mono fun Ms _ h => by
      rw [h.1, tables, List.length_map, List.length_range]
  refine (ensures_allocate hunreduced).bind ?_
  rintro others s ⟨hothers, hindex⟩
  refine (Ensures.of_modify (Q := fun _ t => t.generator.varCounter = 0 ∧ t.currentIndex = 0)
    ⟨rfl, hindex⟩).bind ?_
  rintro _ t ⟨hcounter, hindex⟩
  refine (ensures_allocate (ensures_firstTable hreduced hcounter)).bind ?_
  rintro _ u ⟨⟨rfl, hgen⟩, hindex'⟩
  rw [mapM_const_congr hrange]
  refine (ensures_allocate (ensures_laterTables hreduced (by rw [hgen]))).bind ?_
  rintro _ v ⟨⟨rfl, -⟩, hindex''⟩
  have htables : e.table 0 :: (List.range' 1 (e.k - 1)).map e.table = e.tables := by
    rw [tables, range_eq_zero_cons hk, List.map_cons, rangeUntil]
  rw [htables]
  refine (ensures_readSquares hg hsize hothers (by rw [hindex'', hindex', hindex])).bind ?_
  rintro _ w rfl
  exact (Ensures.of_modify (Q := fun _ _ => True) trivial).bind fun _ _ _ => Ensures.of_pure rfl

/-- `ReducedLatinParser` returns the squares a model of the reduced formula describes. -/
theorem ensures_reducedLatinParser (hreduced : e.reduced = true) (hk : 0 < e.k)
    (hF : e.Describes α F) (hsize : e.coreSize ≤ size) :
    Ensures (ReducedLatinParser.construct e.n e.k (modelValues α size ++ extra)) {} fun ys _ =>
      ys = shownSquares F := by
  have hg : e.ParsesTo α (symbolAt F) := fun t ht i hi j hj => parse_cell hF ht hi hj
  refine (ensures_construct hreduced hk hg hsize).mono fun ys s' h => ?_
  rw [h, shownSquares_eq]

/-- A model of a returned formula describes a family, and has values for all its cells. -/
theorem exists_family_of_holds (order : Order) (hn : 3 ≤ e.n) (hk : 2 ≤ e.k)
    (hq : e.q ≤ e.n * e.n) {f : CNF} (hf : e.cnf order = some f) (hα : f.Holds α) :
    ∃ F, e.Describes α F ∧ LatinFamily (fun _ _ => e.q) F ∧ e.coreSize ≤ f.variables_.length := by
  obtain ⟨s', s₁, breaking, ortho, args, hreturned⟩ := of_run' (yields_returned order hn hk hq) hf
  have hsize := (hreturned.numbered (by omega)).size_le fun v => mem_tableNames
  cases hreduced : e.reduced with
  | false =>
      obtain ⟨g, hg, -, hsound, -⟩ := exists_cnf_reads (e := e) order hreduced (by omega) hk hq
      obtain rfl : f = g := Option.some.inj (hf.symm.trans hg)
      obtain ⟨F, hreads, hfamily⟩ := hsound α hα
      exact ⟨F, reads_tables_iff.mp hreads, hfamily, hsize⟩
  | true =>
      obtain ⟨g, c, hg, -, hprojects⟩ :=
        exists_cnf_reduced order hreduced hn hk hq (hreturned.cycle hreduced)
      obtain rfl : f = g := Option.some.inj (hf.symm.trans hg)
      obtain ⟨F, hdescribes, -, hfamily⟩ := hprojects.sound α hα
      exact ⟨F, hdescribes, hfamily, hsize⟩

end LatinSquareEncoder

namespace LogLatinSquareEncoder

variable {e : LogLatinSquareEncoder} {F : Fin e.k → Square (Fin e.n)} {α : Assignment}
variable {size : Nat} {extra : List Bool}

theorem coreSize_pos (hn : 2 ≤ e.n) (hk : 0 < e.k) : 0 < e.coreSize := by
  have hbits : 0 < log2 e.n := by
    rw [Nat.pos_iff_ne_zero]
    intro hzero
    have hle := le_two_pow_log2 e.n
    rw [hzero] at hle
    omega
  exact layoutSize_pos (i := 1) (j := 1) (v := 0) hk (by omega) (by omega) hbits (by simp [logKind])

/-- The number read off a cell of bits. -/
theorem parse_cell (hF : e.Stores α F) {t i j : Nat} (ht : t < e.k) (hi : i < e.n) (hj : j < e.n) :
    let cell := layoutCell e.n e.n (log2 e.n) (logKind e.reduced) t i j
    parseIntLog ((cellNames cell).map α) cell = some (F ⟨t, ht⟩ ⟨i, hi⟩ ⟨j, hj⟩ : Nat) := by
  intro cell
  rw [← hF]
  exact parseIntLog_eq fun bit => isEntry_layoutEntry t i j bit

/-- Both ways of turning a number into a symbol show what is stored. -/
theorem parseSymbol_cell (hF : e.Stores α F) {t i j : Nat} (ht : t < e.k) (hi : i < e.n)
    (hj : j < e.n) :
    let cell := layoutCell e.n e.n (log2 e.n) (logKind e.reduced) t i j
    (parseIntLog ((cellNames cell).map α) cell).map (fun (it : Nat) => (it : Int) + 1) =
        some (symbolAt F t i j) ∧
      parseSymbolLog e.n ((cellNames cell).map α) cell = some (symbolAt F t i j) := by
  intro cell
  have hsymbol := (F ⟨t, ht⟩ ⟨i, hi⟩ ⟨j, hj⟩).isLt
  rw [parseSymbolLog, parse_cell hF ht hi hj, symbolAt, dif_pos ⟨ht, hi, hj⟩, Option.map_some,
    Option.map_some, if_neg (Nat.not_le.mpr hsymbol)]
  exact ⟨rfl, rfl⟩

/-- Every cell of an unreduced encoder has a variable for each bit. -/
theorem length_cellNames_unreduced (hreduced : e.reduced = false) (t i j : Nat) :
    (cellNames (layoutCell e.n e.n (log2 e.n) (logKind e.reduced) t i j)).length = log2 e.n := by
  rw [cellNames_layoutCell, List.length_range', cellStart, byIndex_logKind hreduced,
    variablesBefore_none, variablesBefore_none, Nat.add_sub_cancel_left]

/-- `LogLatinParser` returns the squares a model of the unreduced formula stores. -/
theorem ensures_logLatinParser (assertions : Bool) (hreduced : e.reduced = false)
    (hF : e.Stores α F) (hlatin : ∀ t, IsLatin (F t)) (hsize : e.coreSize ≤ size) :
    Ensures (LogLatinParser.construct assertions e.n e.k (modelValues α size ++ extra)) {}
      fun ys _ => ys = shownSquares F := by
  refine (ensures_allocate (ensures_unreducedTables hreduced rfl)).bind ?_
  rintro _ s ⟨⟨rfl, -⟩, hindex⟩
  have hread := ensures_readMatrices (α := α) (s := s) (g := symbolAt F) extra
    (fun _ => log2 e.n)
    (fun read vars => (parseIntLog read vars).map fun (it : Nat) => (it : Int) + 1) e.k 0 e.k
    (by omega) hsize (by simp [hindex, layoutSize, variablesBefore])
    (fun t _ i _ j _ => (length_cellNames_unreduced hreduced t i j).symm)
    fun t ht i hi j hj => (parseSymbol_cell hF ht hi hj).1
  rw [← List.range_eq_range', ← shownSquares_eq] at hread
  refine hread.bind ?_
  rintro _ s' ⟨rfl, -⟩
  exact (ensures_assertLatin hlatin assertions).bind fun _ _ _ => Ensures.of_pure rfl

/-- `ReducedLogLatinParser` returns the squares a model of the reduced formula stores. -/
theorem ensures_reducedLogLatinParser (assertions : Bool) (hreduced : e.reduced = true)
    (hk : 0 < e.k) (hF : e.Stores α F) (hlatin : ∀ t, IsLatin (F t)) (hsize : e.coreSize ≤ size) :
    Ensures (ReducedLogLatinParser.construct assertions e.n e.k (modelValues α size ++ extra)) {}
      fun ys _ => ys = shownSquares F := by
  have hrange : (List.range (e.k - 1)).length = (List.range' 1 (e.k - 1)).length := by simp
  have hcount : ∀ t i j, variableCount (layoutCell e.n e.n (log2 e.n) (logKind e.reduced) t i j) =
      (cellNames (layoutCell e.n e.n (log2 e.n) (logKind e.reduced) t i j)).length :=
    fun t i j => variableCount_eq isEntry_of_mem_layoutCell
  refine (ensures_allocate (ensures_firstTable hreduced rfl)).bind ?_
  rintro _ s ⟨⟨rfl, hgen⟩, hindex⟩
  refine (ensures_readMatrix (g := symbolAt F 0) hk hsize
    (by simp [hindex, layoutSize, variablesBefore])
    (fun i _ j _ => hcount 0 i j) fun i hi j hj => (parseSymbol_cell hF hk hi hj).2).bind ?_
  rintro _ t ⟨rfl, hread, hkept⟩
  rw [mapM_const_congr hrange]
  refine (ensures_allocate (ensures_laterTables hreduced (by rw [hkept, hgen]))).bind ?_
  rintro _ u ⟨⟨rfl, -⟩, hindex'⟩
  have hlast : 1 + (e.k - 1) = e.k := by omega
  refine (ensures_readMatrices (g := symbolAt F) _ _ _ _ _ _ hlast.le hsize (by rw [hindex', hread])
    (fun t _ i _ j _ => hcount t i j)
    fun t ht i hi j hj => (parseSymbol_cell hF ht hi hj).2).bind ?_
  rintro _ v ⟨rfl, -⟩
  have hsquares : ((List.range e.n).map fun i => (List.range e.n).map (symbolAt F 0 i)) ::
      ((List.range' 1 (e.k - 1)).map fun t => (List.range e.n).map fun i =>
        (List.range e.n).map (symbolAt F t i)) = shownSquares F := by
    rw [shownSquares_eq, range_eq_zero_cons hk, List.map_cons, rangeUntil]
  rw [hsquares]
  exact (ensures_assertLatin hlatin assertions).bind fun _ _ _ => Ensures.of_pure rfl

/-- A model of a returned formula stores a family, and has values for all its cells. -/
theorem exists_family_of_holds (hn : 2 ≤ e.n) (hk : 2 ≤ e.k) (hq : e.q ≤ e.n * e.n) {f : CNF}
    (hf : e.cnf = some f) (hα : f.Holds α) :
    ∃ F, e.Stores α F ∧ LatinFamily (fun _ _ => e.q) F ∧ e.coreSize ≤ f.variables_.length := by
  obtain ⟨-, hnumbered⟩ := of_run' (yields_program hn hk hq) hf
  have hsize := hnumbered.size_le fun v => mem_tableNames
  have hmodel : ∀ {g : CNF} {c : Nat} {P : (Fin e.k → Square (Fin e.n)) → Prop},
      e.cnf = some g → (∀ t ≤ g.incremental.length, Projects e.coreSize c
        (fun α => g.Holds α ∧ ∀ x ∈ g.incremental.take t, x.eval α = true)
        fun α => ∃ F, e.Stores α F ∧ P F ∧ LatinFamily (incrementalBound e.k e.q t) F) →
      ∃ F, e.Stores α F ∧ LatinFamily (fun _ _ => e.q) F ∧ e.coreSize ≤ f.variables_.length := by
    intro g c P hg hprojects
    obtain rfl : f = g := Option.some.inj (hf.symm.trans hg)
    obtain ⟨F, hstores, -, hfamily⟩ := (hprojects 0 (Nat.zero_le _)).sound α ⟨hα, by simp⟩
    exact ⟨F, hstores, by simpa only [incrementalBound_zero] using hfamily, hsize⟩
  cases hreduced : e.reduced with
  | false =>
      obtain ⟨g, c, hg, -, -, hprojects⟩ := exists_cnf (P := fun _ => True) hn hk hq
        (ensures_symmetry_unreduced hreduced) fun _ _ _ _ => Iff.rfl
      exact hmodel hg hprojects
  | true =>
      let lead : Fin e.k := ⟨0, by omega⟩
      let second : Fin e.n := ⟨1, by omega⟩
      obtain ⟨g, c, hg, -, -, hprojects⟩ :=
        exists_cnf (P := fun F => RowAlong (F lead second) 0 (-1)) hn hk hq
          (ensures_symmetry_reduced hreduced hn (by omega))
          fun α F hF _ => alongCycle_iff (by omega) (hF lead second)
      exact hmodel hg hprojects

end LogLatinSquareEncoder

namespace OrthogonalArrayEncoder

variable {e : OrthogonalArrayEncoder} {A : Fin e.s → Fin (e.n * e.n) → Fin e.n}
variable {α : Assignment} {size rows : Nat} {extra : List Bool} {count : List Literal → Nat}

/-- An array as a parser returns it, with the symbols `1..n`. -/
def shownRows {s size n : Nat} (A : Fin s → Fin size → Fin n) : List (List Int) :=
  List.ofFn fun r => List.ofFn fun c => ((A r c : Nat) : Int) + 1

/-- The number shown in column `c` of row `r`. -/
def symbolAt {s size n : Nat} (A : Fin s → Fin size → Fin n) (r c : Nat) : Int :=
  if h : r < s ∧ c < size then ((A ⟨r, h.1⟩ ⟨c, h.2⟩ : Nat) : Int) + 1 else 0

theorem shownRows_eq {s size n : Nat} (A : Fin s → Fin size → Fin n) :
    shownRows A = (List.range s).map fun r => (List.range size).map (symbolAt A r) := by
  refine ofFn_eq_map_range fun r => ofFn_eq_map_range fun c => ?_
  rw [symbolAt, dif_pos ⟨r.isLt, c.isLt⟩]

theorem take_shownRows {s size n : Nat} (A : Fin s → Fin size → Fin n) (hrows : rows ≤ s) :
    (shownRows A).take rows =
      (List.range rows).map fun r => (List.range size).map (symbolAt A r) := by
  rw [shownRows_eq, ← List.map_take, List.take_range, Nat.min_eq_left hrows]

/-- Cell `c` of row `r`, as a layout has it. -/
theorem layoutCell_eq (r c : Nat) :
    layoutCell e.s (e.n * e.n) e.n (fun _ => arrayKind e.reduced e.n) 0 r c =
      (List.range e.n).map (e.entry r c) := rfl

/-- The first rows of the encoder's table, laid out alone, have the same entries. -/
theorem ensures_firstRows (hrows : rows ≤ e.s) {f : Nat → Nat → Nat → Gen Literal}
    (hf : ∀ r c v, f r c v = entryOfKind (arrayKind e.reduced e.n r c v)) :
    Ensures (listOfLists rows (e.n * e.n) e.n f) {} fun M _ =>
      M = matrixOf rows (e.n * e.n) e.n e.entry := by
  have hstart : ({} : GenState).varCounter =
      0 + variablesBefore (byIndex e.s (e.n * e.n) e.n fun _ => arrayKind e.reduced e.n) 0 := by
    simp [variablesBefore]
  have hlayout := ensures_listOfLists (n := rows) (m := e.n * e.n) (q := e.n) (f := f)
    (fun r hr c hc v hv => by
      have hkind := byIndex_apply (f := fun _ => arrayKind e.reduced e.n) (t := 0)
        (hr.trans_le hrows) hc hv
      rw [Nat.zero_mul, ← Nat.add_assoc] at hkind
      rw [hkind, hf]) hstart
  have hentry : e.entry = fun r c v => numbered (byIndex e.s (e.n * e.n) e.n fun _ =>
      arrayKind e.reduced e.n) 0 (0 + (r * (e.n * e.n) + c) * e.n + v) := by
    funext r c v
    rw [entry, layoutEntry, Nat.zero_mul, Nat.add_assoc]
  refine hlayout.mono fun M s h => ?_
  rw [h.1, hentry]

/-- What is read off a cell. -/
theorem parse_cell (hA : e.Describes α A) {r c : Nat} (hr : r < e.s) (hc : c < e.n * e.n) :
    let cell := layoutCell e.s (e.n * e.n) e.n (fun _ => arrayKind e.reduced e.n) 0 r c
    parseIntOneHot ((cellNames cell).map α) cell = some (symbolAt A r c) := by
  intro cell
  have hsymbol := (A ⟨r, hr⟩ ⟨c, hc⟩).isLt
  refine (parseIntOneHot_eq (fun v => isEntry_layoutEntry 0 r c v) hsymbol fun v hv => ?_).trans ?_
  · exact (hA ⟨r, hr⟩ ⟨c, hc⟩ ⟨v, hv⟩).trans Fin.ext_iff
  · rw [symbolAt, dif_pos ⟨hr, hc⟩]

/-- The first rows are read as the first rows of the array. -/
theorem ensures_readFirstRows (hA : e.Describes α A) (hrows : rows ≤ e.s)
    (hsize : e.coreSize ≤ size) {s : ParserState} (hindex : s.currentIndex = 0)
    (hcount : ∀ r c,
      let cell := layoutCell e.s (e.n * e.n) e.n (fun _ => arrayKind e.reduced e.n) 0 r c
      count cell = (cellNames cell).length) :
    Ensures (readMatrix (modelValues α size ++ extra) count parseIntOneHot
      (matrixOf rows (e.n * e.n) e.n e.entry)) s fun ys _ => ys = (shownRows A).take rows := by
  rw [take_shownRows A hrows, readMatrix, matrixOf]
  simp only [List.mapM_map, Function.comp_def, ← layoutCell_eq]
  have hstart : s.currentIndex =
      variablesBefore (byIndex e.s (e.n * e.n) e.n fun _ => arrayKind e.reduced e.n) 0 := by
    simp [hindex, variablesBefore]
  refine (ensures_readRows (q := e.n) hstart rfl fun r hr c hc t ht hgen => ?_).mono
    fun ys s' h => h.1
  rw [Nat.zero_add] at ht
  refine (ensures_layoutCell (t := 0) Nat.one_pos (hr.trans_le hrows) hc hsize
    (by rw [ht, cellStart, Nat.zero_mul, Nat.zero_add]) (hcount r c)
    (parse_cell hA (hr.trans_le hrows) hc)).mono ?_
  rintro y t' ⟨rfl, rfl⟩
  exact ⟨rfl, by simp only [Nat.zero_mul, Nat.zero_add], hgen⟩

/-- `ArrayParser` returns as many rows of the array as it is asked for. -/
theorem ensures_arrayParser (hreduced : e.reduced = false) (hA : e.Describes α A)
    (hrows : rows ≤ e.s) (hsize : e.coreSize ≤ size) :
    Ensures (ArrayParser.construct e.n rows (modelValues α size ++ extra)) {} fun ys _ =>
      ys = (shownRows A).take rows := by
  refine (ensures_allocate (ensures_firstRows hrows fun r c v => ?_)).bind ?_
  · simp only [arrayKind, hreduced]
    rfl
  rintro _ s ⟨rfl, hindex⟩
  refine ensures_readFirstRows hA hrows hsize hindex fun r c => ?_
  have hkind : byIndex e.s (e.n * e.n) e.n (fun _ => arrayKind e.reduced e.n) = fun _ => none := by
    funext idx
    rw [hreduced]
    rfl
  intro cell
  rw [cellNames_layoutCell, List.length_range', cellStart, hkind, variablesBefore_none,
    variablesBefore_none, Nat.add_sub_cancel_left]

/-- `ReducedArrayParser` does so too. -/
theorem ensures_reducedArrayParser (hreduced : e.reduced = true) (hA : e.Describes α A)
    (hrows : rows ≤ e.s) (hsize : e.coreSize ≤ size) :
    Ensures (ReducedArrayParser.construct e.n rows (modelValues α size ++ extra)) {} fun ys _ =>
      ys = (shownRows A).take rows := by
  refine (ensures_allocate (ensures_firstRows hrows fun r c v => ?_)).bind ?_
  · simp only [arrayKind, hreduced, if_true]
    split_ifs <;> rfl
  rintro _ s ⟨rfl, hindex⟩
  exact ensures_readFirstRows hA hrows hsize hindex fun r c =>
    variableCount_eq isEntry_of_mem_layoutCell

end OrthogonalArrayEncoder

section Commands

variable {n k q : Nat} {encoding : Encoding} {f : CNF} {α : Assignment} {lines : List Line}
variable {extra : List (List Char)} {format : OutputFormat} {order : Order}
variable {options : EncodeOptions}

/-- The tables an encoder for Latin squares starts from. -/
def Encoding.coreTables (encoding : Encoding) (n k q : Nat) : Option (List Matrix) :=
  match encoding with
  | .array | .reducedArray => none
  | .latinOnehot => (⟨false, false, .none, -1, n, k, q⟩ : LatinSquareEncoder).coreVariables.run' {}
  | .reducedLatinOnehot =>
      (⟨true, false, .none, -1, n, k, q⟩ : LatinSquareEncoder).coreVariables.run' {}
  | .latinLog => (⟨false, n, k, q⟩ : LogLatinSquareEncoder).coreVariables.run' {}
  | .reducedLatinLog => (⟨true, n, k, q⟩ : LogLatinSquareEncoder).coreVariables.run' {}

/-- The squares the core literals of a model denote, constant cells included. -/
def Encoding.Denotes (encoding : Encoding) (core : List Matrix) (α : Assignment)
    (F : Fin k → Square (Fin n)) : Prop :=
  match encoding with
  | .array | .reducedArray => False
  | .latinOnehot | .reducedLatinOnehot => Reads core α F
  | .latinLog | .reducedLatinLog => ReadsBits core α F

/-- What a parser makes of a file with the values of a model is what it makes of the values. -/
theorem decode_written {assertions : Bool} {result : Decoded} {size : Nat} (hsize : 0 < size)
    (hfile : Written (modelWords α size ++ extra) lines format)
    (hextra : ∀ word ∈ extra, ' ' ∉ word)
    (hconstruct : ∀ rest,
      Ensures (encoding.construct assertions n k (modelValues α size ++ rest)) {}
        fun ys _ => ys = result) :
    decode assertions encoding n k format lines = some result := by
  have hne : modelWords α size ++ extra ≠ [] := by
    apply List.append_ne_nil_of_left_ne_nil
    rw [modelWords, ne_eq, List.map_eq_nil_iff, List.range'_eq_nil_iff]
    omega
  have hwords : ∀ word ∈ modelWords α size ++ extra, ' ' ∉ word :=
    List.forall_mem_append.mpr ⟨space_not_mem_modelWords, hextra⟩
  obtain ⟨_, s, hrun, rfl⟩ := hconstruct (extra.map parseVariable)
  rw [decode, readValues_written hfile hwords hne, List.map_append, map_parseVariable_modelWords]
  exact run'_of_run hrun

theorem reads_tables_bits {e : LogLatinSquareEncoder} {F : Fin e.k → Square (Fin e.n)} :
    ReadsBits e.tables α F ↔ e.Stores α F := by
  refine forall_congr' fun t => forall_congr' fun i => forall_congr' fun j => ?_
  have hcell : (fun bit : Fin (log2 e.n) =>
      (Matrix.entry (e.tables.getD t []) i j bit).eval α) =
      fun bit : Fin (log2 e.n) => (e.bit t i j bit).eval α := by
    funext bit
    rw [LogLatinSquareEncoder.tables, getD_map_range _ _ t.isLt, LogLatinSquareEncoder.table,
      entry_matrixOf i.isLt j.isLt bit.isLt]
  rw [cellNumber, hcell]
  rfl

/-- The four encodings of Latin squares. -/
def Encoding.IsLatin : Encoding → Prop
  | .array | .reducedArray => False
  | .latinOnehot | .reducedLatinOnehot | .latinLog | .reducedLatinLog => True

theorem coreTables_oneHot {e : LatinSquareEncoder} (hk : 0 < e.k) :
    (⟨e.reduced, false, .none, -1, e.n, e.k, e.q⟩ : LatinSquareEncoder).coreVariables.run' {} =
      some e.tables := by
  obtain ⟨_, s, hrun, rfl, -⟩ := LatinSquareEncoder.ensures_coreVariables
    (e := ⟨e.reduced, false, .none, -1, e.n, e.k, e.q⟩) hk
  exact run'_of_run hrun

theorem coreTables_log {e : LogLatinSquareEncoder} (hk : 0 < e.k) :
    e.coreVariables.run' {} = some e.tables := by
  obtain ⟨_, s, hrun, rfl, -⟩ := LogLatinSquareEncoder.ensures_coreVariables hk
  exact run'_of_run hrun

/-- What the parser for an encoding constructs from the values of a model. -/
theorem exists_constructs (assertions : Bool) (hn : 3 ≤ n) (hk : 2 ≤ k) (hq : q ≤ n * n)
    (hencoding : encoding.IsLatin) (hf : encode order options encoding n k q = some f)
    (hα : f.Holds α) :
    ∃ core, encoding.coreTables n k q = some core ∧ 0 < f.variables_.length ∧
      ∃ F : Fin k → Square (Fin n), encoding.Denotes core α F ∧ LatinFamily (fun _ _ => q) F ∧
        ∀ rest, Ensures (encoding.construct assertions n k
          (modelValues α f.variables_.length ++ rest)) {} fun ys _ =>
            ys = .squares (shownSquares F) := by
  have hpos : 0 < k := by omega
  have htwo : 2 ≤ n := by omega
  cases encoding with
  | array => cases hencoding
  | reducedArray => cases hencoding
  | latinOnehot =>
      let e : LatinSquareEncoder := ⟨false, options.weighted, .none, -1, n, k, q⟩
      obtain ⟨F, hF, hfamily, hsize⟩ :=
        LatinSquareEncoder.exists_family_of_holds (e := e) order hn hk hq hf hα
      have hcore := (LatinSquareEncoder.coreSize_pos hn hpos).trans_le hsize
      refine ⟨e.tables, coreTables_oneHot (e := e) hpos, hcore, F,
        LatinSquareEncoder.reads_tables_iff.mpr hF, hfamily, fun rest => ?_⟩
      exact Ensures.map ((LatinSquareEncoder.ensures_latinParser rfl hF hsize).mono
        fun _ _ => congrArg _)
  | reducedLatinOnehot =>
      let e : LatinSquareEncoder := ⟨true, options.weighted, options.breakingSymmetryType,
        options.breakingSymmetryCycleNumber, n, k, q⟩
      obtain ⟨F, hF, hfamily, hsize⟩ :=
        LatinSquareEncoder.exists_family_of_holds (e := e) order hn hk hq hf hα
      have hcore := (LatinSquareEncoder.coreSize_pos hn hpos).trans_le hsize
      refine ⟨e.tables, coreTables_oneHot (e := e) hpos, hcore, F,
        LatinSquareEncoder.reads_tables_iff.mpr hF, hfamily, fun rest => ?_⟩
      exact Ensures.map ((LatinSquareEncoder.ensures_reducedLatinParser rfl hpos hF hsize).mono
        fun _ _ => congrArg _)
  | latinLog =>
      let e : LogLatinSquareEncoder := ⟨false, n, k, q⟩
      obtain ⟨F, hF, hfamily, hsize⟩ :=
        LogLatinSquareEncoder.exists_family_of_holds (e := e) htwo hk hq hf hα
      have hcore := (LogLatinSquareEncoder.coreSize_pos htwo hpos).trans_le hsize
      refine ⟨e.tables, coreTables_log (e := e) hpos, hcore, F, reads_tables_bits.mpr hF, hfamily,
        fun rest => ?_⟩
      exact Ensures.map ((LogLatinSquareEncoder.ensures_logLatinParser assertions rfl hF
        hfamily.latin hsize).mono fun _ _ => congrArg _)
  | reducedLatinLog =>
      let e : LogLatinSquareEncoder := ⟨true, n, k, q⟩
      obtain ⟨F, hF, hfamily, hsize⟩ :=
        LogLatinSquareEncoder.exists_family_of_holds (e := e) htwo hk hq hf hα
      have hcore := (LogLatinSquareEncoder.coreSize_pos htwo hpos).trans_le hsize
      refine ⟨e.tables, coreTables_log (e := e) hpos, hcore, F, reads_tables_bits.mpr hF, hfamily,
        fun rest => ?_⟩
      exact Ensures.map ((LogLatinSquareEncoder.ensures_reducedLogLatinParser assertions rfl hpos hF
        hfamily.latin hsize).mono fun _ _ => congrArg _)

/-- Decoding a model of the formula of a Latin encoding returns the squares its core literals
denote: Latin squares any two of which show at least `q` pairs. -/
theorem decode_latin (order : Order) (options : EncodeOptions) (assertions : Bool) {n k q : Nat}
    (hn : 3 ≤ n) (hk : 2 ≤ k) (hq : q ≤ n * n) {encoding : Encoding}
    (hencoding : encoding.IsLatin) {f : CNF}
    (hf : encode order options encoding n k q = some f) {α : Assignment} (hα : f.Holds α)
    {format : OutputFormat} {extra : List (List Char)} {lines : List Line}
    (hextra : ∀ word ∈ extra, ' ' ∉ word)
    (hfile : Written (modelWords α f.variables_.length ++ extra) lines format) :
    ∃ core, encoding.coreTables n k q = some core ∧ ∃ F : Fin k → Square (Fin n),
      encoding.Denotes core α F ∧ LatinFamily (fun _ _ => q) F ∧
        decode assertions encoding n k format lines = some (.squares (shownSquares F)) := by
  obtain ⟨core, hcore, hsize, F, hdenotes, hfamily, hconstruct⟩ :=
    exists_constructs assertions hn hk hq hencoding hf hα
  exact ⟨core, hcore, F, hdenotes, hfamily, decode_written hsize hfile hextra hconstruct⟩

/-- A pair of orthogonal squares of order three, in the format of the SAT competitions. -/
theorem decode_latin_three :
    ∃ f α core, encode Order.identity {} .latinOnehot 3 2 9 = some f ∧ f.Holds α ∧
      Encoding.latinOnehot.coreTables 3 2 9 = some core ∧ ∃ F : Fin 2 → Square (Fin 3),
        Encoding.latinOnehot.Denotes core α F ∧ LatinFamily (fun _ _ => 9) F ∧
          decode true .latinOnehot 3 2 .dimacs [['c'], OutputFormat.dimacs.sat,
            'v' :: ' ' :: unwords (modelWords α f.variables_.length ++ [['0']])] =
              some (.squares (shownSquares F)) := by
  have hfamily : LatinFamily (fun _ _ => 9) fun (t : Fin 2) (i j : Fin 3) =>
      (if t = 0 then i else i + i) + j := by
    refine ⟨fun t => ⟨?_, ?_⟩, by decide⟩
    · revert t
      decide
    · revert t
      decide
  obtain ⟨f, hf, -, -, hcomplete⟩ := LatinSquareEncoder.exists_cnf_reads (e := ⟨false, false, .none,
    -1, 3, 2, 9⟩) Order.identity rfl (by decide) (by decide) (by decide)
  obtain ⟨α, hα, -⟩ := hcomplete _ hfamily
  have hencode : encode Order.identity {} .latinOnehot 3 2 9 = some f := hf
  have hlatin : Encoding.latinOnehot.IsLatin := trivial
  have hextra : ∀ word ∈ [['0']], ' ' ∉ word := by simp
  have hfile : Written (modelWords α f.variables_.length ++ [['0']]) [['c'],
      OutputFormat.dimacs.sat, 'v' :: ' ' :: unwords (modelWords α f.variables_.length ++ [['0']])]
      .dimacs :=
    ⟨[['c']], _, [modelWords α f.variables_.length ++ [['0']]], rfl, by simp, by simp, by simp,
      by simp, by simp⟩
  obtain ⟨core, hcore, F, hdenotes, hF, hdecode⟩ := decode_latin Order.identity {} true (by decide)
    (by decide) (by decide) hlatin hencode hα hextra hfile
  exact ⟨f, α, core, hencode, hα, hcore, F, hdenotes, hF, hdecode⟩

/-- The encoder of an array encoding. -/
def Encoding.arrayEncoder (encoding : Encoding) (n k q : Nat) : Option OrthogonalArrayEncoder :=
  match encoding with
  | .array => some (OrthogonalArrayEncoder.build false n k q)
  | .reducedArray => some (OrthogonalArrayEncoder.build true n k q)
  | .latinOnehot | .latinLog | .reducedLatinOnehot | .reducedLatinLog => none

/-- A model of an array formula is an array of `k + 2` rows; its file is decoded as the first
`k` of them. -/
theorem exists_decode_array (assertions : Bool) (hn : 2 ≤ n) (hk : 1 ≤ k) (hq : q ≤ n * n)
    {e : OrthogonalArrayEncoder} (hencoder : encoding.arrayEncoder n k q = some e)
    (hf : encode order options encoding n k q = some f) (hα : f.Holds α)
    (hextra : ∀ word ∈ extra, ' ' ∉ word)
    (hfile : Written (modelWords α f.variables_.length ++ extra) lines format) :
    ∃ A : Fin (k + 2) → Fin (n * n) → Fin n, ReadsArray e.table α A ∧ IsArray q A ∧
      decode assertions encoding n k format lines =
        some (.array ((OrthogonalArrayEncoder.shownRows A).take k)) := by
  have hmodel : ∀ {reduced : Bool}, (OrthogonalArrayEncoder.build reduced n k q).cnf order =
      some f → 0 < f.variables_.length ∧
        (OrthogonalArrayEncoder.build reduced n k q).coreSize ≤ f.variables_.length ∧
        ∃ A : Fin (k + 2) → Fin (n * n) → Fin n,
          ReadsArray (OrthogonalArrayEncoder.build reduced n k q).table α A ∧ IsArray q A := by
    intro reduced hcnf
    obtain ⟨-, hnumbered⟩ :=
      of_run' (OrthogonalArrayEncoder.yields_program order (by exact hn) (by exact hq)) hcnf
    have hsize := hnumbered.size_le fun v => OrthogonalArrayEncoder.mem_tableNames
    have hpos : 0 < (OrthogonalArrayEncoder.build reduced n k q).coreSize :=
      layoutSize_pos (t := 0) (i := 2) (j := 0) (v := 0) Nat.one_pos (show 2 < k + 2 by omega)
        (show 0 < n * n from Nat.mul_pos (by omega) (by omega)) (show 0 < n by omega)
        (by simp [arrayKind])
    obtain ⟨g, hg, -, hsound, -⟩ :=
      OrthogonalArrayEncoder.exists_cnf_reads order reduced hn hk hq
    obtain rfl : f = g := Option.some.inj (hcnf.symm.trans hg)
    exact ⟨hpos.trans_le hsize, hsize, hsound α hα⟩
  cases encoding with
  | latinOnehot => cases hencoder
  | latinLog => cases hencoder
  | reducedLatinOnehot => cases hencoder
  | reducedLatinLog => cases hencoder
  | array =>
      cases hencoder
      obtain ⟨hpos, hsize, A, hreads, hA⟩ := hmodel hf
      refine ⟨A, hreads, hA, decode_written hpos hfile hextra fun rest => ?_⟩
      exact Ensures.map ((OrthogonalArrayEncoder.ensures_arrayParser rfl
        (OrthogonalArrayEncoder.readsArray_table_iff.mp hreads) (Nat.le_add_right k 2) hsize).mono
          fun _ _ => congrArg _)
  | reducedArray =>
      cases hencoder
      obtain ⟨hpos, hsize, A, hreads, hA⟩ := hmodel hf
      refine ⟨A, hreads, hA, decode_written hpos hfile hextra fun rest => ?_⟩
      exact Ensures.map ((OrthogonalArrayEncoder.ensures_reducedArrayParser rfl
        (OrthogonalArrayEncoder.readsArray_table_iff.mp hreads) (Nat.le_add_right k 2) hsize).mono
          fun _ _ => congrArg _)

/-- Fewer rows are no whole array. -/
theorem take_shownRows_ne (A A' : Fin (k + 2) → Fin (n * n) → Fin n) :
    (OrthogonalArrayEncoder.shownRows A).take k ≠ OrthogonalArrayEncoder.shownRows A' := by
  intro h
  have hlength := congrArg List.length h
  simp [OrthogonalArrayEncoder.shownRows] at hlength

/-- Decoding a model of the formula of an array encoding returns the first `k` rows of the
array of the model, and so never the whole array of `k + 2` rows. -/
theorem decode_array_truncates (order : Order) (options : EncodeOptions) (assertions : Bool)
    {n k q : Nat} (hn : 2 ≤ n) (hk : 1 ≤ k) (hq : q ≤ n * n) {encoding : Encoding}
    {e : OrthogonalArrayEncoder} (hencoder : encoding.arrayEncoder n k q = some e) {f : CNF}
    (hf : encode order options encoding n k q = some f) {α : Assignment} (hα : f.Holds α)
    {format : OutputFormat} {extra : List (List Char)} {lines : List Line}
    (hextra : ∀ word ∈ extra, ' ' ∉ word)
    (hfile : Written (modelWords α f.variables_.length ++ extra) lines format) :
    (∃ A : Fin (k + 2) → Fin (n * n) → Fin n, ReadsArray e.table α A ∧ IsArray q A ∧
      decode assertions encoding n k format lines =
        some (.array ((OrthogonalArrayEncoder.shownRows A).take k))) ∧
    ∀ A : Fin (k + 2) → Fin (n * n) → Fin n, decode assertions encoding n k format lines ≠
      some (.array (OrthogonalArrayEncoder.shownRows A)) := by
  obtain ⟨A, hreads, hA, hdecode⟩ :=
    exists_decode_array assertions hn hk hq hencoder hf hα hextra hfile
  refine ⟨⟨A, hreads, hA, hdecode⟩, fun A' heq => ?_⟩
  rw [hdecode] at heq
  exact take_shownRows_ne A A' (Decoded.array.inj (Option.some.inj heq))

/-- An array formula has a model: the array of one square of order two. -/
theorem exists_array_model (reduced : Bool) :
    ∃ f α, (OrthogonalArrayEncoder.build reduced 2 1 4).cnf Order.identity = some f ∧
      f.Holds α := by
  have hfamily : LatinFamily (fun _ _ => 4) fun (_ : Fin 1) (i j : Fin 2) => i + j :=
    ⟨fun _ => ⟨by decide, by decide⟩, by decide⟩
  have hcells := OrthogonalArrayEncoder.bijective_numbering (n := 2) (by decide)
  obtain ⟨f, hf, -, -, hcomplete⟩ := OrthogonalArrayEncoder.exists_cnf_reads Order.identity reduced
    (n := 2) (k := 1) (q := 4) (by decide) (by decide) (by decide)
  obtain ⟨α, hα, -⟩ := hcomplete _ (isArray_arrayOf hcells hfamily) (fun _ => rfl) fun _ => rfl
  exact ⟨f, α, hf, hα⟩

theorem decode_array_truncates_two :
    ∃ f α, encode Order.identity {} .reducedArray 2 1 4 = some f ∧ f.Holds α ∧
      let file := [OutputFormat.minisat.sat, unwords (modelWords α f.variables_.length)]
      (∃ A : Fin (1 + 2) → Fin (2 * 2) → Fin 2,
        ReadsArray (OrthogonalArrayEncoder.build true 2 1 4).table α A ∧ IsArray 4 A ∧
          decode false .reducedArray 2 1 .minisat file =
            some (.array ((OrthogonalArrayEncoder.shownRows A).take 1))) ∧
      ∀ A : Fin (1 + 2) → Fin (2 * 2) → Fin 2, decode false .reducedArray 2 1 .minisat file ≠
        some (.array (OrthogonalArrayEncoder.shownRows A)) := by
  obtain ⟨f, α, hf, hα⟩ := exists_array_model true
  have hencode : encode Order.identity {} .reducedArray 2 1 4 = some f := hf
  refine ⟨f, α, hencode, hα, ?_⟩
  have hextra : ∀ word ∈ ([] : List (List Char)), ' ' ∉ word := by simp
  exact decode_array_truncates Order.identity {} false (by decide) (by decide) (by decide) rfl
    hencode hα hextra ⟨[], by rw [List.append_nil]⟩

/-- The array of one square of order two is decoded without two of its three rows. -/
theorem exists_array_decoded_short :
    ∃ f α, encode Order.identity {} .array 2 1 4 = some f ∧ f.Holds α ∧
      ∀ A : Fin (1 + 2) → Fin (2 * 2) → Fin 2,
        decode false .array 2 1 .minisat
            [OutputFormat.minisat.sat, unwords (modelWords α f.variables_.length)] ≠
          some (.array (OrthogonalArrayEncoder.shownRows A)) := by
  obtain ⟨f, α, hf, hα⟩ := exists_array_model false
  have hencode : encode Order.identity {} .array 2 1 4 = some f := hf
  refine ⟨f, α, hencode, hα, fun A heq => ?_⟩
  have hextra : ∀ word ∈ ([] : List (List Char)), ' ' ∉ word := by simp
  have hfile : Written (modelWords α f.variables_.length ++ [])
      [OutputFormat.minisat.sat, unwords (modelWords α f.variables_.length)] .minisat :=
    ⟨[], by rw [List.append_nil]⟩
  obtain ⟨A', -, -, hdecode⟩ := exists_decode_array false (by decide) (by decide) (by decide) rfl
    hencode hα hextra hfile
  rw [hdecode] at heq
  exact take_shownRows_ne A' A (Decoded.array.inj (Option.some.inj heq))

end Commands

end LatinSquares.Generator
