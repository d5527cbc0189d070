/-
# Arrays and squares

The array encoder, reduced or not, and the unreduced one-hot encoder ask for the
same thing. A model of an array formula describes an array; spread over the cells
its coordinate rows name, it gives the squares of a model of the one-hot formula,
and the squares of such a model give an array along any numbering of the cells.
-/

import LatinSquares.Generator.ArrayEncoder

namespace LatinSquares.Generator

open LatinSquares.Math

/-- The array read off a table of literals. -/
def ReadsArray {n size s : Nat} (core : Matrix) (α : Assignment) (A : Fin s → Fin size → Fin n) :
    Prop :=
  ∀ (r : Fin s) (c : Fin size) (v : Fin n), (core.entry r c v).eval α = true ↔ A r c = v

/-- The formula of the unreduced one-hot encoder, by the squares read off its models. -/
theorem LatinSquareEncoder.exists_cnf_reads {e : LatinSquareEncoder} (order : Order)
    (hreduced : e.reduced = false) (hn : 2 ≤ e.n) (hk : 2 ≤ e.k) (hq : e.q ≤ e.n * e.n) :
    ∃ f, e.cnf order = some f ∧ e.coreVariables.run {} = some (e.tables, e.coreState) ∧
      (∀ α, f.Holds α → ∃ F : Fin e.k → Square (Fin e.n), Reads e.tables α F ∧
        LatinFamily (fun _ _ => e.q) F) ∧
      ∀ F : Fin e.k → Square (Fin e.n), LatinFamily (fun _ _ => e.q) F →
        ∃ α, f.Holds α ∧ Reads e.tables α F := by
  obtain ⟨f, c, hf, -, -, hprojects⟩ := exists_cnf (P := fun _ => True) order hn hk hq
    (isFalse_lines_unreduced hreduced (by omega))
    (not_describes_unreduced hreduced (by omega) (by omega))
    (ensures_symmetry_unreduced hreduced) fun _ _ _ _ => Iff.rfl
  have hzero := hprojects 0 (Nat.zero_le _)
  simp only [List.take_zero, List.not_mem_nil, false_imp_iff, implies_true, and_true, true_and,
    incrementalBound_zero] at hzero
  obtain ⟨core, s, hrun, rfl, rfl⟩ := ensures_coreVariables (e := e) (by omega)
  refine ⟨f, hf, hrun, fun α hα => ?_, fun F hF => ?_⟩
  · obtain ⟨F, hdescribes, hfamily⟩ := hzero.sound α hα
    exact ⟨F, reads_tables_iff.mpr hdescribes, hfamily⟩
  · obtain ⟨α, hα⟩ := exists_describes (F := F) (by simp [oneHotKind, hreduced])
    obtain ⟨β, hαβ, hβ⟩ := hzero.complete α ⟨F, hα, hF⟩
    exact ⟨β, hβ, reads_tables_iff.mpr ((describes_dependsUpTo F hαβ).mp hα)⟩

namespace OrthogonalArrayEncoder

theorem readsArray_table_iff {e : OrthogonalArrayEncoder} {α : Assignment}
    {A : Fin e.s → Fin (e.n * e.n) → Fin e.n} : ReadsArray e.table α A ↔ e.Describes α A := by
  refine forall_congr' fun r => forall_congr' fun c => forall_congr' fun v => ?_
  rw [table, entry_matrixOf r.isLt c.isLt v.isLt]

/-- The formula of an array encoder, by the arrays read off its models. A reduced
encoder numbers the cells row by row. -/
theorem exists_cnf_reads (order : Order) (reduced : Bool) {n k q : Nat} (hn : 2 ≤ n) (hk : 1 ≤ k)
    (hq : q ≤ n * n) :
    let e := build reduced n k q
    ∃ f, e.cnf order = some f ∧ e.coreVariables.run {} = some (e.table, e.coreState) ∧
      (∀ α, f.Holds α → ∃ A : Fin (k + 2) → Fin (n * n) → Fin n,
        ReadsArray e.table α A ∧ IsArray q A) ∧
      ∀ A : Fin (k + 2) → Fin (n * n) → Fin n, IsArray q A →
        (∀ c, (A 0 c : Nat) = c / n) → (∀ c, (A 1 c : Nat) = c % n) →
          ∃ α, f.Holds α ∧ ReadsArray e.table α A := by
  intro e
  have hs : 2 < k + 2 := by omega
  have harray : ∀ A : Fin (k + 2) → Fin (n * n) → Fin n,
      IsArray q A ↔ ShowsPairs (n * n) q A := by
    intro A
    rw [isArray_iff_showsPairs, Fintype.card_fin]
  obtain ⟨f, c, hf, hrun, hprojects⟩ := exists_cnf (e := e) order hn hs hq
  refine ⟨f, hf, hrun, fun α hα => ?_, fun A hA hrow hcolumn => ?_⟩
  · obtain ⟨A, hdescribes, hpairs⟩ := hprojects.sound α hα
    exact ⟨A, readsArray_table_iff.mpr hdescribes, (harray A).mpr hpairs⟩
  · obtain ⟨α, hα⟩ := exists_describes_numbering (e := e) (A := A)
      (fun r hr c => by
        obtain rfl : r = (0 : Fin (k + 2)) := Fin.ext hr
        exact hrow c)
      (fun r hr c => by
        obtain rfl : r = (1 : Fin (k + 2)) := Fin.ext hr
        exact hcolumn c)
    obtain ⟨β, hαβ, hβ⟩ := hprojects.complete α ⟨A, hα, (harray A).mp hA⟩
    exact ⟨β, hβ, readsArray_table_iff.mpr ((describes_dependsUpTo A hαβ).mp hα)⟩

/-- The cells of a square of order `n`, row by row. -/
theorem bijective_numbering {n : Nat} (hn : 0 < n) :
    Function.Bijective fun c : Fin (n * n) =>
      ((⟨c / n, Nat.div_lt_of_lt_mul c.isLt⟩ : Fin n), (⟨c % n, Nat.mod_lt _ hn⟩ : Fin n)) := by
  rw [Fintype.bijective_iff_injective_and_card]
  refine ⟨fun c c' h => ?_, by simp⟩
  obtain ⟨hdiv, hmod⟩ := Prod.ext_iff.mp h
  simp only [Fin.mk.injEq] at hdiv hmod
  apply Fin.ext
  rw [← Nat.div_add_mod c n, ← Nat.div_add_mod c' n, hdiv, hmod]

/-- The array formulas and the one-hot formula are satisfiable together. In a model of
an array formula the coordinate rows run through all cells once; the later rows, read
at the columns that carry the coordinates of the cells, are the squares of a model of
the one-hot formula, with the same numbers of pairs, and the other way round. -/
theorem array_cnf_iff_oneHot (order : Order) {n k q : Nat} (hn : 2 ≤ n) (hk : 2 ≤ k)
    (hq : q ≤ n * n) :
    let latinOneHot : LatinSquareEncoder := { reduced := false, n, k, q }
    ∃ (f : Bool → CNF) (core : Bool → Matrix) (g : CNF) (squares : List Matrix),
      (∀ reduced, (build reduced n k q).cnf order = some (f reduced) ∧
        ((build reduced n k q).coreVariables.run {}).map Prod.fst = some (core reduced)) ∧
      latinOneHot.cnf order = some g ∧
      (latinOneHot.coreVariables.run {}).map Prod.fst = some squares ∧
      (∀ reduced, (∃ α, (f reduced).Holds α) ↔ ∃ β, g.Holds β) ∧
      (∀ reduced α, (f reduced).Holds α → ∃ (A : Fin (k + 2) → Fin (n * n) → Fin n)
        (F : Fin k → Square (Fin n)) (β : Assignment),
          ReadsArray (core reduced) α A ∧ (Function.Bijective fun c => (A 0 c, A 1 c)) ∧
          Spreads A F ∧ g.Holds β ∧ Reads squares β F ∧
          ∀ t u, pairCount (F t) (F u) = rowPairCount (A t.succ.succ) (A u.succ.succ)) ∧
      ∀ reduced β, g.Holds β → ∃ (F : Fin k → Square (Fin n))
        (A : Fin (k + 2) → Fin (n * n) → Fin n) (α : Assignment),
          Reads squares β F ∧ (f reduced).Holds α ∧ ReadsArray (core reduced) α A ∧
          (Function.Bijective fun c => (A 0 c, A 1 c)) ∧ Spreads A F ∧
          ∀ t u, pairCount (F t) (F u) = rowPairCount (A t.succ.succ) (A u.succ.succ) := by
  intro latinOneHot
  have hk1 : 1 ≤ k := by omega
  choose f hf hrun hsound hcomplete using fun reduced =>
    exists_cnf_reads order reduced hn hk1 hq
  obtain ⟨g, hg, hsquares, hgsound, hgcomplete⟩ :=
    LatinSquareEncoder.exists_cnf_reads (e := latinOneHot) order rfl hn hk hq
  have hcard : Fintype.card (Fin (n * n)) = Fintype.card (Fin n) * Fintype.card (Fin n) := by simp
  have hspread : ∀ reduced α, (f reduced).Holds α → ∃ (A : Fin (k + 2) → Fin (n * n) → Fin n)
      (F : Fin k → Square (Fin n)) (β : Assignment),
        ReadsArray (build reduced n k q).table α A ∧ (Function.Bijective fun c => (A 0 c, A 1 c)) ∧
        Spreads A F ∧ g.Holds β ∧ Reads latinOneHot.tables β F ∧
        ∀ t u, pairCount (F t) (F u) = rowPairCount (A t.succ.succ) (A u.succ.succ) := by
    intro reduced α hα
    obtain ⟨A, hreads, hA⟩ := hsound reduced α hα
    have hbijective := hA.bijective hcard
    obtain ⟨F, hF⟩ := exists_spreads hbijective
    obtain ⟨β, hβ, hsquaresRead⟩ := hgcomplete F (hF.latinFamily hbijective hA)
    exact ⟨A, F, β, hreads, hbijective, hF, hβ, hsquaresRead, hF.pairCount_eq hbijective⟩
  have hcollect : ∀ reduced β, g.Holds β → ∃ (F : Fin k → Square (Fin n))
      (A : Fin (k + 2) → Fin (n * n) → Fin n) (α : Assignment),
        Reads latinOneHot.tables β F ∧ (f reduced).Holds α ∧
        ReadsArray (build reduced n k q).table α A ∧
        (Function.Bijective fun c => (A 0 c, A 1 c)) ∧ Spreads A F ∧
        ∀ t u, pairCount (F t) (F u) = rowPairCount (A t.succ.succ) (A u.succ.succ) := by
    intro reduced β hβ
    obtain ⟨F, hreads, hF⟩ := hgsound β hβ
    have hcells := bijective_numbering (n := n) (by omega)
    have hA := isArray_arrayOf hcells hF
    obtain ⟨α, hα, harray⟩ := hcomplete reduced _ hA (fun _ => rfl) fun _ => rfl
    exact ⟨F, _, α, hreads, hα, harray, hcells, spreads_arrayOf,
      Spreads.pairCount_eq hcells spreads_arrayOf⟩
  refine ⟨f, fun reduced => (build reduced n k q).table, g, latinOneHot.tables,
    fun reduced => ⟨hf reduced, by rw [hrun reduced]; rfl⟩, hg, by rw [hsquares]; rfl,
    fun reduced => ⟨?_, ?_⟩, hspread, hcollect⟩
  · rintro ⟨α, hα⟩
    obtain ⟨-, -, β, -, -, -, hβ, -⟩ := hspread reduced α hα
    exact ⟨β, hβ⟩
  · rintro ⟨β, hβ⟩
    obtain ⟨-, -, α, -, hα, -⟩ := hcollect reduced β hβ
    exact ⟨α, hα⟩

/-- Two squares of order three and arrays of four rows, with at least seven pairs. -/
theorem array_cnf_iff_oneHot_three :
    let latinOneHot : LatinSquareEncoder := { reduced := false, n := 3, k := 2, q := 7 }
    ∃ (f : Bool → CNF) (core : Bool → Matrix) (g : CNF) (squares : List Matrix),
      (∀ reduced, (build reduced 3 2 7).cnf Order.identity = some (f reduced) ∧
        ((build reduced 3 2 7).coreVariables.run {}).map Prod.fst = some (core reduced)) ∧
      latinOneHot.cnf Order.identity = some g ∧
      (latinOneHot.coreVariables.run {}).map Prod.fst = some squares ∧
      (∀ reduced, (∃ α, (f reduced).Holds α) ↔ ∃ β, g.Holds β) ∧
      (∀ reduced α, (f reduced).Holds α → ∃ (A : Fin (2 + 2) → Fin (3 * 3) → Fin 3)
        (F : Fin 2 → Square (Fin 3)) (β : Assignment),
          ReadsArray (core reduced) α A ∧ (Function.Bijective fun c => (A 0 c, A 1 c)) ∧
          Spreads A F ∧ g.Holds β ∧ Reads squares β F ∧
          ∀ t u, pairCount (F t) (F u) = rowPairCount (A t.succ.succ) (A u.succ.succ)) ∧
      ∀ reduced β, g.Holds β → ∃ (F : Fin 2 → Square (Fin 3))
        (A : Fin (2 + 2) → Fin (3 * 3) → Fin 3) (α : Assignment),
          Reads squares β F ∧ (f reduced).Holds α ∧ ReadsArray (core reduced) α A ∧
          (Function.Bijective fun c => (A 0 c, A 1 c)) ∧ Spreads A F ∧
          ∀ t u, pairCount (F t) (F u) = rowPairCount (A t.succ.succ) (A u.succ.succ) :=
  array_cnf_iff_oneHot Order.identity (by decide) (by decide) (by decide)

end OrthogonalArrayEncoder

end LatinSquares.Generator
