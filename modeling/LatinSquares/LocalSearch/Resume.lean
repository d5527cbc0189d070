/-
# Searches that are stopped and resumed

A resumed search runs the constructor with the values of a log. The constructor draws a value for
every cell first; then the log overwrites the core variables, and every core variable that is true
looks for the value of its cell that lists it, so that the cell gets back its symbol.
-/

import LatinSquares.LocalSearch.Log

namespace LatinSquares.LocalSearch

open LatinSquares.Math

/-- The values of a cell list one positive literal each, and different ones; the cells are over the
core variables. -/
structure OneHotCells (metaVariables : List MetaVariable) (coreSize : Nat) : Prop where
  aligned : ∀ m ∈ metaVariables, m.values.length = m.variables_.length
  positive : ∀ m ∈ metaVariables, ∀ p ∈ m.domain, ∃ v, (⟨v, true⟩ : Literal) ∈ p.1
  symbol : ∀ m ∈ metaVariables, ∀ p ∈ m.domain, ∀ p' ∈ m.domain, ∀ v,
    (⟨v, true⟩ : Literal) ∈ p.1 → (⟨v, true⟩ : Literal) ∈ p'.1 → p.2 = p'.2
  covers : ∀ v, (1 ≤ v ∧ v ≤ coreSize) ↔ ∃ m ∈ metaVariables, v ∈ m.cell

/-- The cells of a grid are those of each of their values. -/
theorem Grid.mem_cell {metaVariables : List MetaVariable} (h : Grid metaVariables)
    {m : MetaVariable} (hm : m ∈ metaVariables) {literals : List Literal}
    (hliterals : literals ∈ m.variables_) {v : Nat} :
    v ∈ literals.map Literal.number ↔ v ∈ m.cell := by
  have hfirst : m.variables_.headD [] ∈ m.variables_ := by
    obtain ⟨first, rest, heq⟩ := List.exists_cons_of_ne_nil (List.ne_nil_of_mem hliterals)
    rw [heq]
    exact List.mem_cons_self
  exact ⟨h.same m hm literals hliterals _ hfirst v, h.same m hm _ hfirst literals hliterals v⟩

namespace HillClimbingSolver

variable {fuel : Nat} {clauses : List Clause} {toCompute : List Nat} {weights : Nat → UInt32}
variable {net : Net} {metaVariables : List MetaVariable} {coreSize : Nat} {first : List UInt8}
variable {rand : Nat → Nat} {p s s' : HillClimbingSolver}

/-- The constructor up to its first use of `rand`. -/
def prepare (fuel : Nat) (clauses : List Clause) (toCompute : List Nat) (weights : Nat → UInt32)
    (net : Net) (metaVariables : List MetaVariable) : Option HillClimbingSolver := do
  let s ← unreduced clauses toCompute weights net metaVariables
  let s ← s.reduce fuel
  let metaValues ← fixConstants s.metaValues
  return { s with metaValues }

theorem construct_eq : construct fuel clauses toCompute weights net metaVariables coreSize first
    rand = do
      let p ← prepare fuel clauses toCompute weights net metaVariables
      let s ← p.chooseValues rand
      let s ← s.takeAll coreSize first
      return countClauses toCompute { s with propagated := s.net.evaluate s.propagated } := by
  unfold construct prepare
  simp only [bind_assoc, pure_bind]

/-- `reduce` changes the meta variables with `narrow` and nothing else of the cells. -/
theorem reduce_rel {R : HillClimbingSolver → HillClimbingSolver → Prop}
    (htrans : ∀ {s₁ s₂ s₃}, R s₁ s₂ → R s₂ s₃ → R s₁ s₃)
    (hsame : ∀ {s s'}, SameBut s s' → R s s')
    (hfix : ∀ (r : Reduction) literal, R r.solver (r.fix literal).solver)
    (h : s.reduce fuel = some s') : R s s' := by
  have hrefl (s : HillClimbingSolver) : R s s := hsame (SameBut.refl s)
  have hvisit : ∀ (r : Reduction) (index : Nat), R r.solver (r.visit index).solver := by
    intro r index
    unfold Reduction.visit
    split
    · split
      · exact hrefl _
      · exact hfix r _
    · exact hrefl _
  have hpass : ∀ (indices : List Nat) (r : Reduction),
      R r.solver (indices.foldl Reduction.visit r).solver := by
    intro indices
    induction indices with
    | nil => exact fun r => hrefl _
    | cons index indices ih => exact fun r => htrans (hvisit r index) (ih (r.visit index))
  have hpropagate : ∀ (fuel : Nat) (r r' : Reduction), Reduction.propagate fuel r = some r' →
      R r.solver r'.solver := by
    intro fuel
    induction fuel with
    | zero => exact fun _ _ h => nomatch h
    | succ fuel ih =>
        intro r r' h
        rw [Reduction.propagate] at h
        split at h
        · exact htrans (hpass _ { r with changed := false }) (ih _ _ h)
        · cases h
          exact hrefl _
  have herase : ∀ (index : Nat) (literals : List Literal), ∀ literal ∈ literals,
      ∀ s s' : HillClimbingSolver, s.eraseEntry index literal = some s' → R s s' := by
    intro index literals literal _ s s' h
    unfold eraseEntry at h
    split at h
    · cases h
      exact hsame (sameBut_setClausesWith s literal _)
    · cases h
  obtain ⟨r, hloop, hrest⟩ := Option.bind_eq_some_iff.mp h
  obtain ⟨shrunk, hshrink, hclear⟩ := Option.bind_eq_some_iff.mp hrest
  cases hclear
  apply htrans (hpropagate _ _ _ hloop)
  apply htrans _ (hsame (foldl_clearLists r.unitPropagationCache shrunk).1)
  apply foldlM_rel hrefl htrans _ hshrink
  intro index _ s s' hstep
  split at hstep
  · cases hstep
    exact hrefl s
  · obtain ⟨erased, herased, hkept⟩ := Option.bind_eq_some_iff.mp hstep
    obtain ⟨kept, -, hset⟩ := Option.bind_eq_some_iff.mp hkept
    cases hset
    exact htrans (foldlM_rel hrefl htrans (herase index _) herased) (hsame rfl)

/-- What the constructor has of the cells before it draws their values. -/
structure Prepared (metaVariables : List MetaVariable) (net : Net) (p : HillClimbingSolver) :
    Prop where
  thins : List.Forall₂ MetaVariable.Thins metaVariables p.metaVariables
  aligned : ∀ m ∈ p.metaVariables, m.values.length = m.variables_.length
  indexed : Indexed metaVariables p.literalToMetaVariable
  net : p.net = net
  constants : fixConstants (metaVariables.foldl reserve []) = some p.metaValues

theorem prepared_of_eq_some (hcells : OneHotCells metaVariables coreSize)
    (h : prepare fuel clauses toCompute weights net metaVariables = some p) :
    Prepared metaVariables net p := by
  obtain ⟨s₀, hs₀, hrest⟩ := Option.bind_eq_some_iff.mp h
  obtain ⟨s₁, hreduce, hrest⟩ := Option.bind_eq_some_iff.mp hrest
  obtain ⟨metaValues, hfix, hprepared⟩ := Option.bind_eq_some_iff.mp hrest
  obtain ⟨table, htable, hunreduced⟩ := Option.bind_eq_some_iff.mp hs₀
  cases hprepared
  cases hunreduced
  have hthinned := thinned_reduce hreduce
  have hcellsKept := reduce_rel
    (R := fun s s' => s'.literalToMetaVariable = s.literalToMetaVariable ∧
      ((∀ m ∈ s.metaVariables, m.values.length = m.variables_.length) →
        ∀ m ∈ s'.metaVariables, m.values.length = m.variables_.length))
    (fun h h' => ⟨h'.1.trans h.1, fun haligned => h'.2 (h.2 haligned)⟩)
    (fun h => by
      rw [h]
      exact ⟨rfl, id⟩)
    (fun r literal => by
      refine ⟨rfl, fun haligned => ?_⟩
      unfold Reduction.fix
      dsimp only
      split
      · exact haligned
      · intro m hm
        obtain ⟨k, hk, rfl⟩ := List.getElem_of_mem hm
        rw [List.getElem_modify]
        split
        · simp [MetaVariable.narrow]
        · exact haligned _ (List.getElem_mem _)) hreduce
  refine ⟨hthinned.metaVariables, hcellsKept.2 hcells.aligned, ?_, hthinned.net, ?_⟩
  · change Indexed metaVariables s₁.literalToMetaVariable
    rw [hcellsKept.1]
    exact indexed_of_eq_some htable
  · rw [hthinned.metaValues] at hfix
    exact hfix

/-- A state of a search whose constructor had prepared `p`. -/
structure Settled (p s : HillClimbingSolver) : Prop where
  room : ∀ m ∈ p.metaVariables, (metaValueAt p.metaValues m.place).isSome = true
  metaVariables : s.metaVariables = p.metaVariables
  net : s.net = p.net
  mirrors : Mirrors s
  constants : ∀ place ∉ p.metaVariables.map MetaVariable.place,
    metaValueAt s.metaValues place = metaValueAt p.metaValues place

theorem Settled.accept {order : SwapOrder} (h : Settled p s) (hgrid : Grid p.metaVariables)
    (hnet : KeepsCells order p.net p.metaVariables) (haccept : Accepts order s s') :
    Settled p s' := by
  obtain ⟨bag, hbag, haccept⟩ := haccept
  rw [← h.metaVariables] at hgrid
  rw [← h.net, ← h.metaVariables] at hnet
  have hmoved := h.mirrors.accept hgrid hnet hbag haccept
  refine ⟨h.room, hmoved.metaVariables.trans h.metaVariables, hmoved.net.trans h.net,
    hmoved.mirrors, fun place hplace => ?_⟩
  rw [hmoved.metaValues place (by rwa [h.metaVariables]), h.constants place hplace]

section Choosing

variable {metaValues metaValues' : List (List (List UInt32))} {m : MetaVariable} {value : UInt8}

theorem isSome_setValue (h : m.setValue metaValues value = some metaValues')
    (place : Nat × Nat × Nat) :
    (metaValueAt metaValues' place).isSome = (metaValueAt metaValues place).isSome := by
  rw [metaValueAt_setValue h]
  split
  · next hplace =>
      unfold MetaVariable.setValue at h
      split at h
      · next hsome => rw [hplace, hsome, Option.isSome_some]
      · cases h
  · rfl

theorem exists_setValue (h : (metaValueAt metaValues m.place).isSome = true) (value : UInt8) :
    ∃ metaValues', m.setValue metaValues value = some metaValues' := by
  unfold MetaVariable.setValue
  rw [if_pos h]
  exact ⟨_, rfl⟩

/-- The choice of a value needs a value, and a place for it. -/
theorem exists_chooseValue (haligned : m.values.length = m.variables_.length)
    (hne : m.variables_ ≠ []) (hplace : (metaValueAt s.metaValues m.place).isSome = true)
    (number : Nat) : ∃ s', s.chooseValue m number = some s' := by
  have hlt : number % m.variables_.length < m.variables_.length :=
    Nat.mod_lt _ (List.length_pos_iff.mpr hne)
  have hvalue : number % m.variables_.length < m.values.length := haligned ▸ hlt
  obtain ⟨metaValues, hset⟩ := exists_setValue hplace m.values[number % m.variables_.length]
  unfold chooseValue
  simp [haligned, hlt, hset]

theorem chooseValue_keeps {number : Nat} (h : s.chooseValue m number = some s') :
    s'.literalToMetaVariable = s.literalToMetaVariable ∧ ∀ place,
      (metaValueAt s'.metaValues place).isSome = (metaValueAt s.metaValues place).isSome := by
  obtain ⟨value, -, hrest⟩ := Option.bind_eq_some_iff.mp h
  obtain ⟨metaValues, hset, hrest⟩ := Option.bind_eq_some_iff.mp hrest
  obtain ⟨literals, -, hchosen⟩ := Option.bind_eq_some_iff.mp hrest
  cases hchosen
  exact ⟨rfl, isSome_setValue hset⟩

theorem chooseValues_keeps (h : s.chooseValues rand = some s') :
    s'.literalToMetaVariable = s.literalToMetaVariable ∧ ∀ place,
      (metaValueAt s'.metaValues place).isSome = (metaValueAt s.metaValues place).isSome := by
  refine foldlM_rel (R := fun s s' : HillClimbingSolver =>
    s'.literalToMetaVariable = s.literalToMetaVariable ∧ ∀ place,
      (metaValueAt s'.metaValues place).isSome = (metaValueAt s.metaValues place).isSome)
    (fun s => ⟨rfl, fun _ => rfl⟩) (fun h h' => ⟨h'.1.trans h.1, fun place => ?_⟩)
    (fun p _ s s' hstep => chooseValue_keeps hstep) h
  exact (h'.2 place).trans (h.2 place)

theorem exists_chooseValues
    (haligned : ∀ m ∈ s.metaVariables, m.values.length = m.variables_.length)
    (hne : ∀ m ∈ s.metaVariables, m.variables_ ≠ [])
    (hroom : ∀ m ∈ s.metaVariables, (metaValueAt s.metaValues m.place).isSome = true)
    (rand : Nat → Nat) : ∃ s', s.chooseValues rand = some s' := by
  have hloop := exists_foldlM (l := s.metaVariables.zipIdx) (a := s)
    (f := fun s p => s.chooseValue p.1 (rand p.2))
    (P := fun u => ∀ m ∈ s.metaVariables, (metaValueAt u.metaValues m.place).isSome = true)
    hroom fun p hp u hu => by
      have hm : p.1 ∈ s.metaVariables := by
        have hpair := List.mem_map_of_mem (f := Prod.fst) hp
        rwa [List.zipIdx_map_fst] at hpair
      obtain ⟨u', hu'⟩ := exists_chooseValue (haligned p.1 hm) (hne p.1 hm) (hu p.1 hm) (rand p.2)
      refine ⟨u', hu', fun m hm => ?_⟩
      rw [(chooseValue_keeps hu').2, hu m hm]
  obtain ⟨s', hs', -⟩ := hloop
  exact ⟨s', hs'⟩

end Choosing

section Restoring

variable {m m' : MetaVariable} {k v n : Nat} {r u : HillClimbingSolver}

theorem Prepared.exists_cell (hp : Prepared metaVariables net p)
    (hm : p.metaVariables[k]? = some m) :
    ∃ m₀, metaVariables[k]? = some m₀ ∧ m₀.Thins m := by
  obtain ⟨hk, rfl⟩ := List.getElem?_eq_some_iff.mp hm
  have hk' : k < metaVariables.length := hp.thins.length_eq ▸ hk
  exact ⟨_, List.getElem?_eq_getElem hk', List.Forall₂.get hp.thins hk' hk⟩

/-- The variables of a cell are core variables. -/
theorem Prepared.core_of_mem (hp : Prepared metaVariables net p) (hgrid : Grid metaVariables)
    (hcells : OneHotCells metaVariables coreSize) (hm : m ∈ p.metaVariables)
    {literals : List Literal}
    (hliterals : literals ∈ m.variables_) (hv : v ∈ literals.map Literal.number) :
    1 ≤ v ∧ v ≤ coreSize := by
  obtain ⟨m₀, hm₀, hthins⟩ := exists_of_forall₂ hp.thins hm
  refine (hcells.covers v).mpr ⟨m₀, hm₀, ?_⟩
  exact (hgrid.mem_cell hm₀ (hthins.variables_ hliterals)).mp hv

theorem disjoint_cells (hgrid : Grid metaVariables) :
    metaVariables.Pairwise fun m m' => ∀ v ∈ m.cell, v ∉ m'.cell := by
  have hmem : ∀ {m : MetaVariable} {v : Nat}, v ∈ m.cell →
      m.variables_.headD [] ∈ m.variables_ := by
    intro m v hv
    unfold MetaVariable.cell at hv
    cases hvariables : m.variables_ with
    | nil =>
        rw [hvariables] at hv
        exact absurd hv List.not_mem_nil
    | cons literals rest => exact List.mem_cons_self
  exact hgrid.disjoint.imp fun h v hv hv' => h _ (hmem hv) _ (hmem hv') v hv hv'

/-- The table leads from a variable of a value to the cell. -/
theorem Prepared.table_eq (hp : Prepared metaVariables net p) (hgrid : Grid metaVariables)
    (hm : p.metaVariables[k]? = some m) {literals : List Literal}
    (hliterals : literals ∈ m.variables_)
    (hv : v ∈ literals.map Literal.number) : p.literalToMetaVariable v = some k := by
  obtain ⟨m₀, hm₀, hthins⟩ := hp.exists_cell hm
  refine hp.indexed.eq_some (disjoint_cells hgrid) hm₀ ?_
  exact (hgrid.mem_cell (List.mem_of_getElem? hm₀) (hthins.variables_ hliterals)).mp hv

/-- A variable is one of a single cell. -/
theorem Prepared.eq_of_table (hp : Prepared metaVariables net p) (hgrid : Grid metaVariables)
    (hm : p.metaVariables[k]? = some m) (htable : p.literalToMetaVariable v = some k)
    (hm' : m' ∈ p.metaVariables) {literals : List Literal} (hliterals : literals ∈ m'.variables_)
    (hv : v ∈ literals.map Literal.number) : m' = m := by
  obtain ⟨k', hk'⟩ := List.mem_iff_getElem?.mp hm'
  have hsame : some k = some k' := htable.symm.trans (hp.table_eq hgrid hk' hliterals hv)
  obtain rfl := Option.some.inj hsame
  exact Option.some.inj (hk'.symm.trans hm)

/-- A true variable leads to the symbol that its cell has. -/
theorem Settled.metaValueAt_eq (hs : Settled p s) (hp : Prepared metaVariables net p)
    (hgrid : Grid metaVariables) (hcells : OneHotCells metaVariables coreSize)
    (hm : p.metaVariables[k]? = some m) {q : List Literal × UInt8} (hq : q ∈ m.domain)
    (hv : (⟨v, true⟩ : Literal) ∈ q.1) (htrue : s.propagated v = 1) :
    metaValueAt s.metaValues m.place = some q.2.toUInt32 := by
  obtain ⟨m₀, hm₀, hthins⟩ := hp.exists_cell hm
  have hmem := List.mem_of_getElem? hm₀
  obtain ⟨entry, hentry, hat, hholds⟩ := hs.mirrors m (hs.metaVariables ▸ List.mem_of_getElem? hm)
  have hvariable : v ∈ q.1.map Literal.number := List.mem_map_of_mem (f := Literal.number) hv
  have hsame := hgrid.same m₀ hmem q.1
    (hthins.variables_ (MetaVariable.mem_variables_of_mem_domain hq)) entry.1
    (hthins.variables_ (MetaVariable.mem_variables_of_mem_domain hentry)) v hvariable
  obtain ⟨l, hl, rfl⟩ := List.mem_map.mp hsame
  have hpositive : l = ⟨l.number, true⟩ := by
    have hvalue := hholds l hl
    rw [htrue] at hvalue
    obtain ⟨number, value⟩ := l
    cases value with
    | false => cases hvalue
    | true => rfl
  rw [hat, hcells.symbol m₀ hmem entry (hthins.domain hentry) q (hthins.domain hq) l.number
    (hpositive ▸ hl) hv]

/-- The constructor of a resumed search after it has taken the values of `n` core variables. -/
structure Restored (p s r : HillClimbingSolver) (n : Nat) : Prop where
  metaVariables : r.metaVariables = p.metaVariables
  net : r.net = p.net
  table : r.literalToMetaVariable = p.literalToMetaVariable
  propagated : ∀ v, 1 ≤ v → v ≤ n → r.propagated v = s.propagated v
  room : ∀ m ∈ p.metaVariables, (metaValueAt r.metaValues m.place).isSome = true
  constants : ∀ place ∉ p.metaVariables.map MetaVariable.place,
    metaValueAt r.metaValues place = metaValueAt p.metaValues place
  cells : ∀ m ∈ p.metaVariables, ∀ literals ∈ m.variables_, ∀ v, 1 ≤ v → v ≤ n →
    (⟨v, true⟩ : Literal) ∈ literals → s.propagated v = 1 →
      metaValueAt r.metaValues m.place = metaValueAt s.metaValues m.place

theorem Restored.update_eq (h : Restored p s r n) (hpos : 1 ≤ v) (hv : v ≤ n + 1) :
    Function.update r.propagated (n + 1) (s.propagated (n + 1)) v = s.propagated v := by
  by_cases heq : v = n + 1
  · rw [heq, Function.update_self]
  · rw [Function.update_of_ne heq, h.propagated v hpos (by omega)]

/-- A variable that is not the true one of a cell leaves the symbols as they are. -/
theorem Restored.keep (h : Restored p s r n)
    (hnone : ∀ m ∈ p.metaVariables, ∀ literals ∈ m.variables_,
      (⟨n + 1, true⟩ : Literal) ∈ literals → s.propagated (n + 1) ≠ 1) :
    Restored p s { r with
      propagated := Function.update r.propagated (n + 1) (s.propagated (n + 1)) } (n + 1) := by
  refine ⟨h.metaVariables, h.net, h.table, fun v => h.update_eq, h.room, h.constants, ?_⟩
  intro m hm literals hliterals v hpos hv hl htrue
  rcases Nat.le_succ_iff.mp hv with hle | rfl
  · exact h.cells m hm literals hliterals v hpos hle hl htrue
  · exact absurd htrue (hnone m hm literals hliterals hl)

/-- A variable of one cell alone gives this cell the symbol that it has in `s`. -/
theorem Restored.write (h : Restored p s r n) (hmem : m ∈ p.metaVariables) {value : UInt8}
    {metaValues : List (List (List UInt32))}
    (hset : m.setValue r.metaValues value = some metaValues)
    (hvalue : metaValueAt s.metaValues m.place = some value.toUInt32)
    (hown : ∀ m' ∈ p.metaVariables, ∀ literals ∈ m'.variables_,
      (⟨n + 1, true⟩ : Literal) ∈ literals → m' = m) :
    Restored p s { r with
      propagated := Function.update r.propagated (n + 1) (s.propagated (n + 1))
      metaValues } (n + 1) := by
  refine ⟨h.metaVariables, h.net, h.table, fun v => h.update_eq, ?_, ?_, ?_⟩
  · intro m' hm'
    rw [isSome_setValue hset, h.room m' hm']
  · intro place houtside
    have hother : place ≠ m.place := by
      rintro rfl
      exact houtside (List.mem_map_of_mem hmem)
    dsimp only
    rw [metaValueAt_setValue hset, if_neg hother, h.constants place houtside]
  · intro m' hm' literals hliterals v hpos hv hl htrue
    dsimp only
    rw [metaValueAt_setValue hset]
    split
    · next heq => rw [heq, hvalue]
    · next hother =>
        rcases Nat.le_succ_iff.mp hv with hle | rfl
        · exact h.cells m' hm' literals hliterals v hpos hle hl htrue
        · exact absurd (congrArg MetaVariable.place (hown m' hm' literals hliterals hl)) hother

/-- One round of the loop over the start values. -/
theorem Restored.takeFirst (h : Restored p s r n) (hs : Settled p s)
    (hp : Prepared metaVariables net p) (hgrid : Grid metaVariables)
    (hcells : OneHotCells metaVariables coreSize)
    (hfirst : first[n + 1]? = some (s.propagated (n + 1)))
    (hknown : s.propagated (n + 1) ≠ 0 → s.propagated (n + 1) = 1) :
    ∃ r', r.takeFirst first (n + 1) = some r' ∧ Restored p s r' (n + 1) := by
  unfold HillClimbingSolver.takeFirst
  rw [hfirst, Option.bind_eq_bind, Option.bind_some]
  dsimp only
  by_cases hzero : s.propagated (n + 1) = 0
  · rw [if_pos hzero]
    refine ⟨_, rfl, h.keep fun m hm literals hliterals hl => ?_⟩
    rw [hzero]
    decide
  · rw [if_neg hzero]
    cases htable : r.literalToMetaVariable (n + 1) with
    | none =>
        rw [h.table] at htable
        refine ⟨_, rfl, h.keep fun m hm literals hliterals hl => ?_⟩
        obtain ⟨k, hk⟩ := List.mem_iff_getElem?.mp hm
        have hvariable := List.mem_map_of_mem (f := Literal.number) hl
        rw [hp.table_eq hgrid hk hliterals hvariable] at htable
        cases htable
    | some k =>
        rw [h.table] at htable
        obtain ⟨m₀, hm₀, -⟩ := hp.indexed.sound (n + 1) k htable
        have hk : k < p.metaVariables.length :=
          hp.thins.length_eq ▸ (List.getElem?_eq_some_iff.mp hm₀).1
        obtain ⟨m, hm⟩ : ∃ m, p.metaVariables[k]? = some m := ⟨_, List.getElem?_eq_getElem hk⟩
        have hmem := List.mem_of_getElem? hm
        have hown : ∀ m' ∈ p.metaVariables, ∀ literals ∈ m'.variables_,
            (⟨n + 1, true⟩ : Literal) ∈ literals → m' = m := by
          intro m' hm' literals hliterals hl
          have hvariable := List.mem_map_of_mem (f := Literal.number) hl
          exact hp.eq_of_table hgrid hm htable hm' hliterals hvariable
        have hread : r.metaVariables[k]? = some m := by rw [h.metaVariables, hm]
        dsimp only
        rw [hread, Option.bind_eq_bind, Option.bind_some]
        cases hfind : m.variables_.findIdx? fun literals =>
            literals.contains (⟨n + 1, true⟩ : Literal) with
        | none =>
            refine ⟨_, rfl, h.keep fun m' hm' literals hliterals hl => ?_⟩
            obtain rfl := hown m' hm' literals hliterals hl
            have hnone := List.findIdx?_eq_none_iff.mp hfind literals hliterals
            simp [hl] at hnone
        | some index =>
            obtain ⟨hindex, hcontains, -⟩ := List.findIdx?_eq_some_iff_getElem.mp hfind
            have hlength : index < m.values.length := hp.aligned m hmem ▸ hindex
            have hentry : (m.variables_[index], m.values[index]) ∈ m.domain := by
              refine List.mem_of_getElem? (i := index) ?_
              exact List.getElem?_zip_eq_some.mpr ⟨List.getElem?_eq_getElem hindex,
                List.getElem?_eq_getElem hlength⟩
            have hl : (⟨n + 1, true⟩ : Literal) ∈ m.variables_[index] := by simpa using hcontains
            have hvalue := hs.metaValueAt_eq hp hgrid hcells hm hentry hl (hknown hzero)
            obtain ⟨metaValues, hset⟩ := exists_setValue (h.room m hmem) m.values[index]
            dsimp only
            rw [List.getElem?_eq_getElem hlength, Option.bind_some, hset]
            exact ⟨_, rfl, h.write hmem hset hvalue hown⟩

/-- Every core variable belongs to a cell that has a value. -/
theorem Settled.known (hs : Settled p s) (hp : Prepared metaVariables net p)
    (hgrid : Grid metaVariables) (hcells : OneHotCells metaVariables coreSize) {v : Nat}
    (hpos : 1 ≤ v) (hv : v ≤ coreSize) :
    s.propagated v = (decide (s.propagated v = 1)).toUInt8 := by
  obtain ⟨m₀, hm₀, hcell⟩ := (hcells.covers v).mp ⟨hpos, hv⟩
  obtain ⟨m, hm, hthins⟩ := exists_of_forall₂ hp.thins.flip hm₀
  obtain ⟨entry, hentry, -, hholds⟩ := hs.mirrors m (hs.metaVariables ▸ hm)
  have hthins : m₀.Thins m := hthins
  have hvariable := (hgrid.mem_cell hm₀
    (hthins.variables_ (MetaVariable.mem_variables_of_mem_domain hentry))).mpr hcell
  obtain ⟨l, hl, rfl⟩ := List.mem_map.mp hvariable
  rw [hholds l hl]
  cases l.value <;> rfl

theorem Restored.takeAll (hs : Settled p s) (hp : Prepared metaVariables net p)
    (hgrid : Grid metaVariables) (hcells : OneHotCells metaVariables coreSize)
    (hfirst : ∀ v, 1 ≤ v → v ≤ coreSize → first[v]? = some (s.propagated v)) (hne : first ≠ [])
    (h : Restored p s r 0) :
    ∃ r', r.takeAll coreSize first = some r' ∧ Restored p s r' coreSize := by
  have hloop : (List.range' 1 coreSize).foldlM (HillClimbingSolver.takeFirst first) r =
      (List.range coreSize).foldlM (fun r i => r.takeFirst first (i + 1)) r := by
    rw [List.range'_eq_map_range, List.foldlM_map]
    simp only [add_comm 1]
  rw [HillClimbingSolver.takeAll, if_neg hne, hloop]
  refine exists_foldlM_range (P := fun n r => Restored p s r n) h fun n hn r hr => ?_
  have hvalue := hs.known hp hgrid hcells (v := n + 1) (by omega) hn
  refine hr.takeFirst hs hp hgrid hcells (hfirst _ (by omega) hn) fun hzero => ?_
  rw [hvalue] at hzero ⊢
  cases hone : decide (s.propagated (n + 1) = 1) with
  | false => exact absurd (by rw [hone]; rfl) hzero
  | true => rfl

/-- With all core variables taken, all cells have the symbols of `s`. -/
theorem Restored.metaValueAt_eq (h : Restored p s r coreSize) (hs : Settled p s)
    (hp : Prepared metaVariables net p) (hgrid : Grid metaVariables)
    (hcells : OneHotCells metaVariables coreSize) (place : Nat × Nat × Nat) :
    metaValueAt r.metaValues place = metaValueAt s.metaValues place := by
  by_cases hplace : place ∈ p.metaVariables.map MetaVariable.place
  · obtain ⟨m, hm, rfl⟩ := List.mem_map.mp hplace
    obtain ⟨m₀, hm₀, hthins⟩ := exists_of_forall₂ hp.thins hm
    obtain ⟨entry, hentry, -, hholds⟩ := hs.mirrors m (hs.metaVariables ▸ hm)
    obtain ⟨v, hv⟩ := hcells.positive m₀ hm₀ entry (hthins.domain hentry)
    have hliterals := MetaVariable.mem_variables_of_mem_domain hentry
    obtain ⟨hpos, hle⟩ := hp.core_of_mem hgrid hcells hm hliterals
      (List.mem_map_of_mem (f := Literal.number) hv)
    exact h.cells m hm entry.1 hliterals v hpos hle hv (hholds _ hv)
  · rw [h.constants place hplace, hs.constants place hplace]

/-- A search that is resumed goes on from the same core variables and the same squares. -/
theorem Settled.exists_construct (hs : Settled p s)
    (hprepare : prepare fuel clauses toCompute weights net metaVariables = some p)
    (hgrid : Grid metaVariables) (hcells : OneHotCells metaVariables coreSize)
    (hfirst : ∀ v, 1 ≤ v → v ≤ coreSize → first[v]? = some (s.propagated v)) (hne : first ≠ [])
    (rand : Nat → Nat) :
    ∃ s', construct fuel clauses toCompute weights net metaVariables coreSize first rand = some s' ∧
      Settled p s' ∧ (∀ v, 1 ≤ v → v ≤ coreSize → s'.propagated v = s.propagated v) ∧
      ∀ place, metaValueAt s'.metaValues place = metaValueAt s.metaValues place := by
  have hp := prepared_of_eq_some hcells hprepare
  have hgrid' := hgrid.thins hp.thins
  have hmirror : ∀ m ∈ p.metaVariables, Mirrored s.metaValues s.propagated m :=
    fun m hm => hs.mirrors m (hs.metaVariables ▸ hm)
  obtain ⟨u, hu⟩ := exists_chooseValues hp.aligned (fun m hm => by
    obtain ⟨entry, hentry, -⟩ := hmirror m hm
    exact List.ne_nil_of_mem (MetaVariable.mem_variables_of_mem_domain hentry)) hs.room rand
  have hchosen := chosen_chooseValues hgrid' hu
  obtain ⟨htable, hroom⟩ := chooseValues_keeps hu
  have hstart : Restored p s u 0 := by
    refine ⟨hchosen.metaVariables, hchosen.net, htable, fun v hpos hv => absurd hv (by omega),
      fun m hm => ?_, hchosen.metaValues,
      fun m hm literals hliterals v hpos hv => absurd hv (by omega)⟩
    rw [hroom, hs.room m hm]
  obtain ⟨r, hr, hrestored⟩ := Restored.takeAll hs hp hgrid hcells hfirst hne hstart
  let s' := countClauses toCompute { r with propagated := r.net.evaluate r.propagated }
  obtain ⟨hmeta, hvalues, hunits, hnet, -⟩ := countClauses_keeps toCompute
    { r with propagated := r.net.evaluate r.propagated }
  have hpropagated : ∀ v, 1 ≤ v → v ≤ coreSize → s'.propagated v = s.propagated v := by
    intro v hpos hv
    have hknown := hs.known hp hgrid hcells hpos hv
    show (countClauses toCompute _).propagated v = _
    rw [hunits]
    dsimp only
    rw [Net.evaluate_of_known, hrestored.propagated v hpos hv]
    rw [hrestored.propagated v hpos hv, hknown]
    cases decide (s.propagated v = 1) <;> decide
  have hplaces : ∀ place, metaValueAt s'.metaValues place = metaValueAt s.metaValues place := by
    intro place
    show metaValueAt (countClauses toCompute _).metaValues place = _
    rw [hvalues]
    exact hrestored.metaValueAt_eq hs hp hgrid hcells place
  refine ⟨s', ?_, ⟨hs.room, hmeta.trans hrestored.metaVariables, hnet.trans hrestored.net, ?_, ?_⟩,
    hpropagated, hplaces⟩
  · rw [construct_eq, hprepare, Option.bind_eq_bind, Option.bind_some, hu, Option.bind_some, hr]
    rfl
  · intro m hm
    rw [hmeta, hrestored.metaVariables] at hm
    refine (hmirror m hm).congr (hplaces m.place) fun literals hliterals v hv => ?_
    obtain ⟨hpos, hle⟩ := hp.core_of_mem hgrid hcells hm hliterals hv
    exact hpropagated v hpos hle
  · intro place hplace
    rw [hplaces, hs.constants place hplace]

end Restoring

/-- A search without start values. -/
theorem settled_construct (hgrid : Grid metaVariables) (hcells : OneHotCells metaVariables coreSize)
    (h : construct fuel clauses toCompute weights net metaVariables coreSize [] rand = some s) :
    ∃ p, prepare fuel clauses toCompute weights net metaVariables = some p ∧ Settled p s := by
  rw [construct_eq] at h
  obtain ⟨p, hprepare, hrest⟩ := Option.bind_eq_some_iff.mp h
  obtain ⟨u, hu, hrest⟩ := Option.bind_eq_some_iff.mp hrest
  obtain ⟨r, hr, hdone⟩ := Option.bind_eq_some_iff.mp hrest
  cases hr
  cases hdone
  have hp := prepared_of_eq_some hcells hprepare
  have hchosen := chosen_chooseValues (hgrid.thins hp.thins) hu
  obtain ⟨hmeta, hvalues, hunits, hnet, -⟩ := countClauses_keeps toCompute
    { u with propagated := u.net.evaluate u.propagated }
  refine ⟨p, hprepare, fun m hm => ?_, hmeta.trans hchosen.metaVariables, hnet.trans hchosen.net,
    fun m hm => ?_, fun place hplace => ?_⟩
  · obtain ⟨entry, -, hat, -⟩ := hchosen.mirrored m hm
    rw [← (chooseValues_keeps hu).2, hat, Option.isSome_some]
  · rw [hmeta, hchosen.metaVariables] at hm
    rw [hvalues, hunits]
    obtain ⟨entry, hentry, hat, htrue⟩ := hchosen.mirrored m hm
    refine ⟨entry, hentry, hat, fun l hl => ?_⟩
    dsimp only
    rw [Net.evaluate_of_known, htrue l hl]
    rw [htrue l hl]
    cases l.value <;> decide
  · rw [hvalues]
    exact hchosen.metaValues place hplace

end HillClimbingSolver

end LatinSquares.LocalSearch
