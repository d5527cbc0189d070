/-
# The second copy of the assignment

`metaValues` says in numbers what `propagated` says in literals. Where the meta variables
stand for different cells over different variables, the constructor writes both copies from
the same value, and every accepted move flips the literals of a cell exactly when it writes
its number. The variables of the net may not be those of a cell, since the net flips its
variables without writing a number.
-/

import LatinSquares.LocalSearch.Moves

namespace LatinSquares.LocalSearch

open LatinSquares.Math

/-- Different cells over different variables, and every value of a cell decides the same
variables. -/
structure Grid (metaVariables : List MetaVariable) : Prop where
  places : (metaVariables.map MetaVariable.place).Nodup
  nodup : ∀ m ∈ metaVariables, ∀ literals ∈ m.variables_, (literals.map Literal.number).Nodup
  same : ∀ m ∈ metaVariables, ∀ literals ∈ m.variables_, ∀ literals' ∈ m.variables_,
    ∀ v ∈ literals.map Literal.number, v ∈ literals'.map Literal.number
  disjoint : metaVariables.Pairwise fun m m' => ∀ literals ∈ m.variables_,
    ∀ literals' ∈ m'.variables_, ∀ v ∈ literals.map Literal.number,
      v ∉ literals'.map Literal.number

/-- The cell has a value of its domain in both copies. -/
def Mirrored (metaValues : List (List (List UInt32))) (units : Units) (m : MetaVariable) : Prop :=
  ∃ entry ∈ m.domain, metaValueAt metaValues m.place = some entry.2.toUInt32 ∧
    ∀ l ∈ entry.1, units l.number = l.value.toUInt8

/-- Both copies agree on every cell that has a meta variable. -/
def Mirrors (s : HillClimbingSolver) : Prop :=
  ∀ m ∈ s.metaVariables, Mirrored s.metaValues s.propagated m

/-- The same cell with part of its domain. -/
structure MetaVariable.Thins (m m' : MetaVariable) : Prop where
  place : m'.place = m.place
  variables_ : m'.variables_ ⊆ m.variables_
  domain : m'.domain ⊆ m.domain

section Values

variable {metaValues metaValues' : List (List (List UInt32))} {m : MetaVariable} {value : UInt8}
variable {place : Nat × Nat × Nat} {units units' : Units}

theorem metaValueAt_eq_some {symbol : UInt32} : metaValueAt metaValues place = some symbol ↔
    ∃ rows, metaValues[place.1]? = some rows ∧ ∃ row, rows[place.2.1]? = some row ∧
      row[place.2.2]? = some symbol := by
  simp [metaValueAt, Option.bind_eq_some_iff]

theorem metaValueAt_setValue (h : m.setValue metaValues value = some metaValues') :
    metaValueAt metaValues' place =
      if place = m.place then some value.toUInt32 else metaValueAt metaValues place := by
  unfold MetaVariable.setValue at h
  split at h
  · next hsome =>
      cases h
      obtain ⟨symbol, hsymbol⟩ := Option.isSome_iff_exists.mp hsome
      obtain ⟨rows, hrows, row, hrow, hcell⟩ := metaValueAt_eq_some.mp hsymbol
      obtain ⟨t, i, j⟩ := place
      have hlt := (List.getElem?_eq_some_iff.mp hcell).1
      simp only [MetaVariable.place] at hrows hrow hlt
      by_cases ht : m.matrixIndex.toNat = t
      · subst ht
        by_cases hi : m.rowIndex.toNat = i
        · subst hi
          by_cases hj : m.columnIndex.toNat = j
          · subst hj
            simp [metaValueAt, MetaVariable.place, hrows, hrow, hlt]
          · simp [metaValueAt, MetaVariable.place, hrows, hrow, hj, Ne.symm hj]
        · simp [metaValueAt, MetaVariable.place, hrows, hi, Ne.symm hi]
      · simp [metaValueAt, MetaVariable.place, ht, Ne.symm ht]
  · cases h

/-- A cell is not affected by what happens elsewhere. -/
theorem Mirrored.congr (h : Mirrored metaValues units m)
    (hvalue : metaValueAt metaValues' m.place = metaValueAt metaValues m.place)
    (hunits : ∀ literals ∈ m.variables_, ∀ v ∈ literals.map Literal.number, units' v = units v) :
    Mirrored metaValues' units' m := by
  obtain ⟨entry, hentry, hat, htrue⟩ := h
  refine ⟨entry, hentry, hvalue.trans hat, fun l hl => ?_⟩
  rw [hunits entry.1 (List.of_mem_zip (a := entry.1) (b := entry.2) hentry).1 l.number
    (List.mem_map_of_mem hl), htrue l hl]

end Values

section Thinning

namespace MetaVariable

theorem Thins.refl (m : MetaVariable) : m.Thins m := ⟨rfl, fun _ h => h, fun _ h => h⟩

theorem Thins.trans {m₁ m₂ m₃ : MetaVariable} (h : m₁.Thins m₂) (h' : m₂.Thins m₃) : m₁.Thins m₃ :=
  ⟨h'.place.trans h.place, fun _ hx => h.variables_ (h'.variables_ hx),
    fun _ hx => h.domain (h'.domain hx)⟩

theorem thins_narrow (literal : Literal) (m : MetaVariable) : m.Thins (m.narrow literal) where
  place := rfl
  variables_ literals hliterals := by
    obtain ⟨entry, hentry, rfl⟩ := List.mem_map.mp hliterals
    exact (List.of_mem_zip (a := entry.1) (b := entry.2) (List.mem_filter.mp hentry).1).1
  domain entry hentry := by
    have hzip := List.zip_unzip (m.domain.filter fun entry => literal ∈ entry.1)
    rw [List.unzip_eq_map] at hzip
    have hmem : entry ∈ m.domain.filter fun entry => literal ∈ entry.1 := by
      rw [← hzip]
      exact hentry
    exact (List.mem_filter.mp hmem).1

end MetaVariable

open MetaVariable (Thins)

theorem forall₂_thins_refl (l : List MetaVariable) : List.Forall₂ Thins l l :=
  List.forall₂_same.mpr fun m _ => Thins.refl m

theorem forall₂_thins_trans {l₁ l₂ l₃ : List MetaVariable} (h : List.Forall₂ Thins l₁ l₂)
    (h' : List.Forall₂ Thins l₂ l₃) : List.Forall₂ Thins l₁ l₃ := by
  induction h generalizing l₃ with
  | nil =>
      cases h'
      exact List.Forall₂.nil
  | cons hm _ ih =>
      cases h' with
      | cons hm' hl' => exact List.Forall₂.cons (hm.trans hm') (ih hl')

theorem forall₂_thins_modify (literal : Literal) (l : List MetaVariable) (k : Nat) :
    List.Forall₂ Thins l (l.modify k (MetaVariable.narrow literal)) := by
  induction l generalizing k with
  | nil =>
      rw [List.modify_nil]
      exact List.Forall₂.nil
  | cons m l ih =>
      cases k with
      | zero => exact List.Forall₂.cons (MetaVariable.thins_narrow literal m) (forall₂_thins_refl l)
      | succ k => exact List.Forall₂.cons (Thins.refl m) (ih k)

variable {l l' : List MetaVariable}

theorem places_thins (h : List.Forall₂ Thins l l') :
    l'.map MetaVariable.place = l.map MetaVariable.place :=
  (map_eq_of_forall₂ h fun _ _ hm => hm.place.symm).symm

theorem disjoint_thins {m₁ m₂ m₁' m₂' : MetaVariable}
    (h : ∀ literals ∈ m₁.variables_, ∀ literals' ∈ m₂.variables_,
      ∀ v ∈ literals.map Literal.number, v ∉ literals'.map Literal.number)
    (h₁ : m₁.Thins m₁') (h₂ : m₂.Thins m₂') :
    ∀ literals ∈ m₁'.variables_, ∀ literals' ∈ m₂'.variables_,
      ∀ v ∈ literals.map Literal.number, v ∉ literals'.map Literal.number :=
  fun literals hliterals literals' hliterals' =>
    h literals (h₁.variables_ hliterals) literals' (h₂.variables_ hliterals')

/-- Thinner domains form a grid, too. -/
theorem Grid.thins (h : Grid l) (hthins : List.Forall₂ Thins l l') : Grid l' where
  places := by
    rw [places_thins hthins]
    exact h.places
  nodup m' hm' literals hliterals := by
    obtain ⟨m, hm, hthin⟩ := exists_of_forall₂ hthins hm'
    exact h.nodup m hm literals (hthin.variables_ hliterals)
  same m' hm' literals hliterals literals' hliterals' := by
    obtain ⟨m, hm, hthin⟩ := exists_of_forall₂ hthins hm'
    exact h.same m hm literals (hthin.variables_ hliterals) literals' (hthin.variables_ hliterals')
  disjoint := by
    have hpairwise := h.disjoint
    clear h
    induction hthins with
    | nil => exact List.Pairwise.nil
    | cons hm htail ih =>
        obtain ⟨hhead, hrest⟩ := List.pairwise_cons.mp hpairwise
        apply List.Pairwise.cons _ (ih hrest)
        intro m₂' hm₂'
        obtain ⟨m₂, hm₂, hthin₂⟩ := exists_of_forall₂ htail hm₂'
        exact disjoint_thins (hhead m₂ hm₂) hm hthin₂

/-- `reduce` thins the domains and keeps everything else the moves read. -/
structure Thinned (s s' : HillClimbingSolver) : Prop where
  metaVariables : List.Forall₂ Thins s.metaVariables s'.metaVariables
  metaValues : s'.metaValues = s.metaValues
  net : s'.net = s.net

theorem thinned_of_eq {s s' : HillClimbingSolver} (hmeta : s'.metaVariables = s.metaVariables)
    (hvalues : s'.metaValues = s.metaValues) (hnet : s'.net = s.net) : Thinned s s' :=
  ⟨hmeta ▸ forall₂_thins_refl _, hvalues, hnet⟩

theorem Thinned.refl (s : HillClimbingSolver) : Thinned s s := thinned_of_eq rfl rfl rfl

theorem Thinned.trans {s₁ s₂ s₃ : HillClimbingSolver} (h : Thinned s₁ s₂) (h' : Thinned s₂ s₃) :
    Thinned s₁ s₃ :=
  ⟨forall₂_thins_trans h.metaVariables h'.metaVariables, h'.metaValues.trans h.metaValues,
    h'.net.trans h.net⟩

theorem thinned_fix (r : Reduction) (literal : Literal) :
    Thinned r.solver (r.fix literal).solver where
  metaVariables := by
    unfold Reduction.fix
    dsimp only
    split
    · exact forall₂_thins_refl _
    · exact forall₂_thins_modify literal _ _
  metaValues := rfl
  net := rfl

theorem thinned_visit (r : Reduction) (index : Nat) : Thinned r.solver (r.visit index).solver := by
  unfold Reduction.visit
  split
  · split
    · exact Thinned.refl _
    · exact thinned_fix r _
  · exact Thinned.refl _

theorem thinned_pass (r : Reduction) : Thinned r.solver r.pass.solver := by
  have hfold : ∀ (indices : List Nat) (r : Reduction),
      Thinned r.solver (indices.foldl Reduction.visit r).solver := by
    intro indices
    induction indices with
    | nil => exact fun r => Thinned.refl _
    | cons index indices ih => exact fun r => (thinned_visit r index).trans (ih (r.visit index))
  exact hfold _ { r with changed := false }

theorem thinned_propagate {fuel : Nat} {r r' : Reduction}
    (h : Reduction.propagate fuel r = some r') : Thinned r.solver r'.solver := by
  induction fuel generalizing r with
  | zero => cases h
  | succ fuel ih =>
      rw [Reduction.propagate] at h
      split at h
      · exact (thinned_pass r).trans (ih h)
      · cases h
        exact Thinned.refl _

theorem thinned_eraseEntry {index : Nat} {s s' : HillClimbingSolver} {literal : Literal}
    (h : s.eraseEntry index literal = some s') : Thinned s s' := by
  unfold HillClimbingSolver.eraseEntry at h
  split at h
  · cases h
    unfold HillClimbingSolver.setClausesWith
    split <;> exact thinned_of_eq rfl rfl rfl
  · cases h

theorem thinned_shrink {index number : Nat} {s s' : HillClimbingSolver}
    (h : s.shrink index number = some s') : Thinned s s' := by
  obtain ⟨erased, herase, hrest⟩ := Option.bind_eq_some_iff.mp h
  obtain ⟨kept, -, hset⟩ := Option.bind_eq_some_iff.mp hrest
  cases hset
  have hfirst := foldlM_rel Thinned.refl Thinned.trans
    (fun _ _ _ _ herase => thinned_eraseEntry herase) herase
  exact hfirst.trans (thinned_of_eq rfl rfl rfl)

theorem thinned_reduce {fuel : Nat} {s s' : HillClimbingSolver} (h : s.reduce fuel = some s') :
    Thinned s s' := by
  obtain ⟨r, hloop, hrest⟩ := Option.bind_eq_some_iff.mp h
  obtain ⟨shrunk, hshrink, hclear⟩ := Option.bind_eq_some_iff.mp hrest
  cases hclear
  have hclear : ∀ (numbers : List Nat) (s : HillClimbingSolver),
      Thinned s (numbers.foldl HillClimbingSolver.clearLists s) := by
    intro numbers
    induction numbers with
    | nil => exact fun s => Thinned.refl s
    | cons number numbers ih =>
        intro s
        have hfirst : Thinned s (s.clearLists number) := thinned_of_eq rfl rfl rfl
        exact hfirst.trans (ih (s.clearLists number))
  apply (thinned_propagate hloop).trans
  apply Thinned.trans _ (hclear _ shrunk)
  apply foldlM_rel Thinned.refl Thinned.trans _ hshrink
  intro index _ s s' hstep
  split at hstep
  · cases hstep
    exact Thinned.refl s
  · exact thinned_shrink hstep

end Thinning

section Choosing

variable {s s' : HillClimbingSolver} {m : MetaVariable} {units : Units} {literals : List Literal}

theorem setLiterals_of_mem (hnodup : (literals.map Literal.number).Nodup) {l : Literal}
    (hl : l ∈ literals) : setLiterals units literals l.number = l.value.toUInt8 := by
  induction literals generalizing units with
  | nil => cases hl
  | cons first rest ih =>
      obtain ⟨hfirst, hrest⟩ := List.nodup_cons.mp hnodup
      rcases List.mem_cons.mp hl with rfl | htail
      · show setLiterals (Function.update units l.number l.value.toUInt8) rest l.number = _
        rw [setLiterals_of_not_mem hfirst, Function.update_self]
      · exact ih hrest htail

/-- What the choice for one meta variable changes. -/
structure Chosen (s : HillClimbingSolver) (ms : List MetaVariable) (s' : HillClimbingSolver) :
    Prop where
  metaVariables : s'.metaVariables = s.metaVariables
  net : s'.net = s.net
  mirrored : ∀ m ∈ ms, Mirrored s'.metaValues s'.propagated m
  metaValues : ∀ place ∉ ms.map MetaVariable.place,
    metaValueAt s'.metaValues place = metaValueAt s.metaValues place
  propagated : ∀ v, (∀ m ∈ ms, ∀ literals ∈ m.variables_, v ∉ literals.map Literal.number) →
    s'.propagated v = s.propagated v

theorem chosen_chooseValue {rand : Nat}
    (hnodup : ∀ literals ∈ m.variables_, (literals.map Literal.number).Nodup)
    (h : s.chooseValue m rand = some s') : Chosen s [m] s' := by
  obtain ⟨value, hvalue, h⟩ := Option.bind_eq_some_iff.mp h
  obtain ⟨metaValues, hset, h⟩ := Option.bind_eq_some_iff.mp h
  obtain ⟨literals, hliterals, h⟩ := Option.bind_eq_some_iff.mp h
  cases h
  have hmem := List.mem_of_getElem? hliterals
  have hat (place : Nat × Nat × Nat) : metaValueAt metaValues place =
      if place = m.place then some value.toUInt32 else metaValueAt s.metaValues place :=
    metaValueAt_setValue hset
  constructor
  · rfl
  · rfl
  · intro m' hm'
    rw [List.mem_singleton.mp hm']
    refine ⟨(literals, value), ?_, by rw [hat, if_pos rfl], fun l hl =>
      setLiterals_of_mem (hnodup literals hmem) hl⟩
    exact List.mem_of_getElem? (List.getElem?_zip_eq_some.mpr ⟨hliterals, hvalue⟩)
  · intro place hplace
    rw [hat, if_neg fun heq => hplace (List.mem_singleton.mpr heq)]
  · intro v hv
    exact setLiterals_of_not_mem (hv m (List.mem_singleton_self m) literals hmem)

theorem Chosen.cons {ms : List MetaVariable} {s'' : HillClimbingSolver} (hgrid : Grid (m :: ms))
    (h : Chosen s [m] s') (h' : Chosen s' ms s'') : Chosen s (m :: ms) s'' where
  metaVariables := h'.metaVariables.trans h.metaVariables
  net := h'.net.trans h.net
  mirrored := by
    obtain ⟨hplace, -⟩ := List.nodup_cons.mp hgrid.places
    obtain ⟨hdisjoint, -⟩ := List.pairwise_cons.mp hgrid.disjoint
    intro m' hm'
    rcases List.mem_cons.mp hm' with rfl | htail
    · apply (h.mirrored m' (List.mem_singleton_self m')).congr (h'.metaValues m'.place hplace)
      intro literals hliterals v hv
      exact h'.propagated v fun m'' hm'' literals' hliterals' =>
        hdisjoint m'' hm'' literals hliterals literals' hliterals' v hv
    · exact h'.mirrored m' htail
  metaValues place hplace := by
    obtain ⟨hhead, htail⟩ := not_or.mp (mt List.mem_cons.mpr hplace)
    rw [h'.metaValues place htail,
      h.metaValues place fun hmem => hhead (List.mem_singleton.mp hmem)]
  propagated v hv := by
    rw [h'.propagated v fun m' hm' => hv m' (List.mem_cons_of_mem _ hm'), h.propagated v]
    intro m' hm'
    rw [List.mem_singleton.mp hm']
    exact hv m List.mem_cons_self

theorem Grid.tail {ms : List MetaVariable} (h : Grid (m :: ms)) : Grid ms where
  places := (List.nodup_cons.mp h.places).2
  nodup m' hm' := h.nodup m' (List.mem_cons_of_mem _ hm')
  same m' hm' := h.same m' (List.mem_cons_of_mem _ hm')
  disjoint := (List.pairwise_cons.mp h.disjoint).2

/-- Every meta variable has its value in both copies after the loop of choices. -/
theorem chosen_foldlM {rand : Nat → Nat} {pairs : List (MetaVariable × Nat)}
    (hgrid : Grid (pairs.map Prod.fst))
    (h : pairs.foldlM (fun s p => s.chooseValue p.1 (rand p.2)) s = some s') :
    Chosen s (pairs.map Prod.fst) s' := by
  induction pairs generalizing s with
  | nil =>
      cases h
      exact ⟨rfl, rfl, fun _ hm => absurd hm List.not_mem_nil, fun _ _ => rfl, fun _ _ => rfl⟩
  | cons p pairs ih =>
      rw [List.foldlM_cons] at h
      obtain ⟨middle, hfirst, hrest⟩ := Option.bind_eq_some_iff.mp h
      have hhead := chosen_chooseValue (hgrid.nodup p.1 List.mem_cons_self) hfirst
      exact hhead.cons hgrid (ih hgrid.tail hrest)

theorem chosen_chooseValues {rand : Nat → Nat} (hgrid : Grid s.metaVariables)
    (h : s.chooseValues rand = some s') : Chosen s s.metaVariables s' := by
  have hpairs : s.metaVariables.zipIdx.map Prod.fst = s.metaVariables := List.zipIdx_map_fst ..
  rw [← hpairs]
  rw [← hpairs] at hgrid
  exact chosen_foldlM hgrid h

/-- The net computes only what is unknown. -/
theorem Net.evaluate_of_known (net : Net) {v : Nat} (h : units v ≠ 2) :
    net.evaluate units v = units v := by
  unfold evaluate
  induction net.finalized generalizing units with
  | nil => rfl
  | cons node nodes ih =>
      have hstep : (if units node.var == 2 then
          Function.update units node.var (node.propagate units []).toUInt8 else units) v =
            units v := by
        split
        · next htwo =>
            apply Function.update_of_ne
            intro heq
            exact h (heq ▸ beq_iff_eq.mp htwo)
        · rfl
      rw [List.foldl_cons, ih (by rwa [hstep]), hstep]

/-- The last loop of the constructor changes counts only. -/
theorem countClauses_keeps (toCompute : List Nat) (s : HillClimbingSolver) :
    (s.countClauses toCompute).metaVariables = s.metaVariables ∧
      (s.countClauses toCompute).metaValues = s.metaValues ∧
      (s.countClauses toCompute).propagated = s.propagated ∧
      (s.countClauses toCompute).net = s.net ∧
      (s.countClauses toCompute).literalToMetaVariable = s.literalToMetaVariable := by
  unfold HillClimbingSolver.countClauses
  generalize List.range s.clauses.length = indices
  induction indices generalizing s with
  | nil => exact ⟨rfl, rfl, rfl, rfl, rfl⟩
  | cons i indices ih =>
      have hstep : ∀ s : HillClimbingSolver, (s.countClause toCompute i).metaVariables =
          s.metaVariables ∧ (s.countClause toCompute i).metaValues = s.metaValues ∧
          (s.countClause toCompute i).propagated = s.propagated ∧
          (s.countClause toCompute i).net = s.net ∧
          (s.countClause toCompute i).literalToMetaVariable = s.literalToMetaVariable := by
        intro s
        unfold HillClimbingSolver.countClause
        dsimp only
        split <;> exact ⟨rfl, rfl, rfl, rfl, rfl⟩
      obtain ⟨hmeta, hvalues, hunits, hnet, htable⟩ := ih (s.countClause toCompute i)
      obtain ⟨hmeta', hvalues', hunits', hnet', htable'⟩ := hstep s
      exact ⟨hmeta.trans hmeta', hvalues.trans hvalues', hunits.trans hunits', hnet.trans hnet',
        htable.trans htable'⟩

end Choosing

/-- After the constructor both copies agree. The cells without a meta variable have the
constants written before. -/
theorem mirrors_construct {fuel : Nat} {clauses : List Clause} {toCompute : List Nat}
    {weights : Nat → UInt32} {net : Net} {metaVariables : List MetaVariable} {coreSize : Nat}
    {rand : Nat → Nat} {s : HillClimbingSolver} (hgrid : Grid metaVariables)
    (h : HillClimbingSolver.construct fuel clauses toCompute weights net metaVariables coreSize []
      rand = some s) :
    Mirrors s ∧ List.Forall₂ MetaVariable.Thins metaVariables s.metaVariables ∧ s.net = net ∧
      ∃ metaValues, fixConstants (metaVariables.foldl reserve []) = some metaValues ∧
        ∀ place ∉ metaVariables.map MetaVariable.place,
          metaValueAt s.metaValues place = metaValueAt metaValues place := by
  obtain ⟨s₀, hs₀, h⟩ := Option.bind_eq_some_iff.mp h
  obtain ⟨s₁, hreduce, h⟩ := Option.bind_eq_some_iff.mp h
  obtain ⟨metaValues, hfix, h⟩ := Option.bind_eq_some_iff.mp h
  obtain ⟨s₂, hchoose, h⟩ := Option.bind_eq_some_iff.mp h
  obtain ⟨s₃, htake, h⟩ := Option.bind_eq_some_iff.mp h
  obtain ⟨table, -, hunreduced⟩ := Option.bind_eq_some_iff.mp hs₀
  cases hunreduced
  cases htake
  cases h
  have hthinned := thinned_reduce hreduce
  have hthins : List.Forall₂ MetaVariable.Thins metaVariables s₁.metaVariables :=
    hthinned.metaVariables
  have hchosen := chosen_chooseValues (s := { s₁ with metaValues }) (hgrid.thins hthins) hchoose
  obtain ⟨hmeta, hvalues, hunits, hnet, -⟩ := countClauses_keeps toCompute
    { s₂ with propagated := s₂.net.evaluate s₂.propagated }
  have hs₂ : s₂.metaVariables = s₁.metaVariables := hchosen.metaVariables
  refine ⟨?_, ?_, ?_, metaValues, ?_, ?_⟩
  · intro m hm
    rw [hmeta] at hm
    rw [hvalues, hunits]
    obtain ⟨entry, hentry, hat, htrue⟩ := hchosen.mirrored m (hs₂ ▸ hm)
    refine ⟨entry, hentry, hat, fun l hl => ?_⟩
    dsimp only
    rw [Net.evaluate_of_known, htrue l hl]
    rw [htrue l hl]
    cases l.value <;> decide
  · rw [hmeta]
    exact hs₂ ▸ hthins
  · rw [hnet]
    exact hchosen.net.trans hthinned.net
  · rw [hthinned.metaValues] at hfix
    exact hfix
  · intro place hplace
    rw [hvalues]
    apply hchosen.metaValues
    rwa [places_thins hthins]

end LatinSquares.LocalSearch
