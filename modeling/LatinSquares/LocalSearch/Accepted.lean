/-
# Accepted moves and the second copy

The flips of a move are those of the cells in its bag, the net adds flips of its own
variables, and the numbers of the same cells are written. So both copies agree again if the
net computes no variable of a cell, or if it adds such a variable twice.
-/

import LatinSquares.LocalSearch.Appended
import LatinSquares.LocalSearch.Mirror
import Mathlib.Algebra.Group.Nat.Even

namespace LatinSquares.LocalSearch

open LatinSquares.Math

variable {s s' : HillClimbingSolver} {bag : List (Nat × Nat)}
variable {candidates : List (MetaVariable × List Literal × UInt8)} {m : MetaVariable}
variable {units : Units} {v : Nat} {order : SwapOrder} {net : Net}

theorem candidate_eq_some {p : Nat × Nat} {c : MetaVariable × List Literal × UInt8}
    (h : s.candidate p = some c) :
    s.metaVariables[p.1]? = some c.1 ∧ c.2 ∈ c.1.domain ∧ c.2.1 ∈ c.1.variables_ := by
  obtain ⟨m, hm, h⟩ := Option.bind_eq_some_iff.mp h
  obtain ⟨literals, hliterals, h⟩ := Option.bind_eq_some_iff.mp h
  obtain ⟨value, hvalue, h⟩ := Option.bind_eq_some_iff.mp h
  cases h
  exact ⟨hm, List.mem_of_getElem? (List.getElem?_zip_eq_some.mpr ⟨hliterals, hvalue⟩),
    List.mem_of_getElem? hliterals⟩

/-- Different indices lead to different cells over different variables. -/
theorem Grid.apart {metaVariables : List MetaVariable} (h : Grid metaVariables) {i j : Nat}
    {m m' : MetaVariable} (hi : metaVariables[i]? = some m) (hj : metaVariables[j]? = some m')
    (hne : i ≠ j) : m.place ≠ m'.place ∧ ∀ literals ∈ m.variables_,
      ∀ literals' ∈ m'.variables_, ∀ v ∈ literals.map Literal.number,
        v ∉ literals'.map Literal.number := by
  obtain ⟨hlt, rfl⟩ := List.getElem?_eq_some_iff.mp hi
  obtain ⟨hlt', rfl⟩ := List.getElem?_eq_some_iff.mp hj
  constructor
  · intro heq
    apply hne
    apply (List.getElem?_inj (by rwa [List.length_map]) h.places).mp
    rw [List.getElem?_map, List.getElem?_map, hi, hj]
    exact congrArg some heq
  · rcases Nat.lt_or_gt_of_ne hne with hless | hless
    · exact List.pairwise_iff_getElem.mp h.disjoint i j hlt hlt' hless
    · intro literals hliterals literals' hliterals' v hv hv'
      exact List.pairwise_iff_getElem.mp h.disjoint j i hlt' hlt hless literals' hliterals'
        literals hliterals v hv' hv

/-- The meta variables of a bag form a grid. -/
theorem grid_candidates (h : Grid s.metaVariables) (hbag : (bag.map Prod.fst).Nodup)
    (hcandidates : List.Forall₂ (fun p c => s.candidate p = some c) bag candidates) :
    Grid (candidates.map Prod.fst) := by
  have hvariable : ∀ m ∈ candidates.map Prod.fst, m ∈ s.metaVariables := by
    intro m hm
    obtain ⟨c, hc, rfl⟩ := List.mem_map.mp hm
    obtain ⟨p, -, hp⟩ := exists_of_forall₂ hcandidates hc
    exact List.mem_of_getElem? (candidate_eq_some hp).1
  have hapart : (candidates.map Prod.fst).Pairwise fun m m' => m.place ≠ m'.place ∧
      ∀ literals ∈ m.variables_, ∀ literals' ∈ m'.variables_,
        ∀ v ∈ literals.map Literal.number, v ∉ literals'.map Literal.number := by
    clear hvariable
    induction hcandidates with
    | nil => exact List.Pairwise.nil
    | cons hp htail ih =>
        obtain ⟨hnot, hrest⟩ := List.nodup_cons.mp hbag
        apply List.Pairwise.cons _ (ih hrest)
        intro m' hm'
        obtain ⟨c', hc', rfl⟩ := List.mem_map.mp hm'
        obtain ⟨p', hp', hcandidate⟩ := exists_of_forall₂ htail hc'
        apply h.apart (candidate_eq_some hp).1 (candidate_eq_some hcandidate).1
        intro heq
        exact hnot (heq ▸ List.mem_map_of_mem hp')
  exact ⟨List.pairwise_map.mpr (hapart.imp And.left), fun m hm => h.nodup m (hvariable m hm),
    fun m hm => h.same m (hvariable m hm), hapart.imp And.right⟩

/-- The flips of a list of literals. -/
theorem count_flipsOf {literals : List Literal} (hnodup : (literals.map Literal.number).Nodup)
    {l : Literal} (hl : l ∈ literals) :
    (flipsOf units literals).count l.number =
      if units l.number = l.value.toUInt8 then 0 else 1 := by
  have hsub : (flipsOf units literals).Nodup := hnodup.sublist (List.filter_sublist.map _)
  by_cases htrue : units l.number = l.value.toUInt8
  · rw [if_pos htrue, List.count_eq_zero_of_not_mem]
    intro hmem
    obtain ⟨l', hl', hnumber⟩ := List.mem_map.mp hmem
    obtain ⟨hl'', hne⟩ := List.mem_filter.mp hl'
    obtain rfl := List.inj_on_of_nodup_map hnodup hl'' hl hnumber
    simp [htrue] at hne
  · rw [if_neg htrue]
    apply List.count_eq_one_of_mem hsub
    apply List.mem_map_of_mem
    apply List.mem_filter.mpr
    exact ⟨hl, by simpa using htrue⟩

theorem count_flipsOf_of_not_mem {literals : List Literal}
    (h : v ∉ literals.map Literal.number) : (flipsOf units literals).count v = 0 := by
  apply List.count_eq_zero_of_not_mem
  intro hmem
  obtain ⟨l, hl, rfl⟩ := List.mem_map.mp hmem
  exact h (List.mem_map_of_mem (List.mem_filter.mp hl).1)

/-- A variable of another cell is not flipped. -/
theorem count_flips_of_not_mem (h : ∀ c ∈ candidates, v ∉ c.2.1.map Literal.number) :
    (candidates.flatMap fun c => flipsOf units c.2.1).count v = 0 := by
  induction candidates with
  | nil => rfl
  | cons c candidates ih =>
      obtain ⟨hhead, htail⟩ := List.forall_mem_cons.mp h
      rw [List.flatMap_cons, List.count_append, count_flipsOf_of_not_mem hhead, ih htail]

/-- A variable of a cell of the bag is flipped for this cell only. -/
theorem count_flips (hgrid : Grid (candidates.map Prod.fst))
    (hentry : ∀ c ∈ candidates, c.2.1 ∈ c.1.variables_)
    {c : MetaVariable × List Literal × UInt8} (hc : c ∈ candidates) {l : Literal} (hl : l ∈ c.2.1) :
    (candidates.flatMap fun c => flipsOf units c.2.1).count l.number =
      if units l.number = l.value.toUInt8 then 0 else 1 := by
  induction candidates with
  | nil => cases hc
  | cons first candidates ih =>
      obtain ⟨hfirst, hrest⟩ := List.forall_mem_cons.mp hentry
      obtain ⟨hdisjoint, -⟩ := List.pairwise_cons.mp hgrid.disjoint
      rw [List.flatMap_cons, List.count_append]
      rcases List.mem_cons.mp hc with rfl | htail
      · rw [count_flipsOf (hgrid.nodup _ List.mem_cons_self _ hfirst) hl,
          count_flips_of_not_mem, Nat.add_zero]
        intro c' hc'
        exact hdisjoint c'.1 (List.mem_map_of_mem hc') _ hfirst _ (hrest c' hc') _
          (List.mem_map_of_mem hl)
      · rw [count_flipsOf_of_not_mem, Nat.zero_add]
        · exact ih hgrid.tail hrest htail
        · intro hmem
          exact hdisjoint c.1 (List.mem_map_of_mem htail) _ hfirst _ (hrest c htail) _ hmem
            (List.mem_map_of_mem hl)

/-- The written values. -/
theorem metaValueAt_writes {metaValues metaValues' : List (List (List UInt32))}
    (hgrid : Grid (candidates.map Prod.fst))
    (h : candidates.foldlM (fun metaValues c => c.1.setValue metaValues c.2.2) metaValues =
      some metaValues') :
    (∀ c ∈ candidates, metaValueAt metaValues' c.1.place = some c.2.2.toUInt32) ∧
      ∀ place, (∀ c ∈ candidates, c.1.place ≠ place) →
        metaValueAt metaValues' place = metaValueAt metaValues place := by
  induction candidates generalizing metaValues with
  | nil =>
      cases h
      exact ⟨fun c hc => absurd hc List.not_mem_nil, fun _ _ => rfl⟩
  | cons first candidates ih =>
      rw [List.foldlM_cons] at h
      obtain ⟨middle, hset, hrest⟩ := Option.bind_eq_some_iff.mp h
      obtain ⟨hwritten, hkept⟩ := ih hgrid.tail hrest
      obtain ⟨hplace, -⟩ := List.nodup_cons.mp hgrid.places
      constructor
      · intro c hc
        rcases List.mem_cons.mp hc with rfl | htail
        · rw [hkept, metaValueAt_setValue hset, if_pos rfl]
          intro c' hc' heq
          apply hplace
          rw [← heq]
          exact List.mem_map_of_mem (List.mem_map_of_mem hc')
        · exact hwritten c htail
      · intro place hother
        obtain ⟨hfirst, htail⟩ := List.forall_mem_cons.mp hother
        rw [hkept place htail, metaValueAt_setValue hset, if_neg hfirst.symm]

/-- The solver after an accepted move. -/
theorem accept_eq_some (h : s.accept order bag = some s') : ∃ candidates closed closed' metaValues,
    List.Forall₂ (fun p c => s.candidate p = some c) bag candidates ∧
    s.net.compute order s.propagated (candidates.flatMap fun c => flipsOf s.propagated c.2.1) =
      some closed ∧
    s.net.compute order s.propagated closed = some closed' ∧
    candidates.foldlM (fun metaValues c => c.1.setValue metaValues c.2.2) s.metaValues =
      some metaValues ∧
    s'.metaVariables = s.metaVariables ∧ s'.net = s.net ∧ s'.metaValues = metaValues ∧
    s'.propagated = HillClimbingSolver.toggle s.propagated closed' := by
  obtain ⟨flips, hflips, h⟩ := Option.bind_eq_some_iff.mp h
  obtain ⟨candidates, hcandidates, hflat⟩ := Option.bind_eq_some_iff.mp hflips
  cases hflat
  obtain ⟨⟨improves, closed⟩, hcheck, h⟩ := Option.bind_eq_some_iff.mp h
  obtain ⟨closed₀, hcompute, hresult⟩ := Option.bind_eq_some_iff.mp hcheck
  cases hresult
  obtain ⟨_, -, h⟩ := Option.bind_eq_some_iff.mp h
  obtain ⟨next, hnext, h⟩ := Option.bind_eq_some_iff.mp h
  obtain ⟨closed', hcompute', happlied⟩ := Option.bind_eq_some_iff.mp hnext
  cases happlied
  obtain ⟨metaValues, hwrite, h⟩ := Option.bind_eq_some_iff.mp h
  cases h
  obtain ⟨candidates', hcandidates', hfold⟩ := Option.bind_eq_some_iff.mp hwrite
  cases hcandidates.symm.trans hcandidates'
  exact ⟨candidates, closed, closed', metaValues, forall₂_of_mapM hcandidates, hcompute,
    hcompute', hfold, rfl, rfl, rfl, rfl⟩

/-- The net computes no variable of a cell. -/
def Auxiliary (net : Net) (metaVariables : List MetaVariable) : Prop :=
  ∀ node ∈ net.finalized, ∀ m ∈ metaVariables, ∀ literals ∈ m.variables_,
    node.var ∉ literals.map Literal.number

/-- The net computes no variable of a cell, or with the second argument of `std::swap` first it
has one node for each node variable. -/
def KeepsCells (order : SwapOrder) (net : Net) (metaVariables : List MetaVariable) : Prop :=
  Auxiliary net metaVariables ∨
    order = .rightFirst ∧ ∃ nodes, Net.OneNodeEach nodes net

theorem involutive_xor_one : Function.Involutive (· ^^^ (1 : UInt8)) := fun u => by
  show u ^^^ 1 ^^^ 1 = u
  rw [UInt8.xor_assoc, UInt8.xor_self, UInt8.xor_zero]

/-- Of the variables of the cells, a list that is closed twice inverts those that it had. -/
theorem KeepsCells.toggle_eq {metaVariables : List MetaVariable} {flips closed closed' : List Nat}
    (h : KeepsCells order net metaVariables) (hclosed : net.compute order units flips = some closed)
    (hagain : net.compute order units closed = some closed') {m : MetaVariable}
    (hm : m ∈ metaVariables) {literals : List Literal} (hliterals : literals ∈ m.variables_)
    (hv : v ∈ literals.map Literal.number) :
    HillClimbingSolver.toggle units closed' v = (· ^^^ 1)^[flips.count v] (units v) := by
  rw [HillClimbingSolver.toggle_eq_iterate]
  rcases h with hauxiliary | ⟨rfl, nodes, hnet⟩
  · have hother : ∀ node ∈ net.finalized, node.var ≠ v := fun node hnode heq =>
      hauxiliary node hnode m hm literals hliterals (heq ▸ hv)
    rw [Net.count_compute hagain hother, Net.count_compute hclosed hother]
  · -- the second closure enters what the first one has entered
    obtain ⟨entries, rfl, -, hagain'⟩ := hnet.compute_compute_rightFirst hclosed
    obtain rfl := Option.some.inj (hagain.symm.trans hagain')
    rw [List.count_append, List.count_append, Nat.add_assoc, Function.iterate_add_apply,
      involutive_xor_one.iterate_even ⟨_, rfl⟩, id]

/-- What a move does to the copies. -/
structure Moved (s s' : HillClimbingSolver) : Prop where
  metaVariables : s'.metaVariables = s.metaVariables
  net : s'.net = s.net
  mirrors : Mirrors s'
  metaValues : ∀ place ∉ s.metaVariables.map MetaVariable.place,
    metaValueAt s'.metaValues place = metaValueAt s.metaValues place

/-- An accepted move keeps the copies together. -/
theorem Mirrors.accept (h : Mirrors s) (hgrid : Grid s.metaVariables)
    (hnet : KeepsCells order s.net s.metaVariables) (hbag : (bag.map Prod.fst).Nodup)
    (haccept : s.accept order bag = some s') : Moved s s' := by
  obtain ⟨candidates, closed, closed', metaValues, hcandidates, hcompute, hcompute', hfold,
    hmeta, hnet', hvalues, hunits⟩ := accept_eq_some haccept
  have hgrid' := grid_candidates hgrid hbag hcandidates
  have hcandidate : ∀ c ∈ candidates, ∃ p ∈ bag, s.candidate p = some c :=
    fun c hc => exists_of_forall₂ hcandidates hc
  have hentry : ∀ c ∈ candidates, c.2.1 ∈ c.1.variables_ := by
    intro c hc
    obtain ⟨p, -, hp⟩ := hcandidate c hc
    exact (candidate_eq_some hp).2.2
  obtain ⟨hwritten, hkept⟩ := metaValueAt_writes hgrid' hfold
  -- the variables of the cells are inverted as often as the bag says
  have htoggle (m : MetaVariable) (hm : m ∈ s.metaVariables) (literals : List Literal)
      (hliterals : literals ∈ m.variables_) (v : Nat) (hv : v ∈ literals.map Literal.number) :
      s'.propagated v = (· ^^^ 1)^[(candidates.flatMap fun c =>
        flipsOf s.propagated c.2.1).count v] (s.propagated v) := by
    rw [hunits]
    exact hnet.toggle_eq hcompute hcompute' hm hliterals hv
  refine ⟨hmeta, hnet', ?_, ?_⟩
  · intro m hm
    rw [hmeta] at hm
    rw [hvalues]
    obtain ⟨old, hold, hat, htrue⟩ := h m hm
    have holdEntry : old.1 ∈ m.variables_ := (List.of_mem_zip (a := old.1) (b := old.2) hold).1
    obtain ⟨k, hk, rfl⟩ := List.getElem_of_mem hm
    by_cases hin : k ∈ bag.map Prod.fst
    · obtain ⟨p, hp, hpk⟩ := List.mem_map.mp hin
      obtain ⟨c, hc, hcandidate⟩ := exists_of_forall₂ hcandidates.flip hp
      have hcandidate : s.candidate p = some c := hcandidate
      obtain ⟨hvariable, hdomain, hliterals⟩ := candidate_eq_some hcandidate
      rw [hpk, List.getElem?_eq_getElem hk] at hvariable
      have hsame : s.metaVariables[k] = c.1 := Option.some.inj hvariable
      rw [hsame] at hm holdEntry ⊢
      refine ⟨c.2, hdomain, hwritten c hc, fun l hl => ?_⟩
      have hv := List.mem_map_of_mem (f := Literal.number) hl
      -- the variable has the value of the old entry, which is a truth value
      obtain ⟨l₀, hl₀, hnumber⟩ :=
        List.mem_map.mp (hgrid.same c.1 hm c.2.1 hliterals old.1 holdEntry _ hv)
      have hvalue : s.propagated l.number = l₀.value.toUInt8 := hnumber ▸ htrue l₀ hl₀
      rw [htoggle c.1 hm c.2.1 hliterals _ hv, count_flips hgrid' hentry hc hl, hvalue]
      cases l₀.value <;> cases l.value <;> rfl
    · have hapart : ∀ c ∈ candidates, s.metaVariables[k].place ≠ c.1.place ∧
          ∀ literals ∈ s.metaVariables[k].variables_, ∀ literals' ∈ c.1.variables_,
            ∀ v ∈ literals.map Literal.number, v ∉ literals'.map Literal.number := by
        intro c hc
        obtain ⟨p, hp, hcandidate⟩ := hcandidate c hc
        apply hgrid.apart (List.getElem?_eq_getElem hk) (candidate_eq_some hcandidate).1
        intro heq
        exact hin (heq ▸ List.mem_map_of_mem hp)
      refine ⟨old, hold, ?_, fun l hl => ?_⟩
      · rw [hkept _ fun c hc => ((hapart c hc).1).symm]
        exact hat
      · have hv := List.mem_map_of_mem (f := Literal.number) hl
        rw [htoggle _ hm old.1 holdEntry _ hv, count_flips_of_not_mem, Function.iterate_zero_apply,
          htrue l hl]
        exact fun c hc => (hapart c hc).2 old.1 holdEntry c.2.1 (hentry c hc) _ hv
  · intro place hplace
    rw [hvalues]
    apply hkept
    intro c hc heq
    obtain ⟨p, -, hp⟩ := hcandidate c hc
    apply hplace
    rw [← heq]
    exact List.mem_map_of_mem (List.mem_of_getElem? (candidate_eq_some hp).1)

end LatinSquares.LocalSearch
