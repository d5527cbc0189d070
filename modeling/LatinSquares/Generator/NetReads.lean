/-
# The largest argument of a printed net

The nodes of a net read variables that were numbered before the one they compute. The last rows
of the counters are read by no node, and neither are the indicators of the cycles. So the largest
argument of a printed net stands below the last row of the last counter, or, without a counter,
among the core variables.
-/

import LatinSquares.Generator.Numbering

namespace LatinSquares.Generator

open LatinSquares.Math
open Expression (and)

/-- No node reads a variable above `c`. -/
def ReadsUpTo (c : Nat) (nodes : List Node) : Prop :=
  ∀ node ∈ nodes, ∀ l ∈ node.args, ∀ v ∈ l.names, v ≤ c

variable {c d : Nat} {nodes nodes' : List Node} {s s' : GenState}

theorem ReadsUpTo.mono (hcd : c ≤ d) (h : ReadsUpTo c nodes) : ReadsUpTo d nodes :=
  fun node hnode l hl v hv => (h node hnode l hl v hv).trans hcd

theorem readsUpTo_append : ReadsUpTo c (nodes ++ nodes') ↔ ReadsUpTo c nodes ∧ ReadsUpTo c nodes' :=
  List.forall_mem_append

theorem readsUpTo_singleton {node : Node} :
    ReadsUpTo c [node] ↔ ∀ l ∈ node.args, ∀ v ∈ l.names, v ≤ c := by
  simp [ReadsUpTo]

theorem mem_of_mapM_literal? {cs : List Conjunct} {args : List Literal}
    (h : cs.mapM (fun it => it.clause.literal?) = some args) {l : Literal} (hl : l ∈ args) :
    ∃ cj ∈ cs, cj.clause = .literal l := by
  induction cs generalizing args with
  | nil =>
      cases h
      cases hl
  | cons cj cs ih =>
      rw [List.mapM_cons] at h
      obtain ⟨l', hl', hrest⟩ := Option.bind_eq_some_iff.mp h
      obtain ⟨args', hargs', hcons⟩ := Option.bind_eq_some_iff.mp hrest
      cases hcons
      cases List.mem_cons.mp hl with
      | inl heq =>
          refine ⟨cj, List.mem_cons_self, ?_⟩
          obtain ⟨clause, isImportant⟩ := cj
          cases clause with
          | literal l'' =>
              cases hl'
              rw [heq]
          | disj ls => cases hl'
      | inr hl =>
          obtain ⟨cj', hcj', hclause⟩ := ih hargs' hl
          exact ⟨cj', List.mem_cons_of_mem _ hcj', hclause⟩

/-- A definition reads the variables of its expression. -/
theorem yields_iff_reads {v : Nat} {e : Expression} (he : ∀ v ∈ e.names, v ≤ c)
    (hs : ReadsUpTo c s.nodes) :
    Yields (iff v e) s fun _ s' => s'.varCounter = s.varCounter ∧ ReadsUpTo c s'.nodes := by
  have hreturn : ∀ (node : Node) (r : Expression), (∀ l ∈ node.args, ∀ v ∈ l.names, v ≤ c) →
      Yields (addNode node >>= fun _ => pure r) s fun _ s' =>
        s'.varCounter = s.varCounter ∧ ReadsUpTo c s'.nodes := by
    intro node r hnode
    refine (yields_addNode node).bind ?_
    rintro _ _ rfl
    exact Yields.of_pure ⟨rfl, readsUpTo_append.mpr ⟨hs, readsUpTo_singleton.mpr hnode⟩⟩
  cases e with
  | conj cs =>
      refine (Yields.of_lift
        (Q := fun args t => cs.mapM (fun it => it.clause.literal?) = some args ∧ t = s)
        fun args hargs => ⟨hargs, rfl⟩).bind ?_
      rintro args _ ⟨hargs, rfl⟩
      refine hreturn _ _ fun l hl v hv => he v ?_
      obtain ⟨cj, hcj, hclause⟩ := mem_of_mapM_literal? hargs hl
      refine Expression.mem_names.mpr ⟨cj, hcj, ?_⟩
      rwa [hclause, Clause.names_literal]
  | clause cj =>
      obtain ⟨clause, isImportant⟩ := cj
      have hclause : ∀ v ∈ clause.names, v ≤ c := fun v hv =>
        he v (Expression.mem_names.mpr ⟨_, List.mem_singleton_self _, hv⟩)
      cases clause with
      | disj args =>
          exact hreturn _ _ fun l hl v hv => hclause v (List.mem_flatMap.mpr ⟨l, hl, hv⟩)
      | literal l =>
          cases l with
          | notVar name => exact Yields.of_failure
          | constTrue => exact hreturn _ _ fun l hl => absurd hl List.not_mem_nil
          | constFalse => exact hreturn _ _ fun l hl => absurd hl List.not_mem_nil
          | var name =>
              refine hreturn _ _ fun l hl v hv => hclause v ?_
              obtain rfl := List.mem_singleton.mp hl
              rwa [Clause.names_literal]

/-- The nodes read variables that have been numbered. -/
def Scoped (s : GenState) : Prop := ReadsUpTo s.varCounter s.nodes

theorem yields_newVariables_reads {α : Type} (xs : List α) :
    Yields (xs.mapM fun _ => newVariable) s fun vs s' => s'.nodes = s.nodes ∧
      s.varCounter ≤ s'.varCounter ∧ ∀ v ∈ vs, v ≤ s'.varCounter := by
  refine (Yields.of_ensures (ensures_newVariables xs s)).mono ?_
  rintro vs s' ⟨rfl, rfl⟩
  refine ⟨rfl, Nat.le_add_right _ _, fun v hv => ?_⟩
  rw [List.mem_range'_1] at hv
  show v ≤ s.varCounter + xs.length
  omega

/-- The definitions of a pair of symbols. -/
theorem yields_symbolPair_reads {mark : Expression → Expression} {exprs : List Expression}
    {q chi : Nat} (hexprs : ∀ e ∈ exprs, e.Proper s.varCounter) (hs : Scoped s) :
    Yields (symbolPair mark exprs q chi) s fun _ s' =>
      s.varCounter ≤ s'.varCounter ∧ Scoped s' := by
  refine (yields_newVariables_reads exprs).bind ?_
  rintro vs s₁ ⟨hnodes, hle, hvs⟩
  have hs₁ : Scoped s₁ := by
    rw [Scoped, hnodes]
    exact hs.mono hle
  refine (Keeps.mapM (I := fun t => t.varCounter = s₁.varCounter ∧ Scoped t)
    (fun p hp t ht => ?_) _ ⟨rfl, hs₁⟩).bind ?_
  · have hproper := hexprs p.1 (List.of_mem_zip hp).1
    refine (yields_iff_reads (fun v hv => ?_) ht.2).mono fun _ t' h => ⟨h.1.trans ht.1, ?_⟩
    · exact ((names_of_proper hproper hv).2.trans hle).trans ht.1.ge
    · rw [Scoped, h.1]
      exact h.2
  · rintro phis s₂ ⟨hcounter, hs₂⟩
    refine (yields_iff_reads (c := s₂.varCounter) (fun v hv => ?_) hs₂).bind ?_
    · obtain ⟨cj, hcj, hv⟩ := Expression.mem_names.mp hv
      obtain rfl := List.mem_singleton.mp hcj
      obtain ⟨l, hl, hv⟩ := List.mem_flatMap.mp hv
      obtain ⟨w, hw, rfl⟩ := List.mem_map.mp hl
      obtain rfl := List.mem_singleton.mp hv
      rw [hcounter]
      exact hvs v hw
    · rintro chiExpr s₃ ⟨hcounter₃, hs₃⟩
      refine Yields.of_pure ⟨by omega, ?_⟩
      rw [Scoped, hcounter₃]
      exact hs₃

/-- The cycles are defined by the cells of a row. -/
theorem yields_breakingSymmetry_reads {vars : List (List Literal)} {firstIndex : Nat}
    {cycle : Int} (hvars : ∀ ls ∈ vars, ∀ l ∈ ls, l.Within c) (hs : ReadsUpTo c s.nodes) :
    Yields (breakingSymmetry vars firstIndex cycle) s fun _ s' => ReadsUpTo c s'.nodes := by
  refine (Yields.of_lift (Q := fun _ t => t = s) fun _ _ => rfl).bind ?_
  rintro cycles _ rfl
  refine (yields_newVariables_reads cycles).bind ?_
  rintro vs s₁ ⟨hnodes, -, -⟩
  rw [← hnodes] at hs
  have hrow (j : Nat) : ∀ l ∈ vars.getD j [], l.Within c :=
    getD_of_forall (P := fun ls : List Literal => ∀ l ∈ ls, l.Within c)
      (fun _ hl => absurd hl List.not_mem_nil) hvars j
  have hequalities : ∀ cycle first, ∀ e ∈ cycleEqualities vars cycle first, e.Proper c := by
    intro cycle
    induction cycle with
    | nil => exact fun first e he => absurd he List.not_mem_nil
    | cons p cycle ih =>
        intro first e he
        cases List.mem_append.mp he with
        | inl he =>
            obtain ⟨it, -, rfl⟩ := List.mem_map.mp he
            exact equal_proper_of_within (hrow _)
        | inr he => exact ih _ e he
  refine (Keeps.mapM (I := fun t => ReadsUpTo c t.nodes) (fun p _ t ht => ?_) _
    hs).bind fun phis s₂ hs₂ => ?_
  · exact (yields_iff_reads (fun v hv => (names_of_proper
      (Expression.proper_and (hequalities p.1 firstIndex)) hv).2) ht).mono fun _ _ h => h.2
  · have hfixed : Yields (fixedCycle vs cycle) s₂ fun _ t => ReadsUpTo c t.nodes := by
      unfold fixedCycle
      split
      · exact Yields.of_pure hs₂
      · split
        · exact Yields.of_failure
        · refine (Yields.of_lift (Q := fun _ t => t = s₂) fun _ _ => rfl).bind ?_
          rintro v _ rfl
          exact Yields.of_pure hs₂
    exact hfixed.bind fun fixed s₃ hs₃ => Yields.of_pure hs₃

/-- A loop whose rounds add nodes known in advance. -/
theorem yields_mapM_nodes {α β : Type} {f : α → Gen β} {xs : List α} {g : α → List Node}
    (hf : ∀ x s, Yields (f x) s fun _ s' => s' = { s with nodes := s.nodes ++ g x }) :
    Yields (xs.mapM f) s fun _ s' => s' = { s with nodes := s.nodes ++ xs.flatMap g } := by
  induction xs generalizing s with
  | nil => exact Yields.of_pure (by simp)
  | cons x xs ih =>
      rw [List.mapM_cons]
      refine (hf x s).bind ?_
      rintro y _ rfl
      refine ih.bind ?_
      rintro ys _ rfl
      exact Yields.of_pure (by simp [List.append_assoc])

section Counter

variable {v : Nat → Nat} {w : Nat → Nat → Nat} {k i : Nat}

/-- The nodes of the first row of a counter. -/
def headNodes (v : Nat → Nat) (w : Nat → Nat → Nat) (k : Nat) : List Node :=
  (rangeUntil 1 k).flatMap (fun it => [.value (w 0 it) false]) ++ [.andIff (w 0 0) [.notVar (v 0)]]

/-- The nodes of row `i`. -/
def rowNodes (v : Nat → Nat) (w : Nat → Nat → Nat) (k i : Nat) : List Node :=
  .orIff (w i 0) [.notVar (v i), .var (w (i - 1) 0)] :: (rangeUntil 1 k).flatMap fun j =>
    [.orAnd (w i j) [[.notVar (v i), .var (w (i - 1) (j - 1))], [.var (w (i - 1) j)]]]

theorem yields_greaterOrEqualHead_nodes : Yields (greaterOrEqualHead v w k) s fun _ s' =>
    s' = { s with nodes := s.nodes ++ headNodes v w k } := by
  refine (yields_mapM_nodes (g := fun it => [.value (w 0 it) false]) fun it t => ?_).bind ?_
  · refine (yields_addNode _).bind ?_
    rintro _ _ rfl
    exact Yields.of_pure rfl
  · rintro headNots _ rfl
    refine (yields_addNode _).bind ?_
    rintro _ _ rfl
    exact Yields.of_pure (by simp [headNodes, List.append_assoc])

theorem yields_greaterOrEqualMiddle_nodes (i : Nat) (s : GenState) :
    Yields (greaterOrEqualMiddle v w k i) s fun _ s' =>
      s' = { s with nodes := s.nodes ++ rowNodes v w k i } := by
  refine (yields_addNode _).bind ?_
  rintro _ _ rfl
  refine (yields_mapM_nodes (g := fun j =>
    [.orAnd (w i j) [[.notVar (v i), .var (w (i - 1) (j - 1))], [.var (w (i - 1) j)]]])
    fun j t => ?_).bind ?_
  · refine (yields_addNode _).bind ?_
    rintro _ _ rfl
    exact Yields.of_pure rfl
  · rintro second _ rfl
    exact Yields.of_pure (by simp [rowNodes, List.append_assoc])

theorem readsUpTo_headNodes (hv : v 0 ≤ c) : ReadsUpTo c (headNodes v w k) := by
  refine readsUpTo_append.mpr ⟨fun node hnode l hl => ?_, readsUpTo_singleton.mpr ?_⟩
  · obtain ⟨it, -, hnode⟩ := List.mem_flatMap.mp hnode
    obtain rfl := List.mem_singleton.mp hnode
    exact absurd hl List.not_mem_nil
  · simpa [Node.args, Literal.names] using hv

theorem readsUpTo_rowNodes (hk : 0 < k) (hv : v i ≤ c) (hw : ∀ j < k, w (i - 1) j ≤ c) :
    ReadsUpTo c (rowNodes v w k i) := by
  refine List.forall_mem_cons.mpr ⟨?_, fun node hnode => ?_⟩
  · simpa [Node.args, Literal.names] using ⟨hv, hw 0 hk⟩
  · obtain ⟨j, hj, hnode⟩ := List.mem_flatMap.mp hnode
    obtain rfl := List.mem_singleton.mp hnode
    have hj := (mem_rangeUntil.mp hj).2
    simpa [Node.args, Literal.names] using ⟨hv, hw (j - 1) (by omega), hw j hj⟩

/-- Row `i` reads the whole row before it. -/
theorem exists_rowNodes_reads (hk : 0 < k) :
    ∃ node ∈ rowNodes v w k i, ∃ l ∈ node.args, w (i - 1) (k - 1) ∈ l.names := by
  by_cases hone : k = 1
  · subst hone
    exact ⟨_, List.mem_cons_self, .var (w (i - 1) 0), by simp [Node.args], by simp [Literal.names]⟩
  · refine ⟨_, List.mem_cons_of_mem _ (List.mem_flatMap.mpr ⟨k - 1, ?_, List.mem_singleton_self _⟩),
      .var (w (i - 1) (k - 1)), by simp [Node.args], by simp [Literal.names]⟩
    exact mem_rangeUntil.mpr (by omega)

end Counter

/-- Some node reads `c`. -/
def IsRead (c : Nat) (nodes : List Node) : Prop :=
  ∃ node ∈ nodes, ∃ l ∈ node.args, c ∈ l.names

/-- The last `k` variables are read by no node, and the one before them is. -/
structure EndsInRow (k : Nat) (s : GenState) : Prop where
  le : k ≤ s.varCounter
  reads : ReadsUpTo (s.varCounter - k) s.nodes
  largest : IsRead (s.varCounter - k) s.nodes

theorem EndsInRow.scoped {k : Nat} (h : EndsInRow k s) : Scoped s :=
  h.reads.mono (Nat.sub_le _ _)

/-- A counter of at least three rows leaves its last row unread. -/
theorem yields_greaterOrEqual_reads {vars : List Nat} {k : Nat} (hk : 0 < k)
    (hlength : 3 ≤ vars.length) (hvars : ∀ v ∈ vars, v ≤ s.varCounter) (hs : Scoped s) :
    Yields (greaterOrEqual vars k) s fun _ s' =>
      s.varCounter ≤ s'.varCounter ∧ EndsInRow k s' := by
  refine (Yields.of_ensures (ensures_newVariableRows (vars.length - 1) k s)).bind ?_
  rintro svars _ ⟨hsvars, rfl⟩
  rw [if_neg (by omega)]
  refine (Yields.of_guard (Q := fun _ t => t = { s with varCounter :=
    s.varCounter + (vars.length - 1) * k }) fun _ => rfl).bind ?_
  rintro _ _ rfl
  refine yields_greaterOrEqualHead_nodes.bind ?_
  rintro head _ rfl
  refine (yields_mapM_nodes yields_greaterOrEqualMiddle_nodes).bind ?_
  rintro middle _ rfl
  apply Yields.of_pure
  obtain ⟨m, hm⟩ : ∃ m, vars.length = m + 3 := ⟨vars.length - 3, by omega⟩
  have hlast : s.varCounter + (vars.length - 1) * k - k = s.varCounter + (m + 1) * k := by
    rw [hm, show m + 3 - 1 = m + 1 + 1 by omega, Nat.add_mul (m + 1) 1, Nat.one_mul]
    omega
  have hv (i : Nat) : vars.getD i 0 ≤ s.varCounter :=
    getD_of_forall (P := (· ≤ s.varCounter)) (Nat.zero_le _) hvars i
  have hw : ∀ i ≤ m, ∀ j < k, (svars.getD i []).getD j 0 = s.varCounter + i * k + j + 1 := by
    intro i hi j hj
    rw [hsvars, getD_map_range _ _ (by omega), getD_range' hj]
    omega
  have hwLe : ∀ i ≤ m, ∀ j < k, (svars.getD i []).getD j 0 ≤ s.varCounter + (m + 1) * k := by
    intro i hi j hj
    have hrow : (i + 1) * k ≤ (m + 1) * k := Nat.mul_le_mul_right k (by omega)
    rw [Nat.add_mul i, Nat.one_mul] at hrow
    rw [hw i hi j hj]
    omega
  have hnames : ∀ i ≤ m, ReadsUpTo (s.varCounter + (m + 1) * k) (rowNodes (fun i => vars.getD i 0)
      (fun i j => (svars.getD i []).getD j 0) k (i + 1)) := fun i hi =>
    readsUpTo_rowNodes hk ((hv _).trans (Nat.le_add_right _ _)) (hwLe _ (by omega))
  refine ⟨Nat.le_add_right _ _, ?_, ?_, ?_⟩
  · show k ≤ s.varCounter + (vars.length - 1) * k
    rw [hm, show m + 3 - 1 = m + 1 + 1 by omega, Nat.add_mul (m + 1) 1, Nat.one_mul]
    omega
  · show ReadsUpTo (s.varCounter + (vars.length - 1) * k - k) _
    rw [hlast]
    refine readsUpTo_append.mpr ⟨readsUpTo_append.mpr ⟨hs.mono (Nat.le_add_right _ _),
      readsUpTo_headNodes ((hv 0).trans (Nat.le_add_right _ _))⟩, fun node hnode => ?_⟩
    obtain ⟨i, hi, hnode⟩ := List.mem_flatMap.mp hnode
    have hi := mem_rangeUntil.mp hi
    obtain ⟨i, rfl⟩ : ∃ i', i = i' + 1 := ⟨i - 1, by omega⟩
    exact hnames i (by omega) node hnode
  · show IsRead (s.varCounter + (vars.length - 1) * k - k) _
    rw [hlast]
    obtain ⟨node, hnode, l, hl, hname⟩ := exists_rowNodes_reads (i := m + 1)
      (v := fun i => vars.getD i 0) (w := fun i j => (svars.getD i []).getD j 0) hk
    refine ⟨node, List.mem_append_right _ (List.mem_flatMap.mpr ⟨m + 1, ?_, hnode⟩), l, hl, ?_⟩
    · exact mem_rangeUntil.mpr (by omega)
    · rw [Nat.add_sub_cancel, hw m le_rfl (k - 1) (by omega)] at hname
      have hvalue : s.varCounter + (m + 1) * k = s.varCounter + m * k + (k - 1) + 1 := by
        rw [Nat.add_mul m, Nat.one_mul]
        omega
      rwa [hvalue]

/-- The pairs of symbols of two squares, and the counter of the pairs that are shown. -/
theorem yields_orthogonalBy_reads {order : Nat → List Nat → List Nat}
    {mark : Expression → Expression} {equalExprs : Nat → Nat → Option (List Expression)} {n q : Nat}
    (horder : ∀ counter vars, (order counter vars).Perm vars) (hn : 2 ≤ n) (hq : q ≠ n * n)
    (hexprs : ∀ aN bN exprs, equalExprs aN bN = some exprs → ∀ e ∈ exprs, e.Proper s.varCounter)
    (hs : Scoped s) :
    Yields (orthogonalBy order mark equalExprs n q) s fun _ s' =>
      q ≤ n * n ∧ s.varCounter ≤ s'.varCounter ∧ EndsInRow (n * n - q) s' := by
  refine (Yields.of_ensures (ensures_newVariableRows n n s)).bind ?_
  rintro chis _ ⟨hchis, rfl⟩
  let I (t : GenState) : Prop := s.varCounter + n * n ≤ t.varCounter ∧ Scoped t
  have hs₁ : Scoped { s with varCounter := s.varCounter + n * n } :=
    hs.mono (Nat.le_add_right _ _)
  refine (Keeps.mapM (I := I) (fun aN _ t ht => ?_) _ ⟨le_rfl, hs₁⟩).bind ?_
  · refine (Keeps.mapM (I := I) (fun bN _ u hu => ?_) _ ht).bind fun row t' ht' =>
      Yields.of_pure ht'
    refine (Yields.of_lift (Q := fun exprs u' => equalExprs aN bN = some exprs ∧ u' = u)
      fun exprs h => ⟨h, rfl⟩).bind ?_
    rintro exprs u ⟨hequal, rfl⟩
    have hle : s.varCounter ≤ u.varCounter := (Nat.le_add_right _ (n * n)).trans hu.1
    exact (yields_symbolPair_reads (fun e he => (hexprs aN bN exprs hequal e he).mono hle)
      hu.2).mono fun _ u' h => ⟨hu.1.trans h.1, h.2⟩
  · rintro pairwise s₂ ⟨hle, hs₂⟩
    refine (Yields.of_guard (Q := fun _ t => q ≤ n * n ∧ t = s₂) fun h => ⟨h, rfl⟩).bind ?_
    rintro _ s₂ ⟨hqle, rfl⟩
    refine (Yields.of_ensures (Ensures.of_get (Q := fun t u => t = s₂ ∧ u = s₂) ⟨rfl, rfl⟩)).bind ?_
    rintro _ s₂ ⟨rfl, rfl⟩
    have hperm : (order s₂.varCounter chis.flatten).Perm
        (List.range' (s.varCounter + 1) (n * n)) := by
      rw [← flatMap_range', List.flatMap_def, ← hchis]
      exact horder _ _
    have hlength : (order s₂.varCounter chis.flatten).length = n * n := by
      rw [hperm.length_eq, List.length_range']
    have hsquare : 2 * 2 ≤ n * n := Nat.mul_le_mul hn hn
    refine (yields_greaterOrEqual_reads (by omega) (by omega) (fun v hv => ?_) hs₂).bind ?_
    · have hmem := hperm.mem_iff.mp hv
      rw [List.mem_range'_1] at hmem
      omega
    · rintro greater s₃ ⟨hle₃, hends⟩
      exact Yields.of_pure ⟨hqle, by omega, hends⟩

/-- The nodes of two squares, when some pairs of symbols may be missing. -/
theorem yields_orthogonalSquare_reads {f g : Nat → Nat → Nat → Literal} {n q : Nat}
    {order : Order} (hn : 2 ≤ n) (hq : q ≠ n * n)
    (hf : ∀ i < n, ∀ j < n, ∀ k < n, (f i j k).Within s.varCounter)
    (hg : ∀ i < n, ∀ j < n, ∀ k < n, (g i j k).Within s.varCounter) (hs : Scoped s) :
    Yields (orthogonalSquare order (matrixOf n n n f) (matrixOf n n n g) q) s fun _ s' =>
      q ≤ n * n ∧ s.varCounter ≤ s'.varCounter ∧ EndsInRow (n * n - q) s' := by
  have hpos : 0 < n := by omega
  have hlength : (matrixOf n n n f).length = n := by simp [matrixOf]
  have hsymbols : ((matrixOf n n n g).flatten.getD 0 []).length = n := by
    rw [flatten_matrixOf hpos, getD_map_range _ _ (Nat.mul_pos hpos hpos), List.length_map,
      List.length_range]
  rw [orthogonalSquare, hlength, if_pos hq, orthogonal, hsymbols]
  refine yields_orthogonalBy_reads order.perm hn hq (fun aN bN exprs hexprs e he => ?_) hs
  obtain rfl := Option.some.inj hexprs
  rw [equalExprs_matrixOf hpos] at he
  obtain ⟨p, hp, rfl⟩ := List.mem_map.mp he
  have hrow : p / n < n := Nat.div_lt_of_lt_mul (List.mem_range.mp hp)
  have hcolumn : p % n < n := Nat.mod_lt p hpos
  exact Expression.proper_and_pair (equal_proper (hf _ hrow _ hcolumn))
    (equal_proper (hg _ hrow _ hcolumn))

/-- What holds after each round of a loop holds after the loop. -/
theorem yields_mapM_last {α β : Type} {f : α → Gen β} {xs : List α} {I P : GenState → Prop}
    (hxs : xs ≠ []) (hstep : ∀ x ∈ xs, ∀ s, I s → Yields (f x) s fun _ s' => P s')
    (hkeep : ∀ s, P s → I s) (hs : I s) : Yields (xs.mapM f) s fun _ s' => P s' := by
  induction xs generalizing s with
  | nil => exact absurd rfl hxs
  | cons x xs ih =>
      rw [List.mapM_cons]
      refine (hstep x List.mem_cons_self s hs).bind fun y s₁ hs₁ => ?_
      refine Yields.bind (Q := fun _ t => P t) ?_ fun ys s₂ hs₂ => Yields.of_pure hs₂
      cases xs with
      | nil => exact Yields.of_pure hs₁
      | cons x' xs =>
          exact ih (List.cons_ne_nil _ _) (fun z hz => hstep z (List.mem_cons_of_mem _ hz))
            (hkeep s₁ hs₁)

namespace LatinSquareEncoder

variable {e : LatinSquareEncoder}

/-- What the nodes of a file read: the row before the last one of the last counter, and nothing
above it. Without counters they read the core variables. -/
structure NetEnds (e : LatinSquareEncoder) (s : GenState) : Prop where
  index : e.q ≤ e.n * e.n
  full : e.q = e.n * e.n → ReadsUpTo e.coreSize s.nodes
  row : e.q ≠ e.n * e.n → EndsInRow (e.n * e.n - e.q) s

theorem yields_breakRow_reads {t i first : Nat} {cycle : Int} :
    Yields (do
      let square ← liftM e.tables[t]?
      let row ← liftM square[i]?
      breakingSymmetry row first cycle) e.coreState fun _ s => ReadsUpTo e.coreSize s.nodes := by
  refine (Yields.of_lift (Q := fun square s => square ∈ e.tables ∧ s = e.coreState)
    fun square h => ⟨List.mem_of_getElem? h, rfl⟩).bind ?_
  rintro square s ⟨hsquare, rfl⟩
  refine (Yields.of_lift (Q := fun row s => row ∈ square ∧ s = e.coreState)
    fun row h => ⟨List.mem_of_getElem? h, rfl⟩).bind ?_
  rintro row s ⟨hrow, rfl⟩
  exact yields_breakingSymmetry_reads (fun ls hls l hl => within_of_mem_tables hsquare hrow hls hl)
    fun node hnode => absurd hnode List.not_mem_nil

theorem yields_symmetry_reads : Yields (e.symmetry e.tables) e.coreState fun _ s =>
    ReadsUpTo e.coreSize s.nodes := by
  have hnone : Yields (pure (and [])) e.coreState fun _ s => ReadsUpTo e.coreSize s.nodes :=
    Yields.of_pure fun node hnode => absurd hnode List.not_mem_nil
  unfold symmetry
  split
  · cases e.breakingSymmetryType with
    | first => exact yields_breakRow_reads
    | second => exact yields_breakRow_reads
    | none => exact hnone
  · exact hnone

/-- The loop over the pairs of squares. -/
theorem yields_squarePairs_reads (order : Order) (hn : 2 ≤ e.n) (hk : 2 ≤ e.k)
    (hle : e.coreSize ≤ s.varCounter) (hs : ReadsUpTo e.coreSize s.nodes) :
    Yields ((squarePairs e.k).mapM fun p =>
      orthogonalSquare order (e.tables.getD p.1 []) (e.tables.getD p.2 []) e.q) s
        fun _ s' => e.NetEnds s' := by
  by_cases hfull : e.q = e.n * e.n
  · refine (Keeps.mapM (I := fun t => ReadsUpTo e.coreSize t.nodes)
      (fun p hp t ht => ?_) _ hs).mono fun _ t ht => ⟨hfull.le, fun _ => ht, absurd hfull⟩
    obtain ⟨hij, hj⟩ := mem_squarePairs.mp hp
    have hlength : (e.table p.1).length = e.n := by simp [table, matrixOf]
    rw [table_getD (hij.trans hj), table_getD hj, orthogonalSquare, hlength,
      if_neg (not_not_intro hfull)]
    exact Yields.of_pure ht
  · refine (yields_mapM_last (squarePairs_ne_nil hk)
      (I := fun t => e.coreSize ≤ t.varCounter ∧ Scoped t)
      (P := fun t => e.coreSize ≤ t.varCounter ∧ e.q ≤ e.n * e.n ∧ EndsInRow (e.n * e.n - e.q) t)
      (fun p hp t ht => ?_) (fun t ht => ⟨ht.1, ht.2.2.scoped⟩) ⟨hle, hs.mono hle⟩).mono
        fun _ t ht => ⟨ht.2.1, fun h => absurd h hfull, fun _ => ht.2.2⟩
    obtain ⟨hij, hj⟩ := mem_squarePairs.mp hp
    have hwithin : ∀ u < e.k, ∀ i < e.n, ∀ j < e.n, ∀ k < e.n,
        (e.entry u i j k).Within t.varCounter :=
      fun u hu i hi j hj k hk => (entry_within hu hi hj hk).mono ht.1
    show Yields (orthogonalSquare order (e.tables.getD p.1 []) (e.tables.getD p.2 []) e.q) t _
    rw [table_getD (hij.trans hj), table_getD hj]
    exact (yields_orthogonalSquare_reads hn hfull (hwithin _ (hij.trans hj)) (hwithin _ hj)
      ht.2).mono fun _ t' h => ⟨ht.1.trans h.2.1, h.1, h.2.2⟩

theorem yields_netEnds (order : Order) (hn : 3 ≤ e.n) (hk : 2 ≤ e.k) :
    Yields (e.program order) {} fun _ s => e.NetEnds s := by
  refine (Yields.of_ensures (ensures_coreVariables (by omega))).bind ?_
  rintro core s ⟨rfl, rfl⟩
  refine (Yields.of_ensures (Ensures.of_get (Q := fun _ u => u = e.coreState) rfl)).bind ?_
  rintro _ s rfl
  refine ((yields_symmetry hn hk).and yields_symmetry_reads).bind ?_
  rintro breaking s₁ ⟨⟨-, hbuilds, -⟩, hs₁⟩
  refine (yields_squarePairs_reads order (by omega) hk hbuilds.le hs₁).bind fun ortho s₂ hs₂ => ?_
  refine (Yields.of_guard (Q := fun _ t => t = s₂) fun _ => rfl).bind ?_
  rintro _ s₂ rfl
  refine (Yields.of_lift (Q := fun _ t => t = s₂) fun _ _ => rfl).bind ?_
  rintro args s₂ rfl
  refine (Yields.of_ensures (Ensures.of_get (Q := fun _ u => u = s₂) rfl)).bind ?_
  rintro _ s₂ rfl
  exact Yields.of_pure hs₂

/-- A run that returns has built a net of this form. -/
theorem exists_returned_netEnds (order : Order) (hn : 3 ≤ e.n) (hk : 2 ≤ e.k) {f : CNF}
    (hf : e.cnf order = some f) : ∃ s₁ s breaking ortho args,
      e.Returned f s₁ s breaking ortho args ∧ e.NetEnds s := by
  obtain ⟨_, hindex⟩ := of_run' (yields_netEnds order hn hk) hf
  obtain ⟨s, ⟨s₁, breaking, ortho, args, hreturned⟩, hends⟩ :=
    of_run' ((yields_returned order hn hk hindex.index).and (yields_netEnds order hn hk)) hf
  exact ⟨s₁, s, breaking, ortho, args, hreturned, hends⟩

/-- A variable past the core variables is below some argument of the net unless it is in the
last row of the last counter. -/
theorem exists_arg_ge_iff {f : CNF} {s₁ : GenState} {breaking : Expression}
    {ortho : List VariabledExpression} {args : List Conjunct} {v : Nat} (hn : 0 < e.n)
    (h : e.Returned f s₁ s breaking ortho args) (hends : e.NetEnds s) (hv : e.coreSize < v) :
    (∃ node ∈ f.net, ∃ l ∈ node.args, ∃ w ∈ l.names, v ≤ w) ↔
      e.q < e.n * e.n ∧ v + (e.n * e.n - e.q) ≤ f.variables_.length := by
  rw [h.length_variables hn, h.net]
  by_cases hfull : e.q = e.n * e.n
  · constructor
    · rintro ⟨node, hnode, l, hl, w, hw, hle⟩
      have hcore := hends.full hfull node hnode l hl w hw
      omega
    · rintro ⟨hlt, -⟩
      omega
  · have hrow := hends.row hfull
    have hle := hrow.le
    have hindex := hends.index
    constructor
    · rintro ⟨node, hnode, l, hl, w, hw, hvw⟩
      have hread := hrow.reads node hnode l hl w hw
      omega
    · rintro ⟨-, hbelow⟩
      obtain ⟨node, hnode, l, hl, hlast⟩ := hrow.largest
      exact ⟨node, hnode, l, hl, _, hlast, by omega⟩

end LatinSquareEncoder

end LatinSquares.Generator
