/-
# The numbers of the variables

The variables of a finished formula are numbered without gaps: the clauses mention exactly
`1..N` for the `N` of the header, the tables of core variables mention the first of them,
and no section of the file mentions another one.
-/

import LatinSquares.Generator.Occurrence
import LatinSquares.Generator.Unreduced
import LatinSquares.Generator.Reduced
import LatinSquares.Generator.ReducedLog
import LatinSquares.Generator.ArrayEncoder

namespace LatinSquares.Generator

open LatinSquares.Math
open Expression (and)

/-- The variables in the sections of a file: clauses, core variables, values of cells,
incremental expressions and nodes. -/
def CNF.printedNames (f : CNF) : List Nat :=
  f.clauses.flatMap (fun cj => cj.clause.names) ++ f.coreVariables ++
    f.metaVariables.flatMap (fun it => it.values.flatMap fun entry =>
      entry.2.flatMap Literal.names) ++
    f.incremental.flatMap Expression.names ++
    f.net.flatMap fun node => node.var :: node.args.flatMap Literal.names

/-- The variables of tables. -/
def tableNames (tables : List Matrix) : List Nat :=
  tables.flatMap fun table => table.flatten.flatten.flatMap Literal.names

/-- The variables are numbered `1..N`, those of the tables first. -/
structure Numbered (f : CNF) (tables : List Matrix) : Prop where
  first : f.coreVariables = List.range' 1 f.coreVariables.length
  occurs : ∀ v, (∃ cj ∈ f.clauses, v ∈ cj.clause.names) ↔ 1 ≤ v ∧ v ≤ f.variables_.length
  core : ∀ v, v ∈ tableNames tables ↔ 1 ≤ v ∧ v ≤ f.coreVariables.length
  core_le : f.coreVariables.length ≤ f.variables_.length
  printed : ∀ v ∈ f.printedNames, 1 ≤ v ∧ v ≤ f.variables_.length

/-- There are values for all variables of the tables. -/
theorem Numbered.size_le {f : CNF} {tables : List Matrix} {size : Nat} (h : Numbered f tables)
    (htables : ∀ v, v ∈ tableNames tables ↔ 1 ≤ v ∧ v ≤ size) : size ≤ f.variables_.length := by
  by_cases hsize : size = 0
  · omega
  · have hlast := (h.core size).mp ((htables size).mpr ⟨by omega, le_rfl⟩)
    exact hlast.2.trans h.core_le

section Layout

variable {n m q tables start : Nat} {f : Nat → Nat → Nat → Literal} {l : Literal}
variable {kind : Nat → Option Bool} {layout : Nat → Nat → Nat → Nat → Option Bool}

/-- Every number given out is the number of an entry. -/
theorem exists_numbered {size v : Nat} (hv : start < v)
    (hle : v ≤ start + variablesBefore kind size) :
    ∃ idx < size, numbered kind start idx = .var v := by
  induction size with
  | zero =>
      rw [variablesBefore, Nat.count_zero] at hle
      omega
  | succ size ih =>
      cases hkind : kind size with
      | some b =>
          rw [variablesBefore_succ_of_some hkind] at hle
          obtain ⟨idx, hidx, heq⟩ := ih hle
          exact ⟨idx, hidx.trans (Nat.lt_succ_self _), heq⟩
      | none =>
          rw [variablesBefore_succ_of_none hkind] at hle
          by_cases hlast : v = start + variablesBefore kind size + 1
          · exact ⟨size, Nat.lt_succ_self _, by rw [numbered, hkind, hlast]⟩
          · obtain ⟨idx, hidx, heq⟩ := ih (by omega)
            exact ⟨idx, hidx.trans (Nat.lt_succ_self _), heq⟩

theorem exists_layoutEntry {v : Nat} (hv : 1 ≤ v) (hle : v ≤ layoutSize n m q layout tables) :
    ∃ t < tables, ∃ i < n, ∃ j < m, ∃ k < q, layoutEntry n m q layout t i j k = .var v := by
  obtain ⟨idx, hidx, heq⟩ : ∃ idx < tables * (n * m * q),
      numbered (byIndex n m q layout) 0 idx = .var v :=
    exists_numbered hv (by rwa [Nat.zero_add])
  obtain ⟨t, ht, i, hi, j, hj, k, hk, rfl⟩ := exists_index hidx
  exact ⟨t, ht, i, hi, j, hj, k, hk, heq⟩

theorem mem_tableNames_matrixOf {f : Nat → Nat → Nat → Nat → Literal} {v : Nat} :
    v ∈ tableNames ((List.range tables).map fun t => matrixOf n m q (f t)) ↔
      ∃ t < tables, ∃ i < n, ∃ j < m, ∃ k < q, v ∈ (f t i j k).names := by
  simp only [tableNames, matrixOf, List.mem_flatMap, List.mem_flatten, List.mem_map,
    List.mem_range]
  constructor
  · rintro ⟨_, ⟨t, ht, rfl⟩, l, ⟨_, ⟨_, hrow, hcell⟩, hl⟩, hname⟩
    obtain ⟨i, hi, rfl⟩ := List.mem_map.mp hrow
    obtain ⟨j, hj, rfl⟩ := List.mem_map.mp hcell
    obtain ⟨k, hk, rfl⟩ := List.mem_map.mp hl
    rw [List.mem_range] at hi hj hk
    exact ⟨t, ht, i, hi, j, hj, k, hk, hname⟩
  · rintro ⟨t, ht, i, hi, j, hj, k, hk, hname⟩
    rw [← List.mem_range] at hi hj hk
    exact ⟨_, ⟨t, ht, rfl⟩, _, ⟨_, ⟨_, List.mem_map_of_mem hi, List.mem_map_of_mem hj⟩,
      List.mem_map_of_mem hk⟩, hname⟩

/-- The tables of a layout mention the variables up to its size. -/
theorem mem_tableNames_layout {v : Nat} :
    v ∈ tableNames ((List.range tables).map fun t => matrixOf n m q (layoutEntry n m q layout t)) ↔
      1 ≤ v ∧ v ≤ layoutSize n m q layout tables := by
  rw [mem_tableNames_matrixOf]
  constructor
  · rintro ⟨t, ht, i, hi, j, hj, k, hk, hname⟩
    exact layoutEntry_within ht hi hj hk v hname
  · rintro ⟨hv, hle⟩
    obtain ⟨t, ht, i, hi, j, hj, k, hk, heq⟩ := exists_layoutEntry hv hle
    exact ⟨t, ht, i, hi, j, hj, k, hk, by rw [heq]; exact List.mem_singleton.mpr rfl⟩

end Layout

section Assembly

variable {e : Expression} {es : List Expression} {args : List Conjunct} {s s' : GenState}
variable {size : Nat} {tables : List Matrix} {names : List Nat}

/-- A conjunction covers what one of its arguments covers. -/
theorem covers_and (hes : ∀ e ∈ es, e.Simplified) (he : e ∈ es) (h : e.Covers names) :
    (and es).Covers names where
  simplified := Expression.simplified_and hes
  names hfalse name hname := Expression.mem_names_and hfalse he (hes e he)
    (h.names (isFalse_of_mem hfalse he) name hname)

theorem Expression.Covers.mono {names' : List Nat} (h : e.Covers names)
    (hsub : names' ⊆ names) : e.Covers names' :=
  ⟨h.simplified, fun hfalse name hname => h.names hfalse name (hsub hname)⟩

/-- Expressions that define nothing join a step. -/
theorem Mentions.silent {exprs exprs' : List Expression} (h : Mentions s s' exprs)
    (hsimplified : ∀ e ∈ exprs', e.Simplified) : Mentions s s' (exprs' ++ exprs) :=
  (Mentions.of_silent rfl hsimplified).append h

/-- Expressions in scope mention variables in scope. -/
theorem names_of_proper {c v : Nat} (h : e.Proper c) (hv : v ∈ e.names) : 1 ≤ v ∧ v ≤ c := by
  obtain ⟨cj, hcj, hname⟩ := Expression.mem_names.mp hv
  have hproper : cj.clause.Proper c := by
    cases e with
    | conj cs => exact h.2 cj hcj
    | clause cj' =>
        obtain rfl := List.mem_singleton.mp hcj
        obtain heq | heq | hproper := h
        · rw [heq] at hname
          cases hname
        · rw [heq] at hname
          cases hname
        · exact hproper
  obtain ⟨l, hl, hname⟩ := List.mem_flatMap.mp hname
  exact (hproper.literals l hl).2 v hname

/-- The incremental expressions are the tightenings of the pairs. -/
theorem proper_incremental {rs : List VariabledExpression} {c : Nat}
    (h : ∀ r ∈ rs, ∀ x ∈ r.vars, x.Proper c) :
    ∀ x ∈ (transpose (rs.map VariabledExpression.vars)).flatten, x.Proper c := by
  intro x hx
  obtain ⟨column, hcolumn, hx⟩ := List.mem_flatten.mp hx
  have hcell : ∃ r ∈ rs, ∃ i, x = r.vars.getD i default := by
    cases rs with
    | nil => cases hcolumn
    | cons first rest =>
        obtain ⟨i, -, rfl⟩ := List.mem_map.mp hcolumn
        obtain ⟨row, hrow, rfl⟩ := List.mem_map.mp hx
        rw [← List.map_cons] at hrow
        obtain ⟨r, hr, rfl⟩ := List.mem_map.mp hrow
        exact ⟨r, hr, i, rfl⟩
  obtain ⟨r, hr, i, rfl⟩ := hcell
  by_cases hi : i < r.vars.length
  · rw [List.getD_eq_getElem _ _ hi]
    exact h r hr _ (List.getElem_mem hi)
  · rw [List.getD_eq_default _ _ (Nat.le_of_not_lt hi)]
    exact Expression.proper_constFalse

/-- A loop over pairs of tables that mentions its variables. -/
theorem yields_pairs_mentions {pairs : List (Nat × Nat)} {f : Nat × Nat → Gen VariabledExpression}
    (hstep : ∀ p t, Yields (f p) t fun r t' => Mentions t t' [r.expr]) :
    Yields (pairs.mapM f) s fun rs s' => Mentions s s' (rs.map VariabledExpression.expr) := by
  refine (Yields.mapM fun p _ t => hstep p t).mono fun rs s' htraversal => ?_
  induction htraversal with
  | nil t => exact Mentions.of_silent rfl (by simp)
  | cons head tail ih => exact head.append ih

/-- The clauses of a formula that mentions every variable given out. -/
theorem mem_names_iff {exprs : List Expression} (hbuilds : Builds { varCounter := size } s exprs [])
    (hproper : e.Proper s.varCounter) (hmentions : Mentions { varCounter := size } s [e])
    (hcovers : e.Covers (tableNames tables))
    (htables : ∀ v, v ∈ tableNames tables ↔ 1 ≤ v ∧ v ≤ size)
    (hargs : e.andArgs? = some args) {v : Nat} :
    (∃ cj ∈ args, v ∈ cj.clause.names) ↔ 1 ≤ v ∧ v ≤ s.varCounter := by
  obtain rfl := eq_conj_of_andArgs? hargs
  rw [← List.mem_flatMap (f := fun cj : Conjunct => cj.clause.names)]
  constructor
  · exact names_of_proper hproper
  · rintro ⟨hv, hle⟩
    by_cases hcore : v ≤ size
    · exact hcovers.names rfl v ((htables v).mpr ⟨hv, hcore⟩)
    · obtain ⟨nodes, hnodes, hvars, -⟩ := hbuilds.emitted
      obtain ⟨nodes', hnodes', hmentioned⟩ := hmentions.emitted
      obtain rfl : nodes = nodes' := List.append_cancel_left (hnodes.symm.trans hnodes')
      rw [List.append_nil] at hvars
      have hdefined : v ∈ nodes.map Node.var :=
        hvars.mem_iff.mpr (mem_fresh.mpr ⟨Nat.lt_of_not_le hcore, hle⟩)
      obtain ⟨node, hnode, rfl⟩ := List.mem_map.mp hdefined
      obtain ⟨e', he', hname⟩ := hmentioned (by simp) node hnode
      obtain rfl := List.mem_singleton.mp he'
      exact hname

/-- Names `1..c` make a list of `c` distinct ones. -/
theorem length_dedup {ns : List Nat} {c : Nat} (h : ∀ v, v ∈ ns ↔ 1 ≤ v ∧ v ≤ c) :
    ns.dedup.length = c := by
  have hperm : ns.dedup.Perm (List.range' 1 c) := by
    refine (List.perm_ext_iff_of_nodup ns.nodup_dedup List.nodup_range').mpr fun v => ?_
    rw [List.mem_dedup, h, List.mem_range'_1]
    omega
  rw [hperm.length_eq, List.length_range']

/-- The header counts the variables given out. -/
theorem length_names {exprs : List Expression}
    (hbuilds : Builds { varCounter := size } s exprs []) (hproper : e.Proper s.varCounter)
    (hmentions : Mentions { varCounter := size } s [e])
    (hcovers : e.Covers (tableNames tables))
    (htables : ∀ v, v ∈ tableNames tables ↔ 1 ≤ v ∧ v ≤ size) (hargs : e.andArgs? = some args) :
    (args.flatMap fun c => c.clause.names).dedup.length = s.varCounter :=
  length_dedup fun v => by
    rw [List.mem_flatMap, mem_names_iff hbuilds hproper hmentions hcovers htables hargs]

/-- A finished formula whose expression mentions every variable given out. -/
theorem numbered_ofAnd {metaVars : List MetaVariable} {incremental : List Expression}
    {net : List Node} {weights : List Nat} {exprs : List Expression}
    (hbuilds : Builds { varCounter := size } s exprs []) (hproper : e.Proper s.varCounter)
    (hmentions : Mentions { varCounter := size } s [e])
    (hcovers : e.Covers (tableNames tables))
    (htables : ∀ v, v ∈ tableNames tables ↔ 1 ≤ v ∧ v ≤ size)
    (hmeta : ∀ it ∈ metaVars, ∀ entry ∈ it.values, ∀ l ∈ entry.2, l.Within size)
    (hincremental : ∀ x ∈ incremental, x.Proper s.varCounter) (hnet : net ⊆ s.nodes)
    (hargs : e.andArgs? = some args) :
    Numbered (CNF.ofAnd args (List.range' 1 size) metaVars incremental net weights) tables := by
  have hnames := fun v => mem_names_iff hbuilds hproper hmentions hcovers htables hargs (v := v)
  have hlength := length_names hbuilds hproper hmentions hcovers htables hargs
  have hoccurs : ∀ v, (∃ cj ∈ distinct args, v ∈ cj.clause.names) ↔ 1 ≤ v ∧ v ≤ s.varCounter := by
    intro v
    rw [← hnames]
    constructor
    · rintro ⟨cj, hcj, hname⟩
      exact ⟨cj, mem_of_mem_distinct hcj, hname⟩
    · rintro ⟨cj, hcj, hname⟩
      obtain ⟨d, hd, hclause⟩ := exists_mem_distinct hcj
      exact ⟨d, hd, by rwa [hclause]⟩
  have hcore : size ≤ s.varCounter := hbuilds.le
  refine ⟨?_, fun v => ?_, fun v => ?_, ?_, ?_⟩
  · simp only [CNF.ofAnd, List.length_range']
  · simpa only [CNF.ofAnd, hlength] using hoccurs v
  · simpa only [CNF.ofAnd, List.length_range'] using htables v
  · simpa only [CNF.ofAnd, hlength, List.length_range'] using hcore
  · simp only [CNF.printedNames, CNF.ofAnd, hlength, List.mem_append, List.mem_flatMap]
    rintro v ((((hclause | hcoreName) | ⟨it, hit, entry, hentry, l, hl, hname⟩) |
      ⟨x, hx, hname⟩) | ⟨node, hnode, hname⟩)
    · exact (hoccurs v).mp hclause
    · rw [List.mem_range'_1] at hcoreName
      omega
    · have hscope := hmeta it hit entry hentry l hl v hname
      exact ⟨hscope.1, hscope.2.trans hcore⟩
    · exact names_of_proper (hincremental x hx) hname
    · obtain ⟨nodes, hnodes, -, hnodeProper, -⟩ := hbuilds.emitted
      rw [List.nil_append] at hnodes
      have hnode := hnodeProper node (hnodes ▸ hnet hnode)
      cases List.mem_cons.mp hname with
      | inl heq => rw [heq]; exact hnode.var
      | inr hargs =>
          obtain ⟨l, hl, hname⟩ := List.mem_flatMap.mp hargs
          exact (hnode.args l hl).2 v hname

end Assembly

section Symmetry

/-- The choice of a cycle fails unless there is one of that number. -/
theorem yields_fixedCycle (vs : List Nat) (cycle : Int) {s : GenState} :
    Yields (fixedCycle vs cycle) s fun _ _ => cycle = -1 ∨ 0 ≤ cycle ∧ cycle < vs.length := by
  unfold fixedCycle
  split
  · next hall => exact Yields.of_pure (Or.inl hall)
  · split
    · exact Yields.of_failure
    · next hcycle =>
        refine (Yields.of_lift (Q := fun _ _ => cycle.toNat < vs.length) fun v hv =>
          (List.getElem?_eq_some_iff.mp hv).1).bind fun v s' hlt => Yields.of_pure ?_
        omega

/-- Breaking the symmetry of a row of a table mentions its variables. -/
theorem yields_breakRow {tables : List Matrix} {t i first : Nat} {cycle : Int} {s : GenState} :
    Yields (do
      let square ← liftM tables[t]?
      let row ← liftM square[i]?
      breakingSymmetry row first cycle) s fun breaking s' => Mentions s s' [breaking] := by
  refine (Yields.of_lift (Q := fun _ u => u = s) fun _ _ => rfl).bind ?_
  rintro square s rfl
  refine (Yields.of_lift (Q := fun _ u => u = s) fun _ _ => rfl).bind ?_
  rintro row s rfl
  exact yields_breakingSymmetry _ _ _

end Symmetry

namespace LatinSquareEncoder

variable {e : LatinSquareEncoder}

theorem metaValues_within {n c : Nat} {ls : List Literal} (h : ∀ l ∈ ls, l.Within c) :
    ∀ entry ∈ metaValues n ls, ∀ l ∈ entry.2, l.Within c := by
  intro entry hentry l hl v hv
  obtain ⟨value, -, rfl⟩ := List.mem_map.mp (List.mem_of_mem_filter hentry)
  obtain ⟨cj, hcj, hl⟩ := List.mem_flatMap.mp (List.mem_of_mem_filter hl)
  exact names_of_proper (equal_proper_of_within h)
    (Expression.mem_names.mpr ⟨cj, hcj, List.mem_flatMap.mpr ⟨l, hl, hv⟩⟩)

theorem mem_tableNames {v : Nat} : v ∈ tableNames e.tables ↔ 1 ≤ v ∧ v ≤ e.coreSize :=
  mem_tableNames_layout

theorem within_of_mem_tables {square : Matrix} {row : List (List Literal)} {ls : List Literal}
    {l : Literal} (hsquare : square ∈ e.tables) (hrow : row ∈ square) (hls : ls ∈ row)
    (hl : l ∈ ls) : l.Within e.coreSize := by
  intro v hv
  apply mem_tableNames.mp
  refine List.mem_flatMap.mpr ⟨square, hsquare, List.mem_flatMap.mpr ⟨l, ?_, hv⟩⟩
  exact List.mem_flatten.mpr ⟨ls, List.mem_flatten.mpr ⟨row, hrow, hls⟩, hl⟩

/-- A cell is asked for variables of the tables only. -/
theorem metaVars_within : ∀ it ∈ e.metaVars e.tables, ∀ entry ∈ it.values, ∀ l ∈ entry.2,
    l.Within e.coreSize := by
  intro it hit entry hentry l hl
  obtain ⟨⟨t, ht, i, hi, j, hj, rfl⟩, -⟩ : (∃ t, ∃ ht : t < e.tables.length, ∃ i,
      ∃ hi : i < e.tables[t].length, ∃ j, ∃ hj : j < e.tables[t][i].length,
        (⟨t, i, j, metaValues e.n e.tables[t][i][j]⟩ : MetaVariable) = it) ∧ it.values ≠ [] := by
    simpa [metaVars] using hit
  exact metaValues_within (fun l hl => within_of_mem_tables (List.getElem_mem ht)
    (List.getElem_mem hi) (List.getElem_mem hj) hl) entry hentry l hl

/-- A cycle that is asked for exists. -/
theorem yields_breakRow_cycle {t i first : Nat} {cycle : Int} (hn : first + 2 ≤ e.n) :
    Yields (do
      let square ← liftM e.tables[t]?
      let row ← liftM square[i]?
      breakingSymmetry row first cycle) e.coreState fun _ _ =>
        cycle = -1 ∨ 0 ≤ cycle ∧ cycle < (partitions (e.n - first) 2).length := by
  refine (Yields.of_lift (Q := fun square _ => square.length = e.n ∧
    ∀ row ∈ square, row.length = e.n) fun square hsquare => ?_).bind ?_
  · obtain ⟨u, -, rfl⟩ := List.mem_map.mp (List.mem_of_getElem? hsquare)
    simp [table, matrixOf]
  rintro square s ⟨-, hrows⟩
  refine (Yields.of_lift (Q := fun row _ => row.length = e.n) fun row hrow =>
    hrows row (List.mem_of_getElem? hrow)).bind fun row s hrow => ?_
  refine (Yields.of_lift (Q := fun cycles _ => cycles = partitions (e.n - first) 2)
    fun cycles hcycles => ?_).bind ?_
  · rw [hrow, getCycles_eq (by omega)] at hcycles
    exact (Option.some.inj hcycles).symm
  rintro _ s rfl
  refine (Yields.of_ensures (ensures_newVariables _ s)).bind ?_
  rintro vs s' ⟨hvs, -⟩
  refine Yields.bind (Q := fun _ _ => True) (fun _ _ _ => trivial) fun phis s' _ => ?_
  refine (yields_fixedCycle vs cycle).bind fun fixed s' hcycle => Yields.of_pure ?_
  simpa [hvs] using hcycle

/-- A reduced encoder that returns was asked for a cycle there is. -/
theorem yields_cycleExists (hn : 3 ≤ e.n) (hreduced : e.reduced = true) :
    Yields (e.symmetry e.tables) e.coreState fun _ _ => e.CycleExists := by
  unfold CycleExists
  rw [symmetry, if_pos hreduced]
  cases e.breakingSymmetryType with
  | first =>
      exact (yields_breakRow_cycle (by omega)).mono fun _ _ h => Or.inr h
  | second =>
      exact (yields_breakRow_cycle (by omega)).mono fun _ _ h => Or.inr h
  | none => exact Yields.of_pure (Or.inl rfl)

/-- The symmetry breaking defines what it introduces. -/
theorem yields_symmetry (hn : 3 ≤ e.n) (hk : 2 ≤ e.k) :
    Yields (e.symmetry e.tables) e.coreState fun breaking s =>
      (e.reduced = true → e.CycleExists) ∧ Builds e.coreState s [breaking] [] ∧
        Mentions e.coreState s [breaking] := by
  have hcycle : Yields (e.symmetry e.tables) e.coreState fun _ _ =>
      e.reduced = true → e.CycleExists :=
    fun breaking s hrun hreduced => yields_cycleExists hn hreduced breaking s hrun
  refine hcycle.and (Yields.and ?_ ?_)
  · by_cases hreduced : e.reduced = true
    · intro breaking s hrun
      have hcycle := hcycle breaking s hrun hreduced
      exact ((ensures_symmetry_reduced hreduced hn hk hcycle).of_run hrun).1
    · exact Yields.of_ensures ((ensures_symmetry_unreduced (by simpa using hreduced)).mono
        fun _ _ h => h.1)
  · unfold symmetry
    split
    · cases e.breakingSymmetryType with
      | first => exact yields_breakRow
      | second => exact yields_breakRow
      | none => exact Yields.of_pure (Mentions.of_silent rfl (by simp [Expression.simplified_and]))
    · exact Yields.of_pure (Mentions.of_silent rfl (by simp [Expression.simplified_and]))

/-- The lines of the tables mention their variables. -/
theorem lines_cover : (and (e.tables.map latin)).Covers (tableNames e.tables) :=
  covers_and_map fun square _ => latin_covers square

/-- What a run of the encoder that returns has done. -/
structure Returned (e : LatinSquareEncoder) (f : CNF) (s₁ s : GenState) (breaking : Expression)
    (ortho : List VariabledExpression) (args : List Conjunct) : Prop where
  cycle : e.reduced = true → e.CycleExists
  builds : Builds e.coreState s ([breaking] ++ ortho.map VariabledExpression.expr) []
  breakingMentions : Mentions e.coreState s₁ [breaking]
  orthoMentions : Mentions s₁ s (ortho.map VariabledExpression.expr)
  vars : ∀ r ∈ ortho, ∀ x ∈ r.vars, x.Proper s.varCounter
  cast : (e.formula breaking ortho).andArgs? = some args
  result : f = e.result breaking ortho s.nodes args

theorem yields_returned (order : Order) (hn : 3 ≤ e.n) (hk : 2 ≤ e.k) (hq : e.q ≤ e.n * e.n) :
    Yields (e.program order) {} fun f s => ∃ s₁ breaking ortho args,
      e.Returned f s₁ s breaking ortho args := by
  refine (Yields.of_ensures (ensures_coreVariables (by omega))).bind ?_
  rintro core s ⟨rfl, rfl⟩
  refine (Yields.of_ensures (Ensures.of_get (Q := fun t u => t = e.coreState ∧ u = e.coreState)
    ⟨rfl, rfl⟩)).bind ?_
  rintro t u ⟨rfl, rfl⟩
  refine (yields_symmetry hn hk).bind ?_
  rintro breaking s₁ ⟨hcycle, hbuilds, hmentions⟩
  refine ((Yields.of_ensures (ensures_squarePairs order (by omega) hq hbuilds.le)).and
    (yields_pairs_mentions fun p t => yields_orthogonalSquare order _ _ _)).bind ?_
  rintro ortho s₂ ⟨hortho, horthoMentions⟩
  refine (Yields.of_guard (Q := fun _ t => t = s₂) fun _ => rfl).bind ?_
  rintro _ s₂ rfl
  refine (Yields.of_lift (Q := fun args t => (e.formula breaking ortho).andArgs? = some args ∧
    t = s₂) fun args hargs => ⟨hargs, rfl⟩).bind ?_
  rintro args s₂ ⟨hargs, rfl⟩
  refine (Yields.of_ensures (Ensures.of_get (Q := fun t u => t = s₂ ∧ u = s₂) ⟨rfl, rfl⟩)).bind ?_
  rintro t s₂ ⟨rfl, rfl⟩
  apply Yields.of_pure
  exact ⟨s₁, breaking, ortho, args, hcycle, hbuilds.append hortho.builds, hmentions,
    horthoMentions, hortho.proper, hargs, rfl⟩

section Returned

variable {f : CNF} {s₁ s : GenState} {breaking : Expression} {ortho : List VariabledExpression}
variable {args : List Conjunct}

theorem Returned.net (h : e.Returned f s₁ s breaking ortho args) : f.net = s.nodes := by
  rw [h.result, LatinSquareEncoder.result, CNF.ofAnd]

theorem Returned.proper (hn : 0 < e.n) (h : e.Returned f s₁ s breaking ortho args) :
    (e.formula breaking ortho).Proper s.varCounter := by
  apply Expression.proper_and_pair
  · exact Expression.proper_and_pair ((lines_proper hn).mono h.builds.le)
      (h.builds.proper breaking (by simp))
  · exact Expression.proper_and fun r hr => h.builds.proper r (List.mem_append_right _ hr)

/-- The formula mentions what the run has introduced, and the variables of the tables. -/
theorem Returned.mentions (h : e.Returned f s₁ s breaking ortho args) :
    Mentions e.coreState s [e.formula breaking ortho] ∧
      (e.formula breaking ortho).Covers (tableNames e.tables) := by
  have hlines : ∀ r ∈ [and (e.tables.map latin)], r.Simplified := by
    simp [lines_cover.simplified]
  have hleft := h.breakingMentions.silent hlines
  have hall := hleft.and.append h.orthoMentions.and
  exact ⟨hall.and, covers_and hall.simplified List.mem_cons_self
    (covers_and hleft.simplified List.mem_cons_self lines_cover)⟩

/-- The numbers of the one-hot encoder's variables. -/
theorem Returned.numbered (hn : 0 < e.n) (h : e.Returned f s₁ s breaking ortho args) :
    Numbered f e.tables := by
  obtain ⟨hmentions, hcovers⟩ := h.mentions
  rw [h.result]
  exact numbered_ofAnd h.builds (h.proper hn) hmentions hcovers (fun _ => mem_tableNames)
    metaVars_within (proper_incremental h.vars) (fun _ h => h) h.cast

theorem Returned.length_variables (hn : 0 < e.n) (h : e.Returned f s₁ s breaking ortho args) :
    f.variables_.length = s.varCounter := by
  obtain ⟨hmentions, hcovers⟩ := h.mentions
  rw [h.result]
  exact length_names h.builds (h.proper hn) hmentions hcovers (fun _ => mem_tableNames) h.cast

end Returned

theorem yields_program (order : Order) (hn : 3 ≤ e.n) (hk : 2 ≤ e.k) (hq : e.q ≤ e.n * e.n) :
    Yields (e.program order) {} fun f _ => Numbered f e.tables :=
  (yields_returned order hn hk hq).mono fun f s h => by
    obtain ⟨s₁, breaking, ortho, args, h⟩ := h
    exact h.numbered (by omega)

end LatinSquareEncoder

namespace OrthogonalArrayEncoder

variable {e : OrthogonalArrayEncoder}

theorem mem_tableNames {v : Nat} : v ∈ tableNames [e.table] ↔ 1 ≤ v ∧ v ≤ e.coreSize := by
  show v ∈ tableNames ((List.range 1).map fun t => matrixOf e.s (e.n * e.n) e.n
    (layoutEntry e.s (e.n * e.n) e.n (fun _ => arrayKind e.reduced e.n) t)) ↔ _
  exact mem_tableNames_layout

/-- The cells of the table mention its variables. -/
theorem lines_cover : (and (e.table.map codeSufficient)).Covers (tableNames [e.table]) := by
  have hcovers : (and (e.table.map codeSufficient)).Covers
      (e.table.flatMap fun row => row.flatten.flatMap Literal.names) :=
    covers_and_map fun row _ => codeSufficient_covers
  refine hcovers.mono fun v hv => ?_
  simp only [tableNames, List.mem_flatMap, List.mem_flatten, List.mem_singleton,
    exists_eq_left] at hv ⊢
  obtain ⟨l, ⟨cell, ⟨row, hrow, hcell⟩, hl⟩, hv⟩ := hv
  exact ⟨row, hrow, l, ⟨cell, hcell, hl⟩, hv⟩

/-- The numbers of the array encoder's variables. -/
theorem yields_program (order : Order) (hn : 2 ≤ e.n) (hq : e.q ≤ e.n * e.n) :
    Yields (e.program order) {} fun f _ => Numbered f [e.table] := by
  refine (Yields.of_ensures ensures_coreVariables).bind ?_
  rintro core s ⟨rfl, rfl⟩
  refine (Yields.of_ensures (Ensures.of_get (Q := fun t u => t = e.coreState ∧ u = e.coreState)
    ⟨rfl, rfl⟩)).bind ?_
  rintro t u ⟨rfl, rfl⟩
  refine ((Yields.of_ensures (ensures_rowPairs order hn le_rfl (le_refl e.coreState.varCounter)
    (coordinatePairs e.s) fun p hp => ?_)).and
      (yields_pairs_mentions fun p t => yields_orthogonal order _ _ _)).bind ?_
  · obtain ⟨-, hij, hj⟩ := mem_coordinatePairs.mp hp
    exact ⟨hij.trans hj, hj⟩
  rintro firstPair s₁ ⟨hfirst, hfirstMentions⟩
  refine ((Yields.of_ensures (ensures_rowPairs order hn hq hfirst.builds.le
    (squareRowPairs e.s) fun p hp => ?_)).and
      (yields_pairs_mentions fun p t => yields_orthogonal order _ _ _)).bind ?_
  · obtain ⟨-, hij, hj⟩ := mem_squareRowPairs.mp hp
    exact ⟨hij.trans hj, hj⟩
  rintro secondPair s₂ ⟨hsecond, hsecondMentions⟩
  refine (Yields.of_lift (Q := fun args t =>
    (e.formula firstPair secondPair).andArgs? = some args ∧ t = s₂) fun args hargs =>
      ⟨hargs, rfl⟩).bind ?_
  rintro args s₂ ⟨hargs, rfl⟩
  apply Yields.of_pure
  have hbuilt := hfirst.builds.append hsecond.builds
  have hproper : (e.formula firstPair secondPair).Proper s₂.varCounter := by
    apply Expression.proper_and
    simp only [List.mem_cons, List.not_mem_nil, or_false, forall_eq_or_imp, forall_eq]
    exact ⟨lines_proper.mono hbuilt.le,
      Expression.proper_and fun r hr => hbuilt.proper r (List.mem_append_left _ hr),
      Expression.proper_and fun r hr => hbuilt.proper r (List.mem_append_right _ hr)⟩
  have hlines : ∀ r ∈ [and (e.table.map codeSufficient)], r.Simplified := by
    simp [lines_cover.simplified]
  have hall := (hfirstMentions.and.silent hlines).append hsecondMentions.and
  exact numbered_ofAnd hbuilt hproper hall.and
    (covers_and hall.simplified List.mem_cons_self lines_cover) (fun _ => mem_tableNames)
    (by simp) (by simp) (List.nil_subset _) hargs

end OrthogonalArrayEncoder

section Definitions

variable {e : Expression} {s : GenState} {c v : Nat} {args : List Literal}

/-- A definition mentions what it defines its variable by. -/
theorem iffAnd_covers (hargs : ∀ l ∈ args, l.Proper c) :
    (iffAnd v args).Covers (args.flatMap Literal.names) where
  simplified := simplified_iffAnd
  names hfalse name hname := by
    obtain ⟨l, hl, hname⟩ := List.mem_flatMap.mp hname
    have hmem := List.mem_append_left [orLiterals (args.map Literal.not ++ [.var v])]
      (List.mem_map_of_mem (f := fun it => orLiterals [.notVar v, it]) hl)
    apply Expression.mem_names_and hfalse hmem (simplified_orLiterals _)
    apply Expression.mem_names_orLiterals (l := l) (by simp) hname
    have htrue : Literal.constTrue ≠ l := fun h => Literal.not_proper_constTrue (h ▸ hargs l hl)
    simpa using htrue

theorem iffOr_covers (hargs : ∀ l ∈ args, l.Proper c) :
    (iffOr v args).Covers (args.flatMap Literal.names) where
  simplified := simplified_iffOr
  names hfalse name hname := by
    obtain ⟨l, hl, hname⟩ := List.mem_flatMap.mp hname
    have hmem := List.mem_append_left [orLiterals (args ++ [.notVar v])]
      (List.mem_map_of_mem (f := fun it : Literal => orLiterals [.var v, it.not]) hl)
    apply Expression.mem_names_and hfalse hmem (simplified_orLiterals _)
    apply Expression.mem_names_orLiterals (l := l.not) (by simp) (by rwa [Literal.names_not])
    have htrue : Literal.constTrue ≠ l.not := by
      intro h
      have hl := hargs l hl
      cases l <;> simp [Literal.not] at h
      exact Literal.not_proper_constFalse hl
    simpa using htrue

theorem yields_iff_covers (h : e.Definable c) :
    Yields (iff v e) s fun r _ => r.Covers e.names := by
  have hreturn : ∀ (node : Node) (r : Expression) (t : GenState), r.Covers e.names →
      Yields (addNode node >>= fun _ => pure r) t fun r _ => r.Covers e.names := by
    intro node r t hr
    exact (yields_addNode node).bind fun _ _ _ => Yields.of_pure hr
  cases h with
  | constTrue => exact hreturn _ _ s ⟨trivial, fun _ name hname => by cases hname⟩
  | constFalse => exact hreturn _ _ s ⟨trivial, fun _ name hname => by cases hname⟩
  | @disj ls b h =>
      refine hreturn _ _ s ?_
      have hcovers := iffOr_covers (v := v) h
      simpa [Expression.names, Expression.args, Clause.names, Clause.args] using hcovers
  | @conj cs h =>
      obtain ⟨args, hargs, hproper, -, hnames⟩ := mapM_literal? h
      refine (Yields.of_ensures (Ensures.of_lift (Q := fun a t => a = args) hargs rfl)).bind ?_
      rintro args t rfl
      refine hreturn _ _ t ?_
      have hcovers := iffAnd_covers (v := v) hproper
      rwa [hnames] at hcovers

/-- Loops cover what their rounds cover. -/
theorem yields_mapM_covers {α : Type} {xs : List α} {f : α → Gen Expression} {N : α → List Nat}
    (hstep : ∀ x ∈ xs, ∀ t, Yields (f x) t fun r _ => r.Covers (N x)) :
    Yields (xs.mapM f >>= fun rs => pure (and rs)) s fun r _ => r.Covers (xs.flatMap N) := by
  refine (Yields.mapM hstep).bind fun rs s' htraversal => Yields.of_pure ?_
  have hrounds : (∀ r ∈ rs, r.Simplified) ∧ ∀ x ∈ xs, ∃ r ∈ rs, r.Covers (N x) := by
    clear hstep
    induction htraversal with
    | nil t => simp
    | cons head tail ih =>
        refine ⟨List.forall_mem_cons.mpr ⟨head.simplified, ih.1⟩, List.forall_mem_cons.mpr ⟨?_, ?_⟩⟩
        · exact ⟨_, List.mem_cons_self, head⟩
        · intro x hx
          obtain ⟨r, hr, hcovers⟩ := ih.2 x hx
          exact ⟨r, List.mem_cons_of_mem _ hr, hcovers⟩
  refine ⟨Expression.simplified_and hrounds.1, fun hfalse name hname => ?_⟩
  obtain ⟨x, hx, hname⟩ := List.mem_flatMap.mp hname
  obtain ⟨r, hr, hcovers⟩ := hrounds.2 x hx
  exact (covers_and hrounds.1 hr hcovers).names hfalse name hname

end Definitions

namespace LogLatinSquareEncoder

variable {e : LogLatinSquareEncoder}

/-- The tables of bits. -/
def tables (e : LogLatinSquareEncoder) : List Matrix := (List.range e.k).map e.table

theorem mem_tableNames {v : Nat} : v ∈ tableNames e.tables ↔ 1 ≤ v ∧ v ≤ e.coreSize :=
  mem_tableNames_layout

/-- The bits of a cell are all constants or all variables. -/
theorem bit_cases {t i j : Nat} (hi : i < e.n) (hj : j < e.n) :
    (∀ b < log2 e.n, (e.bit t i j b).names = []) ∨
      ∀ b < log2 e.n, ∃ name, e.bit t i j b = .var name := by
  have hkind : (∀ b, (logKind e.reduced t i j b).isSome) ∨
      ∀ b, logKind e.reduced t i j b = none := by
    unfold logKind
    split_ifs <;> simp
  cases hkind with
  | inl hconstant =>
      refine Or.inl fun b hb => ?_
      obtain ⟨value, hvalue⟩ := Option.isSome_iff_exists.mp (hconstant b)
      rw [bit, layoutEntry_of_some hi hj hb hvalue]
      cases value <;> rfl
  | inr hvariable => exact Or.inr fun b hb => layoutEntry_of_none hi hj hb (hvariable b)

/-- The definition of an indicator mentions the variables of its cell. -/
theorem yields_indicator {t i j v w : Nat} (ht : t < e.k) (hi : i < e.n) (hj : j < e.n)
    {s : GenState} :
    Yields (iff w (logEqual ((List.range (log2 e.n)).map (e.bit t i j)) v)) s fun r _ =>
      r.Covers ((List.range (log2 e.n)).flatMap fun b => (e.bit t i j b).names) := by
  have hdefinable : (logEqual ((List.range (log2 e.n)).map (e.bit t i j)) v).Definable e.coreSize :=
    logEqual_definable fun b hb => bit_within ht hi hj hb
  refine (yields_iff_covers hdefinable).mono fun r s' hcovers => hcovers.mono ?_
  intro name hname
  obtain ⟨b, hb, hname⟩ := List.mem_flatMap.mp hname
  rw [List.mem_range] at hb
  cases bit_cases hi hj (t := t) with
  | inl hconstant =>
      rw [hconstant b hb] at hname
      cases hname
  | inr hvariable =>
      rw [logEqual, mapIdx_map_range]
      have hnot : ∀ b < log2 e.n, (Expression.literal (if (v >>> b) % 2 = 1 then e.bit t i j b
          else (e.bit t i j b).not)).isFalse = false := by
        intro b hb
        obtain ⟨name, hbit⟩ := hvariable b hb
        rw [hbit]
        split <;> simp [Literal.not]
      apply Expression.mem_names_and _ (List.mem_map_of_mem (List.mem_range.mpr hb))
        (Expression.simplified_clause _)
      · rw [mem_names_literal]
        split
        · exact hname
        · rwa [Literal.names_not]
      · rw [Expression.isFalse_and, List.any_map, List.any_eq_false]
        intro b hb
        rw [Function.comp_apply, hnot b (List.mem_range.mp hb)]
        simp

/-- The definitions of the indicators mention the bits. -/
theorem yields_ceitinEqExprs_covers {s : GenState} (hn : 0 < e.n) :
    Yields (e.ceitinEqExprs e.indicatorTables e.tables) s fun r _ =>
      r.Covers (tableNames e.tables) := by
  have hloops : Yields (e.ceitinEqExprs e.indicatorTables e.tables) s fun r _ =>
      r.Covers ((List.range e.k).flatMap fun t => (List.range e.n).flatMap fun i =>
        (List.range e.n).flatMap fun j => (List.range e.n).flatMap fun _ =>
          (List.range (log2 e.n)).flatMap fun b => (e.bit t i j b).names) := by
    refine yields_mapM_covers fun t ht s₁ => ?_
    refine yields_mapM_covers fun i hi s₂ => ?_
    refine yields_mapM_covers fun j hj s₃ => ?_
    refine yields_mapM_covers fun v _ s₄ => ?_
    rw [List.mem_range] at ht hi hj
    have hcell : (e.tables.getD t []).cell i j = (List.range (log2 e.n)).map (e.bit t i j) := by
      rw [tables, getD_map_range _ _ ht, table, cell_matrixOf hi hj]
    rw [hcell]
    split
    · exact yields_indicator ht hi hj
    · exact Yields.of_failure
  refine hloops.mono fun r s' hcovers => hcovers.mono fun name hname => ?_
  obtain ⟨t, ht, i, hi, j, hj, b, hb, hname⟩ := mem_tableNames_matrixOf.mp hname
  simp only [List.mem_flatMap, List.mem_range]
  exact ⟨t, ht, i, hi, j, hj, 0, hn, b, hb, hname⟩

/-- The definitions of the indicators mention them. -/
theorem yields_ceitinEqExprs {tables core : List Matrix} {s : GenState} :
    Yields (e.ceitinEqExprs tables core) s fun r s' => Mentions s s' [r] := by
  refine (yields_mapM_mentions fun t _ s₁ => ?_).bind fun _ _ h => Yields.of_pure h.and
  refine (yields_mapM_mentions fun i _ s₂ => ?_).bind fun _ _ h => Yields.of_pure h.and
  refine (yields_mapM_mentions fun j _ s₃ => ?_).bind fun _ _ h => Yields.of_pure h.and
  refine (yields_mapM_mentions fun v _ s₄ => ?_).bind fun _ _ h => Yields.of_pure h.and
  split
  · exact yields_iff _
  · exact Yields.of_failure

/-- The indicators are numbered one after the other. -/
theorem indicators_eq :
    ((List.range e.k).flatMap fun t => (List.range e.n).flatMap fun i =>
      (List.range e.n).flatMap fun j => (List.range e.n).map fun v => e.indicator t i j v) =
      List.range' (e.coreSize + 1) (e.k * (e.n * e.n * e.n)) := by
  have hcell : ∀ t i j, ((List.range e.n).map fun v => e.indicator t i j v) =
      List.range' (e.coreSize + t * (e.n * e.n * e.n) + i * (e.n * e.n) + j * e.n + 1) e.n := by
    intro t i j
    rw [List.range'_eq_map_range]
    refine List.map_congr_left fun v _ => ?_
    rw [indicator]
    ring
  simp only [hcell, flatMap_range']
  rw [← Nat.mul_assoc e.n e.n e.n, flatMap_range']

/-- The symmetry breaking defines what it introduces. -/
theorem yields_symmetry (hn : 2 ≤ e.n) (hk : 0 < e.k) :
    Yields (e.symmetry e.indicatorTables) e.indicatorState fun breaking s =>
      Builds e.indicatorState s [breaking] [] ∧ Mentions e.indicatorState s [breaking] := by
  apply Yields.and
  · by_cases hreduced : e.reduced = true
    · exact Yields.of_ensures ((ensures_symmetry_reduced hreduced hn hk).mono fun _ _ h => h.1)
    · exact Yields.of_ensures ((ensures_symmetry_unreduced (by simpa using hreduced)).mono
        fun _ _ h => h.1)
  · unfold symmetry
    split
    · exact yields_breakRow
    · exact Yields.of_pure (Mentions.of_silent rfl (by simp [Expression.simplified_and]))

/-- The numbers of the logarithmic encoder's variables. -/
theorem yields_program (hn : 2 ≤ e.n) (hk : 2 ≤ e.k) (hq : e.q ≤ e.n * e.n) :
    Yields e.program {} fun f _ => Numbered f e.tables := by
  refine (Yields.of_ensures (ensures_coreVariables (by omega))).bind ?_
  rintro core s ⟨rfl, rfl⟩
  refine (Yields.of_ensures (Ensures.of_get (Q := fun t u => t = { varCounter := e.coreSize } ∧
    u = { varCounter := e.coreSize }) ⟨rfl, rfl⟩)).bind ?_
  rintro t u ⟨rfl, rfl⟩
  refine (Yields.of_ensures ensures_indicators).bind ?_
  rintro tables s ⟨rfl, rfl⟩
  refine (yields_symmetry hn (by omega)).bind ?_
  rintro breaking s₀ ⟨hbreaking, hbreakingMentions⟩
  refine ((Yields.of_ensures (ensures_ceitinEqExprs hbreaking.le)).and
    ((yields_ceitinEqExprs_covers (by omega)).and yields_ceitinEqExprs)).bind ?_
  rintro ceitinEq s₁ ⟨⟨hceitin, hcounter, -⟩, hceitinCovers, hceitinMentions⟩
  refine ((Yields.of_ensures (ensures_squarePairs hn hq (hbreaking.le.trans hcounter.ge))).and
    (yields_pairs_mentions fun p t => yields_orthogonalLogSquare _ _ _)).bind ?_
  rintro ortho s₂ ⟨hortho, horthoMentions⟩
  refine (Yields.of_guard (Q := fun _ t => t = s₂) fun _ => rfl).bind ?_
  rintro _ s₂ rfl
  refine (Yields.of_lift (Q := fun args t =>
    (e.formula breaking ceitinEq ortho).andArgs? = some args ∧ t = s₂) fun args hargs =>
      ⟨hargs, rfl⟩).bind ?_
  rintro args s₂ ⟨hargs, rfl⟩
  refine (Yields.of_ensures (Ensures.of_get (Q := fun t u => t = s₂ ∧ u = s₂) ⟨rfl, rfl⟩)).bind ?_
  rintro t s₂ ⟨rfl, rfl⟩
  apply Yields.of_pure
  have hbuilt : Builds { varCounter := e.coreSize } s₂
      ([breaking] ++ [ceitinEq] ++ ortho.map VariabledExpression.expr) [] := by
    refine ((hbreaking.append hceitin).append hortho.builds).of_introduced coreSize_le rfl ?_
    have hsize : e.indicatorState.varCounter - e.coreSize = e.k * (e.n * e.n * e.n) :=
      Nat.add_sub_cancel_left _ _
    rw [List.nil_append, indicators_eq, List.append_nil, List.append_nil, fresh, hsize]
  have hproper : (e.formula breaking ceitinEq ortho).Proper s₂.varCounter := by
    have hlines := (lines_proper (e := e) (by omega)).mono
      (hbreaking.le.trans (hcounter.ge.trans hortho.builds.le))
    apply Expression.proper_and_pair
    · apply Expression.proper_and_pair
      · exact Expression.proper_and_pair (hbuilt.proper ceitinEq (by simp)) hlines
      · exact Expression.proper_and fun r hr => hbuilt.proper r (List.mem_append_right _ hr)
    · exact hbuilt.proper breaking (by simp)
  have hlines : Mentions s₁ s₁ [and (e.indicatorTables.map logLatin)] := by
    refine Mentions.of_silent rfl (List.forall_mem_singleton.mpr (Expression.simplified_and ?_))
    exact List.forall_mem_map.mpr fun square _ => simplified_logLatin square
  have hdefined := hceitinMentions.append hlines
  have hwritten := hdefined.and.append horthoMentions.and
  have hall := ((hbreakingMentions.append hwritten.and).perm (List.Perm.swap _ _ [])).congr
    (t := { varCounter := e.coreSize }) rfl
  have hcovers : (e.formula breaking ceitinEq ortho).Covers (tableNames e.tables) :=
    covers_and hall.simplified List.mem_cons_self (covers_and hwritten.simplified
      List.mem_cons_self (covers_and hdefined.simplified List.mem_cons_self hceitinCovers))
  exact numbered_ofAnd hbuilt hproper hall.and hcovers (fun _ => mem_tableNames) (by simp)
    (proper_incremental hortho.proper) (fun _ h => h) hargs

end LogLatinSquareEncoder

theorem of_run' {α : Type} {m : Gen α} {s : GenState} {Q : α → GenState → Prop} {a : α}
    (h : Yields m s Q) (hrun : m.run' s = some a) : ∃ s', Q a s' := by
  obtain ⟨⟨a, s'⟩, hm, rfl⟩ := Option.map_eq_some_iff.mp hrun
  exact ⟨s', h a s' hm⟩

/-- Whatever encoder returns a formula, the variables are numbered without gaps, those of
the core tables first. -/
theorem cnf_numbered (order : Order) {n k q : Nat} (hn : 3 ≤ n) (hk : 2 ≤ k) (hq : q ≤ n * n) :
    (∀ (reduced weighted : Bool) (breaking : BreakingSymmetryType) (cycleNum : Int) (f : CNF),
      let e : LatinSquareEncoder := ⟨reduced, weighted, breaking, cycleNum, n, k, q⟩
      e.cnf order = some f → ∃ core s, e.coreVariables.run {} = some (core, s) ∧
        Numbered f core) ∧
    (∀ (reduced : Bool) (f : CNF),
      let e : LogLatinSquareEncoder := ⟨reduced, n, k, q⟩
      e.cnf = some f → ∃ core s, e.coreVariables.run {} = some (core, s) ∧ Numbered f core) ∧
    ∀ (reduced : Bool) (f : CNF),
      let e := OrthogonalArrayEncoder.build reduced n k q
      e.cnf order = some f → ∃ core s, e.coreVariables.run {} = some (core, s) ∧
        Numbered f [core] := by
  refine ⟨?_, ?_, ?_⟩
  · intro reduced weighted breaking cycleNum f e hf
    obtain ⟨-, hnumbered⟩ := of_run' (LatinSquareEncoder.yields_program order hn hk hq) hf
    obtain ⟨core, s, hrun, rfl, rfl⟩ := LatinSquareEncoder.ensures_coreVariables (e := e)
      (show 0 < k by omega)
    exact ⟨_, _, hrun, hnumbered⟩
  · intro reduced f e hf
    obtain ⟨-, hnumbered⟩ := of_run' (LogLatinSquareEncoder.yields_program
      (show 2 ≤ n by omega) hk hq) hf
    obtain ⟨core, s, hrun, rfl, rfl⟩ := LogLatinSquareEncoder.ensures_coreVariables (e := e)
      (show 0 < k by omega)
    exact ⟨_, _, hrun, hnumbered⟩
  · intro reduced f e hf
    obtain ⟨-, hnumbered⟩ := of_run' (OrthogonalArrayEncoder.yields_program order
      (show 2 ≤ n by omega) hq) hf
    obtain ⟨core, s, hrun, rfl, rfl⟩ := OrthogonalArrayEncoder.ensures_coreVariables (e := e)
    exact ⟨_, _, hrun, hnumbered⟩

theorem cnf_numbered_three :
    ∃ f core s, ({ reduced := false, n := 3, k := 2, q := 7 } : LatinSquareEncoder).cnf
        Order.identity = some f ∧
      ({ reduced := false, n := 3, k := 2, q := 7 } : LatinSquareEncoder).coreVariables.run {} =
        some (core, s) ∧ Numbered f core := by
  obtain ⟨f, hf, -⟩ := LatinSquareEncoder.exists_cnf_unreduced
    (e := { reduced := false, n := 3, k := 2, q := 7 }) Order.identity rfl (by decide) (by decide)
    (by decide)
  obtain ⟨core, s, hrun, hnumbered⟩ := (cnf_numbered (n := 3) (k := 2) (q := 7) Order.identity
    (by decide) (by decide) (by decide)).1 false false .none (-1) f hf
  exact ⟨f, core, s, hf, hrun, hnumbered⟩

end LatinSquares.Generator
