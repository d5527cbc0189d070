/-
# Choosing values for the cells

A meta variable lists the values its cell may take and the literals that hold then. A
choice of one value for each meta variable describes squares in which every cell has one
symbol, and where the nodes of the net hold as well, the clauses that are not marked as
important hold.
-/

import LatinSquares.Generator.Numbering

namespace LatinSquares.Generator

open LatinSquares.Math
open Expression (and)

section Values

variable {n c v : Nat} {ls : List Literal} {entry : Nat × List Literal} {α : Assignment}

open LatinSquareEncoder (metaValues)

theorem mem_metaValues : entry ∈ metaValues n ls ↔ (1 ≤ entry.1 ∧ entry.1 ≤ n) ∧
    entry.2 = ((equal ls entry.1).args.flatMap fun c => c.clause.args).filter (fun l =>
      l ≠ .constTrue ∧ l ≠ .constFalse) ∧ entry.2 ≠ [] := by
  obtain ⟨value, literals⟩ := entry
  simp only [metaValues, List.mem_filter, List.mem_map, List.mem_range'_1, Prod.mk.injEq,
    decide_eq_true_eq]
  constructor
  · rintro ⟨⟨it, hit, rfl, rfl⟩, hne⟩
    exact ⟨by omega, rfl, hne⟩
  · rintro ⟨hvalue, rfl, hne⟩
    exact ⟨⟨value, by omega, rfl, rfl⟩, hne⟩

/-- A listed value asks for the literals of a conjunction. -/
theorem equal_of_mem_metaValues (hls : ∀ l ∈ ls, l.Within c) (hentry : entry ∈ metaValues n ls) :
    ∃ cs, equal ls entry.1 = .conj cs ∧ entry.2 = cs.flatMap fun c => c.clause.args := by
  obtain ⟨-, hliterals, hne⟩ := mem_metaValues.mp hentry
  have hproper : (equal ls entry.1).Proper c := equal_proper_of_within hls
  obtain heq | heq | ⟨-, -, heq⟩ := Expression.and_cases
    (ls.mapIdx fun i var => Expression.literal (if i + 1 = entry.1 then var else var.not))
  · rw [equal, heq] at hliterals
    exact absurd hliterals hne
  · rw [equal, heq] at hliterals
    exact absurd hliterals hne
  · rw [equal, heq] at hliterals hproper
    refine ⟨_, heq, hliterals.trans (List.filter_eq_self.mpr fun l hl => ?_)⟩
    obtain ⟨cj, hcj, hl⟩ := List.mem_flatMap.mp hl
    have hl := (hproper.2 cj hcj).literals l hl
    cases l with
    | constFalse => exact absurd hl Literal.not_proper_constFalse
    | constTrue => exact absurd hl Literal.not_proper_constTrue
    | var name => simp
    | notVar name => simp

/-- The literals of a value hold where the cell has that value. -/
theorem literals_hold_iff (hls : ∀ l ∈ ls, l.Within c) (hentry : entry ∈ metaValues n ls) :
    (∀ l ∈ entry.2, l.eval α = true) ↔ (equal ls entry.1).eval α = true := by
  obtain ⟨cs, hequal, hliterals⟩ := equal_of_mem_metaValues hls hentry
  have hsingle : ∀ cj ∈ cs, ∃ l, cj.clause = .literal l := by
    have h := equal_ofLiterals ls entry.1
    rwa [hequal] at h
  rw [hequal, hliterals, Expression.eval_conj, List.all_eq_true]
  simp only [List.mem_flatMap, forall_exists_index, and_imp]
  constructor
  · intro h cj hcj
    obtain ⟨l, hl⟩ := hsingle cj hcj
    have htrue := h l cj hcj (by rw [hl]; exact List.mem_singleton.mpr rfl)
    rwa [hl, Clause.eval_literal]
  · intro h l cj hcj hl
    obtain ⟨l', hl'⟩ := hsingle cj hcj
    have htrue := h cj hcj
    rw [hl'] at hl htrue
    obtain rfl := List.mem_singleton.mp hl
    rwa [Clause.eval_literal] at htrue

/-- The literals of a value mention the variables of the cell. -/
theorem mem_names_literals (hls : ∀ l ∈ ls, l.Within c) (hentry : entry ∈ metaValues n ls)
    {l : Literal} (hl : l ∈ ls) (hv : v ∈ l.names) : v ∈ entry.2.flatMap Literal.names := by
  obtain ⟨cs, hequal, hliterals⟩ := equal_of_mem_metaValues hls hentry
  have hfalse : (equal ls entry.1).isFalse = false := by rw [hequal]; rfl
  obtain ⟨i, hi, rfl⟩ := List.getElem_of_mem hl
  have hmem : v ∈ (equal ls entry.1).names := by
    apply Expression.mem_names_and hfalse (List.mem_mapIdx.mpr ⟨i, hi, rfl⟩)
      (Expression.simplified_clause _)
    rw [mem_names_literal]
    split
    · exact hv
    · rwa [Literal.names_not]
  rw [hequal] at hmem
  rw [hliterals, List.flatMap_assoc]
  exact hmem

/-- A value that is not excluded agrees with the constants of a cell. -/
theorem eval_equal_of_notFalse {h : Nat → Literal} {value : Nat}
    (hfalse : (equal ((List.range n).map h) value).isFalse = false)
    (hvalues : ∀ k < n, h k ≠ .constTrue → h k ≠ .constFalse →
      (h k).eval α = decide (k + 1 = value)) :
    (equal ((List.range n).map h) value).eval α = true := by
  rw [equal, mapIdx_map_range, Expression.isFalse_and, List.any_map, List.any_eq_false] at hfalse
  rw [eval_equal]
  intro k hk
  have hk' := hfalse k (List.mem_range.mpr hk)
  rw [Function.comp_apply, Expression.isFalse_literal, decide_eq_true_eq] at hk'
  by_cases htrue : h k = .constTrue
  · by_cases heq : k + 1 = value <;> simp_all [Literal.not]
  · by_cases hfalse : h k = .constFalse
    · by_cases heq : k + 1 = value <;> simp_all [Literal.not]
    · exact hvalues k hk htrue hfalse

/-- The value of a variable is listed when no other symbol is fixed. -/
theorem metaValues_ne_nil {h : Nat → Literal} {k name : Nat} (hk : k < n) (hvar : h k = .var name)
    (htrue : ∀ k < n, h k ≠ .constTrue) : metaValues n ((List.range n).map h) ≠ [] := by
  have hfalse : (equal ((List.range n).map h) (k + 1)).isFalse = false := by
    rw [equal, mapIdx_map_range, Expression.isFalse_and, List.any_map, List.any_eq_false]
    intro i hi
    have hi := htrue i (List.mem_range.mp hi)
    rw [Function.comp_apply, Expression.isFalse_literal, decide_eq_true_eq]
    split
    · next heq =>
        obtain rfl : i = k := Nat.succ.inj heq
        rw [hvar]
        simp
    · cases hliteral : h i <;> simp_all [Literal.not]
  have hmem : name ∈ (equal ((List.range n).map h) (k + 1)).names := by
    apply Expression.mem_names_and hfalse (e := .literal (.var name)) _
      (Expression.simplified_clause _) (mem_names_literal.mpr List.mem_cons_self)
    rw [mapIdx_map_range]
    exact List.mem_map.mpr ⟨k, List.mem_range.mpr hk, by rw [if_pos rfl, hvar]⟩
  obtain ⟨cj, hcj, hname⟩ := Expression.mem_names.mp hmem
  obtain ⟨l, hl, hname⟩ := List.mem_flatMap.mp hname
  obtain ⟨literals, hliterals⟩ : ∃ literals, literals =
      ((equal ((List.range n).map h) (k + 1)).args.flatMap fun c => c.clause.args).filter fun l =>
        l ≠ .constTrue ∧ l ≠ .constFalse := ⟨_, rfl⟩
  have hlisted : l ∈ literals := by
    rw [hliterals]
    refine List.mem_filter.mpr ⟨List.mem_flatMap.mpr ⟨cj, hcj, hl⟩, ?_⟩
    cases l <;> simp [Literal.names] at hname ⊢
  have hentry : (k + 1, literals) ∈ metaValues n ((List.range n).map h) :=
    mem_metaValues.mpr ⟨⟨Nat.succ_pos k, hk⟩, hliterals, List.ne_nil_of_mem hlisted⟩
  exact List.ne_nil_of_mem hentry

end Values

/-- The place of a cell. -/
def MetaVariable.place (it : MetaVariable) : Nat × Nat × Nat := (it.matrix, it.row, it.column)

/-- One value for every meta variable. -/
def IsChoice (metaVariables : List MetaVariable) (choice : List (Nat × List Literal)) : Prop :=
  List.Forall₂ (fun it entry => entry ∈ it.values) metaVariables choice

/-- Pairs with distinct keys are the graph of a function. -/
theorem exists_function_of_nodup {κ β : Type} [DecidableEq κ] [Inhabited β] :
    ∀ {pairs : List (κ × β)}, (pairs.map Prod.fst).Nodup → ∃ x : κ → β, ∀ p ∈ pairs, x p.1 = p.2
  | [], _ => ⟨fun _ => default, by simp⟩
  | p :: pairs, h => by
      obtain ⟨hp, htail⟩ := List.nodup_cons.mp h
      obtain ⟨x, hx⟩ := exists_function_of_nodup htail
      refine ⟨Function.update x p.1 p.2, List.forall_mem_cons.mpr ⟨Function.update_self _ _ _, ?_⟩⟩
      intro p' hp'
      have hne : p'.1 ≠ p.1 := fun heq => hp (heq ▸ List.mem_map_of_mem hp')
      rw [Function.update_of_ne hne, hx p' hp']

theorem exists_mem_zip {β γ : Type} {xs : List β} {ys : List γ} {x : β}
    (hlength : xs.length = ys.length) (hx : x ∈ xs) : ∃ y, (x, y) ∈ xs.zip ys := by
  rw [← List.map_fst_zip hlength.le] at hx
  obtain ⟨p, hp, rfl⟩ := List.mem_map.mp hx
  exact ⟨p.2, hp⟩

namespace LatinSquareEncoder

variable {e : LatinSquareEncoder} {t i j : Nat}

/-- A cell has a fixed symbol, or variables and no fixed symbol. -/
theorem kind_cases (hn : 3 ≤ e.n) (hi : i < e.n) (hj : j < e.n) :
    (∃ c < e.n, ∀ k < e.n, oneHotKind e.reduced t i j k = some (decide (c = k))) ∨
      (∃ k < e.n, oneHotKind e.reduced t i j k = none) ∧
        ∀ k < e.n, oneHotKind e.reduced t i j k ≠ some true := by
  have hfree : ∃ k < e.n, k ≠ i ∧ k ≠ j := by
    by_cases h0 : 0 ≠ i ∧ 0 ≠ j
    · exact ⟨0, by omega, h0⟩
    · by_cases h1 : 1 ≠ i ∧ 1 ≠ j
      · exact ⟨1, by omega, h1⟩
      · exact ⟨2, by omega, by omega⟩
  obtain ⟨free, hfree, hfi, hfj⟩ := hfree
  unfold oneHotKind
  split_ifs with hreduced ht hrow hcolumn hcolumn hrow
  · exact Or.inl ⟨j, hj, fun k _ => rfl⟩
  · exact Or.inl ⟨i, hi, fun k _ => rfl⟩
  · refine Or.inr ⟨⟨free, hfree, by simp [hfi, hfj]⟩, fun k _ => ?_⟩
    split_ifs <;> simp
  · exact Or.inl ⟨i, hi, fun k _ => rfl⟩
  · refine Or.inr ⟨⟨free, hfree, by simp [hfj.symm]⟩, fun k _ => ?_⟩
    split_ifs <;> simp
  · refine Or.inr ⟨⟨free, hfree, by simp [hfi.symm]⟩, fun k _ => ?_⟩
    split_ifs <;> simp
  · exact Or.inr ⟨⟨free, hfree, rfl⟩, fun k _ => by simp⟩

/-- The literals of a cell. -/
def cellOf (e : LatinSquareEncoder) (t i j : Nat) : List Literal :=
  (List.range e.n).map (e.entry t i j)

theorem metaVars_eq : e.metaVars e.tables = ((List.range e.k).flatMap fun t =>
    (List.range e.n).flatMap fun i => (List.range e.n).map fun j =>
      (⟨t, i, j, metaValues e.n (e.cellOf t i j)⟩ : MetaVariable)).filter fun it =>
        it.values ≠ [] := by
  simp only [metaVars, tables, table, matrixOf, mapIdx_map_range, cellOf, List.flatMap_def]

theorem mem_metaVars {it : MetaVariable} : it ∈ e.metaVars e.tables ↔
    (∃ t < e.k, ∃ i < e.n, ∃ j < e.n, it = ⟨t, i, j, metaValues e.n (e.cellOf t i j)⟩) ∧
      it.values ≠ [] := by
  simp only [metaVars_eq, List.mem_filter, List.mem_flatMap, List.mem_range, List.mem_map,
    decide_eq_true_eq]
  refine and_congr_left fun _ => ?_
  constructor
  · rintro ⟨t, ht, i, hi, j, hj, rfl⟩
    exact ⟨t, ht, i, hi, j, hj, rfl⟩
  · rintro ⟨t, ht, i, hi, j, hj, rfl⟩
    exact ⟨t, ht, i, hi, j, hj, rfl⟩

/-- A cell has one meta variable. -/
theorem places_nodup : ((e.metaVars e.tables).map MetaVariable.place).Nodup := by
  rw [metaVars_eq]
  refine (List.Nodup.sublist (List.filter_sublist.map _) ?_)
  have hproduct : ((List.range e.k).flatMap fun t => (List.range e.n).flatMap fun i =>
      (List.range e.n).map fun j => (⟨t, i, j, metaValues e.n (e.cellOf t i j)⟩ :
        MetaVariable)).map MetaVariable.place =
      List.range e.k ×ˢ (List.range e.n ×ˢ List.range e.n) := by
    simp only [List.map_flatMap, List.map_map, SProd.sprod, List.product]
    rfl
  rw [hproduct]
  exact List.nodup_range.product (List.nodup_range.product List.nodup_range)

theorem cellOf_within (ht : t < e.k) (hi : i < e.n) (hj : j < e.n) :
    ∀ l ∈ e.cellOf t i j, l.Within e.coreSize :=
  forall_mem_map_range.mpr fun v => entry_within ht hi hj v.isLt

/-- A cell without a fixed symbol has a meta variable. -/
theorem mem_metaVars_of_free (ht : t < e.k) (hi : i < e.n) (hj : j < e.n)
    (hfree : (∃ k < e.n, oneHotKind e.reduced t i j k = none) ∧
      ∀ k < e.n, oneHotKind e.reduced t i j k ≠ some true) :
    ⟨t, i, j, metaValues e.n (e.cellOf t i j)⟩ ∈ e.metaVars e.tables := by
  obtain ⟨⟨k, hk, hnone⟩, hnot⟩ := hfree
  obtain ⟨name, hvar⟩ := layoutEntry_of_none hi hj hk hnone
  refine mem_metaVars.mpr
    ⟨⟨t, ht, i, hi, j, hj, rfl⟩, metaValues_ne_nil hk hvar fun v hv htrue => ?_⟩
  cases hkind : oneHotKind e.reduced t i j v with
  | none =>
      obtain ⟨name, hname⟩ := layoutEntry_of_none hi hj hv hkind
      rw [entry, hname] at htrue
      cases htrue
  | some b =>
      rw [entry, layoutEntry_of_some hi hj hv hkind] at htrue
      cases b with
      | false => cases htrue
      | true => exact hnot v hv hkind

/-- A choice of values describes squares. -/
theorem exists_described (hn : 3 ≤ e.n) {choice : List (Nat × List Literal)}
    (h : IsChoice (e.metaVars e.tables) choice) :
    ∃ α F, e.Describes α F ∧ ∀ entry ∈ choice, ∀ l ∈ entry.2, l.eval α = true := by
  obtain ⟨hlength, hmem⟩ := List.forall₂_iff_zip.mp h
  -- the chosen value as a function of the place of the cell
  obtain ⟨x, hx⟩ : ∃ x : Nat × Nat × Nat → Nat, ∀ p ∈ (e.metaVars e.tables).zip choice,
      x p.1.place = p.2.1 := by
    have hnodup : ((((e.metaVars e.tables).zip choice).map fun p => (p.1.place, p.2.1)).map
        Prod.fst).Nodup := by
      rw [List.map_map]
      have hfirst := places_nodup (e := e)
      rw [← List.map_fst_zip hlength.le, List.map_map] at hfirst
      exact hfirst
    obtain ⟨x, hx⟩ := exists_function_of_nodup hnodup
    exact ⟨x, fun p hp => hx _ (List.mem_map_of_mem hp)⟩
  obtain ⟨α, hα⟩ := exists_layout_eval (oneHotKind e.reduced) e.k e.n e.n e.n
    (fun t i j k => (oneHotKind e.reduced t i j k).getD (decide (k + 1 = x (t, i, j))))
    (fun t _ i _ j _ k _ b hb => by rw [hb, Option.getD_some])
  have hcell : ∀ t < e.k, ∀ i < e.n, ∀ j < e.n, ∀ chosen, (⟨t, i, j, metaValues e.n
      (e.cellOf t i j)⟩, chosen) ∈ (e.metaVars e.tables).zip choice →
      (equal (e.cellOf t i j) chosen.1).eval α = true := by
    intro t ht i hi j hj chosen hp
    have hchosen := hmem hp
    have hvalue := hx _ hp
    obtain ⟨cs, hequal, -⟩ := equal_of_mem_metaValues (cellOf_within ht hi hj) hchosen
    apply eval_equal_of_notFalse (by rw [← cellOf, hequal]; rfl)
    intro k hk htrue hfalse
    rw [entry, hα t ht i hi j hj k hk]
    cases hkind : oneHotKind e.reduced t i j k with
    | none =>
        simp only [MetaVariable.place] at hvalue
        rw [hvalue, Option.getD_none]
    | some b =>
        rw [entry, layoutEntry_of_some hi hj hk hkind] at htrue hfalse
        cases b <;> simp at htrue hfalse
  have hdescribed : ∀ (t : Fin e.k) (i j : Fin e.n), ∃ c : Fin e.n, ∀ v : Fin e.n,
      (e.entry t i j v).eval α = true ↔ c = v := by
    intro t i j
    cases kind_cases (t := t) hn i.isLt j.isLt with
    | inl hfixed =>
        obtain ⟨c, hc, hkind⟩ := hfixed
        refine ⟨⟨c, hc⟩, fun v => ?_⟩
        rw [entry, layoutEntry_eval i.isLt j.isLt v.isLt (hkind v v.isLt), decide_eq_true_eq,
          Fin.ext_iff]
    | inr hfree =>
        obtain ⟨chosen, hp⟩ :=
          exists_mem_zip hlength (mem_metaVars_of_free t.isLt i.isLt j.isLt hfree)
        obtain ⟨⟨hpos, hle⟩, -⟩ := mem_metaValues.mp (hmem hp)
        have hequal := eval_equal.mp (hcell t t.isLt i i.isLt j j.isLt chosen hp)
        refine ⟨⟨chosen.1 - 1, by omega⟩, fun v => ?_⟩
        rw [hequal v v.isLt, decide_eq_true_eq, Fin.ext_iff]
        constructor <;> (intro heq; simp only at heq ⊢; omega)
  choose F hF using hdescribed
  refine ⟨α, F, hF, fun chosen hchosen => ?_⟩
  rw [← List.map_snd_zip hlength.ge] at hchosen
  obtain ⟨⟨it, chosen⟩, hp, rfl⟩ := List.mem_map.mp hchosen
  obtain ⟨⟨t, ht, i, hi, j, hj, rfl⟩, -⟩ := mem_metaVars.mp (List.of_mem_zip hp).1
  exact (literals_hold_iff (cellOf_within ht hi hj) (hmem hp)).mpr (hcell t ht i hi j hj chosen hp)

/-- Every core variable is among the literals of a chosen value. -/
theorem exists_mem_chosen (hn : 3 ≤ e.n) {choice : List (Nat × List Literal)}
    (h : IsChoice (e.metaVars e.tables) choice) {v : Nat} (hv : 1 ≤ v) (hle : v ≤ e.coreSize) :
    ∃ chosen ∈ choice, v ∈ chosen.2.flatMap Literal.names := by
  obtain ⟨hlength, hmem⟩ := List.forall₂_iff_zip.mp h
  obtain ⟨t, ht, i, hi, j, hj, k, hk, hvar⟩ := exists_layoutEntry hv hle
  have hfree : (∃ k < e.n, oneHotKind e.reduced t i j k = none) ∧
      ∀ k < e.n, oneHotKind e.reduced t i j k ≠ some true := by
    apply (kind_cases hn hi hj).resolve_left
    rintro ⟨c, -, hkind⟩
    rw [layoutEntry_of_some hi hj hk (hkind k hk)] at hvar
    split at hvar <;> cases hvar
  obtain ⟨chosen, hp⟩ := exists_mem_zip hlength (mem_metaVars_of_free ht hi hj hfree)
  refine ⟨chosen, (List.of_mem_zip hp).2, ?_⟩
  apply mem_names_literals (cellOf_within ht hi hj) (hmem hp) (l := e.entry t i j k)
  · exact List.mem_map_of_mem (List.mem_range.mpr hk)
  · rw [entry, hvar]
    exact List.mem_cons_self

/-- Where every cell has one symbol, the ignored clauses of a square hold. -/
theorem latin_ignoredHold {α : Assignment} {F : Fin e.k → Square (Fin e.n)}
    (hF : e.Describes α F) (t : Fin e.k) : (latin (e.table t)).IgnoredHold α := by
  apply Expression.ignoredHold_and
  intro line hline
  obtain hline | hline := List.mem_append.mp hline
  · obtain ⟨row, hrow, rfl⟩ := List.mem_map.mp hline
    apply Expression.ignoredHold_and_pair
    · refine codeSufficient_ignoredHold fun _ => ?_
      obtain ⟨i, hi, rfl⟩ := List.mem_map.mp hrow
      refine forall_mem_map_range.mpr fun j => oneTrue_map_range.mpr ?_
      have hcell := hF t ⟨i, List.mem_range.mp hi⟩ j
      exact ⟨F t ⟨i, List.mem_range.mp hi⟩ j, (hcell _).mpr rfl, fun v hv => ((hcell v).mp hv).symm⟩
    · exact codeSufficient_ignoredHold (by simp)
  · obtain ⟨column, -, rfl⟩ := List.mem_map.mp hline
    exact codeSufficient_ignoredHold (by simp)

section Returned

variable {f : CNF} {s₁ s : GenState} {breaking : Expression} {ortho : List VariabledExpression}
variable {args : List Conjunct} {α : Assignment} {F : Fin e.k → Square (Fin e.n)}

theorem Returned.formula_eq (h : e.Returned f s₁ s breaking ortho args) :
    e.formula breaking ortho = .conj args :=
  eq_conj_of_andArgs? h.cast

theorem Returned.args_proper (hn : 0 < e.n) (h : e.Returned f s₁ s breaking ortho args) :
    args ≠ [] ∧ ∀ cj ∈ args, cj.clause.Proper s.varCounter := by
  have hproper := h.proper hn
  rwa [h.formula_eq] at hproper

theorem Returned.clauses_proper (hn : 0 < e.n) (h : e.Returned f s₁ s breaking ortho args) :
    ∀ cj ∈ f.clauses, cj.clause.Proper s.varCounter := by
  intro cj hcj
  rw [h.result] at hcj
  exact (h.args_proper hn).2 cj (mem_of_mem_distinct hcj)

theorem Returned.metaVariables (h : e.Returned f s₁ s breaking ortho args) :
    f.metaVariables = e.metaVars e.tables := by
  rw [h.result]
  rfl

/-- Every cell with variables has a value to choose. -/
theorem Returned.exists_choice (h : e.Returned f s₁ s breaking ortho args) :
    ∃ choice, IsChoice f.metaVariables choice := by
  have hvalues : ∀ it ∈ f.metaVariables, it.values ≠ [] := by
    rw [h.metaVariables]
    exact fun it hit => (mem_metaVars.mp hit).2
  refine ⟨f.metaVariables.map fun it => it.values.headD default, ?_⟩
  rw [IsChoice, List.forall₂_map_right_iff, List.forall₂_same]
  intro it hit
  cases hlist : it.values with
  | nil => exact absurd hlist (hvalues it hit)
  | cons entry rest => exact List.mem_cons_self

/-- Where the nodes hold as well, every ignored clause holds. -/
theorem Returned.ignored_hold (hn : 3 ≤ e.n) (h : e.Returned f s₁ s breaking ortho args)
    (hF : e.Describes α F) (hnodes : ∀ node ∈ f.net, node.Holds α) :
    ∀ cj ∈ f.clauses, cj.isImportant = false → cj.clause.eval α = true := by
  have hignored : (e.formula breaking ortho).IgnoredHold α := by
    obtain ⟨nodes, hemitted, -, -, hsteps⟩ := h.builds.emitted
    have hholds : ∀ node ∈ nodes, node.Holds α := by
      intro node hnode
      apply hnodes
      rw [h.net, hemitted]
      exact List.mem_append_right _ hnode
    have hsteps := hsteps α hholds
    apply Expression.ignoredHold_and_pair
    · apply Expression.ignoredHold_and_pair
      · refine Expression.ignoredHold_and fun line hline => ?_
        obtain ⟨M, hM, rfl⟩ := List.mem_map.mp hline
        obtain ⟨t, ht, rfl⟩ := List.mem_map.mp hM
        exact latin_ignoredHold hF ⟨t, List.mem_range.mp ht⟩
      · exact hsteps breaking List.mem_cons_self
    · exact Expression.ignoredHold_and fun r hr => hsteps r (List.mem_append_right _ hr)
  have hargs := h.args_proper (by omega)
  rw [h.formula_eq] at hignored
  intro cj hcj himportant
  rw [h.result] at hcj
  apply hignored cj _ himportant
  rw [Expression.conjuncts, Expression.andArgs_of_proper hargs.1 hargs.2]
  exact mem_of_mem_distinct hcj

end Returned

end LatinSquareEncoder

end LatinSquares.Generator
