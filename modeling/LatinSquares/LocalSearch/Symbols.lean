/-
# The symbols in `metaValues`

For the meta variables of `LatinSquareEncoder` the second copy of the assignment holds, for
every cell, the symbol whose literals are true. The cells without a meta variable are the
constants of the reduced form.
-/

import LatinSquares.Generator.NetReads
import LatinSquares.LocalSearch.Accepted
import LatinSquares.LocalSearch.Ignored
import LatinSquares.LocalSearch.Shape

namespace LatinSquares.LocalSearch

open LatinSquares.Math
open LatinSquares.Generator (LatinSquareEncoder layoutEntry_of_some layoutEntry_of_none)

section Entries

variable {n t i j k t' i' j' k' v : Nat} {ls : List Generator.Literal}
variable {entry : Nat × List Generator.Literal} {e : LatinSquareEncoder}

/-- The literals a cell needs for a symbol. -/
def literalsFor (ls : List Generator.Literal) (symbol : Nat) : List Generator.Literal :=
  ls.mapIdx fun i l => if i + 1 = symbol then l else l.not

/-- What a conjunction of literals prints. -/
theorem filterMap_readLiteral_conjuncts (literals : List Generator.Literal) :
    ((((literals.map Generator.Expression.literal).flatMap Generator.Expression.conjuncts).flatMap
      fun c => c.clause.args).filter fun l => l ≠ .constTrue ∧ l ≠ .constFalse).filterMap
        readLiteral = literals.filterMap readLiteral := by
  induction literals with
  | nil => rfl
  | cons l literals ih =>
      rw [List.map_cons, List.flatMap_cons, List.flatMap_append, List.filter_append,
        List.filterMap_append, ih]
      cases l with
      | constFalse => rfl
      | constTrue => rfl
      | var name => rfl
      | notVar name => rfl

/-- A listed value has the literals of its symbol, and none of them is false. -/
theorem literals_of_mem_metaValues (hentry : entry ∈ LatinSquareEncoder.metaValues n ls) :
    entry.2.filterMap readLiteral = (literalsFor ls entry.1).filterMap readLiteral ∧
      Generator.Literal.constFalse ∉ literalsFor ls entry.1 := by
  obtain ⟨-, hliterals, hne⟩ := Generator.mem_metaValues.mp hentry
  have hequal : Generator.equal ls entry.1 =
      Generator.Expression.and ((literalsFor ls entry.1).map Generator.Expression.literal) := by
    rw [Generator.equal]
    congr 1
    apply List.ext_getElem?
    intro i
    rw [List.getElem?_mapIdx, List.getElem?_map, literalsFor, List.getElem?_mapIdx, Option.map_map]
    rfl
  rcases Generator.Expression.and_cases ((literalsFor ls entry.1).map Generator.Expression.literal)
    with heq | heq | ⟨hfalse, -, heq⟩
  · rw [hequal, heq] at hliterals
    exact absurd hliterals hne
  · rw [hequal, heq] at hliterals
    exact absurd hliterals hne
  · constructor
    · rw [hliterals, hequal, heq]
      exact filterMap_readLiteral_conjuncts _
    · intro hmem
      have hnot := hfalse _ (List.mem_map_of_mem hmem)
      rw [Generator.Expression.isFalse_literal] at hnot
      simp at hnot

/-- The variable of a literal, as it is read. -/
def numberOf (l : Generator.Literal) : Option Nat := (readLiteral l).map Literal.number

theorem numberOf_not (l : Generator.Literal) : numberOf l.not = numberOf l := by
  cases l <;> rfl

/-- Every value of a cell decides the same variables in the same order. -/
theorem numbers_of_mem_metaValues (hentry : entry ∈ LatinSquareEncoder.metaValues n ls) :
    (entry.2.filterMap readLiteral).map Literal.number = ls.filterMap numberOf := by
  rw [(literals_of_mem_metaValues hentry).1, List.map_filterMap]
  show (literalsFor ls entry.1).filterMap numberOf = _
  rw [literalsFor, List.mapIdx_eq_zipIdx_map, List.filterMap_map]
  have hdrop : ls.filterMap numberOf = ls.zipIdx.filterMap fun p => numberOf p.1 := by
    conv_lhs => rw [← List.zipIdx_map_fst 0 ls, List.filterMap_map]
    rfl
  rw [hdrop]
  apply List.filterMap_congr
  intro p _
  dsimp only [Function.comp_apply]
  split
  · rfl
  · exact numberOf_not p.1

/-- Different entries have different variables. -/
theorem entry_inj (ht : t < e.k) (hi : i < e.n) (hj : j < e.n) (hk : k < e.n) (ht' : t' < e.k)
    (hi' : i' < e.n) (hj' : j' < e.n) (hk' : k' < e.n) (h : e.entry t i j k = .var v)
    (h' : e.entry t' i' j' k' = .var v) : (t, i, j, k) = (t', i', j', k') := by
  have hnone : ∀ {t i j k}, i < e.n → j < e.n → k < e.n → e.entry t i j k = .var v →
      Generator.oneHotKind e.reduced t i j k = none := by
    intro t i j k hi hj hk hvar
    cases hkind : Generator.oneHotKind e.reduced t i j k with
    | none => rfl
    | some b =>
        rw [LatinSquareEncoder.entry, layoutEntry_of_some hi hj hk hkind] at hvar
        cases b <;> cases hvar
  obtain ⟨α, hα⟩ := Generator.exists_layout_eval (Generator.oneHotKind e.reduced) e.k e.n e.n e.n
    (fun t' i' j' k' => (Generator.oneHotKind e.reduced t' i' j' k').getD
      (decide ((t, i, j, k) = (t', i', j', k'))))
    (fun t _ i _ j _ k _ b hb => by rw [hb, Option.getD_some])
  have hfirst := hα t ht i hi j hj k hk
  have hsecond := hα t' ht' i' hi' j' hj' k' hk'
  rw [LatinSquareEncoder.entry] at h h'
  rw [h, hnone hi hj hk h, Option.getD_none, decide_eq_true rfl] at hfirst
  rw [h', hnone hi' hj' hk' h', Option.getD_none, hfirst] at hsecond
  exact of_decide_eq_true hsecond.symm

end Entries

/-- A meta variable of the solver has the indices, values and literals of one that
`LatinSquareEncoder` creates. Indices and values have 8 bits. -/
structure MetaVariable.ReadFrom (m : MetaVariable) (it : Generator.MetaVariable) : Prop where
  place : m.place = it.place
  variables_ : m.variables_ = it.values.map fun entry => entry.2.filterMap readLiteral
  values : m.values.map UInt8.toNat = it.values.map Prod.fst

section Cells

variable {e : LatinSquareEncoder} {metaVariables : List MetaVariable} {m : MetaVariable}
variable {it : Generator.MetaVariable} {t i j v : Nat}

/-- The variables of a cell, in the order of its entries. -/
def cellNumbers (e : LatinSquareEncoder) (place : Nat × Nat × Nat) : List Nat :=
  (e.cellOf place.1 place.2.1 place.2.2).filterMap numberOf

theorem numbers_of_readFrom (hit : it ∈ e.metaVars e.tables) (h : m.ReadFrom it) :
    ∀ literals ∈ m.variables_, literals.map Literal.number = cellNumbers e m.place := by
  obtain ⟨⟨t, ht, i, hi, j, hj, rfl⟩, -⟩ := LatinSquareEncoder.mem_metaVars.mp hit
  intro literals hliterals
  rw [h.variables_] at hliterals
  obtain ⟨entry, hentry, rfl⟩ := List.mem_map.mp hliterals
  rw [numbers_of_mem_metaValues hentry, h.place]
  rfl

theorem numberOf_eq_some {l : Generator.Literal} (h : numberOf l = some v) :
    l = .var v ∨ l = .notVar v := by
  cases l <;> cases h
  · exact Or.inl rfl
  · exact Or.inr rfl

/-- An entry with a variable is that variable. -/
theorem entry_of_numberOf (hi : i < e.n) (hj : j < e.n) {k : Nat} (hk : k < e.n)
    (h : numberOf (e.entry t i j k) = some v) : e.entry t i j k = .var v := by
  rcases numberOf_eq_some h with hvar | hnot
  · exact hvar
  · exfalso
    cases hkind : Generator.oneHotKind e.reduced t i j k with
    | none =>
        obtain ⟨name, hname⟩ := layoutEntry_of_none hi hj hk hkind
        rw [LatinSquareEncoder.entry, hname] at hnot
        cases hnot
    | some b =>
        rw [LatinSquareEncoder.entry, layoutEntry_of_some hi hj hk hkind] at hnot
        cases b <;> cases hnot

theorem mem_cellNumbers (hi : i < e.n) (hj : j < e.n) :
    v ∈ cellNumbers e (t, i, j) ↔ ∃ k < e.n, e.entry t i j k = .var v := by
  unfold cellNumbers LatinSquareEncoder.cellOf
  rw [List.mem_filterMap]
  constructor
  · intro h
    obtain ⟨l, hl, hnumber⟩ := h
    obtain ⟨k, hk, rfl⟩ := List.mem_map.mp hl
    rw [List.mem_range] at hk
    exact ⟨k, hk, entry_of_numberOf hi hj hk hnumber⟩
  · intro h
    obtain ⟨k, hk, hvar⟩ := h
    refine ⟨e.entry t i j k, List.mem_map_of_mem (List.mem_range.mpr hk), ?_⟩
    rw [hvar]
    rfl

theorem cellNumbers_nodup (ht : t < e.k) (hi : i < e.n) (hj : j < e.n) :
    (cellNumbers e (t, i, j)).Nodup := by
  unfold cellNumbers LatinSquareEncoder.cellOf
  rw [List.filterMap_map]
  apply List.pairwise_filterMap.mpr
  apply (List.nodup_range (n := e.n)).imp_of_mem
  intro k k' hk hk' hne v hv v' hv' heq
  rw [List.mem_range] at hk hk'
  have hvar := entry_of_numberOf hi hj hk hv
  have hvar' := entry_of_numberOf hi hj hk' hv'
  rw [← heq] at hvar'
  have hinj := entry_inj ht hi hj hk ht hi hj hk' hvar hvar'
  exact hne (congrArg (fun p => p.2.2.2) hinj)

/-- The meta variables of the encoder stand for different cells over different variables. -/
theorem grid_of_readFrom
    (h : List.Forall₂ MetaVariable.ReadFrom metaVariables (e.metaVars e.tables)) :
    Grid metaVariables := by
  have hplaces : (metaVariables.map MetaVariable.place).Nodup := by
    rw [map_eq_of_forall₂ h fun _ _ hm => hm.place]
    exact LatinSquareEncoder.places_nodup
  have hnumbers : ∀ m ∈ metaVariables,
      (∃ t < e.k, ∃ i < e.n, ∃ j < e.n, m.place = (t, i, j)) ∧
        ∀ literals ∈ m.variables_, literals.map Literal.number = cellNumbers e m.place := by
    intro m hm
    obtain ⟨it, hit, hread⟩ := exists_of_forall₂ h.flip hm
    have hread : m.ReadFrom it := hread
    refine ⟨?_, numbers_of_readFrom hit hread⟩
    obtain ⟨⟨t, ht, i, hi, j, hj, rfl⟩, -⟩ := LatinSquareEncoder.mem_metaVars.mp hit
    exact ⟨t, ht, i, hi, j, hj, hread.place⟩
  constructor
  · exact hplaces
  · intro m hm literals hliterals
    obtain ⟨⟨t, ht, i, hi, j, hj, hplace⟩, heq⟩ := hnumbers m hm
    rw [heq literals hliterals, hplace]
    exact cellNumbers_nodup ht hi hj
  · intro m hm literals hliterals literals' hliterals' v hv
    rw [(hnumbers m hm).2 literals hliterals] at hv
    rwa [(hnumbers m hm).2 literals' hliterals']
  · apply (List.pairwise_map.mp hplaces).imp_of_mem
    intro m m' hm hm' hne literals hliterals literals' hliterals' v hv hv'
    obtain ⟨⟨t, ht, i, hi, j, hj, hplace⟩, heq⟩ := hnumbers m hm
    obtain ⟨⟨t', ht', i', hi', j', hj', hplace'⟩, heq'⟩ := hnumbers m' hm'
    rw [heq literals hliterals, hplace] at hv
    rw [heq' literals' hliterals', hplace'] at hv'
    obtain ⟨k, hk, hvar⟩ := (mem_cellNumbers hi hj).mp hv
    obtain ⟨k', hk', hvar'⟩ := (mem_cellNumbers hi' hj').mp hv'
    have hinj := entry_inj ht hi hj hk ht' hi' hj' hk' hvar hvar'
    apply hne
    rw [hplace, hplace']
    simp only [Prod.mk.injEq] at hinj ⊢
    exact ⟨hinj.1, hinj.2.1, hinj.2.2.1⟩

/-- A cell of the reduced form has a constant, and every other cell has a meta variable. -/
theorem constant_or_free (hn : 2 ≤ e.n ∨ e.reduced = false) (ht : t < e.k) (hi : i < e.n)
    (hj : j < e.n) :
    (e.reduced = true ∧ ((t = 0 ∧ i = 0 ∧ ∀ v < e.n, Generator.oneHotKind e.reduced t i j v =
        some (decide (j = v))) ∨
      (j = 0 ∧ ∀ v < e.n, Generator.oneHotKind e.reduced t i j v = some (decide (i = v))))) ∨
      ⟨t, i, j, LatinSquareEncoder.metaValues e.n (e.cellOf t i j)⟩ ∈ e.metaVars e.tables := by
  cases hreduced : e.reduced with
  | false =>
      apply Or.inr
      apply LatinSquareEncoder.mem_metaVars_of_free ht hi hj
      simp only [Generator.oneHotKind, hreduced]
      exact ⟨⟨i, hi, rfl⟩, fun _ _ => by simp⟩
  | true =>
      have hn : 2 ≤ e.n := hn.resolve_right (by simp [hreduced])
      by_cases hconstant : (t = 0 ∧ i = 0) ∨ j = 0
      · apply Or.inl
        apply And.intro rfl
        by_cases hfirst : t = 0 ∧ i = 0
        · exact Or.inl ⟨hfirst.1, hfirst.2, fun v _ => by
            simp [Generator.oneHotKind, hfirst.1, hfirst.2]⟩
        · have hzero := hconstant.resolve_left hfirst
          refine Or.inr ⟨hzero, fun v _ => ?_⟩
          by_cases ht0 : t = 0
          · have hi0 : i ≠ 0 := fun h => hfirst ⟨ht0, h⟩
            simp [Generator.oneHotKind, ht0, hi0, hzero]
          · simp [Generator.oneHotKind, ht0, hzero]
      · apply Or.inr
        apply LatinSquareEncoder.mem_metaVars_of_free ht hi hj
        obtain ⟨hcell, hj0⟩ := not_or.mp hconstant
        rw [hreduced]
        constructor
        · -- the first symbol is the one of the first row and column
          refine ⟨0, by omega, ?_⟩
          unfold Generator.oneHotKind
          split_ifs <;> simp_all
        · intro v _
          unfold Generator.oneHotKind
          split_ifs <;> simp_all

/-- The literal is true in `propagated`. -/
def TrueIn (units : Units) : Generator.Literal → Prop
  | .constTrue => True
  | .constFalse => False
  | .var v => units v = 1
  | .notVar v => units v = 0

/-- The literals of a cell for a symbol are true. -/
def SymbolTrue (e : LatinSquareEncoder) (units : Units) (t i j symbol : Nat) : Prop :=
  ∀ l ∈ literalsFor (e.cellOf t i j) symbol, TrueIn units l

theorem mem_literalsFor {l : Generator.Literal} {symbol : Nat} :
    l ∈ literalsFor (e.cellOf t i j) symbol ↔
      ∃ v < e.n, l = if v + 1 = symbol then e.entry t i j v else (e.entry t i j v).not := by
  unfold literalsFor LatinSquareEncoder.cellOf
  rw [Generator.mapIdx_map_range, List.mem_map]
  constructor
  · rintro ⟨v, hv, rfl⟩
    exact ⟨v, List.mem_range.mp hv, rfl⟩
  · rintro ⟨v, hv, rfl⟩
    exact ⟨v, List.mem_range.mpr hv, rfl⟩

/-- At most one symbol has true literals. -/
theorem symbolTrue_unique {units : Units} {c c' : Nat} (hc : 1 ≤ c) (hn : c ≤ e.n)
    (h : SymbolTrue e units t i j c) (h' : SymbolTrue e units t i j c') : c = c' := by
  by_contra hne
  have hpositive := h _ (mem_literalsFor.mpr ⟨c - 1, by omega, rfl⟩)
  have hnegative := h' _ (mem_literalsFor.mpr ⟨c - 1, by omega, rfl⟩)
  rw [if_pos (by omega)] at hpositive
  rw [if_neg (by omega)] at hnegative
  cases hentry : e.entry t i j (c - 1) with
  | constFalse => rw [hentry] at hpositive; exact hpositive
  | constTrue => rw [hentry] at hnegative; exact hnegative
  | var name =>
      rw [hentry] at hpositive hnegative
      have htrue : units name = 1 := hpositive
      rw [Generator.Literal.not, TrueIn, htrue] at hnegative
      cases hnegative
  | notVar name =>
      rw [hentry] at hpositive hnegative
      have htrue : units name = 0 := hpositive
      rw [Generator.Literal.not, TrueIn, htrue] at hnegative
      cases hnegative

/-- The literals of a value that is true as it is read are true. -/
theorem symbolTrue_of_read {units : Units} {entry : Nat × List Generator.Literal}
    (hentry : entry ∈ LatinSquareEncoder.metaValues e.n (e.cellOf t i j))
    (h : ∀ l ∈ entry.2.filterMap readLiteral, units l.number = l.value.toUInt8) :
    SymbolTrue e units t i j entry.1 := by
  obtain ⟨hread, hfalse⟩ := literals_of_mem_metaValues hentry
  rw [hread] at h
  intro l hl
  cases l with
  | constFalse => exact hfalse hl
  | constTrue => trivial
  | var name => exact h ⟨name, true⟩ (List.mem_filterMap.mpr ⟨_, hl, rfl⟩)
  | notVar name => exact h ⟨name, false⟩ (List.mem_filterMap.mpr ⟨_, hl, rfl⟩)

/-- A value in the domain of a meta variable is one of the values it was read from. -/
theorem exists_entry (h : m.ReadFrom it) {p : List Literal × UInt8} (hp : p ∈ m.domain) :
    ∃ entry ∈ it.values, p.1 = entry.2.filterMap readLiteral ∧ p.2.toNat = entry.1 := by
  obtain ⟨k, hk⟩ := List.mem_iff_getElem?.mp hp
  obtain ⟨hliterals, hvalue⟩ := List.getElem?_zip_eq_some.mp hk
  rw [h.variables_, List.getElem?_map, Option.map_eq_some_iff] at hliterals
  obtain ⟨entry, hentry, hread⟩ := hliterals
  refine ⟨entry, List.mem_of_getElem? hentry, hread.symm, ?_⟩
  have hvalues := congrArg (fun l => l[k]?) h.values
  simp only [List.getElem?_map, hvalue, hentry, Option.map_some] at hvalues
  exact Option.some.inj hvalues

/-- Every cell holds the symbol whose literals are true, and every cell is there as soon as
one of them has a meta variable. -/
structure HoldsSymbols (e : LatinSquareEncoder) (s : HillClimbingSolver) : Prop where
  present : e.metaVars e.tables ≠ [] → ∀ t < e.k, ∀ i < e.n, ∀ j < e.n,
    ∃ symbol, metaValueAt s.metaValues (t, i, j) = some symbol
  exact : ∀ t < e.k, ∀ i < e.n, ∀ j < e.n, ∀ symbol,
    metaValueAt s.metaValues (t, i, j) = some symbol → 1 ≤ symbol.toNat ∧ symbol.toNat ≤ e.n ∧
      ∀ c, 1 ≤ c → c ≤ e.n → (SymbolTrue e s.propagated t i j c ↔ c = symbol.toNat)

/-- A cell with a meta variable. -/
theorem exists_symbol_of_mirrored {metaValues : List (List (List UInt32))} {units : Units}
    {m' : MetaVariable} (hit : it ∈ e.metaVars e.tables) (h : m.ReadFrom it) (hthins : m.Thins m')
    (hmirrored : Mirrored metaValues units m') (hplace : m.place = (t, i, j)) :
    ∃ symbol, metaValueAt metaValues (t, i, j) = some symbol ∧ 1 ≤ symbol.toNat ∧
      symbol.toNat ≤ e.n ∧ SymbolTrue e units t i j symbol.toNat := by
  obtain ⟨p, hp, hat, htrue⟩ := hmirrored
  obtain ⟨entry, hentry, hread, hvalue⟩ := exists_entry h (hthins.domain hp)
  rw [hthins.place, hplace] at hat
  have htoNat : p.2.toUInt32.toNat = entry.1 := by rw [UInt8.toNat_toUInt32, hvalue]
  rw [h.place] at hplace
  obtain ⟨⟨t', -, i', -, j', -, rfl⟩, -⟩ := LatinSquareEncoder.mem_metaVars.mp hit
  cases hplace
  obtain ⟨⟨hpos, hle⟩, -⟩ := Generator.mem_metaValues.mp hentry
  refine ⟨_, hat, ?_⟩
  rw [htoNat]
  exact ⟨hpos, hle, symbolTrue_of_read hentry (hread ▸ htrue)⟩

/-- The symbol of a constant cell. -/
theorem symbolTrue_of_constant {units : Units} {c : Nat} (hi : i < e.n) (hj : j < e.n)
    (h : ∀ v < e.n, Generator.oneHotKind e.reduced t i j v = some (decide (c = v))) :
    SymbolTrue e units t i j (c + 1) := by
  intro l hl
  obtain ⟨v, hv, rfl⟩ := mem_literalsFor.mp hl
  rw [LatinSquareEncoder.entry, layoutEntry_of_some hi hj hv (h v hv)]
  by_cases hc : c = v
  · simp [hc, TrueIn]
  · simp [hc, Ne.symm hc, TrueIn, Generator.Literal.not]

/-- The reduced form of order 1 has no meta variables. -/
theorem metaVars_eq_nil (hreduced : e.reduced = true) (hn : e.n ≤ 1) :
    e.metaVars e.tables = [] := by
  apply List.eq_nil_iff_forall_not_mem.mpr
  intro it hit
  obtain ⟨⟨t, ht, i, hi, j, hj, rfl⟩, hne⟩ := LatinSquareEncoder.mem_metaVars.mp hit
  obtain ⟨entry, hentry⟩ := List.exists_mem_of_ne_nil _ hne
  obtain ⟨-, hliterals, hnonempty⟩ := Generator.mem_metaValues.mp hentry
  obtain ⟨l, hl⟩ := List.exists_mem_of_ne_nil _ hnonempty
  have hnumbers : ∃ v, v ∈ cellNumbers e (t, i, j) := by
    have hmem := hl
    rw [hliterals, List.mem_filter, decide_eq_true_eq] at hmem
    have hread : ∃ l', readLiteral l = some l' := by
      cases l with
      | constFalse => exact absurd rfl hmem.2.2
      | constTrue => exact absurd rfl hmem.2.1
      | var name => exact ⟨_, rfl⟩
      | notVar name => exact ⟨_, rfl⟩
    obtain ⟨l', hread⟩ := hread
    refine ⟨l'.number, ?_⟩
    have hmem' := List.mem_map_of_mem (f := Literal.number) (List.mem_filterMap.mpr ⟨l, hl, hread⟩)
    rwa [numbers_of_mem_metaValues hentry] at hmem'
  obtain ⟨v, hv⟩ := hnumbers
  obtain ⟨k, hk, hvar⟩ := (mem_cellNumbers hi hj).mp hv
  have hzero : Generator.oneHotKind e.reduced t i j k = some true := by
    have hi0 : i = 0 := by omega
    have hj0 : j = 0 := by omega
    have hk0 : k = 0 := by omega
    simp [Generator.oneHotKind, hreduced, hi0, hj0, hk0]
  rw [LatinSquareEncoder.entry, layoutEntry_of_some hi hj hk hzero] at hvar
  cases hvar

/-- Where some cell has a meta variable, the constants are the symbols of the other cells. -/
theorem exists_symbol_of_constant {metaValues : List (List (List UInt32))} {units : Units}
    (h : List.Forall₂ MetaVariable.ReadFrom metaVariables (e.metaVars e.tables))
    (hfix : fixConstants (metaVariables.foldl reserve []) = some metaValues)
    (hmeta : e.metaVars e.tables ≠ []) (ht : t < e.k) (hi : i < e.n) (hj : j < e.n)
    (hplace : (t, i, j) ∉ metaVariables.map MetaVariable.place) :
    ∃ symbol, metaValueAt metaValues (t, i, j) = some symbol ∧ 1 ≤ symbol.toNat ∧
      symbol.toNat ≤ e.n ∧ SymbolTrue e units t i j symbol.toNat := by
  have hplaces : metaVariables.map MetaVariable.place =
      (e.metaVars e.tables).map Generator.MetaVariable.place :=
    map_eq_of_forall₂ h fun _ _ hm => hm.place
  have hfree (t i j : Nat) (ht : t < e.k) (hi : i < e.n) (hj : j < e.n)
      (hit : ⟨t, i, j, LatinSquareEncoder.metaValues e.n (e.cellOf t i j)⟩ ∈ e.metaVars e.tables) :
      ∃ m ∈ metaVariables, m.place = (t, i, j) := by
    have hmem : (t, i, j) ∈ metaVariables.map MetaVariable.place := by
      rw [hplaces]
      exact List.mem_map.mpr ⟨_, hit, rfl⟩
    exact List.mem_map.mp hmem
  have hreduced : 2 ≤ e.n ∨ e.reduced = false := by
    by_contra hsmall
    obtain ⟨hn, hreduced⟩ := not_or.mp hsmall
    exact hmeta (metaVars_eq_nil (by simpa using hreduced) (by omega))
  have hconstant := (constant_or_free hreduced ht hi hj).resolve_right fun hit =>
    hplace (List.mem_map.mpr (hfree t i j ht hi hj hit))
  have hn : 2 ≤ e.n := hreduced.resolve_right (by simp [hconstant.1])
  -- the cells in the last column of the second and the last row have meta variables
  have hroom (i : Nat) (hi : i < e.n) (hpos : i ≠ 0) :
      ∃ m ∈ metaVariables, m.place = (t, i, e.n - 1) := by
    apply hfree t i (e.n - 1) ht hi (by omega)
    apply (constant_or_free hreduced ht hi (by omega)).resolve_left
    rintro ⟨-, ⟨-, hzero, -⟩ | ⟨hzero, -⟩⟩
    · exact hpos hzero
    · omega
  obtain ⟨second, hsecond, hsecondPlace⟩ := hroom 1 (by omega) (by omega)
  obtain ⟨last, hlast, hlastPlace⟩ := hroom (e.n - 1) (by omega) (by omega)
  have hroomSecond : HasPlace (metaVariables.foldl reserve []) second.place :=
    hasPlace_foldl_reserve hsecond
  have hroomLast : HasPlace (metaVariables.foldl reserve []) last.place :=
    hasPlace_foldl_reserve hlast
  rw [hsecondPlace] at hroomSecond
  rw [hlastPlace] at hroomLast
  have hsmall : e.n - 1 < 256 := by
    have hrow := congrArg (fun place => place.2.1) hlastPlace
    have hbyte := last.rowIndex.toNat_lt
    simp only [MetaVariable.place] at hrow
    omega
  have hsymbol {c : Nat} (hc : c < e.n) : (UInt32.ofNat (c + 1)).toNat = c + 1 := by
    rw [UInt32.toNat_ofNat']
    omega
  have hsquare : t < (metaVariables.foldl reserve []).length := hroomLast.square
  have hconstants := constants_of_fixConstants hfix hsquare
  rcases hconstant.2 with ⟨rfl, rfl, hkind⟩ | ⟨rfl, hkind⟩
  · refine ⟨UInt32.ofNat (j + 1), ?_, ?_⟩
    · rw [metaValueAt_eq]
      apply hconstants.row rfl
      have hcell := hroomSecond.cell
      simp only [rowAt] at hcell
      omega
    · rw [hsymbol hj]
      exact ⟨Nat.succ_pos j, hj, symbolTrue_of_constant hi hj hkind⟩
  · refine ⟨UInt32.ofNat (i + 1), ?_, ?_⟩
    · rw [metaValueAt_eq]
      apply hconstants.column
      have hrow := hroomLast.row
      simp only at hrow
      omega
    · rw [hsymbol hi]
      exact ⟨Nat.succ_pos i, hi, symbolTrue_of_constant hi hj hkind⟩

open HillClimbingSolver (construct Accepts)

variable {fuel : Nat} {clauses : List Clause} {toCompute : List Nat} {weights : Nat → UInt32}
variable {order : SwapOrder} {net : Net} {coreSize : Nat} {rand : Nat → Nat}
variable {s₀ s : HillClimbingSolver}

theorem auxiliary_thins {metaVariables' : List MetaVariable} (h : Auxiliary net metaVariables)
    (hthins : List.Forall₂ MetaVariable.Thins metaVariables metaVariables') :
    Auxiliary net metaVariables' := by
  intro node hnode m' hm' literals hliterals
  obtain ⟨m, hm, hthin⟩ := exists_of_forall₂ hthins hm'
  exact h node hnode m hm literals (hthin.variables_ hliterals)

theorem KeepsCells.thins {metaVariables' : List MetaVariable}
    (h : KeepsCells order net metaVariables)
    (hthins : List.Forall₂ MetaVariable.Thins metaVariables metaVariables') :
    KeepsCells order net metaVariables' :=
  h.imp_left fun hauxiliary => auxiliary_thins hauxiliary hthins

/-- The net of a file computes the variables past those of the cells. -/
theorem auxiliary_of_returned {f : Generator.CNF} {g₁ g : Generator.GenState}
    {breaking : Generator.Expression} {ortho : List Generator.VariabledExpression}
    {args : List Generator.Conjunct} (h : e.Returned f g₁ g breaking ortho args)
    (hread : List.Forall₂ MetaVariable.ReadFrom metaVariables (e.metaVars e.tables))
    (hnet : Net.Finalizes (f.net.map readNode) net) : Auxiliary net metaVariables := by
  intro node hnode m hm literals hliterals hmem
  obtain ⟨it, hit, hreadFrom⟩ := exists_of_forall₂ hread.flip hm
  have hreadFrom : m.ReadFrom it := hreadFrom
  rw [numbers_of_readFrom hit hreadFrom literals hliterals, hreadFrom.place] at hmem
  obtain ⟨⟨t, ht, i, hi, j, hj, rfl⟩, -⟩ := LatinSquareEncoder.mem_metaVars.mp hit
  obtain ⟨k, hk, hvar⟩ := (mem_cellNumbers hi hj).mp hmem
  have hwithin := LatinSquareEncoder.entry_within ht hi hj hk
  rw [hvar, Generator.Literal.within_var] at hwithin
  have hlater := (mem_vars_iff h).mp
    (List.mem_map_of_mem (f := Node.var) (hnet.perm.mem_iff.mp hnode))
  omega

/-- Both copies agree after any number of accepted moves. -/
theorem moved_of_run (hmirrors : Mirrors s₀) (hgrid : Grid s₀.metaVariables)
    (hnet : KeepsCells order s₀.net s₀.metaVariables)
    (hrun : Relation.ReflTransGen (Accepts order) s₀ s) : Moved s₀ s := by
  induction hrun with
  | refl => exact ⟨rfl, rfl, hmirrors, fun _ _ => rfl⟩
  | tail _ hstep ih =>
      obtain ⟨bag, hbag, haccept⟩ := hstep
      rw [← ih.metaVariables] at hgrid
      rw [← ih.net, ← ih.metaVariables] at hnet
      have hmoved := ih.mirrors.accept hgrid hnet hbag haccept
      refine ⟨hmoved.metaVariables.trans ih.metaVariables, hmoved.net.trans ih.net,
        hmoved.mirrors, fun place hplace => ?_⟩
      rw [hmoved.metaValues place (by rwa [ih.metaVariables]), ih.metaValues place hplace]

/-- The copies that agree at the start and in the end hold the symbols. -/
theorem holdsSymbols_of_moved {metaVariables' : List MetaVariable}
    {metaValues : List (List (List UInt32))}
    (h : List.Forall₂ MetaVariable.ReadFrom metaVariables (e.metaVars e.tables))
    (hthins : List.Forall₂ MetaVariable.Thins metaVariables metaVariables')
    (hfix : fixConstants (metaVariables.foldl reserve []) = some metaValues)
    (hmirrors : ∀ m ∈ metaVariables', Mirrored s.metaValues s.propagated m)
    (hother : ∀ place ∉ metaVariables.map MetaVariable.place,
      metaValueAt s.metaValues place = metaValueAt metaValues place) : HoldsSymbols e s := by
  have hsymbol (hmeta : e.metaVars e.tables ≠ []) (t : Nat) (ht : t < e.k) (i : Nat)
      (hi : i < e.n) (j : Nat) (hj : j < e.n) :
      ∃ symbol, metaValueAt s.metaValues (t, i, j) = some symbol ∧ 1 ≤ symbol.toNat ∧
        symbol.toNat ≤ e.n ∧ SymbolTrue e s.propagated t i j symbol.toNat := by
    by_cases hplace : (t, i, j) ∈ metaVariables.map MetaVariable.place
    · obtain ⟨m, hm, hmplace⟩ := List.mem_map.mp hplace
      obtain ⟨it, hit, hread⟩ := exists_of_forall₂ h.flip hm
      obtain ⟨m', hm', hthin⟩ := exists_of_forall₂ hthins.flip hm
      exact exists_symbol_of_mirrored hit hread hthin (hmirrors m' hm') hmplace
    · rw [hother _ hplace]
      exact exists_symbol_of_constant h hfix hmeta ht hi hj hplace
  constructor
  · intro hmeta t ht i hi j hj
    obtain ⟨symbol, hat, -⟩ := hsymbol hmeta t ht i hi j hj
    exact ⟨symbol, hat⟩
  · intro t ht i hi j hj symbol hat
    have hmeta : e.metaVars e.tables ≠ [] := by
      intro hempty
      rw [hempty] at h
      cases h
      cases hfix
      rw [hother (t, i, j) List.not_mem_nil] at hat
      cases hat
    obtain ⟨symbol', hat', hpos, hle, htrue⟩ := hsymbol hmeta t ht i hi j hj
    cases hat.symm.trans hat'
    refine ⟨hpos, hle, fun c hc hcn => ⟨fun hc' => symbolTrue_unique hc hcn hc' htrue, ?_⟩⟩
    rintro rfl
    exact htrue

/-- After construction and after every accepted move `metaValues` holds the symbols whose
literals are true in `propagated`. -/
theorem holdsSymbols_of_run
    (h : List.Forall₂ MetaVariable.ReadFrom metaVariables (e.metaVars e.tables))
    (hnet : KeepsCells order net metaVariables)
    (hconstruct : construct fuel clauses toCompute weights net metaVariables coreSize [] rand =
      some s₀)
    (hrun : Relation.ReflTransGen (Accepts order) s₀ s) : HoldsSymbols e s := by
  have hgrid := grid_of_readFrom h
  obtain ⟨hmirrors, hthins, hsame, metaValues, hfix, hkept⟩ := mirrors_construct hgrid hconstruct
  have hmoved := moved_of_run hmirrors (hgrid.thins hthins)
    (hsame.symm ▸ hnet.thins hthins) hrun
  refine holdsSymbols_of_moved h hthins hfix (fun m hm => hmoved.mirrors m ?_)
    fun place hplace => ?_
  · rwa [hmoved.metaVariables]
  · rw [hmoved.metaValues place (by rwa [places_thins hthins]), hkept place hplace]

end Cells

/-- Up to order 255 the meta variables are read as they are. -/
theorem readFrom_readMetaVariable {e : LatinSquareEncoder} (hn : e.n < 256) (hk : e.k ≤ 256) :
    List.Forall₂ MetaVariable.ReadFrom ((e.metaVars e.tables).map readMetaVariable)
      (e.metaVars e.tables) := by
  rw [List.forall₂_map_left_iff, List.forall₂_same]
  intro it hit
  obtain ⟨⟨t, ht, i, hi, j, hj, rfl⟩, -⟩ := LatinSquareEncoder.mem_metaVars.mp hit
  have hbyte {x : Nat} (hx : x < 256) : (UInt8.ofNat x).toNat = x := by
    rw [UInt8.toNat_ofNat']
    exact Nat.mod_eq_of_lt hx
  refine ⟨?_, rfl, ?_⟩
  · simp only [MetaVariable.place, readMetaVariable, Generator.MetaVariable.place]
    rw [hbyte (by omega), hbyte (by omega), hbyte (by omega)]
  · rw [readMetaVariable, List.map_map]
    apply List.map_congr_left
    intro entry hentry
    obtain ⟨⟨-, hle⟩, -⟩ := Generator.mem_metaValues.mp hentry
    exact hbyte (by omega)

/-- The cells and the net of a file of the encoder. -/
theorem cells_of_cnf {e : LatinSquareEncoder} (shuffle : Generator.Order) (hn : 3 ≤ e.n)
    (hn' : e.n < 256) (hk : 2 ≤ e.k) (hk' : e.k ≤ 256) {f : Generator.CNF}
    (hf : e.cnf shuffle = some f) {net : Net} (hnet : Net.Finalizes (f.net.map readNode) net) :
    List.Forall₂ MetaVariable.ReadFrom (f.metaVariables.map readMetaVariable)
        (e.metaVars e.tables) ∧
      Auxiliary net (f.metaVariables.map readMetaVariable) ∧ e.coreSize ≤ f.variables_.length := by
  obtain ⟨_, s, _, _, _, h, -⟩ := LatinSquareEncoder.exists_returned_netEnds shuffle hn hk hf
  have hread : List.Forall₂ MetaVariable.ReadFrom (f.metaVariables.map readMetaVariable)
      (e.metaVars e.tables) := by
    rw [h.metaVariables]
    exact readFrom_readMetaVariable hn' hk'
  refine ⟨hread, auxiliary_of_returned h hread hnet, ?_⟩
  rw [h.length_variables (show 0 < e.n by omega)]
  exact h.builds.le

section Examples

open HillClimbingSolver (construct Accepts)

/-- One square of order 2. Cell `(0, 0)` has the variables `1` and `2`, cell `(0, 1)` has `3`
and `4`. -/
def oneSquare : LatinSquareEncoder := { reduced := false, n := 2, k := 1, q := 0 }

/-- The constructor for one square and one clause, when `rand` always gives the first value. -/
def startOneSquare (net : Net) : Option HillClimbingSolver :=
  construct 3 [⟨[⟨2, true⟩, ⟨4, true⟩]⟩] [0] (fun _ => 1) net
    ((oneSquare.metaVars oneSquare.tables).map readMetaVariable) 8 [] fun _ => 0

/-- A net that computes the first variable of cell `(0, 0)`. -/
def cellNodes : List Node := [.orAnd 1 [[⟨3, true⟩]], .andIff 9 [⟨5, true⟩]]

theorem finalizes_cellNodes : Net.Finalizes cellNodes (Net.sortedNet 2 cellNodes) :=
  Net.finalizes_sortedNet fun node hnode =>
    Option.isSome_iff_exists.mp ((by decide : ∀ node ∈ cellNodes,
      (Net.depth cellNodes 2 node).isSome = true) node hnode)

/-- With the second argument of `std::swap` first, this net inverts variable `1` and inverts it
again. -/
theorem holdsSymbols_oneSquare :
    ∃ s₀ s, startOneSquare (Net.sortedNet 2 cellNodes) = some s₀ ∧ Accepts .rightFirst s₀ s ∧
      HoldsSymbols oneSquare s := by
  have hrun : ((startOneSquare (Net.sortedNet 2 cellNodes)).bind fun s =>
      s.accept .rightFirst [(1, 1)]).isSome = true := by
    decide +kernel
  obtain ⟨s, hs⟩ := Option.isSome_iff_exists.mp hrun
  obtain ⟨s₀, hs₀, haccept⟩ := Option.bind_eq_some_iff.mp hs
  have hstep : Accepts .rightFirst s₀ s := ⟨[(1, 1)], List.nodup_singleton _, haccept⟩
  exact ⟨s₀, s, hs₀, hstep, holdsSymbols_of_run
    (readFrom_readMetaVariable (e := oneSquare) (by decide) (by decide))
    (Or.inr ⟨rfl, cellNodes, finalizes_cellNodes, by decide⟩) hs₀
    (Relation.ReflTransGen.single hstep)⟩

/-- A net with two nodes for `11`. The node of `1` comes before the one that changes it. -/
def twoNodes : List Node :=
  [.andIff 1 [⟨11, true⟩], .andIff 10 [⟨3, true⟩], .andIff 11 [⟨10, true⟩], .value 11 true]

theorem finalizes_twoNodes : Net.Finalizes twoNodes (Net.sortedNet 3 twoNodes) :=
  Net.finalizes_sortedNet fun node hnode =>
    Option.isSome_iff_exists.mp ((by decide : ∀ node ∈ twoNodes,
      (Net.depth twoNodes 3 node).isSome = true) node hnode)

/-- After the constructor and after every accepted move `metaValues` has the symbols of
`propagated`, whatever the net computes. -/
def AlwaysHolds (order : SwapOrder) : Prop := ∀ (e : LatinSquareEncoder)
  (metaVariables : List MetaVariable) (nodes : List Node) (net : Net) (fuel : Nat)
  (clauses : List Clause) (toCompute : List Nat) (weights : Nat → UInt32) (coreSize : Nat)
  (rand : Nat → Nat) (s₀ s : HillClimbingSolver),
  List.Forall₂ MetaVariable.ReadFrom metaVariables (e.metaVars e.tables) →
    Net.Finalizes nodes net →
    construct fuel clauses toCompute weights net metaVariables coreSize [] rand = some s₀ →
    Relation.ReflTransGen (Accepts order) s₀ s → HoldsSymbols e s

/-- A net whose variable `1` is not inverted along with the symbol of its cell. -/
theorem not_alwaysHolds {order : SwapOrder} {nodes : List Node} {net : Net}
    (hfinalizes : Net.Finalizes nodes net)
    (hrun : ((startOneSquare net).bind fun s => s.accept order [(1, 1)]).any (fun s =>
      s.propagated 1 = 0 ∧ metaValueAt s.metaValues (0, 0, 0) = some 1) = true) :
    ¬ AlwaysHolds order := by
  intro hclaim
  obtain ⟨s, hs, hvalues⟩ := (Option.any_eq_true _ _).mp hrun
  obtain ⟨s₀, hs₀, haccept⟩ := Option.bind_eq_some_iff.mp hs
  have hstep : Accepts order s₀ s := ⟨[(1, 1)], List.nodup_singleton _, haccept⟩
  have hholds := hclaim oneSquare _ nodes net _ _ _ _ _ _ s₀ s
    (readFrom_readMetaVariable (e := oneSquare) (by decide) (by decide)) hfinalizes hs₀
    (Relation.ReflTransGen.single hstep)
  obtain ⟨hone, hat⟩ := of_decide_eq_true hvalues
  obtain ⟨-, -, hsymbol⟩ := hholds.exact 0 (by decide) 0 (by decide) 0 (by decide) 1 hat
  have htrue : SymbolTrue oneSquare s.propagated 0 0 0 1 :=
    (hsymbol 1 le_rfl (by decide)).mpr rfl
  have hvariable : s.propagated 1 = 1 := htrue (.var 1) (by decide)
  rw [hone] at hvariable
  cases hvariable

/-- A net may compute a variable of a cell, so that the test of a move and the move itself do not
both invert it. With the first argument of `std::swap` first, `3` is in front in the test, and `1`
is in front of it when the move is committed. With the second argument first, the node of `1` finds
`11` when the move is committed and did not find it in the test. -/
theorem not_holdsSymbols_cellNode : ¬ AlwaysHolds .leftFirst ∧ ¬ AlwaysHolds .rightFirst :=
  ⟨not_alwaysHolds finalizes_cellNodes (by decide +kernel),
    not_alwaysHolds finalizes_twoNodes (by decide +kernel)⟩

end Examples

end LatinSquares.LocalSearch
