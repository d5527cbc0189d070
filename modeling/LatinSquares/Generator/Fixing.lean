/-
# What a previous result fixes

The units that `ReducedLatinParser` leaves are about the variables of the unreduced one-hot
tables, whatever the encoding of the formula they are propagated into. The encoder of these
tables means the same by them, so that its models show the retained symbols. The others number
their variables differently, and the units fix other cells.
-/

import LatinSquares.Generator.Retained

namespace LatinSquares.Generator

open LatinSquares.Math

namespace UnitMap

variable {units : UnitMap} {α : Assignment} {name : Nat} {b : Bool}

theorem find_of_mem (h : (name, b) ∈ units.entries) : units.find name = some b := by
  obtain ⟨entries, hnodup⟩ := units
  rw [find]
  induction entries with
  | nil => cases h
  | cons p entries ih =>
      rw [List.map_cons, List.nodup_cons] at hnodup
      rw [lookup_cons_eq]
      rcases List.mem_cons.mp h with rfl | h
      · rw [if_pos rfl]
      · have hne : name ≠ p.1 := by
          intro heq
          exact hnodup.1 (heq ▸ List.mem_map_of_mem h)
        rw [if_neg hne]
        exact ih hnodup.2 h

theorem agrees_of_find (h : ∀ name b, units.find name = some b → α name = b) : units.Agrees α :=
  fun p hp => h p.1 p.2 (find_of_mem hp)

end UnitMap

section Index

variable {order : Nat → List Nat → List Nat} {mark : Expression → Expression}
variable {exprs : Nat → Nat → Option (List Expression)} {n q : Nat} {s : GenState}

/-- A bound on the number of pairs that is too large is refused. -/
theorem yields_orthogonalBy_index :
    Yields (orthogonalBy order mark exprs n q) s fun _ _ => q ≤ n * n :=
  Yields.bind_right fun _ _ => Yields.bind_right fun _ _ =>
    Yields.bind_left (Yields.of_guard fun h => h)

variable {f g : Nat → Nat → Nat → Literal}

theorem length_getD_flatten (hn : 0 < n) : ((matrixOf n n n g).flatten.getD 0 []).length = n := by
  obtain ⟨m, rfl⟩ := Nat.exists_eq_add_of_lt hn
  simp [matrixOf, List.range_succ_eq_map]

theorem yields_orthogonalSquare_index (hn : 0 < n) {order : Order} :
    Yields (orthogonalSquare order (matrixOf n n n f) (matrixOf n n n g) q) s
      fun _ _ => q ≤ n * n := by
  have hlength : (matrixOf n n n f).length = n := by simp [matrixOf]
  rw [orthogonalSquare, hlength]
  split
  · rw [orthogonal, length_getD_flatten hn]
    exact yields_orthogonalBy_index
  · next hq => exact Yields.of_pure (not_ne_iff.mp hq).le

theorem yields_orthogonalLogSquare_index (hn : 0 < n) :
    Yields (orthogonalLogSquare (matrixOf n n n f) (matrixOf n n n g) q) s
      fun _ _ => q ≤ n * n := by
  have hlength : (matrixOf n n n f).length = n := by simp [matrixOf]
  rw [orthogonalLogSquare, hlength]
  split
  · rw [logOrthogonal, length_getD_flatten hn]
    exact yields_orthogonalBy_index
  · next hq => exact Yields.of_pure (not_ne_iff.mp hq).le

/-- The loop over the pairs of squares has a first round. -/
theorem yields_squarePairs {P : Prop} {k : Nat} (hk : 2 ≤ k)
    {m : Nat × Nat → Gen VariabledExpression}
    (hm : ∀ p ∈ squarePairs k, Yields (m p) s fun _ _ => P) :
    Yields ((squarePairs k).mapM m) s fun _ _ => P := by
  cases hpairs : squarePairs k with
  | nil => exact absurd hpairs (squarePairs_ne_nil hk)
  | cons p pairs =>
      rw [List.mapM_cons]
      exact Yields.bind_left (hm p (hpairs ▸ List.mem_cons_self))

theorem LatinSquareEncoder.yields_index {e : LatinSquareEncoder} (order : Order) (hn : 0 < e.n)
    (hk : 2 ≤ e.k) : Yields (e.program order) {} fun _ _ => e.q ≤ e.n * e.n := by
  refine (Yields.of_ensures (ensures_coreVariables (by omega))).bind ?_
  rintro core s ⟨rfl, -⟩
  refine Yields.bind_right fun _ _ => Yields.bind_right fun _ _ => Yields.bind_left ?_
  refine yields_squarePairs hk fun p hp => ?_
  obtain ⟨hij, hj⟩ := mem_squarePairs.mp hp
  rw [table_getD (hij.trans hj), table_getD hj]
  exact yields_orthogonalSquare_index hn

theorem LogLatinSquareEncoder.yields_index {e : LogLatinSquareEncoder} (hn : 0 < e.n)
    (hk : 2 ≤ e.k) : Yields e.program {} fun _ _ => e.q ≤ e.n * e.n := by
  refine (Yields.of_ensures (ensures_coreVariables (by omega))).bind ?_
  rintro core s ⟨rfl, rfl⟩
  refine (Yields.of_ensures (Ensures.of_get (Q := fun t u => u = { varCounter := e.coreSize })
    rfl)).bind ?_
  rintro _ u rfl
  refine (Yields.of_ensures ensures_indicators).bind ?_
  rintro tables s ⟨rfl, -⟩
  refine Yields.bind_right fun _ _ => Yields.bind_right fun _ _ => Yields.bind_left ?_
  refine yields_squarePairs hk fun p hp => ?_
  obtain ⟨hij, hj⟩ := mem_squarePairs.mp hp
  rw [indicatorTables, getD_map_range _ _ (hij.trans hj), getD_map_range _ _ hj]
  exact yields_orthogonalLogSquare_index hn

end Index

namespace ReducedLatinParser

section FirstCell

variable {n k t i j : Nat} {values : List Bool} {squares : List (List (List Int))}
variable {s : ParserState} {units : UnitMap}

/-- A constant cell is read as its symbol. -/
theorem symbolOf_of_kind (hi : i < n) (hj : j < n) {symbol : Nat} (hsymbol : symbol < n)
    (hkind : ∀ v < n, oneHotKind true t i j v = some (symbol = v : Bool)) :
    symbolOf n values t i j = symbol + 1 := by
  have hparse := (parse_symbolOf n values t i j).1
  rw [layoutCell, parseIntOneHot_eq (isEntry_layoutEntry t i j) hsymbol fun v hv => ?_] at hparse
  · exact (Option.some.inj hparse).symm
  · rw [layoutEntry_eval hi hj hv (hkind v hv), decide_eq_true_iff]

theorem symbolOf_row (hj : j < n) : symbolOf n values 0 0 j = j + 1 :=
  symbolOf_of_kind (by omega) hj hj fun v _ => by simp [oneHotKind]

theorem symbolOf_column (hi : i < n) : symbolOf n values 0 i 0 = i + 1 := by
  refine symbolOf_of_kind hi (by omega) hi fun v _ => ?_
  by_cases hzero : i = 0
  · subst hzero
    simp [oneHotKind]
  · simp [oneHotKind, hzero]

/-- No other cell of the first square is read as the symbol of its column or its row. -/
theorem symbolOf_ne (hi : i < n) (hj : j < n) (hrow : i ≠ 0) (hcolumn : j ≠ 0) {symbol : Nat}
    (hsymbol : symbol = j ∨ symbol = i) : symbolOf n values 0 i j ≠ symbol + 1 := by
  intro heq
  rcases (parse_symbolOf n values 0 i j).2 with hnone | ⟨v, hv, hread, hentry⟩
  · omega
  · obtain rfl : v = symbol := by omega
    have hkind : oneHotKind true 0 i j v = some false := by
      rcases hsymbol with rfl | rfl
      · simp [oneHotKind, hrow, hcolumn]
      · simp [oneHotKind, hrow, hcolumn]
    rw [layoutEntry_eval hi hj hv hkind] at hentry
    cases hentry

/-- The first cell of the first square is always kept. -/
theorem kept_first : Kept n (symbolOf n values 0) 0 0 where
  row b hb b' hb' h := by
    rw [symbolOf_row hb, symbolOf_row hb'] at h
    omega
  column a ha a' ha' h := by
    rw [symbolOf_column ha, symbolOf_column ha'] at h
    omega
  crossColumns b hb a ha h := by
    by_contra hne
    rw [symbolOf_row hb] at h
    by_cases hzero : b = 0
    · subst hzero
      rw [symbolOf_column ha] at h
      omega
    · exact symbolOf_ne ha hb hne hzero (Or.inl rfl) h
  crossRows a ha b hb h := by
    by_contra hne
    rw [symbolOf_column ha] at h
    by_cases hzero : a = 0
    · subst hzero
      rw [symbolOf_row hb] at h
      omega
    · exact symbolOf_ne ha hb hzero hne (Or.inr rfl) h

/-- The units of the first cell are always there. -/
theorem find_first (h : (construct n k values).run {} = some (squares, s)) {v : Nat} (hv : v < n) :
    s.parsedUnits.find (v + 1) = some (decide (v = 0)) := by
  obtain ⟨hk, hleft⟩ := left_of_construct h
  have hname : oneHotVariable n 0 0 0 v = v + 1 := by simp [oneHotVariable]
  have hfind := hleft.find_kept 0 hk 0 (by omega) 0 (by omega) kept_first v hv
  rw [hname, symbolOf_row (by omega)] at hfind
  rw [hfind]
  simp

end FirstCell

end ReducedLatinParser

open ReducedLatinParser (At Retained)

/-- Every model of the formula with a previous result propagated into it shows, in each cell
that is left of that result, the symbol that was read there. -/
def Encoding.FixesRetained (encoding : Encoding) : Prop :=
  ∀ (order : Order) (options : EncodeOptions) (n k q : Nat) (lines : List Line) (f : CNF)
    (squares : List (List (List Int))) (units : UnitMap), 3 ≤ n → 2 ≤ k →
    encodePropagated order options encoding n k q lines = some f →
    readPropagated n k lines = some (squares, units) → ∀ α, f.Holds α →
    ∃ core, encoding.coreTables n k q = some core ∧ ∃ F : Fin k → Square (Fin n),
      encoding.Denotes core α F ∧ ∀ (t : Fin k) (i j : Fin n), Retained units n t i j →
        At squares t i j ((F t i j : Nat) + 1)

section Encodings

variable {order : Order} {options : EncodeOptions} {encoding : Encoding} {n k q : Nat}
variable {lines : List Line} {f : CNF} {squares : List (List (List Int))} {units : UnitMap}
variable {α : Assignment}

/-- The parts a propagated formula is made of. -/
theorem exists_of_encodePropagated
    (hf : encodePropagated order options encoding n k q lines = some f)
    (hread : readPropagated n k lines = some (squares, units)) :
    ∃ g values s, encode order options encoding n k q = some g ∧ f = g.propagate units ∧
      (ReducedLatinParser.construct n k values).run {} = some (squares, s) ∧
        units = s.parsedUnits := by
  obtain ⟨g, hg, hf⟩ := Option.bind_eq_some_iff.mp hf
  obtain ⟨propagated, hpropagated, hf⟩ := Option.bind_eq_some_iff.mp hf
  obtain rfl := Option.some.inj (hpropagated.symm.trans hread)
  obtain ⟨values, -, hvalues⟩ := Option.bind_eq_some_iff.mp hread
  obtain ⟨⟨squares', s⟩, hrun, hresult⟩ := Option.bind_eq_some_iff.mp hvalues
  obtain ⟨hsquares, hunits⟩ := Prod.mk.inj (Option.some.inj hresult)
  exact ⟨g, values, s, hg, (Option.some.inj hf).symm, hsquares ▸ hrun, hunits.symm⟩

/-- The unreduced one-hot encoder has the variables of the parser's units. -/
theorem fixesRetained_latinOnehot : Encoding.latinOnehot.FixesRetained := by
  intro order options n k q lines f squares units hn hk hf hread α hα
  obtain ⟨g, values, s, hg, rfl, hrun, rfl⟩ := exists_of_encodePropagated hf hread
  obtain ⟨hholds, hagrees⟩ := CNF.holds_propagate.mp hα
  obtain ⟨hpos, hleft⟩ := ReducedLatinParser.left_of_construct hrun
  let e : LatinSquareEncoder := ⟨false, options.weighted, .none, -1, n, k, q⟩
  obtain ⟨_, hq⟩ := of_run' (LatinSquareEncoder.yields_index (e := e) order
    (show 0 < n by omega) hk) hg
  obtain ⟨F, hF, -, -⟩ :=
    LatinSquareEncoder.exists_family_of_holds (e := e) order hn hk hq hg hholds
  refine ⟨e.tables, coreTables_oneHot (e := e) hpos, F,
    LatinSquareEncoder.reads_tables_iff.mpr hF, fun t i j hretained => ?_⟩
  apply (ReducedLatinParser.at_iff (ReducedLatinParser.squares_eq hpos hrun)).mpr
  refine ⟨t.isLt, i.isLt, j.isLt, ?_⟩
  have hkept := (hleft.retained_iff t.isLt i.isLt j.isLt).mp hretained
  have hunit := hagrees.eq_of_find
    (hleft.find_kept t t.isLt i i.isLt j j.isLt hkept (F t i j) (F t i j).isLt)
  have hshows : (e.entry t i j (F t i j)).eval α = true := (hF t i j (F t i j)).mpr rfl
  rw [LatinSquareEncoder.entry_unreduced rfl, Literal.eval_var, hunit, decide_eq_true_iff] at hshows
  omega

theorem exists_oneHotKind {t i j : Nat} (hi : i < n) (hj : j < n)
    (hconstant : j = 0 ∨ t = 0 ∧ i = 0) :
    ∃ symbol < n, ∀ v, oneHotKind true t i j v = some (symbol = v : Bool) := by
  rcases hconstant with rfl | ⟨rfl, rfl⟩
  · refine ⟨i, hi, fun v => ?_⟩
    by_cases hrow : i = 0
    · subst hrow
      simp [oneHotKind]
    · simp [oneHotKind, hrow]
  · exact ⟨j, hj, fun v => by simp [oneHotKind]⟩

/-- Whatever else the units say, the reduced one-hot formula has the symbols of constant cells, so
it shows what was read if no other cell is left. -/
theorem fixes_of_constant (hn : 3 ≤ n) (hk : 2 ≤ k)
    (hf : encodePropagated order options .reducedLatinOnehot n k q lines = some f)
    (hread : readPropagated n k lines = some (squares, units))
    (hconstant : ∀ (t : Fin k) (i j : Fin n), Retained units n t i j →
      (j : Nat) = 0 ∨ (t : Nat) = 0 ∧ (i : Nat) = 0) (hα : f.Holds α) :
    ∃ core, Encoding.reducedLatinOnehot.coreTables n k q = some core ∧
      ∃ F : Fin k → Square (Fin n), Encoding.reducedLatinOnehot.Denotes core α F ∧
        ∀ (t : Fin k) (i j : Fin n), Retained units n t i j →
          At squares t i j ((F t i j : Nat) + 1) := by
  obtain ⟨g, values, s, hg, rfl, hrun, rfl⟩ := exists_of_encodePropagated hf hread
  obtain ⟨hholds, -⟩ := CNF.holds_propagate.mp hα
  obtain ⟨hpos, -⟩ := ReducedLatinParser.left_of_construct hrun
  let e : LatinSquareEncoder := ⟨true, options.weighted, options.breakingSymmetryType,
    options.breakingSymmetryCycleNumber, n, k, q⟩
  obtain ⟨_, hq⟩ := of_run' (LatinSquareEncoder.yields_index (e := e) order
    (show 0 < n by omega) hk) hg
  obtain ⟨F, hF, -, -⟩ :=
    LatinSquareEncoder.exists_family_of_holds (e := e) order hn hk hq hg hholds
  refine ⟨e.tables, coreTables_oneHot (e := e) hpos, F,
    LatinSquareEncoder.reads_tables_iff.mpr hF, fun t i j hretained => ?_⟩
  obtain ⟨symbol, hsymbol, hkind⟩ := exists_oneHotKind i.isLt j.isLt (hconstant t i j hretained)
  have hshows : (e.entry t i j (F t i j)).eval α = true := (hF t i j (F t i j)).mpr rfl
  rw [LatinSquareEncoder.entry, layoutEntry_eval i.isLt j.isLt (F t i j).isLt (hkind _),
    decide_eq_true_iff] at hshows
  apply (ReducedLatinParser.at_iff (ReducedLatinParser.squares_eq hpos hrun)).mpr
  refine ⟨t.isLt, i.isLt, j.isLt, ?_⟩
  rw [ReducedLatinParser.symbolOf_of_kind i.isLt j.isLt hsymbol fun v _ => hkind v, hshows]

end Encodings

namespace LogLatinSquareEncoder

variable {e : LogLatinSquareEncoder} {α : Assignment} {bit : Nat}

theorem log2_le_self {m : Nat} (hm : m ≠ 0) : log2 m ≤ m := by
  have hpow := Nat.log2_self_le hm
  have hlt : Nat.log2 m < 2 ^ Nat.log2 m := Nat.lt_two_pow_self
  rw [log2]
  split <;> omega

theorem ne_zero_of_logKind {i j : Nat} (h : logKind true 0 i j bit = none) : i ≠ 0 ∧ j ≠ 0 := by
  constructor
  · rintro rfl
    simp [logKind] at h
  · rintro rfl
    by_cases hi : i = 0 <;> simp [logKind, hi] at h

/-- The variables of the reduced tables begin with the second cell of the second row. -/
theorem variablesBefore_second (hn : 2 ≤ e.n) (hbit : bit ≤ log2 e.n) :
    variablesBefore (byIndex e.n e.n (log2 e.n) (logKind true))
      ((1 * e.n + 1) * log2 e.n + bit) = bit := by
  induction bit with
  | zero =>
      rw [variablesBefore, Nat.add_zero, Nat.count_iff_forall_not]
      intro x hx hnone
      have hcell : x / log2 e.n < 1 * e.n + 1 := Nat.div_lt_of_lt_mul (by rwa [Nat.mul_comm])
      have hcells : 2 * e.n ≤ e.n * e.n := Nat.mul_le_mul_right _ hn
      have htable : (1 * e.n + 1) * log2 e.n ≤ e.n * e.n * log2 e.n :=
        Nat.mul_le_mul_right _ (by omega)
      rw [Option.isNone_iff_eq_none, byIndex, Nat.div_eq_of_lt (by omega),
        Nat.mod_eq_of_lt (by omega)] at hnone
      obtain ⟨hrow, hcolumn⟩ := ne_zero_of_logKind hnone
      have hlast : x / log2 e.n = e.n := by
        by_contra hne
        exact hrow (Nat.div_eq_of_lt (by omega))
      rw [hlast, Nat.mod_self] at hcolumn
      exact hcolumn rfl
  | succ bit ih =>
      have hnone : byIndex e.n e.n (log2 e.n) (logKind true)
          ((1 * e.n + 1) * log2 e.n + bit) = none := by
        have hindex := byIndex_apply (f := logKind true) (t := 0) (i := 1) (j := 1) (k := bit)
          (show 1 < e.n by omega) (show 1 < e.n by omega) hbit
        rw [Nat.zero_mul, Nat.zero_add] at hindex
        rw [hindex]
        simp [logKind]
      rw [← Nat.add_assoc, variablesBefore_succ_of_none hnone, ih (by omega)]

theorem bit_second (hreduced : e.reduced = true) (hn : 2 ≤ e.n) (hbit : bit < log2 e.n) :
    e.bit 0 1 1 bit = .var (bit + 1) := by
  have hindex := byIndex_apply (f := logKind true) (t := 0) (i := 1) (j := 1) (k := bit)
    (show 1 < e.n by omega) (show 1 < e.n by omega) hbit
  have hkind : logKind true 0 1 1 bit = none := by simp [logKind]
  rw [LogLatinSquareEncoder.bit, layoutEntry, numbered, hreduced, hindex, hkind, Nat.zero_mul,
    Nat.zero_add, Nat.zero_add, variablesBefore_second hn hbit.le]

/-- If the first variables are those of the first cell of a one-hot table, the first two rows
repeat a symbol in the second column. -/
theorem not_isLatin_of_first (hreduced : e.reduced = true) (hn : 2 ≤ e.n) (hk : 0 < e.k)
    {F : Fin e.k → Square (Fin e.n)} (hF : e.Stores α F)
    (hα : ∀ v < e.n, α (v + 1) = decide (v = 0)) : ¬IsLatin (F ⟨0, hk⟩) := by
  intro hlatin
  have hnumber : e.number α 0 1 1 = e.number α 0 0 1 := by
    rw [number, number, cellNumber, cellNumber]
    congr 1
    funext bit
    have hlt : (bit : Nat) < e.n := bit.isLt.trans_le (log2_le_self (by omega))
    have hkind : logKind e.reduced 0 0 1 bit = some ((1 >>> (bit : Nat)) % 2 = 1 : Bool) := by
      simp [logKind, hreduced]
    rw [bit_second hreduced hn bit.isLt, Literal.eval_var, hα bit hlt, LogLatinSquareEncoder.bit,
      layoutEntry_eval (show 0 < e.n by omega) (show 1 < e.n by omega) bit.isLt hkind,
      Nat.shiftRight_eq_div_pow]
    by_cases hzero : (bit : Nat) = 0
    · simp [hzero]
    · rw [Nat.div_eq_of_lt (Nat.one_lt_two_pow hzero)]
      simp [hzero]
  have hsame : F ⟨0, hk⟩ ⟨1, hn⟩ ⟨1, hn⟩ = F ⟨0, hk⟩ ⟨0, by omega⟩ ⟨1, hn⟩ := by
    apply Fin.ext
    rw [← hF, ← hF]
    exact hnumber
  have hrows := hlatin.column ⟨1, hn⟩ hsame
  simp at hrows

end LogLatinSquareEncoder

/-- The reduced logarithmic formula has no model with the units of the first cell. -/
theorem fixesRetained_reducedLatinLog : Encoding.reducedLatinLog.FixesRetained := by
  intro order options n k q lines f squares units hn hk hf hread α hα
  obtain ⟨g, values, s, hg, rfl, hrun, rfl⟩ := exists_of_encodePropagated hf hread
  obtain ⟨hholds, hagrees⟩ := CNF.holds_propagate.mp hα
  let e : LogLatinSquareEncoder := ⟨true, n, k, q⟩
  have htwo : 2 ≤ e.n := by
    change 2 ≤ n
    omega
  have hpos : 0 < e.k := by
    change 0 < k
    omega
  obtain ⟨_, hq⟩ := of_run' (LogLatinSquareEncoder.yields_index (e := e) (by omega) hk) hg
  obtain ⟨F, hF, hfamily, -⟩ :=
    LogLatinSquareEncoder.exists_family_of_holds (e := e) htwo hk hq hg hholds
  exact absurd (hfamily.latin _) (LogLatinSquareEncoder.not_isLatin_of_first rfl htwo
    hpos hF fun v hv => hagrees.eq_of_find (ReducedLatinParser.find_first hrun hv))

section Untouched

variable {e : LatinSquareEncoder} {order : Order} {s : GenState}

/-- Two squares that have to be orthogonal need no further variables. -/
theorem yields_orthogonalSquare_full {a b : Matrix} {q : Nat} (hq : q = a.length * a.length) :
    Yields (orthogonalSquare order a b q) s fun _ s' => s' = s := by
  rw [orthogonalSquare, if_neg (not_not_intro hq)]
  exact Yields.of_pure rfl

/-- An encoder for orthogonal squares without symmetry breaking allocates the tables alone. -/
theorem LatinSquareEncoder.yields_coreState (order : Order) (hk : 2 ≤ e.k)
    (hfull : e.q = e.n * e.n) (hnone : e.breakingSymmetryType = .none) :
    Yields (e.program order) {} fun _ s => s = e.coreState := by
  refine (Yields.of_ensures (ensures_coreVariables (by omega))).bind ?_
  rintro core s ⟨rfl, rfl⟩
  refine (Yields.of_ensures (Ensures.of_get (Q := fun _ u => u = e.coreState) rfl)).bind ?_
  rintro _ s rfl
  have hsymmetry : Yields (e.symmetry e.tables) e.coreState fun _ s => s = e.coreState := by
    rw [symmetry, hnone]
    split <;> exact Yields.of_pure rfl
  refine hsymmetry.bind ?_
  rintro breaking s rfl
  have hpairs : Yields ((squarePairs e.k).mapM fun p =>
      orthogonalSquare order (e.tables.getD p.1 []) (e.tables.getD p.2 []) e.q) e.coreState
        fun _ s => s = e.coreState := by
    refine (Yields.mapM (R := fun _ s _ s' => s' = s) fun p hp s => ?_).mono fun ortho s h =>
      h.rel_of_step (L := fun s s' => s' = s) (fun _ => rfl) (fun _ _ _ h h' => h'.trans h)
        fun _ _ _ _ h => h
    obtain ⟨hij, hj⟩ := mem_squarePairs.mp hp
    apply yields_orthogonalSquare_full
    rw [table_getD (hij.trans hj), hfull]
    simp [table, matrixOf]
  refine hpairs.bind ?_
  rintro ortho s rfl
  refine (Yields.of_guard (Q := fun _ s => s = e.coreState) fun _ => rfl).bind ?_
  rintro _ s rfl
  refine (Yields.of_lift (Q := fun _ s => s = e.coreState) fun _ _ => rfl).bind ?_
  rintro args s rfl
  refine (Yields.of_ensures (Ensures.of_get (Q := fun _ u => u = e.coreState) rfl)).bind ?_
  rintro _ s rfl
  exact Yields.of_pure rfl

/-- Its formula says nothing about the variables after those of the tables. -/
theorem LatinSquareEncoder.holds_dependsUpTo (hn : 3 ≤ e.n) (hk : 2 ≤ e.k)
    (hfull : e.q = e.n * e.n) (hnone : e.breakingSymmetryType = .none) {g : CNF}
    (hg : e.cnf order = some g) : DependsUpTo e.coreSize g.Holds := by
  obtain ⟨s, ⟨s₁, breaking, ortho, args, hreturned⟩, rfl⟩ := of_run'
    ((yields_returned order hn hk hfull.le).and (yields_coreState order hk hfull hnone)) hg
  have hproper := hreturned.proper (by omega)
  have hformula : e.formula breaking ortho = .conj args := by
    have hcast := hreturned.cast
    cases hformula : e.formula breaking ortho with
    | clause c =>
        rw [hformula] at hcast
        cases hcast
    | conj args' =>
        rw [hformula] at hcast
        rw [Option.some.inj hcast]
  have hclauses : g.clauses = distinct args := by
    rw [hreturned.result]
    rfl
  intro α β hαβ
  rw [holds_iff_conj hclauses, holds_iff_conj hclauses, ← hformula]
  exact hproper.dependsUpTo hαβ

end Untouched

namespace ReducedLatinParser

section Files

variable {n k : Nat} {α : Assignment} {size : Nat} {g : Nat → Nat → Nat → Int}
variable {M M' : Nat → Nat → Int} {i j : Nat} {units : UnitMap}

instance : Decidable (Kept n M i j) :=
  decidable_of_iff (RowDistinct n M i ∧ ColumnDistinct n M j ∧
    (∀ b < n, ∀ a < n, M a b = M i b → a = i) ∧ ∀ a < n, ∀ b < n, M a b = M a j → b = j)
    ⟨fun h => ⟨h.1, h.2.1, h.2.2.1, h.2.2.2⟩,
      fun h => ⟨h.row, h.column, h.crossColumns, h.crossRows⟩⟩

theorem Kept.congr (hi : i < n) (hj : j < n) (h : ∀ a < n, ∀ b < n, M a b = M' a b)
    (hkept : Kept n M i j) : Kept n M' i j where
  row b hb b' hb' heq := by
    rw [← h i hi b hb, ← h i hi b' hb'] at heq
    exact hkept.row b hb b' hb' heq
  column a ha a' ha' heq := by
    rw [← h a ha j hj, ← h a' ha' j hj] at heq
    exact hkept.column a ha a' ha' heq
  crossColumns b hb a ha heq := by
    rw [← h a ha b hb, ← h i hi b hb] at heq
    exact hkept.crossColumns b hb a ha heq
  crossRows a ha b hb heq := by
    rw [← h a ha b hb, ← h a ha j hj] at heq
    exact hkept.crossRows a ha b hb heq

/-- The file of an assignment in the format of the option `-p`. -/
def fileOf (α : Assignment) (size : Nat) : List Line :=
  [OutputFormat.minisat.sat, unwords (modelWords α size)]

theorem exists_readPropagated (α : Assignment) (size : Nat) (hk : 0 < k) (hpos : 0 < size)
    (hsize : (reducedEncoder n k).coreSize ≤ size) :
    ∃ squares s, (construct n k (modelValues α size)).run {} = some (squares, s) ∧
      readPropagated n k (fileOf α size) = some (squares, s.parsedUnits) := by
  have hne : modelWords α size ≠ [] := by
    rw [modelWords, ne_eq, List.map_eq_nil_iff, List.range'_eq_nil_iff]
    omega
  have hfile : Written (modelWords α size) (fileOf α size) .minisat := ⟨[], rfl⟩
  obtain ⟨squares, s, hrun, -⟩ := ensures_construct_values (modelValues α size) hk
    (by rwa [modelValues, List.length_map, List.length_range'])
  refine ⟨squares, s, hrun, ?_⟩
  have hvalues := readValues_written hfile space_not_mem_modelWords hne
  rw [map_parseVariable_modelWords] at hvalues
  simp [readPropagated, hvalues, hrun]

/-- An assignment agrees with the units if it does on the cells that are kept. -/
theorem Left.agrees {values : List Bool} (hleft : Left n k (symbolOf n values) units)
    (hg : ∀ t < k, ∀ i < n, ∀ j < n, symbolOf n values t i j = g t i j)
    (h : ∀ t < k, ∀ i < n, ∀ j < n, Kept n (g t) i j → ∀ v < n,
      α (oneHotVariable n t i j v) = decide ((v : Int) = g t i j - 1)) : units.Agrees α := by
  refine UnitMap.agrees_of_find fun name b hname => ?_
  obtain ⟨t, ht, i, hi, j, hj, v, hv, rfl⟩ := hleft.ours name b hname
  have hkept := (hleft.retained_iff ht hi hj).mp ⟨v, hv, by rw [hname]; rfl⟩
  rw [hleft.find_kept t ht i hi j hj hkept v hv, Option.some_inj] at hname
  rw [h t ht i hi j hj (hkept.congr hi hj (hg t ht)) v hv, ← hg t ht i hi j hj, hname]

end Files

end ReducedLatinParser

open ReducedLatinParser

/-- A formula and a previous result that have a common model. -/
theorem Encoding.not_fixesRetained {encoding : Encoding} {options : EncodeOptions} {n k q : Nat}
    {lines : List Line}
    {f : CNF} {squares : List (List (List Int))} {units : UnitMap} {α : Assignment} (hn : 3 ≤ n)
    (hk : 2 ≤ k) (hf : encode Order.identity options encoding n k q = some f)
    (hread : readPropagated n k lines = some (squares, units)) (hα : f.Holds α)
    (hagrees : units.Agrees α)
    (hother : ∀ core, encoding.coreTables n k q = some core → ∀ F : Fin k → Square (Fin n),
      encoding.Denotes core α F → ∃ (t : Fin k) (i j : Fin n), Retained units n t i j ∧
        ¬At squares t i j ((F t i j : Nat) + 1)) : ¬encoding.FixesRetained := by
  intro h
  have hpropagated : encodePropagated Order.identity options encoding n k q lines =
      some (f.propagate units) :=
    Option.bind_eq_some_iff.mpr ⟨f, hf, Option.bind_eq_some_iff.mpr ⟨_, hread, rfl⟩⟩
  obtain ⟨core, hcore, F, hF, hfixes⟩ := h _ _ _ _ _ _ _ _ _ hn hk hpropagated hread α
    (CNF.holds_propagate.mpr ⟨hα, hagrees⟩)
  obtain ⟨t, i, j, hretained, hnot⟩ := hother core hcore F hF
  exact hnot (hfixes t i j hretained)

section Shifted

/-- What is read where everything is false: the constant cells of the reduced tables. -/
def constantSymbols (t i j : Nat) : Int :=
  if j = 0 then i + 1 else if t = 0 ∧ i = 0 then j + 1 else -1

/-- Squares whose first cell shows the second symbol. -/
def shiftedSquares : Fin 2 → Square (Fin 3) := fun _ i j => 1 + i - j

theorem testBit_of_binaryCode {F : Fin 2 → Square (Fin 3)} {α : Assignment} (h : BinaryCode α F)
    (t : Fin 2) (i j : Fin 3) {bit : Nat} (hbit : bit < 2) :
    α (bitVariable 3 2 t i j bit) = (F t i j : Nat).testBit bit := by
  rw [← h t i j, Nat.testBit_ofBits_lt _ _ (show bit < log2 3 from hbit)]
  rfl

/-- The formula has a model with the units of the first cell. -/
theorem exists_shifted_model : ∃ f α, encode Order.identity {} .latinLog 3 2 0 = some f ∧
    f.Holds α ∧ α 1 = true ∧ α 2 = false ∧ α 3 = false := by
  have hfamily : LatinFamily (fun _ _ => 0) shiftedSquares :=
    ⟨fun t => ⟨by revert t; decide, by revert t; decide⟩, fun _ _ _ => Nat.zero_le _⟩
  obtain ⟨f, hf, hcore, -, hmeaning⟩ := LogLatinSquareEncoder.exists_cnf_unreduced
    (e := ⟨false, 3, 2, 0⟩) rfl (by decide) (by decide) (by decide)
  obtain ⟨α, hstores⟩ := LogLatinSquareEncoder.exists_stores (e := ⟨false, 3, 2, 0⟩)
    (F := shiftedSquares) (by simp [logKind])
  have hcode : BinaryCode α shiftedSquares :=
    (LogLatinSquareEncoder.stores_iff_binaryCode (e := ⟨false, 3, 2, 0⟩) rfl).mp hstores
  obtain ⟨β, hβ, hholds, -⟩ := (hmeaning 0 (Nat.zero_le _) α).mpr
    ⟨shiftedSquares, hcode, by rw [incrementalBound_zero]; exact hfamily⟩
  have hsize : 2 * 3 ^ 2 * log2 3 = 36 := by decide
  rw [hcore, hsize] at hβ
  have h1 := testBit_of_binaryCode hcode 0 0 0 (show 0 < 2 by decide)
  have h2 := testBit_of_binaryCode hcode 0 0 0 (show 1 < 2 by decide)
  have h3 := testBit_of_binaryCode hcode 0 0 1 (show 0 < 2 by decide)
  exact ⟨f, β, hf, hholds, (hβ 1 (by decide)).trans h1, (hβ 2 (by decide)).trans h2,
    (hβ 3 (by decide)).trans h3⟩

/-- The first cell of a result where everything is false is taken for the bits of another
symbol. -/
theorem not_fixesRetained_latinLog : ¬Encoding.latinLog.FixesRetained := by
  obtain ⟨f, α, hf, hα, h1, h2, h3⟩ := exists_shifted_model
  obtain ⟨squares, s, hrun, hread⟩ := exists_readPropagated (n := 3) (k := 2) (fun _ => false) 18
    (by decide) (by decide) (by decide)
  obtain ⟨hpos, hleft⟩ := left_of_construct hrun
  have hsymbols : ∀ t < 2, ∀ i < 3, ∀ j < 3,
      symbolOf 3 (modelValues (fun _ => false) 18) t i j = constantSymbols t i j := by decide
  have hkept : ∀ (t : Fin 2) (i j : Fin 3), Kept 3 (constantSymbols t) i j →
      (t : Nat) = 0 ∧ (i : Nat) = 0 ∧ (j : Nat) = 0 := by decide
  have hagrees : s.parsedUnits.Agrees α := by
    refine hleft.agrees hsymbols fun t ht i hi j hj hcell v hv => ?_
    obtain ⟨rfl, rfl, rfl⟩ := hkept ⟨t, ht⟩ ⟨i, hi⟩ ⟨j, hj⟩ hcell
    match v, hv with
    | 0, _ => exact h1
    | 1, _ => exact h2
    | 2, _ => exact h3
  refine Encoding.not_fixesRetained (by decide) (by decide) hf hread hα
    hagrees fun core hcore F hdenotes => ⟨0, 0, 0, ?_, fun hat => ?_⟩
  · exact (hleft.retained_iff (by decide) (by decide) (by decide)).mpr kept_first
  · obtain rfl : core = (⟨false, 3, 2, 0⟩ : LogLatinSquareEncoder).tables :=
      Option.some.inj (hcore.symm.trans (coreTables_log (e := ⟨false, 3, 2, 0⟩) (by decide)))
    have hcode : BinaryCode α F :=
      (LogLatinSquareEncoder.stores_iff_binaryCode (e := ⟨false, 3, 2, 0⟩) rfl).mp
        (reads_tables_bits.mp hdenotes)
    have hodd := (testBit_of_binaryCode hcode 0 0 0 (show 0 < 2 by decide)).symm.trans h1
    obtain ⟨-, -, -, hsymbol⟩ := (at_iff (squares_eq hpos hrun)).mp hat
    have hzero : (F 0 0 0 : Nat) = 0 := by
      have hone := hsymbols 0 (by decide) 0 (by decide) 0 (by decide)
      have hread := hone.symm.trans hsymbol
      simp only [constantSymbols] at hread
      omega
    rw [hzero] at hodd
    cases hodd

end Shifted

section Foreign

/-- The encoder of two orthogonal squares of order 4 in reduced form. -/
def foreignEncoder : LatinSquareEncoder where
  reduced := true
  n := 4
  k := 2
  q := 16

/-- The sums in the group of order 4 that has three involutions, with the columns of the second
square in another order. -/
def groupSquares : Fin 2 → Square (Fin 4)
  | 0, i, j => ![![0, 1, 2, 3], ![1, 0, 3, 2], ![2, 3, 0, 1], ![3, 2, 1, 0]] i j
  | 1, i, j => ![![0, 2, 3, 1], ![1, 3, 2, 0], ![2, 0, 1, 3], ![3, 1, 0, 2]] i j

/-- A previous result with one cell of the second square that is kept. -/
def foreignValues (name : Nat) : Bool := name ∈ [22, 27, 32, 34, 39, 44, 54]

/-- What is read of it. -/
def foreignSymbols (t i j : Nat) : Int :=
  if t = 0 then if i = 0 then j + 1 else if j = 0 then i + 1 else -1
  else ([[1, 1, 4, -1], [2, 3, 1, 4], [3, -1, 2, -1], [4, -1, 3, -1]].getD i []).getD j 0

theorem groupSquares_family : LatinFamily (fun _ _ => 16) groupSquares := by
  refine ⟨fun t => ⟨by revert t; decide, by revert t; decide⟩, ?_⟩
  decide

/-- The value of a variable that belongs to a cell. -/
theorem LatinSquareEncoder.Describes.eval_var {e : LatinSquareEncoder} {α : Assignment}
    {F : Fin e.k → Square (Fin e.n)} (h : e.Describes α F) {t : Fin e.k} {i j v : Fin e.n}
    {name : Nat} (hname : e.entry t i j v = .var name) : α name = decide (F t i j = v) := by
  have hshows : (e.entry t i j v).eval α = true ↔ F t i j = v := h t i j v
  rw [hname, Literal.eval_var] at hshows
  rw [Bool.eq_iff_iff, decide_eq_true_iff]
  exact hshows

/-- The formula has a model with the units of the two cells that are kept. -/
theorem exists_foreign_model : ∃ f α, encode Order.identity {} .reducedLatinOnehot 4 2 16 = some f ∧
    f.Holds α ∧ foreignEncoder.Describes α groupSquares ∧ (∀ v < 4, α (v + 1) = decide (v = 0)) ∧
      ∀ v < 4, α (v + 89) = decide (v = 0) := by
  have hstandard : Standard (0 : Fin 4) (0 : Fin 2) groupSquares := ⟨by decide, by decide⟩
  have havoid : ∀ t : Fin 2, t ≠ 0 → ∀ j : Fin 4, j ≠ 0 → groupSquares t 0 j ≠ j := by decide
  obtain ⟨f, c, hf, -, hprojects⟩ := LatinSquareEncoder.exists_cnf_reduced (e := foreignEncoder)
    Order.identity rfl (by decide) (by decide) (by decide) (Or.inl rfl)
  obtain ⟨α, hα, hreads⟩ := LatinSquareEncoder.exists_model (e := foreignEncoder)
    (F := groupSquares) (by decide) (by decide) hprojects rfl hstandard havoid trivial
    groupSquares_family
  have hdescribes := LatinSquareEncoder.reads_tables_iff.mp hreads
  have hdepends := LatinSquareEncoder.holds_dependsUpTo (e := foreignEncoder) (by decide)
    (by decide) rfl rfl hf
  have hvalue : ∀ (t : Fin 2) (i j v : Fin 4) (name : Nat),
      foreignEncoder.entry t i j v = .var name → α name = decide (groupSquares t i j = v) :=
    fun t i j v name hname => hdescribes.eval_var hname
  -- the formula has 57 variables, and the units are about others too
  let β : Assignment := fun name => if name ≤ 57 then α name else decide (name = 89)
  have hβ : AgreeUpTo foreignEncoder.coreSize α β := by
    have hsize : foreignEncoder.coreSize = 57 := by decide
    intro name hname
    exact if_pos (hsize ▸ hname)
  refine ⟨f, β, hf, (hdepends hβ).mp hα,
    (LatinSquareEncoder.describes_dependsUpTo groupSquares hβ).mp hdescribes, ?_, ?_⟩
  · intro v hv
    match v, hv with
    | 0, _ => exact hvalue 0 1 1 0 1 (by decide)
    | 1, _ => exact hvalue 0 1 1 2 2 (by decide)
    | 2, _ => exact hvalue 0 1 1 3 3 (by decide)
    | 3, _ => exact hvalue 0 1 2 0 4 (by decide)
  · intro v hv
    match v, hv with
    | 0, _ => rfl
    | 1, _ => rfl
    | 2, _ => rfl
    | 3, _ => rfl

/-- The retained cell of the second square has its variables in the formula under other
numbers. -/
theorem not_fixesRetained_reducedLatinOnehot : ¬Encoding.reducedLatinOnehot.FixesRetained := by
  obtain ⟨f, α, hf, hα, hdescribes, hfirst, hsecond⟩ := exists_foreign_model
  obtain ⟨squares, s, hrun, hread⟩ := exists_readPropagated (n := 4) (k := 2) foreignValues 57
    (by decide) (by decide) (by decide)
  obtain ⟨hpos, hleft⟩ := left_of_construct hrun
  have hsymbols : ∀ t < 2, ∀ i < 4, ∀ j < 4,
      symbolOf 4 (modelValues foreignValues 57) t i j = foreignSymbols t i j := by decide
  have hkept : ∀ (t : Fin 2) (i j : Fin 4), Kept 4 (foreignSymbols t) i j ↔
      (t : Nat) = 0 ∧ (i : Nat) = 0 ∧ (j : Nat) = 0 ∨
        (t : Nat) = 1 ∧ (i : Nat) = 1 ∧ (j : Nat) = 2 := by decide
  have hagrees : s.parsedUnits.Agrees α := by
    refine hleft.agrees hsymbols fun t ht i hi j hj hcell v hv => ?_
    rcases (hkept ⟨t, ht⟩ ⟨i, hi⟩ ⟨j, hj⟩).mp hcell with ⟨rfl, rfl, rfl⟩ | ⟨rfl, rfl, rfl⟩
    · have hname : oneHotVariable 4 0 0 0 v = v + 1 := by simp [oneHotVariable]
      rw [hname, hfirst v hv]
      simp [foreignSymbols]
    · have hname : oneHotVariable 4 1 1 2 v = v + 89 := by
        rw [oneHotVariable_eq]
        omega
      rw [hname, hsecond v hv]
      simp [foreignSymbols]
  refine Encoding.not_fixesRetained (by decide) (by decide) hf hread hα
    hagrees fun core hcore F hdenotes => ⟨1, 1, 2, ?_, fun hat => ?_⟩
  · apply (hleft.retained_iff (by decide) (by decide) (by decide)).mpr
    exact ((hkept 1 1 2).mpr (by decide)).congr (by decide) (by decide)
      fun a ha b hb => (hsymbols 1 (by decide) a ha b hb).symm
  · obtain rfl : core = foreignEncoder.tables :=
      Option.some.inj (hcore.symm.trans (coreTables_oneHot (e := foreignEncoder) (by decide)))
    have hF : F = groupSquares :=
      ((LatinSquareEncoder.reads_tables_iff (e := foreignEncoder)).mp hdenotes).unique hdescribes
    obtain ⟨-, -, -, hsymbol⟩ := (at_iff (squares_eq hpos hrun)).mp hat
    have hread := (hsymbols 1 (by decide) 1 (by decide) 2 (by decide)).symm.trans hsymbol
    rw [hF] at hread
    revert hread
    decide

end Foreign

/-- A previous result fixes the cells it came from for the encoder whose variables the parser
replays, and where the units of the first cell already contradict the formula. -/
theorem fixesRetained_iff {encoding : Encoding} (hencoding : encoding.IsLatin) :
    encoding.FixesRetained ↔ encoding = .latinOnehot ∨ encoding = .reducedLatinLog := by
  cases encoding with
  | array => exact absurd hencoding id
  | reducedArray => exact absurd hencoding id
  | latinOnehot => exact iff_of_true fixesRetained_latinOnehot (Or.inl rfl)
  | latinLog => exact iff_of_false not_fixesRetained_latinLog (by simp)
  | reducedLatinOnehot => exact iff_of_false not_fixesRetained_reducedLatinOnehot (by simp)
  | reducedLatinLog => exact iff_of_true fixesRetained_reducedLatinLog (Or.inr rfl)

theorem fixesRetained_iff_latinOnehot :
    Encoding.latinOnehot.IsLatin ∧ Encoding.latinOnehot.FixesRetained := by
  have hlatin : Encoding.latinOnehot.IsLatin := trivial
  exact ⟨hlatin, (fixesRetained_iff hlatin).mpr (Or.inl rfl)⟩

theorem not_fixesRetained_latin :
    ¬∀ encoding : Encoding, encoding.IsLatin → encoding.FixesRetained :=
  fun h => not_fixesRetained_reducedLatinOnehot (h .reducedLatinOnehot trivial)

end LatinSquares.Generator
