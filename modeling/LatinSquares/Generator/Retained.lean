/-
# The units a previous result leaves

`ReducedLatinParser` prints the squares it has read and removes units while it chooses the
colours. What is left are the units of the cells printed green whose row and column have no
red cell. They are whole cells without conflicts, but a cell that shows no symbol or several
is compared with the others like a symbol, and its units make all its variables false.
-/

import LatinSquares.Generator.Replay

namespace LatinSquares.Generator

open LatinSquares.Math

namespace ReducedLatinParser

section Numbers

variable {n t i j v t' i' j' v' : Nat}

theorem oneHotVariable_eq (n t i j v : Nat) :
    oneHotVariable n t i j v = t * (n * n * n) + ((i * n + j) * n + v) + 1 := by
  rw [oneHotVariable]
  ring

/-- Different cells have different variables. -/
theorem oneHotVariable_inj (hi : i < n) (hj : j < n) (hv : v < n) (hi' : i' < n) (hj' : j' < n)
    (hv' : v' < n) (h : oneHotVariable n t i j v = oneHotVariable n t' i' j' v') :
    t = t' ∧ i = i' ∧ j = j' ∧ v = v' := by
  rw [oneHotVariable_eq, oneHotVariable_eq] at h
  have hindex := congrArg (byIndex n n n fun t i j v => (t, i, j, v)) (Nat.succ.inj h)
  rw [byIndex_apply hi hj hv, byIndex_apply hi' hj' hv'] at hindex
  simpa using hindex

/-- The table of square `t` for the units. -/
def unitTable (n t : Nat) : Matrix :=
  matrixOf n n n fun i j v => .var (oneHotVariable n t i j v)

theorem cell_unitTable (hi : i < n) (hj : j < n) :
    (unitTable n t).cell i j = (List.range n).map fun v => .var (oneHotVariable n t i j v) := by
  rw [unitTable, cell_matrixOf hi hj]

end Numbers

section Prefix

variable {n k : Nat} {values extra : List Bool}

/-- A parser that has enough values does not see what follows them. -/
theorem readNVars_append {count : Nat} :
    ExtendedBy (readNVars values count) (readNVars (values ++ extra) count) := by
  intro s read s' hrun
  have hle : s.currentIndex + count ≤ values.length := by
    by_contra hlong
    simp [readNVars, guard, hlong] at hrun
  have hle' : s.currentIndex + count ≤ (values ++ extra).length := by
    rw [List.length_append]
    omega
  have htake : ((values ++ extra).drop s.currentIndex).take count =
      (values.drop s.currentIndex).take count := by
    rw [List.drop_append_of_le_length (by omega), List.take_append_of_le_length]
    rw [List.length_drop]
    omega
  rw [readNVars, run_get_bind, run_guard_bind hle] at hrun
  rw [readNVars, run_get_bind, run_guard_bind hle', htake]
  exact hrun

theorem construct_append (n k : Nat) (values extra : List Bool) :
    ExtendedBy (construct n k values) (construct n k (values ++ extra)) := by
  refine (ExtendedBy.refl _).bind fun others => (ExtendedBy.refl _).bind fun _ =>
    (ExtendedBy.refl _).bind fun first => (ExtendedBy.refl _).bind fun later => ?_
  refine ExtendedBy.bind ?_ fun squares => .refl _
  refine .mapM fun matrix => (ExtendedBy.refl _).bind fun other =>
    .mapM fun line => .mapM fun vars => ?_
  exact readNVars_append.bind fun read => .refl _

end Prefix

/-- The square with the given symbols. -/
def squareOf (n : Nat) (M : Nat → Nat → Int) : List (List Int) :=
  (List.range n).map fun i => (List.range n).map (M i)

section Symbols

variable {n k : Nat} {values : List Bool} {squares : List (List (List Int))} {s : ParserState}

/-- The encoder that has the tables of the parser. -/
def reducedEncoder (n k : Nat) : LatinSquareEncoder where
  reduced := true
  n := n
  k := k
  q := 0

/-- The values as those of the variables `1`, `2` and so on. -/
def valueOf (values : List Bool) : Assignment := fun name => values.getD (name - 1) false

theorem modelValues_valueOf (values : List Bool) :
    modelValues (valueOf values) values.length = values := by
  apply List.ext_getElem
  · rw [modelValues, List.length_map, List.length_range']
  · intro i _ hi
    have hname : 1 + 1 * i - 1 = i := by omega
    simp only [modelValues, List.getElem_map, List.getElem_range', valueOf, hname]
    exact List.getD_eq_getElem _ _ hi

theorem valueOf_append_replicate (values : List Bool) (length : Nat) :
    valueOf (values ++ List.replicate length false) = valueOf values := by
  funext name
  rw [valueOf, valueOf]
  by_cases hlt : name - 1 < values.length
  · rw [List.getD_append _ _ _ _ hlt]
  · rw [List.getD_append_right _ _ _ _ (by omega), List.getD_eq_default values _ (by omega),
      List.getD_eq_getElem?_getD, List.getElem?_replicate]
    split <;> rfl

/-- The number that the values say for a cell of the reduced tables. -/
def symbolOf (n : Nat) (values : List Bool) (t i j : Nat) : Int :=
  let cell := layoutCell n n n (oneHotKind true) t i j
  (parseIntOneHot ((cellNames cell).map (valueOf values)) cell).getD (-1)

/-- What is read off a cell is `-1` or an entry that is true. -/
theorem parseIntOneHotFrom_cases {α : Assignment} {h : Nat → Literal} (hentry : ∀ v, (h v).IsEntry)
    (m first : Nat) (before : List Bool) (result : Int) :
    ∃ it, parseIntOneHotFrom (before ++ (cellNames ((List.range' first m).map h)).map α)
        ((List.range' first m).map h) first before.length result = some it ∧
      (it = -1 ∨ it = result ∨
        ∃ v, first ≤ v ∧ v < first + m ∧ it = v + 1 ∧ (h v).eval α = true) := by
  induction m generalizing first before result with
  | zero => exact ⟨result, rfl, Or.inr (Or.inl rfl)⟩
  | succ m ih =>
      rw [List.range'_succ, List.map_cons, cellNames_cons, List.map_append, ← List.append_assoc,
        parseIntOneHotFrom_cons (hentry first)]
      by_cases htrue : (h first).eval α = true
      · rw [if_pos htrue]
        by_cases hresult : result = -1
        · rw [if_neg (not_not_intro hresult)]
          obtain ⟨it, hit, hcases⟩ := ih (first + 1) (before ++ (h first).names.map α)
            ((first : Int) + 1)
          refine ⟨it, hit, ?_⟩
          rcases hcases with hnone | hlast | ⟨v, hle, hlt, hv⟩
          · exact Or.inl hnone
          · exact Or.inr (Or.inr ⟨first, le_rfl, by omega, hlast, htrue⟩)
          · exact Or.inr (Or.inr ⟨v, by omega, by omega, hv⟩)
        · rw [if_pos hresult]
          exact ⟨-1, rfl, Or.inl rfl⟩
      · rw [if_neg htrue]
        obtain ⟨it, hit, hcases⟩ := ih (first + 1) (before ++ (h first).names.map α) result
        refine ⟨it, hit, ?_⟩
        rcases hcases with hnone | hlast | ⟨v, hle, hlt, hv⟩
        · exact Or.inl hnone
        · exact Or.inr (Or.inl hlast)
        · exact Or.inr (Or.inr ⟨v, by omega, by omega, hv⟩)

/-- What the values say for a cell: that it is the symbol of an entry that is true, or `-1`. -/
theorem parse_symbolOf (n : Nat) (values : List Bool) (t i j : Nat) :
    parseIntOneHot ((cellNames (layoutCell n n n (oneHotKind true) t i j)).map (valueOf values))
        (layoutCell n n n (oneHotKind true) t i j) = some (symbolOf n values t i j) ∧
      (symbolOf n values t i j = -1 ∨ ∃ v < n, symbolOf n values t i j = v + 1 ∧
        (layoutEntry n n n (oneHotKind true) t i j v).eval (valueOf values) = true) := by
  have hentry : ∀ v, (layoutEntry n n n (oneHotKind true) t i j v).IsEntry :=
    isEntry_layoutEntry t i j
  obtain ⟨it, hit, hcases⟩ :=
    parseIntOneHotFrom_cases (α := valueOf values) hentry n 0 [] (-1)
  have hparse : parseIntOneHot ((cellNames (layoutCell n n n (oneHotKind true) t i j)).map
      (valueOf values)) (layoutCell n n n (oneHotKind true) t i j) = some it := by
    rw [layoutCell, List.range_eq_range']
    exact hit
  have hsymbol : symbolOf n values t i j = it := by
    rw [symbolOf, hparse, Option.getD_some]
  rw [hsymbol]
  refine ⟨hparse, ?_⟩
  rcases hcases with hnone | hnone | ⟨v, -, hv, hentry⟩
  · exact Or.inl hnone
  · exact Or.inl hnone
  · exact Or.inr ⟨v, by omega, hentry⟩

/-- The numbers are those the reading loop finds. -/
theorem parsesTo_symbolOf (n k : Nat) (values : List Bool) :
    (reducedEncoder n k).ParsesTo (valueOf values) (symbolOf n values) :=
  fun t _ i _ j _ => (parse_symbolOf n values t i j).1

/-- With a value for every variable of its tables the parser returns. -/
theorem ensures_construct_values (values : List Bool) (hk : 0 < k)
    (hlong : (reducedEncoder n k).coreSize ≤ values.length) :
    Ensures (construct n k values) {} fun squares _ =>
      squares = (List.range k).map fun t => squareOf n (symbolOf n values t) := by
  have hensures : Ensures (construct n k (modelValues (valueOf values) values.length ++ [])) {}
      fun squares _ => squares = (List.range k).map fun t => squareOf n (symbolOf n values t) :=
    LatinSquareEncoder.ensures_construct (e := reducedEncoder n k) rfl hk
      (parsesTo_symbolOf n k values) hlong
  rwa [modelValues_valueOf, List.append_nil] at hensures

/-- What the parser returns is a function of the values. -/
theorem squares_eq (hk : 0 < k) (h : (construct n k values).run {} = some (squares, s)) :
    squares = (List.range k).map fun t => squareOf n (symbolOf n values t) := by
  have hrun := construct_append n k values
    (List.replicate (reducedEncoder n k).coreSize false) _ _ _ h
  refine ((ensures_construct_values _ hk ?_).of_run hrun).trans ?_
  · rw [List.length_append, List.length_replicate]
    exact Nat.le_add_left _ _
  · have hsymbol : symbolOf n (values ++ List.replicate (reducedEncoder n k).coreSize false) =
        symbolOf n values := by
      funext t i j
      rw [symbolOf, symbolOf, valueOf_append_replicate]
    rw [hsymbol]

end Symbols

section Loop

variable {n k : Nat} {values : List Bool} {squares : List (List (List Int))} {s : ParserState}

/-- The reduced tables the parser reads. -/
def readTables (n k : Nat) : List Matrix :=
  (reducedEncoder n k).table 0 :: (List.range' 1 (k - 1)).map (reducedEncoder n k).table

/-- How a run of the parser goes: the loop over the cells starts without units, and the squares
are printed after it. -/
theorem yields_construct :
    Yields (construct n k values) {} fun squares s' => ∃ s₀ s₁,
      s₀.parsedUnits = .empty ∧
      Traversal (SquareStep ((List.range k).map (unitTable n))) (readTables n k).zipIdx s₀ squares
        s₁ ∧
      s'.parsedUnits = (((List.range k).map (unitTable n)).zip squares).foldl
        (fun units p => printSquare units p.1 p.2) s₁.parsedUnits := by
  let unreduced : LatinSquareEncoder := { reducedEncoder n k with reduced := false }
  have hrange : (List.range (k - 1)).length = (List.range' 1 (k - 1)).length := by simp
  have htable : unreduced.tables = (List.range k).map (unitTable n) := by
    refine List.map_congr_left fun t _ => ?_
    rw [LatinSquareEncoder.table, unitTable]
    congr 1
    funext i j v
    exact LatinSquareEncoder.entry_unreduced (e := unreduced) rfl t i j v
  refine (Yields.of_ensures (ensures_allocate_eq
    (LatinSquareEncoder.ensures_unreducedTables (e := unreduced) rfl rfl))).bind ?_
  rintro _ s ⟨⟨rfl, -⟩, hs⟩
  refine (Yields.of_ensures (Ensures.of_modify (Q := fun _ t => t.generator.varCounter = 0 ∧
    t.parsedUnits = .empty) ⟨rfl, by rw [hs]⟩)).bind ?_
  rintro _ t ⟨hcounter, hunits⟩
  refine (Yields.of_ensures (ensures_allocate_eq
    (LatinSquareEncoder.ensures_firstTable (e := reducedEncoder n k) rfl hcounter))).bind ?_
  rintro _ u ⟨⟨rfl, hgen⟩, hu⟩
  rw [mapM_const_congr hrange]
  refine (Yields.of_ensures (ensures_allocate_eq
    (LatinSquareEncoder.ensures_laterTables (e := reducedEncoder n k) rfl (by rw [hgen])))).bind ?_
  rintro _ v ⟨⟨rfl, -⟩, hv⟩
  refine yields_readSquares.bind ?_
  intro squares w hloop
  refine (Yields.of_ensures (Ensures.of_modify (Q := fun _ x => x.parsedUnits =
    (unreduced.tables.zip squares).foldl (fun units p => printSquare units p.1 p.2) w.parsedUnits)
    rfl)).bind ?_
  rintro _ x hx
  refine Yields.of_pure ⟨v, w, ?_, ?_, ?_⟩
  · rw [hv, hu, hunits]
  · rw [← htable]
    exact hloop
  · rw [hx, htable]

/-- The units the loop notes for the numbers `g`. -/
structure Noted (n k : Nat) (units : UnitMap) (g : Nat → Nat → Nat → Int) : Prop where
  ours : ∀ name b, units.find name = some b →
    ∃ t < k, ∃ i < n, ∃ j < n, ∃ v < n, name = oneHotVariable n t i j v
  find_eq : ∀ t < k, ∀ i < n, ∀ j < n, ∀ v < n,
    units.find (oneHotVariable n t i j v) = some (decide ((v : Int) = g t i j - 1))

theorem find_empty (name : Nat) : UnitMap.empty.find name = none := rfl

variable {s₀ s₁ : ParserState}

theorem getElem?_readTables (hk : 0 < k) {t : Nat} (ht : t < k) :
    (readTables n k)[t]? = some ((reducedEncoder n k).table t) := by
  have htables : readTables n k = (List.range k).map (reducedEncoder n k).table := by
    rw [range_eq_zero_cons hk, List.map_cons, rangeUntil, readTables]
  rw [htables, List.getElem?_map, List.getElem?_range ht, Option.map_some]

theorem getElem?_map_range {β : Type} (f : Nat → β) {i length : Nat} {x : β} :
    ((List.range length).map f)[i]? = some x ↔ i < length ∧ f i = x := by
  rw [List.getElem?_map, Option.map_eq_some_iff]
  constructor
  · rintro ⟨y, hy, rfl⟩
    obtain ⟨hi, rfl⟩ := List.getElem?_eq_some_iff.mp hy
    simpa using hi
  · rintro ⟨hi, rfl⟩
    exact ⟨i, List.getElem?_range hi, rfl⟩

theorem getElem?_table {t i : Nat} (hi : i < n) : ((reducedEncoder n k).table t)[i]? =
    some ((List.range n).map fun j => (List.range n).map ((reducedEncoder n k).entry t i j)) :=
  (getElem?_map_range _).mpr ⟨hi, rfl⟩

theorem at_iff {g : Nat → Nat → Nat → Int} {t i j : Nat} {it : Int}
    (hsquares : squares = (List.range k).map fun t => squareOf n (g t)) :
    At squares t i j it ↔ t < k ∧ i < n ∧ j < n ∧ g t i j = it := by
  rw [hsquares, At]
  constructor
  · rintro ⟨square, row, hsquare, hrow, hit⟩
    obtain ⟨ht, rfl⟩ := (getElem?_map_range _).mp hsquare
    obtain ⟨hi, rfl⟩ := (getElem?_map_range _).mp hrow
    obtain ⟨hj, hit⟩ := (getElem?_map_range _).mp hit
    exact ⟨ht, hi, hj, hit⟩
  · rintro ⟨ht, hi, hj, hit⟩
    exact ⟨_, _, (getElem?_map_range _).mpr ⟨ht, rfl⟩, (getElem?_map_range _).mpr ⟨hi, rfl⟩,
      (getElem?_map_range _).mpr ⟨hj, hit⟩⟩

/-- The first table is read even if there is none for its units. -/
theorem pos_of_traversal
    (h : Traversal (SquareStep ((List.range k).map (unitTable n))) (readTables n k).zipIdx s₀
      squares s₁) : 0 < k := by
  by_contra hzero
  obtain ⟨t, square, t', -, ⟨other, hother, -⟩, -⟩ := h.exists_step (i := 0) Keeps.refl
    Keeps.trans (fun _ _ _ _ => SquareStep.keeps) rfl
  rw [List.getElem?_eq_none (by simp; omega)] at hother
  cases hother

/-- What the loop over the cells notes. -/
theorem noted_of_traversal {g : Nat → Nat → Nat → Int} (hs : s₀.parsedUnits = .empty)
    (hsquares : squares = (List.range k).map fun t => squareOf n (g t))
    (h : Traversal (SquareStep ((List.range k).map (unitTable n))) (readTables n k).zipIdx s₀
      squares s₁) : Noted n k s₁.parsedUnits g := by
  have hk := pos_of_traversal h
  have hunits : ∀ t < k, ((List.range k).map (unitTable n))[t]? = some (unitTable n t) :=
    fun t ht => (getElem?_map_range _).mpr ⟨ht, rfl⟩
  have hnoted : ∀ t < k, ∀ i < n, ∀ j < n, ∀ v < n,
      (s₁.parsedUnits.find (oneHotVariable n t i j v)).isSome = true := by
    intro t ht i hi j hj v hv
    obtain ⟨read, other, it, -, hparse, hother, hat, hnames⟩ :=
      exists_read h (getElem?_readTables hk ht) (getElem?_table hi)
        (by rw [List.getElem?_map, List.getElem?_range hj, Option.map_some])
    obtain rfl := Option.some.inj ((hunits t ht).symm.trans hother)
    apply hnames
    rw [cell_unitTable hi hj, cellNames, List.mem_flatMap]
    exact ⟨_, List.mem_map_of_mem (List.mem_range.mpr hv), List.mem_singleton_self _⟩
  have horigin : ∀ name b, s₁.parsedUnits.find name = some b →
      ∃ t < k, ∃ i < n, ∃ j < n, ∃ v < n, name = oneHotVariable n t i j v ∧
        b = decide ((v : Int) = g t i j - 1) := by
    intro name b hname
    rcases unit_origin h hname with ⟨t, i, j, other, it, hother, hat, v, l, hl, hmem, hb⟩ | hstart
    · obtain ⟨ht, hi, hj, rfl⟩ := (at_iff hsquares).mp hat
      obtain rfl := Option.some.inj ((hunits t ht).symm.trans hother)
      rw [cell_unitTable hi hj] at hl
      obtain ⟨hv, rfl⟩ := (getElem?_map_range _).mp hl
      exact ⟨t, ht, i, hi, j, hj, v, hv, List.mem_singleton.mp hmem, hb⟩
    · rw [hs, find_empty] at hstart
      cases hstart
  refine ⟨fun name b hname => ?_, fun t ht i hi j hj v hv => ?_⟩
  · obtain ⟨t, ht, i, hi, j, hj, v, hv, heq, -⟩ := horigin name b hname
    exact ⟨t, ht, i, hi, j, hj, v, hv, heq⟩
  · obtain ⟨b, hb⟩ := Option.isSome_iff_exists.mp (hnoted t ht i hi j hj v hv)
    obtain ⟨t', ht', i', hi', j', hj', v', hv', hname, hvalue⟩ := horigin _ b hb
    obtain ⟨rfl, rfl, rfl, rfl⟩ := oneHotVariable_inj hi hj hv hi' hj' hv' hname
    rw [hb, hvalue]

end Loop

section Printing

variable {n t i j v a b : Nat} {M : Nat → Nat → Int} {units : UnitMap} {name : Nat}

theorem length_dedup_iff {l : List Int} : l.dedup.length = l.length ↔ l.Nodup := by
  rw [← List.dedup_eq_self]
  exact ⟨(List.dedup_sublist l).eq_of_length, fun h => by rw [h]⟩

theorem nodup_map_range_iff {f : Nat → Int} : ((List.range n).map f).Nodup ↔
    ∀ a < n, ∀ b < n, f a = f b → a = b := by
  rw [List.nodup_map_iff_inj_on List.nodup_range]
  simp only [List.mem_range]

theorem count_map_range_eq_one_iff {f : Nat → Int} (ha : a < n) :
    ((List.range n).map f).count (f a) = 1 ↔ ∀ b < n, f b = f a → b = a := by
  have hcount : ((List.range n).map f).count (f a) =
      ((List.range n).filter fun b => f b == f a).length := by
    rw [List.count, List.countP_map, List.countP_eq_length_filter]
    rfl
  have hmem : a ∈ (List.range n).filter fun b => f b == f a := by simp [ha]
  rw [hcount, List.length_eq_one_iff]
  constructor
  · rintro ⟨c, hc⟩ b hb heq
    have hb' : b ∈ (List.range n).filter fun b => f b == f a := by simp [hb, heq]
    rw [hc, List.mem_singleton] at hb' hmem
    rw [hb', hmem]
  · intro hunique
    have hperm : List.Perm ((List.range n).filter fun b => f b == f a) [a] := by
      rw [List.perm_ext_iff_of_nodup (List.nodup_range.filter _) (List.nodup_singleton a)]
      intro b
      rw [List.mem_filter, List.mem_range, beq_iff_eq, List.mem_singleton]
      refine ⟨fun h => hunique b h.1 h.2, ?_⟩
      rintro rfl
      exact ⟨ha, rfl⟩
    exact ⟨a, hperm.eq_singleton⟩

/-- The entries of row `i` differ. -/
abbrev RowDistinct (n : Nat) (M : Nat → Nat → Int) (i : Nat) : Prop :=
  ∀ b < n, ∀ b' < n, M i b = M i b' → b = b'

/-- The entries of column `j` differ. -/
abbrev ColumnDistinct (n : Nat) (M : Nat → Nat → Int) (j : Nat) : Prop :=
  ∀ a < n, ∀ a' < n, M a j = M a' j → a = a'

/-- The entry of the cell is nowhere else in its row and its column. -/
abbrev Single (n : Nat) (M : Nat → Nat → Int) (i j : Nat) : Prop :=
  (∀ b < n, M i b = M i j → b = j) ∧ ∀ a < n, M a j = M i j → a = i

theorem transpose_squareOf (hn : 0 < n) :
    transpose (squareOf n M) = (List.range n).map fun j => (List.range n).map fun i => M i j :=
  transpose_map_range hn M

theorem getD_squareOf (hi : i < n) : (squareOf n M).getD i [] = (List.range n).map (M i) := by
  rw [squareOf, List.getD_eq_getElem?_getD, (getElem?_map_range _).mpr ⟨hi, rfl⟩,
    Option.getD_some]

theorem color_squareOf (hi : i < n) (hj : j < n) : color (squareOf n M) i j =
    if RowDistinct n M i ∧ ColumnDistinct n M j then .green
    else if ¬Single n M i j then .red
    else if RowDistinct n M i ∨ ColumnDistinct n M j then .yellow else .reset := by
  have hcolumn : (transpose (squareOf n M)).getD j [] = (List.range n).map fun a => M a j := by
    rw [transpose_squareOf (by omega), List.getD_eq_getElem?_getD,
      (getElem?_map_range _).mpr ⟨hj, rfl⟩, Option.getD_some]
  have hsymbol : ((List.range n).map (M i)).getD j 0 = M i j := by
    rw [List.getD_eq_getElem?_getD, (getElem?_map_range _).mpr ⟨hj, rfl⟩, Option.getD_some]
  have hrows : ((List.range n).map (M i)).dedup.length = ((List.range n).map (M i)).length ↔
      RowDistinct n M i := length_dedup_iff.trans nodup_map_range_iff
  have hcolumns : ((List.range n).map fun a => M a j).dedup.length =
      ((List.range n).map (M i)).length ↔ ColumnDistinct n M j := by
    rw [List.length_map, ← List.length_map (f := fun a => M a j), length_dedup_iff,
      nodup_map_range_iff]
  have hsingle : (((List.range n).map (M i)).count (M i j) ≠ 1 ∨
      ((List.range n).map fun a => M a j).count (M i j) ≠ 1) ↔ ¬Single n M i j := by
    rw [Single, not_and_or, Ne, Ne, count_map_range_eq_one_iff hj,
      count_map_range_eq_one_iff (f := fun a => M a j) hi]
  simp only [color, getD_squareOf hi, hcolumn, hsymbol, hrows, hcolumns, hsingle]

/-- No entry repeats in the row or the column of the cell, and no other cell of its row or
column shows a symbol twice in its own column or row. -/
structure Kept (n : Nat) (M : Nat → Nat → Int) (i j : Nat) : Prop where
  row : RowDistinct n M i
  column : ColumnDistinct n M j
  crossColumns : ∀ b < n, ∀ a < n, M a b = M i b → a = i
  crossRows : ∀ a < n, ∀ b < n, M a b = M a j → b = j

/-- A cell printed in this colour takes the units of cell `(i, j)` away. -/
def Discards (a b i j : Nat) : Color → Prop
  | .green => False
  | .red => a = i ∨ b = j
  | .yellow => a = i ∧ b = j
  | .reset => a = i ∧ b = j

theorem mem_names_cell_unitTable (ha : a < n) (hb : b < n) :
    name ∈ ((unitTable n t).cell a b).flatMap Literal.names ↔
      ∃ v < n, name = oneHotVariable n t a b v := by
  simp only [cell_unitTable ha hb, List.flatMap_map, List.mem_flatMap, List.mem_range]
  exact exists_congr fun v => and_congr_right fun _ => List.mem_singleton

theorem mem_names_column (hb : b < n) :
    name ∈ ((unitTable n t).flatMap fun line => line.getD b []).flatMap Literal.names ↔
      ∃ i < n, ∃ v < n, name = oneHotVariable n t i b v := by
  have hcell : ∀ i < n, ((List.range n).map fun j => (List.range n).map fun v =>
      Literal.var (oneHotVariable n t i j v)).getD b [] = (unitTable n t).cell i b := by
    intro i hi
    rw [cell_unitTable hi hb, List.getD_eq_getElem?_getD, (getElem?_map_range _).mpr ⟨hb, rfl⟩,
      Option.getD_some]
  simp only [unitTable, matrixOf, List.flatMap_map, List.flatMap_assoc, List.mem_flatMap,
    List.mem_range]
  refine exists_congr fun i => and_congr_right fun hi => ?_
  rw [hcell i hi]
  exact List.mem_flatMap.symm.trans (mem_names_cell_unitTable hi hb)

theorem mem_names_row (ha : a < n) :
    name ∈ ((unitTable n t).getD a []).flatten.flatMap Literal.names ↔
      ∃ j < n, ∃ v < n, name = oneHotVariable n t a j v := by
  have hrow : (unitTable n t).getD a [] =
      (List.range n).map fun j => (unitTable n t).cell a j := by
    rw [unitTable, matrixOf, List.getD_eq_getElem?_getD, (getElem?_map_range _).mpr ⟨ha, rfl⟩,
      Option.getD_some]
    exact List.map_congr_left fun j hj => (cell_unitTable ha (List.mem_range.mp hj)).symm
  rw [hrow, ← List.flatMap_def, List.flatMap_assoc, List.mem_flatMap]
  simp only [List.mem_range]
  exact exists_congr fun j => and_congr_right fun hj => mem_names_cell_unitTable ha hj

theorem mem_names_discarded (ha : a < n) (hb : b < n) {c : Color} :
    name ∈ (discarded (unitTable n t) a b c).flatMap Literal.names ↔
      ∃ i < n, ∃ j < n, Discards a b i j c ∧ ∃ v < n, name = oneHotVariable n t i j v := by
  have hcell : name ∈ ((unitTable n t).cell a b).flatMap Literal.names ↔
      ∃ i < n, ∃ j < n, (a = i ∧ b = j) ∧ ∃ v < n, name = oneHotVariable n t i j v := by
    rw [mem_names_cell_unitTable ha hb]
    constructor
    · intro h
      exact ⟨a, ha, b, hb, ⟨rfl, rfl⟩, h⟩
    · rintro ⟨i, -, j, -, ⟨rfl, rfl⟩, h⟩
      exact h
  cases c with
  | green => simp [discarded, Discards]
  | yellow => exact hcell
  | reset => exact hcell
  | red =>
      rw [discarded, List.flatMap_append, List.mem_append, mem_names_column hb, mem_names_row ha]
      constructor
      · rintro (⟨i, hi, h⟩ | ⟨j, hj, h⟩)
        · exact ⟨i, hi, b, hb, Or.inr rfl, h⟩
        · exact ⟨a, ha, j, hj, Or.inl rfl, h⟩
      · rintro ⟨i, hi, j, hj, rfl | rfl, h⟩
        · exact Or.inr ⟨j, hj, h⟩
        · exact Or.inl ⟨i, hi, h⟩

/-- The variables whose units go while a square is printed. -/
def discardedNames (otherMatrix : Matrix) (matrix : List (List Int)) : List Nat :=
  (List.range matrix.length).flatMap fun j =>
    (List.range (matrix.getD j []).length).flatMap fun index =>
      (discarded otherMatrix j index (color matrix j index)).flatMap Literal.names

theorem mem_discardedNames : name ∈ discardedNames (unitTable n t) (squareOf n M) ↔
    ∃ a < n, ∃ b < n, ∃ i < n, ∃ j < n, Discards a b i j (color (squareOf n M) a b) ∧
      ∃ v < n, name = oneHotVariable n t i j v := by
  have hlength : (squareOf n M).length = n := by rw [squareOf, List.length_map, List.length_range]
  rw [discardedNames, hlength, List.mem_flatMap]
  simp only [List.mem_range]
  refine exists_congr fun a => and_congr_right fun ha => ?_
  rw [getD_squareOf ha, List.length_map, List.length_range, List.mem_flatMap]
  simp only [List.mem_range]
  exact exists_congr fun b => and_congr_right fun hb => mem_names_discarded ha hb

/-- Printing the squares discards the units of their coloured cells. -/
theorem find_printSquares {k : Nat} {g : Nat → Nat → Nat → Int} (other : Nat) :
    ((((List.range k).map (unitTable n)).zip ((List.range k).map fun t => squareOf n (g t))).foldl
      (fun units p => printSquare units p.1 p.2) units).find other =
    if ∃ t < k, other ∈ discardedNames (unitTable n t) (squareOf n (g t)) then none
    else units.find other := by
  have hnames : ∀ squares : List (Matrix × List (List Int)),
      squares.foldl (fun units p => printSquare units p.1 p.2) units =
        (squares.flatMap fun p => discardedNames p.1 p.2).foldl UnitMap.remove units := by
    intro squares
    rw [List.foldl_flatMap]
    rfl
  rw [hnames, UnitMap.find_foldl_remove, List.zip_map', List.flatMap_map]
  simp only [List.mem_flatMap, List.mem_range]

theorem color_eq_green_iff (hi : i < n) (hj : j < n) :
    color (squareOf n M) i j = .green ↔ RowDistinct n M i ∧ ColumnDistinct n M j := by
  rw [color_squareOf hi hj]
  split_ifs with hgreen
  · exact iff_of_true rfl hgreen
  all_goals exact iff_of_false (by simp) hgreen

/-- A cell is red when its entry is repeated in its row or its column. -/
theorem color_eq_red_iff (hi : i < n) (hj : j < n) :
    color (squareOf n M) i j = .red ↔ ¬Single n M i j := by
  rw [color_squareOf hi hj]
  by_cases hgreen : RowDistinct n M i ∧ ColumnDistinct n M j
  · have hsingle : Single n M i j :=
      ⟨fun b hb h => hgreen.1 b hb j hj h, fun a ha h => hgreen.2 a ha i hi h⟩
    rw [if_pos hgreen]
    exact iff_of_false (by simp) (not_not_intro hsingle)
  · rw [if_neg hgreen]
    by_cases hsingle : Single n M i j
    · rw [if_neg (not_not_intro hsingle)]
      split_ifs
      all_goals exact iff_of_false (by simp) (not_not_intro hsingle)
    · rw [if_pos hsingle]
      exact iff_of_true rfl hsingle

/-- The units of a cell stay exactly when the printing discards them for no cell. -/
theorem kept_iff (hi : i < n) (hj : j < n) : Kept n M i j ↔
    ∀ a < n, ∀ b < n, ¬Discards a b i j (color (squareOf n M) a b) := by
  constructor
  · intro hkept a ha b hb hdiscards
    have hgreen := (color_eq_green_iff hi hj).mpr ⟨hkept.row, hkept.column⟩
    cases hcolor : color (squareOf n M) a b with
    | green =>
        rw [hcolor] at hdiscards
        exact hdiscards
    | red =>
        rw [hcolor] at hdiscards
        apply (color_eq_red_iff ha hb).mp hcolor
        rcases hdiscards with rfl | rfl
        · exact ⟨fun b' hb' h => hkept.row b' hb' b hb h, hkept.crossColumns b hb⟩
        · exact ⟨hkept.crossRows a ha, fun a' ha' h => hkept.column a' ha' a ha h⟩
    | yellow =>
        rw [hcolor] at hdiscards
        obtain ⟨rfl, rfl⟩ := hdiscards
        rw [hcolor] at hgreen
        cases hgreen
    | reset =>
        rw [hcolor] at hdiscards
        obtain ⟨rfl, rfl⟩ := hdiscards
        rw [hcolor] at hgreen
        cases hgreen
  · intro h
    -- every colour but green discards the cell itself
    have hgreen : color (squareOf n M) i j = .green := by
      have hown := h i hi j hj
      cases hcolor : color (squareOf n M) i j with
      | green => rfl
      | red => exact absurd (Or.inl rfl) (hcolor ▸ hown)
      | yellow => exact absurd ⟨rfl, rfl⟩ (hcolor ▸ hown)
      | reset => exact absurd ⟨rfl, rfl⟩ (hcolor ▸ hown)
    -- a red cell discards its row and its column
    have hsingle : ∀ a < n, ∀ b < n, a = i ∨ b = j → Single n M a b := by
      intro a ha b hb hline
      by_contra hnot
      have hred := (color_eq_red_iff ha hb).mpr hnot
      exact h a ha b hb (hred ▸ hline)
    obtain ⟨hrow, hcolumn⟩ := (color_eq_green_iff hi hj).mp hgreen
    exact ⟨hrow, hcolumn, fun b hb => (hsingle i hi b hb (Or.inl rfl)).2,
      fun a ha => (hsingle a ha j hj (Or.inr rfl)).1⟩

end Printing

section Retained

variable {n k t i j v : Nat} {values : List Bool} {squares : List (List (List Int))}
variable {s : ParserState} {units : UnitMap} {g : Nat → Nat → Nat → Int}

/-- The parser keeps units for the cell. -/
def Retained (units : UnitMap) (n t i j : Nat) : Prop :=
  ∃ v < n, (units.find (oneHotVariable n t i j v)).isSome = true

/-- The units that are left say the numbers of the cells that are kept. -/
structure Left (n k : Nat) (g : Nat → Nat → Nat → Int) (units : UnitMap) : Prop where
  ours : ∀ name b, units.find name = some b →
    ∃ t < k, ∃ i < n, ∃ j < n, ∃ v < n, name = oneHotVariable n t i j v
  find_kept : ∀ t < k, ∀ i < n, ∀ j < n, Kept n (g t) i j → ∀ v < n,
    units.find (oneHotVariable n t i j v) = some (decide ((v : Int) = g t i j - 1))
  find_other : ∀ t < k, ∀ i < n, ∀ j < n, ¬Kept n (g t) i j → ∀ v < n,
    units.find (oneHotVariable n t i j v) = none

theorem mem_names_squares (ht : t < k) (hi : i < n) (hj : j < n) (hv : v < n) :
    (∃ t' < k, oneHotVariable n t i j v ∈ discardedNames (unitTable n t') (squareOf n (g t'))) ↔
      ¬Kept n (g t) i j := by
  rw [kept_iff hi hj]
  constructor
  · rintro ⟨t', -, hname⟩ hkept
    obtain ⟨a, ha, b, hb, i', hi', j', hj', hdiscards, v', hv', heq⟩ := mem_discardedNames.mp hname
    obtain ⟨rfl, rfl, rfl, rfl⟩ := oneHotVariable_inj hi hj hv hi' hj' hv' heq
    exact hkept a ha b hb hdiscards
  · intro h
    push Not at h
    obtain ⟨a, ha, b, hb, hdiscards⟩ := h
    exact ⟨t, ht, mem_discardedNames.mpr ⟨a, ha, b, hb, i, hi, j, hj, hdiscards, v, hv, rfl⟩⟩

/-- What the parser leaves. -/
theorem left_of_construct (h : (construct n k values).run {} = some (squares, s)) :
    0 < k ∧ Left n k (symbolOf n values) s.parsedUnits := by
  obtain ⟨s₀, s₁, hempty, hloop, hunits⟩ := yields_construct _ _ h
  have hk := pos_of_traversal hloop
  have hsquares := squares_eq hk h
  have hnoted := noted_of_traversal hempty hsquares hloop
  rw [hsquares] at hunits
  refine ⟨hk, fun name b hname => ?_, fun t ht i hi j hj hkept v hv => ?_,
    fun t ht i hi j hj hkept v hv => ?_⟩
  · rw [hunits, find_printSquares] at hname
    split at hname
    · cases hname
    · exact hnoted.ours name b hname
  · rw [hunits, find_printSquares, if_neg ((mem_names_squares ht hi hj hv).not_left.mpr hkept)]
    exact hnoted.find_eq t ht i hi j hj v hv
  · rw [hunits, find_printSquares, if_pos ((mem_names_squares ht hi hj hv).mpr hkept)]

/-- Exactly the cells that are kept have units. -/
theorem Left.retained_iff (h : Left n k g units) (ht : t < k) (hi : i < n) (hj : j < n) :
    Retained units n t i j ↔ Kept n (g t) i j := by
  constructor
  · rintro ⟨v, hv, hsome⟩
    by_contra hkept
    rw [h.find_other t ht i hi j hj hkept v hv] at hsome
    cases hsome
  · intro hkept
    refine ⟨0, by omega, ?_⟩
    rw [h.find_kept t ht i hi j hj hkept 0 (by omega)]
    rfl

/-- What is left of the units are whole cells, one variable of a cell is true and it is that of
the symbol read for the cell, and the cells of a row or a column have different symbols. -/
structure RetainsCells (n k : Nat) (squares : List (List (List Int))) (units : UnitMap) :
    Prop where
  ours : ∀ name b, units.find name = some b →
    ∃ t < k, ∃ i < n, ∃ j < n, ∃ v < n, name = oneHotVariable n t i j v
  whole : ∀ t < k, ∀ i < n, ∀ j < n, Retained units n t i j →
    ∀ v < n, (units.find (oneHotVariable n t i j v)).isSome = true
  symbol : ∀ t < k, ∀ i < n, ∀ j < n, Retained units n t i j → ∃ w < n,
    At squares t i j (w + 1) ∧ ∀ v < n, (units.find (oneHotVariable n t i j v) = some true ↔ v = w)
  row : ∀ t < k, ∀ i < n, ∀ j < n, ∀ j' < n, ∀ it, Retained units n t i j →
    Retained units n t i j' → At squares t i j it → At squares t i j' it → j = j'
  column : ∀ t < k, ∀ i < n, ∀ i' < n, ∀ j < n, ∀ it, Retained units n t i j →
    Retained units n t i' j → At squares t i j it → At squares t i' j it → i = i'

/-- A cell that is kept shows a symbol, if the parser leaves what it should. -/
theorem RetainsCells.symbolOf_ne (hretains : RetainsCells n k squares s.parsedUnits)
    (h : (construct n k values).run {} = some (squares, s)) (ht : t < k) (hi : i < n) (hj : j < n)
    (hkept : Kept n (symbolOf n values t) i j) : symbolOf n values t i j ≠ -1 := by
  obtain ⟨hk, hleft⟩ := left_of_construct h
  obtain ⟨w, -, hw, -⟩ :=
    hretains.symbol t ht i hi j hj ((hleft.retained_iff ht hi hj).mpr hkept)
  obtain ⟨-, -, -, hsymbol⟩ := (at_iff (squares_eq hk h)).mp hw
  omega

/-- The parser leaves what it should unless a cell that is read as no symbol or as several
passes for a symbol. -/
theorem retainsCells_iff (h : (construct n k values).run {} = some (squares, s)) :
    RetainsCells n k squares s.parsedUnits ↔ ∀ t < k, ∀ i < n, ∀ j < n,
      symbolOf n values t i j = -1 → ¬Kept n (symbolOf n values t) i j := by
  obtain ⟨hk, hleft⟩ := left_of_construct h
  have hat : ∀ {t i j it}, At squares t i j it ↔
      t < k ∧ i < n ∧ j < n ∧ symbolOf n values t i j = it := at_iff (squares_eq hk h)
  constructor
  · intro hretains t ht i hi j hj hnone hkept
    exact hretains.symbolOf_ne h ht hi hj hkept hnone
  · intro hkept
    refine ⟨hleft.ours, ?_, ?_, ?_, ?_⟩
    · intro t ht i hi j hj hretained v hv
      rw [hleft.find_kept t ht i hi j hj ((hleft.retained_iff ht hi hj).mp hretained) v hv]
      rfl
    · intro t ht i hi j hj hretained
      have hcell := (hleft.retained_iff ht hi hj).mp hretained
      rcases (parse_symbolOf n values t i j).2 with hnone | ⟨w, hw, hsymbol, -⟩
      · exact absurd hcell (hkept t ht i hi j hj hnone)
      · refine ⟨w, hw, hat.mpr ⟨ht, hi, hj, hsymbol⟩, fun v hv => ?_⟩
        rw [hleft.find_kept t ht i hi j hj hcell v hv, Option.some_inj, decide_eq_true_iff]
        omega
    · intro t ht i hi j hj j' hj' it hretained _ hit hit'
      obtain ⟨-, -, -, hsymbol⟩ := hat.mp hit
      obtain ⟨-, -, -, hsymbol'⟩ := hat.mp hit'
      have hcell := (hleft.retained_iff ht hi hj).mp hretained
      exact hcell.row j hj j' hj' (hsymbol.trans hsymbol'.symm)
    · intro t ht i hi i' hi' j hj it hretained _ hit hit'
      obtain ⟨-, -, -, hsymbol⟩ := hat.mp hit
      obtain ⟨-, -, -, hsymbol'⟩ := hat.mp hit'
      have hcell := (hleft.retained_iff ht hi hj).mp hretained
      exact hcell.column i hi i' hi' (hsymbol.trans hsymbol'.symm)

/-- The values of the cyclic square of order 3. -/
theorem retainsCells_cyclic : ∃ squares s,
    (construct 3 1 [false, true, true, true, false, true]).run {} = some (squares, s) ∧
      RetainsCells 3 1 squares s.parsedUnits := by
  obtain ⟨squares, s, hrun, -⟩ := ensures_construct_values (n := 3) (k := 1)
    [false, true, true, true, false, true] (by decide) (by decide)
  refine ⟨squares, s, hrun, (retainsCells_iff hrun).mpr fun t ht i hi j hj hnone _ => ?_⟩
  have hsymbols : ∀ t < 1, ∀ i < 3, ∀ j < 3,
      symbolOf 3 [false, true, true, true, false, true] t i j ≠ -1 := by decide
  exact hsymbols t ht i hi j hj hnone

/-- The middle cell shows no symbol and is kept. -/
theorem middle_noSymbol_kept : ¬∀ (n k : Nat) (values : List Bool)
    (squares : List (List (List Int))) (s : ParserState),
    (construct n k values).run {} = some (squares, s) →
      RetainsCells n k squares s.parsedUnits := by
  intro hall
  obtain ⟨squares, s, hrun, -⟩ := ensures_construct_values (n := 3) (k := 1)
    [false, false, true, true, false, true] (by decide) (by decide)
  have hkept : Kept 3 (symbolOf 3 [false, false, true, true, false, true] 0) 1 1 :=
    ⟨by decide, by decide, by decide, by decide⟩
  exact (hall 3 1 _ squares s hrun).symbolOf_ne hrun (by decide) (by decide) (by decide) hkept
    (by decide)

end Retained

end ReducedLatinParser

end LatinSquares.Generator
