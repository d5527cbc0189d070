/-
# Reading a previous result

`EncodeCommand` reads an earlier answer with `ReducedLatinParser`. Its loop goes from cell to
cell, decodes the variables of the reduced tables and notes for the variables of the unreduced
table which symbol was read. Every unit it leaves comes from the cell its variable belongs to,
and every cell leaves units.
-/

import LatinSquares.Generator.Decoding

namespace LatinSquares.Generator

open LatinSquares.Math

namespace UnitMap

variable {units : UnitMap} {name other : Nat} {value b : Bool}

theorem lookup_cons_eq (p : Nat × Bool) (entries : List (Nat × Bool)) :
    (p :: entries).lookup other = if other = p.1 then some p.2 else entries.lookup other := by
  rw [List.lookup_cons]
  by_cases h : other = p.1
  · simp [h]
  · rw [beq_eq_false_iff_ne.mpr h, if_neg h]

theorem lookup_eq_none {entries : List (Nat × Bool)} (h : other ∉ entries.map Prod.fst) :
    entries.lookup other = none := by
  induction entries with
  | nil => rfl
  | cons p entries ih =>
      rw [List.map_cons, List.mem_cons, not_or] at h
      rw [lookup_cons_eq, if_neg h.1, ih h.2]

/-- Replacing the value of a key. -/
theorem lookup_replace {entries : List (Nat × Bool)} (hmem : name ∈ entries.map Prod.fst) :
    (entries.map fun p => if p.1 = name then (name, value) else p).lookup other =
      if other = name then some value else entries.lookup other := by
  induction entries with
  | nil => cases hmem
  | cons p entries ih =>
      rw [List.map_cons, lookup_cons_eq, lookup_cons_eq]
      by_cases hp : p.1 = name
      · rw [if_pos hp, hp]
        by_cases hother : other = name
        · rw [if_pos hother, if_pos hother]
        · by_cases htail : name ∈ entries.map Prod.fst
          · simp only [if_neg hother, ih htail]
          · have hsame : (entries.map fun p => if p.1 = name then (name, value) else p) =
                entries := by
              refine (List.map_congr_left fun p hp => ?_).trans (List.map_id entries)
              have hne : p.1 ≠ name := fun heq => htail (heq ▸ List.mem_map_of_mem hp)
              rw [if_neg hne, id]
            rw [if_neg hother, if_neg hother, if_neg hother, hsame]
      · have htail : name ∈ entries.map Prod.fst := by
          rw [List.map_cons, List.mem_cons] at hmem
          exact hmem.resolve_left fun heq => hp heq.symm
        rw [if_neg hp, ih htail]
        by_cases hother : other = name
        · have hne : other ≠ p.1 := fun heq => hp (heq.symm.trans hother)
          rw [if_pos hother, if_neg hne, if_pos hother]
        · simp only [if_neg hother]

theorem find_put : (units.put name value).find other =
    if other = name then some value else units.find other := by
  rw [find, put]
  split
  · next hmem => exact lookup_replace hmem
  · next hmem =>
      rw [List.lookup_append]
      by_cases hother : other = name
      · subst hother
        rw [lookup_eq_none hmem, lookup_cons_eq, if_pos rfl, if_pos rfl]
        rfl
      · rw [lookup_cons_eq, if_neg hother, if_neg hother]
        exact Option.or_none

theorem lookup_filter (entries : List (Nat × Bool)) :
    (entries.filter fun p => p.1 ≠ name).lookup other =
      if other = name then none else entries.lookup other := by
  induction entries with
  | nil => simp
  | cons p entries ih =>
      rw [List.filter_cons, lookup_cons_eq]
      by_cases hp : p.1 = name
      · rw [if_neg (by simpa using hp), ih, hp]
        by_cases hother : other = name
        · simp only [if_pos hother]
        · simp only [if_neg hother]
      · rw [if_pos (by simpa using hp), lookup_cons_eq, ih]
        by_cases hother : other = name
        · rw [if_pos hother, if_pos hother, if_neg fun heq => hp (heq.symm.trans hother)]
        · simp only [if_neg hother]

theorem find_remove : (units.remove name).find other =
    if other = name then none else units.find other :=
  lookup_filter units.entries

theorem find_foldl_remove (names : List Nat) : (names.foldl remove units).find other =
    if other ∈ names then none else units.find other := by
  induction names generalizing units with
  | nil => simp
  | cons name names ih =>
      rw [List.foldl_cons, ih, find_remove]
      by_cases hmem : other ∈ names <;> by_cases hother : other = name <;> simp [hmem, hother]

end UnitMap

namespace ReducedLatinParser

section Units

variable {cell : List Literal} {it : Int} {units : UnitMap} {name : Nat} {b : Bool}

/-- A unit of a cell comes from one of its literals. -/
theorem find_putCell (h : (putCell units cell it).find name = some b) :
    (∃ (v : Nat) (l : Literal), cell[v]? = some l ∧ name ∈ l.names ∧
      b = decide ((v : Int) = it - 1)) ∨ units.find name = some b := by
  have hfold : ∀ (entries : List (Nat × Nat)) (units : UnitMap),
      (entries.foldl (fun units p => units.put p.1 (decide ((p.2 : Int) = it - 1))) units).find
        name = some b →
      (∃ v, (name, v) ∈ entries ∧ b = decide ((v : Int) = it - 1)) ∨ units.find name = some b := by
    intro entries
    induction entries with
    | nil => exact fun units h => Or.inr h
    | cons p entries ih =>
        intro units h
        rcases ih _ h with ⟨v, hv, hb⟩ | hput
        · exact Or.inl ⟨v, List.mem_cons_of_mem _ hv, hb⟩
        · rw [UnitMap.find_put] at hput
          split at hput
          · next hname =>
              exact Or.inl ⟨p.2, by rw [hname]; exact List.mem_cons_self,
                (Option.some.inj hput).symm⟩
          · exact Or.inr hput
  rcases hfold _ _ h with ⟨v, hv, hb⟩ | hbefore
  · obtain ⟨p, hp, hname⟩ := List.mem_flatMap.mp hv
    obtain ⟨other, hother, heq⟩ := List.mem_map.mp hname
    obtain ⟨rfl, rfl⟩ := Prod.mk.inj heq
    exact Or.inl ⟨p.2, p.1, List.mem_zipIdx_iff_getElem?.mp hp, hother, hb⟩
  · exact Or.inr hbefore

/-- Every variable of a cell has a unit afterwards, and no unit is lost. -/
theorem isSome_putCell (h : name ∈ cellNames cell ∨ (units.find name).isSome = true) :
    ((putCell units cell it).find name).isSome = true := by
  have hfold : ∀ (entries : List (Nat × Nat)) (units : UnitMap),
      name ∈ entries.map Prod.fst ∨ (units.find name).isSome = true →
      ((entries.foldl (fun units p => units.put p.1 (decide ((p.2 : Int) = it - 1))) units).find
        name).isSome = true := by
    intro entries
    induction entries with
    | nil => exact fun units h => h.resolve_left (by simp)
    | cons p entries ih =>
        intro units h
        refine ih _ ?_
        rw [UnitMap.find_put]
        by_cases hname : name = p.1
        · exact Or.inr (by rw [if_pos hname]; rfl)
        · rw [if_neg hname]
          exact h.imp_left fun hmem => (List.mem_cons.mp hmem).resolve_left hname
  refine hfold _ _ (h.imp_left fun hmem => ?_)
  obtain ⟨l, hl, hname⟩ := List.mem_flatMap.mp hmem
  obtain ⟨v, hv⟩ := List.mem_iff_getElem?.mp hl
  refine List.mem_map.mpr ⟨(name, v), List.mem_flatMap.mpr ⟨(l, v), ?_, ?_⟩, rfl⟩
  · exact List.mem_zipIdx_iff_getElem?.mpr hv
  · exact List.mem_map_of_mem hname

end Units

section Loop

variable {values : List Bool} {others tables : List Matrix} {s s' : ParserState}
variable {squares : List (List (List Int))}

/-- What happens at one cell. -/
def CellStep (other : Matrix) (j : Nat) (vars : List Literal × Nat) (s : ParserState) (it : Int)
    (s' : ParserState) : Prop :=
  (∃ read, read.length = variableCount vars.1 ∧ parseIntOneHot read vars.1 = some it) ∧
    s'.parsedUnits = putCell s.parsedUnits (other.cell j vars.2) it

/-- What happens along a line. -/
def LineStep (other : Matrix) (line : List (List Literal) × Nat) (s : ParserState)
    (its : List Int) (s' : ParserState) : Prop :=
  Traversal (CellStep other line.2) line.1.zipIdx s its s'

/-- What happens to a square. -/
def SquareStep (others : List Matrix) (matrix : Matrix × Nat) (s : ParserState)
    (square : List (List Int)) (s' : ParserState) : Prop :=
  ∃ other, others[matrix.2]? = some other ∧
    Traversal (LineStep other) matrix.1.zipIdx s square s'

theorem yields_readNVars {n : Nat} : Yields (readNVars values n) s fun read s' =>
    read.length = n ∧ s'.parsedUnits = s.parsedUnits := by
  refine (Yields.of_ensures (Ensures.of_get (Q := fun a t => a = s ∧ t = s) ⟨rfl, rfl⟩)).bind ?_
  rintro t u ⟨rfl, rfl⟩
  refine (Yields.of_guard (Q := fun _ t => u.currentIndex + n ≤ values.length ∧ t = u) fun h =>
    ⟨h, rfl⟩).bind ?_
  rintro _ u ⟨hle, rfl⟩
  rintro read s' hrun
  cases hrun
  refine ⟨?_, rfl⟩
  rw [List.length_take, List.length_drop]
  omega

/-- The loop goes from cell to cell. -/
theorem yields_readSquares :
    Yields (readSquares values others tables) s
      (Traversal (SquareStep others) tables.zipIdx s) := by
  refine Yields.mapM fun matrix _ s => ?_
  refine (Yields.of_lift (Q := fun other u => others[matrix.2]? = some other ∧ u = s)
    fun other h => ⟨h, rfl⟩).bind ?_
  rintro other s ⟨hother, rfl⟩
  refine (Yields.mapM (R := LineStep other) fun line _ s => Yields.mapM fun vars _ s => ?_).mono
    fun square s' h => ⟨other, hother, h⟩
  refine yields_readNVars.bind ?_
  rintro read u ⟨hlength, hunits⟩
  refine (Yields.of_lift (Q := fun it t => parseIntOneHot read vars.1 = some it ∧ t = u)
    fun it h => ⟨h, rfl⟩).bind ?_
  rintro it u ⟨hparse, rfl⟩
  refine (Yields.of_ensures (Ensures.of_modify (Q := fun _ t =>
    t.parsedUnits = putCell u.parsedUnits (other.cell line.2 vars.2) it) rfl)).bind ?_
  rintro _ t ht
  exact Yields.of_pure ⟨⟨read, hlength, hparse⟩, by rw [ht, hunits]⟩

theorem index_of_zipIdx {β : Type} {xs : List β} {i : Nat} {x : β × Nat}
    (hx : xs.zipIdx[i]? = some x) : xs[i]? = some x.1 ∧ x.2 = i := by
  rw [List.getElem?_zipIdx] at hx
  obtain ⟨y, hy, rfl⟩ := Option.map_eq_some_iff.mp hx
  exact ⟨hy, Nat.zero_add i⟩

theorem getElem?_zipIdx_of {β : Type} {xs : List β} {i : Nat} {x : β} (hx : xs[i]? = some x) :
    xs.zipIdx[i]? = some (x, i) := by
  rw [List.getElem?_zipIdx, hx, Option.map_some, Nat.zero_add]

/-- The unit is what `it` says about a literal of cell `(j, l)`. -/
def Source (other : Matrix) (j l name : Nat) (b : Bool) (it : Int) : Prop :=
  ∃ (v : Nat) (literal : Literal), (other.cell j l)[v]? = some literal ∧ name ∈ literal.names ∧
    b = decide ((v : Int) = it - 1)

variable {name : Nat} {b : Bool}

theorem line_origin {other : Matrix} {line : List (List Literal) × Nat} {its : List Int}
    (h : LineStep other line s its s') (hunit : s'.parsedUnits.find name = some b) :
    (∃ (l : Nat) (it : Int), its[l]? = some it ∧ Source other line.2 l name b it) ∨
      s.parsedUnits.find name = some b := by
  have hstep : ∀ vars s it s', CellStep other line.2 vars s it s' →
      s'.parsedUnits.find name = some b →
      Source other line.2 vars.2 name b it ∨ s.parsedUnits.find name = some b := by
    rintro vars s it s' ⟨-, hput⟩ hunit
    rw [hput] at hunit
    exact find_putCell hunit
  refine (h.origin (P := fun s => s.parsedUnits.find name = some b) hstep hunit).imp_left ?_
  rintro ⟨l, vars, it, hvars, hit, hsource⟩
  rw [(index_of_zipIdx hvars).2] at hsource
  exact ⟨l, it, hit, hsource⟩

theorem square_origin {matrix : Matrix × Nat} {square : List (List Int)}
    (h : SquareStep others matrix s square s') (hunit : s'.parsedUnits.find name = some b) :
    (∃ (other : Matrix) (j l : Nat) (row : List Int) (it : Int), others[matrix.2]? = some other ∧
      square[j]? = some row ∧ row[l]? = some it ∧ Source other j l name b it) ∨
      s.parsedUnits.find name = some b := by
  obtain ⟨other, hother, h⟩ := h
  refine (h.origin (P := fun s => s.parsedUnits.find name = some b)
    (fun line s its s' h hunit => line_origin h hunit) hunit).imp_left ?_
  rintro ⟨j, line, row, hline, hrow, l, it, hit, hsource⟩
  rw [(index_of_zipIdx hline).2] at hsource
  exact ⟨other, j, l, row, it, hother, hrow, hit, hsource⟩

/-- The number read for a cell. -/
def At (squares : List (List (List Int))) (t i j : Nat) (it : Int) : Prop :=
  ∃ square row, squares[t]? = some square ∧ square[i]? = some row ∧ row[j]? = some it

/-- Every unit comes from the cell whose variable it is about. -/
theorem unit_origin (h : Traversal (SquareStep others) tables.zipIdx s squares s')
    (hunit : s'.parsedUnits.find name = some b) :
    (∃ (t i j : Nat) (other : Matrix) (it : Int), others[t]? = some other ∧ At squares t i j it ∧
      Source other i j name b it) ∨ s.parsedUnits.find name = some b := by
  refine (h.origin (P := fun s => s.parsedUnits.find name = some b)
    (fun matrix s square s' h hunit => square_origin h hunit) hunit).imp_left ?_
  rintro ⟨t, matrix, square, hmatrix, hsquare, other, i, j, row, it, hother, hrow, hit, hsource⟩
  rw [(index_of_zipIdx hmatrix).2] at hother
  exact ⟨t, i, j, other, it, hother, ⟨square, row, hsquare, hrow, hit⟩, hsource⟩

/-- Units that are there stay. -/
def Keeps (s s' : ParserState) : Prop :=
  ∀ name, (s.parsedUnits.find name).isSome = true → (s'.parsedUnits.find name).isSome = true

theorem Keeps.refl (s : ParserState) : Keeps s s := fun _ h => h

theorem Keeps.trans (s t u : ParserState) (h : Keeps s t) (h' : Keeps t u) : Keeps s u :=
  fun name hs => h' name (h name hs)

theorem CellStep.keeps {other : Matrix} {j : Nat} {vars : List Literal × Nat} {it : Int}
    (h : CellStep other j vars s it s') : Keeps s s' := by
  intro name hname
  rw [h.2]
  exact isSome_putCell (Or.inr hname)

theorem LineStep.keeps {other : Matrix} {line : List (List Literal) × Nat} {its : List Int}
    (h : LineStep other line s its s') : Keeps s s' :=
  h.rel_of_step Keeps.refl Keeps.trans fun _ _ _ _ => CellStep.keeps

theorem SquareStep.keeps {matrix : Matrix × Nat} {square : List (List Int)}
    (h : SquareStep others matrix s square s') : Keeps s s' := by
  obtain ⟨other, -, h⟩ := h
  exact h.rel_of_step Keeps.refl Keeps.trans fun _ _ _ _ => LineStep.keeps

/-- Every cell of the tables is read, and its variables have units at the end. -/
theorem exists_read (h : Traversal (SquareStep others) tables.zipIdx s squares s') {t i j : Nat}
    {matrix : Matrix} {cells : List (List Literal)} {vars : List Literal}
    (hmatrix : tables[t]? = some matrix) (hline : matrix[i]? = some cells)
    (hvars : cells[j]? = some vars) :
    ∃ (read : List Bool) (other : Matrix) (it : Int), read.length = variableCount vars ∧
      parseIntOneHot read vars = some it ∧ others[t]? = some other ∧ At squares t i j it ∧
      ∀ name ∈ cellNames (other.cell i j), (s'.parsedUnits.find name).isSome = true := by
  obtain ⟨s₁, square, s₂, hsquare, ⟨other, hother, hlines⟩, hkeep⟩ := h.exists_step Keeps.refl
    Keeps.trans (fun _ _ _ _ => SquareStep.keeps) (getElem?_zipIdx_of hmatrix)
  obtain ⟨s₃, row, s₄, hrow, hcells, hkeep'⟩ := hlines.exists_step Keeps.refl Keeps.trans
    (fun _ _ _ _ => LineStep.keeps) (getElem?_zipIdx_of hline)
  obtain ⟨s₅, it, s₆, hit, ⟨⟨read, hlength, hparse⟩, hput⟩, hkeep''⟩ := hcells.exists_step
    Keeps.refl Keeps.trans (fun _ _ _ _ => CellStep.keeps) (getElem?_zipIdx_of hvars)
  refine ⟨read, other, it, hlength, hparse, hother, ⟨square, row, hsquare, hrow, hit⟩,
    fun name hname => hkeep _ (hkeep' _ (hkeep'' _ ?_))⟩
  rw [hput]
  exact isSome_putCell (Or.inl hname)

end Loop

end ReducedLatinParser

end LatinSquares.Generator
