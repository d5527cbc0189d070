/-
# Reading by position

The values of a file are handed out to the cells of the tables in the order of the tables.
A table that is laid out like an encoder's gets, for every cell, the values of the variables
the encoder gave that cell, so what is read off a cell is what the model says about it.
-/

import LatinSquares.Generator.Parsers
import LatinSquares.Generator.LogEncoder
import LatinSquares.Generator.Squares
import LatinSquares.Math.Words
import Mathlib.Tactic.Ring

namespace LatinSquares.Generator

open LatinSquares.Math

section Text

variable {α : Assignment} {words : List (List Char)} {lines : List Line}

/-- A model as words: the variables in ascending order, each with its sign. -/
def modelWords (α : Assignment) (size : Nat) : List (List Char) :=
  (List.range' 1 size).map fun v => signedNumeral (α v) v

/-- The values of the variables. -/
def modelValues (α : Assignment) (size : Nat) : List Bool := (List.range' 1 size).map α

/-- A file that says that there is a model and lists these words: on the line after the
status, or on `v` lines after it, with other lines around them. -/
def Written (words : List (List Char)) (lines : List Line) : OutputFormat → Prop
  | .minisat => ∃ rest, lines = OutputFormat.minisat.sat :: unwords words :: rest
  | .dimacs => OnMarkedLines .dimacs
  | .maxsat => OnMarkedLines .maxsat
where
  OnMarkedLines (format : OutputFormat) : Prop :=
    ∃ (comments body : List Line) (chunks : List (List (List Char))),
      lines = comments ++ format.sat :: body ∧
      (∀ line ∈ comments, line ≠ [] ∧ line.head? ≠ some 's') ∧ (∀ line ∈ body, line ≠ []) ∧
      (body.filter fun line => line.head? = some 'v') =
        chunks.map (fun chunk => 'v' :: ' ' :: unwords chunk) ∧
      (∀ chunk ∈ chunks, chunk ≠ []) ∧ chunks.flatten = words

theorem parseVariable_signedNumeral (value : Bool) (number : Nat) :
    parseVariable (signedNumeral value number) = value := by
  cases value with
  | true => exact decide_eq_true fun h => Bool.noConfusion ((head?_signedNumeral _ _).mp h)
  | false => exact decide_eq_false (not_not_intro ((head?_signedNumeral _ _).mpr rfl))

theorem map_parseVariable_modelWords (α : Assignment) (size : Nat) :
    (modelWords α size).map parseVariable = modelValues α size := by
  rw [modelWords, modelValues, List.map_map]
  exact List.map_congr_left fun v _ => parseVariable_signedNumeral (α v) v

theorem space_not_mem_modelWords {size : Nat} : ∀ word ∈ modelWords α size, ' ' ∉ word := by
  intro word hword
  obtain ⟨v, -, rfl⟩ := List.mem_map.mp hword
  exact space_not_mem_signedNumeral _ _

theorem skipToStatus_append {comments body : List Line} {status : Line}
    (hcomments : ∀ line ∈ comments, line ≠ [] ∧ line.head? ≠ some 's')
    (hstatus : status.head? = some 's') :
    skipToStatus (comments ++ status :: body) = some (status, body) := by
  induction comments with
  | nil =>
      cases status with
      | nil => cases hstatus
      | cons c status =>
          rw [List.nil_append, skipToStatus, if_pos (Option.some.inj hstatus)]
  | cons line comments ih =>
      obtain ⟨⟨hne, hs⟩, hrest⟩ := List.forall_mem_cons.mp hcomments
      cases line with
      | nil => exact absurd rfl hne
      | cons c line =>
          rw [List.cons_append, skipToStatus, if_neg fun hc => hs (congrArg some hc)]
          exact ih hrest

/-- What is read off marked lines. -/
theorem parseBody_marked {body : List Line} {chunks : List (List (List Char))}
    (hbody : ∀ line ∈ body, line ≠ [])
    (hmarked : (body.filter fun line => line.head? = some 'v') =
      chunks.map fun chunk => 'v' :: ' ' :: unwords chunk)
    (hchunks : ∀ chunk ∈ chunks, chunk ≠ []) (hwords : ∀ word ∈ chunks.flatten, ' ' ∉ word) :
    (do
      guard (∀ line ∈ body, line ≠ [])
      let body := body.filter fun line => line.head? = some 'v'
      guard (∀ line ∈ body, 2 ≤ line.length)
      return body.flatMap fun line => ((line.drop 2).splitOn ' ').map parseVariable :
        Option (List Bool)) = some (chunks.flatten.map parseVariable) := by
  have hlong : ∀ line ∈ chunks.map fun chunk => 'v' :: ' ' :: unwords chunk, 2 ≤ line.length := by
    intro line hline
    obtain ⟨chunk, -, rfl⟩ := List.mem_map.mp hline
    simp
  have hsplit : ∀ chunk ∈ chunks, ((List.drop 2 ('v' :: ' ' :: unwords chunk)).splitOn ' ').map
      parseVariable = chunk.map parseVariable := by
    intro chunk hchunk
    have hspaces : ∀ word ∈ chunk, ' ' ∉ word := fun word hword =>
      hwords word (List.mem_flatten.mpr ⟨chunk, hchunk, hword⟩)
    rw [List.drop_succ_cons, List.drop_succ_cons, List.drop_zero,
      splitOn_unwords hspaces (hchunks chunk hchunk)]
  simp only [guard, if_pos hbody, hmarked, if_pos hlong, pure_bind]
  rw [List.flatMap_map, List.map_flatten, ← List.flatMap_def]
  exact congrArg some (List.flatMap_congr hsplit)

/-- The values read off a file are those its words tell. -/
theorem readValues_written {format : OutputFormat} (hfile : Written words lines format)
    (hwords : ∀ word ∈ words, ' ' ∉ word) (hne : words ≠ []) :
    readValues format lines = some (words.map parseVariable) := by
  have hmarked : ∀ format : OutputFormat, format.sat.head? = some 's' →
      Written.OnMarkedLines words lines format → ∃ body,
        skipToStatus lines = some (format.sat, body) ∧ parseBody .dimacs body =
          some (words.map parseVariable) := by
    rintro format hstatus ⟨comments, body, chunks, rfl, hcomments, hbody, hmarked, hchunks, rfl⟩
    exact ⟨body, skipToStatus_append hcomments hstatus,
      parseBody_marked hbody hmarked hchunks hwords⟩
  cases format with
  | minisat =>
      obtain ⟨rest, rfl⟩ := hfile
      simp [readValues, parseHeader, parseBody, guard, splitOn_unwords hwords hne]
  | dimacs =>
      obtain ⟨body, hskip, hbody⟩ := hmarked .dimacs (by decide) hfile
      simp only [readValues, parseHeader, hskip, Option.map_some]
      exact hbody
  | maxsat =>
      obtain ⟨body, hskip, hbody⟩ := hmarked .maxsat (by decide) hfile
      simp only [readValues, parseHeader, hskip, Option.map_some]
      exact hbody

end Text

section Cell

variable {α : Assignment} {before after : List Bool} {l : Literal} {vars : List Literal}
variable {h : Nat → Literal} {t m : Nat} {result : Int}

/-- A literal of a table: a constant or a variable. -/
def Literal.IsEntry (l : Literal) : Prop := ∀ name, l ≠ .notVar name

/-- The variables of a cell. -/
def cellNames (vars : List Literal) : List Nat := vars.flatMap Literal.names

theorem cellNames_cons (l : Literal) (vars : List Literal) :
    cellNames (l :: vars) = l.names ++ cellNames vars := rfl

theorem variableCount_eq (hvars : ∀ l ∈ vars, l.IsEntry) :
    variableCount vars = (cellNames vars).length := by
  induction vars with
  | nil => rfl
  | cons l vars ih =>
      obtain ⟨hl, hvars⟩ := List.forall_mem_cons.mp hvars
      rw [variableCount, List.countP_cons, ← variableCount, ih hvars, cellNames_cons,
        List.length_append]
      cases l with
      | constFalse => simp [Literal.isVariable, Literal.names]
      | constTrue => simp [Literal.isVariable, Literal.names]
      | var name => simp [Literal.isVariable, Literal.names, Nat.add_comm]
      | notVar name => exact absurd rfl (hl name)

/-- One round of the loop of `parseIntOneHot`. -/
theorem parseIntOneHotFrom_cons (hl : l.IsEntry) :
    parseIntOneHotFrom (before ++ l.names.map α ++ after) (l :: vars) t before.length result =
      if l.eval α then
        if result ≠ -1 then some (-1)
        else parseIntOneHotFrom (before ++ l.names.map α ++ after) vars (t + 1)
          (before ++ l.names.map α).length (t + 1)
      else parseIntOneHotFrom (before ++ l.names.map α ++ after) vars (t + 1)
        (before ++ l.names.map α).length result := by
  cases l with
  | constFalse => simp [parseIntOneHotFrom, Literal.names]
  | constTrue => simp [parseIntOneHotFrom, Literal.names]
  | var name => simp [parseIntOneHotFrom, Literal.names]
  | notVar name => exact absurd rfl (hl name)

/-- Entries that are false leave the result as it is. -/
theorem parseIntOneHotFrom_of_false (hentry : ∀ v, (h v).IsEntry)
    (hfalse : ∀ v, t ≤ v → v < t + m → (h v).eval α = false) :
    parseIntOneHotFrom (before ++ (cellNames ((List.range' t m).map h)).map α)
      ((List.range' t m).map h) t before.length result = some result := by
  induction m generalizing t before with
  | zero => rfl
  | succ m ih =>
      rw [List.range'_succ, List.map_cons, cellNames_cons, List.map_append, ← List.append_assoc,
        parseIntOneHotFrom_cons (hentry t), hfalse t le_rfl (by omega), if_neg (by simp)]
      exact ih fun v hv hlt => hfalse v (by omega) (by omega)

/-- The loop finds the entry that is true. -/
theorem parseIntOneHotFrom_of_true (before : List Bool) (hentry : ∀ v, (h v).IsEntry)
    {symbol : Nat} (hle : t ≤ symbol) (hlt : symbol < t + m)
    (htrue : ∀ v, t ≤ v → v < t + m → ((h v).eval α = true ↔ symbol = v)) :
    parseIntOneHotFrom (before ++ (cellNames ((List.range' t m).map h)).map α)
      ((List.range' t m).map h) t before.length (-1) = some ((symbol : Int) + 1) := by
  induction m generalizing t before with
  | zero => omega
  | succ m ih =>
      have hhead := htrue t le_rfl (by omega)
      rw [List.range'_succ, List.map_cons, cellNames_cons, List.map_append, ← List.append_assoc,
        parseIntOneHotFrom_cons (hentry t)]
      by_cases hsymbol : symbol = t
      · subst hsymbol
        rw [if_pos (hhead.mpr rfl), if_neg (by simp)]
        refine parseIntOneHotFrom_of_false hentry fun v hv hlt => ?_
        rw [← Bool.not_eq_true, htrue v (by omega) (by omega)]
        omega
      · rw [if_neg (by rwa [hhead])]
        exact ih _ (by omega) (by omega) fun v hv hlt => htrue v (by omega) (by omega)

/-- A cell with one true entry is read as that entry's number. -/
theorem parseIntOneHot_eq (hentry : ∀ v, (h v).IsEntry) {symbol : Nat} (hlt : symbol < m)
    (htrue : ∀ v < m, ((h v).eval α = true ↔ symbol = v)) :
    parseIntOneHot ((cellNames ((List.range m).map h)).map α) ((List.range m).map h) =
      some ((symbol : Int) + 1) := by
  rw [List.range_eq_range']
  exact parseIntOneHotFrom_of_true [] hentry (Nat.zero_le _) (by omega)
    fun v _ hv => htrue v (by omega)

/-- One round of the loop of `parseIntLog`. -/
theorem parseIntLogFrom_cons (hl : l.IsEntry) {pow result : Nat} :
    parseIntLogFrom (before ++ l.names.map α ++ after) (l :: vars) before.length pow result =
      parseIntLogFrom (before ++ l.names.map α ++ after) vars (before ++ l.names.map α).length
        (pow * 2) (result + pow * (l.eval α).toNat) := by
  cases l with
  | constFalse => simp [parseIntLogFrom, Literal.names]
  | constTrue => simp [parseIntLogFrom, Literal.names]
  | var name => cases hname : α name <;> simp [parseIntLogFrom, Literal.names, hname]
  | notVar name => exact absurd rfl (hl name)

theorem cellNumber_succ : cellNumber (m + 1) h α =
    2 * cellNumber m (fun bit => h (bit + 1)) α + ((h 0).eval α).toNat := Nat.ofBits_succ _

theorem parseIntLogFrom_eq (before : List Bool) (hentry : ∀ bit, (h bit).IsEntry)
    (pow result : Nat) :
    parseIntLogFrom (before ++ (cellNames ((List.range' t m).map h)).map α)
        ((List.range' t m).map h) before.length pow result =
      some (result + pow * cellNumber m (fun bit => h (t + bit)) α) := by
  induction m generalizing t before pow result with
  | zero => simp [parseIntLogFrom, cellNumber]
  | succ m ih =>
      have hshift : (fun bit => h (t + (bit + 1))) = fun bit => h (t + 1 + bit) := by
        funext bit
        rw [Nat.add_right_comm, Nat.add_assoc]
      rw [List.range'_succ, List.map_cons, cellNames_cons, List.map_append, ← List.append_assoc,
        parseIntLogFrom_cons (hentry t), ih, cellNumber_succ, hshift]
      apply congrArg some
      simp only [Nat.add_zero]
      ring

/-- A cell of bits is read as the number they stand for. -/
theorem parseIntLog_eq (hentry : ∀ bit, (h bit).IsEntry) :
    parseIntLog ((cellNames ((List.range m).map h)).map α) ((List.range m).map h) =
      some (cellNumber m h α) := by
  rw [List.range_eq_range', parseIntLog]
  have hloop := parseIntLogFrom_eq (t := 0) (m := m) (α := α) [] hentry 1 0
  simpa using hloop

end Cell

section Position

variable {α : Assignment} {size n m q : Nat} {extra : List Bool} {s : ParserState}
variable {kind : Nat → Option Bool} {start base : Nat} {vars : List Literal}

theorem isEntry_numbered (idx : Nat) : (numbered kind start idx).IsEntry := by
  intro name
  rw [numbered]
  split
  · split <;> simp
  · simp

theorem names_numbered (idx : Nat) : (numbered kind start idx).names =
    List.range' (start + variablesBefore kind idx + 1)
      (variablesBefore kind (idx + 1) - variablesBefore kind idx) := by
  rw [numbered]
  split
  · next b hb =>
      rw [variablesBefore_succ_of_some hb, Nat.sub_self]
      cases b <;> rfl
  · next hnone =>
      rw [variablesBefore_succ_of_none hnone, Nat.add_sub_cancel_left]
      rfl

/-- The variables of consecutive entries are numbered consecutively. -/
theorem cellNames_numbered (length : Nat) :
    cellNames ((List.range length).map fun k => numbered kind start (base + k)) =
      List.range' (start + variablesBefore kind base + 1)
        (variablesBefore kind (base + length) - variablesBefore kind base) := by
  induction length with
  | zero => simp [cellNames]
  | succ length ih =>
      have hle : variablesBefore kind base ≤ variablesBefore kind (base + length) :=
        variablesBefore_mono (Nat.le_add_right _ _)
      have hle' : variablesBefore kind (base + length) ≤ variablesBefore kind (base + length + 1) :=
        variablesBefore_mono (Nat.le_succ _)
      have hstart : start + variablesBefore kind (base + length) + 1 =
          start + variablesBefore kind base + 1 +
            1 * (variablesBefore kind (base + length) - variablesBefore kind base) := by omega
      have hlength : variablesBefore kind (base + length) - variablesBefore kind base +
          (variablesBefore kind (base + length + 1) - variablesBefore kind (base + length)) =
          variablesBefore kind (base + length + 1) - variablesBefore kind base := by omega
      rw [List.range_succ, List.map_append, cellNames, List.flatMap_append, ← cellNames, ih,
        List.map_singleton, List.flatMap_singleton, names_numbered, hstart, List.range'_append,
        hlength, Nat.add_assoc base]

/-- The next values are those of the next variables. -/
theorem ensures_readNVars {count : Nat} (hcount : s.currentIndex + count ≤ size) :
    Ensures (readNVars (modelValues α size ++ extra) count) s fun read s' =>
      read = (List.range' (s.currentIndex + 1) count).map α ∧
        s' = { s with currentIndex := s.currentIndex + count } := by
  have hlength : (modelValues α size).length = size := by
    rw [modelValues, List.length_map, List.length_range']
  refine (Ensures.of_get (Q := fun a t => a = s ∧ t = s) ⟨rfl, rfl⟩).bind ?_
  rintro t u ⟨rfl, rfl⟩
  refine (Ensures.of_guard (Q := fun _ t => t = u) ?_ rfl).bind ?_
  · rw [List.length_append, hlength]
    omega
  rintro _ u rfl
  refine ⟨_, _, rfl, ?_, rfl⟩
  apply List.ext_getElem
  · simp [hlength]
    omega
  · intro i hi _
    have hlt : u.currentIndex + i < size := by
      rw [List.length_take] at hi
      omega
    simp [modelValues, List.getElem_append_left, hlt, Nat.add_right_comm, Nat.add_comm 1]

/-- A cell at the current place gets the values of its own variables. -/
theorem ensures_readCell {count : List Literal → Nat}
    {parseInt : List Bool → List Literal → Option Int} {symbol : Int} {names : Nat}
    (hnames : cellNames vars = List.range' (s.currentIndex + 1) names)
    (hcount : count vars = names) (hsize : s.currentIndex + names ≤ size)
    (hparse : parseInt ((cellNames vars).map α) vars = some symbol) :
    Ensures (do
      let read ← readNVars (modelValues α size ++ extra) (count vars)
      liftM (parseInt read vars)) s fun y s' =>
        y = symbol ∧ s' = { s with currentIndex := s.currentIndex + names } := by
  subst hcount
  refine (ensures_readNVars hsize).bind ?_
  rintro read s' ⟨rfl, rfl⟩
  rw [← hnames, hparse]
  exact Ensures.of_lift rfl ⟨rfl, rfl⟩

/-- Reading a table cell by cell moves along its entries. -/
theorem ensures_readRows {f : Nat → Nat → Parse Int} {g : Nat → Nat → Int} {gen : GenState}
    (hindex : s.currentIndex = variablesBefore kind base) (hgen : s.generator = gen)
    (hcell : ∀ i < n, ∀ j < m, ∀ t : ParserState,
      t.currentIndex = variablesBefore kind (base + (i * m + j) * q) → t.generator = gen →
      Ensures (f i j) t fun y t' => y = g i j ∧
        t'.currentIndex = variablesBefore kind (base + (i * m + j) * q + q) ∧
        t'.generator = gen) :
    Ensures ((List.range n).mapM fun i => (List.range m).mapM (f i)) s fun ys s' =>
      ys = (List.range n).map (fun i => (List.range m).map (g i)) ∧
        s'.currentIndex = variablesBefore kind (base + n * m * q) ∧ s'.generator = gen := by
  refine Ensures.mapM_range (I := fun i (t : ParserState) =>
    t.currentIndex = variablesBefore kind (base + i * m * q) ∧ t.generator = gen)
    ⟨by simpa using hindex, hgen⟩ ?_
  rintro i hi t ⟨ht, htgen⟩
  have hrow : (i + 1) * m * q = (i * m + m) * q := by rw [Nat.add_mul, Nat.one_mul]
  rw [hrow]
  refine Ensures.mapM_range (I := fun j (t : ParserState) =>
    t.currentIndex = variablesBefore kind (base + (i * m + j) * q) ∧ t.generator = gen)
    ⟨by simpa using ht, htgen⟩ ?_
  rintro j hj t ⟨ht, htgen⟩
  have hnext : base + (i * m + (j + 1)) * q = base + (i * m + j) * q + q := by
    rw [← Nat.add_assoc, Nat.add_mul (i * m + j), Nat.one_mul, Nat.add_assoc]
  rw [hnext]
  exact hcell i hi j hj t ht htgen

end Position

section Layout

variable {α : Assignment} {size n m q tables t : Nat} {extra : List Bool} {s : ParserState}
variable {kind : Nat → Nat → Nat → Nat → Option Bool} {count : List Literal → Nat}
variable {parseInt : List Bool → List Literal → Option Int}

/-- The literals of cell `(i, j)` of table `t` of a layout. -/
def layoutCell (n m q : Nat) (kind : Nat → Nat → Nat → Nat → Option Bool) (t i j : Nat) :
    List Literal :=
  (List.range q).map (layoutEntry n m q kind t i j)

/-- The number of variables in front of cell `(i, j)` of table `t`. -/
def cellStart (n m q : Nat) (kind : Nat → Nat → Nat → Nat → Option Bool) (t i j : Nat) : Nat :=
  variablesBefore (byIndex n m q kind) (t * (n * m * q) + (i * m + j) * q)

theorem isEntry_layoutEntry (t i j k : Nat) : (layoutEntry n m q kind t i j k).IsEntry :=
  isEntry_numbered _

theorem isEntry_of_mem_layoutCell {i j : Nat} : ∀ l ∈ layoutCell n m q kind t i j, l.IsEntry := by
  intro l hl
  obtain ⟨k, -, rfl⟩ := List.mem_map.mp hl
  exact isEntry_layoutEntry t i j k

theorem cellNames_layoutCell (t i j : Nat) :
    cellNames (layoutCell n m q kind t i j) = List.range' (cellStart n m q kind t i j + 1)
      (variablesBefore (byIndex n m q kind) (t * (n * m * q) + (i * m + j) * q + q) -
        cellStart n m q kind t i j) := by
  have hcell : layoutCell n m q kind t i j = (List.range q).map fun k =>
      numbered (byIndex n m q kind) 0 (t * (n * m * q) + (i * m + j) * q + k) := by
    simp only [layoutCell, Nat.add_assoc]
    rfl
  rw [hcell, cellNames_numbered, Nat.zero_add, cellStart]

theorem cellEnd_le {i j : Nat} (ht : t < tables) (hi : i < n) (hj : j < m) :
    variablesBefore (byIndex n m q kind) (t * (n * m * q) + (i * m + j) * q + q) ≤
      layoutSize n m q kind tables := by
  apply variablesBefore_mono
  have hcell : (i * m + j + 1) * q ≤ n * m * q := by
    refine Nat.mul_le_mul_right q ?_
    have hrow : (i + 1) * m ≤ n * m := Nat.mul_le_mul_right m hi
    rw [Nat.add_mul] at hrow
    omega
  have htable : (t + 1) * (n * m * q) ≤ tables * (n * m * q) := Nat.mul_le_mul_right _ ht
  rw [Nat.add_mul] at hcell htable
  omega

/-- A cell of a layout at the current place. -/
theorem ensures_layoutCell {i j : Nat} {symbol : Int} (ht : t < tables) (hi : i < n) (hj : j < m)
    (hsize : layoutSize n m q kind tables ≤ size)
    (hindex : s.currentIndex = cellStart n m q kind t i j)
    (hcount : count (layoutCell n m q kind t i j) =
      (cellNames (layoutCell n m q kind t i j)).length)
    (hparse : parseInt ((cellNames (layoutCell n m q kind t i j)).map α)
      (layoutCell n m q kind t i j) = some symbol) :
    Ensures (do
      let read ← readNVars (modelValues α size ++ extra) (count (layoutCell n m q kind t i j))
      liftM (parseInt read (layoutCell n m q kind t i j))) s fun y s' => y = symbol ∧
        s' = { s with currentIndex :=
          variablesBefore (byIndex n m q kind) (t * (n * m * q) + (i * m + j) * q + q) } := by
  have hend := (cellEnd_le (q := q) ht hi hj).trans hsize
  have hle : cellStart n m q kind t i j ≤
      variablesBefore (byIndex n m q kind) (t * (n * m * q) + (i * m + j) * q + q) :=
    variablesBefore_mono (Nat.le_add_right _ _)
  have hnext : s.currentIndex + (variablesBefore (byIndex n m q kind)
      (t * (n * m * q) + (i * m + j) * q + q) - cellStart n m q kind t i j) =
      variablesBefore (byIndex n m q kind) (t * (n * m * q) + (i * m + j) * q + q) := by omega
  have hnames : cellNames (layoutCell n m q kind t i j) = _ := cellNames_layoutCell t i j
  rw [← hindex] at hnames
  rw [← hnext, ← hindex]
  refine ensures_readCell hnames ?_ (by omega) hparse
  rw [hcount, hnames, List.length_range']

/-- One table of a layout at the current place. -/
theorem ensures_readMatrix {g : Nat → Nat → Int} (ht : t < tables)
    (hsize : layoutSize n m q kind tables ≤ size)
    (hindex : s.currentIndex = layoutSize n m q kind t)
    (hcount : ∀ i < n, ∀ j < m, count (layoutCell n m q kind t i j) =
      (cellNames (layoutCell n m q kind t i j)).length)
    (hparse : ∀ i < n, ∀ j < m, parseInt ((cellNames (layoutCell n m q kind t i j)).map α)
      (layoutCell n m q kind t i j) = some (g i j)) :
    Ensures (readMatrix (modelValues α size ++ extra) count parseInt
      (matrixOf n m q (layoutEntry n m q kind t))) s fun ys s' =>
        ys = (List.range n).map (fun i => (List.range m).map (g i)) ∧
          s'.currentIndex = layoutSize n m q kind (t + 1) ∧ s'.generator = s.generator := by
  have hnext : t * (n * m * q) + n * m * q = (t + 1) * (n * m * q) := by
    rw [Nat.add_mul, Nat.one_mul]
  rw [layoutSize, ← hnext, readMatrix, matrixOf]
  simp only [List.mapM_map, Function.comp_def]
  refine ensures_readRows hindex rfl fun i hi j hj u hu hgen => ?_
  refine (ensures_layoutCell ht hi hj hsize hu (hcount i hi j hj) (hparse i hi j hj)).mono ?_
  rintro y u' ⟨rfl, rfl⟩
  exact ⟨rfl, rfl, hgen⟩

/-- Consecutive tables of a layout. -/
theorem ensures_readMatrices (extra : List Bool) (count : List Literal → Nat)
    (parseInt : List Bool → List Literal → Option Int) {g : Nat → Nat → Nat → Int}
    (tables first length : Nat) (hlength : first + length ≤ tables)
    (hsize : layoutSize n m q kind tables ≤ size)
    (hindex : s.currentIndex = layoutSize n m q kind first)
    (hcount : ∀ t < tables, ∀ i < n, ∀ j < m, count (layoutCell n m q kind t i j) =
      (cellNames (layoutCell n m q kind t i j)).length)
    (hparse : ∀ t < tables, ∀ i < n, ∀ j < m,
      parseInt ((cellNames (layoutCell n m q kind t i j)).map α)
        (layoutCell n m q kind t i j) = some (g t i j)) :
    Ensures
      (((List.range' first length).map fun t => matrixOf n m q (layoutEntry n m q kind t)).mapM
        (readMatrix (modelValues α size ++ extra) count parseInt)) s fun ys s' =>
        ys = (List.range' first length).map (fun t =>
          (List.range n).map fun i => (List.range m).map (g t i)) ∧
          s'.currentIndex = layoutSize n m q kind (first + length) := by
  rw [List.mapM_map]
  refine Ensures.mapM_range' (I := fun t (s : ParserState) =>
    s.currentIndex = layoutSize n m q kind t) hindex ?_
  intro t hle hlt u hu
  have ht : t < tables := by omega
  refine (ensures_readMatrix ht hsize hu (hcount t ht) (hparse t ht)).mono ?_
  rintro ys u' ⟨rfl, hindex, -⟩
  exact ⟨rfl, hindex⟩

end Layout

end LatinSquares.Generator
