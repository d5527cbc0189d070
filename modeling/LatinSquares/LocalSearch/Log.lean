/-
# Stopping a search and resuming it

The search writes its assignment to a log file after every round, and `main` writes the last one
in the same form. `readFirst` takes such a file as the start of another search, and the generator
decodes it. The squares in `metaValues` are not written: the decoder and the constructor find them
again in the values of the core variables.
-/

import LatinSquares.Generator.Decoding
import LatinSquares.LocalSearch.Reduced
import LatinSquares.LocalSearch.Symbols
import LatinSquares.Math.Streams

namespace LatinSquares.LocalSearch

open LatinSquares.Math
open LatinSquares.Generator (Encoding LatinSquareEncoder Written decode modelWords shownSquares)

/-- The word for a variable: a minus sign stands for `0` and a question mark for `2`. -/
def logWord (propagated : Units) (i : Nat) : List Char :=
  (if propagated i = 0 then ['-'] else if propagated i = 2 then ['?'] else []) ++ numeral i

/-- The text of a log file and of the file `main` writes. -/
def logText (propagated : Units) (literalCount : Nat) : List Char :=
  "SAT".toList ++ '\n' ::
    (List.range' 1 literalCount).flatMap fun i => logWord propagated i ++ [' ']

/-- `readFirst`: the values a search starts from. -/
def readFirst (text : List Char) : List UInt8 :=
  2 :: match readWord text with
    | none => []
    | some (_, text) => (readInts text).map fun k => (decide (0 < k)).toUInt8

section Text

variable {propagated : Units} {literalCount coreSize : Nat} {α : Nat → Bool}

theorem logWord_of_known {i : Nat} (h : propagated i ≠ 2) :
    logWord propagated i = signedNumeral (decide (propagated i ≠ 0)) i := by
  unfold logWord signedNumeral
  by_cases hzero : propagated i = 0 <;> simp [hzero, h]

/-- The values are read up to the first one that is unknown. -/
theorem readFirst_logText (hfits : literalCount < 2 ^ 31) :
    readFirst (logText propagated literalCount) =
      2 :: ((List.range' 1 literalCount).takeWhile fun v => propagated v ≠ 2).map fun v =>
        (decide (propagated v ≠ 0)).toUInt8 := by
  have hword : readWord (logText propagated literalCount) = some ("SAT".toList,
      '\n' :: (List.range' 1 literalCount).flatMap fun i => logWord propagated i ++ [' ']) := rfl
  have hrange : ∀ v ∈ List.range' 1 literalCount, 0 < v ∧ v < 2 ^ 31 := by
    intro v hv
    have hbounds := List.mem_range'_1.mp hv
    omega
  generalize List.range' 1 literalCount = vars at hword hrange ⊢
  let known : Nat → Bool := fun v => propagated v ≠ 2
  have hsplit : vars.flatMap (fun i => logWord propagated i ++ [' ']) =
      ((vars.takeWhile known).map fun v => (decide (propagated v ≠ 0), v)).flatMap (fun x =>
        signedNumeral x.1 x.2 ++ [' ']) ++
          (vars.dropWhile known).flatMap fun i => logWord propagated i ++ [' '] := by
    conv_lhs => rw [← List.takeWhile_append_dropWhile (p := known) (l := vars), List.flatMap_append]
    rw [List.flatMap_map]
    congr 1
    refine List.flatMap_congr fun v hv => ?_
    have hknown : known v = true := List.mem_takeWhile_imp hv
    rw [logWord_of_known (of_decide_eq_true hknown)]
  have hrest : readInt ((vars.dropWhile known).flatMap fun i => logWord propagated i ++ [' ']) =
      none := by
    cases hdrop : vars.dropWhile known with
    | nil => rfl
    | cons v rest =>
        have hunknown : ¬ known v = true := by
          have hhead := List.head?_dropWhile_not known vars
          rw [hdrop] at hhead
          simpa using hhead
        have htwo : propagated v = 2 := by simpa [known] using hunknown
        rw [List.flatMap_cons, logWord, htwo]
        rfl
  have hread := readInts_blanks
    ((vars.takeWhile known).map fun v => (decide (propagated v ≠ 0), v)) isSpace_newline
    (fun x hx => by
      obtain ⟨v, hv, rfl⟩ := List.mem_map.mp hx
      exact (hrange v (List.takeWhile_subset _ hv)).2) hrest
  rw [readFirst, hword]
  simp only [hsplit, hread, List.map_map]
  congr 1
  refine List.map_congr_left fun v hv => ?_
  have hpos := (hrange v (List.takeWhile_subset _ hv)).1
  have hnot : ¬ (v : Int) < 0 := by omega
  by_cases hzero : propagated v = 0 <;> simp [signed, hzero, hpos, hnot]

/-- Where the first variables are known they are read as they are. -/
theorem getElem?_readFirst (hfits : literalCount < 2 ^ 31) (hcore : coreSize ≤ literalCount)
    (hα : ∀ v, 1 ≤ v → v ≤ coreSize → propagated v = (α v).toUInt8) {v : Nat} (hpos : 1 ≤ v)
    (hv : v ≤ coreSize) :
    (readFirst (logText propagated literalCount))[v]? = some (propagated v) := by
  obtain ⟨i, rfl⟩ := Nat.exists_eq_add_one_of_ne_zero (Nat.ne_of_gt hpos)
  obtain ⟨others, rfl⟩ := Nat.exists_eq_add_of_le hcore
  have hknown : ∀ v ∈ List.range' 1 coreSize, decide (propagated v ≠ 2) = true := by
    intro v hv
    have hbounds := List.mem_range'_1.mp hv
    rw [hα v hbounds.1 (by omega)]
    cases α v <;> rfl
  have hi : i < (List.range' 1 coreSize).length := by
    rw [List.length_range']
    exact hv
  rw [readFirst_logText hfits, List.getElem?_cons_succ, ← List.range'_append_1,
    List.takeWhile_append_of_pos hknown, List.map_append,
    List.getElem?_append_left (by simpa using hv),
    List.getElem?_map, List.getElem?_eq_getElem hi, List.getElem_range', Option.map_some]
  have hvalue := hα (i + 1) hpos hv
  rw [one_mul, add_comm 1 i, hvalue]
  cases α (i + 1) <;> rfl

theorem not_mem_logWord {c : Char} (hc : c.isDigit = false) (hminus : c ≠ '-') (hmark : c ≠ '?')
    (i : Nat) : c ∉ logWord propagated i := by
  have hnumeral : c ∉ numeral i := not_mem_numeral hc
  unfold logWord
  split
  · simp [hminus, hnumeral]
  · split
    · simp [hmark, hnumeral]
    · simpa using hnumeral

/-- The words behind those for the core variables. -/
def laterWords (propagated : Units) (coreSize literalCount : Nat) : List (List Char) :=
  (List.range' (1 + coreSize) (literalCount - coreSize)).map (logWord propagated) ++ [[]]

theorem not_mem_laterWords {c : Char} (hc : c.isDigit = false) (hminus : c ≠ '-')
    (hmark : c ≠ '?') : ∀ word ∈ laterWords propagated coreSize literalCount, c ∉ word := by
  refine List.forall_mem_append.mpr ⟨List.forall_mem_map.mpr fun i _ => ?_, by simp⟩
  exact not_mem_logWord hc hminus hmark i

/-- A log is a file with a model, as the parsers of the generator expect one. -/
theorem written_logText (hcore : coreSize ≤ literalCount)
    (hα : ∀ v, 1 ≤ v → v ≤ coreSize → propagated v = (α v).toUInt8) :
    Written (modelWords α coreSize ++ laterWords propagated coreSize literalCount)
      (getlines (logText propagated literalCount)) .minisat := by
  have hwords : modelWords α coreSize = (List.range' 1 coreSize).map (logWord propagated) := by
    refine List.map_congr_left fun v hv => ?_
    have hbounds := List.mem_range'_1.mp hv
    have hvalue := hα v hbounds.1 (by omega)
    rw [logWord_of_known (by rw [hvalue]; cases α v <;> decide), hvalue]
    cases α v <;> rfl
  have hall : modelWords α coreSize ++ laterWords propagated coreSize literalCount =
      (List.range' 1 literalCount).map (logWord propagated) ++ [[]] := by
    rw [hwords, laterWords, ← List.append_assoc, ← List.map_append, List.range'_append_1,
      Nat.add_sub_cancel' hcore]
  have hline : '\n' ∉ (List.range' 1 literalCount).flatMap fun i =>
      logWord propagated i ++ [' '] := by
    intro hmem
    obtain ⟨i, -, hi⟩ := List.mem_flatMap.mp hmem
    rcases List.mem_append.mp hi with hword | hblank
    · exact not_mem_logWord (by decide) (by decide) (by decide) i hword
    · exact absurd (List.mem_singleton.mp hblank) (by decide)
  refine ⟨[], ?_⟩
  rw [hall, unwords_concat_nil, List.flatMap_map, logText, getlines_append (by decide), getlines,
    List.splitOn_eq_singleton hline]
  rfl

end Text

section Decoding

variable {e : LatinSquareEncoder} {s : HillClimbingSolver} {literalCount : Nat} {α : Nat → Bool}

/-- The squares in `metaValues`. -/
def HoldsSquares (e : LatinSquareEncoder) (s : HillClimbingSolver)
    (F : Fin e.k → Square (Fin e.n)) : Prop :=
  ∀ t i j, ∃ symbol, metaValueAt s.metaValues (t.val, i.val, j.val) = some symbol ∧
    symbol.toNat = F t i j + 1

theorem HoldsSymbols.exists_squares (h : HoldsSymbols e s) (hmeta : e.metaVars e.tables ≠ []) :
    ∃ F, HoldsSquares e s F := by
  have hcell : ∀ (t : Fin e.k) (i j : Fin e.n), ∃ (symbol : UInt32) (v : Fin e.n),
      metaValueAt s.metaValues (t.val, i.val, j.val) = some symbol ∧ symbol.toNat = v + 1 := by
    intro t i j
    obtain ⟨symbol, hat⟩ := h.present hmeta t t.isLt i i.isLt j j.isLt
    obtain ⟨hpos, hle, -⟩ := h.exact t t.isLt i i.isLt j j.isLt symbol hat
    exact ⟨symbol, ⟨symbol.toNat - 1, by omega⟩, hat, by simp only; omega⟩
  choose symbol F hF using hcell
  exact ⟨F, fun t i j => ⟨symbol t i j, hF t i j⟩⟩

/-- A literal of a core variable is true in both copies of the assignment. -/
theorem trueIn_iff {c : Nat} (hα : ∀ v, 1 ≤ v → v ≤ c → s.propagated v = (α v).toUInt8)
    {l : Generator.Literal} (hl : l.Within c) : TrueIn s.propagated l ↔ l.eval α = true := by
  cases l with
  | constFalse => exact iff_of_false id (by simp [Generator.Literal.eval])
  | constTrue => exact iff_of_true trivial rfl
  | var v =>
      rw [Generator.Literal.within_var] at hl
      rw [TrueIn, hα v hl.1 hl.2]
      cases hv : α v <;> simp [Generator.Literal.eval, hv] <;> decide
  | notVar v =>
      rw [Generator.Literal.within_notVar] at hl
      rw [TrueIn, hα v hl.1 hl.2]
      cases hv : α v <;> simp [Generator.Literal.eval, hv] <;> decide

/-- The core variables describe the squares in `metaValues`. -/
theorem HoldsSymbols.describes (h : HoldsSymbols e s) {F : Fin e.k → Square (Fin e.n)}
    (hF : HoldsSquares e s F)
    (hα : ∀ v, 1 ≤ v → v ≤ e.coreSize → s.propagated v = (α v).toUInt8) : e.Describes α F := by
  intro t i j k
  obtain ⟨symbol, hat, hsymbol⟩ := hF t i j
  obtain ⟨-, -, hexact⟩ := h.exact t t.isLt i i.isLt j j.isLt symbol hat
  have htrue : SymbolTrue e s.propagated t i j (F t i j + 1) :=
    (hexact _ (Nat.succ_pos _) (F t i j).isLt).mpr hsymbol.symm
  have hentry := htrue _ (mem_literalsFor.mpr ⟨k, k.isLt, rfl⟩)
  have hwithin : (e.entry t i j k).Within e.coreSize :=
    LatinSquareEncoder.entry_within t.isLt i.isLt j.isLt k.isLt
  by_cases heq : F t i j = k
  · rw [if_pos (by rw [heq]), trueIn_iff hα hwithin] at hentry
    exact iff_of_true hentry heq
  · have hne : (k : Nat) + 1 ≠ F t i j + 1 := fun hsame => heq (Fin.ext (by omega))
    rw [if_neg hne, trueIn_iff hα (Generator.Literal.within_not.mpr hwithin),
      Generator.Literal.eval_not] at hentry
    exact iff_of_false (by simpa [Generator.Shows] using hentry) heq

/-- The encoding whose parser reads the squares of an encoder. -/
def encodingOf (e : LatinSquareEncoder) : Encoding :=
  if e.reduced then .reducedLatinOnehot else .latinOnehot

/-- A log is decoded to the squares in `metaValues`. -/
theorem HoldsSymbols.decode_logText (h : HoldsSymbols e s) (assertions : Bool) (hn : 3 ≤ e.n)
    (hk : 0 < e.k) {F : Fin e.k → Square (Fin e.n)} (hF : HoldsSquares e s F)
    (hα : ∀ v, 1 ≤ v → v ≤ e.coreSize → s.propagated v = (α v).toUInt8)
    (hcore : e.coreSize ≤ literalCount) :
    decode assertions (encodingOf e) e.n e.k .minisat
      (getlines (logText s.propagated literalCount)) = some (.squares (shownSquares F)) := by
  have hdescribes := h.describes hF hα
  refine Generator.decode_written (LatinSquareEncoder.coreSize_pos hn hk)
    (written_logText hcore hα) (not_mem_laterWords (by decide) (by decide) (by decide))
    fun rest => ?_
  unfold encodingOf
  split
  · next hreduced =>
      exact Ensures.map ((LatinSquareEncoder.ensures_reducedLatinParser hreduced hk hdescribes
        le_rfl).mono fun _ _ => congrArg _)
  · next hreduced =>
      exact Ensures.map ((LatinSquareEncoder.ensures_latinParser (by simpa using hreduced)
        hdescribes le_rfl).mono fun _ _ => congrArg _)

end Decoding

end LatinSquares.LocalSearch
