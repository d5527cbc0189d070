/-
# What the incremental solver reads

`parseClauses` and `parseLiterals` of `incremental.cpp` read a printed formula: the first one the
clauses behind the `p` line, the second one the incremental expressions in the comments before
it. What they print while they work is left out.
-/

import LatinSquares.Generator.Printing

namespace LatinSquares.Incremental

open LatinSquares.Math
open LatinSquares.Generator.CNF
open LatinSquares.Generator (CNF Clause Conjunct Expression Literal joinToString
  joinToString_singleton joinToString_cons_cons text_of_fits readToZero_text)

/-- `Lit` of the solver: a variable, from `0` on, and the sign of its negation. -/
structure Lit where
  var : Nat
  sign : Bool
  deriving DecidableEq, Repr

/-- `Lit(abs(literal) - 1, !isPositive(literal))`. -/
def Lit.ofInt (literal : Int) : Lit where
  var := literal.natAbs - 1
  sign := !decide (0 < literal)

/-- `while (line[0] == 'c') std::getline(fin, line)`: the line it stops at and those after it. -/
def skipComments : List (List Char) → List Char × List (List Char)
  | [] => ([], [])
  | line :: lines => if line.head? = some 'c' then skipComments lines else (line, lines)

/-- The loop over the clauses. -/
def readClauses : Nat → List Char → Option (List (List Lit))
  | 0, _ => some []
  | clauseCount + 1, text => do
      let (literals, text) ← readToZero text
      let clauses ← readClauses clauseCount text
      return literals.map Lit.ofInt :: clauses

/-- `parseClauses`: `literalCount` and the clauses. -/
def parseClauses (text : List Char) : Option (Int × List (List Lit)) := do
  let (line, lines) := skipComments (getlines text)
  let (_, line) ← readWord line
  let (_, line) ← readWord line
  let (literalCount, line) ← readInt line
  let (clauseCount, _) ← readInt line
  let clauses ← readClauses clauseCount.toNat (textOf lines)
  return (literalCount, clauses)

/-- `isdigit(line[2]) || line[2] == '-'`. -/
def isLiteralLine (text : List Char) : Bool :=
  text[2]?.any fun c => c.isDigit || c == '-'

/-- The literals of one line, after the word in front of them. -/
def readLiterals (line : List Char) : List Lit :=
  match readWord line with
  | none => []
  | some (_, line) => (readInts line).map Lit.ofInt

/-- The rounds of the loop in which `flag` is set. -/
def parseExprs : List (List Char) → List (List (List Lit))
  | [] => []
  | line :: lines =>
      if line = "c expr:".toList then
        (lines.takeWhile isLiteralLine).map readLiterals ::
          parseExprs (lines.dropWhile isLiteralLine)
      else []
termination_by lines => lines.length
decreasing_by
  exact Nat.lt_succ_of_le (List.length_dropWhile_le ..)

/-- The loop of `parseLiterals`, from the lines that are left on. -/
def parseLines : List (List Char) → List (List (List Lit))
  | [] => []
  | line :: lines =>
      if line.head? = some 'c' then
        if line = "c incrementalExprs:".toList then parseExprs lines else parseLines lines
      else []

/-- `parseLiterals`. -/
def parseLiterals (text : List Char) : List (List (List Lit)) := parseLines (getlines text)

/-- The literal of the solver that stands for a literal. -/
def Lit.of (l : Literal) : Lit where
  var := l.number.2 - 1
  sign := !l.number.1

/-- A clause for the solver. -/
def litsOf (c : Clause) : List Lit := c.args.map Lit.of

/-- Clauses and incremental expressions over literals of variables. The numbers have 32 bits with
a sign. -/
structure Fits (cnf : CNF) : Prop where
  clauses : ∀ c ∈ cnf.clauses, ∀ l ∈ c.clause.args, l.Fits
  incremental : ∀ inc ∈ cnf.incremental, ∀ c ∈ inc.args, ∀ l ∈ c.clause.args, l.Fits
  variables_ : cnf.variables_.length < 2 ^ 31
  length : cnf.clauses.length < 2 ^ 31

section Clauses

variable {cnf : CNF} {l : Literal} {rest : List Char}

theorem ofInt_signed (h : l.Fits) : Lit.ofInt (signed l.number.1 l.number.2) = Lit.of l := by
  have hpos := h.1
  unfold Lit.ofInt Lit.of signed
  cases l.number.1 <;> simp [hpos]

theorem skipComments_append {lines : List (List Char)}
    (hlines : ∀ line ∈ lines, line.head? = some 'c')
    (rest : List (List Char)) : skipComments (lines ++ rest) = skipComments rest := by
  induction lines with
  | nil => rfl
  | cons line lines ih =>
      obtain ⟨hline, hlines⟩ := List.forall_mem_cons.mp hlines
      rw [List.cons_append, skipComments, if_pos hline, ih hlines]

theorem readClauses_succ {n : Nat} {text : List Char} {literals : List Int}
    {clauses : List (List Lit)} (h : readToZero text = some (literals, rest))
    (hrest : readClauses n rest = some clauses) :
    readClauses (n + 1) text = some (literals.map Lit.ofInt :: clauses) := by
  rw [readClauses, h, Option.bind_eq_bind, Option.bind_some]
  simp only [hrest]
  rfl

/-- The clauses are read one after the other. -/
theorem readClauses_texts {clauses : List Conjunct}
    (hclauses : ∀ c ∈ clauses, ∀ l ∈ c.clause.args, l.Fits) {blank : List Char}
    (hblank : ∀ c ∈ blank, isSpace c = true) :
    readClauses clauses.length (blank ++
      joinToString " 0\n".toList [] " 0\n".toList (clauses.map fun c => c.clause.text)) =
        some (clauses.map fun c => litsOf c.clause) := by
  induction clauses generalizing blank with
  | nil => rfl
  | cons c clauses ih =>
      obtain ⟨hc, hclauses⟩ := List.forall_mem_cons.mp hclauses
      have hlits : (c.clause.args.map fun l => signed l.number.1 l.number.2).map Lit.ofInt =
          litsOf c.clause := by
        rw [List.map_map]
        exact List.map_congr_left fun l hl => ofInt_signed (hc l hl)
      have hcons : (c :: clauses).map (fun c => litsOf c.clause) =
          (c.clause.args.map fun l => signed l.number.1 l.number.2).map Lit.ofInt ::
            clauses.map fun c => litsOf c.clause := by
        rw [hlits]
        rfl
      rw [hcons]
      cases clauses with
      | nil =>
          have hread := readToZero_text hc hblank []
          rw [List.map_singleton, joinToString_singleton, List.nil_append, ← List.append_assoc]
          exact readClauses_succ hread rfl
      | cons next clauses =>
          have hnewline : ∀ c ∈ ['\n'], isSpace c = true := by simp [isSpace_newline]
          have hread := readToZero_text hc hblank
            (joinToString " 0\n".toList [] " 0\n".toList
              ((next :: clauses).map fun c => c.clause.text))
          have htext : blank ++ joinToString " 0\n".toList [] " 0\n".toList
              ((c :: next :: clauses).map fun c => c.clause.text) =
              blank ++ c.clause.text ++ ' ' :: '0' :: '\n' ::
                joinToString " 0\n".toList [] " 0\n".toList
                  ((next :: clauses).map fun c => c.clause.text) := by
            rw [List.map_cons, List.map_cons, joinToString_cons_cons]
            simp
          rw [htext]
          exact readClauses_succ hread (ih hclauses hnewline)

/-- `parseClauses` reads the clauses that were printed. -/
theorem parseClauses_text (h : Fits cnf) : parseClauses cnf.text =
    some ((cnf.variables_.length : Int), cnf.clauses.map fun c => litsOf c.clause) := by
  have hskip : skipComments (getlines cnf.text) = (cnf.problemLine, getlines cnf.clauseLines) := by
    rw [getlines_text, skipComments_append fun line hline => (comment_of_mem hline).head]
    rfl
  have hp : readWord cnf.problemLine = some (['p'], " cnf ".toList ++
      (numeral cnf.variables_.length ++ ' ' :: numeral cnf.clauses.length)) := rfl
  have hcnf : ∀ rest, readWord (" cnf ".toList ++ rest) = some ("cnf".toList, ' ' :: rest) :=
    fun _ => rfl
  have hvariables :
      readInt (' ' :: (numeral cnf.variables_.length ++ ' ' :: numeral cnf.clauses.length)) =
        some ((cnf.variables_.length : Int), ' ' :: numeral cnf.clauses.length) := by
    refine readInt_numeral h.variables_ fun c hc => ?_
    obtain rfl := Option.some.inj hc
    rfl
  have hlength : readInt (' ' :: numeral cnf.clauses.length) =
      some ((cnf.clauses.length : Int), []) := by
    rw [← List.append_nil (numeral cnf.clauses.length)]
    exact readInt_numeral h.length nofun
  have hclauses : readClauses cnf.clauses.length cnf.clauseLines =
      some (cnf.clauses.map fun c => litsOf c.clause) :=
    readClauses_texts h.clauses fun _ hc => absurd hc List.not_mem_nil
  unfold parseClauses
  rw [hskip]
  simp only [hp, hcnf, hvariables, hlength, Option.bind_eq_bind, Option.bind_some,
    Int.toNat_natCast, textOf_getlines, hclauses]
  rfl

end Clauses

/-- The clauses that the printed arguments of an expression stand for. -/
def printed : Expression → List Clause
  | .conj args => args.map Conjunct.clause
  | .clause ⟨.literal (.notVar name), _⟩ => [.literal (.var name)]
  | .clause ⟨.literal l, _⟩ => [.literal l]
  | .clause ⟨.disj args, _⟩ => args.map Clause.literal

/-- Every argument is printed as a line with a literal on it. -/
def Complete (inc : Expression) : Prop := printed inc ≠ [] ∧ ∀ c ∈ printed inc, c.args ≠ []

instance : DecidablePred Complete := fun _ => inferInstanceAs (Decidable (_ ∧ _))

/-- The expression is an `And` of clauses that are not empty, or it is a single literal, with a
positive sign if it is no `Or`. -/
def Listed : Expression → Prop
  | .conj args => args ≠ [] ∧ ∀ c ∈ args, c.clause.args ≠ []
  | .clause ⟨.literal l, _⟩ => l.number.1 = true
  | .clause ⟨.disj args, _⟩ => args.length = 1

/-- All expressions are listed; the last one may be an `And` of nothing. -/
def Readable : List Expression → Prop
  | [] => True
  | inc :: incremental =>
      Listed inc ∧ Readable incremental ∨ inc = .conj [] ∧ incremental = []

/-- The clauses of an incremental expression for the solver. -/
def exprOf (inc : Expression) : List (List Lit) := inc.args.map fun c => litsOf c.clause

section Expressions

variable {cnf : CNF} {inc : Expression} {incremental : List Expression} {c : Clause}
variable {line : List Char} {lines rest : List (List Char)}

theorem argTexts_eq (inc : Expression) : inc.argTexts = (printed inc).map Clause.text := by
  unfold Expression.argTexts printed
  split <;> simp [Function.comp_def, Clause.text, Literal.text]

theorem isLiteralLine_cons (text : List Char) :
    isLiteralLine ('c' :: ' ' :: text) = text.head?.any fun c => c.isDigit || c == '-' := by
  cases text <;> rfl

/-- A line with a literal on it is recognised and read. -/
theorem isLiteralLine_text (h : ∀ l ∈ c.args, l.Fits) :
    isLiteralLine ('c' :: ' ' :: c.text) = decide (c.args ≠ []) := by
  rw [isLiteralLine_cons, text_of_fits h]
  cases c.args with
  | nil => rfl
  | cons l args =>
      rw [List.map_cons, List.map_cons, unwords_cons, decide_eq_true (List.cons_ne_nil l args)]
      cases hsign : l.number.1 with
      | false => simp [signedNumeral]
      | true =>
          obtain ⟨d, ds, heq, hdigit⟩ := exists_numeral_eq_cons l.number.2
          simp [signedNumeral, heq, hdigit]

theorem readLiterals_text (h : ∀ l ∈ c.args, l.Fits) :
    readLiterals ('c' :: ' ' :: c.text) = litsOf c := by
  have hfits : ∀ x ∈ c.args.map Literal.number, x.2 < 2 ^ 31 := by
    intro x hx
    obtain ⟨l, hl, rfl⟩ := List.mem_map.mp hx
    exact (h l hl).2
  have hword : readWord ('c' :: ' ' :: c.text) = some (['c'], ' ' :: c.text) := rfl
  rw [readLiterals, hword]
  simp only
  rw [text_of_fits h, readInts_unwords hfits, List.map_map, List.map_map]
  exact List.map_congr_left fun l hl => ofInt_signed (h l hl)

/-- The loop stops at the first clause that is empty. -/
theorem takeWhile_lines {clauses : List Clause} (h : ∀ c ∈ clauses, ∀ l ∈ c.args, l.Fits)
    (hline : isLiteralLine line = false) (rest : List (List Char)) :
    let kept := clauses.takeWhile fun c => decide (c.args ≠ [])
    let left := clauses.dropWhile fun c => decide (c.args ≠ [])
    let lines := clauses.map (fun c => 'c' :: ' ' :: c.text) ++ line :: rest
    (lines.takeWhile isLiteralLine).map readLiterals = kept.map litsOf ∧
      lines.dropWhile isLiteralLine = left.map (fun c => 'c' :: ' ' :: c.text) ++ line :: rest := by
  induction clauses with
  | nil => simp [hline]
  | cons c clauses ih =>
      obtain ⟨hc, h⟩ := List.forall_mem_cons.mp h
      have hkind := isLiteralLine_text hc
      by_cases hargs : c.args = []
      · simp [hkind, hargs]
      · have hrest := ih h
        simp [hkind, hargs, readLiterals_text hc, hrest]

theorem parseExprs_of_ne (hline : line ≠ "c expr:".toList) : parseExprs (line :: rest) = [] := by
  rw [parseExprs, if_neg hline]

/-- What one expression adds: its clauses up to the first one that is empty, and the expressions
after it if there is no such clause. -/
theorem parseExprs_lines (h : ∀ c ∈ printed inc, ∀ l ∈ c.args, l.Fits)
    (hline : isLiteralLine line = false) :
    parseExprs (inc.lines ++ line :: rest) =
      ((printed inc).takeWhile fun c => decide (c.args ≠ [])).map litsOf ::
        if Complete inc then parseExprs (line :: rest) else [] := by
  have hblank : ∀ rest, parseExprs ((['c', ' '] : List Char) :: rest) = [] := fun rest =>
    parseExprs_of_ne (by decide)
  rw [Expression.lines, List.cons_append, parseExprs, if_pos rfl, Generator.commentLines,
    argTexts_eq]
  by_cases hnil : printed inc = []
  · have hkind : isLiteralLine ['c', ' '] = false := rfl
    simp [Complete, hnil, hkind, hblank]
  · rw [if_neg (mt List.map_eq_nil_iff.mp hnil), List.map_map]
    obtain ⟨hkept, hleft⟩ := takeWhile_lines h hline rest
    simp only [Function.comp_def, hkept, hleft]
    by_cases hcomplete : ∀ c ∈ printed inc, c.args ≠ []
    · have hall : (printed inc).dropWhile (fun c => decide (c.args ≠ [])) = [] :=
        List.dropWhile_eq_nil_iff.mpr fun c hc => decide_eq_true (hcomplete c hc)
      rw [if_pos ⟨hnil, hcomplete⟩, hall]
      rfl
    · have hsome : (printed inc).dropWhile (fun c => decide (c.args ≠ [])) ≠ [] := fun hall =>
        hcomplete fun c hc => of_decide_eq_true (List.dropWhile_eq_nil_iff.mp hall c hc)
      obtain ⟨c, clauses, hdrop⟩ := List.exists_cons_of_ne_nil hsome
      have hempty : c.args = [] := by
        have hhead := List.head_dropWhile_not _ hsome
        simp only [hdrop, List.head_cons] at hhead
        simpa using hhead
      have htext : c.text = [] := by
        rw [text_of_fits (by simp [hempty]), hempty]
        rfl
      rw [if_neg fun h => hcomplete h.2, hdrop, List.map_cons, htext, List.cons_append, hblank]

theorem fits_printed (h : ∀ c ∈ inc.args, ∀ l ∈ c.clause.args, l.Fits) :
    ∀ c ∈ printed inc, ∀ l ∈ c.args, l.Fits := by
  cases inc with
  | conj args =>
      intro c hc
      obtain ⟨conjunct, hconjunct, rfl⟩ := List.mem_map.mp hc
      exact h conjunct hconjunct
  | clause conjunct =>
      obtain ⟨clause, isImportant⟩ := conjunct
      have hargs : ∀ l ∈ clause.args, l.Fits := h _ List.mem_cons_self
      cases clause with
      | literal l =>
          have hl : l.Fits := hargs l List.mem_cons_self
          cases l with
          | constFalse => exact absurd hl.1 (Nat.lt_irrefl 0)
          | constTrue => exact absurd hl.1 (Nat.lt_irrefl 0)
          | var name => simpa [printed, Clause.args] using hl
          | notVar name => simpa [printed, Clause.args, Literal.Fits, Literal.number] using hl
      | disj args => simpa [printed, Clause.args] using hargs

theorem map_takeWhile_eq_iff {A B : Type} {p : A → Bool} {f : A → B} {l : List A} :
    (l.takeWhile p).map f = l.map f ↔ ∀ a ∈ l, p a = true := by
  rw [← List.takeWhile_eq_self_iff]
  refine ⟨fun h => ?_, fun h => by rw [h]⟩
  have hlength := congrArg List.length h
  rw [List.length_map, List.length_map] at hlength
  exact (List.takeWhile_prefix p).eq_of_length hlength

/-- The clauses read for an expression are right if it is listed, or an `And` of nothing. -/
theorem takeWhile_printed_iff (h : ∀ c ∈ inc.args, ∀ l ∈ c.clause.args, l.Fits) :
    ((printed inc).takeWhile fun c => decide (c.args ≠ [])).map litsOf = exprOf inc ↔
      Listed inc ∨ inc = .conj [] := by
  cases inc with
  | conj args =>
      have hexpr : exprOf (.conj args) = (args.map Conjunct.clause).map litsOf := by
        rw [List.map_map]
        rfl
      rw [hexpr, printed, map_takeWhile_eq_iff, Listed]
      by_cases hnil : args = []
      · simp [hnil]
      · simp [hnil]
  | clause conjunct =>
      obtain ⟨clause, isImportant⟩ := conjunct
      have hargs : ∀ l ∈ clause.args, l.Fits := h _ List.mem_cons_self
      cases clause with
      | literal l =>
          have hl : l.Fits := hargs l List.mem_cons_self
          cases l with
          | constFalse => exact absurd hl.1 (Nat.lt_irrefl 0)
          | constTrue => exact absurd hl.1 (Nat.lt_irrefl 0)
          | var name => simp [printed, exprOf, Expression.args, Listed, Clause.args, Literal.number]
          | notVar name =>
              simp [printed, exprOf, Expression.args, Listed, Clause.args, Literal.number, litsOf,
                Lit.of]
      | disj args =>
          have hall : (args.map Clause.literal).takeWhile (fun c => decide (c.args ≠ [])) =
              args.map Clause.literal :=
            List.takeWhile_eq_self_iff.mpr (List.forall_mem_map.mpr fun l _ => rfl)
          rw [printed, hall, Listed, List.map_map]
          cases args with
          | nil => simp [exprOf, Expression.args]
          | cons l args =>
              cases args with
              | nil => simp [exprOf, Expression.args, Clause.args, litsOf]
              | cons l' args => simp [exprOf, Expression.args, Clause.args, litsOf]

theorem Listed.complete (h : Listed inc) : Complete inc := by
  cases inc with
  | conj args =>
      obtain ⟨hne, hargs⟩ := h
      exact ⟨mt List.map_eq_nil_iff.mp hne, List.forall_mem_map.mpr hargs⟩
  | clause conjunct =>
      obtain ⟨clause, isImportant⟩ := conjunct
      cases clause with
      | literal l => cases l <;> simp [Complete, printed, Clause.args]
      | disj args =>
          have hne : args ≠ [] := by
            rintro rfl
            cases h
          simp [Complete, printed, Clause.args, hne]

/-- The expressions are read as they were printed exactly if they are readable. -/
theorem parseExprs_iff (h : ∀ inc ∈ incremental, ∀ c ∈ inc.args, ∀ l ∈ c.clause.args, l.Fits)
    (hline : isLiteralLine line = false) (hend : parseExprs (line :: rest) = []) :
    parseExprs (incremental.flatMap Expression.lines ++ line :: rest) = incremental.map exprOf ↔
      Readable incremental := by
  induction incremental with
  | nil => exact iff_of_true hend trivial
  | cons inc incremental ih =>
      obtain ⟨hinc, h⟩ := List.forall_mem_cons.mp h
      have hprinted := fits_printed hinc
      -- the line after the expression has no literal on it either
      obtain ⟨next, others, hnext, hkind⟩ : ∃ next others,
          incremental.flatMap Expression.lines ++ line :: rest = next :: others ∧
            isLiteralLine next = false := by
        cases incremental with
        | nil => exact ⟨_, _, rfl, hline⟩
        | cons inc' incremental => exact ⟨_, _, rfl, rfl⟩
      rw [List.flatMap_cons, List.append_assoc, hnext, parseExprs_lines hprinted hkind, ← hnext,
        List.map_cons, List.cons.injEq, takeWhile_printed_iff hinc, Readable]
      by_cases hcomplete : Complete inc
      · have hne : inc ≠ .conj [] := by
          rintro rfl
          exact hcomplete.1 rfl
        rw [if_pos hcomplete, ih h]
        simp [hne]
      · have hnot : ¬ Listed inc := fun hlisted => hcomplete hlisted.complete
        simp [hcomplete, hnot]

theorem ne_heading (hline : OtherComment line) : line ≠ "c incrementalExprs:".toList := by
  rintro rfl
  exact hline.third rfl

theorem parseLines_append (hlines : ∀ line ∈ lines, OtherComment line) :
    parseLines (lines ++ rest) = parseLines rest := by
  induction lines with
  | nil => rfl
  | cons line lines ih =>
      obtain ⟨hline, hlines⟩ := List.forall_mem_cons.mp hlines
      rw [List.cons_append, parseLines, if_pos hline.head, if_neg (ne_heading hline), ih hlines]

/-- `parseLiterals` reads the expressions that were printed exactly if they are readable. -/
theorem parseLiterals_iff (h : Fits cnf) :
    parseLiterals cnf.text = cnf.incremental.map exprOf ↔ Readable cnf.incremental := by
  have hstop : ∀ rest, parseLines (cnf.problemLine :: rest) = [] := fun rest => by
    have hhead : cnf.problemLine.head? = some 'p' := rfl
    rw [parseLines, hhead]
    rfl
  rw [parseLiterals, getlines_text, comments_eq, List.append_assoc,
    parseLines_append fun line hline => otherComment_before hline, List.append_assoc,
    incrementalLines]
  by_cases hnil : cnf.incremental = []
  · rw [if_pos (List.isEmpty_iff.mpr hnil), hnil, List.nil_append,
      parseLines_append fun line hline => otherComment_after hline, hstop]
    exact iff_of_true rfl trivial
  · obtain ⟨heading, others, hafter, hheading⟩ := cnf.head?_after
    have hkind : isLiteralLine heading = false := by
      rcases hheading with rfl | rfl | rfl <;> rfl
    have hend : ∀ rest, parseExprs (heading :: rest) = [] := fun rest =>
      parseExprs_of_ne (by rcases hheading with rfl | rfl | rfl <;> decide)
    have hhead : "c incrementalExprs:".toList.head? = some 'c' := rfl
    rw [if_neg (mt List.isEmpty_iff.mp hnil), List.cons_append, parseLines, if_pos hhead,
      if_pos rfl, hafter, List.cons_append]
    exact parseExprs_iff h.incremental hkind (hend _)

/-- The incremental solver reads the clauses and the incremental expressions of a printed formula
exactly if these expressions are readable. -/
theorem parses_iff (h : Fits cnf) :
    (parseClauses cnf.text =
        some ((cnf.variables_.length : Int), cnf.clauses.map fun c => litsOf c.clause) ∧
      parseLiterals cnf.text = cnf.incremental.map exprOf) ↔ Readable cnf.incremental :=
  (and_iff_right (parseClauses_text h)).trans (parseLiterals_iff h)

/-- A formula over two variables with one incremental expression. -/
def oneExpr (inc : Expression) : CNF where
  clauses := [⟨.disj [.var 1, .notVar 2], true⟩]
  variables_ := [1, 2]
  incremental := [inc]

theorem parses_iff_and :
    (parseClauses (oneExpr (.conj [⟨.disj [.var 1, .var 2], true⟩])).text =
        some (2, [[⟨0, false⟩, ⟨1, true⟩]]) ∧
      parseLiterals (oneExpr (.conj [⟨.disj [.var 1, .var 2], true⟩])).text =
        [[[⟨0, false⟩, ⟨1, false⟩]]]) ↔
    Readable [.conj [⟨.disj [.var 1, .var 2], true⟩]] := by
  have hfits : Fits (oneExpr (.conj [⟨.disj [.var 1, .var 2], true⟩])) := {
    clauses := by decide
    incremental := by decide
    variables_ := by decide
    length := by decide }
  exact parses_iff hfits

/-- The literals of an `Or` are read as clauses of their own. -/
theorem not_parses :
    ¬ ∀ cnf : CNF, Fits cnf → parseClauses cnf.text =
        some ((cnf.variables_.length : Int), cnf.clauses.map fun c => litsOf c.clause) ∧
      parseLiterals cnf.text = cnf.incremental.map exprOf := by
  intro h
  have hfits : Fits (oneExpr (.clause ⟨.disj [.var 1, .var 2], true⟩)) := {
    clauses := by decide
    incremental := by decide
    variables_ := by decide
    length := by decide }
  have hreadable := (parseLiterals_iff hfits).mp (h _ hfits).2
  simp [oneExpr, Readable, Listed] at hreadable

end Expressions

end LatinSquares.Incremental
