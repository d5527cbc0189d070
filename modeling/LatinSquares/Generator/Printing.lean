/-
# The printed formula

`CNF.toString` of `Expression.kt` writes the sections that are not empty as comment lines, each
below its heading, and then the clauses in DIMACS format. The text is a list of characters.
-/

import LatinSquares.Generator.Encoders
import LatinSquares.Math.Streams

namespace LatinSquares.Generator

open LatinSquares.Math

/-- `joinToString(separator, start, finish)`. -/
def joinToString (separator start finish : List Char) (texts : List (List Char)) : List Char :=
  start ++ separator.intercalate texts ++ finish

/-- `toString` of a literal; the constants have the empty name. -/
def Literal.text : Literal → List Char
  | constFalse => []
  | constTrue => []
  | var name => numeral name
  | notVar name => '-' :: numeral name

/-- `toString` of a clause. -/
def Clause.text : Clause → List Char
  | literal l => l.text
  | disj args => joinToString [' '] [] [] (args.map Literal.text)

/-- The texts of `args`. Those of an `Or` are its literals, and that of a `Not` is its
variable. -/
def Expression.argTexts : Expression → List (List Char)
  | conj args => args.map fun c => c.clause.text
  | clause ⟨.literal (.notVar name), _⟩ => [numeral name]
  | clause ⟨.literal l, _⟩ => [l.text]
  | clause ⟨.disj args, _⟩ => args.map Literal.text

/-- `toString` of a node. -/
def Node.text : Node → List Char
  | value var b =>
      "value ".toList ++ numeral var ++ ' ' :: if b then "true".toList else "false".toList
  | andIff var args =>
      "andIff ".toList ++ numeral var ++ ' ' :: joinToString [' '] [] [] (args.map Literal.text)
  | orIff var args =>
      "orIff ".toList ++ numeral var ++ ' ' :: joinToString [' '] [] [] (args.map Literal.text)
  | orAnd var args => "or_and ".toList ++ numeral var ++ ' ' ::
      joinToString " 0 ".toList [] " 0".toList
        (args.map fun conj => joinToString [' '] [] [] (conj.map Literal.text))

/-- A cell with its domain. -/
def MetaVariable.text (metaVar : MetaVariable) : List Char :=
  "c newVar ".toList ++ numeral metaVar.matrix ++ ' ' :: numeral metaVar.row ++
    ' ' :: numeral metaVar.column ++ [':', '\n'] ++
    metaVar.values.flatMap fun entry =>
      "c ".toList ++ numeral entry.1 ++
        ' ' :: joinToString [' '] [] [] (entry.2.map Literal.text) ++ ['\n']

namespace CNF

def coreText (cnf : CNF) : List Char :=
  if cnf.coreVariables.isEmpty then []
  else "c core variables:".toList ++ '\n' ::
    joinToString [' '] "c ".toList ['\n'] (cnf.coreVariables.map numeral)

def metaText (cnf : CNF) : List Char :=
  if cnf.metaVariables.isEmpty then []
  else "c metaVariables:".toList ++ '\n' :: cnf.metaVariables.flatMap MetaVariable.text

def incrementalText (cnf : CNF) : List Char :=
  if cnf.incremental.isEmpty then []
  else "c incrementalExprs:".toList ++ '\n' :: cnf.incremental.flatMap fun inc =>
    "c expr:".toList ++ '\n' :: joinToString "\nc ".toList "c ".toList ['\n'] inc.argTexts

def netText (cnf : CNF) : List Char :=
  if cnf.net.isEmpty then []
  else "c computationalNet:".toList ++ '\n' ::
    joinToString "\nc ".toList "c ".toList ['\n'] (cnf.net.map Node.text)

def weightsText (cnf : CNF) : List Char :=
  if cnf.weights.isEmpty then []
  else "c weights:".toList ++ '\n' :: 'c' ::
      (cnf.weights.flatMap fun weight => ' ' :: numeral weight) ++
    ['\n']

/-- The indices of the important clauses. -/
def toCompute (cnf : CNF) : List Nat :=
  (List.range cnf.clauses.length).filter fun i => (cnf.clauses.getD i default).isImportant

def toComputeText (cnf : CNF) : List Char :=
  "c toCompute:".toList ++ '\n' :: 'c' :: (cnf.toCompute.flatMap fun i => ' ' :: numeral i) ++
    ['\n']

def clausesText (cnf : CNF) : List Char :=
  joinToString " 0\n".toList
    ("p cnf ".toList ++ numeral cnf.variables_.length ++ ' ' :: numeral cnf.clauses.length ++
      ['\n'])
    " 0\n".toList (cnf.clauses.map fun c => c.clause.text)

/-- `toString`. -/
def text (cnf : CNF) : List Char :=
  cnf.coreText ++ cnf.metaText ++ cnf.incrementalText ++ cnf.netText ++ cnf.weightsText ++
    cnf.toComputeText ++ cnf.clausesText

end CNF

section Lines

variable {separator start finish text next : List Char} {texts : List (List Char)}

theorem joinToString_cons_cons : joinToString separator start finish (text :: next :: texts) =
    start ++ text ++ separator ++ joinToString separator [] finish (next :: texts) := by
  simp [joinToString, List.intercalate]

theorem joinToString_singleton : joinToString separator start finish [text] =
    start ++ text ++ finish := by
  simp [joinToString, List.intercalate]

theorem joinToString_start :
    joinToString separator start finish texts =
      start ++ joinToString separator [] finish texts := by
  simp [joinToString]

/-- The lines of a section in which every text follows a `c`. -/
def commentLines (texts : List (List Char)) : List (List Char) :=
  (if texts = [] then [[]] else texts).map fun text => 'c' :: ' ' :: text

theorem joinToString_comments (texts : List (List Char)) :
    joinToString "\nc ".toList "c ".toList ['\n'] texts = unlines (commentLines texts) := by
  cases texts with
  | nil => rfl
  | cons text texts =>
      rw [commentLines, if_neg (List.cons_ne_nil _ _)]
      induction texts generalizing text with
      | nil => simp [joinToString_singleton, unlines]
      | cons next texts ih =>
          rw [joinToString_cons_cons, List.map_cons, unlines, List.flatMap_cons]
          have hrest := ih next
          rw [joinToString_start, unlines] at hrest
          rw [← hrest]
          simp

end Lines

/-- The lines of a cell. -/
def MetaVariable.lines (metaVar : MetaVariable) : List (List Char) :=
  ("c newVar ".toList ++ numeral metaVar.matrix ++ ' ' :: numeral metaVar.row ++
    ' ' :: numeral metaVar.column ++ [':']) ::
    metaVar.values.map fun entry =>
      "c ".toList ++ numeral entry.1 ++
        ' ' :: joinToString [' '] [] [] (entry.2.map Literal.text)

/-- The lines of an incremental expression. -/
def Expression.lines (inc : Expression) : List (List Char) :=
  "c expr:".toList :: commentLines inc.argTexts

namespace CNF

def coreLines (cnf : CNF) : List (List Char) :=
  if cnf.coreVariables.isEmpty then []
  else ["c core variables:".toList, "c ".toList ++ unwords (cnf.coreVariables.map numeral)]

def metaLines (cnf : CNF) : List (List Char) :=
  if cnf.metaVariables.isEmpty then []
  else "c metaVariables:".toList :: cnf.metaVariables.flatMap MetaVariable.lines

def incrementalLines (cnf : CNF) : List (List Char) :=
  if cnf.incremental.isEmpty then []
  else "c incrementalExprs:".toList :: cnf.incremental.flatMap Expression.lines

def netLines (cnf : CNF) : List (List Char) :=
  if cnf.net.isEmpty then []
  else "c computationalNet:".toList :: commentLines (cnf.net.map Node.text)

def weightsLines (cnf : CNF) : List (List Char) :=
  if cnf.weights.isEmpty then []
  else ["c weights:".toList, 'c' :: cnf.weights.flatMap fun weight => ' ' :: numeral weight]

def toComputeLines (cnf : CNF) : List (List Char) :=
  ["c toCompute:".toList, 'c' :: cnf.toCompute.flatMap fun i => ' ' :: numeral i]

/-- The comment lines. -/
def comments (cnf : CNF) : List (List Char) :=
  cnf.coreLines ++ cnf.metaLines ++ cnf.incrementalLines ++ cnf.netLines ++ cnf.weightsLines ++
    cnf.toComputeLines

variable {cnf : CNF}

theorem coreText_eq : cnf.coreText = unlines cnf.coreLines := by
  unfold coreText coreLines
  split
  · rfl
  · simp [unlines, joinToString, unwords]

theorem metaText_eq : cnf.metaText = unlines cnf.metaLines := by
  unfold metaText metaLines
  split
  · rfl
  · rw [unlines_cons, unlines_flatMap]
    have hcell : ∀ metaVar : MetaVariable, metaVar.text = unlines metaVar.lines := by
      intro metaVar
      unfold MetaVariable.text MetaVariable.lines
      rw [unlines_cons, unlines, List.flatMap_map]
      simp
    rw [funext hcell]

theorem incrementalText_eq : cnf.incrementalText = unlines cnf.incrementalLines := by
  unfold incrementalText incrementalLines
  split
  · rfl
  · rw [unlines_cons, unlines_flatMap]
    have hinc : ∀ inc : Expression, "c expr:".toList ++ '\n' ::
        joinToString "\nc ".toList "c ".toList ['\n'] inc.argTexts = unlines inc.lines := by
      intro inc
      rw [joinToString_comments, Expression.lines, unlines_cons]
    simp only [hinc]

theorem netText_eq : cnf.netText = unlines cnf.netLines := by
  unfold netText netLines
  split
  · rfl
  · rw [joinToString_comments, unlines_cons]

theorem weightsText_eq : cnf.weightsText = unlines cnf.weightsLines := by
  unfold weightsText weightsLines
  split
  · rfl
  · rw [unlines_cons, unlines_cons]
    simp [unlines]

theorem toComputeText_eq : cnf.toComputeText = unlines cnf.toComputeLines := by
  unfold toComputeText toComputeLines
  rw [unlines_cons, unlines_cons]
  simp [unlines]

/-- The line between the comments and the clauses. -/
def problemLine (cnf : CNF) : List Char :=
  "p cnf ".toList ++ numeral cnf.variables_.length ++ ' ' :: numeral cnf.clauses.length

/-- The clauses, each with the zero at its end. -/
def clauseLines (cnf : CNF) : List Char :=
  joinToString " 0\n".toList [] " 0\n".toList (cnf.clauses.map fun c => c.clause.text)

theorem clausesText_eq : cnf.clausesText = cnf.problemLine ++ '\n' :: cnf.clauseLines := by
  unfold clausesText problemLine clauseLines
  rw [joinToString_start]
  simp

/-- The text starts with the comment lines. -/
theorem text_eq : cnf.text = unlines cnf.comments ++ cnf.clausesText := by
  unfold text comments
  simp only [unlines_append, coreText_eq, metaText_eq, incrementalText_eq, netText_eq,
    weightsText_eq, toComputeText_eq]

end CNF

section Characters

theorem newline_not_mem_numeral (number : Nat) : '\n' ∉ numeral number :=
  not_mem_numeral (by decide)

theorem newline_not_mem_joinToString {separator finish : List Char} {texts : List (List Char)}
    (hseparator : '\n' ∉ separator) (hfinish : '\n' ∉ finish)
    (htexts : ∀ text ∈ texts, '\n' ∉ text) :
    '\n' ∉ joinToString separator [] finish texts := by
  induction texts with
  | nil => simpa [joinToString] using hfinish
  | cons text texts ih =>
      obtain ⟨htext, htexts⟩ := List.forall_mem_cons.mp htexts
      cases texts with
      | nil => simp [joinToString_singleton, htext, hfinish]
      | cons next texts =>
          rw [joinToString_cons_cons]
          have hrest := ih htexts
          simp [htext, hseparator, hrest]

theorem newline_not_mem_text (l : Literal) : '\n' ∉ l.text := by
  cases l with
  | constFalse => exact List.not_mem_nil
  | constTrue => exact List.not_mem_nil
  | var name => exact newline_not_mem_numeral name
  | notVar name =>
      exact List.not_mem_cons_of_ne_of_not_mem (by decide) (newline_not_mem_numeral name)

theorem newline_not_mem_texts (args : List Literal) :
    '\n' ∉ joinToString [' '] [] [] (args.map Literal.text) := by
  refine newline_not_mem_joinToString (by decide) List.not_mem_nil fun text htext => ?_
  obtain ⟨l, -, rfl⟩ := List.mem_map.mp htext
  exact newline_not_mem_text l

theorem newline_not_mem_clause (c : Clause) : '\n' ∉ c.text := by
  cases c with
  | literal l => exact newline_not_mem_text l
  | disj args => exact newline_not_mem_texts args

theorem newline_not_mem_argTexts (inc : Expression) : ∀ text ∈ inc.argTexts, '\n' ∉ text := by
  intro text htext
  unfold Expression.argTexts at htext
  split at htext
  · obtain ⟨c, -, rfl⟩ := List.mem_map.mp htext
    exact newline_not_mem_clause c.clause
  · rw [List.mem_singleton.mp htext]
    exact newline_not_mem_numeral _
  · rw [List.mem_singleton.mp htext]
    exact newline_not_mem_text _
  · obtain ⟨l, -, rfl⟩ := List.mem_map.mp htext
    exact newline_not_mem_text l

theorem newline_not_mem_node (node : Node) : '\n' ∉ node.text := by
  have hnumeral := newline_not_mem_numeral
  have htexts := newline_not_mem_texts
  cases node with
  | value var b =>
      unfold Node.text
      cases b <;> simp [hnumeral]
  | andIff var args =>
      unfold Node.text
      simp [hnumeral, htexts]
  | orIff var args =>
      unfold Node.text
      simp [hnumeral, htexts]
  | orAnd var args =>
      have hargs : '\n' ∉ joinToString " 0 ".toList [] " 0".toList
          (args.map fun conj => joinToString [' '] [] [] (conj.map Literal.text)) := by
        refine newline_not_mem_joinToString (by decide) (by decide) fun text htext => ?_
        obtain ⟨conj, -, rfl⟩ := List.mem_map.mp htext
        exact htexts conj
      unfold Node.text
      simpa [hnumeral] using hargs

end Characters

namespace CNF

/-- A line of the comments. -/
structure Comment (line : List Char) : Prop where
  head : line.head? = some 'c'
  newline : '\n' ∉ line

theorem comment_cons {text : List Char} (h : '\n' ∉ text) : Comment ('c' :: text) :=
  ⟨rfl, List.not_mem_cons_of_ne_of_not_mem (by decide) h⟩

theorem comment_commentLines {texts : List (List Char)} (h : ∀ text ∈ texts, '\n' ∉ text) :
    ∀ line ∈ commentLines texts, Comment line := by
  intro line hline
  obtain ⟨text, htext, rfl⟩ := List.mem_map.mp hline
  refine comment_cons (List.not_mem_cons_of_ne_of_not_mem (by decide) ?_)
  split at htext
  · rw [List.mem_singleton.mp htext]
    exact List.not_mem_nil
  · exact h text htext

/-- A line of the comments that is not the heading of the incremental expressions. -/
structure OtherComment (text : List Char) : Prop extends Comment text where
  third : text[2]? ≠ some 'i'

theorem otherComment_cons {text : List Char} (h : '\n' ∉ text) (hhead : text.head? ≠ some 'i') :
    OtherComment ('c' :: ' ' :: text) where
  toComment := comment_cons (List.not_mem_cons_of_ne_of_not_mem (by decide) h)
  third := by
    cases text with
    | nil => exact Option.some_ne_none 'i' ∘ Eq.symm
    | cons c text => exact hhead

theorem head?_numeral_append (number : Nat) (rest : List Char) :
    (numeral number ++ rest).head? ≠ some 'i' := by
  obtain ⟨c, cs, heq, hdigit⟩ := exists_numeral_eq_cons number
  rw [heq]
  intro h
  obtain rfl := Option.some.inj h
  cases hdigit

/-- A line of numbers. -/
theorem otherComment_numerals (numbers : List Nat) :
    OtherComment ('c' :: numbers.flatMap fun number => ' ' :: numeral number) := by
  have hnewline : '\n' ∉ numbers.flatMap fun number => ' ' :: numeral number := by
    simp [newline_not_mem_numeral]
  cases numbers with
  | nil => exact ⟨comment_cons List.not_mem_nil, by decide⟩
  | cons number numbers =>
      refine otherComment_cons (fun hmem => hnewline (List.mem_cons_of_mem _ hmem)) ?_
      exact head?_numeral_append number _

variable {cnf : CNF} {line : List Char}

theorem otherComment_coreLines (hline : line ∈ cnf.coreLines) : OtherComment line := by
  unfold coreLines at hline
  split at hline
  · cases hline
  · next hne =>
      rcases List.mem_pair.mp hline with rfl | rfl
      · exact ⟨⟨by decide, by decide⟩, by decide⟩
      · obtain ⟨v, vs, hcore⟩ := List.exists_cons_of_ne_nil (mt List.isEmpty_iff.mpr hne)
        have hline := otherComment_numerals cnf.coreVariables
        rw [hcore] at hline ⊢
        rw [List.map_cons, unwords_cons, List.flatMap_map]
        exact hline

theorem otherComment_metaLines (hline : line ∈ cnf.metaLines) : OtherComment line := by
  unfold metaLines at hline
  split at hline
  · cases hline
  · rcases List.mem_cons.mp hline with rfl | hline
    · exact ⟨⟨by decide, by decide⟩, by decide⟩
    · obtain ⟨metaVar, -, hline⟩ := List.mem_flatMap.mp hline
      have hnumeral := newline_not_mem_numeral
      unfold MetaVariable.lines at hline
      rcases List.mem_cons.mp hline with rfl | hline
      · exact ⟨⟨rfl, by simp [hnumeral]⟩, by simp⟩
      · obtain ⟨entry, -, rfl⟩ := List.mem_map.mp hline
        refine otherComment_cons ?_ (head?_numeral_append entry.1 _)
        have htexts := newline_not_mem_texts entry.2
        simp [hnumeral, htexts]

theorem newline_not_mem_problemLine : '\n' ∉ cnf.problemLine := by
  unfold problemLine
  simp [newline_not_mem_numeral]

theorem head?_nodeText (node : Node) : node.text.head? ≠ some 'i' := by
  unfold Node.text
  cases node <;> simp

theorem otherComment_netLines (hline : line ∈ cnf.netLines) : OtherComment line := by
  unfold netLines at hline
  split at hline
  · cases hline
  · next hne =>
      rcases List.mem_cons.mp hline with rfl | hline
      · exact ⟨⟨by decide, by decide⟩, by decide⟩
      · obtain ⟨text, htext, rfl⟩ := List.mem_map.mp hline
        have hnodes : cnf.net.map Node.text ≠ [] := fun hnil =>
          hne (List.isEmpty_iff.mpr (List.map_eq_nil_iff.mp hnil))
        rw [if_neg hnodes] at htext
        obtain ⟨node, -, rfl⟩ := List.mem_map.mp htext
        exact otherComment_cons (newline_not_mem_node node) (head?_nodeText node)

theorem otherComment_weightsLines (hline : line ∈ cnf.weightsLines) : OtherComment line := by
  unfold weightsLines at hline
  split at hline
  · cases hline
  · rcases List.mem_pair.mp hline with rfl | rfl
    · exact ⟨⟨by decide, by decide⟩, by decide⟩
    · exact otherComment_numerals cnf.weights

theorem otherComment_toComputeLines (hline : line ∈ cnf.toComputeLines) : OtherComment line := by
  rcases List.mem_pair.mp hline with rfl | rfl
  · exact ⟨⟨by decide, by decide⟩, by decide⟩
  · exact otherComment_numerals cnf.toCompute

theorem comment_incrementalLines (hline : line ∈ cnf.incrementalLines) : Comment line := by
  unfold incrementalLines at hline
  split at hline
  · cases hline
  · rcases List.mem_cons.mp hline with rfl | hline
    · exact ⟨by decide, by decide⟩
    · obtain ⟨inc, -, hline⟩ := List.mem_flatMap.mp hline
      rcases List.mem_cons.mp hline with rfl | hline
      · exact ⟨by decide, by decide⟩
      · exact comment_commentLines (newline_not_mem_argTexts inc) line hline

/-- The lines before the incremental expressions. -/
def before (cnf : CNF) : List (List Char) := cnf.coreLines ++ cnf.metaLines

/-- The comments after the incremental expressions. -/
def after (cnf : CNF) : List (List Char) := cnf.netLines ++ cnf.weightsLines ++ cnf.toComputeLines

theorem comments_eq : cnf.comments = cnf.before ++ (cnf.incrementalLines ++ cnf.after) := by
  simp [comments, before, after]

theorem otherComment_before (hline : line ∈ cnf.before) : OtherComment line :=
  (List.mem_append.mp hline).elim otherComment_coreLines otherComment_metaLines

theorem otherComment_after (hline : line ∈ cnf.after) : OtherComment line := by
  rcases List.mem_append.mp hline with hline | hline
  · exact (List.mem_append.mp hline).elim otherComment_netLines otherComment_weightsLines
  · exact otherComment_toComputeLines hline

theorem comment_of_mem (hline : line ∈ cnf.comments) : Comment line := by
  rw [comments_eq] at hline
  rcases List.mem_append.mp hline with hline | hline
  · exact (otherComment_before hline).toComment
  · exact (List.mem_append.mp hline).elim comment_incrementalLines fun hline =>
      (otherComment_after hline).toComment

/-- The lines of the text. -/
theorem getlines_text :
    getlines cnf.text = cnf.comments ++ cnf.problemLine :: getlines cnf.clauseLines := by
  rw [text_eq, getlines_unlines fun line hline => (comment_of_mem hline).newline, clausesText_eq,
    getlines_append newline_not_mem_problemLine]

/-- The headings that may follow the incremental expressions. -/
theorem head?_after : ∃ heading rest, cnf.after = heading :: rest ∧
    (heading = "c computationalNet:".toList ∨ heading = "c weights:".toList ∨
      heading = "c toCompute:".toList) := by
  unfold after netLines weightsLines
  split
  · split
    · exact ⟨_, _, rfl, Or.inr (Or.inr rfl)⟩
    · exact ⟨_, _, rfl, Or.inr (Or.inl rfl)⟩
  · exact ⟨_, _, rfl, Or.inl rfl⟩

end CNF

section Numbers

/-- The sign and the number of a literal; the constants have none. -/
def Literal.number : Literal → Bool × Nat
  | constFalse => (true, 0)
  | constTrue => (true, 0)
  | var name => (true, name)
  | notVar name => (false, name)

/-- The literal of a variable, whose number fits into 32 bits with a sign. -/
def Literal.Fits (l : Literal) : Prop := 0 < l.number.2 ∧ l.number.2 < 2 ^ 31

instance : DecidablePred Literal.Fits := fun _ => inferInstanceAs (Decidable (_ ∧ _))

theorem Literal.Fits.text {l : Literal} (h : l.Fits) :
    l.text = signedNumeral l.number.1 l.number.2 := by
  cases l with
  | constFalse => exact absurd h.1 (Nat.lt_irrefl 0)
  | constTrue => exact absurd h.1 (Nat.lt_irrefl 0)
  | var name => rfl
  | notVar name => rfl

theorem joinToString_blank (texts : List (List Char)) :
    joinToString [' '] [] [] texts = unwords texts := by
  simp [joinToString, unwords]

/-- A clause of such literals is printed as a line of numerals. -/
theorem text_of_fits {c : Clause} (h : ∀ l ∈ c.args, l.Fits) :
    c.text = unwords ((c.args.map Literal.number).map fun x => signedNumeral x.1 x.2) := by
  rw [List.map_map]
  cases c with
  | literal l =>
      have hl : l.Fits := h l List.mem_cons_self
      simp [Clause.text, Clause.args, hl.text, unwords]
  | disj args =>
      rw [Clause.text, joinToString_blank]
      congr 1
      exact List.map_congr_left fun l hl => (h l hl).text

/-- A printed clause is read up to the end of its line. -/
theorem readToZero_text {c : Clause} (h : ∀ l ∈ c.args, l.Fits) {blank : List Char}
    (hblank : ∀ c ∈ blank, isSpace c = true) (rest : List Char) :
    readToZero (blank ++ c.text ++ ' ' :: '0' :: '\n' :: rest) =
      some (c.args.map fun l => signed l.number.1 l.number.2, '\n' :: rest) := by
  have hpos : ∀ x ∈ c.args.map Literal.number, 0 < x.2 := by
    intro x hx
    obtain ⟨l, hl, rfl⟩ := List.mem_map.mp hx
    exact (h l hl).1
  have hfits : ∀ x ∈ c.args.map Literal.number, x.2 < 2 ^ 31 := by
    intro x hx
    obtain ⟨l, hl, rfl⟩ := List.mem_map.mp hx
    exact (h l hl).2
  have hdigit : ∀ d ∈ ('\n' :: rest).head?, d.isDigit = false := by
    intro d hd
    obtain rfl := Option.some.inj hd
    rfl
  rw [text_of_fits h, readToZero_unwords hblank hpos hfits hdigit, List.map_map]
  rfl

end Numbers

end LatinSquares.Generator
