/-
# Reading text as a stream

`getline` cuts the next line off a text, and `>>` reads the next word or number of it, after
blanks. A text of lines is read line by line, and numbers after single blanks are read one by
one, as long as they fit into 32 bits with a sign.
-/

import LatinSquares.Math.Words
import Mathlib.Algebra.Ring.Int.Defs
import Mathlib.Algebra.Ring.Nat
import Mathlib.Data.List.TakeWhile

namespace LatinSquares.Math

/-- `isspace`. -/
def isSpace (c : Char) : Bool := c == ' ' || (9 ≤ c.toNat && c.toNat ≤ 13)

/-- The lines that `std::getline` reads one after the other. -/
def getlines (text : List Char) : List (List Char) := text.splitOn '\n'

/-- The text from the next line on. -/
def textOf (lines : List (List Char)) : List Char := ['\n'].intercalate lines

/-- A word read with `>>`. -/
def readWord (text : List Char) : Option (List Char × List Char) :=
  let text := text.dropWhile isSpace
  match text.takeWhile fun c => !isSpace c with
  | [] => none
  | word => some (word, text.dropWhile fun c => !isSpace c)

/-- The sign in front of a number; a plus sign may stand there. -/
def readSign : List Char → Bool × List Char
  | '-' :: text => (false, text)
  | '+' :: text => (true, text)
  | text => (true, text)

/-- The number with this sign. -/
def signed (positive : Bool) (number : Nat) : Int := if positive then number else -number

/-- An `int` read with `>>`. A number that does not fit is a failure. -/
def readInt (text : List Char) : Option (Int × List Char) :=
  let (positive, text) := readSign (text.dropWhile isSpace)
  match text.takeWhile Char.isDigit with
  | [] => none
  | digits =>
      let value := signed positive (Nat.ofDigitChars 10 digits 0)
      if -2 ^ 31 ≤ value ∧ value < 2 ^ 31 then some (value, text.dropWhile Char.isDigit)
      else none

/-- What `>>` leaves in a number: nothing where only blanks are left, so that the number stays
unset. Else the value it stores and the rest of the text, unless the stream has failed: a text
that is no number stores `0`, and a number that does not fit stores a bound. -/
def extract (fits : Int → Bool) (bound : Bool → Int) (text : List Char) :
    Option (Int × Option (List Char)) :=
  match text.dropWhile isSpace with
  | [] => none
  | text =>
      let (positive, text) := readSign text
      match text.takeWhile Char.isDigit with
      | [] => some (0, none)
      | digits =>
          let value := signed positive (Nat.ofDigitChars 10 digits 0)
          if fits value then some (value, some (text.dropWhile Char.isDigit))
          else some (bound positive, none)

/-- `>>` for an `int`. -/
def extractInt : List Char → Option (Int × Option (List Char)) :=
  extract (fun value => -2 ^ 31 ≤ value && value < 2 ^ 31)
    fun positive => if positive then 2 ^ 31 - 1 else -2 ^ 31

/-- `>>` for a `uint32_t`; the negative of a number is taken modulo `2 ^ 32` when it is stored. -/
def extractUnsigned : List Char → Option (Int × Option (List Char)) :=
  extract (fun value => -2 ^ 32 < value && value < 2 ^ 32) fun _ => 2 ^ 32 - 1

/-- `while (s >> number)`, for at most as many rounds as the fuel says. -/
def readIntsFrom : Nat → List Char → List Int
  | 0, _ => []
  | fuel + 1, text =>
      match readInt text with
      | none => []
      | some (value, text) => value :: readIntsFrom fuel text

/-- `while (s >> number)`: every number takes a character at least. -/
def readInts (text : List Char) : List Int := readIntsFrom text.length text

/-- Numbers read with `>>` up to a zero, for at most as many rounds as the fuel says. -/
def readToZeroFrom : Nat → List Char → Option (List Int × List Char)
  | 0, _ => none
  | fuel + 1, text => do
      let (value, text) ← readInt text
      if value = 0 then return ([], text)
      let (values, text) ← readToZeroFrom fuel text
      return (value :: values, text)

/-- Numbers read with `>>` up to a zero. -/
def readToZero (text : List Char) : Option (List Int × List Char) :=
  readToZeroFrom text.length text

/-- A text of lines. -/
def unlines (lines : List (List Char)) : List Char := lines.flatMap fun line => line ++ ['\n']

variable {text rest line : List Char} {positive : Bool} {number : Nat}

theorem isSpace_space : isSpace ' ' = true := rfl

theorem isSpace_newline : isSpace '\n' = true := rfl

theorem isSpace_of_isDigit {c : Char} (h : c.isDigit = true) : isSpace c = false := by
  have hbounds : 48 ≤ c.toNat ∧ c.toNat ≤ 57 := by
    simpa [Char.isDigit, UInt32.le_iff_toNat_le] using h
  have hne : c ≠ ' ' := by
    rintro rfl
    exact absurd hbounds.1 (by decide)
  simp [isSpace, hne]
  omega

theorem textOf_getlines (text : List Char) : textOf (getlines text) = text :=
  List.intercalate_splitOn '\n'

theorem unlines_append (lines lines' : List (List Char)) :
    unlines (lines ++ lines') = unlines lines ++ unlines lines' := List.flatMap_append

theorem unlines_cons (line : List Char) (lines : List (List Char)) :
    unlines (line :: lines) = line ++ '\n' :: unlines lines := by
  simp [unlines]

theorem unlines_flatMap {A : Type} (entries : List A) (lines : A → List (List Char)) :
    unlines (entries.flatMap lines) = entries.flatMap fun a => unlines (lines a) :=
  List.flatMap_assoc

theorem getlines_append (hline : '\n' ∉ line) :
    getlines (line ++ '\n' :: text) = line :: getlines text := by
  rw [getlines, List.splitOn_append_cons_self, List.splitOn_eq_singleton hline]
  rfl

theorem getlines_unlines {lines : List (List Char)} (hlines : ∀ line ∈ lines, '\n' ∉ line)
    (text : List Char) : getlines (unlines lines ++ text) = lines ++ getlines text := by
  induction lines with
  | nil => rfl
  | cons line lines ih =>
      obtain ⟨hline, hlines⟩ := List.forall_mem_cons.mp hlines
      rw [unlines_cons, List.append_assoc, List.cons_append, getlines_append hline, ih hlines]
      rfl

theorem readInt_of_isSpace {c : Char} (hc : isSpace c = true) (text : List Char) :
    readInt (c :: text) = readInt text := by
  simp [readInt, hc]

theorem takeWhile_isDigit_numeral (hrest : ∀ c ∈ rest.head?, c.isDigit = false) :
    (numeral number ++ rest).takeWhile Char.isDigit = numeral number := by
  rw [List.takeWhile_append_of_pos fun c hc => isDigit_of_mem_numeral hc]
  cases rest with
  | nil => exact List.append_nil _
  | cons c rest => simp [hrest c rfl]

theorem dropWhile_isDigit_numeral (hrest : ∀ c ∈ rest.head?, c.isDigit = false) :
    (numeral number ++ rest).dropWhile Char.isDigit = rest := by
  rw [List.dropWhile_append_of_pos fun c hc => isDigit_of_mem_numeral hc]
  cases rest with
  | nil => rfl
  | cons c rest => simp [hrest c rfl]

theorem readSign_signedNumeral :
    readSign (signedNumeral positive number ++ rest) = (positive, numeral number ++ rest) := by
  cases positive with
  | false => rfl
  | true =>
      obtain ⟨c, cs, heq, hdigit⟩ := exists_numeral_eq_cons number
      rw [signedNumeral, if_pos rfl, heq, List.cons_append]
      unfold readSign
      split
      · next hsign =>
          obtain rfl := (List.cons.inj hsign).1
          cases hdigit
      · next hsign =>
          obtain rfl := (List.cons.inj hsign).1
          cases hdigit
      · rfl

theorem dropWhile_isSpace_signedNumeral :
    (signedNumeral positive number ++ rest).dropWhile isSpace =
      signedNumeral positive number ++ rest := by
  cases positive with
  | false => rfl
  | true =>
      obtain ⟨c, cs, heq, hdigit⟩ := exists_numeral_eq_cons number
      rw [signedNumeral, if_pos rfl, heq, List.cons_append, List.dropWhile_cons_of_neg]
      simp [isSpace_of_isDigit hdigit]

/-- A numeral is read as its number, if no digit follows. -/
theorem readInt_signedNumeral (hfits : number < 2 ^ 31)
    (hrest : ∀ c ∈ rest.head?, c.isDigit = false) :
    readInt (signedNumeral positive number ++ rest) = some (signed positive number, rest) := by
  have hvalue : Nat.ofDigitChars 10 (numeral number) 0 = number := Nat.ofDigitChars_ten_toDigits
  have hbounds : -2 ^ 31 ≤ signed positive number ∧ signed positive number < 2 ^ 31 := by
    cases positive <;> simp only [signed] <;> omega
  unfold readInt
  rw [dropWhile_isSpace_signedNumeral, readSign_signedNumeral]
  simp only [takeWhile_isDigit_numeral hrest, dropWhile_isDigit_numeral hrest]
  obtain ⟨c, cs, heq, -⟩ := exists_numeral_eq_cons number
  rw [heq] at hvalue ⊢
  simp only [hvalue, if_pos hbounds]

/-- A numeral that fits is extracted. -/
theorem extract_signedNumeral {fits : Int → Bool} (bound : Bool → Int)
    (hfits : fits (signed positive number) = true)
    (hrest : ∀ c ∈ rest.head?, c.isDigit = false) :
    extract fits bound (' ' :: (signedNumeral positive number ++ rest)) =
      some (signed positive number, some rest) := by
  have hvalue : Nat.ofDigitChars 10 (numeral number) 0 = number := Nat.ofDigitChars_ten_toDigits
  obtain ⟨c, cs, hcons⟩ : ∃ c cs, signedNumeral positive number ++ rest = c :: cs := by
    obtain ⟨c, cs, heq, -⟩ := exists_numeral_eq_cons number
    cases positive with
    | false => exact ⟨_, _, rfl⟩
    | true => exact ⟨c, cs ++ rest, by simp [signedNumeral, heq]⟩
  have hskip : (' ' :: (signedNumeral positive number ++ rest)).dropWhile isSpace = c :: cs := by
    rw [List.dropWhile_cons_of_pos isSpace_space, dropWhile_isSpace_signedNumeral, hcons]
  unfold extract
  simp only [hskip]
  rw [← hcons, readSign_signedNumeral]
  simp only [takeWhile_isDigit_numeral hrest, dropWhile_isDigit_numeral hrest]
  obtain ⟨d, ds, heq, -⟩ := exists_numeral_eq_cons number
  rw [heq] at hvalue ⊢
  simp only [hvalue, if_pos hfits]

theorem extractInt_numeral (hfits : number < 2 ^ 31)
    (hrest : ∀ c ∈ rest.head?, c.isDigit = false) :
    extractInt (' ' :: (numeral number ++ rest)) = some ((number : Int), some rest) := by
  have hread : extractInt (' ' :: (signedNumeral true number ++ rest)) =
      some (signed true number, some rest) := by
    apply extract_signedNumeral
    · simp only [signed, if_true, Bool.and_eq_true, decide_eq_true_eq]
      omega
    · exact hrest
  exact hread

theorem extractUnsigned_numeral (hfits : number < 2 ^ 32)
    (hrest : ∀ c ∈ rest.head?, c.isDigit = false) :
    extractUnsigned (' ' :: (numeral number ++ rest)) = some ((number : Int), some rest) := by
  have hread : extractUnsigned (' ' :: (signedNumeral true number ++ rest)) =
      some (signed true number, some rest) := by
    apply extract_signedNumeral
    · simp only [signed, if_true, Bool.and_eq_true, decide_eq_true_eq]
      omega
    · exact hrest
  exact hread

theorem length_le_length_flatMap (numbers : List (Bool × Nat)) :
    numbers.length ≤ (numbers.flatMap fun x => ' ' :: signedNumeral x.1 x.2).length := by
  induction numbers with
  | nil => exact Nat.le_refl 0
  | cons x numbers ih =>
      rw [List.flatMap_cons, List.length_append, List.length_cons, List.length_cons]
      omega

theorem readInt_numeral (hfits : number < 2 ^ 31)
    (hrest : ∀ c ∈ rest.head?, c.isDigit = false) :
    readInt (' ' :: (numeral number ++ rest)) = some ((number : Int), rest) := by
  have hread : readInt (signedNumeral true number ++ rest) = some (signed true number, rest) :=
    readInt_signedNumeral hfits hrest
  rw [readInt_of_isSpace isSpace_space]
  exact hread

/-- Numbers after single blanks are read one by one. -/
theorem readIntsFrom_numerals {numbers : List (Bool × Nat)} {fuel : Nat}
    (hfits : ∀ x ∈ numbers, x.2 < 2 ^ 31) (hfuel : numbers.length ≤ fuel)
    (hrest : readInt rest = none) (hdigit : ∀ c ∈ rest.head?, c.isDigit = false) :
    readIntsFrom fuel ((numbers.flatMap fun x => ' ' :: signedNumeral x.1 x.2) ++ rest) =
      numbers.map fun x => signed x.1 x.2 := by
  induction numbers generalizing fuel with
  | nil =>
      cases fuel with
      | zero => rfl
      | succ fuel => simp [readIntsFrom, hrest]
  | cons x numbers ih =>
      obtain ⟨fuel, rfl⟩ := Nat.exists_eq_add_one_of_ne_zero
        (Nat.ne_of_gt (Nat.lt_of_lt_of_le (Nat.succ_pos _) hfuel))
      obtain ⟨hx, hfits⟩ := List.forall_mem_cons.mp hfits
      have hnext :
          ∀ c ∈ ((numbers.flatMap fun x => ' ' :: signedNumeral x.1 x.2) ++ rest).head?,
          c.isDigit = false := by
        cases numbers with
        | nil => exact hdigit
        | cons y numbers =>
            intro c hc
            obtain rfl := Option.some.inj hc
            rfl
      rw [List.flatMap_cons, List.cons_append, List.cons_append, readIntsFrom,
        readInt_of_isSpace isSpace_space, List.append_assoc, readInt_signedNumeral hx hnext]
      simp only [List.map_cons, List.cons.injEq, true_and]
      exact ih hfits (Nat.le_of_succ_le_succ hfuel)

theorem readInts_numerals {numbers : List (Bool × Nat)} (hfits : ∀ x ∈ numbers, x.2 < 2 ^ 31)
    (hrest : readInt rest = none) (hdigit : ∀ c ∈ rest.head?, c.isDigit = false) :
    readInts ((numbers.flatMap fun x => ' ' :: signedNumeral x.1 x.2) ++ rest) =
      numbers.map fun x => signed x.1 x.2 := by
  refine readIntsFrom_numerals hfits ?_ hrest hdigit
  rw [List.length_append]
  exact Nat.le_add_right_of_le (length_le_length_flatMap numbers)

theorem readToZeroFrom_of_isSpace {c : Char} (hc : isSpace c = true) {fuel : Nat} :
    readToZeroFrom fuel (c :: text) = readToZeroFrom fuel text := by
  cases fuel with
  | zero => rfl
  | succ fuel => rw [readToZeroFrom, readToZeroFrom, readInt_of_isSpace hc]

/-- Numbers after single blanks are read up to the zero behind them. -/
theorem readToZeroFrom_numerals {numbers : List (Bool × Nat)} {fuel : Nat}
    (hpos : ∀ x ∈ numbers, 0 < x.2) (hfits : ∀ x ∈ numbers, x.2 < 2 ^ 31)
    (hfuel : numbers.length < fuel) (hdigit : ∀ c ∈ rest.head?, c.isDigit = false) :
    readToZeroFrom fuel ((numbers.flatMap fun x => ' ' :: signedNumeral x.1 x.2) ++
      ' ' :: '0' :: rest) = some (numbers.map fun x => signed x.1 x.2, rest) := by
  obtain ⟨fuel, rfl⟩ :=
    Nat.exists_eq_add_one_of_ne_zero (Nat.ne_of_gt (Nat.zero_lt_of_lt hfuel))
  have hzero : readInt (signedNumeral true 0 ++ rest) = some (signed true 0, rest) :=
    readInt_signedNumeral (by decide) hdigit
  change readInt ('0' :: rest) = some (0, rest) at hzero
  induction numbers generalizing fuel with
  | nil =>
      rw [List.flatMap_nil, List.nil_append, readToZeroFrom, readInt_of_isSpace isSpace_space,
        hzero]
      rfl
  | cons x numbers ih =>
      obtain ⟨hx, hfits⟩ := List.forall_mem_cons.mp hfits
      obtain ⟨hxpos, hpos⟩ := List.forall_mem_cons.mp hpos
      have hnext : ∀ c ∈ ((numbers.flatMap fun x => ' ' :: signedNumeral x.1 x.2) ++
          ' ' :: '0' :: rest).head?, c.isDigit = false := by
        intro c hc
        cases numbers <;> (obtain rfl := Option.some.inj hc; rfl)
      have hne : signed x.1 x.2 ≠ 0 := by
        unfold signed
        split <;> omega
      obtain ⟨fuel, rfl⟩ := Nat.exists_eq_add_one_of_ne_zero
        (Nat.ne_of_gt (Nat.zero_lt_of_lt (Nat.lt_of_succ_lt_succ hfuel)))
      rw [List.flatMap_cons, List.cons_append, List.cons_append, readToZeroFrom,
        readInt_of_isSpace isSpace_space, List.append_assoc, readInt_signedNumeral hx hnext]
      have hrest := ih hpos hfits fuel (Nat.lt_of_succ_lt_succ hfuel)
      simp only [Option.bind_eq_bind, Option.bind_some, if_neg hne, hrest]
      rfl

theorem readToZeroFrom_append {blank : List Char} (hblank : ∀ c ∈ blank, isSpace c = true)
    {fuel : Nat} : readToZeroFrom fuel (blank ++ text) = readToZeroFrom fuel text := by
  induction blank with
  | nil => rfl
  | cons c blank ih =>
      obtain ⟨hc, hblank⟩ := List.forall_mem_cons.mp hblank
      rw [List.cons_append, readToZeroFrom_of_isSpace hc, ih hblank]

theorem unwords_cons (word : List Char) (words : List (List Char)) :
    unwords (word :: words) = word ++ words.flatMap fun word => ' ' :: word := by
  induction words generalizing word with
  | nil => simp [unwords, List.intercalate]
  | cons next words ih =>
      have hrest := ih next
      simp only [unwords] at hrest ⊢
      rw [List.flatMap_cons, List.cons_append, ← hrest]
      simp [List.intercalate]

/-- Words with a blank behind each of them are a line with an empty word at its end. -/
theorem unwords_concat_nil (words : List (List Char)) :
    unwords (words ++ [[]]) = words.flatMap fun word => word ++ [' '] := by
  induction words with
  | nil => rfl
  | cons word words ih =>
      have hcons : ∃ next rest, words ++ [[]] = next :: rest :=
        List.exists_cons_of_ne_nil (by simp)
      obtain ⟨next, rest, hrest⟩ := hcons
      rw [List.cons_append, hrest, unwords_cons, List.flatMap_cons, List.flatMap_cons, ← ih, hrest,
        unwords_cons]
      simp

/-- Numbers on a line are read up to the zero at its end. -/
theorem readToZero_unwords {blank : List Char} (hblank : ∀ c ∈ blank, isSpace c = true)
    {numbers : List (Bool × Nat)} (hpos : ∀ x ∈ numbers, 0 < x.2)
    (hfits : ∀ x ∈ numbers, x.2 < 2 ^ 31) (hdigit : ∀ c ∈ rest.head?, c.isDigit = false) :
    readToZero (blank ++ unwords (numbers.map fun x => signedNumeral x.1 x.2) ++
      ' ' :: '0' :: rest) = some (numbers.map fun x => signed x.1 x.2, rest) := by
  have hlength := length_le_length_flatMap numbers
  rw [readToZero, List.append_assoc, readToZeroFrom_append hblank]
  cases numbers with
  | nil =>
      refine readToZeroFrom_numerals hpos hfits ?_ hdigit
      simp only [List.length_append, List.length_cons, List.length_nil]
      omega
  | cons x numbers =>
      have htext : ' ' :: (unwords ((x :: numbers).map fun x => signedNumeral x.1 x.2) ++
          ' ' :: '0' :: rest) = ((x :: numbers).flatMap fun x => ' ' :: signedNumeral x.1 x.2) ++
            ' ' :: '0' :: rest := by
        rw [List.map_cons, unwords_cons, List.flatMap_map, List.flatMap_cons]
        simp
      have hsame := congrArg List.length htext
      rw [← readToZeroFrom_of_isSpace isSpace_space, htext]
      refine readToZeroFrom_numerals hpos hfits ?_ hdigit
      simp only [List.length_append, List.length_cons] at hlength hsame ⊢
      omega

/-- All numbers of a line are read. -/
theorem readInts_unwords {numbers : List (Bool × Nat)} (hfits : ∀ x ∈ numbers, x.2 < 2 ^ 31) :
    readInts (' ' :: unwords (numbers.map fun x => signedNumeral x.1 x.2)) =
      numbers.map fun x => signed x.1 x.2 := by
  have hnone : readInt [] = none := rfl
  cases numbers with
  | nil => rfl
  | cons x numbers =>
      have hread := readInts_numerals hfits hnone nofun
      rw [List.append_nil, List.flatMap_cons] at hread
      rw [List.map_cons, unwords_cons, List.flatMap_map]
      exact hread

/-- Numbers with a blank behind each of them are read as far as they go. -/
theorem readInts_blanks (numbers : List (Bool × Nat)) {c : Char} (hc : isSpace c = true)
    (hfits : ∀ x ∈ numbers, x.2 < 2 ^ 31) (hrest : readInt rest = none) :
    readInts (c :: ((numbers.flatMap fun x => signedNumeral x.1 x.2 ++ [' ']) ++ rest)) =
      numbers.map fun x => signed x.1 x.2 := by
  have hblank : ∀ text, readInts (c :: text) = readInts (' ' :: text) := by
    intro text
    rw [readInts, readInts, List.length_cons, List.length_cons, readIntsFrom, readIntsFrom,
      readInt_of_isSpace hc, readInt_of_isSpace isSpace_space]
  have hshift : ' ' :: ((numbers.flatMap fun x => signedNumeral x.1 x.2 ++ [' ']) ++ rest) =
      (numbers.flatMap fun x => ' ' :: signedNumeral x.1 x.2) ++ ' ' :: rest := by
    clear hfits
    induction numbers with
    | nil => rfl
    | cons x numbers ih =>
        rw [List.flatMap_cons, List.flatMap_cons, List.append_assoc, List.append_assoc,
          List.cons_append, List.append_assoc, ← ih]
        rfl
  have hspace : ∀ c ∈ (' ' :: rest).head?, c.isDigit = false := by
    intro c hc
    obtain rfl := Option.some.inj hc
    rfl
  rw [hblank, hshift]
  refine readInts_numerals hfits ?_ hspace
  rw [readInt_of_isSpace isSpace_space, hrest]

end LatinSquares.Math
