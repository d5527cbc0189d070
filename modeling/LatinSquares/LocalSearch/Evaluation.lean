/-
# The functions of the net nodes

What `propagate` computes, in terms of a total assignment and the flips. Nodes of the
kinds `andIff` and `orIff` look every argument up in the list of flips. An `orAnd` node
compares its arguments with the first entry of the list only.
-/

import LatinSquares.LocalSearch.Net

namespace LatinSquares.LocalSearch

open LatinSquares.Math

/-- `α XOR flipped`. -/
def flipAll (α : Nat → Bool) (flipped : List Nat) : Nat → Bool :=
  fun number => α number ^^ decide (number ∈ flipped)

/-- Inverting a variable exactly when it differs gives the other assignment. -/
theorem flipAll_eq {α β : Nat → Bool} {flipped : List Nat} {v : Nat}
    (h : v ∈ flipped ↔ β v ≠ α v) : flipAll α flipped v = β v := by
  rw [flipAll]
  by_cases hv : v ∈ flipped
  · simp only [hv, decide_true, Bool.xor_true]
    exact (Bool.eq_not.mpr (h.mp hv)).symm
  · simp [hv, not_ne_iff.mp (h.not.mp hv)]

theorem flippedValue_unitsOf (α : Nat → Bool) (number : Nat) (b : Bool) :
    flippedValue (unitsOf α) number b = (α number ^^ b) := by
  unfold flippedValue unitsOf
  cases α number <;> cases b <;> decide

theorem all_congr_of_mem {A : Type} {l : List A} {p q : A → Bool} (h : ∀ a ∈ l, p a = q a) :
    l.all p = l.all q := by
  rw [Bool.eq_iff_iff, List.all_eq_true, List.all_eq_true]
  exact forall₂_congr fun a ha => by rw [h a ha]

theorem any_congr_of_mem {A : Type} {l : List A} {p q : A → Bool} (h : ∀ a ∈ l, p a = q a) :
    l.any p = l.any q := by
  rw [Bool.eq_iff_iff, List.any_eq_true, List.any_eq_true]
  exact exists_congr fun a => and_congr_right fun ha => by rw [h a ha]

/-- Literals that a cursor looks up one after the other, each with the value found for its variable:
a flip counts only where no larger variable stands in front. `m` is the largest one in front. -/
def readArgs (α β : Nat → Bool) : Nat → List Literal → List (Bool × Bool)
  | _, [] => []
  | m, arg :: args =>
      (if m ≤ arg.number then β arg.number else α arg.number, arg.value) ::
        readArgs α β (max m arg.number) args

/-- Ascending literals are all read from `β`. -/
theorem readArgs_eq {args : List Literal} {m : Nat}
    (hargs : args.Pairwise fun a b => a.number ≤ b.number)
    (hm : ∀ arg ∈ args, m ≤ arg.number) (α β : Nat → Bool) :
    readArgs α β m args = args.map fun arg => (β arg.number, arg.value) := by
  induction args generalizing m with
  | nil => rfl
  | cons arg args ih =>
      obtain ⟨hhead, htail⟩ := List.pairwise_cons.mp hargs
      have hle : m ≤ arg.number := hm arg List.mem_cons_self
      rw [readArgs, if_pos hle, max_eq_right hle, ih htail hhead, List.map_cons]

namespace Node

variable {α : Nat → Bool} {args : List Literal} {flipped : List Nat} {m : Nat}

/-- The function of a node. -/
def eval (α : Nat → Bool) : Node → Bool
  | value _ b => b
  | andIff _ args => args.all fun arg => α arg.number == arg.value
  | orIff _ args => args.any fun arg => α arg.number == arg.value
  | orAnd _ orAndArgs => orAndArgs.any fun args => args.all fun arg => α arg.number == arg.value

theorem eval_congr {α β : Nat → Bool} (node : Node)
    (h : ∀ number ∈ node.args.map Literal.number, α number = β number) :
    node.eval α = node.eval β := by
  cases node with
  | value var b => rfl
  | andIff var args =>
      apply all_congr_of_mem
      intro arg harg
      rw [h arg.number (List.mem_map_of_mem harg)]
  | orIff var args =>
      apply any_congr_of_mem
      intro arg harg
      rw [h arg.number (List.mem_map_of_mem harg)]
  | orAnd var orAndArgs =>
      apply any_congr_of_mem
      intro args hargs
      apply all_congr_of_mem
      intro arg harg
      rw [h arg.number (List.mem_map_of_mem (List.mem_flatten_of_mem hargs harg))]

/-- A node as a definition of its variable. -/
def definition (node : Node) : Definition Nat Bool where
  target := node.var
  reads := node.args.map Literal.number
  value α := node.eval α
  value_congr _ _ h := node.eval_congr h

/-- The argument lists `propagate` runs its cursor along are ascending. -/
def Ascending : Node → Prop
  | value _ _ => True
  | andIff _ args => args.Pairwise fun a b => a.number ≤ b.number
  | orIff _ args => args.Pairwise fun a b => a.number ≤ b.number
  | orAnd _ _ => True

/-- The entries of `flipped` that `propagate` sees. -/
def seen (flipped : List Nat) : Node → List Nat
  | orAnd _ _ => flipped.head?.toList
  | _ => records flipped

/-- The function of a node, with arguments read from `β` if `propagate` can find their flips and
from `α` otherwise. -/
def reading (α β : Nat → Bool) : Node → Bool
  | value _ b => b
  | andIff _ args => (readArgs α β 0 args).all fun p => p.1 == p.2
  | orIff _ args => (readArgs α β 0 args).any fun p => p.1 == p.2
  | orAnd var orAndArgs => (orAnd var orAndArgs).eval β

theorem flippedValue_advance (arg : Literal) (m : Nat) :
    flippedValue (unitsOf α) arg.number
        (atCursor (advance (advance flipped m) arg.number) arg.number) =
      if m ≤ arg.number then flipAll α (records flipped) arg.number else α arg.number := by
  rw [atCursor_advance_advance, flippedValue_unitsOf, flipAll]
  by_cases hm : m ≤ arg.number <;> simp [hm]

theorem andScan_eq (args : List Literal) (m : Nat) :
    andScan (unitsOf α) args (advance flipped m) =
      (readArgs α (flipAll α (records flipped)) m args).all fun p => p.1 == p.2 := by
  induction args generalizing m with
  | nil => rfl
  | cons arg args ih =>
      rw [andScan, flippedValue_advance, advance_advance, ih, readArgs, List.all_cons]
      cases hvalue : (if m ≤ arg.number then flipAll α (records flipped) arg.number
        else α arg.number) == arg.value <;> simp [bne, hvalue]

theorem orScan_eq (args : List Literal) (m : Nat) :
    orScan (unitsOf α) args (advance flipped m) =
      (readArgs α (flipAll α (records flipped)) m args).any fun p => p.1 == p.2 := by
  induction args generalizing m with
  | nil => rfl
  | cons arg args ih =>
      rw [orScan, flippedValue_advance, advance_advance, ih, readArgs, List.any_cons]
      cases hvalue : (if m ≤ arg.number then flipAll α (records flipped) arg.number
        else α arg.number) == arg.value <;> simp

/-- Lists whose records are the same on the arguments lead a cursor alike. -/
theorem scan_congr {l l' : List Nat} {units : Units} (m : Nat)
    (h : ∀ arg ∈ args, arg.number ∈ records l ↔ arg.number ∈ records l') :
    andScan units args (advance l m) = andScan units args (advance l' m) ∧
      orScan units args (advance l m) = orScan units args (advance l' m) := by
  induction args generalizing m with
  | nil => exact ⟨rfl, rfl⟩
  | cons arg args ih =>
      obtain ⟨hhead, htail⟩ := List.forall_mem_cons.mp h
      have hfind : atCursor (advance (advance l m) arg.number) arg.number =
          atCursor (advance (advance l' m) arg.number) arg.number := by
        rw [atCursor_advance_advance, atCursor_advance_advance]
        exact decide_eq_decide.mpr (and_congr_left fun _ => hhead)
      obtain ⟨hand, hor⟩ := ih (max m arg.number) htail
      rw [andScan, andScan, orScan, orScan, hfind, advance_advance, advance_advance, hand, hor]
      exact ⟨rfl, rfl⟩

/-- `propagate` depends on the first entry and on the records among the arguments. -/
theorem propagate_congr {l l' : List Nat} (units : Units) (node : Node)
    (h : ∀ k ∈ node.args.map Literal.number, k ∈ records l ↔ k ∈ records l')
    (hhead : l.head? = l'.head?) : node.propagate units l = node.propagate units l' := by
  have hstart : ∀ l : List Nat, advance l 0 = l := fun l => advance_eq_self fun y _ => Nat.zero_le y
  cases node with
  | value var b => rfl
  | andIff var args =>
      have hscan : andScan units args (advance l 0) = andScan units args (advance l' 0) :=
        (scan_congr 0 (List.forall_mem_map.mp h)).1
      rwa [hstart, hstart] at hscan
  | orIff var args =>
      have hscan : orScan units args (advance l 0) = orScan units args (advance l' 0) :=
        (scan_congr 0 (List.forall_mem_map.mp h)).2
      rwa [hstart, hstart] at hscan
  | orAnd var orAndArgs =>
      unfold propagate orAndScan atCursor
      rw [hhead]

/-- `propagate` evaluates a node on the values inverted at the entries it sees. -/
theorem propagate_eq_reading (node : Node) (α : Nat → Bool) (flipped : List Nat) :
    node.propagate (unitsOf α) flipped = node.reading α (flipAll α (node.seen flipped)) := by
  have hstart : advance flipped 0 = flipped := advance_eq_self fun y _ => Nat.zero_le y
  cases node with
  | value var b => rfl
  | andIff var args =>
      have h : andScan (unitsOf α) args (advance flipped 0) =
          (readArgs α (flipAll α (records flipped)) 0 args).all fun p => p.1 == p.2 :=
        andScan_eq args 0
      rwa [hstart] at h
  | orIff var args =>
      have h : orScan (unitsOf α) args (advance flipped 0) =
          (readArgs α (flipAll α (records flipped)) 0 args).any fun p => p.1 == p.2 :=
        orScan_eq args 0
      rwa [hstart] at h
  | orAnd var orAndArgs =>
      apply any_congr_of_mem
      intro args _
      apply all_congr_of_mem
      intro arg _
      rw [flippedValue_unitsOf, atCursor_eq]
      rfl

theorem reading_eq_eval {node : Node} (hnode : node.Ascending) (α β : Nat → Bool) :
    node.reading α β = node.eval β := by
  cases node with
  | value var b => rfl
  | andIff var args =>
      rw [reading, readArgs_eq hnode fun arg _ => Nat.zero_le arg.number, List.all_map]
      rfl
  | orIff var args =>
      rw [reading, readArgs_eq hnode fun arg _ => Nat.zero_le arg.number, List.any_map]
      rfl
  | orAnd var orAndArgs => rfl

/-- The arguments alone decide. -/
theorem readArgs_congr {α β β' : Nat → Bool} {args : List Literal} (m : Nat)
    (h : ∀ number ∈ args.map Literal.number, β number = β' number) :
    readArgs α β m args = readArgs α β' m args := by
  induction args generalizing m with
  | nil => rfl
  | cons arg args ih =>
      obtain ⟨hhead, htail⟩ := List.forall_mem_cons.mp h
      rw [readArgs, readArgs, hhead, ih _ htail]

theorem reading_congr {α β β' : Nat → Bool} (node : Node)
    (h : ∀ number ∈ node.args.map Literal.number, β number = β' number) :
    node.reading α β = node.reading α β' := by
  cases node with
  | value var b => rfl
  | andIff var args => exact congrArg (List.all · fun p => p.1 == p.2) (readArgs_congr 0 h)
  | orIff var args => exact congrArg (List.any · fun p => p.1 == p.2) (readArgs_congr 0 h)
  | orAnd var orAndArgs => exact eval_congr _ h

theorem propagate_eq {node : Node} (hnode : node.Ascending) (α : Nat → Bool)
    (flipped : List Nat) :
    node.propagate (unitsOf α) flipped = node.eval (flipAll α (node.seen flipped)) := by
  rw [propagate_eq_reading, reading_eq_eval hnode]

end Node

end LatinSquares.LocalSearch
