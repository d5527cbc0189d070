/-
# Tables of literals

Every table the encoders work on is a full rectangle of cells, so it is given by
its entries: `matrixOf n m q f`. The tables of one encoder are laid out one after
the other, and an entry is either a constant or the next variable. `numbered kind
start` says which: `kind` tells the constants, and the variables past `start` are
numbered by counting the entries that are not constant.
-/

import LatinSquares.Generator.Counter
import LatinSquares.Generator.Latin
import Mathlib.Data.Nat.Nth

namespace LatinSquares.Generator

open LatinSquares.Math
open Expression (and)

/-- The table with the given entries. -/
def matrixOf (n m q : Nat) (f : Nat → Nat → Nat → Literal) : Matrix :=
  (List.range n).map fun i => (List.range m).map fun j => (List.range q).map (f i j)

section Numbering

variable {kind : Nat → Option Bool} {start base idx d : Nat} {s : GenState}

/-- How many of the first `idx` entries are variables. -/
def variablesBefore (kind : Nat → Option Bool) (idx : Nat) : Nat :=
  Nat.count (fun x => (kind x).isNone) idx

/-- Entry `idx` of tables whose constants are given by `kind`. -/
def numbered (kind : Nat → Option Bool) (start idx : Nat) : Literal :=
  match kind idx with
  | some b => if b then .constTrue else .constFalse
  | none => .var (start + variablesBefore kind idx + 1)

theorem variablesBefore_mono {a b : Nat} (h : a ≤ b) :
    variablesBefore kind a ≤ variablesBefore kind b :=
  Nat.count_monotone _ h

theorem variablesBefore_succ_of_none (h : kind idx = none) :
    variablesBefore kind (idx + 1) = variablesBefore kind idx + 1 := by
  rw [variablesBefore, Nat.count_succ, if_pos (by rw [h]; rfl), variablesBefore]

theorem variablesBefore_succ_of_some {b : Bool} (h : kind idx = some b) :
    variablesBefore kind (idx + 1) = variablesBefore kind idx := by
  rw [variablesBefore, Nat.count_succ, if_neg (by rw [h]; simp), variablesBefore, Nat.add_zero]

/-- Where nothing is constant, every entry is a variable. -/
theorem variablesBefore_none (idx : Nat) : variablesBefore (fun _ => none) idx = idx := by
  simp [variablesBefore]

theorem numbered_none (start idx : Nat) :
    numbered (fun _ => none) start idx = .var (start + idx + 1) := by
  rw [numbered, variablesBefore_none]

theorem numbered_within {size : Nat} (hidx : idx < size) :
    (numbered kind start idx).Within (start + variablesBefore kind size) := by
  rw [numbered]
  split
  · split
    · exact Literal.within_constTrue
    · exact Literal.within_constFalse
  · next hnone =>
      have hle : variablesBefore kind (idx + 1) ≤ variablesBefore kind size :=
        variablesBefore_mono hidx
      rw [variablesBefore_succ_of_none hnone] at hle
      rw [Literal.within_var]
      omega

/-- Entries that are not constant can be given any values, whatever the values of
the variables up to `start` are. -/
theorem exists_numbered_eval (target : Nat → Bool) {size : Nat}
    (htarget : ∀ idx < size, ∀ b, kind idx = some b → target idx = b) (α : Assignment) :
    ∃ β, AgreeUpTo start α β ∧ ∀ idx < size, (numbered kind start idx).eval β = target idx := by
  obtain ⟨β, hαβ, hβ⟩ := exists_extend start α fun r =>
    target (Nat.nth (fun x => (kind x).isNone) r)
  refine ⟨β, hαβ, fun idx hidx => ?_⟩
  rw [numbered]
  split
  · next b hb =>
      rw [htarget idx hidx b hb]
      cases b <;> simp
  · next hnone =>
      have hnth : Nat.nth (fun x => (kind x).isNone) (variablesBefore kind idx) = idx :=
        Nat.nth_count (by rw [hnone]; rfl)
      rw [Literal.eval_var, hβ, hnth]

/-- An entry of a table, by its kind. -/
def entryOfKind : Option Bool → Gen Literal
  | some b => constant b
  | none => newLiteral

/-- Producing entry `idx` moves the counter on to what entry `idx + 1` starts from. -/
theorem ensures_entryOfKind (hs : s.varCounter = start + variablesBefore kind idx) :
    Ensures (entryOfKind (kind idx)) s fun l s' => l = numbered kind start idx ∧
      s' = { s with varCounter := start + variablesBefore kind (idx + 1) } := by
  cases hkind : kind idx with
  | some b =>
      refine Ensures.of_pure ⟨?_, ?_⟩
      · rw [numbered, hkind]
      · rw [variablesBefore_succ_of_some hkind, ← hs]
  | none =>
      refine Ensures.map ((ensures_newVariable s).mono ?_)
      rintro v s' ⟨rfl, rfl⟩
      refine ⟨?_, ?_⟩
      · rw [numbered, hkind, hs]
      · rw [variablesBefore_succ_of_none hkind, hs, Nat.add_assoc]

/-- A loop whose rounds return values known in advance and move the counter along
a given sequence. -/
theorem ensures_mapM_range' {β : Type} {f : Nat → Gen β} {g : Nat → β} {c : Nat → Nat}
    {first n : Nat} (hs : s.varCounter = c first)
    (hstep : ∀ i, first ≤ i → i < first + n → ∀ t : GenState, t.varCounter = c i →
      Ensures (f i) t fun y t' => y = g i ∧ t' = { t with varCounter := c (i + 1) }) :
    Ensures ((List.range' first n).mapM f) s fun ys s' =>
      ys = (List.range' first n).map g ∧ s' = { s with varCounter := c (first + n) } := by
  refine Ensures.mapM_range' (I := fun i t => t = { s with varCounter := c i })
    (by rw [← hs]) fun i hi hi' t ht => ?_
  subst ht
  exact hstep i hi hi' _ rfl

theorem ensures_mapM_range {β : Type} {f : Nat → Gen β} {g : Nat → β} {c : Nat → Nat} {n : Nat}
    (hs : s.varCounter = c 0)
    (hstep : ∀ i < n, ∀ t : GenState, t.varCounter = c i →
      Ensures (f i) t fun y t' => y = g i ∧ t' = { t with varCounter := c (i + 1) }) :
    Ensures ((List.range n).mapM f) s fun ys s' =>
      ys = (List.range n).map g ∧ s' = { s with varCounter := c n } := by
  rw [List.range_eq_range']
  have hloop := ensures_mapM_range' (n := n) hs fun i _ hi => hstep i (by omega)
  rwa [Nat.zero_add] at hloop

theorem ensures_listOfLists {n m q : Nat} {f : Nat → Nat → Nat → Gen Literal}
    (hf : ∀ i < n, ∀ j < m, ∀ k < q, f i j k = entryOfKind (kind (base + (i * m + j) * q + k)))
    (hs : s.varCounter = start + variablesBefore kind base) :
    Ensures (listOfLists n m q f) s fun M s' =>
      M = matrixOf n m q (fun i j k => numbered kind start (base + (i * m + j) * q + k)) ∧
        s' = { s with varCounter := start + variablesBefore kind (base + n * m * q) } := by
  have hrow : ∀ i, base + (i + 1) * m * q = base + (i * m + m) * q := by
    intro i
    rw [Nat.add_mul, Nat.one_mul]
  have hcell : ∀ i j, base + (i * m + (j + 1)) * q = base + (i * m + j) * q + q := by
    intro i j
    rw [← Nat.add_assoc, Nat.add_mul (i * m + j), Nat.one_mul, Nat.add_assoc]
  refine ensures_mapM_range (c := fun i => start + variablesBefore kind (base + i * m * q))
    (by simpa using hs) fun i hi t ht => ?_
  simp only [hrow]
  refine ensures_mapM_range (c := fun j => start + variablesBefore kind (base + (i * m + j) * q))
    (by simpa using ht) fun j hj t ht => ?_
  simp only [hcell]
  refine ensures_mapM_range
    (c := fun k => start + variablesBefore kind (base + (i * m + j) * q + k))
    (by simpa using ht) fun k hk t ht => ?_
  rw [hf i hi j hj k hk]
  exact ensures_entryOfKind ht

end Numbering

section Layout

variable {n m q : Nat}

/-- What `f` gives to the table, row, column and symbol that entry `idx` belongs to,
for tables laid out one after the other. -/
def byIndex {β : Type} (n m q : Nat) (f : Nat → Nat → Nat → Nat → β) (idx : Nat) : β :=
  f (idx / (n * m * q)) (idx % (n * m * q) / q / m) (idx % (n * m * q) / q % m)
    (idx % (n * m * q) % q)

theorem cell_lt {i j : Nat} (hi : i < n) (hj : j < m) : i * m + j < n * m := by
  have hrow : (i + 1) * m ≤ n * m := Nat.mul_le_mul_right m hi
  rw [Nat.add_mul] at hrow
  omega

theorem index_lt {i j k : Nat} (hi : i < n) (hj : j < m) (hk : k < q) :
    (i * m + j) * q + k < n * m * q :=
  cell_lt (cell_lt hi hj) hk

theorem byIndex_apply {β : Type} {f : Nat → Nat → Nat → Nat → β} {t i j k : Nat}
    (hi : i < n) (hj : j < m) (hk : k < q) :
    byIndex n m q f (t * (n * m * q) + ((i * m + j) * q + k)) = f t i j k := by
  have hlt := index_lt hi hj hk
  have htable : (t * (n * m * q) + ((i * m + j) * q + k)) / (n * m * q) = t := by
    rw [Nat.mul_comm, Nat.mul_add_div (by omega), Nat.div_eq_of_lt hlt, Nat.add_zero]
  have hrest : (t * (n * m * q) + ((i * m + j) * q + k)) % (n * m * q) = (i * m + j) * q + k := by
    rw [Nat.mul_comm, Nat.mul_add_mod, Nat.mod_eq_of_lt hlt]
  have hcell : ((i * m + j) * q + k) / q = i * m + j := by
    rw [Nat.mul_comm, Nat.mul_add_div (by omega), Nat.div_eq_of_lt hk, Nat.add_zero]
  have hsymbol : ((i * m + j) * q + k) % q = k := by
    rw [Nat.mul_comm, Nat.mul_add_mod, Nat.mod_eq_of_lt hk]
  have hrow : (i * m + j) / m = i := by
    rw [Nat.mul_comm, Nat.mul_add_div (by omega), Nat.div_eq_of_lt hj, Nat.add_zero]
  have hcolumn : (i * m + j) % m = j := by
    rw [Nat.mul_comm, Nat.mul_add_mod, Nat.mod_eq_of_lt hj]
  simp only [byIndex, htable, hrest, hcell, hsymbol, hrow, hcolumn]

/-- Every index is that of an entry. -/
theorem exists_index {tables idx : Nat} (hidx : idx < tables * (n * m * q)) :
    ∃ t < tables, ∃ i < n, ∃ j < m, ∃ k < q, idx = t * (n * m * q) + ((i * m + j) * q + k) := by
  have hpos : 0 < n * m * q := Nat.pos_of_ne_zero fun h => by simp [h] at hidx
  have hq : 0 < q := Nat.pos_of_mul_pos_left hpos
  have hm : 0 < m := Nat.pos_of_mul_pos_left (Nat.pos_of_mul_pos_right hpos)
  have hcell : idx % (n * m * q) / q < n * m :=
    (Nat.div_lt_iff_lt_mul hq).mpr (Nat.mod_lt _ hpos)
  have hrow : idx % (n * m * q) / q / m < n := (Nat.div_lt_iff_lt_mul hm).mpr hcell
  have htable : idx / (n * m * q) < tables := (Nat.div_lt_iff_lt_mul hpos).mpr hidx
  refine ⟨_, htable, _, hrow, idx % (n * m * q) / q % m, Nat.mod_lt _ hm,
    idx % (n * m * q) % q, Nat.mod_lt _ hq, ?_⟩
  rw [Nat.div_add_mod', Nat.div_add_mod', Nat.div_add_mod']

/-- Entry `(i, j, k)` of table `t`, for tables laid out from the first variable on. -/
def layoutEntry (n m q : Nat) (kind : Nat → Nat → Nat → Nat → Option Bool) (t i j k : Nat) :
    Literal :=
  numbered (byIndex n m q kind) 0 (t * (n * m * q) + ((i * m + j) * q + k))

/-- The number of variables of the first `t` tables. -/
def layoutSize (n m q : Nat) (kind : Nat → Nat → Nat → Nat → Option Bool) (t : Nat) : Nat :=
  variablesBefore (byIndex n m q kind) (t * (n * m * q))

variable {kind : Nat → Nat → Nat → Nat → Option Bool} {t tables : Nat} {s : GenState}

theorem layout_index_lt {i j k : Nat} (ht : t < tables) (hi : i < n) (hj : j < m) (hk : k < q) :
    t * (n * m * q) + ((i * m + j) * q + k) < tables * (n * m * q) := by
  have hlt := index_lt hi hj hk
  have htable : (t + 1) * (n * m * q) ≤ tables * (n * m * q) :=
    Nat.mul_le_mul_right _ ht
  rw [Nat.add_mul] at htable
  omega

theorem layoutEntry_within {i j k : Nat} (ht : t < tables) (hi : i < n) (hj : j < m)
    (hk : k < q) : (layoutEntry n m q kind t i j k).Within (layoutSize n m q kind tables) := by
  have hwithin : (layoutEntry n m q kind t i j k).Within (0 + layoutSize n m q kind tables) :=
    numbered_within (layout_index_lt ht hi hj hk)
  rwa [Nat.zero_add] at hwithin

theorem layoutEntry_of_some {i j k : Nat} (hi : i < n) (hj : j < m) (hk : k < q) {b : Bool}
    (hb : kind t i j k = some b) :
    layoutEntry n m q kind t i j k = if b then .constTrue else .constFalse := by
  rw [layoutEntry, numbered, byIndex_apply hi hj hk, hb]

theorem layoutEntry_of_none {i j k : Nat} (hi : i < n) (hj : j < m) (hk : k < q)
    (hnone : kind t i j k = none) : ∃ name, layoutEntry n m q kind t i j k = .var name := by
  rw [layoutEntry, numbered, byIndex_apply hi hj hk, hnone]
  exact ⟨_, rfl⟩

/-- A constant entry has its value under every assignment. -/
theorem layoutEntry_eval {i j k : Nat} (hi : i < n) (hj : j < m) (hk : k < q) {b : Bool}
    (hb : kind t i j k = some b) (α : Assignment) :
    (layoutEntry n m q kind t i j k).eval α = b := by
  rw [layoutEntry_of_some hi hj hk hb]
  cases b <;> rfl

/-- One table of the layout. -/
theorem ensures_table {f : Nat → Nat → Nat → Gen Literal}
    (hf : ∀ i < n, ∀ j < m, ∀ k < q, f i j k = entryOfKind (kind t i j k))
    (hs : s.varCounter = layoutSize n m q kind t) :
    Ensures (listOfLists n m q f) s fun M s' =>
      M = matrixOf n m q (layoutEntry n m q kind t) ∧
        s' = { s with varCounter := layoutSize n m q kind (t + 1) } := by
  have htable : Ensures (listOfLists n m q f) s fun M s' =>
      M = matrixOf n m q (fun i j k =>
          numbered (byIndex n m q kind) 0 (t * (n * m * q) + (i * m + j) * q + k)) ∧
        s' = { s with varCounter :=
          0 + variablesBefore (byIndex n m q kind) (t * (n * m * q) + n * m * q) } := by
    refine ensures_listOfLists (fun i hi j hj k hk => ?_) ?_
    · rw [hf i hi j hj k hk, Nat.add_assoc, byIndex_apply hi hj hk]
    · rw [hs, layoutSize, Nat.zero_add]
  refine htable.mono ?_
  rintro M s' ⟨rfl, rfl⟩
  constructor
  · simp only [Nat.add_assoc]
    rfl
  · rw [layoutSize, Nat.zero_add, Nat.add_mul, Nat.one_mul]

/-- Tables can describe anything that respects their constants. -/
theorem exists_layout_eval (kind : Nat → Nat → Nat → Nat → Option Bool) (tables n m q : Nat)
    (target : Nat → Nat → Nat → Nat → Bool)
    (htarget : ∀ t < tables, ∀ i < n, ∀ j < m, ∀ k < q, ∀ b, kind t i j k = some b →
      target t i j k = b) :
    ∃ β : Assignment, ∀ t < tables, ∀ i < n, ∀ j < m, ∀ k < q,
      (layoutEntry n m q kind t i j k).eval β = target t i j k := by
  have hreal : ∃ β, AgreeUpTo 0 (fun _ => false) β ∧ ∀ idx < tables * (n * m * q),
      (numbered (byIndex n m q kind) 0 idx).eval β = byIndex n m q target idx := by
    refine exists_numbered_eval _ (fun idx hidx b hb => ?_) _
    have hpos : 0 < n * m * q := Nat.pos_of_ne_zero fun h => by simp [h] at hidx
    have hq : 0 < q := Nat.pos_of_mul_pos_left hpos
    have hm : 0 < m := Nat.pos_of_mul_pos_left (Nat.pos_of_mul_pos_right hpos)
    have hcell : idx % (n * m * q) / q < n * m :=
      (Nat.div_lt_iff_lt_mul hq).mpr (Nat.mod_lt _ hpos)
    have hrow : idx % (n * m * q) / q / m < n := (Nat.div_lt_iff_lt_mul hm).mpr hcell
    have htable : idx / (n * m * q) < tables := (Nat.div_lt_iff_lt_mul hpos).mpr hidx
    exact htarget _ htable _ hrow _ (Nat.mod_lt _ hm) _ (Nat.mod_lt _ hq) b hb
  obtain ⟨β, -, hβ⟩ := hreal
  refine ⟨β, fun t ht i hi j hj k hk => ?_⟩
  rw [layoutEntry, hβ _ (layout_index_lt ht hi hj hk), byIndex_apply hi hj hk]

end Layout

end LatinSquares.Generator
