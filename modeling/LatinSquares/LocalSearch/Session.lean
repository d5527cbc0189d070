/-
# Sessions

A file is searched in any number of runs, each of which starts with drawn values or from the log of
another one. In every state the squares in `metaValues` are those of the core variables: the log
is decoded to them, and a search that is resumed has them again.
-/

import LatinSquares.LocalSearch.Resume

namespace LatinSquares.LocalSearch

open LatinSquares.Math
open LatinSquares.Generator (LatinSquareEncoder decode shownSquares)
open HillClimbingSolver (Accepts Settled construct prepare)

section Cells

variable {e : LatinSquareEncoder} {it : Generator.MetaVariable} {m : MetaVariable}
variable {metaVariables : List MetaVariable} {t i j k c v : Nat}
variable {entry : Nat × List Generator.Literal}

theorem entry_cases (hi : i < e.n) (hj : j < e.n) (hk : k < e.n) :
    e.entry t i j k = .constTrue ∨ e.entry t i j k = .constFalse ∨
      ∃ v, e.entry t i j k = .var v := by
  cases hkind : Generator.oneHotKind e.reduced t i j k with
  | none => exact Or.inr (Or.inr (Generator.layoutEntry_of_none hi hj hk hkind))
  | some b =>
      rw [LatinSquareEncoder.entry, Generator.layoutEntry_of_some hi hj hk hkind]
      cases b <;> simp

/-- The positive literal of a value is the variable of its symbol. -/
theorem positive_mem_iff (hi : i < e.n) (hj : j < e.n)
    (hentry : entry ∈ LatinSquareEncoder.metaValues e.n (e.cellOf t i j)) :
    (⟨v, true⟩ : Literal) ∈ entry.2.filterMap readLiteral ↔
      e.entry t i j (entry.1 - 1) = .var v := by
  obtain ⟨⟨hpos, hle⟩, -⟩ := Generator.mem_metaValues.mp hentry
  rw [(literals_of_mem_metaValues hentry).1, List.mem_filterMap]
  constructor
  · rintro ⟨l, hl, hread⟩
    have hvar : l = .var v := by
      cases l with
      | constFalse => cases hread
      | constTrue => cases hread
      | var name =>
          cases hread
          rfl
      | notVar name => cases hread
    obtain ⟨k, hk, hchoice⟩ := mem_literalsFor.mp hl
    rw [hvar] at hchoice
    split at hchoice
    · next hsymbol =>
        rw [← hsymbol, Nat.add_sub_cancel]
        exact hchoice.symm
    · rcases entry_cases (e := e) (t := t) hi hj hk with h | h | ⟨name, h⟩ <;>
        · rw [h] at hchoice
          cases hchoice
  · intro hvar
    refine ⟨.var v, mem_literalsFor.mpr ⟨entry.1 - 1, by omega, ?_⟩, rfl⟩
    rw [if_pos (by omega), hvar]

/-- A cell with a fixed symbol has no variables. -/
theorem isSome_oneHotKind {reduced : Bool} (h : Generator.oneHotKind reduced t i j k = some true)
    (k' : Nat) : (Generator.oneHotKind reduced t i j k').isSome = true := by
  unfold Generator.oneHotKind at h ⊢
  split_ifs at h ⊢ <;> simp_all

theorem oneHotKind_of_constTrue (hi : i < e.n) (hj : j < e.n) (hk : k < e.n)
    (h : e.entry t i j k = .constTrue) : Generator.oneHotKind e.reduced t i j k = some true := by
  cases hkind : Generator.oneHotKind e.reduced t i j k with
  | none =>
      obtain ⟨name, hvar⟩ := Generator.layoutEntry_of_none (n := e.n) (m := e.n) (q := e.n)
        hi hj hk hkind
      rw [LatinSquareEncoder.entry, hvar] at h
      cases h
  | some b =>
      rw [LatinSquareEncoder.entry, Generator.layoutEntry_of_some hi hj hk hkind] at h
      cases b with
      | false => cases h
      | true => rfl

/-- Every value of a cell has a positive literal. -/
theorem exists_positive (hi : i < e.n) (hj : j < e.n)
    (hentry : entry ∈ LatinSquareEncoder.metaValues e.n (e.cellOf t i j)) :
    ∃ v, e.entry t i j (entry.1 - 1) = .var v := by
  obtain ⟨⟨hpos, hle⟩, hliterals, hne⟩ := Generator.mem_metaValues.mp hentry
  obtain ⟨hread, hfalse⟩ := literals_of_mem_metaValues hentry
  rcases entry_cases (e := e) (t := t) hi hj (k := entry.1 - 1) (by omega) with h | h | h
  · -- then all literals of the cell are constants, and the value would have none
    have hkind := oneHotKind_of_constTrue hi hj (by omega) h
    have hnone : entry.2.filterMap readLiteral = [] := by
      rw [hread, List.filterMap_eq_nil_iff]
      intro l hl
      obtain ⟨k, hk, rfl⟩ := mem_literalsFor.mp hl
      obtain ⟨b, hb⟩ := Option.isSome_iff_exists.mp (isSome_oneHotKind hkind k)
      rw [LatinSquareEncoder.entry, Generator.layoutEntry_of_some hi hj hk hb]
      split <;> cases b <;> rfl
    obtain ⟨l, hl⟩ := List.exists_mem_of_ne_nil _ hne
    have hread := List.filterMap_eq_nil_iff.mp hnone l hl
    rw [hliterals] at hl
    obtain ⟨-, hconstant⟩ := List.mem_filter.mp hl
    cases l <;> simp_all [readLiteral]
  · refine absurd (mem_literalsFor.mpr ⟨entry.1 - 1, by omega, ?_⟩) hfalse
    rw [if_pos (by omega), h]
  · exact h

/-- Cell `(1, 1)` of the first square is free. -/
theorem metaVars_ne_nil (hn : 3 ≤ e.n) (hk : 0 < e.k) : e.metaVars e.tables ≠ [] := by
  refine List.ne_nil_of_mem ((constant_or_free (t := 0) (i := 1) (j := 1) (Or.inl (by omega)) hk
    (by omega) (by omega)).resolve_left ?_)
  rintro ⟨-, ⟨-, hone, -⟩ | ⟨hone, -⟩⟩ <;> exact absurd hone (by decide)

/-- A cell that is read has the place and the variables of one of the encoder. -/
theorem exists_cell_of_readFrom
    (h : List.Forall₂ MetaVariable.ReadFrom metaVariables (e.metaVars e.tables))
    {m : MetaVariable} (hm : m ∈ metaVariables) :
    ∃ t < e.k, ∃ i < e.n, ∃ j < e.n, m.place = (t, i, j) ∧
      m.ReadFrom ⟨t, i, j, LatinSquareEncoder.metaValues e.n (e.cellOf t i j)⟩ ∧
      m.cell = cellNumbers e (t, i, j) := by
  obtain ⟨it, hit, hread⟩ := exists_of_forall₂ h.flip hm
  have hread : m.ReadFrom it := hread
  obtain ⟨⟨t, ht, i, hi, j, hj, rfl⟩, hne⟩ := LatinSquareEncoder.mem_metaVars.mp hit
  refine ⟨t, ht, i, hi, j, hj, hread.place, hread, ?_⟩
  have hvariables : m.variables_ ≠ [] := by
    rw [hread.variables_]
    exact mt List.map_eq_nil_iff.mp hne
  obtain ⟨first, rest, hfirst⟩ := List.exists_cons_of_ne_nil hvariables
  have hnumbers := numbers_of_readFrom hit hread first (hfirst ▸ List.mem_cons_self)
  rw [MetaVariable.cell, hfirst, List.headD_cons, hnumbers, hread.place]
  rfl

/-- The cells of an encoder. -/
theorem oneHotCells_of_readFrom (hn : 3 ≤ e.n)
    (h : List.Forall₂ MetaVariable.ReadFrom metaVariables (e.metaVars e.tables)) :
    OneHotCells metaVariables e.coreSize := by
  constructor
  · intro m hm
    obtain ⟨t, ht, i, hi, j, hj, -, hread, -⟩ := exists_cell_of_readFrom h hm
    have hlength := congrArg List.length hread.values
    rw [List.length_map, List.length_map] at hlength
    rw [hlength, hread.variables_, List.length_map]
  · intro m hm p hp
    obtain ⟨t, ht, i, hi, j, hj, -, hread, -⟩ := exists_cell_of_readFrom h hm
    obtain ⟨entry, hentry, hliterals, -⟩ := exists_entry hread hp
    obtain ⟨v, hv⟩ := exists_positive hi hj hentry
    rw [hliterals]
    exact ⟨v, (positive_mem_iff hi hj hentry).mpr hv⟩
  · intro m hm p hp p' hp' v hv hv'
    obtain ⟨t, ht, i, hi, j, hj, -, hread, -⟩ := exists_cell_of_readFrom h hm
    obtain ⟨entry, hentry, hliterals, hvalue⟩ := exists_entry hread hp
    obtain ⟨entry', hentry', hliterals', hvalue'⟩ := exists_entry hread hp'
    rw [hliterals, positive_mem_iff hi hj hentry] at hv
    rw [hliterals', positive_mem_iff hi hj hentry'] at hv'
    obtain ⟨⟨hpos, hle⟩, -⟩ := Generator.mem_metaValues.mp hentry
    obtain ⟨⟨hpos', hle'⟩, -⟩ := Generator.mem_metaValues.mp hentry'
    have hinj := entry_inj ht hi hj (by omega) ht hi hj (by omega) hv hv'
    simp only [Prod.mk.injEq, true_and] at hinj
    apply UInt8.toNat_inj.mp
    omega
  · intro v
    constructor
    · rintro ⟨hpos, hle⟩
      obtain ⟨t, ht, i, hi, j, hj, k, hk, hvar⟩ := Generator.exists_layoutEntry hpos hle
      have hit := (constant_or_free (Or.inl (by omega)) ht hi hj).resolve_left (by
        rintro ⟨-, ⟨-, -, hkind⟩ | ⟨-, hkind⟩⟩ <;>
          · rw [Generator.layoutEntry_of_some hi hj hk (hkind k hk)] at hvar
            split at hvar <;> cases hvar)
      obtain ⟨m, hm, hread⟩ := exists_of_forall₂ h hit
      refine ⟨m, hm, ?_⟩
      obtain ⟨t', -, i', -, j', -, hplace, -, hnumbers⟩ := exists_cell_of_readFrom h hm
      rw [hread.place] at hplace
      cases hplace
      rw [hnumbers]
      exact (mem_cellNumbers hi hj).mpr ⟨k, hk, hvar⟩
    · rintro ⟨m, hm, hv⟩
      obtain ⟨t, ht, i, hi, j, hj, -, -, hnumbers⟩ := exists_cell_of_readFrom h hm
      rw [hnumbers] at hv
      obtain ⟨k, hk, hvar⟩ := (mem_cellNumbers hi hj).mp hv
      have hwithin := LatinSquareEncoder.entry_within ht hi hj hk
      rw [hvar, Generator.Literal.within_var] at hwithin
      exact hwithin

end Cells

section Sessions

variable {fuel : Nat} {clauses : List Clause} {toCompute : List Nat} {weights : Nat → UInt32}
variable {net : Net} {metaVariables : List MetaVariable} {coreSize literalCount : Nat}
variable {order : SwapOrder} {s : HillClimbingSolver}

/-- The states of searches on one file. A search starts with drawn values, and in any state its log
can be the start of another one. -/
inductive Session (order : SwapOrder) (fuel : Nat) (clauses : List Clause) (toCompute : List Nat)
    (weights : Nat → UInt32) (net : Net) (metaVariables : List MetaVariable)
    (coreSize literalCount : Nat) : HillClimbingSolver → Prop
  | fresh {s : HillClimbingSolver} (rand : Nat → Nat) :
      construct fuel clauses toCompute weights net metaVariables coreSize [] rand = some s →
        Session order fuel clauses toCompute weights net metaVariables coreSize literalCount s
  | accept {s s' : HillClimbingSolver} :
      Session order fuel clauses toCompute weights net metaVariables coreSize literalCount s →
        Accepts order s s' →
          Session order fuel clauses toCompute weights net metaVariables coreSize literalCount s'
  | resume {s s' : HillClimbingSolver} (rand : Nat → Nat) :
      Session order fuel clauses toCompute weights net metaVariables coreSize literalCount s →
        construct fuel clauses toCompute weights net metaVariables coreSize
          (readFirst (logText s.propagated literalCount)) rand = some s' →
            Session order fuel clauses toCompute weights net metaVariables coreSize literalCount s'

theorem readFirst_ne_nil (text : List Char) : readFirst text ≠ [] := List.cons_ne_nil _ _

/-- A search that is resumed from the log of such a state. -/
theorem exists_resumed {p : HillClimbingSolver} (hs : Settled p s)
    (hprepare : prepare fuel clauses toCompute weights net metaVariables = some p)
    (hgrid : Grid metaVariables) (hcells : OneHotCells metaVariables coreSize)
    (hcore : coreSize ≤ literalCount) (hfits : literalCount < 2 ^ 31) (rand : Nat → Nat) :
    ∃ s', construct fuel clauses toCompute weights net metaVariables coreSize
        (readFirst (logText s.propagated literalCount)) rand = some s' ∧
      Settled p s' ∧ (∀ v, 1 ≤ v → v ≤ coreSize → s'.propagated v = s.propagated v) ∧
      ∀ place, metaValueAt s'.metaValues place = metaValueAt s.metaValues place := by
  have hp := HillClimbingSolver.prepared_of_eq_some hcells hprepare
  refine hs.exists_construct hprepare hgrid hcells (fun v hpos hv => ?_) (readFirst_ne_nil _) rand
  exact getElem?_readFirst hfits hcore (fun v hpos hv => hs.known hp hgrid hcells hpos hv) hpos hv

/-- Every state of a session is one that the same constructor call can lead to. -/
theorem Session.exists_settled (hgrid : Grid metaVariables)
    (hcells : OneHotCells metaVariables coreSize) (hnet : KeepsCells order net metaVariables)
    (hcore : coreSize ≤ literalCount) (hfits : literalCount < 2 ^ 31)
    (h : Session order fuel clauses toCompute weights net metaVariables coreSize literalCount s) :
    ∃ p, prepare fuel clauses toCompute weights net metaVariables = some p ∧ Settled p s := by
  induction h with
  | fresh rand hconstruct => exact HillClimbingSolver.settled_construct hgrid hcells hconstruct
  | accept _ haccept ih =>
      obtain ⟨p, hprepare, hs⟩ := ih
      have hp := HillClimbingSolver.prepared_of_eq_some hcells hprepare
      refine ⟨p, hprepare, hs.accept (hgrid.thins hp.thins) ?_ haccept⟩
      rw [hp.net]
      exact hnet.thins hp.thins
  | resume rand _ hconstruct ih =>
      obtain ⟨p, hprepare, hs⟩ := ih
      obtain ⟨s', hs', hsettled, -⟩ := exists_resumed hs hprepare hgrid hcells hcore hfits rand
      obtain rfl := Option.some.inj (hs'.symm.trans hconstruct)
      exact ⟨p, hprepare, hsettled⟩

variable {e : LatinSquareEncoder}

/-- The symbols in `metaValues`, in a state that the constructor can lead to. -/
theorem holdsSymbols_of_settled {p : HillClimbingSolver} (hn : 3 ≤ e.n)
    (h : List.Forall₂ MetaVariable.ReadFrom metaVariables (e.metaVars e.tables))
    (hprepare : prepare fuel clauses toCompute weights net metaVariables = some p)
    (hs : Settled p s) : HoldsSymbols e s := by
  have hp := HillClimbingSolver.prepared_of_eq_some (oneHotCells_of_readFrom hn h) hprepare
  refine holdsSymbols_of_moved h hp.thins hp.constants (fun m hm => hs.mirrors m ?_)
    fun place hplace => hs.constants place (by rwa [places_thins hp.thins])
  rwa [hs.metaVariables]

/-- One reduced square of order `3`. -/
def oneReduced : LatinSquareEncoder := { reduced := true, n := 3, k := 1, q := 0 }

def oneReducedCells : List MetaVariable :=
  (oneReduced.metaVars oneReduced.tables).map readMetaVariable

def startOneReduced (first : List UInt8) : Option HillClimbingSolver :=
  construct 3 [⟨[⟨2, true⟩, ⟨6, true⟩]⟩] [0] (fun _ => 1) ⟨[], []⟩ oneReducedCells 6 first
    fun _ => 0

theorem readFrom_oneReducedCells :
    List.Forall₂ MetaVariable.ReadFrom oneReducedCells (oneReduced.metaVars oneReduced.tables) :=
  readFrom_readMetaVariable (by decide) (by decide)

/-- A search that is stopped after a move and resumed from its log. -/
theorem exists_session_oneReduced : ∃ s,
    Session .rightFirst 3 [⟨[⟨2, true⟩, ⟨6, true⟩]⟩] [0] (fun _ => 1) ⟨[], []⟩ oneReducedCells
      oneReduced.coreSize 6 s := by
  have hrun : ((startOneReduced []).bind fun s => (s.accept .rightFirst [(0, 1)]).bind fun s' =>
      startOneReduced (readFirst (logText s'.propagated 6))).isSome = true := by
    decide +kernel
  obtain ⟨s, hs⟩ := Option.isSome_iff_exists.mp hrun
  obtain ⟨s₀, hs₀, hrest⟩ := Option.bind_eq_some_iff.mp hs
  obtain ⟨s₁, haccept, hresume⟩ := Option.bind_eq_some_iff.mp hrest
  have hcore : oneReduced.coreSize = 6 := by decide
  rw [hcore]
  refine ⟨s, Session.resume (fun _ => 0) (Session.accept (Session.fresh (fun _ => 0) hs₀) ?_)
    hresume⟩
  exact ⟨[(0, 1)], List.nodup_singleton _, haccept⟩

/-- The log of every state of a session is decoded to the squares in `metaValues`. -/
theorem Session.decodes (assertions : Bool) (hn : 3 ≤ e.n) (hk : 0 < e.k)
    (h : List.Forall₂ MetaVariable.ReadFrom metaVariables (e.metaVars e.tables))
    (hnet : KeepsCells order net metaVariables) (hcore : e.coreSize ≤ literalCount)
    (hfits : literalCount < 2 ^ 31)
    (hs : Session order fuel clauses toCompute weights net metaVariables e.coreSize literalCount
      s) :
    ∃ F, HoldsSquares e s F ∧ decode assertions (encodingOf e) e.n e.k .minisat
      (getlines (logText s.propagated literalCount)) = some (.squares (shownSquares F)) := by
  have hgrid := grid_of_readFrom h
  have hcells := oneHotCells_of_readFrom hn h
  obtain ⟨p, hprepare, hsettled⟩ := hs.exists_settled hgrid hcells hnet hcore hfits
  have hp := HillClimbingSolver.prepared_of_eq_some hcells hprepare
  have hsymbols := holdsSymbols_of_settled hn h hprepare hsettled
  obtain ⟨F, hF⟩ := hsymbols.exists_squares (metaVars_ne_nil hn hk)
  exact ⟨F, hF, hsymbols.decode_logText assertions hn hk hF
    (fun v hpos hv => hsettled.known hp hgrid hcells hpos hv) hcore⟩

theorem Session.decodes_oneReduced : ∃ s F, HoldsSquares oneReduced s F ∧
    decode true (encodingOf oneReduced) 3 1 .minisat (getlines (logText s.propagated 6)) =
      some (.squares (shownSquares F)) := by
  obtain ⟨s, hs⟩ := exists_session_oneReduced
  obtain ⟨F, hF, hdecode⟩ := Session.decodes (e := oneReduced) true (by decide) (by decide)
    readFrom_oneReducedCells (Or.inl fun _ hnode => absurd hnode List.not_mem_nil) (by decide)
    (by decide) hs
  exact ⟨s, F, hF, hdecode⟩

/-- The states of a session on a file of the encoder: the symbols, the search that is resumed, and
the squares that are decoded. -/
theorem Session.of_cnf (shuffle : Generator.Order) (hn : 3 ≤ e.n) (hn' : e.n < 256) (hk : 2 ≤ e.k)
    (hk' : e.k ≤ 256) {f : Generator.CNF} (hf : e.cnf shuffle = some f)
    (hnet : Net.Finalizes (f.net.map readNode) net) (hfits : f.variables_.length < 2 ^ 31)
    (hs : Session order fuel clauses toCompute weights net (f.metaVariables.map readMetaVariable)
      e.coreSize f.variables_.length s) (assertions : Bool) (rand : Nat → Nat) :
    HoldsSymbols e s ∧
      (∃ s', construct fuel clauses toCompute weights net (f.metaVariables.map readMetaVariable)
          e.coreSize (readFirst (logText s.propagated f.variables_.length)) rand = some s' ∧
        (∀ v, 1 ≤ v → v ≤ e.coreSize → s'.propagated v = s.propagated v) ∧
        ∀ place, metaValueAt s'.metaValues place = metaValueAt s.metaValues place) ∧
      ∃ F, HoldsSquares e s F ∧ decode assertions (encodingOf e) e.n e.k .minisat
        (getlines (logText s.propagated f.variables_.length)) =
          some (.squares (shownSquares F)) := by
  obtain ⟨h, hauxiliary, hcore⟩ := cells_of_cnf shuffle hn hn' hk hk' hf hnet
  have hgrid := grid_of_readFrom h
  have hcells := oneHotCells_of_readFrom hn h
  obtain ⟨p, hprepare, hsettled⟩ := hs.exists_settled hgrid hcells (Or.inl hauxiliary) hcore hfits
  have hp := HillClimbingSolver.prepared_of_eq_some hcells hprepare
  have hsymbols := holdsSymbols_of_settled hn h hprepare hsettled
  obtain ⟨s', hs', -, hpropagated, hplaces⟩ := exists_resumed hsettled hprepare hgrid hcells hcore
    hfits rand
  obtain ⟨F, hF⟩ := hsymbols.exists_squares (metaVars_ne_nil hn (by omega))
  exact ⟨hsymbols, ⟨s', hs', hpropagated, hplaces⟩, F, hF,
    hsymbols.decode_logText assertions hn (by omega) hF
      (fun v hpos hv => hsettled.known hp hgrid hcells hpos hv) hcore⟩

end Sessions

end LatinSquares.LocalSearch
