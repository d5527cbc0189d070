/-
# No clause is a tautology

`reduce` of the local search erases a false literal from its clauses, which is right for clauses
that do not have the same variable twice with different signs. The one-hot encoder prints no others:
most clauses have literals of one sign only, a definition does not mention the variable that it
defines, and the literals of a definition can be true together.
-/

import LatinSquares.Generator.NetReads

namespace LatinSquares.Generator

open LatinSquares.Math
open Expression (and)

/-- No variable stands in the list together with its negation. -/
def Consistent (ls : List Literal) : Prop := ∀ name, .var name ∈ ls → .notVar name ∉ ls

/-- A constant or a variable. -/
def Literal.Positive (l : Literal) : Prop := ∀ name, l ≠ .notVar name

namespace Expression

/-- The literals of all clauses. -/
def literals (e : Expression) : List Literal := e.args.flatMap fun cj => cj.clause.args

/-- No clause is a tautology. -/
def TautologyFree (e : Expression) : Prop := ∀ cj ∈ e.args, Consistent cj.clause.args

end Expression

section Lists

variable {ls ls' : List Literal} {v : Nat} {α : Assignment}

theorem Consistent.subset (h : Consistent ls') (hsub : ls ⊆ ls') : Consistent ls :=
  fun name hvar hnot => h name (hsub hvar) (hsub hnot)

theorem consistent_of_positive (h : ∀ l ∈ ls, l.Positive) : Consistent ls :=
  fun name _ hnot => h _ hnot name rfl

theorem consistent_of_not_positive (h : ∀ l ∈ ls, l.not.Positive) : Consistent ls :=
  fun name hvar _ => h _ hvar name rfl

/-- Literals that can be true together are consistent. -/
theorem consistent_of_eval (h : ∀ l ∈ ls, l.names ≠ [] → l.eval α = true) : Consistent ls := by
  intro name hvar hnot
  have htrue := h _ hvar (List.cons_ne_nil _ _)
  have hfalse := h _ hnot (List.cons_ne_nil _ _)
  rw [Literal.eval_var] at htrue
  rw [Literal.eval_notVar, htrue] at hfalse
  cases hfalse

theorem consistent_singleton (l : Literal) : Consistent [l] := fun _ hvar hnot =>
  nomatch (List.mem_singleton.mp hvar).trans (List.mem_singleton.mp hnot).symm

theorem Consistent.cons_var (h : Consistent ls) (hv : .notVar v ∉ ls) :
    Consistent (.var v :: ls) := by
  intro name hvar hnot
  have hnot := (List.mem_cons.mp hnot).resolve_left Literal.noConfusion
  rcases List.mem_cons.mp hvar with heq | hvar
  · cases heq
    exact hv hnot
  · exact h name hvar hnot

theorem Consistent.cons_notVar (h : Consistent ls) (hv : .var v ∉ ls) :
    Consistent (.notVar v :: ls) := by
  intro name hvar hnot
  have hvar := (List.mem_cons.mp hvar).resolve_left Literal.noConfusion
  rcases List.mem_cons.mp hnot with heq | hnot
  · cases heq
    exact hv hvar
  · exact h name hvar hnot

theorem not_eq_var_iff {l : Literal} : l.not = .var v ↔ l = .notVar v := by
  cases l <;> simp [Literal.not]

theorem not_eq_notVar_iff {l : Literal} : l.not = .notVar v ↔ l = .var v := by
  cases l <;> simp [Literal.not]

theorem Consistent.map_not (h : Consistent ls) : Consistent (ls.map Literal.not) := by
  intro name hvar hnot
  obtain ⟨l, hl, heq⟩ := List.mem_map.mp hvar
  obtain ⟨l', hl', heq'⟩ := List.mem_map.mp hnot
  rw [not_eq_var_iff] at heq
  rw [not_eq_notVar_iff] at heq'
  exact h name (heq' ▸ hl') (heq ▸ hl)

theorem positive_constFalse : Literal.constFalse.Positive := fun _ => Literal.noConfusion

theorem positive_var : (Literal.var v).Positive := fun _ => Literal.noConfusion

theorem Literal.Positive.not_not {l : Literal} (h : l.Positive) : l.not.not.Positive := by
  intro name heq
  rw [not_eq_notVar_iff, not_eq_var_iff] at heq
  exact h name heq

end Lists

namespace Expression

variable {e : Expression} {es : List Expression} {ls : List Literal} {l : Literal}

theorem mem_literals : l ∈ e.literals ↔ ∃ cj ∈ e.args, l ∈ cj.clause.args := List.mem_flatMap

theorem tautologyFree_literal (l : Literal) : (literal l).TautologyFree := by
  intro cj hcj
  rw [List.mem_singleton.mp hcj]
  exact consistent_singleton l

theorem tautologyFree_orLiterals (h : Consistent ls) : (orLiterals ls).TautologyFree := by
  intro cj hcj
  rw [List.mem_singleton.mp hcj]
  show Consistent (Clause.or (ls.map .literal)).args
  unfold Clause.or
  split
  · exact consistent_singleton _
  · split
    · exact consistent_singleton _
    · refine h.subset fun l hl => ?_
      have hl : l ∈ (ls.map Clause.literal).flatMap Clause.disjuncts := hl
      obtain ⟨_, hmem, hdisj⟩ := List.mem_flatMap.mp hl
      obtain ⟨l', hl', rfl⟩ := List.mem_map.mp hmem
      cases l' with
      | constFalse => cases hdisj
      | constTrue => rwa [List.mem_singleton.mp hdisj]
      | var name => rwa [List.mem_singleton.mp hdisj]
      | notVar name => rwa [List.mem_singleton.mp hdisj]

/-- What an argument contributes to `and`: clauses of its own, or a constant. -/
theorem mem_args_of_mem_conjuncts {cj : Conjunct} (h : cj ∈ e.conjuncts) :
    cj ∈ e.args ∨ ∃ l, l.names = [] ∧ cj.clause = .literal l := by
  cases e with
  | clause c =>
      rw [conjuncts] at h
      split at h
      · cases h
      · exact Or.inl h
  | conj cs =>
      rw [conjuncts, andArgs] at h
      split at h
      · exact Or.inr ⟨.constFalse, rfl, by rw [List.mem_singleton.mp h]⟩
      · split at h
        · exact Or.inr ⟨.constTrue, rfl, by rw [List.mem_singleton.mp h]⟩
        · exact Or.inl (List.mem_of_mem_filter h)

/-- The clauses of a conjunction are those of its arguments, or constants. -/
theorem mem_args_and {cj : Conjunct} (h : cj ∈ (and es).args) :
    (∃ e ∈ es, cj ∈ e.args) ∨ ∃ l, l.names = [] ∧ cj.clause = .literal l := by
  obtain heq | heq | ⟨-, -, heq⟩ := and_cases es
  · rw [heq] at h
    exact Or.inr ⟨.constFalse, rfl, by rw [List.mem_singleton.mp h]⟩
  · rw [heq] at h
    exact Or.inr ⟨.constTrue, rfl, by rw [List.mem_singleton.mp h]⟩
  · rw [heq] at h
    obtain ⟨e, he, hcj⟩ := List.mem_flatMap.mp h
    exact (mem_args_of_mem_conjuncts hcj).imp_left fun hcj => ⟨e, he, hcj⟩

theorem tautologyFree_and (h : ∀ e ∈ es, e.TautologyFree) : (and es).TautologyFree := by
  intro cj hcj
  obtain ⟨e, he, hcj⟩ | ⟨l, -, hclause⟩ := mem_args_and hcj
  · exact h e he cj hcj
  · rw [hclause]
    exact consistent_singleton l

theorem TautologyFree.and_pair {e' : Expression} (h : e.TautologyFree) (h' : e'.TautologyFree) :
    (and [e, e']).TautologyFree :=
  tautologyFree_and (by simpa using ⟨h, h'⟩)

theorem TautologyFree.mark (h : e.TautologyFree) (isImportant : Bool) :
    (e.mark isImportant).TautologyFree := by
  cases e with
  | conj cs => exact h
  | clause c =>
      intro cj hcj
      rw [List.mem_singleton.mp hcj]
      exact h c (List.mem_singleton_self c)

theorem TautologyFree.markArgs (h : e.TautologyFree) (isImportant : Bool) :
    (e.markArgs isImportant).TautologyFree := by
  cases e with
  | clause c =>
      intro cj hcj
      rw [List.mem_singleton.mp hcj]
      exact h c (List.mem_singleton_self c)
  | conj cs =>
      intro cj hcj
      obtain ⟨c, hc, rfl⟩ := List.mem_map.mp hcj
      exact h c hc

/-- The variables in a conjunction are those of its arguments. -/
theorem exists_mem_literals_of_and (h : l ∈ (and es).literals) (hl : l.names ≠ []) :
    ∃ e ∈ es, l ∈ e.literals := by
  obtain ⟨cj, hcj, hmem⟩ := mem_literals.mp h
  obtain ⟨e, he, hcj⟩ | ⟨l', hconst, hclause⟩ := mem_args_and hcj
  · exact ⟨e, he, mem_literals.mpr ⟨cj, hcj, hmem⟩⟩
  · rw [hclause] at hmem
    rw [List.mem_singleton.mp hmem] at hl
    exact absurd hconst hl

/-- The variables of an expression in scope. -/
theorem Proper.le_of_mem_literals {c v : Nat} (h : e.Proper c) (hl : l ∈ e.literals)
    (hv : v ∈ l.names) : v ≤ c := by
  obtain ⟨cj, hcj, hmem⟩ := mem_literals.mp hl
  exact (names_of_proper h (mem_names.mpr ⟨cj, hcj, List.mem_flatMap.mpr ⟨l, hmem, hv⟩⟩)).2

end Expression

section Lines

variable {vars : List (List Literal)} {isImportant : Bool} {square a b : Matrix}

theorem codeSufficient_tautologyFree (h : ∀ ls ∈ vars, ∀ l ∈ ls, l.Positive) :
    (codeSufficient vars isImportant).TautologyFree := by
  refine Expression.tautologyFree_and fun e he => ?_
  obtain ⟨ls, hls, rfl⟩ := List.mem_map.mp he
  have hls := h ls hls
  apply Expression.TautologyFree.and_pair
  · exact (Expression.tautologyFree_orLiterals (consistent_of_positive hls)).mark _
  · refine (Expression.tautologyFree_and fun e he => ?_).markArgs _
    obtain ⟨i, -, he⟩ := List.mem_flatMap.mp he
    obtain ⟨j, -, rfl⟩ := List.mem_map.mp he
    refine Expression.tautologyFree_orLiterals (consistent_of_not_positive fun l hl => ?_)
    rcases List.mem_pair.mp hl with rfl | rfl
    · exact (getD_of_forall positive_constFalse hls i).not_not
    · exact (getD_of_forall positive_constFalse hls j).not_not

/-- `transpose` reads entries, or the default past the end of a row. -/
theorem forall_mem_transpose {α : Type} [Inhabited α] {P : α → Prop} {rows : List (List α)}
    (hdefault : P default) (h : ∀ row ∈ rows, ∀ x ∈ row, P x) :
    ∀ row ∈ transpose rows, ∀ x ∈ row, P x := by
  intro row hrow x hx
  cases rows with
  | nil => cases hrow
  | cons first rest =>
      obtain ⟨i, -, rfl⟩ := List.mem_map.mp hrow
      obtain ⟨r, hr, rfl⟩ := List.mem_map.mp hx
      exact getD_of_forall hdefault (h r hr) i

/-- All entries are constants or variables. -/
def Matrix.Positive (matrix : Matrix) : Prop := ∀ row ∈ matrix, ∀ ls ∈ row, ∀ l ∈ ls, l.Positive

theorem Matrix.Positive.entry (h : square.Positive) (i j k : Nat) :
    (square.entry i j k).Positive := by
  have hrow : ∀ ls ∈ square.getD i [], ∀ l ∈ ls, l.Positive :=
    getD_of_forall (P := fun row : List (List Literal) => ∀ ls ∈ row, ∀ l ∈ ls, l.Positive)
      (fun _ hls => absurd hls List.not_mem_nil) h i
  have hcell : ∀ l ∈ square.cell i j, l.Positive :=
    getD_of_forall (P := fun ls : List Literal => ∀ l ∈ ls, l.Positive)
      (fun _ hl => absurd hl List.not_mem_nil) hrow j
  exact getD_of_forall positive_constFalse hcell k

theorem latin_tautologyFree (h : square.Positive) : (latin square).TautologyFree := by
  refine Expression.tautologyFree_and fun e he => ?_
  rcases List.mem_append.mp he with he | he
  · obtain ⟨row, hrow, rfl⟩ := List.mem_map.mp he
    exact (codeSufficient_tautologyFree (h row hrow)).and_pair (codeSufficient_tautologyFree
      (forall_mem_transpose positive_constFalse (h row hrow)))
  · obtain ⟨columns, hcolumns, rfl⟩ := List.mem_map.mp he
    have hcells : ∀ ls ∈ columns, ∀ l ∈ ls, l.Positive :=
      forall_mem_transpose (P := fun ls : List Literal => ∀ l ∈ ls, l.Positive)
        (fun _ hl => absurd hl List.not_mem_nil) h columns hcolumns
    exact codeSufficient_tautologyFree (forall_mem_transpose positive_constFalse hcells)

theorem fullyOrthogonalSquare_tautologyFree (ha : a.Positive) (hb : b.Positive) :
    (fullyOrthogonalSquare a b).TautologyFree := by
  refine Expression.tautologyFree_and fun e he => ?_
  obtain ⟨i1, -, he⟩ := List.mem_flatMap.mp he
  obtain ⟨j1, -, he⟩ := List.mem_flatMap.mp he
  obtain ⟨i2, -, he⟩ := List.mem_flatMap.mp he
  obtain ⟨j2, -, he⟩ := List.mem_flatMap.mp he
  obtain ⟨k1, -, he⟩ := List.mem_flatMap.mp he
  obtain ⟨k2, -, rfl⟩ := List.mem_map.mp he
  refine Expression.tautologyFree_orLiterals (consistent_of_not_positive ?_)
  simp only [List.forall_mem_cons]
  exact ⟨(ha.entry i1 j1 k1).not_not, (ha.entry i2 j2 k1).not_not, (hb.entry i1 j1 k2).not_not,
    (hb.entry i2 j2 k2).not_not, fun _ hl => absurd hl List.not_mem_nil⟩

end Lines

section Definitions

variable {v : Nat} {args : List Literal} {e : Expression} {s : GenState}

theorem iffAnd_tautologyFree (hargs : Consistent args) (hv : .var v ∉ args) :
    (iffAnd v args).TautologyFree := by
  refine Expression.tautologyFree_and fun e he => ?_
  rcases List.mem_append.mp he with he | he
  · obtain ⟨l, hl, rfl⟩ := List.mem_map.mp he
    refine Expression.tautologyFree_orLiterals ((consistent_singleton l).cons_notVar fun hmem => ?_)
    exact hv (List.mem_singleton.mp hmem ▸ hl)
  · obtain rfl := List.mem_singleton.mp he
    have hnot : .notVar v ∉ args.map Literal.not := by
      intro hmem
      obtain ⟨l, hl, heq⟩ := List.mem_map.mp hmem
      rw [not_eq_notVar_iff] at heq
      exact hv (heq ▸ hl)
    exact Expression.tautologyFree_orLiterals
      ((hargs.map_not.cons_var hnot).subset (List.perm_append_singleton _ _).subset)

theorem iffOr_tautologyFree (hargs : Consistent args) (hv : .var v ∉ args) :
    (iffOr v args).TautologyFree := by
  refine Expression.tautologyFree_and fun e he => ?_
  rcases List.mem_append.mp he with he | he
  · obtain ⟨l, hl, rfl⟩ := List.mem_map.mp he
    refine Expression.tautologyFree_orLiterals
      ((consistent_singleton l.not).cons_var fun hmem => ?_)
    have hmem := (List.mem_singleton.mp hmem).symm
    rw [not_eq_notVar_iff] at hmem
    exact hv (hmem ▸ hl)
  · obtain rfl := List.mem_singleton.mp he
    exact Expression.tautologyFree_orLiterals
      ((hargs.cons_notVar hv).subset (List.perm_append_singleton _ _).subset)

/-- A definition is no tautology if the expression does not mention the variable and its literals
can be true together. -/
theorem yields_iff_tautologyFree (he : Consistent e.literals) (hv : .var v ∉ e.literals) :
    Yields (iff v e) s fun r s' => s'.varCounter = s.varCounter ∧ r.TautologyFree := by
  have hreturn (node : Node) (r : Expression) (hr : r.TautologyFree) :
      Yields (addNode node >>= fun _ => pure r) s fun r s' =>
        s'.varCounter = s.varCounter ∧ r.TautologyFree := by
    refine (yields_addNode node).bind ?_
    rintro _ _ rfl
    exact Yields.of_pure ⟨rfl, hr⟩
  cases e with
  | conj cs =>
      refine (Yields.of_lift
        (Q := fun args t => cs.mapM (fun it => it.clause.literal?) = some args ∧ t = s)
        fun args hargs => ⟨hargs, rfl⟩).bind ?_
      rintro args _ ⟨hargs, rfl⟩
      have hsubset : args ⊆ (Expression.conj cs).literals := by
        intro l hl
        obtain ⟨cj, hcj, hclause⟩ := mem_of_mapM_literal? hargs hl
        refine Expression.mem_literals.mpr ⟨cj, hcj, ?_⟩
        rw [hclause]
        exact List.mem_singleton_self l
      exact hreturn _ _ (iffAnd_tautologyFree (he.subset hsubset) fun hmem => hv (hsubset hmem))
  | clause cj =>
      obtain ⟨clause, isImportant⟩ := cj
      cases clause with
      | disj args =>
          have hsubset : args ⊆ (Expression.clause ⟨.disj args, isImportant⟩).literals :=
            fun l hl => Expression.mem_literals.mpr ⟨_, List.mem_singleton_self _, hl⟩
          exact hreturn _ _ (iffOr_tautologyFree (he.subset hsubset) fun hmem => hv (hsubset hmem))
      | literal l =>
          cases l with
          | notVar name => exact Yields.of_failure
          | constTrue => exact hreturn _ _ (Expression.tautologyFree_literal _)
          | constFalse => exact hreturn _ _ (Expression.tautologyFree_literal _)
          | var name =>
              refine hreturn _ _ (Expression.TautologyFree.and_pair ?_ ?_)
              · exact Expression.tautologyFree_orLiterals
                  (consistent_of_positive (by simp [positive_var]))
              · exact Expression.tautologyFree_orLiterals
                  (consistent_of_not_positive (by simp [positive_var, Literal.not]))

theorem atMostOneOf_tautologyFree (vars : List Nat) : (atMostOneOf vars).TautologyFree := by
  refine Expression.tautologyFree_and fun e he => ?_
  obtain ⟨i, -, he⟩ := List.mem_flatMap.mp he
  obtain ⟨j, -, rfl⟩ := List.mem_map.mp he
  exact Expression.tautologyFree_orLiterals
    (consistent_of_not_positive (by simp [positive_var, Literal.not]))

theorem yields_newVariables_fresh {α : Type} (xs : List α) :
    Yields (xs.mapM fun _ => newVariable) s fun vs s' =>
      s.varCounter ≤ s'.varCounter ∧ ∀ v ∈ vs, s.varCounter < v := by
  refine (Yields.of_ensures (ensures_newVariables xs s)).mono ?_
  rintro vs s' ⟨rfl, rfl⟩
  refine ⟨Nat.le_add_right _ _, fun v hv => ?_⟩
  rw [List.mem_range'_1] at hv
  omega

/-- Fresh variables for expressions whose literals can be true together. -/
theorem yields_definitions_tautologyFree {α : Type} {xs : List α} {vs : List Nat} {c : Nat}
    (g : α → Expression) (hg : ∀ x ∈ xs, (g x).Proper c ∧ Consistent (g x).literals)
    (hvs : ∀ v ∈ vs, c < v) :
    Yields ((xs.zip vs).mapM fun p => iff p.2 (g p.1)) s fun phis s' =>
      s'.varCounter = s.varCounter ∧ ∀ phi ∈ phis, phi.TautologyFree := by
  refine Yields.mapM_keeps (I := fun t : GenState => t.varCounter = s.varCounter)
    (fun p hp t ht => ?_) rfl
  obtain ⟨hproper, hconsistent⟩ := hg p.1 (List.of_mem_zip hp).1
  have hfresh := hvs p.2 (List.of_mem_zip hp).2
  refine (yields_iff_tautologyFree hconsistent fun hmem => ?_).mono fun _ _ h =>
    ⟨h.1.trans ht, h.2⟩
  have hle := hproper.le_of_mem_literals hmem (List.mem_singleton_self p.2)
  omega

/-- The definitions of a pair of symbols. -/
theorem yields_symbolPair_tautologyFree {mark : Expression → Expression} {exprs : List Expression}
    {q chi : Nat} (hmark : ∀ e : Expression, e.TautologyFree → (mark e).TautologyFree)
    (hexprs : ∀ e ∈ exprs, e.Proper s.varCounter ∧ Consistent e.literals)
    (hchi : chi ≤ s.varCounter) :
    Yields (symbolPair mark exprs q chi) s fun r s' =>
      s.varCounter ≤ s'.varCounter ∧ r.TautologyFree := by
  refine (yields_newVariables_fresh exprs).bind ?_
  rintro vs s₁ ⟨hcounter, hfresh⟩
  refine (yields_definitions_tautologyFree (fun e => e) hexprs hfresh).bind ?_
  rintro phis s₂ ⟨hs₂, hphis⟩
  refine (yields_iff_tautologyFree (e := .ofClause (.disj (vs.map .var))) ?_ ?_).bind ?_
  · refine consistent_of_positive fun l hl => ?_
    obtain ⟨cj, hcj, hl⟩ := Expression.mem_literals.mp hl
    rw [List.mem_singleton.mp hcj] at hl
    obtain ⟨v, -, rfl⟩ := List.mem_map.mp hl
    exact positive_var
  · intro hmem
    obtain ⟨cj, hcj, hl⟩ := Expression.mem_literals.mp hmem
    rw [List.mem_singleton.mp hcj] at hl
    obtain ⟨v, hv, heq⟩ := List.mem_map.mp hl
    cases heq
    exact absurd (hfresh chi hv) (Nat.not_lt.mpr hchi)
  · rintro chiExpr s₃ ⟨hs₃, hchiExpr⟩
    refine Yields.of_pure ⟨by omega, Expression.TautologyFree.and_pair (hmark _ ?_) ?_⟩
    · refine Expression.tautologyFree_and fun e he => ?_
      rcases List.mem_append.mp he with he | he
      · exact hphis e he
      · obtain rfl := List.mem_singleton.mp he
        exact Expression.tautologyFree_and (by simpa using hchiExpr)
    · split
      · exact atMostOneOf_tautologyFree vs
      · exact Expression.tautologyFree_and (by simp)

end Definitions

section Counter

variable {v : Nat → Nat} {w : Nat → Nat → Nat} {k i : Nat} {s : GenState}

theorem yields_greaterOrEqualHead_tautologyFree :
    Yields (greaterOrEqualHead v w k) s fun r _ => r.TautologyFree := by
  refine (Yields.mapM_forall (P := Expression.TautologyFree) fun it _ t => ?_).bind
    fun headNots s₁ hnots => ?_
  · exact Yields.bind_right fun _ _ => Yields.of_pure (Expression.tautologyFree_literal _)
  · refine Yields.bind_right fun _ _ =>
      Yields.of_pure ((Expression.TautologyFree.and_pair ?_ ?_).markArgs false)
    · exact Expression.tautologyFree_orLiterals (consistent_of_positive (by simp [positive_var]))
    · exact Expression.tautologyFree_and hnots

theorem consistent_pair {a b : Nat} (h : a ≠ b) : Consistent [.notVar a, .var b] :=
  (consistent_singleton _).cons_notVar (by simpa using h)

theorem yields_greaterOrEqualMiddle_tautologyFree (hk : 0 < k)
    (hrows : ∀ j < k, ∀ j' < k, w (i - 1) j ≠ w i j') (hv : ∀ j < k, v i ≠ w (i - 1) j) :
    Yields (greaterOrEqualMiddle v w k i) s fun r _ => r.TautologyFree := by
  refine Yields.bind_right fun _ s₁ => ?_
  refine (Yields.mapM_forall (P := Expression.TautologyFree) fun j hj t => ?_).bind
    fun second s₂ hsecond => ?_
  · have hj := mem_rangeUntil.mp hj
    refine Yields.bind_right fun _ _ => Yields.of_pure ?_
    apply Expression.TautologyFree.and_pair
    · refine Expression.tautologyFree_orLiterals
        ((consistent_pair (hrows (j - 1) (by omega) j hj.2)).cons_var ?_)
      simpa using hv (j - 1) (by omega)
    · exact Expression.tautologyFree_orLiterals (consistent_pair (hrows j hj.2 j hj.2))
  · refine Yields.of_pure (Expression.tautologyFree_and ?_)
    simp only [List.forall_mem_cons]
    refine ⟨(Expression.TautologyFree.and_pair ?_ ?_).markArgs false,
      (Expression.tautologyFree_and hsecond).markArgs false, ?_,
      fun _ he => absurd he List.not_mem_nil⟩
    · exact Expression.tautologyFree_orLiterals (consistent_of_positive (by simp [positive_var]))
    · exact Expression.tautologyFree_orLiterals (consistent_pair (hrows 0 hk 0 hk))
    · refine Expression.tautologyFree_orLiterals ((consistent_singleton _).cons_var ?_)
      simpa using hv (k - 1) (by omega)

/-- The variables of a counter are numbered past what it counts, row by row. -/
theorem yields_greaterOrEqual_tautologyFree {vars : List Nat}
    (hvars : ∀ v ∈ vars, v ≤ s.varCounter) :
    Yields (greaterOrEqual vars k) s fun r _ => r.expr.TautologyFree := by
  refine (Yields.of_ensures (ensures_newVariableRows (vars.length - 1) k s)).bind ?_
  rintro svars s₁ ⟨hsvars, -⟩
  split
  · refine Yields.of_pure (Expression.tautologyFree_and fun e he => ?_)
    obtain ⟨v, -, rfl⟩ := List.mem_map.mp he
    exact Expression.tautologyFree_literal _
  next hk =>
  refine (Yields.of_guard (Q := fun _ _ => 1 < vars.length) id).bind fun _ s₂ hlength => ?_
  have hk : 0 < k := Nat.pos_of_ne_zero hk
  have hv (i : Nat) : vars.getD i 0 ≤ s.varCounter :=
    getD_of_forall (P := (· ≤ s.varCounter)) (Nat.zero_le _) hvars i
  have hw : ∀ i < vars.length - 1, ∀ j < k,
      (svars.getD i []).getD j 0 = s.varCounter + i * k + j + 1 := by
    intro i hi j hj
    rw [hsvars, getD_map_range _ _ hi, getD_range' hj]
    omega
  refine yields_greaterOrEqualHead_tautologyFree.bind fun head s₃ hhead => ?_
  refine (Yields.mapM_forall (P := Expression.TautologyFree) fun i hi t => ?_).bind
    fun middle s₄ hmiddle => ?_
  · obtain ⟨hpos, hi⟩ := mem_rangeUntil.mp hi
    refine yields_greaterOrEqualMiddle_tautologyFree hk (fun j hj j' hj' => ?_) fun j hj => ?_
    · obtain ⟨i, rfl⟩ : ∃ i', i = i' + 1 := ⟨i - 1, by omega⟩
      rw [Nat.add_sub_cancel, hw i (by omega) j hj, hw (i + 1) hi j' hj', Nat.add_mul, Nat.one_mul]
      omega
    · have hle := hv i
      rw [hw (i - 1) (by omega) j hj]
      omega
  · refine Yields.of_pure (Expression.tautologyFree_and ?_)
    simp only [List.forall_mem_cons]
    refine ⟨hhead, Expression.tautologyFree_and hmiddle,
      Expression.tautologyFree_orLiterals ((consistent_singleton _).cons_var ?_),
      fun _ he => absurd he List.not_mem_nil⟩
    have hle := hv (vars.length - 1)
    rw [hw (vars.length - 2) (by omega) (k - 1) (by omega), List.mem_singleton,
      Literal.notVar.injEq]
    omega

end Counter

section Squares

variable {s : GenState}

/-- The definitions of the pairs of symbols of two squares, and their counter. -/
theorem yields_orthogonalBy_tautologyFree {order : Nat → List Nat → List Nat}
    {mark : Expression → Expression} {equalExprs : Nat → Nat → Option (List Expression)} {n q : Nat}
    (horder : ∀ counter vars, (order counter vars).Perm vars)
    (hmark : ∀ e : Expression, e.TautologyFree → (mark e).TautologyFree)
    (hexprs : ∀ aN bN exprs, equalExprs aN bN = some exprs →
      ∀ e ∈ exprs, e.Proper s.varCounter ∧ Consistent e.literals) :
    Yields (orthogonalBy order mark equalExprs n q) s fun r _ => r.expr.TautologyFree := by
  refine (Yields.of_ensures (ensures_newVariableRows n n s)).bind ?_
  rintro chis _ ⟨hchis, rfl⟩
  have hflatten : chis.flatten = List.range' (s.varCounter + 1) (n * n) := by
    rw [← flatMap_range', List.flatMap_def, ← hchis]
  have hchi (i j : Nat) : (chis.getD i []).getD j 0 ≤ s.varCounter + n * n := by
    refine getD_of_forall (P := (· ≤ s.varCounter + n * n)) (Nat.zero_le _) (fun v hv => ?_) j
    by_cases hi : i < chis.length
    · rw [List.getD_eq_getElem _ _ hi] at hv
      have hmem := List.mem_flatten_of_mem (List.getElem_mem hi) hv
      rw [hflatten, List.mem_range'_1] at hmem
      omega
    · rw [List.getD_eq_default _ _ (Nat.le_of_not_lt hi)] at hv
      cases hv
  let I (t : GenState) : Prop := s.varCounter + n * n ≤ t.varCounter
  refine (Yields.mapM_keeps (I := I) (P := Expression.TautologyFree) (fun aN _ t ht => ?_)
    le_rfl).bind ?_
  · refine (Yields.mapM_keeps (I := I) (P := Expression.TautologyFree) (fun bN _ u hu => ?_)
      ht).bind ?_
    · refine (Yields.of_lift (Q := fun exprs u' => equalExprs aN bN = some exprs ∧ u' = u)
        fun exprs h => ⟨h, rfl⟩).bind ?_
      rintro exprs u ⟨hequal, rfl⟩
      refine (yields_symbolPair_tautologyFree hmark (fun e he => ?_) ((hchi _ _).trans hu)).mono
        fun _ _ h => ⟨hu.trans h.1, h.2⟩
      obtain ⟨hproper, hconsistent⟩ := hexprs aN bN exprs hequal e he
      exact ⟨hproper.mono ((Nat.le_add_right _ _).trans hu), hconsistent⟩
    · rintro row t' ⟨ht', hrow⟩
      exact Yields.of_pure ⟨ht', Expression.tautologyFree_and hrow⟩
  · rintro pairwise s₂ ⟨hle, hpairwise⟩
    refine (Yields.of_guard (Q := fun _ t => t = s₂) fun _ => rfl).bind ?_
    rintro _ s₂ rfl
    refine (Yields.of_ensures (Ensures.of_get (Q := fun t u => t = s₂ ∧ u = s₂) ⟨rfl, rfl⟩)).bind ?_
    rintro _ s₂ ⟨rfl, rfl⟩
    refine (yields_greaterOrEqual_tautologyFree fun v hv => ?_).bind fun greater s₄ hgreater =>
      Yields.of_pure ((Expression.tautologyFree_and hpairwise).and_pair hgreater)
    have hmem := (horder _ _).mem_iff.mp hv
    rw [hflatten, List.mem_range'_1] at hmem
    omega

/-- A cell is asked for one symbol: its variable, and the negations of the others. -/
theorem mem_literals_equal {n value : Nat} {h : Nat → Literal} {l : Literal}
    (hl : l ∈ (equal ((List.range n).map h) value).literals) (hnames : l.names ≠ []) :
    ∃ k < n, l = if k + 1 = value then h k else (h k).not := by
  rw [equal, mapIdx_map_range] at hl
  obtain ⟨e, he, hl⟩ := Expression.exists_mem_literals_of_and hl hnames
  obtain ⟨k, hk, rfl⟩ := List.mem_map.mp he
  obtain ⟨cj, hcj, hl⟩ := Expression.mem_literals.mp hl
  rw [List.mem_singleton.mp hcj] at hl
  exact ⟨k, List.mem_range.mp hk, List.mem_singleton.mp hl⟩

theorem yields_fixedCycle_tautologyFree (vs : List Nat) (cycle : Int) :
    Yields (fixedCycle vs cycle) s fun r _ => r.TautologyFree := by
  unfold fixedCycle
  split
  · exact Yields.of_pure (Expression.tautologyFree_literal _)
  · split
    · exact Yields.of_failure
    · exact Yields.bind_right fun v _ => Yields.of_pure (Expression.tautologyFree_literal _)

/-- The variables of the cycles are defined by equalities that can hold together. -/
theorem yields_breakingSymmetry_tautologyFree {vars : List (List Literal)} {first : Nat}
    {cycle : Int} (hcycles : ∀ cycles, getCycles (vars.length - first) = some cycles →
      ∀ p ∈ cycles, (and (cycleEqualities vars p first)).Proper s.varCounter ∧
        Consistent (and (cycleEqualities vars p first)).literals) :
    Yields (breakingSymmetry vars first cycle) s fun r _ => r.TautologyFree := by
  refine (Yields.of_lift (Q := fun cycles t => getCycles (vars.length - first) = some cycles ∧
    t = s) fun cycles h => ⟨h, rfl⟩).bind ?_
  rintro cycles s ⟨hget, rfl⟩
  refine (yields_newVariables_fresh cycles).bind ?_
  rintro vs s₁ ⟨-, hfresh⟩
  refine (yields_definitions_tautologyFree (fun p => and (cycleEqualities vars p first))
    (hcycles cycles hget) hfresh).bind ?_
  rintro phis s₂ ⟨-, hphis⟩
  refine (yields_fixedCycle_tautologyFree vs cycle).bind fun fixed s₃ hfixed => Yields.of_pure
    (Expression.TautologyFree.and_pair (Expression.TautologyFree.and_pair
      (Expression.tautologyFree_and hphis) ?_) hfixed)
  refine Expression.tautologyFree_orLiterals (consistent_of_positive fun l hl => ?_)
  obtain ⟨v, -, rfl⟩ := List.mem_map.mp hl
  exact positive_var

end Squares

namespace LatinSquareEncoder

variable {e : LatinSquareEncoder} {s : GenState} {ls : List Literal}

/-- Literals that ask every cell for one symbol can be true together. -/
theorem consistent_of_symbols (symbol : Nat → Nat → Nat → Nat)
    (h : ∀ l ∈ ls, l.names ≠ [] → ∃ t < e.k, ∃ i < e.n, ∃ j < e.n, ∃ k < e.n,
      l = if k + 1 = symbol t i j then e.entry t i j k else (e.entry t i j k).not) :
    Consistent ls := by
  obtain ⟨β, hβ⟩ := exists_layout_eval (oneHotKind e.reduced) e.k e.n e.n e.n
    (fun t i j k => (oneHotKind e.reduced t i j k).getD (decide (k + 1 = symbol t i j)))
    fun t _ i _ j _ k _ b hb => by rw [hb, Option.getD_some]
  refine consistent_of_eval (α := β) fun l hl hnames => ?_
  obtain ⟨t, ht, i, hi, j, hj, k, hk, rfl⟩ := h l hl hnames
  have heval := hβ t ht i hi j hj k hk
  rw [← entry] at heval
  cases hkind : oneHotKind e.reduced t i j k with
  | none =>
      rw [hkind, Option.getD_none] at heval
      split
      · next heq => simpa [heq] using heval
      · next hne => simpa [hne] using heval
  | some b =>
      rw [entry, layoutEntry_of_some hi hj hk hkind] at hnames
      refine absurd ?_ hnames
      cases b <;> split <;> rfl

theorem table_positive (t : Nat) : (e.table t).Positive := by
  intro row hrow ls hls l hl
  obtain ⟨i, -, rfl⟩ := List.mem_map.mp hrow
  obtain ⟨j, -, rfl⟩ := List.mem_map.mp hls
  obtain ⟨k, -, rfl⟩ := List.mem_map.mp hl
  rw [entry, layoutEntry, numbered]
  split
  · split <;> exact fun _ => Literal.noConfusion
  · exact positive_var

theorem lines_tautologyFree : (and (e.tables.map latin)).TautologyFree := by
  refine Expression.tautologyFree_and fun line hline => ?_
  obtain ⟨square, hsquare, rfl⟩ := List.mem_map.mp hline
  obtain ⟨t, -, rfl⟩ := List.mem_map.mp hsquare
  exact latin_tautologyFree (table_positive t)

theorem yields_orthogonalSquare_tautologyFree (order : Order) (hn : 0 < e.n) {t u : Nat}
    (htu : t < u) (hu : u < e.k) (hs : e.coreSize ≤ s.varCounter) :
    Yields (orthogonalSquare order (e.table t) (e.table u) e.q) s fun r _ =>
      r.expr.TautologyFree := by
  unfold orthogonalSquare
  split
  · refine yields_orthogonalBy_tautologyFree order.perm (fun e he => he.markArgs false)
      fun aN bN exprs hexprs eq heq => ?_
    obtain rfl := Option.some.inj hexprs
    rw [table, table, equalExprs_matrixOf hn] at heq
    obtain ⟨p, hp, rfl⟩ := List.mem_map.mp heq
    have hrow : p / e.n < e.n := Nat.div_lt_of_lt_mul (List.mem_range.mp hp)
    have hcolumn : p % e.n < e.n := Nat.mod_lt p hn
    constructor
    · exact (Expression.proper_and_pair
        (equal_proper fun k hk => entry_within (htu.trans hu) hrow hcolumn hk)
        (equal_proper fun k hk => entry_within hu hrow hcolumn hk)).mono hs
    · refine consistent_of_symbols (e := e) (fun square _ _ => if square = t then aN else bN)
        fun l hl hnames => ?_
      obtain ⟨e', he', hl⟩ := Expression.exists_mem_literals_of_and hl hnames
      rcases List.mem_pair.mp he' with rfl | rfl
      · obtain ⟨k, hk, hlk⟩ := mem_literals_equal hl hnames
        refine ⟨t, htu.trans hu, _, hrow, _, hcolumn, k, hk, ?_⟩
        rwa [if_pos rfl]
      · obtain ⟨k, hk, hlk⟩ := mem_literals_equal hl hnames
        refine ⟨u, hu, _, hrow, _, hcolumn, k, hk, ?_⟩
        rwa [if_neg htu.ne']
  · exact Yields.of_pure (fullyOrthogonalSquare_tautologyFree (table_positive t) (table_positive u))

/-- A row of a table may be asked to run along a cycle. -/
theorem cycleEqualities_consistent {t i first : Nat} {p : List Nat} (ht : t < e.k) (hi : i < e.n)
    (hparts : ∀ a ∈ p, 2 ≤ a) (hsum : p.sum = e.n - first) (hfirst : first ≤ e.n) :
    Consistent (and (cycleEqualities (rowOf e.n (e.entry t i)) p first)).literals := by
  let next (j : Nat) : Nat := if h : j < e.n then cyclePermutation e.n first p ⟨j, h⟩ else 0
  have hlaid := laidOut_cyclePermutation hparts hsum
  have hequalities : ∀ eq ∈ cycleEqualities (rowOf e.n (e.entry t i)) p first,
      ∃ j < e.n, eq = equal ((List.range e.n).map (e.entry t i j)) (next j + 1) := by
    rw [forall_mem_cycleEqualities (by omega)]
    refine LaidOut.mono (n := e.n) (fun j hj v _ hnext => ⟨j, hj, ?_⟩) (by omega) hlaid
    obtain ⟨h, heq⟩ := hnext
    rw [← heq]
    simp only [next, dif_pos hj]
  refine consistent_of_symbols (e := e) (fun _ _ j => next j + 1) fun l hl hnames => ?_
  obtain ⟨eq, heq, hl⟩ := Expression.exists_mem_literals_of_and hl hnames
  obtain ⟨j, hj, rfl⟩ := hequalities eq heq
  obtain ⟨k, hk, hlk⟩ := mem_literals_equal hl hnames
  exact ⟨t, ht, i, hi, j, hj, k, hk, hlk⟩

theorem yields_breakRow_tautologyFree {t i first : Nat} {cycle : Int} (hn : first + 2 ≤ e.n) :
    Yields (do
      let square ← liftM e.tables[t]?
      let row ← liftM square[i]?
      breakingSymmetry row first cycle) e.coreState fun r _ => r.TautologyFree := by
  refine (Yields.of_lift (Q := fun square s => (t < e.k ∧ square = e.table t) ∧ s = e.coreState)
    fun square h => ⟨?_, rfl⟩).bind ?_
  · obtain ⟨ht, rfl⟩ := List.getElem?_eq_some_iff.mp h
    simp only [tables, List.length_map, List.length_range] at ht
    exact ⟨ht, by simp [tables]⟩
  rintro _ s ⟨⟨ht, rfl⟩, rfl⟩
  refine (Yields.of_lift (Q := fun row s => (i < e.n ∧ row = rowOf e.n (e.entry t i)) ∧
    s = e.coreState) fun row h => ⟨?_, rfl⟩).bind ?_
  · obtain ⟨hi, rfl⟩ := List.getElem?_eq_some_iff.mp h
    simp only [table, matrixOf, List.length_map, List.length_range] at hi
    exact ⟨hi, by simp [table, matrixOf, rowOf]⟩
  rintro _ s ⟨⟨hi, rfl⟩, rfl⟩
  refine yields_breakingSymmetry_tautologyFree fun cycles hcycles p hp => ?_
  have hlength : (rowOf e.n (e.entry t i)).length = e.n := by simp [rowOf]
  rw [hlength, getCycles_eq (by omega)] at hcycles
  obtain rfl := Option.some.inj hcycles
  obtain ⟨hsum, hparts⟩ := sum_of_mem_partitions (by decide) (by omega) p hp
  refine ⟨Expression.proper_and ?_, cycleEqualities_consistent ht hi hparts hsum (by omega)⟩
  rw [forall_mem_cycleEqualities (by omega)]
  exact laidOut_of_forall (fun j hj v _ => equal_proper fun k hk => entry_within ht hi hj hk)
    (by omega)

theorem yields_symmetry_tautologyFree (hn : 3 ≤ e.n) :
    Yields (e.symmetry e.tables) e.coreState fun breaking _ => breaking.TautologyFree := by
  have hnone : Yields (pure (and [])) e.coreState fun breaking _ =>
      Expression.TautologyFree breaking := Yields.of_pure (Expression.tautologyFree_and (by simp))
  unfold symmetry
  split
  · cases e.breakingSymmetryType with
    | first => exact yields_breakRow_tautologyFree (by omega)
    | second => exact yields_breakRow_tautologyFree (by omega)
    | none => exact hnone
  · exact hnone

theorem yields_consistent (order : Order) (hn : 3 ≤ e.n) (hk : 2 ≤ e.k) (hq : e.q ≤ e.n * e.n) :
    Yields (e.program order) {} fun f _ => ∀ cj ∈ f.clauses, Consistent cj.clause.args := by
  refine (Yields.of_ensures (ensures_coreVariables (by omega))).bind ?_
  rintro core s ⟨rfl, rfl⟩
  refine (Yields.of_ensures (Ensures.of_get (Q := fun _ u => u = e.coreState) rfl)).bind ?_
  rintro _ s rfl
  refine ((yields_symmetry hn hk).and (yields_symmetry_tautologyFree hn)).bind ?_
  rintro breaking s₁ ⟨⟨-, hbuilds, -⟩, hbreaking⟩
  refine (Yields.mapM_keeps (I := fun t => e.coreSize ≤ t.varCounter)
    (P := fun r => r.expr.TautologyFree) (fun p hp t ht => ?_) hbuilds.le).bind ?_
  · obtain ⟨hij, hj⟩ := mem_squarePairs.mp hp
    have hwithin : ∀ u < e.k, ∀ i < e.n, ∀ j < e.n, ∀ k < e.n,
        (e.entry u i j k).Within t.varCounter :=
      fun u hu i hi j hj k hk => (entry_within hu hi hj hk).mono ht
    have hcounter : Ensures (orthogonalSquare order (e.table p.1) (e.table p.2) e.q) t _ :=
      ensures_orthogonalSquare order (by omega) hq (hwithin _ (hij.trans hj)) (hwithin _ hj)
        fun i hi j hj k hk => entry_ne_constTrue (by omega) hi hj hk
    rw [table_getD (hij.trans hj), table_getD hj]
    exact ((Yields.of_ensures hcounter).and (yields_orthogonalSquare_tautologyFree order (by omega)
      hij hj ht)).mono fun _ _ h => ⟨ht.trans h.1.builds.le, h.2⟩
  rintro ortho s₂ ⟨-, hortho⟩
  refine Yields.bind_right fun _ s₃ => ?_
  refine (Yields.of_lift (Q := fun args _ => (e.formula breaking ortho).andArgs? = some args)
    fun args hargs => hargs).bind fun args s₄ hargs => ?_
  refine Yields.bind_right fun _ s₅ => Yields.of_pure fun cj hcj => ?_
  have hformula : (e.formula breaking ortho).TautologyFree := by
    refine Expression.TautologyFree.and_pair (lines_tautologyFree.and_pair hbreaking)
      (Expression.tautologyFree_and fun r hr => ?_)
    obtain ⟨_, hmem, rfl⟩ := List.mem_map.mp hr
    exact hortho _ hmem
  rw [eq_conj_of_andArgs? hargs] at hformula
  exact hformula cj (mem_of_mem_distinct hcj)

/-- No clause of a file of the encoder has a literal and its negation. -/
theorem consistent_of_cnf (order : Order) (hn : 3 ≤ e.n) (hk : 2 ≤ e.k) {f : CNF}
    (hf : e.cnf order = some f) : ∀ cj ∈ f.clauses, Consistent cj.clause.args := by
  obtain ⟨_, hends⟩ := of_run' (yields_netEnds order hn hk) hf
  obtain ⟨_, hconsistent⟩ := of_run' (yields_consistent order hn hk hends.index) hf
  exact hconsistent

end LatinSquareEncoder

end LatinSquares.Generator
