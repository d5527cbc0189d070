/-
# Which variables occur

A variable an encoder introduces could be lost when expressions are simplified. It is not:
whenever a step adds a node to the net, the expressions it returns mention the variable
of that node, unless one of them is `False` and the whole formula is. `Mentions` says so,
of whatever a step returns.
-/

import LatinSquares.Generator.Definitions
import LatinSquares.Generator.Latin

namespace LatinSquares.Generator

open LatinSquares.Math
open Expression (and)

namespace Expression

/-- The variables an expression mentions. -/
def names (e : Expression) : List Nat := e.args.flatMap fun c => c.clause.names

/-- No clause of an `And` is `False`. -/
def Simplified : Expression → Prop
  | clause _ => True
  | conj cs => ∀ cj ∈ cs, cj.clause ≠ .literal .constFalse

variable {e : Expression} {es : List Expression} {name : Nat} {l : Literal} {ls : List Literal}

theorem mem_names : name ∈ e.names ↔ ∃ cj ∈ e.args, name ∈ cj.clause.names := List.mem_flatMap

theorem simplified_clause (c : Conjunct) : (clause c).Simplified := trivial

theorem mem_andArgs {cs : List Conjunct} (h : (conj cs).Simplified) {cj : Conjunct} :
    cj ∈ (andArgs cs).args ↔ cj ∈ cs ∧ cj.clause ≠ .literal .constTrue ∨
      (∀ cj ∈ cs, cj.clause = .literal .constTrue) ∧ cj = ⟨.literal .constTrue, true⟩ := by
  have hany : ¬ (cs.any fun c => c.clause = .literal .constFalse) = true := by
    rw [List.any_eq_true]
    rintro ⟨cj, hcj, hfalse⟩
    exact h cj hcj (of_decide_eq_true hfalse)
  rw [andArgs, if_neg hany]
  split
  · next hnil =>
      have hall : ∀ cj ∈ cs, cj.clause = .literal .constTrue := by simpa using hnil
      simp only [args, literal, List.mem_singleton, and_iff_right hall]
      rw [or_iff_right fun hcj => hcj.2 (hall cj hcj.1)]
  · next cs' hne =>
      have hmem : ∀ cj, cj ∈ cs.filter (fun c => c.clause ≠ .literal .constTrue) ↔
          cj ∈ cs ∧ cj.clause ≠ .literal .constTrue := by simp
      rw [args, hmem, or_iff_left]
      rintro ⟨hall, -⟩
      exact hne (List.filter_eq_nil_iff.mpr fun cj hcj => by simp [hall cj hcj])

/-- A clause with a variable is among the conjuncts. -/
theorem mem_conjuncts (h : e.Simplified) {cj : Conjunct} (hcj : cj ∈ e.args)
    (hname : name ∈ cj.clause.names) : cj ∈ e.conjuncts := by
  have htrue : cj.clause ≠ .literal .constTrue := by
    intro heq
    rw [heq] at hname
    cases hname
  cases e with
  | clause c =>
      obtain rfl := List.mem_singleton.mp hcj
      rw [conjuncts, if_neg htrue]
      exact List.mem_singleton.mpr rfl
  | conj cs => exact (mem_andArgs h).mpr (Or.inl ⟨hcj, htrue⟩)

/-- A conjunction mentions what its arguments mention. -/
theorem mem_names_and (hfalse : (and es).isFalse = false) (he : e ∈ es) (hsimplified : e.Simplified)
    (hname : name ∈ e.names) : name ∈ (and es).names := by
  obtain ⟨cj, hcj, hname⟩ := mem_names.mp hname
  have hmem : cj ∈ es.flatMap conjuncts :=
    List.mem_flatMap.mpr ⟨e, he, mem_conjuncts hsimplified hcj hname⟩
  have hnone : es.any isFalse = false := by rwa [isFalse_and] at hfalse
  unfold Expression.and
  rw [if_neg (by simp [hnone])]
  split
  · next hnil => rw [hnil] at hmem; cases hmem
  · exact mem_names.mpr ⟨cj, hmem, hname⟩

theorem simplified_and (h : ∀ e ∈ es, e.Simplified) : (and es).Simplified := by
  cases and_cases es with
  | inl heq => rw [heq]; trivial
  | inr hrest =>
      obtain heq | ⟨hfalse, -, heq⟩ := hrest
      · rw [heq]; trivial
      · rw [heq]
        intro cj hcj
        obtain ⟨e, he, hcj⟩ := List.mem_flatMap.mp hcj
        have hsimplified := h e he
        cases e with
        | clause c =>
            rw [conjuncts] at hcj
            split at hcj
            · cases hcj
            · obtain rfl := List.mem_singleton.mp hcj
              simpa [isFalse] using hfalse _ he
        | conj cs =>
            obtain hcj | ⟨-, rfl⟩ := (mem_andArgs hsimplified).mp hcj
            · exact hsimplified cj hcj.1
            · simp

theorem simplified_mark (isImportant : Bool) (h : e.Simplified) :
    (e.mark isImportant).Simplified := by
  cases e <;> exact h

theorem names_mark (isImportant : Bool) : (e.mark isImportant).names = e.names := by
  cases e <;> rfl

theorem simplified_markArgs (isImportant : Bool) (h : e.Simplified) :
    (e.markArgs isImportant).Simplified := by
  cases e with
  | clause c => trivial
  | conj cs =>
      intro cj hcj
      obtain ⟨cj', hcj', rfl⟩ := List.mem_map.mp hcj
      exact h cj' hcj'

theorem names_markArgs (isImportant : Bool) : (e.markArgs isImportant).names = e.names := by
  cases e with
  | clause c => rfl
  | conj cs => simp [names, markArgs, args, List.flatMap_map]

/-- A disjunction without `True` mentions what its arguments mention. -/
theorem mem_names_orLiterals (hl : l ∈ ls) (hname : name ∈ l.names) (htrue : .constTrue ∉ ls) :
    name ∈ (orLiterals ls).names := by
  have hnot : Clause.literal .constTrue ∉ ls.map Clause.literal := by simpa using htrue
  have hdisj : l ∈ (ls.map Clause.literal).flatMap Clause.disjuncts := by
    apply List.mem_flatMap.mpr
    refine ⟨.literal l, List.mem_map_of_mem hl, ?_⟩
    cases l with
    | constFalse => cases hname
    | constTrue => exact absurd hl htrue
    | var name => exact List.mem_singleton.mpr rfl
    | notVar name => exact List.mem_singleton.mpr rfl
  apply mem_names.mpr
  refine ⟨_, List.mem_singleton.mpr rfl, ?_⟩
  unfold Clause.or
  rw [if_neg hnot]
  split
  · next hnil => rw [hnil] at hdisj; cases hdisj
  · exact List.mem_flatMap.mpr ⟨l, hdisj, hname⟩

end Expression

/-- The expressions `exprs` of a step from `s` to `s'` mention the variables of its nodes. -/
structure Mentions (s s' : GenState) (exprs : List Expression) : Prop where
  simplified : ∀ e ∈ exprs, e.Simplified
  emitted : ∃ nodes, s'.nodes = s.nodes ++ nodes ∧
    ((∀ e ∈ exprs, e.isFalse = false) → ∀ node ∈ nodes, ∃ e ∈ exprs, node.var ∈ e.names)

namespace Mentions

variable {s s' s'' : GenState} {e : Expression} {exprs exprs' : List Expression}

/-- A step that adds no node. -/
theorem of_silent (hnodes : s'.nodes = s.nodes) (h : ∀ e ∈ exprs, e.Simplified) :
    Mentions s s' exprs :=
  ⟨h, [], by rw [hnodes, List.append_nil], fun _ node hnode => by cases hnode⟩

theorem of_node {node : Node} (h : e.Simplified) (hvar : node.var ∈ e.names) :
    Mentions s { s with nodes := s.nodes ++ [node] } [e] := by
  refine ⟨by simpa using h, [node], rfl, fun _ node' hnode' => ?_⟩
  obtain rfl := List.mem_singleton.mp hnode'
  exact ⟨e, List.mem_singleton.mpr rfl, hvar⟩

theorem append (h : Mentions s s' exprs) (h' : Mentions s' s'' exprs') :
    Mentions s s'' (exprs ++ exprs') := by
  obtain ⟨nodes, hnodes, hvars⟩ := h.emitted
  obtain ⟨nodes', hnodes', hvars'⟩ := h'.emitted
  refine ⟨List.forall_mem_append.mpr ⟨h.simplified, h'.simplified⟩, nodes ++ nodes',
    by rw [hnodes', hnodes, List.append_assoc], fun hfalse => ?_⟩
  obtain ⟨hfalse, hfalse'⟩ := List.forall_mem_append.mp hfalse
  refine List.forall_mem_append.mpr ⟨?_, ?_⟩
  · intro node hnode
    obtain ⟨e, he, hvar⟩ := hvars hfalse node hnode
    exact ⟨e, List.mem_append_left _ he, hvar⟩
  · intro node hnode
    obtain ⟨e, he, hvar⟩ := hvars' hfalse' node hnode
    exact ⟨e, List.mem_append_right _ he, hvar⟩

/-- Only the nodes matter to where a step starts. -/
theorem congr {t : GenState} (h : Mentions s s' exprs) (hnodes : s.nodes = t.nodes) :
    Mentions t s' exprs := by
  obtain ⟨nodes, heq, hvars⟩ := h.emitted
  exact ⟨h.simplified, nodes, by rw [heq, hnodes], hvars⟩

theorem perm (h : Mentions s s' exprs) (hperm : exprs.Perm exprs') : Mentions s s' exprs' := by
  obtain ⟨nodes, heq, hvars⟩ := h.emitted
  refine ⟨fun e he => h.simplified e (hperm.mem_iff.mpr he), nodes, heq,
    fun hfalse node hnode => ?_⟩
  obtain ⟨e, he, hvar⟩ := hvars (fun e he => hfalse e (hperm.mem_iff.mp he)) node hnode
  exact ⟨e, hperm.mem_iff.mp he, hvar⟩

/-- Another expression stands for the ones returned. -/
theorem map (h : Mentions s s' exprs) (hsimplified : e.Simplified)
    (hfalse : e.isFalse = false → ∀ e' ∈ exprs, e'.isFalse = false)
    (hnames : e.isFalse = false → ∀ e' ∈ exprs, ∀ name ∈ e'.names, name ∈ e.names) :
    Mentions s s' [e] := by
  obtain ⟨nodes, heq, hvars⟩ := h.emitted
  refine ⟨by simpa using hsimplified, nodes, heq, fun hnot node hnode => ?_⟩
  have hnot : e.isFalse = false := hnot e (List.mem_singleton.mpr rfl)
  obtain ⟨e', he', hvar⟩ := hvars (hfalse hnot) node hnode
  exact ⟨e, List.mem_singleton.mpr rfl, hnames hnot e' he' _ hvar⟩

theorem and (h : Mentions s s' exprs) : Mentions s s' [Expression.and exprs] := by
  apply h.map (Expression.simplified_and h.simplified)
  · intro hfalse
    rw [Expression.isFalse_and, List.any_eq_false] at hfalse
    exact fun e he => Bool.not_eq_true _ |>.mp (hfalse e he)
  · exact fun hfalse e he name hname => Expression.mem_names_and hfalse he (h.simplified e he) hname

theorem markArgs (h : Mentions s s' [e]) (isImportant : Bool) :
    Mentions s s' [e.markArgs isImportant] := by
  apply h.map (Expression.simplified_markArgs isImportant (h.simplified e (by simp)))
  · simp
  · simp [Expression.names_markArgs]

theorem of_traversal {α : Type} {xs : List α} {es : List Expression}
    (h : Traversal (fun _ s e s' => Mentions s s' [e]) xs s es s') : Mentions s s' es := by
  induction h with
  | nil s => exact of_silent rfl (by simp)
  | cons head tail ih => exact head.append ih

end Mentions

section Blocks

variable {s : GenState} {v : Nat} {args : List Literal}

theorem yields_newVariables {α : Type} (xs : List α) :
    Yields (xs.mapM fun _ => newVariable) s fun _ s' => s'.nodes = s.nodes := by
  apply Yields.of_ensures
  apply (ensures_newVariables xs s).mono
  rintro _ s' ⟨-, rfl⟩
  rfl

theorem yields_newVariableRows (n k : Nat) :
    Yields ((List.range n).mapM fun _ => (List.range k).mapM fun _ => newVariable) s
      fun _ s' => s'.nodes = s.nodes := by
  apply Yields.of_ensures
  apply (ensures_newVariableRows n k s).mono
  rintro _ s' ⟨-, rfl⟩
  rfl

theorem yields_addNode (node : Node) :
    Yields (addNode node) s fun _ s' => s' = { s with nodes := s.nodes ++ [node] } :=
  Yields.of_ensures (ensures_addNode s node)

/-- A loop over steps that mention their variables. -/
theorem yields_mapM_mentions {α : Type} {xs : List α} {f : α → Gen Expression}
    (hstep : ∀ x ∈ xs, ∀ s, Yields (f x) s fun e s' => Mentions s s' [e]) :
    Yields (xs.mapM f) s fun es s' => Mentions s s' es :=
  (Yields.mapM hstep).mono fun _ _ htraversal => Mentions.of_traversal htraversal

theorem simplified_orLiterals (ls : List Literal) : (orLiterals ls).Simplified := trivial

theorem mem_names_iffAnd : v ∈ (iffAnd v args).names := by
  by_cases hfalse : .constFalse ∈ args
  · apply Expression.mem_names_and isFalse_iffAnd
      (List.mem_append_left _ (List.mem_map_of_mem hfalse)) (simplified_orLiterals _)
    exact Expression.mem_names_orLiterals (l := .notVar v) (by simp) (by simp [Literal.names])
      (by simp)
  · apply Expression.mem_names_and isFalse_iffAnd (List.mem_append_right _ List.mem_cons_self)
      (simplified_orLiterals _)
    apply Expression.mem_names_orLiterals (l := .var v) (by simp) (by simp [Literal.names])
    have hnot : ∀ l ∈ args, l.not ≠ .constTrue := by
      rintro l hl heq
      cases l <;> simp [Literal.not] at heq
      exact hfalse hl
    simpa using hnot

theorem mem_names_iffOr : v ∈ (iffOr v args).names := by
  by_cases htrue : .constTrue ∈ args
  · apply Expression.mem_names_and isFalse_iffOr
      (List.mem_append_left _ (List.mem_map_of_mem htrue)) (simplified_orLiterals _)
    exact Expression.mem_names_orLiterals (l := .var v) (by simp) (by simp [Literal.names])
      (by simp [Literal.not])
  · apply Expression.mem_names_and isFalse_iffOr (List.mem_append_right _ List.mem_cons_self)
      (simplified_orLiterals _)
    exact Expression.mem_names_orLiterals (l := .notVar v) (by simp) (by simp [Literal.names])
      (by simpa using htrue)

theorem simplified_iffAnd : (iffAnd v args).Simplified := by
  apply Expression.simplified_and
  simp [or_imp, forall_and, simplified_orLiterals]

theorem simplified_iffOr : (iffOr v args).Simplified := by
  apply Expression.simplified_and
  simp [or_imp, forall_and, simplified_orLiterals]

theorem mem_names_literal {l : Literal} : v ∈ (Expression.literal l).names ↔ v ∈ l.names := by
  simp [Expression.names, Expression.literal, Expression.args, Clause.names, Clause.args]

/-- A definition mentions the variable it defines. -/
theorem yields_iff (e : Expression) : Yields (iff v e) s fun r s' => Mentions s s' [r] := by
  have hreturn : ∀ (node : Node) (r : Expression), r.Simplified → node.var ∈ r.names →
      Yields (addNode node >>= fun _ => pure r) s fun r s' => Mentions s s' [r] := by
    intro node r hr hvar
    refine (yields_addNode node).bind ?_
    rintro _ _ rfl
    exact Yields.of_pure (Mentions.of_node hr hvar)
  cases e with
  | conj cs =>
      refine (Yields.of_lift (Q := fun _ t => t = s) fun _ _ => rfl).bind ?_
      rintro args _ rfl
      exact hreturn _ _ simplified_iffAnd mem_names_iffAnd
  | clause c =>
      obtain ⟨clause, isImportant⟩ := c
      cases clause with
      | disj args => exact hreturn _ _ simplified_iffOr mem_names_iffOr
      | literal l =>
          cases l with
          | notVar name => exact Yields.of_failure
          | constTrue => exact hreturn _ _ trivial (mem_names_literal.mpr List.mem_cons_self)
          | constFalse => exact hreturn _ _ trivial (mem_names_literal.mpr List.mem_cons_self)
          | var name =>
              apply hreturn
              · exact Expression.simplified_and (by simp [simplified_orLiterals])
              · apply Expression.mem_names_and (by simp) List.mem_cons_self
                  (simplified_orLiterals _)
                exact Expression.mem_names_orLiterals List.mem_cons_self List.mem_cons_self
                  (by simp)

/-- The first row of a counter. -/
theorem yields_greaterOrEqualHead (w : Nat → Nat) (c : Nat → Nat → Nat) (k : Nat) :
    Yields (greaterOrEqualHead w c k) s fun r s' => Mentions s s' [r] := by
  refine (yields_mapM_mentions fun it _ t => ?_).bind fun headNots s₁ hnots => ?_
  · refine (yields_addNode _).bind ?_
    rintro _ _ rfl
    exact Yields.of_pure (Mentions.of_node trivial (mem_names_literal.mpr List.mem_cons_self))
  · refine (yields_addNode _).bind ?_
    rintro _ _ rfl
    have hfirst : Mentions s₁ { s₁ with nodes := s₁.nodes ++ [.andIff (c 0 0) [.notVar (w 0)]] }
        [orLiterals [.var (w 0), .var (c 0 0)]] :=
      Mentions.of_node (simplified_orLiterals _) (Expression.mem_names_orLiterals
        (l := .var (c 0 0)) (by simp) List.mem_cons_self (by simp))
    have hswapped := (hnots.and.append hfirst).perm (List.Perm.swap _ _ _)
    exact Yields.of_pure (hswapped.and.markArgs false)

/-- A further row of a counter. -/
theorem yields_greaterOrEqualMiddle (w : Nat → Nat) (c : Nat → Nat → Nat) (k i : Nat) :
    Yields (greaterOrEqualMiddle w c k i) s fun r s' => Mentions s s' [r] := by
  refine (yields_addNode _).bind ?_
  rintro _ _ rfl
  have hfirst : Mentions s { s with nodes :=
      s.nodes ++ [.orIff (c i 0) [.notVar (w i), .var (c (i - 1) 0)]] }
      [and [orLiterals [.var (w i), .var (c i 0)],
        orLiterals [.notVar (c (i - 1) 0), .var (c i 0)]]] := by
    apply Mentions.of_node (Expression.simplified_and (by simp [simplified_orLiterals]))
    apply Expression.mem_names_and (by simp) List.mem_cons_self (simplified_orLiterals _)
    exact Expression.mem_names_orLiterals (l := .var (c i 0)) (by simp) List.mem_cons_self (by simp)
  refine (yields_mapM_mentions fun j _ t => ?_).bind fun second s₂ hsecond => ?_
  · refine (yields_addNode _).bind ?_
    rintro _ _ rfl
    apply Yields.of_pure
    apply Mentions.of_node (Expression.simplified_and (by simp [simplified_orLiterals]))
    apply Expression.mem_names_and (by simp) List.mem_cons_self (simplified_orLiterals _)
    exact Expression.mem_names_orLiterals (l := .var (c i j)) (by simp) List.mem_cons_self (by simp)
  · have hthird : Mentions s₂ s₂ [orLiterals [.var (w i), .notVar (c (i - 1) (k - 1))]] :=
      Mentions.of_silent rfl (by simp [simplified_orLiterals])
    exact Yields.of_pure
      ((hfirst.markArgs false).append ((hsecond.and.markArgs false).append hthird)).and

theorem yields_greaterOrEqual (vars : List Nat) (k : Nat) :
    Yields (greaterOrEqual vars k) s fun r s' => Mentions s s' [r.expr] := by
  refine (yields_newVariableRows _ _).bind fun svars s₁ hs₁ => ?_
  by_cases hk : k = 0
  · rw [if_pos hk]
    apply Yields.of_pure
    apply Mentions.of_silent hs₁
    simp only [List.mem_singleton, forall_eq]
    apply Expression.simplified_and
    simp [Expression.literal, Expression.Simplified]
  · rw [if_neg hk]
    refine (Yields.of_guard (Q := fun _ t => t = s₁) fun _ => rfl).bind ?_
    rintro _ _ rfl
    refine (yields_greaterOrEqualHead _ _ _).bind fun head s₂ hhead => ?_
    refine (yields_mapM_mentions fun i _ t => yields_greaterOrEqualMiddle _ _ _ i).bind
      fun middle s₃ hmiddle => ?_
    apply Yields.of_pure
    have htail : Mentions s₃ s₃ [orLiterals [.var (vars.getD (vars.length - 1) 0),
        .notVar ((svars.getD (vars.length - 2) []).getD (k - 1) 0)]] :=
      Mentions.of_silent rfl (by simp [simplified_orLiterals])
    exact ((hhead.append (hmiddle.and.append htail)).and).congr hs₁

theorem simplified_fullyOrthogonalSquare (a b : Matrix) :
    (fullyOrthogonalSquare a b).Simplified := by
  apply Expression.simplified_and
  intro e he
  simp only [List.mem_flatMap, List.mem_map] at he
  obtain ⟨_, -, _, -, _, -, _, -, _, -, _, -, rfl⟩ := he
  exact simplified_orLiterals _

section OrthogonalBy

variable {mark : Expression → Expression}
variable (hmark : ∀ s s' e, Mentions s s' [e] → Mentions s s' [mark e])
include hmark

theorem yields_symbolPair (equalExprs : List Expression) (q chi : Nat) :
    Yields (symbolPair mark equalExprs q chi) s fun r s' => Mentions s s' [r] := by
  refine (yields_newVariables _).bind fun equalVars s₁ hs₁ => ?_
  refine (yields_mapM_mentions fun p _ t => yields_iff _).bind fun phis s₂ hphis => ?_
  refine (yields_iff _).bind fun chiExpr s₃ hchi => ?_
  have haddend : ∀ addend : Expression, addend.Simplified → Mentions s s₃
      [and [mark (and (phis ++ [and [chiExpr]])), addend]] := by
    intro addend haddend
    have hmarked := hmark _ _ _ (hphis.append hchi.and).and
    exact ((hmarked.append (Mentions.of_silent rfl (by simpa using haddend))).and).congr hs₁
  apply Yields.of_pure
  apply haddend
  split
  · apply Expression.simplified_and
    intro e he
    simp only [List.mem_flatMap, List.mem_map] at he
    obtain ⟨_, -, _, -, rfl⟩ := he
    exact simplified_orLiterals _
  · exact Expression.simplified_and (by simp)

theorem yields_orthogonalBy (order : Nat → List Nat → List Nat)
    (equalExprs : Nat → Nat → Option (List Expression)) (n q : Nat) :
    Yields (orthogonalBy order mark equalExprs n q) s fun r s' => Mentions s s' [r.expr] := by
  refine (yields_newVariableRows n n).bind fun chis s₁ hs₁ => ?_
  refine (yields_mapM_mentions fun aN _ t => ?_).bind fun pairwise s₂ hpairwise => ?_
  · refine (yields_mapM_mentions fun bN _ t => ?_).bind fun row t' hrow => ?_
    · refine (Yields.of_lift (Q := fun _ t' => t' = t) fun _ _ => rfl).bind ?_
      rintro exprs _ rfl
      exact yields_symbolPair hmark _ _ _
    · exact Yields.of_pure hrow.and
  · refine (Yields.of_guard (Q := fun _ t => t = s₂) fun _ => rfl).bind ?_
    rintro _ t rfl
    refine (Yields.of_ensures (Ensures.of_get (Q := fun _ u => u = t) rfl)).bind ?_
    rintro _ _ rfl
    refine (yields_greaterOrEqual _ _).bind fun greater s₃ hgreater => ?_
    exact Yields.of_pure ((hpairwise.and.append hgreater).and.congr hs₁)

end OrthogonalBy

theorem yields_orthogonal (order : Order) (a b : List (List Literal)) (q : Nat) :
    Yields (orthogonal order a b q) s fun r s' => Mentions s s' [r.expr] :=
  yields_orthogonalBy (fun _ _ _ h => h.markArgs false) _ _ _ _

theorem yields_orthogonalSquare (order : Order) (a b : Matrix) (q : Nat) :
    Yields (orthogonalSquare order a b q) s fun r s' => Mentions s s' [r.expr] := by
  unfold orthogonalSquare
  split
  · exact yields_orthogonal _ _ _ _
  · exact Yields.of_pure (Mentions.of_silent rfl (by simp [simplified_fullyOrthogonalSquare]))

theorem yields_orthogonalLogSquare (a b : Matrix) (q : Nat) :
    Yields (orthogonalLogSquare a b q) s fun r s' => Mentions s s' [r.expr] := by
  unfold orthogonalLogSquare
  split
  · exact yields_orthogonalBy (fun _ _ _ h => h) _ _ _ _
  · exact Yields.of_pure (Mentions.of_silent rfl (by simp [simplified_fullyOrthogonalSquare]))

theorem yields_breakingSymmetry (vars : List (List Literal)) (firstIndex : Nat) (cycle : Int) :
    Yields (breakingSymmetry vars firstIndex cycle) s fun r s' => Mentions s s' [r] := by
  refine (Yields.of_lift (Q := fun _ t => t = s) fun _ _ => rfl).bind ?_
  rintro cycles _ rfl
  refine (yields_newVariables cycles).bind fun vs s₁ hs₁ => ?_
  refine (yields_mapM_mentions fun p _ t => yields_iff _).bind fun phis s₂ hphis => ?_
  have hfixed : Yields (fixedCycle vs cycle) s₂ fun fixed t => Mentions s₂ t [fixed] := by
    unfold fixedCycle
    split
    · exact Yields.of_pure
        (Mentions.of_silent rfl (by simp [Expression.Simplified, Expression.literal]))
    · split
      · exact Yields.of_failure
      · refine (Yields.of_lift (Q := fun _ t => t = s₂) fun _ _ => rfl).bind ?_
        rintro v _ rfl
        exact Yields.of_pure
          (Mentions.of_silent rfl (by simp [Expression.Simplified, Expression.literal]))
  refine hfixed.bind fun fixed s₃ hfixed => ?_
  have hchoice : Mentions s₂ s₂ [orLiterals (vs.map .var)] :=
    Mentions.of_silent rfl (by simp [simplified_orLiterals])
  exact Yields.of_pure (((hphis.and.append hchoice).and.append hfixed).and.congr hs₁)

end Blocks

/-- Unless it is `False`, an expression mentions the given variables. -/
structure Expression.Covers (names : List Nat) (e : Expression) : Prop where
  simplified : e.Simplified
  names : e.isFalse = false → ∀ name ∈ names, name ∈ e.names

section Cells

variable {es : List Expression} {e : Expression} {name v : Nat} {names : List Nat}
variable {ls args : List Literal} {l : Literal} {vars : List (List Literal)} {isImportant : Bool}
variable {s : GenState}

theorem isFalse_of_mem (hfalse : (and es).isFalse = false) (he : e ∈ es) : e.isFalse = false := by
  rw [Expression.isFalse_and, List.any_eq_false] at hfalse
  exact Bool.not_eq_true _ |>.mp (hfalse e he)

theorem covers_and_map {α : Type} {xs : List α} {f : α → Expression} {N : α → List Nat}
    (h : ∀ x ∈ xs, (f x).Covers (N x)) : (and (xs.map f)).Covers (xs.flatMap N) where
  simplified := Expression.simplified_and (List.forall_mem_map.mpr fun x hx => (h x hx).simplified)
  names hfalse name hname := by
    obtain ⟨x, hx, hname⟩ := List.mem_flatMap.mp hname
    have hmem := List.mem_map_of_mem (f := f) hx
    exact Expression.mem_names_and hfalse hmem (h x hx).simplified
      ((h x hx).names (isFalse_of_mem hfalse hmem) name hname)

theorem simplified_codeAtLeastOne : (codeAtLeastOne ls isImportant).Simplified :=
  Expression.simplified_mark _ (simplified_orLiterals _)

theorem simplified_codeDistinct : (codeDistinct ls isImportant).Simplified := by
  apply Expression.simplified_markArgs
  apply Expression.simplified_and
  intro e he
  obtain ⟨i, -, he⟩ := List.mem_flatMap.mp he
  obtain ⟨j, -, rfl⟩ := List.mem_map.mp he
  exact simplified_orLiterals _

theorem simplified_cell :
    (and [codeAtLeastOne ls isImportant, codeDistinct ls isImportant]).Simplified :=
  Expression.simplified_and (by simp [simplified_codeAtLeastOne, simplified_codeDistinct])

theorem simplified_codeSufficient : (codeSufficient vars isImportant).Simplified := by
  apply Expression.simplified_and
  intro e he
  obtain ⟨ls, -, rfl⟩ := List.mem_map.mp he
  exact simplified_cell

/-- Two literals of a cell exclude each other. -/
theorem mem_names_codeDistinct (hfalse : (codeDistinct ls isImportant).isFalse = false) {i j : Nat}
    (hij : i ≠ j) (hi : i < ls.length) (hj : j < ls.length) (hl : ls[i] = .constTrue)
    (hname : name ∈ ls[j].names) : name ∈ (codeDistinct ls isImportant).names := by
  have hpair : ∀ a b, a < b → (hb : b < ls.length) → (ha : a < ls.length) →
      name ∈ ls[a].names ++ ls[b].names → ls[a] ≠ .constFalse → ls[b] ≠ .constFalse →
      name ∈ (codeDistinct ls isImportant).names := by
    intro a b hab hb ha hname hafalse hbfalse
    have hnot : ∀ l : Literal, l.not = .constTrue → l = .constFalse := by
      intro l
      cases l <;> simp [Literal.not]
    rw [codeDistinct, Expression.isFalse_markArgs] at hfalse
    rw [codeDistinct, Expression.names_markArgs]
    apply Expression.mem_names_and hfalse (e := orLiterals [ls[a].not, ls[b].not])
    · refine List.mem_flatMap.mpr ⟨a, List.mem_range.mpr ha, List.mem_map.mpr ⟨b, ?_, ?_⟩⟩
      · rw [rangeUntil, List.mem_range'_1]
        omega
      · rw [List.getD_eq_getElem _ _ ha, List.getD_eq_getElem _ _ hb]
    · exact simplified_orLiterals _
    · have htrue : Literal.constTrue ∉ [ls[a].not, ls[b].not] := by
        intro hmem
        obtain heq | heq := List.mem_pair.mp hmem
        · exact hafalse (hnot _ heq.symm)
        · exact hbfalse (hnot _ heq.symm)
      cases List.mem_append.mp hname with
      | inl hname =>
          exact Expression.mem_names_orLiterals List.mem_cons_self
            (by rwa [Literal.names_not]) htrue
      | inr hname =>
          exact Expression.mem_names_orLiterals (List.mem_cons_of_mem _ List.mem_cons_self)
            (by rwa [Literal.names_not]) htrue
  have hjfalse : ls[j] ≠ .constFalse := by
    intro heq
    rw [heq] at hname
    cases hname
  cases Nat.lt_or_gt_of_ne hij with
  | inl hlt => exact hpair i j hlt hj hi (List.mem_append_right _ hname) (by simp [hl]) hjfalse
  | inr hgt => exact hpair j i hgt hi hj (List.mem_append_left _ hname) hjfalse (by simp [hl])

/-- Cells mention their variables. -/
theorem codeSufficient_covers :
    (codeSufficient vars isImportant).Covers (vars.flatten.flatMap Literal.names) := by
  refine ⟨simplified_codeSufficient, fun hfalse name hname => ?_⟩
  obtain ⟨l, hl, hname⟩ := List.mem_flatMap.mp hname
  obtain ⟨ls, hls, hl⟩ := List.mem_flatten.mp hl
  have hmem := List.mem_map_of_mem (f := fun it : List Literal =>
    and [codeAtLeastOne it isImportant, codeDistinct it isImportant]) hls
  have hcell := isFalse_of_mem hfalse hmem
  apply Expression.mem_names_and hfalse hmem simplified_cell
  by_cases htrue : .constTrue ∈ ls
  · obtain ⟨i, hi, hitrue⟩ := List.getElem_of_mem htrue
    obtain ⟨j, hj, rfl⟩ := List.getElem_of_mem hl
    have hij : i ≠ j := by
      rintro rfl
      rw [hitrue] at hname
      cases hname
    have hmem := List.mem_cons_of_mem (codeAtLeastOne ls isImportant)
      (List.mem_cons_self (a := codeDistinct ls isImportant) (l := []))
    apply Expression.mem_names_and hcell hmem simplified_codeDistinct
    exact mem_names_codeDistinct (isFalse_of_mem hcell hmem) hij hi hj hitrue hname
  · apply Expression.mem_names_and hcell List.mem_cons_self simplified_codeAtLeastOne
    rw [codeAtLeastOne, Expression.names_mark]
    exact Expression.mem_names_orLiterals hl hname htrue

theorem simplified_codeLine : (codeLine vars).Simplified :=
  Expression.simplified_and (by simp [simplified_codeSufficient])

theorem simplified_latin (square : Matrix) : (latin square).Simplified := by
  apply Expression.simplified_and
  intro e he
  obtain he | he := List.mem_append.mp he
  · obtain ⟨row, -, rfl⟩ := List.mem_map.mp he
    exact simplified_codeLine
  · obtain ⟨column, -, rfl⟩ := List.mem_map.mp he
    exact simplified_codeSufficient

theorem simplified_logLatin (square : Matrix) : (logLatin square).Simplified := by
  apply Expression.simplified_and
  intro e he
  obtain he | he := List.mem_append.mp he
  · obtain ⟨row, -, rfl⟩ := List.mem_map.mp he
    exact simplified_codeSufficient
  · obtain ⟨column, -, rfl⟩ := List.mem_map.mp he
    exact simplified_codeSufficient

/-- A square mentions the variables of its cells. -/
theorem latin_covers (square : Matrix) :
    (latin square).Covers (square.flatten.flatten.flatMap Literal.names) := by
  refine ⟨simplified_latin square, fun hfalse name hname => ?_⟩
  obtain ⟨l, hl, hname⟩ := List.mem_flatMap.mp hname
  obtain ⟨ls, hls, hl⟩ := List.mem_flatten.mp hl
  obtain ⟨row, hrow, hls⟩ := List.mem_flatten.mp hls
  have hmem := List.mem_append_left ((transpose square).map fun matrix =>
    codeSufficient (transpose matrix)) (List.mem_map_of_mem (f := codeLine) hrow)
  have hline := isFalse_of_mem hfalse hmem
  apply Expression.mem_names_and hfalse hmem simplified_codeLine
  apply Expression.mem_names_and hline List.mem_cons_self simplified_codeSufficient
  exact codeSufficient_covers.names (isFalse_of_mem hline List.mem_cons_self) name
    (List.mem_flatMap.mpr ⟨l, List.mem_flatten.mpr ⟨ls, hls, hl⟩, hname⟩)

end Cells

end LatinSquares.Generator
