/-
# One weight for every clause

The weights are counted before the formula is put together, from the arguments of its parts. The
parts lose arguments on the way, but they gain none, so a file of the one-hot encoder never has
fewer weights than clauses. The object `True` in place of a missing symmetry breaking counts as
one argument, so then there is a weight to spare. `propagate` drops the weights.
-/

import LatinSquares.Generator.Assembly
import LatinSquares.Generator.Numbering
import LatinSquares.Generator.Propagation

namespace LatinSquares.Generator

open LatinSquares.Math
open Expression (and)

namespace Expression

variable {e e' : Expression} {es : List Expression}

theorem args_and_ne_nil (es : List Expression) : (and es).args ≠ [] := by
  obtain heq | heq | ⟨-, hne, heq⟩ := and_cases es
  · rw [heq]
    exact List.cons_ne_nil _ _
  · rw [heq]
    exact List.cons_ne_nil _ _
  · rw [heq]
    exact hne

/-- An argument of `and` contributes at most its own arguments. -/
theorem length_conjuncts_le (h : e.args ≠ []) : e.conjuncts.length ≤ e.args.length := by
  have hpos : 0 < e.args.length := List.length_pos_iff.mpr h
  cases e with
  | clause c =>
      rw [conjuncts]
      split
      · exact Nat.zero_le 1
      · exact le_rfl
  | conj cs =>
      rw [conjuncts, andArgs]
      split
      · exact hpos
      · split
        · exact hpos
        · exact List.length_filter_le _ _

/-- A conjunction of two has at most the arguments of both that are left. -/
theorem length_args_and_pair_le (h : e.args ≠ []) :
    (and [e, e']).args.length ≤ e.args.length + e'.conjuncts.length := by
  have hpos : 0 < e.args.length := List.length_pos_iff.mpr h
  obtain heq | heq | ⟨-, -, heq⟩ := and_cases [e, e']
  · rw [heq]
    exact hpos.trans_le (Nat.le_add_right _ _)
  · rw [heq]
    exact hpos.trans_le (Nat.le_add_right _ _)
  · have hconjuncts := length_conjuncts_le h
    rw [heq]
    simpa [args] using hconjuncts

end Expression

theorem length_distinct_le (cs : List Conjunct) : (distinct cs).length ≤ cs.length := by
  induction cs with
  | nil => exact le_rfl
  | cons c cs ih => exact Nat.succ_le_succ ((List.length_filter_le _ _).trans ih)

theorem distinct_ne_nil {cs : List Conjunct} (h : cs ≠ []) : distinct cs ≠ [] := by
  obtain ⟨c, cs, rfl⟩ := List.exists_cons_of_ne_nil h
  exact List.cons_ne_nil _ _

namespace LatinSquareEncoder

variable {e : LatinSquareEncoder} {s : GenState}

/-- The symmetry breaking is a conjunction; without one it is the object `True`. -/
theorem yields_symmetry_args (core : List Matrix) : Yields (e.symmetry core) s fun breaking _ =>
    breaking.args ≠ [] ∧ ((e.reduced = false ∨ e.breakingSymmetryType = .none) →
      breaking = .constTrue) := by
  have hbreak : ∀ (t i first : Nat) (cycle : Int), Yields (do
      let square ← liftM core[t]?
      let row ← liftM square[i]?
      breakingSymmetry row first cycle) s fun breaking _ => breaking.args ≠ [] := by
    intro t i first cycle
    refine Yields.bind_right fun square _ => Yields.bind_right fun row _ => ?_
    refine Yields.bind_right fun cycles _ => Yields.bind_right fun vs _ => ?_
    refine Yields.bind_right fun phis _ => Yields.bind_right fun fixed _ => ?_
    exact Yields.of_pure (Expression.args_and_ne_nil _)
  have hnone : Yields (pure (and [])) s fun breaking _ => breaking.args ≠ [] ∧
      ((e.reduced = false ∨ e.breakingSymmetryType = .none) → breaking = .constTrue) :=
    Yields.of_pure ⟨Expression.args_and_ne_nil _, fun _ => rfl⟩
  unfold symmetry
  split
  · next hreduced =>
      have hnot : e.reduced ≠ false := by
        rw [hreduced]
        exact Bool.noConfusion
      split
      · next htype =>
          refine (hbreak _ _ _ _).mono fun breaking _ h => ⟨h, fun hor => ?_⟩
          rcases hor with hor | hor
          · exact absurd hor hnot
          · rw [htype] at hor
            cases hor
      · next htype =>
          refine (hbreak _ _ _ _).mono fun breaking _ h => ⟨h, fun hor => ?_⟩
          rcases hor with hor | hor
          · exact absurd hor hnot
          · rw [htype] at hor
            cases hor
      · exact hnone
  · exact hnone

/-- The formula has at most the arguments that the weights are counted from. -/
theorem length_andArgs_le {lines breaking ortho : Expression} {args : List Conjunct}
    (hlines : lines.args ≠ []) (hbreaking : breaking.args ≠ [])
    (hortho : ortho.args ≠ []) (hargs : (and [and [lines, breaking], ortho]).andArgs? = some args) :
    (distinct args).length ≤ lines.args.length + breaking.args.length + ortho.args.length ∧
      (breaking = .constTrue →
        (distinct args).length < lines.args.length + breaking.args.length + ortho.args.length) := by
  have hdistinct : (distinct args).length ≤ (and [and [lines, breaking], ortho]).args.length := by
    cases hformula : and [and [lines, breaking], ortho] with
    | clause c =>
        rw [hformula] at hargs
        cases hargs
    | conj cs =>
        rw [hformula] at hargs
        obtain rfl := Option.some.inj hargs
        exact length_distinct_le cs
  have hinner :
      (and [lines, breaking]).args.length ≤ lines.args.length + breaking.conjuncts.length :=
    Expression.length_args_and_pair_le hlines
  have houter : (and [and [lines, breaking], ortho]).args.length ≤
      (and [lines, breaking]).args.length + ortho.conjuncts.length :=
    Expression.length_args_and_pair_le (Expression.args_and_ne_nil [lines, breaking])
  have hlast := Expression.length_conjuncts_le hortho
  refine ⟨?_, fun htrue => ?_⟩
  · have hmiddle := Expression.length_conjuncts_le hbreaking
    omega
  · subst htrue
    have hnone : Expression.constTrue.conjuncts.length = 0 := rfl
    have hone : Expression.constTrue.args.length = 1 := rfl
    omega

theorem yields_length_clauses (order : Order) : Yields (e.program order) s fun f _ =>
    f.clauses.length ≤ f.weights.length ∧
      (e.reduced = false ∨ e.breakingSymmetryType = .none →
        f.clauses.length < f.weights.length) := by
  refine Yields.bind_right fun core _ => Yields.bind_right fun _ _ => ?_
  refine (yields_symmetry_args core).bind fun breaking _ hbreaking => ?_
  refine Yields.bind_right fun ortho _ => Yields.bind_right fun _ s => ?_
  refine (Yields.of_lift (Q := fun args _ => (and [and [and (core.map latin), breaking],
    and (ortho.map VariabledExpression.expr)]).andArgs? = some args) fun args hargs => hargs).bind
      fun args _ hargs => ?_
  refine Yields.bind_right fun _ _ => Yields.of_pure ?_
  have hlength := length_andArgs_le (Expression.args_and_ne_nil _) hbreaking.1
    (Expression.args_and_ne_nil _) hargs
  have hweights : ∀ a b c w : Nat,
      (List.replicate a w ++ List.replicate b 1 ++ List.replicate c 1).length = a + b + c := by
    intro a b c w
    simp [add_assoc]
  dsimp only [CNF.ofAnd]
  rw [hweights]
  exact ⟨hlength.1, fun h => hlength.2 (hbreaking.2 h)⟩

/-- The solver finds a weight for every clause of a file, and none if a previous result has been
propagated into it. -/
theorem weights_cover_clauses (order : Order) (e : LatinSquareEncoder) {f : CNF}
    (hf : e.cnf order = some f) :
    f.clauses.length ≤ f.weights.length ∧
    (e.reduced = false ∨ e.breakingSymmetryType = .none → f.clauses.length < f.weights.length) ∧
    ∀ units, (f.propagate units).weights = [] ∧ (f.propagate units).clauses ≠ [] := by
  obtain ⟨s, hle, hlt⟩ := of_run' (yields_length_clauses order) hf
  refine ⟨hle, hlt, fun units => ⟨rfl, ?_⟩⟩
  exact distinct_ne_nil (Expression.args_and_ne_nil _)

theorem weights_cover_clauses_two :
    ∃ f, (⟨false, true, .none, -1, 2, 2, 3⟩ : LatinSquareEncoder).cnf Order.identity = some f ∧
      f.clauses.length < f.weights.length := by
  have hsome : ((⟨false, true, .none, -1, 2, 2, 3⟩ : LatinSquareEncoder).cnf
      Order.identity).isSome = true := by
    decide +kernel
  obtain ⟨f, hf⟩ := Option.isSome_iff_exists.mp hsome
  exact ⟨f, hf, (weights_cover_clauses _ _ hf).2.1 (Or.inl rfl)⟩

end LatinSquareEncoder

end LatinSquares.Generator
