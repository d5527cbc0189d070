/-
# The incremental search

`main` of `incremental.cpp` adds the incremental expressions of a file one after the other and
writes the model of every step to a file of its own, until the solver finds none. The solver is
the one of a library: a parameter, which may answer every call differently. With a solver whose
answers are right, the files of a run decode to Latin squares with rising numbers of pairs, and
the run ends where there are no such squares any more.
-/

import Mathlib.Data.List.Sections
import LatinSquares.Generator.Tightenings
import LatinSquares.Generator.Weights
import LatinSquares.Incremental.Parsing

namespace LatinSquares.Incremental

open LatinSquares.Math
open LatinSquares.Generator (CNF Clause Conjunct EncodeOptions Encoding Expression
  LatinSquareEncoder Literal Order Written decode encode incrementalBound joinToString
  joinToString_blank modelWords newline_not_mem_joinToString newline_not_mem_numeral shownSquares)

/-- `lbool`. -/
inductive LBool where
  | lTrue
  | lFalse
  | lUndef
  deriving DecidableEq, Repr

/-- The solver of the library: the result of `solve()` and `get_model()` after it, for the number
of the call, the number of variables and the clauses added so far. -/
abbrev SATSolver := Nat → Nat → List (List Lit) → LBool × List LBool

/-- One of the files with a result. -/
def resultText (model : List LBool) : List Char :=
  "s SATISFIABLE".toList ++ '\n' :: ("v ".toList ++ model.zipIdx.flatMap fun p =>
    signedNumeral (decide (p.1 = .lTrue)) (p.2 + 1) ++ [' '])

/-- The loop over the incremental expressions, from the `i`-th on: the files it writes. -/
def tighten (solver : SATSolver) (vars : Nat) :
    Nat → List (List Lit) → List (List (List Lit)) → List (List Char)
  | _, _, [] => []
  | i, clauses, exprs :: additionalClauses =>
      let clauses := clauses ++ exprs
      let (ret, model) := solver (i + 1) vars clauses
      if ret = .lTrue then
        resultText model :: tighten solver vars (i + 1) clauses additionalClauses
      else []

/-- `main`: the texts of the files `outputfile_0`, `outputfile_1` and so on. The result of the
first call of `solve`, before the loop, is not used. -/
def run (solver : SATSolver) (text : List Char) : Option (List (List Char)) := do
  let (literalCount, mainClauses) ← parseClauses text
  guard (0 ≤ literalCount)
  return tighten solver literalCount.toNat 0 mainClauses (parseLiterals text)

/-- Whether a literal of the solver holds. -/
def Lit.eval (α : Nat → Bool) (l : Lit) : Bool := α l.var ^^ l.sign

/-- An assignment satisfies all clauses. -/
def Satisfies (α : Nat → Bool) (clauses : List (List Lit)) : Prop :=
  ∀ clause ∈ clauses, clause.any (Lit.eval α) = true

/-- The answers of the solver are right, and it does not give up. -/
structure SATSolver.Correct (solver : SATSolver) : Prop where
  length : ∀ call vars clauses, (solver call vars clauses).1 = .lTrue →
    (solver call vars clauses).2.length = vars
  model : ∀ call vars clauses, (∀ clause ∈ clauses, ∀ l ∈ clause, l.var < vars) →
    (solver call vars clauses).1 = .lTrue →
      Satisfies (fun v => (solver call vars clauses).2[v]? == some .lTrue) clauses
  unsat : ∀ call vars clauses, (∀ clause ∈ clauses, ∀ l ∈ clause, l.var < vars) →
    (solver call vars clauses).1 ≠ .lTrue → ¬ ∃ α, Satisfies α clauses

section Literals

variable {α : Nat → Bool} {c : Nat} {l : Literal} {f : CNF}

/-- The solver counts its variables from zero on. -/
theorem eval_lit (h : l.Proper c) : (Lit.of l).eval (fun v => α (v + 1)) = l.eval α := by
  cases l with
  | constFalse => exact absurd h Generator.Literal.not_proper_constFalse
  | constTrue => exact absurd h Generator.Literal.not_proper_constTrue
  | var name =>
      have hname := Nat.sub_add_cancel (Generator.Literal.proper_var.mp h).1
      simp [Lit.of, Lit.eval, Literal.number, hname]
  | notVar name =>
      have hname := Nat.sub_add_cancel (Generator.Literal.proper_notVar.mp h).1
      simp [Lit.of, Lit.eval, Literal.number, hname]

theorem var_lit_lt (h : l.Proper c) : (Lit.of l).var < c := by
  cases l with
  | constFalse => exact absurd h Generator.Literal.not_proper_constFalse
  | constTrue => exact absurd h Generator.Literal.not_proper_constTrue
  | var name =>
      obtain ⟨hpos, hle⟩ := Generator.Literal.proper_var.mp h
      change name - 1 < c
      omega
  | notVar name =>
      obtain ⟨hpos, hle⟩ := Generator.Literal.proper_notVar.mp h
      change name - 1 < c
      omega

theorem any_litsOf {cl : Clause} (h : cl.Proper c) :
    (litsOf cl).any (Lit.eval fun v => α (v + 1)) = cl.eval α := by
  rw [litsOf, List.any_map, Clause.eval, Bool.eq_iff_iff, List.any_eq_true, List.any_eq_true]
  refine exists_congr fun l => and_congr_right fun hl => ?_
  rw [Function.comp_apply, eval_lit (h.literals l hl)]

/-- The clauses that the solver has after `t` incremental expressions. -/
def clausesAfter (f : CNF) (t : Nat) : List (List Lit) :=
  f.clauses.map (fun cj => litsOf cj.clause) ++ (f.incremental.take t).flatMap exprOf

theorem clausesAfter_succ {t : Nat} (ht : t < f.incremental.length) :
    clausesAfter f (t + 1) = clausesAfter f t ++ exprOf f.incremental[t] := by
  rw [clausesAfter, clausesAfter, List.take_succ_eq_append_getElem ht, List.flatMap_append,
    List.flatMap_singleton, List.append_assoc]

/-- The arguments of an incremental expression are over the variables of the formula. -/
theorem proper_args {x : Expression} (h : x.IsTightening ∧ x.Proper c) :
    x = .conj x.args ∧ ∀ cj ∈ x.args, cj.clause.Proper c := by
  obtain ⟨⟨last, it, rfl | ⟨before, rfl⟩⟩, hproper⟩ := h
  · exact ⟨rfl, hproper.2⟩
  · exact ⟨rfl, hproper.2⟩

variable {t : Nat}

theorem forall_clausesAfter {P : List Lit → Prop} : (∀ clause ∈ clausesAfter f t, P clause) ↔
    (∀ cj ∈ f.clauses, P (litsOf cj.clause)) ∧
      ∀ x ∈ f.incremental.take t, ∀ cj ∈ x.args, P (litsOf cj.clause) := by
  rw [clausesAfter, List.forall_mem_append, List.forall_mem_map]
  refine and_congr_right fun _ => ?_
  constructor
  · intro h x hx cj hcj
    exact h _ (List.mem_flatMap.mpr ⟨x, hx, List.mem_map_of_mem hcj⟩)
  · intro h clause hclause
    obtain ⟨x, hx, hclause⟩ := List.mem_flatMap.mp hclause
    obtain ⟨cj, hcj, rfl⟩ := List.mem_map.mp hclause
    exact h x hx cj hcj

/-- All literals are those of variables the solver knows. -/
theorem var_lt_of_mem_clausesAfter (h : f.InScope) :
    ∀ clause ∈ clausesAfter f t, ∀ l ∈ clause, l.var < f.variables_.length := by
  have hlits : ∀ {cl : Clause}, cl.Proper f.variables_.length →
      ∀ l ∈ litsOf cl, l.var < f.variables_.length := by
    intro cl hcl lit hlit
    obtain ⟨l, hl, rfl⟩ := List.mem_map.mp hlit
    exact var_lit_lt (hcl.literals l hl)
  refine forall_clausesAfter.mpr ⟨fun cj hcj => hlits (h.clauses cj hcj), fun x hx cj hcj => ?_⟩
  exact hlits ((proper_args (h.incremental x (List.mem_of_mem_take hx))).2 cj hcj)

/-- The solver looks for models of the formula with its first `t` incremental expressions. -/
theorem satisfies_clausesAfter (h : f.InScope) :
    Satisfies (fun v => α (v + 1)) (clausesAfter f t) ↔
      f.Holds α ∧ ∀ x ∈ f.incremental.take t, x.eval α = true := by
  rw [Satisfies, forall_clausesAfter]
  refine and_congr (forall₂_congr fun cj hcj => ?_) (forall₂_congr fun x hx => ?_)
  · rw [any_litsOf (h.clauses cj hcj)]
  · obtain ⟨hconj, hproper⟩ := proper_args (h.incremental x (List.mem_of_mem_take hx))
    rw [hconj, Expression.eval, List.all_eq_true]
    exact forall₂_congr fun cj hcj => by rw [any_litsOf (hproper cj hcj)]

end Literals

section Files

variable {model : List LBool}

/-- The assignment of a model to the variables of a formula. -/
def assignmentOf (model : List LBool) : Nat → Bool := fun v => model[v - 1]? == some .lTrue

/-- A result is the model in words, and a blank behind each of them. -/
theorem resultText_eq (model : List LBool) : resultText model = "s SATISFIABLE".toList ++
    '\n' :: ('v' :: ' ' :: unwords (modelWords (assignmentOf model) model.length ++ [[]])) := by
  have hwords : modelWords (assignmentOf model) model.length =
      model.zipIdx.map fun p => signedNumeral (decide (p.1 = .lTrue)) (p.2 + 1) := by
    refine List.ext_getElem (by simp [modelWords]) fun i hi hi' => ?_
    have hlt : i < model.length := by simpa [modelWords] using hi
    simp [modelWords, assignmentOf, hlt, add_comm 1 i, Bool.beq_eq_decide_eq]
  rw [unwords_concat_nil, hwords, List.flatMap_map]
  rfl

theorem written_resultText (model : List LBool) :
    Written (modelWords (assignmentOf model) model.length ++ [[]]) (getlines (resultText model))
      .dimacs := by
  have hwords : ∀ word ∈ modelWords (assignmentOf model) model.length ++ [[]], '\n' ∉ word := by
    refine List.forall_mem_append.mpr ⟨fun word hword => ?_, by simp⟩
    obtain ⟨v, -, rfl⟩ := List.mem_map.mp hword
    cases assignmentOf model v with
    | true => exact newline_not_mem_numeral v
    | false =>
        exact List.not_mem_cons_of_ne_of_not_mem (by decide) (newline_not_mem_numeral v)
  have hline : '\n' ∉ joinToString [' '] [] [] (modelWords (assignmentOf model) model.length ++
      [[]]) :=
    newline_not_mem_joinToString (by decide) List.not_mem_nil hwords
  rw [joinToString_blank] at hline
  have hlines : getlines (resultText model) = ["s SATISFIABLE".toList,
      'v' :: ' ' :: unwords (modelWords (assignmentOf model) model.length ++ [[]])] := by
    rw [resultText_eq, getlines_append (by decide), getlines,
      List.splitOn_eq_singleton (by simpa using hline)]
  exact ⟨[], _, [modelWords (assignmentOf model) model.length ++ [[]]], hlines, by simp, by simp,
    by simp, by simp, by simp⟩

end Files

section Run

variable {solver : SATSolver} {f : CNF}

/-- The rounds of the loop from the `t`-th expression on. -/
theorem tighten_spec (hsolver : solver.Correct) (hf : f.InScope) {t : Nat}
    (ht : t ≤ f.incremental.length) {files : List (List Char)}
    (hfiles : tighten solver f.variables_.length t (clausesAfter f t)
      ((f.incremental.drop t).map exprOf) = files) :
    t + files.length ≤ f.incremental.length ∧
    (∀ (i : Nat) (file : List Char), files[i]? = some file → ∃ model : List LBool,
      file = resultText model ∧ model.length = f.variables_.length ∧ f.Holds (assignmentOf model) ∧
        ∀ x ∈ f.incremental.take (t + i + 1), x.eval (assignmentOf model) = true) ∧
    (t + files.length < f.incremental.length → ¬ ∃ α, f.Holds α ∧
      ∀ x ∈ f.incremental.take (t + files.length + 1), x.eval α = true) := by
  induction hrest : f.incremental.drop t generalizing t files with
  | nil =>
      have hlength : f.incremental.length ≤ t := List.drop_eq_nil_iff.mp hrest
      rw [hrest, List.map_nil, tighten] at hfiles
      subst hfiles
      refine ⟨ht, nofun, fun hlt => ?_⟩
      rw [List.length_nil] at hlt
      omega
  | cons x rest ih =>
      have hlt : t < f.incremental.length := by
        by_contra hge
        rw [List.drop_eq_nil_of_le (Nat.le_of_not_lt hge)] at hrest
        cases hrest
      have hdrop := List.drop_eq_getElem_cons hlt
      obtain ⟨rfl, rfl⟩ := List.cons.inj (hrest.symm.trans hdrop)
      have hvars := var_lt_of_mem_clausesAfter (t := t + 1) hf
      rw [hrest, List.map_cons, tighten] at hfiles
      simp only [← clausesAfter_succ hlt] at hfiles
      split at hfiles
      · next hret =>
          obtain ⟨hlength, htake, hend⟩ := ih hlt rfl rfl
          subst hfiles
          have hshift : ∀ {m : Nat}, t + (m + 1) = t + 1 + m := by omega
          refine ⟨?_, ?_, ?_⟩
          · rw [List.length_cons, hshift]
            exact hlength
          · intro i file hfile
            cases i with
            | zero =>
                cases hfile
                have hsatisfies := hsolver.model _ _ _ hvars hret
                obtain ⟨hholds, hx⟩ :=
                  (satisfies_clausesAfter (α := assignmentOf _) hf).mp hsatisfies
                exact ⟨_, rfl, hsolver.length _ _ _ hret, hholds, hx⟩
            | succ i =>
                obtain ⟨model, hfile, hmodel, hholds, hx⟩ := htake i file hfile
                exact ⟨model, hfile, hmodel, hholds, by rwa [hshift]⟩
          · intro hlt
            rw [List.length_cons, hshift] at hlt ⊢
            exact hend hlt
      · next hret =>
          subst hfiles
          refine ⟨ht, nofun, ?_⟩
          rintro - ⟨α, hα, hx⟩
          have hsatisfies := (satisfies_clausesAfter hf).mpr ⟨hα, hx⟩
          exact hsolver.unsat _ _ _ hvars hret ⟨_, hsatisfies⟩

/-- A formula of an encoder can be printed, and its incremental expressions are read. -/
theorem fits_of_inScope (hf : f.InScope) (hvariables : f.variables_.length < 2 ^ 31)
    (hlength : f.clauses.length < 2 ^ 31) : Fits f where
  clauses cj hcj l hl := ((hf.clauses cj hcj).literals l hl).fits hvariables
  incremental x hx cj hcj l hl :=
    (((proper_args (hf.incremental x hx)).2 cj hcj).literals l hl).fits hvariables
  variables_ := hvariables
  length := hlength

theorem readable_of_tightenings {xs : List Expression} (h : ∀ x ∈ xs, x.IsTightening) :
    Readable xs := by
  induction xs with
  | nil => trivial
  | cons x xs ih =>
      obtain ⟨hx, hxs⟩ := List.forall_mem_cons.mp h
      refine Or.inl ⟨?_, ih hxs⟩
      obtain ⟨last, it, rfl | ⟨before, rfl⟩⟩ := hx <;> simp [Listed, Clause.args]

/-- The files of a run on the text of such a formula. -/
theorem run_text (hf : f.InScope) (hvariables : f.variables_.length < 2 ^ 31)
    (hlength : f.clauses.length < 2 ^ 31) : run solver f.text =
      some (tighten solver f.variables_.length 0 (clausesAfter f 0)
        (f.incremental.map exprOf)) := by
  have hfits := fits_of_inScope hf hvariables hlength
  have hexprs := (parseLiterals_iff hfits).mpr
    (readable_of_tightenings fun x hx => (hf.incremental x hx).1)
  rw [run, parseClauses_text hfits, Option.bind_eq_bind, Option.bind_some, hexprs]
  simp [clausesAfter]

/-- Every file of a run decodes to squares with the pairs of symbols that the expressions so far
ask for, and after a run that stops early there are no squares with the pairs of the next one. -/
theorem run_encode {order : Order} {options : EncodeOptions} {encoding : Encoding} {n k q : Nat}
    (assertions : Bool) (hsolver : solver.Correct) (hencoding : encoding.IsLatin) (hn : 3 ≤ n)
    (hk : 2 ≤ k) (hq : q ≤ n * n) (hf : encode order options encoding n k q = some f)
    (hvariables : f.variables_.length < 2 ^ 31) (hlength : f.clauses.length < 2 ^ 31) :
    ∃ files, run solver f.text = some files ∧
      files.length ≤ (n * n - q) * (Generator.squarePairs k).length ∧
      (∀ (i : Nat) (file : List Char), files[i]? = some file → ∃ F : Fin k → Square (Fin n),
        LatinFamily (incrementalBound k q (i + 1)) F ∧
          decode assertions encoding n k .dimacs (getlines file) =
            some (.squares (shownSquares F))) ∧
      (files.length < (n * n - q) * (Generator.squarePairs k).length →
        ¬ ∃ F : Fin k → Square (Fin n), encoding.Reaches options F ∧
          LatinFamily (incrementalBound k q (files.length + 1)) F) := by
  obtain ⟨hscope, hpos, hcount⟩ := Generator.inScope_of_encode hn hk hq hencoding hf
  have hspec := tighten_spec hsolver hscope (Nat.zero_le _) rfl
  rw [List.drop_zero] at hspec
  simp only [Nat.zero_add] at hspec
  obtain ⟨hle, hfiles, hstop⟩ := hspec
  rw [hcount] at hle
  refine ⟨_, run_text hscope hvariables hlength, hle, fun i file hfile => ?_, fun hlt => ?_⟩
  · obtain ⟨model, rfl, hmodel, hholds, htake⟩ := hfiles i file hfile
    have hi : i + 1 ≤ f.incremental.length := by
      have hlen := (List.getElem?_eq_some_iff.mp hfile).1
      omega
    obtain ⟨F, hF, hconstruct⟩ := Generator.exists_family_of_take assertions hn hk hq hencoding hf
      hi hholds htake
    refine ⟨F, hF, ?_⟩
    rw [← hmodel] at hpos hconstruct
    exact Generator.decode_written hpos (written_resultText model) (by simp) hconstruct
  · rintro ⟨F, hreaches, hF⟩
    rw [← hcount] at hlt
    exact hstop hlt (Generator.exists_model_of_reaches hn hk hq hencoding hf hlt hreaches hF)

end Run

section Witness

/-- Whether a model satisfies all clauses. -/
def allHold (clauses : List (List Lit)) (model : List LBool) : Bool :=
  clauses.all fun clause => clause.any (Lit.eval fun v => model[v]? == some .lTrue)

theorem allHold_iff {clauses : List (List Lit)} {model : List LBool} :
    allHold clauses model = true ↔ Satisfies (fun v => model[v]? == some .lTrue) clauses :=
  List.all_eq_true

/-- A solver that tries all models. -/
def SATSolver.tryAll : SATSolver := fun _ vars clauses =>
  match (List.replicate vars [LBool.lTrue, .lFalse]).sections.find? (allHold clauses) with
  | some model => (.lTrue, model)
  | none => (.lFalse, [])

theorem SATSolver.tryAll_cases (call vars : Nat) (clauses : List (List Lit)) :
    (∃ model : List LBool, tryAll call vars clauses = (.lTrue, model) ∧ model.length = vars ∧
      Satisfies (fun v => model[v]? == some .lTrue) clauses) ∨
    (tryAll call vars clauses = (.lFalse, []) ∧ ∀ model : List LBool, model.length = vars →
      (∀ value ∈ model, value ≠ .lUndef) →
        ¬ Satisfies (fun v => model[v]? == some .lTrue) clauses) := by
  unfold tryAll
  split
  · next model hfind =>
      refine Or.inl ⟨model, rfl, ?_, allHold_iff.mp (List.find?_some hfind)⟩
      have hlength := (List.mem_sections.mp (List.mem_of_find?_eq_some hfind)).length_eq
      rw [hlength, List.length_replicate]
  · next hfind =>
      refine Or.inr ⟨rfl, fun model hlength hdefined hsatisfies => ?_⟩
      refine List.find?_eq_none.mp hfind model ?_ (allHold_iff.mpr hsatisfies)
      refine List.mem_sections.mpr (List.forall₂_iff_get.mpr ⟨by simp [hlength], ?_⟩)
      intro i hi hi'
      have hvalue := hdefined _ (List.getElem_mem hi)
      cases hget : model[i] with
      | lTrue => simp [hget]
      | lFalse => simp [hget]
      | lUndef => exact absurd hget hvalue

theorem SATSolver.tryAll_correct : tryAll.Correct where
  length call vars clauses hret := by
    rcases tryAll_cases call vars clauses with ⟨model, heq, hlength, -⟩ | ⟨heq, -⟩
    · rw [heq, hlength]
    · rw [heq] at hret
      cases hret
  model call vars clauses _ hret := by
    rcases tryAll_cases call vars clauses with ⟨model, heq, -, hsatisfies⟩ | ⟨heq, -⟩
    · rw [heq]
      exact hsatisfies
    · rw [heq] at hret
      cases hret
  unsat call vars clauses hvars hret := by
    rcases tryAll_cases call vars clauses with ⟨model, heq, -⟩ | ⟨-, hnone⟩
    · rw [heq] at hret
      exact absurd rfl hret
    · rintro ⟨α, hα⟩
      let model : List LBool := (List.range vars).map fun v => if α v then .lTrue else .lFalse
      refine hnone model (by simp [model]) (fun value hvalue => ?_) fun clause hclause => ?_
      · obtain ⟨v, -, rfl⟩ := List.mem_map.mp hvalue
        split <;> decide
      · obtain ⟨l, hl, heval⟩ := List.any_eq_true.mp (hα clause hclause)
        refine List.any_eq_true.mpr ⟨l, hl, ?_⟩
        have hlt := hvars clause hclause l hl
        have hsame : (model[l.var]? == some .lTrue) = α l.var := by
          cases hvar : α l.var <;> simp [model, hlt, hvar]
        rwa [Lit.eval, hsame]

/-- With a right solver the run for two reduced squares of order three, eight pairs and a broken
symmetry writes the one file it can write. -/
theorem run_encode_three : ∃ f file,
    encode Order.identity { breakingSymmetryType := .second } .reducedLatinOnehot 3 2 8 = some f ∧
    run .tryAll f.text = some [file] ∧ ∃ F : Fin 2 → Square (Fin 3),
      LatinFamily (fun _ _ => 8) F ∧
        decode false .reducedLatinOnehot 3 2 .dimacs (getlines file) =
          some (.squares (shownSquares F)) := by
  let e : LatinSquareEncoder := ⟨true, false, .second, -1, 3, 2, 8⟩
  have hsizes : ((e.program Order.identity).run {}).any (fun p =>
      decide (p.2.varCounter < 2 ^ 31 ∧ p.1.weights.length < 2 ^ 31)) = true := by
    decide +kernel
  obtain ⟨⟨f, s⟩, hrun, hsizes⟩ := (Option.any_eq_true _ _).mp hsizes
  obtain ⟨hcounter, hweights⟩ := of_decide_eq_true hsizes
  obtain ⟨s₁, breaking, ortho, args, hreturned⟩ :=
    e.yields_returned Order.identity (by decide) (by decide) (by decide) f s hrun
  have hvariables : f.variables_.length < 2 ^ 31 := by
    rw [hreturned.length_variables (by decide)]
    exact hcounter
  have hclauses := (e.yields_length_clauses Order.identity f s hrun).1.trans_lt hweights
  have hf : encode Order.identity { breakingSymmetryType := .second } .reducedLatinOnehot 3 2 8 =
      some f := run'_of_run hrun
  obtain ⟨files, hfiles, hle, hdecode, hstop⟩ := run_encode false SATSolver.tryAll_correct
    (by trivial) (by decide) (by decide) (by decide) hf hvariables hclauses
  have hbound : incrementalBound 2 8 1 = fun _ _ => 8 := by decide
  have hone : files.length = 1 := by
    refine le_antisymm hle (Nat.one_le_iff_ne_zero.mpr fun hzero => ?_)
    rw [hzero, hbound] at hstop
    let F : Fin 2 → Square (Fin 3) := fun t i j => i * ![1, 2] t + j
    have hF : LatinFamily (fun _ _ => 3 * 3) F := by
      refine ⟨fun t => ⟨?_, ?_⟩, by decide⟩
      · revert t
        decide
      · revert t
        decide
    refine hstop (by decide)
      ⟨F, Generator.reaches_of_orthogonal (by decide) (by decide) rfl hF, hF.latin, ?_⟩
    exact fun a b hab => (by decide : 8 ≤ 3 * 3).trans (hF.pairs a b hab)
  obtain ⟨file, rfl⟩ := List.length_eq_one_iff.mp hone
  obtain ⟨F, hF, hdecode⟩ := hdecode 0 file rfl
  rw [hbound] at hF
  exact ⟨f, file, hf, hfiles, F, hF, hdecode⟩

end Witness

end LatinSquares.Incremental
