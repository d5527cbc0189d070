/-
# Reasoning about stateful programs that may fail

A program reads and changes a state of type `σ` and either returns a value or
fails: `StateT σ Option`. `Ensures m s Q` is total correctness from one starting
state, namely that `m` returns and its result and final state satisfy `Q`.

A loop that runs one body over a list is `List.mapM`. What such a loop did is
recorded by `Traversal R`: a chain of states in which every step relates an
element, the state before it, the value returned for it and the state after it.
Facts about a whole loop are inductions over that chain.
-/

import LatinSquares.Math.Projection
import Mathlib.Control.Basic
import Mathlib.Data.List.Forall2

namespace LatinSquares.Math

/-- A relation that ignores the first list is a property of the second. -/
theorem forall₂_const_iff {α β : Type} {P : β → Prop} {xs : List α} {ys : List β}
    (h : ys.length = xs.length) : List.Forall₂ (fun _ y => P y) xs ys ↔ ∀ y ∈ ys, P y := by
  induction xs generalizing ys with
  | nil =>
      rw [List.length_nil, List.length_eq_zero_iff] at h
      simp [h]
  | cons x xs ih =>
      cases ys with
      | nil => cases h
      | cons y ys => simp [ih (Nat.succ.inj h)]

/-- A condition on the second list alone can be taken out of a relation. -/
theorem forall₂_and_right {α β : Type} {P : β → Prop} {R : α → β → Prop} {xs : List α}
    {ys : List β} : List.Forall₂ (fun x y => P y ∧ R x y) xs ys ↔
      (∀ y ∈ ys, P y) ∧ List.Forall₂ R xs ys := by
  constructor
  · intro h
    induction h with
    | nil => exact ⟨by simp, .nil⟩
    | cons head tail ih =>
        exact ⟨List.forall_mem_cons.mpr ⟨head.1, ih.1⟩, .cons head.2 ih.2⟩
  · rintro ⟨hP, h⟩
    induction h with
    | nil => exact .nil
    | cons head tail ih =>
        obtain ⟨hy, hys⟩ := List.forall_mem_cons.mp hP
        exact .cons ⟨hy, head⟩ (ih hys)

variable {σ α β γ : Type}

/-- `m` started in `s` returns, and its result and final state satisfy `Q`. -/
def Ensures (m : StateT σ Option α) (s : σ) (Q : α → σ → Prop) : Prop :=
  ∃ a s', m.run s = some (a, s') ∧ Q a s'

namespace Ensures

variable {m : StateT σ Option α} {f : α → StateT σ Option β} {s s' : σ} {a : α}
  {Q Q' : α → σ → Prop} {R : β → σ → Prop}

theorem mono (h : Ensures m s Q) (hQ : ∀ a s', Q a s' → Q' a s') : Ensures m s Q' := by
  obtain ⟨a, s', hrun, hq⟩ := h
  exact ⟨a, s', hrun, hQ a s' hq⟩

/-- A program has one outcome, so what it ensures holds of the outcome at hand. -/
theorem of_run (h : Ensures m s Q) (hrun : m.run s = some (a, s')) : Q a s' := by
  obtain ⟨b, t, hrun', hq⟩ := h
  rw [hrun] at hrun'
  cases hrun'
  exact hq

theorem of_pure (h : Q a s) : Ensures (pure a) s Q := ⟨a, s, rfl, h⟩

theorem bind (h : Ensures m s Q) (hf : ∀ a s', Q a s' → Ensures (f a) s' R) :
    Ensures (m >>= f) s R := by
  obtain ⟨a, s', hrun, hq⟩ := h
  obtain ⟨b, s'', hrun', hr⟩ := hf a s' hq
  refine ⟨b, s'', ?_, hr⟩
  rw [StateT.run_bind, hrun]
  exact hrun'

theorem map {g : α → β} (h : Ensures m s fun a s' => R (g a) s') : Ensures (g <$> m) s R := by
  obtain ⟨a, s', hrun, hr⟩ := h
  refine ⟨g a, s', ?_, hr⟩
  rw [StateT.run_map, hrun]
  rfl

theorem of_get {Q : σ → σ → Prop} (h : Q s s) : Ensures (get : StateT σ Option σ) s Q :=
  ⟨s, s, rfl, h⟩

theorem of_modify {g : σ → σ} {Q : PUnit → σ → Prop} (h : Q ⟨⟩ (g s)) :
    Ensures (modify g : StateT σ Option PUnit) s Q :=
  ⟨⟨⟩, g s, rfl, h⟩

theorem of_lift {o : Option α} (ho : o = some a) (h : Q a s) :
    Ensures (liftM o : StateT σ Option α) s Q := by
  subst ho
  exact ⟨a, s, rfl, h⟩

/-- A check that passes changes nothing. -/
theorem of_guard {p : Prop} [Decidable p] {Q : Unit → σ → Prop} (hp : p) (h : Q () s) :
    Ensures (guard p : StateT σ Option Unit) s Q := by
  rw [guard, if_pos hp]
  exact of_pure h

end Ensures

/-- The run of a program whose first step is known. -/
theorem run_bind_of_run {m : StateT σ Option α} {f : α → StateT σ Option β} {s s' : σ} {a : α}
    (h : m.run s = some (a, s')) : (m >>= f).run s = (f a).run s' := by
  rw [StateT.run_bind, h]
  rfl

theorem run'_of_run {m : StateT σ Option α} {s : σ} {o : Option (α × σ)} (h : m.run s = o) :
    m.run' s = o.map Prod.fst := by
  rw [← h]
  rfl

theorem run_get_bind {f : σ → StateT σ Option β} {s : σ} :
    ((get : StateT σ Option σ) >>= f).run s = (f s).run s := rfl

theorem run_guard_bind {p : Prop} [Decidable p] {f : Unit → StateT σ Option β} {s : σ}
    (hp : p) : ((guard p : StateT σ Option Unit) >>= f).run s = (f ()).run s := by
  rw [guard, if_pos hp]
  rfl

/-- A partial step that decides whether the rest of the program runs. -/
theorem run_lift_bind {o : Option α} {f : α → StateT σ Option β} {s : σ} :
    ((liftM o : StateT σ Option α) >>= f).run s = o.bind fun a => (f a).run s := by
  cases o <;> rfl

/-- The course of a loop: `R x s y s'` holds of every element `x`, the state `s`
its body started in, the value `y` it returned and the state `s'` it left. -/
inductive Traversal (R : α → σ → β → σ → Prop) : List α → σ → List β → σ → Prop
  | nil (s : σ) : Traversal R [] s [] s
  | cons {x : α} {s : σ} {y : β} {s' : σ} {xs : List α} {ys : List β} {s'' : σ}
      (head : R x s y s') (tail : Traversal R xs s' ys s'') :
      Traversal R (x :: xs) s (y :: ys) s''

namespace Traversal

variable {R R' : α → σ → β → σ → Prop} {xs : List α} {ys : List β} {s s' : σ}

theorem mono (hR : ∀ x ∈ xs, ∀ s y s', R x s y s' → R' x s y s')
    (h : Traversal R xs s ys s') : Traversal R' xs s ys s' := by
  induction h with
  | nil s => exact .nil s
  | cons head tail ih =>
      refine .cons (hR _ (List.mem_cons_self ..) _ _ _ head) (ih fun x hx => ?_)
      exact hR x (List.mem_cons_of_mem _ hx)

theorem length_eq (h : Traversal R xs s ys s') : ys.length = xs.length := by
  induction h with
  | nil s => rfl
  | cons head tail ih => rw [List.length_cons, List.length_cons, ih]

/-- Every step moves along a preorder, so the whole loop does. -/
theorem rel_of_step {L : σ → σ → Prop} (refl : ∀ s, L s s)
    (trans : ∀ s t u, L s t → L t u → L s u)
    (hstep : ∀ x s y s', R x s y s' → L s s') (h : Traversal R xs s ys s') : L s s' := by
  induction h with
  | nil s => exact refl s
  | cons head tail ih => exact trans _ _ _ (hstep _ _ _ _ head) ih

/-- What holds at the end held at the start or comes from one of the steps. -/
theorem origin {P : σ → Prop} {source : α → β → Prop}
    (hstep : ∀ x s y s', R x s y s' → P s' → source x y ∨ P s) (h : Traversal R xs s ys s')
    (hP : P s') :
    (∃ (i : Nat) (x : α) (y : β), xs[i]? = some x ∧ ys[i]? = some y ∧ source x y) ∨ P s := by
  induction h with
  | nil s => exact Or.inr hP
  | cons head tail ih =>
      rcases ih hP with ⟨i, x, y, hx, hy, hsource⟩ | hmiddle
      · exact Or.inl ⟨i + 1, x, y, hx, hy, hsource⟩
      · rcases hstep _ _ _ _ head hmiddle with hsource | hstart
        · exact Or.inl ⟨0, _, _, rfl, rfl, hsource⟩
        · exact Or.inr hstart

/-- The step for one of the elements, and how the rest of the loop goes on from it. -/
theorem exists_step {L : σ → σ → Prop} (refl : ∀ s, L s s)
    (trans : ∀ s t u, L s t → L t u → L s u) (hstep : ∀ x s y s', R x s y s' → L s s')
    (h : Traversal R xs s ys s') {i : Nat} {x : α} (hx : xs[i]? = some x) :
    ∃ t y t', ys[i]? = some y ∧ R x t y t' ∧ L t' s' := by
  induction h generalizing i with
  | nil s => cases hx
  | cons head tail ih =>
      cases i with
      | zero =>
          cases hx
          exact ⟨_, _, _, rfl, head, tail.rel_of_step refl trans hstep⟩
      | succ i => exact ih hx

/-- A loop whose body writes formulas about the original variables writes their
conjunction. The counter is read off the state by `counter`; `holds` says when the
result for an element is satisfied. -/
theorem projects {counter : σ → Nat} {holds : α → β → Assignment → Prop}
    {P : α → Assignment → Prop} {c : Nat} (hbase : ∀ x ∈ xs, DependsUpTo c (P x))
    (hstep : ∀ x s y s', R x s y s' →
      Projects (counter s) (counter s') (holds x y) (P x))
    (hc : c ≤ counter s) (h : Traversal R xs s ys s') :
    Projects (counter s) (counter s') (fun α => List.Forall₂ (fun x y => holds x y α) xs ys)
      fun α => ∀ x ∈ xs, P x α := by
  induction h with
  | nil s =>
      refine (Projects.refl (DependsUpTo.const _ True)).congr ?_ ?_ <;> simp
  | @cons x s y s' xs ys s'' head tail ih =>
      have hbaseTail : ∀ x ∈ xs, DependsUpTo c (P x) :=
        fun x hx => hbase x (List.mem_cons_of_mem _ hx)
      have hhead := hstep _ _ _ _ head
      have htail := ih hbaseTail (hc.trans hhead.le)
      have hrest : DependsUpTo (counter s) fun α => ∀ x ∈ xs, P x α :=
        DependsUpTo.forall_ fun x => DependsUpTo.forall_ fun hx =>
          (hbaseTail x hx).mono hc
      exact (hhead.and htail hrest).congr (by simp) (by simp)

end Traversal

/-- A loop returns when its body returns from every state of an invariant. -/
theorem Ensures.mapM {f : α → StateT σ Option β} {R : α → σ → β → σ → Prop} {I : σ → Prop}
    {xs : List α} {s : σ} (hs : I s)
    (hstep : ∀ x ∈ xs, ∀ s, I s → Ensures (f x) s fun y s' => R x s y s' ∧ I s') :
    Ensures (xs.mapM f) s fun ys s' => Traversal R xs s ys s' ∧ I s' := by
  induction xs generalizing s with
  | nil => exact Ensures.of_pure ⟨.nil s, hs⟩
  | cons x xs ih =>
      rw [List.mapM_cons]
      refine (hstep x (List.mem_cons_self ..) s hs).bind ?_
      rintro y s' ⟨head, hs'⟩
      refine (ih hs' fun x hx => hstep x (List.mem_cons_of_mem _ hx)).bind ?_
      rintro ys s'' ⟨tail, hs''⟩
      exact Ensures.of_pure ⟨.cons head tail, hs''⟩

/-- A loop over consecutive numbers whose rounds return values known in advance, along
an invariant that says what holds before each round. -/
theorem Ensures.mapM_range' {f : Nat → StateT σ Option β} {g : Nat → β} {I : Nat → σ → Prop}
    {first n : Nat} {s : σ} (hs : I first s)
    (hstep : ∀ i, first ≤ i → i < first + n → ∀ t, I i t →
      Ensures (f i) t fun y t' => y = g i ∧ I (i + 1) t') :
    Ensures ((List.range' first n).mapM f) s fun ys s' =>
      ys = (List.range' first n).map g ∧ I (first + n) s' := by
  induction n generalizing first s with
  | zero => exact Ensures.of_pure ⟨rfl, hs⟩
  | succ n ih =>
      rw [List.range'_succ, List.mapM_cons]
      refine (hstep first le_rfl (by omega) s hs).bind ?_
      rintro y t ⟨rfl, ht⟩
      refine (ih ht fun i hi hi' => hstep i (by omega) (by omega)).bind ?_
      rintro ys t' ⟨rfl, ht'⟩
      have hlast : first + 1 + n = first + (n + 1) := by omega
      exact Ensures.of_pure ⟨by rw [List.map_cons], hlast ▸ ht'⟩

theorem Ensures.mapM_range {f : Nat → StateT σ Option β} {g : Nat → β} {I : Nat → σ → Prop}
    {n : Nat} {s : σ} (hs : I 0 s)
    (hstep : ∀ i < n, ∀ t, I i t → Ensures (f i) t fun y t' => y = g i ∧ I (i + 1) t') :
    Ensures ((List.range n).mapM f) s fun ys s' => ys = (List.range n).map g ∧ I n s' := by
  rw [List.range_eq_range']
  have hloop := Ensures.mapM_range' (n := n) hs fun i _ hi => hstep i (by omega)
  rwa [Nat.zero_add] at hloop

/-- A loop that ignores its elements depends on their number only. -/
theorem mapM_const_congr {m : StateT σ Option β} {xs : List α} {ys : List γ}
    (h : xs.length = ys.length) : (xs.mapM fun _ => m) = ys.mapM fun _ => m := by
  induction xs generalizing ys with
  | nil =>
      obtain rfl : ys = [] := List.length_eq_zero_iff.mp h.symm
      rfl
  | cons x xs ih =>
      cases ys with
      | nil => cases h
      | cons y ys => rw [List.mapM_cons, List.mapM_cons, ih (Nat.succ.inj h)]

/-- Whatever `m` returns from `s`, its result and final state satisfy `Q`. -/
def Yields (m : StateT σ Option α) (s : σ) (Q : α → σ → Prop) : Prop :=
  ∀ a s', m.run s = some (a, s') → Q a s'

namespace Yields

variable {m : StateT σ Option α} {f : α → StateT σ Option β} {s : σ} {a : α}
  {Q Q' : α → σ → Prop} {R : β → σ → Prop}

theorem mono (h : Yields m s Q) (hQ : ∀ a s', Q a s' → Q' a s') : Yields m s Q' :=
  fun a s' hrun => hQ a s' (h a s' hrun)

theorem and (h : Yields m s Q) (h' : Yields m s Q') : Yields m s fun a s' => Q a s' ∧ Q' a s' :=
  fun a s' hrun => ⟨h a s' hrun, h' a s' hrun⟩

theorem of_ensures (h : Ensures m s Q) : Yields m s Q := fun _ _ hrun => h.of_run hrun

theorem of_pure (h : Q a s) : Yields (pure a) s Q := of_ensures (Ensures.of_pure h)

theorem bind (h : Yields m s Q) (hf : ∀ a s', Q a s' → Yields (f a) s' R) :
    Yields (m >>= f) s R := by
  intro b s'' hrun
  rw [StateT.run_bind] at hrun
  obtain ⟨⟨a, s'⟩, hm, hrest⟩ := Option.bind_eq_some_iff.mp hrun
  exact hf a s' (h a s' hm) b s'' hrest

/-- A fact that does not depend on the state can come from the first step, -/
theorem bind_left {P : Prop} (h : Yields m s fun _ _ => P) :
    Yields (m >>= f) s fun _ _ => P :=
  h.bind fun _ _ hP _ _ _ => hP

/-- or from the rest, whatever the first step returns. -/
theorem bind_right (hf : ∀ a s', Yields (f a) s' R) : Yields (m >>= f) s R :=
  bind (Q := fun _ _ => True) (fun _ _ _ => trivial) fun a s' _ => hf a s'

theorem of_lift {o : Option α} (h : ∀ a, o = some a → Q a s) :
    Yields (liftM o : StateT σ Option α) s Q := by
  intro a s' hrun
  cases o with
  | none => cases hrun
  | some b =>
      cases hrun
      exact h _ rfl

theorem of_guard {p : Prop} [Decidable p] {Q : Unit → σ → Prop} (h : p → Q () s) :
    Yields (guard p : StateT σ Option Unit) s Q := by
  by_cases hp : p
  · exact of_ensures (Ensures.of_guard hp (h hp))
  · intro a s' hrun
    rw [guard, if_neg hp] at hrun
    cases hrun

theorem of_failure : Yields (failure : StateT σ Option α) s Q := fun _ _ hrun => by cases hrun

/-- A loop does what its body does in every round. -/
theorem mapM {f : α → StateT σ Option β} {R : α → σ → β → σ → Prop} {xs : List α} {s : σ}
    (hstep : ∀ x ∈ xs, ∀ s, Yields (f x) s (R x s)) :
    Yields (xs.mapM f) s (Traversal R xs s) := by
  induction xs generalizing s with
  | nil => exact of_pure (.nil s)
  | cons x xs ih =>
      rw [List.mapM_cons]
      refine (hstep x List.mem_cons_self s).bind fun y s' head => ?_
      refine (ih fun x hx => hstep x (List.mem_cons_of_mem _ hx)).bind fun ys s'' tail => ?_
      exact of_pure (.cons head tail)

/-- A loop keeps what its body keeps, and its results have what those of its body have. -/
theorem mapM_keeps {f : α → StateT σ Option β} {xs : List α} {s : σ} {I : σ → Prop} {P : β → Prop}
    (hstep : ∀ x ∈ xs, ∀ s, I s → Yields (f x) s fun y s' => I s' ∧ P y) (hs : I s) :
    Yields (xs.mapM f) s fun ys s' => I s' ∧ ∀ y ∈ ys, P y := by
  induction xs generalizing s with
  | nil => exact of_pure ⟨hs, fun _ hy => absurd hy List.not_mem_nil⟩
  | cons x xs ih =>
      rw [List.mapM_cons]
      refine (hstep x List.mem_cons_self s hs).bind ?_
      rintro y s' ⟨hs', hy⟩
      refine (ih (fun x hx => hstep x (List.mem_cons_of_mem _ hx)) hs').bind ?_
      rintro ys s'' ⟨hs'', hys⟩
      exact of_pure ⟨hs'', List.forall_mem_cons.mpr ⟨hy, hys⟩⟩

/-- What holds of the result of every round holds of all results of a loop. -/
theorem mapM_forall {f : α → StateT σ Option β} {xs : List α} {s : σ} {P : β → Prop}
    (hstep : ∀ x ∈ xs, ∀ s, Yields (f x) s fun y _ => P y) :
    Yields (xs.mapM f) s fun ys _ => ∀ y ∈ ys, P y :=
  (mapM_keeps (I := fun _ => True) (fun x hx s _ => (hstep x hx s).mono fun _ _ h =>
    ⟨trivial, h⟩) trivial).mono fun _ _ h => h.2

end Yields

/-- What holds before `m` holds after it, if it returns. -/
def Keeps (I : σ → Prop) (m : StateT σ Option α) : Prop :=
  ∀ s, I s → Yields m s fun _ s' => I s'

namespace Keeps

variable {I : σ → Prop} {m : StateT σ Option α} {f : α → StateT σ Option β}

theorem of_pure (a : α) : Keeps I (pure a : StateT σ Option α) := fun _ hs => Yields.of_pure hs

theorem of_failure : Keeps I (failure : StateT σ Option α) := fun _ _ => Yields.of_failure

theorem of_get : Keeps I (get : StateT σ Option σ) := fun _ hs =>
  Yields.of_ensures (Ensures.of_get hs)

theorem of_lift (o : Option α) : Keeps I (liftM o : StateT σ Option α) := fun _ hs =>
  Yields.of_lift fun _ _ => hs

theorem of_guard (p : Prop) [Decidable p] : Keeps I (guard p : StateT σ Option Unit) :=
  fun _ hs => Yields.of_guard fun _ => hs

theorem bind (h : Keeps I m) (hf : ∀ a, Keeps I (f a)) : Keeps I (m >>= f) := fun s hs =>
  (h s hs).bind fun a s' hs' => hf a s' hs'

theorem mapM {xs : List α} (hf : ∀ x ∈ xs, Keeps I (f x)) : Keeps I (xs.mapM f) := fun _ hs =>
  (Yields.mapM_keeps (P := fun _ => True) (fun x hx s hs => (hf x hx s hs).mono fun _ _ h =>
    ⟨h, trivial⟩) hs).mono fun _ _ h => h.1

end Keeps

/-- What `m` returns, `m'` returns too, from every state. -/
def ExtendedBy (m m' : StateT σ Option α) : Prop :=
  ∀ s a s', m.run s = some (a, s') → m'.run s = some (a, s')

namespace ExtendedBy

variable {m m' : StateT σ Option α} {f f' : α → StateT σ Option β}

theorem refl (m : StateT σ Option α) : ExtendedBy m m := fun _ _ _ h => h

theorem bind (h : ExtendedBy m m') (hf : ∀ a, ExtendedBy (f a) (f' a)) :
    ExtendedBy (m >>= f) (m' >>= f') := by
  intro s b s'' hrun
  rw [StateT.run_bind] at hrun
  obtain ⟨⟨a, s'⟩, hm, hrest⟩ := Option.bind_eq_some_iff.mp hrun
  rw [run_bind_of_run (h s a s' hm)]
  exact hf a s' b s'' hrest

theorem mapM {xs : List α} (h : ∀ x, ExtendedBy (f x) (f' x)) :
    ExtendedBy (xs.mapM f) (xs.mapM f') := by
  induction xs with
  | nil => exact refl _
  | cons x xs ih =>
      rw [List.mapM_cons, List.mapM_cons]
      exact (h x).bind fun y => ih.bind fun ys => refl _

end ExtendedBy

end LatinSquares.Math
