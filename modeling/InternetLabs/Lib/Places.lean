/-
# `InternetLabs.Lib.Places` — steps that stay in their place

A machine has places, each with its own contents, and one count that all steps add
to.  A step looks at the contents of its own place alone, and so does what it adds.

Then a place's contents depend on the steps in it alone (`run_contents`), and the count
is the sum of what the steps of each place come to by themselves (`run_count`).  The
count may be in any commutative monoid.

Steps that may fail come to the same in every interleaving as well, if two of them in
different places do, failures included (`foldlM_congr_of_comm`).
-/
import Mathlib.Algebra.BigOperators.Group.Finset.Basic
import Mathlib.Algebra.BigOperators.Group.Finset.Piecewise
import Mathlib.Data.List.Induction

namespace InternetLabs

open Function

/-- The steps of a machine: where one takes place, and what it makes of the contents
and adds to the count. -/
structure Places (ι σ α M : Type*) where
  place : α → ι
  act : α → σ → σ × M

namespace Places

variable {ι σ α M : Type*} [DecidableEq ι] (P : Places ι σ α M)

/-- The steps in the place `i`. -/
def stepsIn (i : ι) (as : List α) : List α := as.filter fun a => P.place a = i

theorem stepsIn_concat_self (as : List α) (a : α) :
    P.stepsIn (P.place a) (as ++ [a]) = P.stepsIn (P.place a) as ++ [a] := by
  simp [stepsIn]

theorem stepsIn_concat_of_ne {i : ι} {a : α} (h : P.place a ≠ i) (as : List α) :
    P.stepsIn i (as ++ [a]) = P.stepsIn i as := by
  simp [stepsIn, h]

variable [AddCommMonoid M]

/-- A step, on the contents of the places and the count. -/
def step (s : (ι → σ) × M) (a : α) : (ι → σ) × M :=
  (update s.1 (P.place a) (P.act a (s.1 (P.place a))).1, s.2 + (P.act a (s.1 (P.place a))).2)

/-- The steps one after the other. -/
def run (s : (ι → σ) × M) (as : List α) : (ι → σ) × M := as.foldl P.step s

theorem run_concat (s : (ι → σ) × M) (as : List α) (a : α) :
    P.run s (as ++ [a]) = P.step (P.run s as) a := by
  rw [run, List.foldl_append]
  rfl

/-- **A place's contents** are what the steps in it make of them. -/
theorem run_contents (s : (ι → σ) × M) (as : List α) (i : ι) :
    (P.run s as).1 i = (P.run s (P.stepsIn i as)).1 i := by
  induction as using List.reverseRecOn with
  | nil => rfl
  | append_singleton as a ih =>
      by_cases h : P.place a = i
      · subst h
        rw [stepsIn_concat_self, run_concat, run_concat]
        simp only [step, update_self, ih]
      · rw [stepsIn_concat_of_ne P h, run_concat]
        simp only [step, update_of_ne (Ne.symm h), ih]

/-- **The count** is the sum of what the steps of each place come to by themselves. -/
theorem run_count (c : ι → σ) {as : List α} {S : Finset ι} (h : ∀ a ∈ as, P.place a ∈ S) :
    (P.run (c, 0) as).2 = ∑ i ∈ S, (P.run (c, 0) (P.stepsIn i as)).2 := by
  induction as using List.reverseRecOn with
  | nil => exact Finset.sum_const_zero.symm
  | append_singleton as a ih =>
      have hbefore := ih fun b hb => h b (List.mem_append_left _ hb)
      have ha := h a (List.mem_append_right _ (List.mem_singleton_self a))
      obtain ⟨d, hd⟩ : ∃ d, d = (P.act a ((P.run (c, 0) as).1 (P.place a))).2 := ⟨_, rfl⟩
      -- only the place of the last step has one more
      have hplace : ∀ i ∈ S, (P.run (c, 0) (P.stepsIn i (as ++ [a]))).2
          = (P.run (c, 0) (P.stepsIn i as)).2 + if P.place a = i then d else 0 := by
        intro i _
        by_cases hi : P.place a = i
        · subst hi
          rw [stepsIn_concat_self, run_concat, if_pos rfl, hd, run_contents]
          rfl
        · rw [stepsIn_concat_of_ne P hi, if_neg hi, add_zero]
      rw [Finset.sum_congr rfl hplace, Finset.sum_add_distrib, Finset.sum_ite_eq, if_pos ha,
        ← hbefore, run_concat, hd]
      rfl

end Places

/-! ## Steps that may fail -/

section Partial
variable {ι σ α : Type*} {place : α → ι} {step : σ → α → Option σ}
  (hcomm : ∀ (s : σ) (a b : α), place a ≠ place b →
    (step s a).bind (fun s => step s b) = (step s b).bind fun s => step s a)
include hcomm

theorem foldlM_move_front {a : α} {as : List α} (h : ∀ b ∈ as, place b ≠ place a) (bs : List α)
    (s : σ) : (as ++ a :: bs).foldlM step s = (a :: (as ++ bs)).foldlM step s := by
  induction as generalizing s with
  | nil => rfl
  | cons b as ih =>
      obtain ⟨hb, has⟩ := List.forall_mem_cons.mp h
      calc (b :: as ++ a :: bs).foldlM step s
          = (step s b).bind fun s => (as ++ a :: bs).foldlM step s := rfl
        _ = (step s b).bind fun s => (step s a).bind fun s => (as ++ bs).foldlM step s :=
            congrArg _ (funext fun s => ih has s)
        _ = ((step s b).bind fun s => step s a).bind fun s => (as ++ bs).foldlM step s :=
            (Option.bind_assoc ..).symm
        _ = ((step s a).bind fun s => step s b).bind fun s => (as ++ bs).foldlM step s := by
            rw [hcomm s b a hb]
        _ = (step s a).bind fun s => (b :: (as ++ bs)).foldlM step s := Option.bind_assoc ..

/-- **The interleaving does not matter.** -/
theorem foldlM_congr_of_comm [DecidableEq ι] {as bs : List α}
    (h : ∀ i, as.filter (fun a => place a = i) = bs.filter fun a => place a = i) (s : σ) :
    as.foldlM step s = bs.foldlM step s := by
  induction as generalizing bs s with
  | nil =>
      cases bs with
      | nil => rfl
      | cons b bs =>
          have hb := h (place b)
          rw [List.filter_nil, List.filter_cons_of_pos (by simp)] at hb
          cases hb
  | cons a as ih =>
      have ha := h (place a)
      rw [List.filter_cons_of_pos (by simp)] at ha
      obtain ⟨before, after, rfl, hbefore, -, -⟩ := List.filter_eq_cons_iff.mp ha.symm
      have hother : ∀ b ∈ before, place b ≠ place a := fun b hb => by simpa using hbefore b hb
      rw [foldlM_move_front hcomm hother, List.foldlM_cons, List.foldlM_cons]
      refine congrArg (step s a).bind (funext fun s => ih (fun i => ?_) s)
      have hi := h i
      rw [List.filter_append] at hi ⊢
      by_cases hplace : place a = i
      · -- the step itself is the first of its place
        have hnone : before.filter (fun b => place b = i) = [] :=
          List.filter_eq_nil_iff.mpr fun b hb => by simpa [hplace] using hother b hb
        rw [List.filter_cons_of_pos (by simpa using hplace), hnone, List.nil_append,
          List.filter_cons_of_pos (by simpa using hplace)] at hi
        rw [hnone, List.nil_append]
        exact (List.cons.inj hi).2
      · rwa [List.filter_cons_of_neg (by simpa using hplace),
          List.filter_cons_of_neg (by simpa using hplace)] at hi

end Partial

end InternetLabs
