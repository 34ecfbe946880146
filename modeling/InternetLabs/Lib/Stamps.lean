/-
# `InternetLabs.Lib.Stamps` — idle or not, by a time stamp

Who closes what has been idle seldom looks at all that happens: it keeps a stamp, and
compares the stamp with the clock.  A `Moment` is what happens at a time: something moves,
or the stamp is renewed, or the clock is only read; `gone` says that there is nothing to
close any more.

The stamp stands for what has moved as long as nothing has moved after it (`Fresh`).
`Fresh.after`: that is kept by events of which every move has its stamp (`Covered`).
-/
import Mathlib.Order.Lattice

namespace InternetLabs

namespace Stamps

variable {τ : Type*}

/-- What happens, and when. -/
inductive Moment (τ : Type*) where
  | moved (t : τ)
  | stamped (t : τ)
  | read (t : τ)
  | gone
deriving DecidableEq

/-- The stamp after the events. -/
def lastStamp : τ → List (Moment τ) → τ
  | stamp, [] => stamp
  | _, .stamped t :: es => lastStamp t es
  | stamp, .moved _ :: es => lastStamp stamp es
  | stamp, .read _ :: es => lastStamp stamp es
  | stamp, .gone :: es => lastStamp stamp es

/-- The clock after the events. -/
def clockAfter : τ → List (Moment τ) → τ
  | clock, [] => clock
  | _, .moved t :: es => clockAfter t es
  | _, .stamped t :: es => clockAfter t es
  | _, .read t :: es => clockAfter t es
  | clock, .gone :: es => clockAfter clock es

/-- The times at which something moved. -/
def moves : List (Moment τ) → List τ
  | [] => []
  | .moved t :: es => t :: moves es
  | .stamped _ :: es => moves es
  | .read _ :: es => moves es
  | .gone :: es => moves es

@[simp] theorem lastStamp_append (stamp : τ) (es es' : List (Moment τ)) :
    lastStamp stamp (es ++ es') = lastStamp (lastStamp stamp es) es' := by
  induction es generalizing stamp with
  | nil => rfl
  | cons e es ih => cases e <;> exact ih _

section Order
variable [LinearOrder τ]

/-- The clock does not go back. -/
def InOrder : τ → List (Moment τ) → Prop
  | _, [] => True
  | clock, .moved t :: es => clock ≤ t ∧ InOrder t es
  | clock, .stamped t :: es => clock ≤ t ∧ InOrder t es
  | clock, .read t :: es => clock ≤ t ∧ InOrder t es
  | clock, .gone :: es => InOrder clock es

instance InOrder.decide : (clock : τ) → (es : List (Moment τ)) → Decidable (InOrder clock es)
  | _, [] => .isTrue trivial
  | clock, .moved t :: es =>
      have := InOrder.decide t es
      inferInstanceAs (Decidable (clock ≤ t ∧ InOrder t es))
  | clock, .stamped t :: es =>
      have := InOrder.decide t es
      inferInstanceAs (Decidable (clock ≤ t ∧ InOrder t es))
  | clock, .read t :: es =>
      have := InOrder.decide t es
      inferInstanceAs (Decidable (clock ≤ t ∧ InOrder t es))
  | clock, .gone :: es => InOrder.decide clock es

/-- Nothing has moved after the last stamp, or there is nothing left to close. -/
def Covered (stamp : τ) (es : List (Moment τ)) : Prop :=
  .gone ∈ es ∨ ∀ t ∈ moves es, t ≤ lastStamp stamp es

instance (stamp : τ) (es : List (Moment τ)) : Decidable (Covered stamp es) := by
  unfold Covered
  infer_instance

/-- The stamp stands for what has moved. -/
structure Fresh (clock stamp : τ) (moved : List τ) : Prop where
  stamp_le : stamp ≤ clock
  moved_le : ∀ t ∈ moved, t ≤ stamp

variable {clock stamp : τ} {es : List (Moment τ)} {moved : List τ}

theorem le_clockAfter (h : InOrder clock es) : clock ≤ clockAfter clock es := by
  induction es generalizing clock with
  | nil => exact le_rfl
  | cons e es ih =>
      cases e with
      | moved t => exact h.1.trans (ih h.2)
      | stamped t => exact h.1.trans (ih h.2)
      | read t => exact h.1.trans (ih h.2)
      | gone => exact ih h

theorem lastStamp_le (h : InOrder clock es) (hstamp : stamp ≤ clock) :
    stamp ≤ lastStamp stamp es ∧ lastStamp stamp es ≤ clockAfter clock es := by
  induction es generalizing clock stamp with
  | nil => exact ⟨le_rfl, hstamp⟩
  | cons e es ih =>
      cases e with
      | moved t => exact ih h.2 (hstamp.trans h.1)
      | stamped t =>
          obtain ⟨hle, hclock⟩ := @ih t t h.2 le_rfl
          exact ⟨(hstamp.trans h.1).trans hle, hclock⟩
      | read t => exact ih h.2 (hstamp.trans h.1)
      | gone => exact ih h hstamp

theorem Fresh.later {clock' : τ} (h : Fresh clock stamp moved) (hle : clock ≤ clock') :
    Fresh clock' stamp moved :=
  ⟨h.stamp_le.trans hle, h.moved_le⟩

/-- **The stamp goes on standing for what has moved**, over events that are covered. -/
theorem Fresh.after (h : Fresh clock stamp moved) (horder : InOrder clock es)
    (hcovered : ∀ t ∈ moves es, t ≤ lastStamp stamp es) :
    Fresh (clockAfter clock es) (lastStamp stamp es) (moved ++ moves es) := by
  obtain ⟨hle, hclock⟩ := lastStamp_le horder h.stamp_le
  refine ⟨hclock, fun t ht => ?_⟩
  rcases List.mem_append.mp ht with ht | ht
  · exact (h.moved_le t ht).trans hle
  · exact hcovered t ht

end Order

end Stamps

end InternetLabs
