/-
# `InternetLabs.Lib.Slots` — arrays of pointers

An array of a fixed size whose entries are pointers or `NULL`: a value is put where
the first `NULL` is, and taken out again where it stands.  `stored` are the entries
that are not `NULL`; each operation is told by what it does to them.
-/
import Mathlib.Data.List.Basic
import Mathlib.Data.List.Perm.Basic

namespace InternetLabs

namespace Slots

variable {α : Type*}

/-- The entries that are not `NULL`. -/
def stored (slots : List (Option α)) : List α := slots.filterMap id

/-- Put `x` where the first `NULL` is; a full array is left as it is. -/
def insert (x : α) : List (Option α) → List (Option α)
  | [] => []
  | none :: slots => some x :: slots
  | some y :: slots => some y :: insert x slots

/-- Take out the first `x`. -/
def remove [DecidableEq α] (x : α) : List (Option α) → List (Option α)
  | [] => []
  | slot :: slots => if slot = some x then none :: slots else slot :: remove x slots

@[simp] theorem stored_nil : stored ([] : List (Option α)) = [] := rfl

@[simp] theorem stored_none (slots : List (Option α)) : stored (none :: slots) = stored slots := rfl

@[simp] theorem stored_some (x : α) (slots : List (Option α)) :
    stored (some x :: slots) = x :: stored slots := rfl

@[simp] theorem stored_replicate (n : Nat) : stored (List.replicate n (none : Option α)) = [] := by
  induction n with
  | zero => rfl
  | succ n ih => rw [List.replicate_succ, stored_none, ih]

theorem mem_stored {x : α} {slots : List (Option α)} : x ∈ stored slots ↔ some x ∈ slots := by
  simp [stored]

theorem length_stored_le (slots : List (Option α)) : (stored slots).length ≤ slots.length :=
  List.length_filterMap_le _ _

theorem length_stored_of_full {slots : List (Option α)} (h : none ∉ slots) :
    (stored slots).length = slots.length := by
  induction slots with
  | nil => rfl
  | cons slot slots ih =>
      cases slot with
      | none => exact absurd List.mem_cons_self h
      | some x =>
          rw [stored_some, List.length_cons, List.length_cons,
            ih fun hmem => h (List.mem_cons_of_mem _ hmem)]

theorem stored_cons (slot : Option α) (slots : List (Option α)) :
    stored (slot :: slots) = slot.toList ++ stored slots := by
  cases slot <;> rfl

@[simp] theorem length_insert (x : α) (slots : List (Option α)) :
    (insert x slots).length = slots.length := by
  induction slots with
  | nil => rfl
  | cons slot slots ih =>
      cases slot with
      | none => rfl
      | some y => rw [insert, List.length_cons, List.length_cons, ih]

theorem stored_insert (x : α) {slots : List (Option α)} (h : none ∈ slots) :
    (stored (insert x slots)).Perm (x :: stored slots) := by
  induction slots with
  | nil => cases h
  | cons slot slots ih =>
      cases slot with
      | none => exact List.Perm.refl _
      | some y =>
          have hrest := ih ((List.mem_cons.mp h).resolve_left nofun)
          rw [insert, stored_some, stored_some]
          exact (hrest.cons y).trans (List.Perm.swap x y _)

theorem insert_of_full (x : α) {slots : List (Option α)} (h : none ∉ slots) :
    insert x slots = slots := by
  induction slots with
  | nil => rfl
  | cons slot slots ih =>
      cases slot with
      | none => exact absurd List.mem_cons_self h
      | some y => rw [insert, ih fun hmem => h (List.mem_cons_of_mem _ hmem)]

section Remove
variable [DecidableEq α]

theorem stored_remove (x : α) (slots : List (Option α)) :
    stored (remove x slots) = (stored slots).erase x := by
  induction slots with
  | nil => rfl
  | cons slot slots ih =>
      rw [remove]
      split
      next hslot =>
        subst hslot
        rw [stored_none, stored_some, List.erase_cons_head]
      next hslot =>
        cases slot with
        | none => exact ih
        | some y =>
            rw [stored_some, stored_some, ih, List.erase_cons_tail]
            simpa using fun h : y = x => hslot (by rw [h])

end Remove

theorem stored_set {slots : List (Option α)} {i : Nat} {x : α} (h : slots[i]? = some (some x)) :
    (stored slots).Perm (x :: stored (slots.set i none)) := by
  induction slots generalizing i with
  | nil => cases h
  | cons slot slots ih =>
      cases i with
      | zero =>
          rw [List.getElem?_cons_zero] at h
          obtain rfl := Option.some.inj h
          exact List.Perm.refl _
      | succ i =>
          rw [List.getElem?_cons_succ] at h
          cases slot with
          | none => exact ih h
          | some y =>
              rw [List.set_cons_succ, stored_some, stored_some]
              exact ((ih h).cons y).trans (List.Perm.swap x y _)

/-- A value in a place that was free is stored besides the others. -/
theorem stored_set_some {slots : List (Option α)} {i : Nat} (x : α) (h : slots[i]? = some none) :
    (stored (slots.set i (some x))).Perm (x :: stored slots) := by
  obtain ⟨hi, hslot⟩ := List.getElem?_eq_some_iff.mp h
  have hput : (slots.set i (some x))[i]? = some (some x) := List.getElem?_set_self hi
  have hback : (slots.set i (some x)).set i none = slots := by
    rw [List.set_set, ← hslot, List.set_getElem_self]
  rw [← hback]
  simpa only [List.set_set] using stored_set hput

end Slots

end InternetLabs
