/-
# `InternetLabs.Lib.Ring` — a queue in a ring of slots

The items of the queue lie in an array one behind the other, from the slot behind `front` on
and around its end (`Holds`).  The two counters of such a queue only grow; they are taken
modulo the length of the array when it is accessed.
-/
import Mathlib.Data.List.Basic

namespace InternetLabs

namespace Ring

variable {α : Type*}

/-- The items lie in the slots behind `front`. -/
structure Holds (buf : List α) (front : Nat) (items : List α) : Prop where
  le : items.length ≤ buf.length
  slot : ∀ k (h : k < items.length), buf[(front + 1 + k) % buf.length]? = some items[k]

theorem holds_nil (buf : List α) (front : Nat) : Holds buf front [] := ⟨Nat.zero_le _, nofun⟩

theorem mod_ne_of_lt {n a b : Nat} (hab : a < b) (hlt : b < a + n) : a % n ≠ b % n := by
  intro h
  have hmod : (b - a) % n = 0 := Nat.sub_mod_eq_zero_of_mod_eq h.symm
  rw [Nat.mod_eq_of_lt (by omega)] at hmod
  omega

/-- **Behind the last item** there is a slot for another one. -/
theorem Holds.push {buf items : List α} {front : Nat} (h : Holds buf front items)
    (hroom : items.length < buf.length) (x : α) :
    Holds (buf.set ((front + items.length + 1) % buf.length) x) front (items ++ [x]) where
  le := by
    rw [List.length_append, List.length_singleton, List.length_set]
    exact hroom
  slot k hk := by
    rw [List.length_append, List.length_singleton] at hk
    rw [List.length_set]
    by_cases hlast : k = items.length
    · subst hlast
      have hslot : (front + 1 + items.length) % buf.length < buf.length := Nat.mod_lt _ (by omega)
      have hindex : front + items.length + 1 = front + 1 + items.length := by omega
      rw [hindex, List.getElem?_set_self hslot, List.getElem_concat_length rfl]
    · have hlt : k < items.length := by omega
      have hne : (front + items.length + 1) % buf.length ≠ (front + 1 + k) % buf.length :=
        (mod_ne_of_lt (by omega) (by omega)).symm
      rw [List.getElem?_set_ne hne, h.slot k hlt, List.getElem_append_left hlt]

/-- **The first item** lies in the first slot, and the others behind it. -/
theorem Holds.pop {buf items : List α} {front : Nat} {x : α} (h : Holds buf front (x :: items)) :
    buf[(front + 1) % buf.length]? = some x ∧ Holds buf (front + 1) items := by
  refine ⟨h.slot 0 (Nat.succ_pos _), Nat.le_of_succ_le h.le, fun k hk => ?_⟩
  have hnext := h.slot (k + 1) (Nat.succ_lt_succ hk)
  have hindex : front + 1 + (k + 1) = front + 1 + 1 + k := by omega
  rwa [hindex] at hnext

end Ring

end InternetLabs
