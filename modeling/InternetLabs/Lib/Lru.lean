/-
# `InternetLabs.Lib.Lru` — set-associative caches that evict the oldest line

A set is the list of the tags it holds, the one accessed last in front, so the
line whose last access is oldest is the last one of the list.  Tags and set
indices are arbitrary types with decidable equality.
-/
import Mathlib.Algebra.Group.Defs
import Mathlib.Logic.Function.Basic

namespace InternetLabs.Lru

/-! ## One set

A set is the list of its tags, with the one used last in front. -/

/-- What an access comes to: the line is there, an empty one is filled, or the
oldest one is replaced. -/
inductive Outcome where
  | hit
  | fill
  | evict
deriving DecidableEq

section Touch
variable {α : Type*} [DecidableEq α]

/-- An access to `t` in a set of `cap` lines. -/
def touch (cap : Nat) (l : List α) (t : α) : List α × Outcome :=
  if t ∈ l then (t :: l.erase t, .hit)
  else if l.length < cap then (t :: l, .fill)
  else (t :: l.dropLast, .evict)

variable {cap : Nat} {l : List α} {t : α}

theorem touch_of_mem (h : t ∈ l) : touch cap l t = (t :: l.erase t, .hit) := if_pos h

theorem touch_of_lt (h : t ∉ l) (hlt : l.length < cap) : touch cap l t = (t :: l, .fill) := by
  rw [touch, if_neg h, if_pos hlt]

theorem touch_of_full (h : t ∉ l) (hle : cap ≤ l.length) :
    touch cap l t = (t :: l.dropLast, .evict) := by
  rw [touch, if_neg h, if_neg (Nat.not_lt_of_le hle)]

theorem mem_of_mem_touch {x : α} (h : x ∈ (touch cap l t).1) : x = t ∨ x ∈ l := by
  unfold touch at h
  split at h
  · exact (List.mem_cons.mp h).imp_right List.mem_of_mem_erase
  · split at h
    · exact List.mem_cons.mp h
    · exact (List.mem_cons.mp h).imp_right (List.dropLast_subset l ·)

end Touch

/-! ## The counts -/

/-- Hits, misses and evictions. -/
structure Tally where
  hits : Nat
  misses : Nat
  evictions : Nat
deriving DecidableEq

def Tally.zero : Tally := ⟨0, 0, 0⟩

instance : Zero Tally := ⟨.zero⟩

instance : Add Tally :=
  ⟨fun c d => ⟨c.hits + d.hits, c.misses + d.misses, c.evictions + d.evictions⟩⟩

theorem Tally.add_def (c d : Tally) :
    c + d = ⟨c.hits + d.hits, c.misses + d.misses, c.evictions + d.evictions⟩ := rfl

instance : AddCommMonoid Tally where
  add_assoc c d e := by simp only [Tally.add_def, Nat.add_assoc]
  zero_add c := by
    change (⟨0 + c.hits, 0 + c.misses, 0 + c.evictions⟩ : Tally) = c
    simp only [Nat.zero_add]
  add_zero c := rfl
  add_comm c d := by
    simp only [Tally.add_def, Nat.add_comm]
  nsmul := nsmulRec

def Tally.add (c : Tally) : Outcome → Tally
  | .hit => { c with hits := c.hits + 1 }
  | .fill => { c with misses := c.misses + 1 }
  | .evict => { c with misses := c.misses + 1, evictions := c.evictions + 1 }

/-! ## A cache -/

section Cache
variable {ι α : Type*} [DecidableEq ι] [DecidableEq α]

/-- The sets and the counts so far. -/
structure Cache (ι α : Type*) where
  sets : ι → List α
  tally : Tally

def Cache.empty : Cache ι α := ⟨fun _ => [], .zero⟩

/-- An access to the tag `t` in the set `i`. -/
def Cache.access (cap : Nat) (c : Cache ι α) (i : ι) (t : α) : Cache ι α where
  sets := Function.update c.sets i (touch cap (c.sets i) t).1
  tally := c.tally.add (touch cap (c.sets i) t).2

end Cache

end InternetLabs.Lru
