/-
# `InternetLabs.Lib.Heap` — `malloc`, `free` and who owns the blocks

A heap is the list of the blocks that were allocated, with what each holds until it is
freed.  An address is a place in the list and is given once, so a pointer to a block that
was freed dangles for good.

**Ownership.**  `h.Owns is`: the blocks `is` are live, and no two of them are the same.
Whoever owns a list of blocks can free them, in any order, and keeps what was not freed:
`Owns.free`, `Owns.freeAll`.  What a block holds is there until the block is freed
(`Holds.malloc`, `Holds.release`), and what was freed faults at any later use
(`load_of_mem_freeAll`).
-/
import Mathlib.Data.List.ReduceOption
import Mathlib.Data.List.Nodup

namespace InternetLabs

/-- What a program must not do with memory: the three ways to misuse a pointer, and to
leave a block or an array. -/
inductive Fault where
  | null
  | dangling
  | freedTwice
  | overrun
deriving DecidableEq

/-- A pointer: `NULL`, or the address of a block. -/
abbrev Ptr := Option Nat

/-- The blocks in the order of their allocation; a block that was freed holds nothing. -/
structure Heap (α : Type*) where
  blocks : List (Option α)
deriving DecidableEq

namespace Heap

variable {α : Type*} {h : Heap α} {a b : α} {i j : Nat}

def empty : Heap α := ⟨[]⟩

/-- The address the next block gets. -/
def fresh (h : Heap α) : Nat := h.blocks.length

/-- `malloc`, of a block that is to hold `a`; its address is `h.fresh`. -/
def malloc (h : Heap α) (a : α) : Heap α := ⟨h.blocks ++ [some a]⟩

/-- The heap without the block `i`. -/
def release (h : Heap α) (i : Nat) : Heap α := ⟨h.blocks.set i none⟩

/-- What the block holds that `p` points to. -/
def load (h : Heap α) (p : Ptr) : Except Fault α :=
  match p with
  | none => .error .null
  | some i =>
      match h.blocks[i]? with
      | some (some a) => .ok a
      | _ => .error .dangling

/-- `free`, which does nothing to `NULL`. -/
def free (h : Heap α) (p : Ptr) : Except Fault (Heap α) :=
  match p with
  | none => .ok h
  | some i =>
      match h.blocks[i]? with
      | some (some _) => .ok (h.release i)
      | _ => .error .freedTwice

/-- One `free` after the other. -/
def freeAll (h : Heap α) (ps : List Ptr) : Except Fault (Heap α) := ps.foldlM free h

/-- The block `i` is live and holds `a`. -/
def Holds (h : Heap α) (i : Nat) (a : α) : Prop := h.blocks[i]? = some (some a)

/-- The blocks are live, and no two of them are the same. -/
structure Owns (h : Heap α) (is : List Nat) : Prop where
  nodup : is.Nodup
  live : ∀ i ∈ is, ∃ a, h.Holds i a

/-! ## What a block holds -/

@[simp] theorem fresh_malloc (h : Heap α) (a : α) : (h.malloc a).fresh = h.fresh + 1 :=
  List.length_append

theorem Holds.load (hi : h.Holds i a) : h.load (some i) = .ok a := by
  simp only [Heap.load, show h.blocks[i]? = some (some a) from hi]

theorem Holds.free_eq (hi : h.Holds i a) : h.free (some i) = .ok (h.release i) := by
  simp only [Heap.free, show h.blocks[i]? = some (some a) from hi]

theorem Holds.lt_fresh (hi : h.Holds i a) : i < h.fresh := by
  obtain ⟨hlt, -⟩ := List.getElem?_eq_some_iff.mp hi
  exact hlt

theorem holds_fresh (h : Heap α) (a : α) : (h.malloc a).Holds h.fresh a :=
  List.getElem?_concat_length

theorem Holds.malloc (hi : h.Holds i a) (b : α) : (h.malloc b).Holds i a :=
  (List.getElem?_append_left hi.lt_fresh).trans hi

theorem Holds.release (hi : h.Holds i a) (hne : i ≠ j) : (h.release j).Holds i a :=
  (List.getElem?_set_ne hne.symm).trans hi

theorem load_freed (h : Heap α) (i : Nat) : (h.release i).load (some i) = .error .dangling := by
  have hnone : ∀ a, (h.blocks.set i none)[i]? ≠ some (some a) := by
    intro a ha
    obtain ⟨hlt, ha⟩ := List.getElem?_eq_some_iff.mp ha
    rw [List.getElem_set_self] at ha
    cases ha
  rw [Heap.load]
  split
  · next a ha => exact absurd ha (hnone a)
  · rfl

theorem load_release {p : Ptr} (hp : h.load p = .error .dangling) (j : Nat) :
    (h.release j).load p = .error .dangling := by
  cases p with
  | none => cases hp
  | some i =>
      by_cases hij : i = j
      · rw [hij, load_freed]
      · have hsame : (h.release j).blocks[i]? = h.blocks[i]? := List.getElem?_set_ne (Ne.symm hij)
        simpa only [Heap.load, hsame] using hp

/-! ## Ownership

Blocks that are owned are live and distinct, so that freeing one leaves the others. -/

theorem owns_nil (h : Heap α) : h.Owns [] := ⟨List.nodup_nil, by simp⟩

theorem Owns.holds {is : List Nat} (ho : h.Owns (i :: is)) : ∃ a, h.Holds i a :=
  ho.live i List.mem_cons_self

theorem Owns.notMem {is : List Nat} (ho : h.Owns (i :: is)) : i ∉ is :=
  (List.nodup_cons.mp ho.nodup).1

theorem Owns.perm {is js : List Nat} (ho : h.Owns is) (hp : is.Perm js) : h.Owns js where
  nodup := hp.nodup_iff.mp ho.nodup
  live i hi := ho.live i (hp.mem_iff.mpr hi)

theorem Owns.sublist {is js : List Nat} (ho : h.Owns is) (hs : js.Sublist is) : h.Owns js where
  nodup := ho.nodup.sublist hs
  live i hi := ho.live i (hs.mem hi)

/-- A new block is owned with the others. -/
theorem Owns.malloc {is : List Nat} (ho : h.Owns is) (a : α) :
    (h.malloc a).Owns (h.fresh :: is) where
  nodup := List.nodup_cons.mpr ⟨fun hmem => by
    obtain ⟨b, hb⟩ := ho.live _ hmem
    exact absurd hb.lt_fresh (Nat.lt_irrefl _), ho.nodup⟩
  live i hi := by
    rcases List.mem_cons.mp hi with rfl | hi
    · exact ⟨a, holds_fresh h a⟩
    · obtain ⟨b, hb⟩ := ho.live i hi
      exact ⟨b, hb.malloc a⟩

theorem Owns.release {is : List Nat} (ho : h.Owns (i :: is)) : (h.release i).Owns is where
  nodup := (List.nodup_cons.mp ho.nodup).2
  live j hj := by
    obtain ⟨a, ha⟩ := ho.live j (List.mem_cons_of_mem i hj)
    exact ⟨a, ha.release fun heq => ho.notMem (heq ▸ hj)⟩

theorem Owns.free {is : List Nat} (ho : h.Owns (i :: is)) :
    h.free (some i) = .ok (h.release i) ∧ (h.release i).Owns is := by
  obtain ⟨a, ha⟩ := ho.holds
  exact ⟨ha.free_eq, ho.release⟩

/-- **Whoever owns blocks can free them**, each once.  The others stay, with what they
hold. -/
theorem Owns.freeAll {ps : List Ptr} {is : List Nat} (ho : h.Owns (ps.reduceOption ++ is)) :
    ∃ h', h.freeAll ps = .ok h' ∧ h'.Owns is ∧
      ∀ j a, j ∉ ps.reduceOption → h.Holds j a → h'.Holds j a := by
  induction ps generalizing h with
  | nil => exact ⟨h, rfl, ho, fun _ _ _ hj => hj⟩
  | cons p ps ih =>
      cases p with
      | none =>
          rw [List.reduceOption_cons_of_none] at ho ⊢
          exact ih ho
      | some i =>
          rw [List.reduceOption_cons_of_some, List.cons_append] at ho
          obtain ⟨hfree, ho'⟩ := ho.free
          obtain ⟨h', hall, howns, hkeep⟩ := ih ho'
          refine ⟨h', ?_, howns, fun j a hj hja => ?_⟩
          · rw [Heap.freeAll, List.foldlM_cons, hfree]
            exact hall
          · rw [List.reduceOption_cons_of_some, List.mem_cons, not_or] at hj
            exact hkeep j a hj.2 (hja.release hj.1)

/-! ## What was freed

Addresses are not given out again, so a pointer that dangles once does so for ever. -/

theorem free_cases {h' : Heap α} {p : Ptr} (hfree : h.free p = .ok h') :
    (p = none ∧ h' = h) ∨ ∃ i, p = some i ∧ h' = h.release i := by
  cases p with
  | none => exact .inl ⟨rfl, (Except.ok.inj hfree).symm⟩
  | some i =>
      rw [Heap.free] at hfree
      split at hfree
      · exact .inr ⟨i, rfl, (Except.ok.inj hfree).symm⟩
      · cases hfree

theorem load_freeAll {ps : List Ptr} {h' : Heap α} {p : Ptr} (hp : h.load p = .error .dangling)
    (hall : h.freeAll ps = .ok h') : h'.load p = .error .dangling := by
  induction ps generalizing h with
  | nil => cases hall; exact hp
  | cons q ps ih =>
      rw [Heap.freeAll, List.foldlM_cons] at hall
      cases hfree : h.free q with
      | error fault => rw [hfree] at hall; cases hall
      | ok h₁ =>
          rw [hfree] at hall
          rcases free_cases hfree with ⟨-, rfl⟩ | ⟨i, -, rfl⟩
          · exact ih hp hall
          · exact ih (load_release hp i) hall

/-- **Use after free**, whatever was freed with it. -/
theorem load_of_mem_freeAll {ps : List Ptr} {h' : Heap α} (hi : some i ∈ ps)
    (hall : h.freeAll ps = .ok h') : h'.load (some i) = .error .dangling := by
  induction ps generalizing h with
  | nil => cases hi
  | cons q ps ih =>
      rw [Heap.freeAll, List.foldlM_cons] at hall
      cases hfree : h.free q with
      | error fault => rw [hfree] at hall; cases hall
      | ok h₁ =>
          rw [hfree] at hall
          rcases List.mem_cons.mp hi with rfl | hi
          · rcases free_cases hfree with ⟨hnone, -⟩ | ⟨j, hj, rfl⟩
            · cases hnone
            · cases hj
              exact load_freeAll (load_freed h i) hall
          · exact ih hi hall

end Heap

/-! ## Runs that misuse no pointer -/

/-- A run that follows no pointer it must not, and frees nothing twice: if it faults, it
leaves a block. -/
def NoMisuse {α : Type*} (r : Except Fault α) : Prop := ∀ fault, r = .error fault → fault = .overrun

section NoMisuse
universe u
variable {α β : Type u}

theorem noMisuse_ok (a : α) : NoMisuse (.ok a) := fun _ h => by cases h

theorem noMisuse_overrun : NoMisuse (.error .overrun : Except Fault α) := fun _ h => by
  cases h
  rfl

theorem NoMisuse.bind {x : Except Fault α} {f : α → Except Fault β} (hx : NoMisuse x)
    (hf : ∀ a, x = .ok a → NoMisuse (f a)) : NoMisuse (x >>= f) := by
  cases hrun : x with
  | error fault =>
      intro fault' h
      cases h
      exact hx _ hrun
  | ok a => exact hf a hrun

theorem noMisuse_ite {c : Prop} [Decidable c] {x y : Except Fault α} (hx : NoMisuse x)
    (hy : NoMisuse y) : NoMisuse (if c then x else y) := by
  split
  · exact hx
  · exact hy

theorem not_noMisuse {fault : Fault} (hne : fault ≠ .overrun) :
    ¬ NoMisuse (.error fault : Except Fault α) := fun h => hne (h fault rfl)

end NoMisuse

end InternetLabs
