/-
# `InternetLabs.ThreadedServer.Queue` — the clients that wait for a thread

The main thread of the threaded server hands the clients it accepts to its worker
threads through an array with a counter of the entries in use.  `push` writes behind
the last entry, `pop` takes the first one and shifts the others down by one.

The array stands for a list, its entries in use (`Waiting`); `push_waiting` and
`pop_waiting` say that the two are append and head on it.
-/
import InternetLabs.Lib.Bytes

namespace InternetLabs.ThreadedServer

open InternetLabs

/-- `queue_item_t`: an accepted socket and the address of its peer. -/
structure QueueItem where
  client : Int
  clientAddr : Bytes
  clientAddrLen : Nat
deriving DecidableEq

/-- `push`; undefined (`none`) where it writes outside the array. -/
def push (queue : List QueueItem) (qSize : Int) (item : QueueItem) :
    Option (List QueueItem × Int) :=
  if 0 ≤ qSize ∧ qSize < queue.length then some (queue.set qSize.toNat item, qSize + 1) else none

/-- The loop of `pop` from `i` on, with `n` rounds to go. -/
def shift : Nat → Nat → List QueueItem → Option (List QueueItem)
  | 0, _, queue => some queue
  | n + 1, i, queue => do
      let item ← queue[i]?
      shift n (i + 1) (queue.set (i - 1) item)

/-- `pop`. -/
def pop (queue : List QueueItem) (qSize : Int) : Option (QueueItem × List QueueItem × Int) := do
  let item ← queue[0]?
  let queue ← shift (qSize - 1).toNat 1 queue
  some (item, queue, qSize - 1)

/-! ## The list it stands for

The entries in use are those in front; `pop` moves them down. -/

/-- The entries in use are `items`. -/
structure Waiting (queue : List QueueItem) (qSize : Int) (items : List QueueItem) : Prop where
  qSize : qSize = items.length
  items : items <+: queue

/-- **`push` appends**, where there is room. -/
theorem push_waiting {queue items : List QueueItem} {qSize : Int} (h : Waiting queue qSize items)
    (hroom : items.length < queue.length) (item : QueueItem) :
    ∃ queue', push queue qSize item = some (queue', qSize + 1) ∧
      queue'.length = queue.length ∧ Waiting queue' (qSize + 1) (items ++ [item]) := by
  obtain ⟨hsize, rest, rfl⟩ := h
  match rest with
  | [] => simp at hroom
  | old :: rest =>
      have hbound : 0 ≤ qSize ∧ qSize < (items ++ old :: rest).length := by
        simp only [List.length_append, List.length_cons]
        omega
      have hset : (items ++ old :: rest).set qSize.toNat item = items ++ item :: rest := by
        rw [hsize, Int.toNat_natCast, List.set_append_right _ _ (Nat.le_refl _), Nat.sub_self]
        rfl
      refine ⟨items ++ item :: rest, by rw [push, if_pos hbound, hset], by simp, ?_, rest, by simp⟩
      rw [hsize, List.length_append]
      rfl

theorem shift_eq (pre : List QueueItem) (a : QueueItem) (ys rest : List QueueItem) :
    ∃ last, shift ys.length (pre.length + 1) (pre ++ a :: (ys ++ rest))
      = some (pre ++ (ys ++ last :: rest)) := by
  induction ys generalizing pre a with
  | nil => exact ⟨a, rfl⟩
  | cons y ys ih =>
      obtain ⟨last, hlast⟩ := ih (pre ++ [y]) y
      refine ⟨last, ?_⟩
      have hget : (pre ++ a :: (y :: ys ++ rest))[pre.length + 1]? = some y := by
        rw [List.getElem?_append_right (Nat.le_add_right _ _), Nat.add_sub_cancel_left]
        rfl
      have hset : (pre ++ a :: (y :: ys ++ rest)).set pre.length y
          = (pre ++ [y]) ++ y :: (ys ++ rest) := by
        rw [List.set_append_right _ _ (Nat.le_refl _), Nat.sub_self]
        simp
      rw [List.length_append, List.append_assoc pre [y] (ys ++ last :: rest)] at hlast
      rw [List.length_cons, shift, hget, Option.bind_eq_bind, Option.bind_some, Nat.add_sub_cancel,
        hset]
      exact hlast

/-- **`pop` takes the head.** -/
theorem pop_waiting {queue items : List QueueItem} {item : QueueItem} {qSize : Int}
    (h : Waiting queue qSize (item :: items)) :
    ∃ queue', pop queue qSize = some (item, queue', qSize - 1) ∧
      queue'.length = queue.length ∧ Waiting queue' (qSize - 1) items := by
  obtain ⟨hsize, rest, rfl⟩ := h
  obtain ⟨last, hshift⟩ := shift_eq [] item items rest
  have hrounds : (qSize - 1).toNat = items.length := by
    rw [hsize, List.length_cons]
    omega
  refine ⟨items ++ last :: rest, ?_, by simp +arith, ?_, List.prefix_append _ _⟩
  · rw [List.nil_append] at hshift
    rw [List.cons_append, pop, hrounds]
    simp only [List.getElem?_cons_zero, bind, Option.bind]
    rw [show (1 : Nat) = ([] : List QueueItem).length + 1 from rfl, hshift]
    rfl
  · rw [hsize, List.length_cons]
    omega

end InternetLabs.ThreadedServer
