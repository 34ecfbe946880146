/-
# `InternetLabs.Csapp.Sbuf` — the shared buffer of the prethreaded server

`sbuf_insert` and `sbuf_remove` of `sbuf.c`, called by any threads at any time.  Each operation
on a semaphore is one step, and so is each access to the buffer; the threads take their steps in
any order (`Sbuf.system`).  `inserted` and `removed` are what has been put into the buffer and
taken out of it so far.

**The invariant** (`Sbuf.Inv`).  The buffer is a ring (`InternetLabs.Lib.Ring`) of the items
that are in it.  What a semaphore does not count is with a thread: `SbufAt.slot` is a slot that
a thread has for itself, `SbufAt.item` an item in the buffer that is not announced, or promised
to the thread, and `SbufAt.critical` is the lock.
-/
import InternetLabs.Lib.Ring
import InternetLabs.Lib.System

namespace InternetLabs.Csapp

open InternetLabs

/-- `sbuf_t`. -/
structure Sbuf where
  buf : List Int
  n : Nat
  front : Nat
  rear : Nat
  mutex : Nat
  slots : Nat
  items : Nat

/-- What a thread does next in `sbuf_insert` or `sbuf_remove`. -/
inductive SbufAt where
  | outside
  | insertSlots (item : Int)
  | insertLock (item : Int)
  | insertStore (item : Int)
  | insertUnlock
  | insertItems
  | removeItems
  | removeLock
  | removeLoad
  | removeUnlock (item : Int)
  | removeSlots (item : Int)
deriving DecidableEq

namespace Sbuf

variable {ι : Type} [DecidableEq ι]

/-- The buffer, where the threads are, and what has happened. -/
structure State (ι : Type) where
  sp : Sbuf
  place : ι → SbufAt
  inserted : List Int
  removed : List (ι × Int)

/-- A thread calls one of the functions, or goes on in it. -/
inductive Action (ι : Type) where
  | insert (i : ι) (item : Int)
  | remove (i : ι)
  | go (i : ι)
deriving DecidableEq

/-- Thread `i` is at `w` now. -/
def State.move (s : State ι) (i : ι) (w : SbufAt) : State ι :=
  { s with place := Function.update s.place i w }

/-- `sp->buf[(++sp->rear)%(sp->n)] = item`; undefined (`none`) where the counter is at its largest
value. -/
def store (sp : Sbuf) (item : Int) : Option Sbuf :=
  if sp.rear + 1 < 2 ^ 31 ∧ (sp.rear + 1) % sp.n < sp.buf.length then
    some { sp with rear := sp.rear + 1, buf := sp.buf.set ((sp.rear + 1) % sp.n) item }
  else none

/-- `item = sp->buf[(++sp->front)%(sp->n)]`. -/
def load (sp : Sbuf) : Option (Int × Sbuf) :=
  if sp.front + 1 < 2 ^ 31 then
    sp.buf[(sp.front + 1) % sp.n]?.map fun item => (item, { sp with front := sp.front + 1 })
  else none

/-- Thread `i` goes on. -/
def goStep (s : State ι) (i : ι) : Option (State ι) :=
  match s.place i with
  | .outside => none
  | .insertSlots item =>
      if 0 < s.sp.slots then
        some { s.move i (.insertLock item) with sp := { s.sp with slots := s.sp.slots - 1 } }
      else none
  | .insertLock item =>
      if 0 < s.sp.mutex then
        some { s.move i (.insertStore item) with sp := { s.sp with mutex := s.sp.mutex - 1 } }
      else none
  | .insertStore item =>
      (store s.sp item).map fun sp =>
        { s.move i .insertUnlock with sp := sp, inserted := s.inserted ++ [item] }
  | .insertUnlock =>
      some { s.move i .insertItems with sp := { s.sp with mutex := s.sp.mutex + 1 } }
  | .insertItems => some { s.move i .outside with sp := { s.sp with items := s.sp.items + 1 } }
  | .removeItems =>
      if 0 < s.sp.items then
        some { s.move i .removeLock with sp := { s.sp with items := s.sp.items - 1 } }
      else none
  | .removeLock =>
      if 0 < s.sp.mutex then
        some { s.move i .removeLoad with sp := { s.sp with mutex := s.sp.mutex - 1 } }
      else none
  | .removeLoad =>
      (load s.sp).map fun (item, sp) =>
        { s.move i (.removeUnlock item) with sp := sp, removed := s.removed ++ [(i, item)] }
  | .removeUnlock item =>
      some { s.move i (.removeSlots item) with sp := { s.sp with mutex := s.sp.mutex + 1 } }
  | .removeSlots _ => some { s.move i .outside with sp := { s.sp with slots := s.sp.slots + 1 } }

def step (a : Action ι) (s : State ι) : Option (State ι) :=
  match a with
  | .insert i item => if s.place i = .outside then some (s.move i (.insertSlots item)) else none
  | .remove i => if s.place i = .outside then some (s.move i .removeItems) else none
  | .go i => goStep s i

/-- `sbuf_init(sp, n)` has been called: the buffer is empty, in a block of any content. -/
structure Start (n : Nat) (s : State ι) : Prop where
  size : s.sp.n = n
  buf : s.sp.buf.length = n
  front : s.sp.front = 0
  rear : s.sp.rear = 0
  mutex : s.sp.mutex = 1
  slots : s.sp.slots = n
  items : s.sp.items = 0
  outside : ∀ i, s.place i = .outside
  inserted : s.inserted = []
  removed : s.removed = []

/-- Threads that share a buffer of `n` slots. -/
def system (ι : Type) [DecidableEq ι] (n : Nat) : System (State ι) (Action ι) :=
  .ofStep (Start n) step

end Sbuf

/-! ## What a thread holds

Items, slots and the lock are at every moment in the semaphores or with a thread; the
invariant counts them. -/

namespace SbufAt

/-- A slot with nothing in it that no other thread may use. -/
def slot : SbufAt → Nat
  | insertLock _ | insertStore _ | removeUnlock _ | removeSlots _ => 1
  | _ => 0

/-- An item in the buffer that `items` does not count. -/
def item : SbufAt → Nat
  | insertUnlock | insertItems | removeLock | removeLoad => 1
  | _ => 0

/-- The lock. -/
def critical : SbufAt → Nat
  | insertStore _ | insertUnlock | removeLoad | removeUnlock _ => 1
  | _ => 0

/-- An item on its way into the buffer, or out of it. -/
def carried : SbufAt → List Int
  | insertSlots item | insertLock item | insertStore item | removeUnlock item | removeSlots item =>
      [item]
  | _ => []

/-- An item on its way into the buffer. -/
def inserting : SbufAt → List Int
  | insertSlots item | insertLock item | insertStore item => [item]
  | _ => []

/-- The function the thread is in: `sbuf_insert` (`true`) or `sbuf_remove`. -/
def inside : SbufAt → Option Bool
  | outside => none
  | insertSlots _ | insertLock _ | insertStore _ | insertUnlock | insertItems => some true
  | removeItems | removeLock | removeLoad | removeUnlock _ | removeSlots _ => some false

theorem inserting_of_inside {w : SbufAt} (h : w.inside ≠ some true) : w.inserting = [] := by
  cases w <;> first | rfl | exact (h rfl).elim

/-- What the function returns when the thread goes on. -/
def returned : SbufAt → List Int
  | removeSlots item => [item]
  | _ => []

theorem returned_of_inside {w : SbufAt} (h : w.inside ≠ some false) : w.returned = [] := by
  cases w <;> first | rfl | exact (h rfl).elim

/-- A thread passes a semaphore from `w` to `w'`: what it holds and what the semaphores count stays
together. -/
structure Passes (sp : Sbuf) (mutex slots items : Nat) (w w' : SbufAt) : Prop where
  slots : slots + w'.slot = sp.slots + w.slot
  items : items + w'.item = sp.items + w.item
  mutex : mutex + w'.critical = sp.mutex + w.critical
  carried : w.carried = w'.carried ++ w.returned
  inserting : w'.inserting = w.inserting
  inside : w' = .outside ∨ w'.inside = w.inside

end SbufAt

namespace Sbuf

variable {ι : Type} [DecidableEq ι]

theorem goStep_returned {s s' : State ι} {i : ι} {item : Int} (hat : s.place i = .removeSlots item)
    (hs : goStep s i = some s') : s'.place i = .outside := by
  simp only [goStep, hat, Option.some.injEq] at hs
  subst hs
  exact Function.update_self _ _ _

theorem place_of_stuck {s : State ι} {i : ι} (hfree : s.sp.mutex = 1)
    (hcritical : (s.place i).critical = 0)
    (hi : goStep s i = none) : s.place i = .outside ∨
      (∃ item, s.place i = .insertSlots item ∧ s.sp.slots = 0) ∨
        (s.place i = .removeItems ∧ s.sp.items = 0) := by
  unfold goStep at hi
  cases hat : s.place i <;> rw [hat] at hi hcritical <;> try cases hcritical
  case outside => exact Or.inl rfl
  case insertSlots item =>
    exact Or.inr (Or.inl ⟨item, rfl, by simpa using hi⟩)
  case removeItems => exact Or.inr (Or.inr ⟨rfl, by simpa using hi⟩)
  case insertLock item => simp [hfree] at hi
  case removeLock => simp [hfree] at hi
  all_goals cases hi

/-- A thread that goes on passes a semaphore, or accesses the buffer. -/
theorem goStep_cases {s s' : State ι} {i : ι} (hs : goStep s i = some s') :
    (∃ w mutex slots items, (s.place i).Passes s.sp mutex slots items w ∧
      s' = { s.move i w with
        sp := { s.sp with mutex := mutex, slots := slots, items := items } }) ∨
    (∃ item sp, s.place i = .insertStore item ∧ store s.sp item = some sp ∧
      s' = { s.move i .insertUnlock with sp := sp, inserted := s.inserted ++ [item] }) ∨
    ∃ item sp, s.place i = .removeLoad ∧ load s.sp = some (item, sp) ∧
      s' = { s.move i (.removeUnlock item) with
        sp := sp, removed := s.removed ++ [(i, item)] } := by
  unfold goStep at hs
  split at hs
  · cases hs
  next item hat =>
    obtain ⟨hpos, hs⟩ := Option.ite_none_right_eq_some.mp hs
    cases hs
    refine .inl ⟨_, _, _, _, ?_, rfl⟩
    rw [hat]
    exact ⟨Nat.sub_add_cancel hpos, rfl, rfl, rfl, rfl, .inr rfl⟩
  next item hat =>
    obtain ⟨hpos, hs⟩ := Option.ite_none_right_eq_some.mp hs
    cases hs
    refine .inl ⟨_, _, _, _, ?_, rfl⟩
    rw [hat]
    exact ⟨rfl, rfl, Nat.sub_add_cancel hpos, rfl, rfl, .inr rfl⟩
  next item hat =>
    obtain ⟨sp, hstore, rfl⟩ := Option.map_eq_some_iff.mp hs
    exact .inr (.inl ⟨item, sp, hat, hstore, rfl⟩)
  next hat =>
    cases hs
    refine .inl ⟨_, _, _, _, ?_, rfl⟩
    rw [hat]
    exact ⟨rfl, rfl, rfl, rfl, rfl, .inr rfl⟩
  next hat =>
    cases hs
    refine .inl ⟨_, _, _, _, ?_, rfl⟩
    rw [hat]
    exact ⟨rfl, rfl, rfl, rfl, rfl, .inl rfl⟩
  next hat =>
    obtain ⟨hpos, hs⟩ := Option.ite_none_right_eq_some.mp hs
    cases hs
    refine .inl ⟨_, _, _, _, ?_, rfl⟩
    rw [hat]
    exact ⟨rfl, Nat.sub_add_cancel hpos, rfl, rfl, rfl, .inr rfl⟩
  next hat =>
    obtain ⟨hpos, hs⟩ := Option.ite_none_right_eq_some.mp hs
    cases hs
    refine .inl ⟨_, _, _, _, ?_, rfl⟩
    rw [hat]
    exact ⟨rfl, rfl, Nat.sub_add_cancel hpos, rfl, rfl, .inr rfl⟩
  next hat =>
    obtain ⟨⟨item, sp⟩, hload, rfl⟩ := Option.map_eq_some_iff.mp hs
    exact .inr (.inr ⟨item, sp, hat, hload, rfl⟩)
  next item hat =>
    cases hs
    refine .inl ⟨_, _, _, _, ?_, rfl⟩
    rw [hat]
    exact ⟨rfl, rfl, rfl, rfl, rfl, .inr rfl⟩
  next item hat =>
    cases hs
    refine .inl ⟨_, _, _, _, ?_, rfl⟩
    rw [hat]
    exact ⟨rfl, rfl, rfl, rfl, rfl, .inl rfl⟩

variable [Fintype ι]

/-- **The invariant**, with the items in the buffer. -/
structure Inv (n : Nat) (s : State ι) (items : List Int) : Prop where
  size : s.sp.n = n
  buf : s.sp.buf.length = n
  ring : Ring.Holds s.sp.buf s.sp.front items
  front : s.sp.front = s.removed.length
  rear : s.sp.rear = s.inserted.length
  bound : s.sp.rear < 2 ^ 31
  log : s.inserted = s.removed.map Prod.snd ++ items
  slots : s.sp.slots + items.length + ∑ i, (s.place i).slot = n
  items : s.sp.items + ∑ i, (s.place i).item = items.length
  mutex : s.sp.mutex + ∑ i, (s.place i).critical = 1

omit [DecidableEq ι] in
theorem Inv.count {n : Nat} {s : State ι} {items : List Int} (h : Inv n s items) :
    s.inserted.length = s.removed.length + items.length := by
  rw [h.log, List.length_append, List.length_map]

/-- A thread goes on, and the semaphores and the items change by what it holds. -/
theorem Inv.move {n : Nat} {s : State ι} {items items' : List Int} (h : Inv n s items) {i : ι}
    {w : SbufAt} {sp : Sbuf} {inserted : List Int} {removed : List (ι × Int)}
    (hn : sp.n = n) (hbuf : sp.buf.length = n) (hring : Ring.Holds sp.buf sp.front items')
    (hfront : sp.front = removed.length) (hrear : sp.rear = inserted.length)
    (hbound : sp.rear < 2 ^ 31) (hlog : inserted = removed.map Prod.snd ++ items')
    (hslots : sp.slots + items'.length + w.slot = s.sp.slots + items.length + (s.place i).slot)
    (hitems : sp.items + w.item + items.length = s.sp.items + (s.place i).item + items'.length)
    (hmutex : sp.mutex + w.critical = s.sp.mutex + (s.place i).critical) :
    Inv n { s.move i w with sp := sp, inserted := inserted, removed := removed } items' := by
  have hslot := sum_update SbufAt.slot s.place i w
  have hitem := sum_update SbufAt.item s.place i w
  have hcritical := sum_update SbufAt.critical s.place i w
  have hslots' := h.slots
  have hitems' := h.items
  have hmutex' := h.mutex
  refine ⟨hn, hbuf, hring, hfront, hrear, hbound, hlog, ?_, ?_, ?_⟩
  all_goals
    simp only [State.move] at *
    omega

/-- A step on a semaphore. -/
theorem Inv.semaphore {n : Nat} {s : State ι} {items : List Int} (h : Inv n s items) {i : ι}
    {w : SbufAt} {mutex slots sitems : Nat}
    (hslots : slots + w.slot = s.sp.slots + (s.place i).slot)
    (hitems : sitems + w.item = s.sp.items + (s.place i).item)
    (hmutex : mutex + w.critical = s.sp.mutex + (s.place i).critical) :
    Inv n { s.move i w with sp := { s.sp with mutex := mutex, slots := slots, items := sitems } }
      items :=
  h.move h.size h.buf h.ring h.front h.rear h.bound h.log (by dsimp only; omega)
    (by dsimp only; omega) hmutex

/-- An item that is stored comes behind the others. -/
theorem Inv.store {n : Nat} {s : State ι} {items : List Int} (h : Inv n s items) {i : ι}
    {item : Int} (hat : s.place i = .insertStore item) {sp : Sbuf}
    (hstore : store s.sp item = some sp) :
    Inv n { s.move i .insertUnlock with sp := sp, inserted := s.inserted ++ [item] }
      (items ++ [item]) := by
  obtain ⟨⟨hbound, -⟩, hsp⟩ := Option.ite_none_right_eq_some.mp hstore
  obtain rfl := Option.some.inj hsp
  have hslot : 1 ≤ ∑ j, (s.place j).slot := by
    have hle := le_sum_pool SbufAt.slot s.place i
    rwa [hat] at hle
  have hslots := h.slots
  have hcount : s.inserted.length = s.removed.length + items.length := by
    rw [h.log, List.length_append, List.length_map]
  have hring := h.ring.push (by rw [h.buf]; omega) item
  have hindex : s.sp.front + items.length + 1 = s.sp.rear + 1 := by rw [h.front, h.rear, hcount]
  rw [hindex, h.buf, ← h.size] at hring
  refine h.move h.size (by rw [List.length_set, h.buf]) hring h.front ?_ hbound ?_ ?_ ?_ ?_
  · rw [h.rear, List.length_append, List.length_singleton]
  · rw [h.log, List.append_assoc]
    rfl
  · simp only [hat, SbufAt.slot, List.length_append, List.length_singleton]
    omega
  · simp only [hat, SbufAt.item, List.length_append, List.length_singleton]
    omega
  · rw [hat]
    rfl

/-- The first item is the one that is loaded. -/
theorem Inv.load {n : Nat} {s : State ι} {items : List Int} (h : Inv n s items) {i : ι}
    (hat : s.place i = .removeLoad) {item : Int} {sp : Sbuf}
    (hload : load s.sp = some (item, sp)) : ∃ items', items = item :: items' ∧
      Inv n { s.move i (.removeUnlock item) with sp := sp, removed := s.removed ++ [(i, item)] }
        items' := by
  have hitem : 1 ≤ ∑ j, (s.place j).item := by
    have hle := le_sum_pool SbufAt.item s.place i
    rwa [hat] at hle
  have hitems := h.items
  obtain ⟨x, items', rfl⟩ := List.exists_cons_of_length_pos (l := items) (by omega)
  obtain ⟨hfirst, hring⟩ := h.ring.pop
  rw [h.buf, ← h.size] at hfirst
  obtain ⟨-, hload⟩ := Option.ite_none_right_eq_some.mp hload
  rw [hfirst] at hload
  obtain ⟨rfl, rfl⟩ := Prod.mk.inj (Option.some.inj hload)
  refine ⟨items', rfl, h.move h.size h.buf hring ?_ h.rear h.bound ?_ ?_ ?_ ?_⟩
  · rw [h.front, List.length_append, List.length_singleton]
  · rw [List.map_append, List.append_assoc]
    exact h.log
  · simp only [hat, SbufAt.slot, List.length_cons]
    omega
  · simp only [hat, SbufAt.item, List.length_cons]
    omega
  · rw [hat]
    rfl

theorem goStep_inv {n : Nat} {s s' : State ι} {items : List Int} (h : Inv n s items) {i : ι}
    (hs : goStep s i = some s') : ∃ items', Inv n s' items' := by
  obtain ⟨w, mutex, slots, sitems, hw, rfl⟩ | ⟨item, sp, hat, hstore, rfl⟩ |
    ⟨item, sp, hat, hload, rfl⟩ := goStep_cases hs
  · exact ⟨items, h.semaphore hw.slots hw.items hw.mutex⟩
  · exact ⟨_, h.store hat hstore⟩
  · obtain ⟨items', -, hinv⟩ := h.load hat hload
    exact ⟨items', hinv⟩

/-- **Every step keeps the invariant.** -/
theorem step_inv {n : Nat} {s s' : State ι} {items : List Int} {a : Action ι} (h : Inv n s items)
    (hs : step a s = some s') : ∃ items', Inv n s' items' := by
  cases a with
  | insert i item =>
      obtain ⟨hat, hs⟩ := Option.ite_none_right_eq_some.mp hs
      cases hs
      refine ⟨items, h.semaphore ?_ ?_ ?_⟩ <;> rw [hat] <;> rfl
  | remove i =>
      obtain ⟨hat, hs⟩ := Option.ite_none_right_eq_some.mp hs
      cases hs
      refine ⟨items, h.semaphore ?_ ?_ ?_⟩ <;> rw [hat] <;> rfl
  | go i => exact goStep_inv h hs

/-- **Every run keeps it.** -/
theorem run_inv {n : Nat} {past : List (State ι × Action ι)} {s : State ι}
    (h : (system ι n).Run past s) : ∃ items, Inv n s items := by
  refine h.invariant (I := fun _ s => ∃ items, Inv n s items) (fun s hs => ?_)
    fun past s a s' ih hs => ?_
  · refine ⟨[], hs.size, hs.buf, Ring.holds_nil _ _, ?_, ?_, ?_, ?_, ?_, ?_, ?_⟩
    all_goals
      simp [hs.front, hs.rear, hs.mutex, hs.slots, hs.items, hs.outside, hs.inserted, hs.removed,
        SbufAt.slot, SbufAt.item, SbufAt.critical]
  · obtain ⟨items, hitems⟩ := ih
    exact step_inv hitems hs

/-! ## Where the items are

Every item is in the buffer or on its way, and is returned to one thread. -/

/-- The items that have been inserted and not removed. -/
def State.waiting {ι : Type} (s : State ι) : List Int := s.inserted.drop s.removed.length

omit [DecidableEq ι] in
theorem Inv.waiting_eq {n : Nat} {s : State ι} {items : List Int} (h : Inv n s items) :
    s.waiting = items := by
  rw [State.waiting, h.log, ← List.length_map Prod.snd, List.drop_left]

/-- How often an item is in the buffer, or on its way into it or out of it. -/
def State.held (s : State ι) (x : Int) : Nat :=
  s.waiting.count x + ∑ j, (s.place j).carried.count x

omit [Fintype ι] in
theorem State.move_place (s : State ι) (i : ι) (w : SbufAt) :
    (s.move i w).place = Function.update s.place i w :=
  rfl

theorem State.held_update {s s' : State ι} {i : ι} {w : SbufAt}
    (hplace : s'.place = Function.update s.place i w) (x : Int) :
    s'.held x + s.waiting.count x + (s.place i).carried.count x
      = s.held x + s'.waiting.count x + w.carried.count x := by
  have hsum := sum_update (fun w => w.carried.count x) s.place i w
  rw [State.held, State.held, hplace]
  omega

/-- **No item is lost or doubled** on its way: what a function returns leaves the system. -/
theorem goStep_held {n : Nat} {s s' : State ι} {items : List Int} (h : Inv n s items) {i : ι}
    (hs : goStep s i = some s') (x : Int) :
    s'.held x + (s.place i).returned.count x = s.held x := by
  obtain ⟨w, mutex, slots, sitems, hw, hs'⟩ | ⟨item, sp, hat, hstore, hs'⟩ |
    ⟨item, sp, hat, hload, hs'⟩ := goStep_cases hs
  · have hplace : s'.place = Function.update s.place i w := by rw [hs']; rfl
    have hwaiting : s'.waiting = s.waiting := by rw [hs']; rfl
    have hheld := State.held_update hplace x
    rw [hw.carried, List.count_append, hwaiting] at hheld
    omega
  · have hplace : s'.place = Function.update s.place i .insertUnlock := by rw [hs']; rfl
    have hwaiting : s'.waiting = items ++ [item] := by rw [hs', (h.store hat hstore).waiting_eq]
    have hheld := State.held_update hplace x
    rw [hwaiting, h.waiting_eq, hat, List.count_append] at hheld
    rw [hat]
    simp only [SbufAt.carried, SbufAt.returned, List.count_nil] at hheld ⊢
    omega
  · obtain ⟨items', rfl, hinv⟩ := h.load hat hload
    have hplace : s'.place = Function.update s.place i (.removeUnlock item) := by rw [hs']; rfl
    have hwaiting : s'.waiting = items' := by rw [hs', hinv.waiting_eq]
    have hheld := State.held_update hplace x
    rw [hwaiting, h.waiting_eq, hat] at hheld
    rw [hat]
    simp only [SbufAt.carried, SbufAt.returned, List.count_cons, List.count_nil] at hheld ⊢
    omega

omit [Fintype ι] in
theorem goStep_place {s s' : State ι} {i j : ι} (hs : goStep s i = some s') (hij : j ≠ i) :
    s'.place j = s.place j := by
  obtain ⟨w, mutex, slots, items, -, rfl⟩ | ⟨item, sp, -, -, rfl⟩ | ⟨item, sp, -, -, rfl⟩ :=
    goStep_cases hs <;> exact Function.update_of_ne hij _ _

omit [Fintype ι] in
theorem goStep_inside {s s' : State ι} {i : ι} (hs : goStep s i = some s') :
    s'.place i = .outside ∨ (s'.place i).inside = (s.place i).inside := by
  obtain ⟨w, mutex, slots, items, hw, rfl⟩ | ⟨item, sp, hat, -, rfl⟩ | ⟨item, sp, hat, -, rfl⟩ :=
    goStep_cases hs
  · simpa only [State.move, Function.update_self] using hw.inside
  all_goals
    right
    simp only [State.move, Function.update_self, hat]
    rfl

omit [Fintype ι] in
/-- What a thread is about to insert comes behind what has been inserted. -/
theorem goStep_inserted {s s' : State ι} {i : ι} (hs : goStep s i = some s') :
    s'.inserted ++ (s'.place i).inserting = s.inserted ++ (s.place i).inserting := by
  obtain ⟨w, mutex, slots, items, hw, rfl⟩ | ⟨item, sp, hat, -, rfl⟩ | ⟨item, sp, hat, -, rfl⟩ :=
    goStep_cases hs
  · simp only [State.move, Function.update_self, hw.inserting]
  all_goals
    simp only [State.move, Function.update_self, hat, SbufAt.inserting, List.append_nil]

theorem insert_held {s s' : State ι} {i : ι} {item : Int} (hs : step (.insert i item) s = some s')
    (x : Int) : s'.held x = s.held x + [item].count x := by
  obtain ⟨hat, hs⟩ := Option.ite_none_right_eq_some.mp hs
  cases hs
  have hwaiting : (s.move i (.insertSlots item)).waiting = s.waiting := rfl
  have hheld := State.held_update (s.move_place i (.insertSlots item)) x
  rw [hwaiting, hat] at hheld
  simp only [SbufAt.carried, List.count_nil] at hheld
  omega

theorem remove_held {s s' : State ι} {i : ι} (hs : step (.remove i) s = some s') (x : Int) :
    s'.held x = s.held x := by
  obtain ⟨hat, hs⟩ := Option.ite_none_right_eq_some.mp hs
  cases hs
  have hwaiting : (s.move i .removeItems).waiting = s.waiting := rfl
  have hheld := State.held_update (s.move_place i .removeItems) x
  rw [hwaiting, hat] at hheld
  simp only [SbufAt.carried, List.count_nil] at hheld
  omega

/-! ## What the threads see -/

section Runs
variable {n : Nat} {past : List (State ι × Action ι)} {s : State ι}

/-- The counter of the buffer is at its end exactly when that many items have been inserted. -/
theorem Inv.store_isSome {items : List Int} (h : Inv n s items) {i : ι} {item : Int}
    (hat : s.place i = .insertStore item) :
    (Sbuf.store s.sp item).isSome ↔ s.inserted.length + 1 < 2 ^ 31 := by
  have hslot : 1 ≤ ∑ j, (s.place j).slot := by
    have hle := le_sum_pool SbufAt.slot s.place i
    rwa [hat] at hle
  have hslots := h.slots
  have hindex : (s.sp.rear + 1) % s.sp.n < s.sp.buf.length := by
    rw [h.buf, h.size]
    exact Nat.mod_lt _ (by omega)
  simp [Sbuf.store, ← h.rear, hindex]

/-- A thread that is about to load finds the first item that nobody has removed. -/
theorem Inv.load_eq {items : List Int} (h : Inv n s items) {i : ι} (hat : s.place i = .removeLoad) :
    ∃ item items' sp, items = item :: items' ∧ Sbuf.load s.sp = some (item, sp) := by
  have hitem : 1 ≤ ∑ j, (s.place j).item := by
    have hle := le_sum_pool SbufAt.item s.place i
    rwa [hat] at hle
  have hitems := h.items
  obtain ⟨item, items', rfl⟩ := List.exists_cons_of_length_pos (l := items) (by omega)
  have hfirst := h.ring.pop.1
  rw [h.buf, ← h.size] at hfirst
  have hbound := h.bound
  have hcount := h.count
  have hfront := h.front
  have hrear := h.rear
  rw [List.length_cons] at hcount
  refine ⟨item, items', { s.sp with front := s.sp.front + 1 }, rfl, ?_⟩
  rw [Sbuf.load, if_pos (by omega), hfirst, Option.map_some]

/-- **The shared buffer is a bounded FIFO**, whatever threads insert and remove and in whatever
order they go on: what has been removed is the front of what has been inserted, no more than `n`
items are in the buffer, one thread at a time accesses it, a thread that is about to store has
room unless a counter of the buffer has come to its end, and one that is about to load gets the
item that is next. -/
theorem sbuf_fifo (h : (system ι n).Run past s) :
    s.removed.map Prod.snd <+: s.inserted ∧ s.inserted.length ≤ s.removed.length + n ∧
      (∀ i j, (s.place i).critical = 1 → (s.place j).critical = 1 → i = j) ∧
      (∀ i item, s.place i = .insertStore item →
        ((Sbuf.store s.sp item).isSome ↔ s.inserted.length + 1 < 2 ^ 31)) ∧
      ∀ i, s.place i = .removeLoad → ∃ item rest sp, Sbuf.load s.sp = some (item, sp) ∧
        s.inserted = s.removed.map Prod.snd ++ item :: rest := by
  obtain ⟨items, hinv⟩ := run_inv h
  have hcount := hinv.count
  have hle := hinv.ring.le
  have hbuf := hinv.buf
  refine ⟨?_, by omega, fun i j hi hj => ?_, fun i item hat => hinv.store_isSome hat,
    fun i hat => ?_⟩
  · rw [hinv.log]
    exact List.prefix_append _ _
  · by_contra hij
    have htwo := add_le_sum_pool SbufAt.critical s.place hij
    have hmutex := hinv.mutex
    omega
  · obtain ⟨item, rest, sp, rfl, hload⟩ := hinv.load_eq hat
    exact ⟨item, rest, sp, hload, hinv.log⟩

/-- What keeps a thread from going on: it has not called a function, or waits for a slot in a full
buffer, or for an item in an empty one. -/
def State.Waits (n : Nat) (s : State ι) (i : ι) : Prop :=
  s.place i = .outside ∨
    ((∃ item, s.place i = .insertSlots item) ∧ s.inserted.length = s.removed.length + n) ∨
      (s.place i = .removeItems ∧ s.inserted.length = s.removed.length)

theorem Inv.critical_of_stuck {items : List Int} (h : Inv n s items)
    (hlt : s.inserted.length + 1 < 2 ^ 31) {i : ι} (hi : goStep s i = none) :
    (s.place i).critical = 0 := by
  unfold goStep at hi
  cases hat : s.place i <;> rw [hat] at hi <;> try rfl
  case insertStore item =>
    have hstore := (h.store_isSome hat).mpr hlt
    rw [Option.map_eq_none_iff.mp hi] at hstore
    cases hstore
  case removeLoad =>
    obtain ⟨item, rest, sp, -, hload⟩ := h.load_eq hat
    rw [hload] at hi
    cases hi
  all_goals cases hi

/-- **No deadlock.**  While the `int` counters are not at their end, no thread can go on exactly
when each of them waits with reason. -/
theorem sbuf_progress (h : (system ι n).Run past s) (hlt : s.inserted.length + 1 < 2 ^ 31) :
    (∀ i, goStep s i = none) ↔ ∀ i, s.Waits n i := by
  obtain ⟨items, hinv⟩ := run_inv h
  have hcount := hinv.count
  have hslots := hinv.slots
  have hitems := hinv.items
  have hmutex := hinv.mutex
  constructor
  · intro hstuck
    -- nobody has the lock, since whoever has it can go on
    have hcritical : ∀ i, (s.place i).critical = 0 := fun i =>
      hinv.critical_of_stuck hlt (hstuck i)
    have hfree : s.sp.mutex = 1 := by
      rw [Finset.sum_eq_zero fun i _ => hcritical i] at hmutex
      omega
    have hplace : ∀ i, s.place i = .outside ∨
        (∃ item, s.place i = .insertSlots item ∧ s.sp.slots = 0) ∨
          (s.place i = .removeItems ∧ s.sp.items = 0) := fun i =>
      place_of_stuck hfree (hcritical i) (hstuck i)
    have hslot : ∑ i, (s.place i).slot = 0 := Finset.sum_eq_zero fun i _ => by
      obtain hi | ⟨item, hi, -⟩ | ⟨hi, -⟩ := hplace i <;> rw [hi] <;> rfl
    have hitem : ∑ i, (s.place i).item = 0 := Finset.sum_eq_zero fun i _ => by
      obtain hi | ⟨item, hi, -⟩ | ⟨hi, -⟩ := hplace i <;> rw [hi] <;> rfl
    intro i
    obtain hi | ⟨item, hi, hfull⟩ | ⟨hi, hempty⟩ := hplace i
    · exact Or.inl hi
    · exact Or.inr (Or.inl ⟨⟨item, hi⟩, by omega⟩)
    · exact Or.inr (Or.inr ⟨hi, by omega⟩)
  · intro hwaits i
    obtain hi | ⟨⟨item, hi⟩, hfull⟩ | ⟨hi, hempty⟩ := hwaits i
    · rw [goStep, hi]
    · rw [goStep, hi]
      exact if_neg (by omega)
    · rw [goStep, hi]
      exact if_neg (by omega)

end Runs

/-! ## Two threads with a buffer of one slot -/

def State.shared : State Bool where
  sp := ⟨[0], 1, 0, 0, 1, 1, 0⟩
  place _ := .outside
  inserted := []
  removed := []

theorem State.shared_start : Start 1 State.shared :=
  ⟨rfl, rfl, rfl, rfl, rfl, rfl, rfl, fun _ => rfl, rfl, rfl⟩

/-- A call of `sbuf_insert` that does not wait. -/
def insertion (i : Bool) (item : Int) : List (Action Bool) :=
  .insert i item :: List.replicate 5 (.go i)

theorem sbuf_fifo_shared : ∃ past s, (system Bool 1).Run past s ∧
    ∃ item rest sp, load s.sp = some (item, sp) ∧
      s.inserted = s.removed.map Prod.snd ++ item :: rest := by
  have hexec : ((System.exec step (insertion true 7 ++ [.remove false, .go false, .go false])
      State.shared).any fun s => decide (s.place false = .removeLoad)) = true := by decide +kernel
  obtain ⟨s, hs, hplace⟩ := (Option.any_eq_true _ _).mp hexec
  have hstart : (system Bool 1).Run [] State.shared := .start State.shared_start
  obtain ⟨past, -, hrun⟩ := hstart.exec hs
  exact ⟨past, s, hrun, (sbuf_fifo hrun).2.2.2.2 false (of_decide_eq_true hplace)⟩

theorem sbuf_progress_shared : ∃ past s, (system Bool 1).Run past s ∧
    s.place true = .insertSlots 8 ∧ ∀ i, s.Waits 1 i := by
  have hexec : ((System.exec step (insertion true 7 ++ [.insert true 8]) State.shared).any fun s =>
      decide (s.place true = .insertSlots 8 ∧ s.inserted.length = 1 ∧
        (goStep s true).isNone ∧ (goStep s false).isNone)) = true := by decide +kernel
  obtain ⟨s, hs, hplace⟩ := (Option.any_eq_true _ _).mp hexec
  obtain ⟨hat, hcount, htrue, hfalse⟩ := of_decide_eq_true hplace
  have hstart : (system Bool 1).Run [] State.shared := .start State.shared_start
  obtain ⟨past, -, hrun⟩ := hstart.exec hs
  refine ⟨past, s, hrun, hat, (sbuf_progress hrun (by rw [hcount]; decide)).mp fun i => ?_⟩
  cases i with
  | true => exact Option.isNone_iff_eq_none.mp htrue
  | false => exact Option.isNone_iff_eq_none.mp hfalse

end Sbuf

end InternetLabs.Csapp
