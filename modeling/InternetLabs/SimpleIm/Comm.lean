/-
# `InternetLabs.SimpleIm.Comm` — sending and receiving a given number of bytes

`send_comm` and `recv_comm` of `simple_im.c` are the same loop around `send` and `recv`
(`Comm.round`), with a cursor into the buffer and the number of bytes that are left.  A call that
fails for another reason than a signal is reported, and then its result, -1, is added to the
cursor and taken off the count like any other.

Without such a call the bytes moved are the first ones, in order, and the cursor stands behind
them (`Progress`).  With every such call there is one byte more to be moved (`Balance`), so that
of the runs that return 0 exactly those without one have moved `length` bytes.
-/
import InternetLabs.Lib.Bytes
import InternetLabs.Lib.System
import Mathlib.Data.List.Range

namespace InternetLabs.SimpleIm

open InternetLabs

/-! ## The loop -/

/-- What a call of `send` or `recv` comes to: it moves bytes or none, a signal interrupts it, or
it fails otherwise. -/
inductive Outcome where
  | moved (n : Nat)
  | closed
  | interrupted
  | failed
deriving DecidableEq

/-- Where the function is. -/
inductive Phase where
  | running
  | returned (r : Int)
  | fault
deriving DecidableEq

/-- The variables of the loop, `ptr` as an offset from `buffer`, and what the calls work on. -/
structure Comm (σ : Type) where
  ptr : Int
  bytesLeft : Int
  phase : Phase
  data : σ

/-- The largest `int`. -/
def intMax : Int := 2 ^ 31 - 1

namespace Comm

variable {σ : Type}

/-- `while (bytes_left)`, and the `return` behind it. -/
def test (s : Comm σ) : Comm σ :=
  if s.bytesLeft = 0 then { s with phase := .returned 0 } else s

/-- `ptr += bytes; bytes_left -= bytes;`, and the next test. -/
def advance (s : Comm σ) (bytes : Int) : Comm σ :=
  if s.bytesLeft - bytes ≤ intMax then
    test { s with ptr := s.ptr + bytes, bytesLeft := s.bytesLeft - bytes }
  else { s with phase := .fault }

/-- One round.  `move ptr n` is what the call does to the data when it moves `n` bytes, `none`
where these are not all in the buffer. -/
def round (move : Int → Nat → σ → Option σ) (o : Outcome) (s : Comm σ) : Option (Comm σ) :=
  if s.phase ≠ .running then none
  else
    match o with
    | .moved n =>
        if 0 < n ∧ n ≤ s.bytesLeft then
          match move s.ptr n s.data with
          | none => some { s with phase := .fault }
          | some data => some (advance { s with data := data } n)
        else none
    | .closed => some { s with phase := .returned (-1) }
    | .interrupted => some s.test
    | .failed => some (s.advance (-1))

/-- The variables before the first round. -/
def start (length : Nat) (data : σ) : Comm σ :=
  test { ptr := 0, bytesLeft := length, phase := .running, data := data }

theorem round_cases {move : Int → Nat → σ → Option σ} {o : Outcome} {s s' : Comm σ}
    (h : round move o s = some s') : s.phase = .running ∧
      ((∃ n : Nat, o = .moved n ∧ 0 < n ∧ n ≤ s.bytesLeft ∧
          ((move s.ptr n s.data = none ∧ s' = { s with phase := .fault }) ∨
            ∃ d, move s.ptr n s.data = some d ∧ s' = advance { s with data := d } n)) ∨
        (o = .closed ∧ s' = { s with phase := .returned (-1) }) ∨
        (o = .interrupted ∧ s' = s.test) ∨ (o = .failed ∧ s' = s.advance (-1))) := by
  unfold round at h
  split at h
  · cases h
  · next hrunning =>
    refine ⟨not_not.mp hrunning, ?_⟩
    cases o with
    | moved n =>
        dsimp only at h
        split at h
        · next hn =>
          refine .inl ⟨n, rfl, hn.1, hn.2, ?_⟩
          cases hmove : move s.ptr n s.data with
          | none =>
              rw [hmove] at h
              exact .inl ⟨rfl, (Option.some.inj h).symm⟩
          | some d =>
              rw [hmove] at h
              exact .inr ⟨d, rfl, (Option.some.inj h).symm⟩
        · cases h
    | closed => exact .inr (.inl ⟨rfl, (Option.some.inj h).symm⟩)
    | interrupted => exact .inr (.inr (.inl ⟨rfl, (Option.some.inj h).symm⟩))
    | failed => exact .inr (.inr (.inr ⟨rfl, (Option.some.inj h).symm⟩))

/-- The loop, for whatever the calls come to. -/
def system (move : Int → Nat → σ → Option σ) (length : Nat) (data : σ) :
    System (Comm σ) Outcome :=
  System.ofStep (fun s => s = start length data) (round move)

end Comm

/-! ## The two functions

The same loop twice, with `send` and with `recv`. -/

/-- What the socket accepts of `n` bytes at `ptr`. -/
def sendAt (buffer : Bytes) (ptr : Int) (n : Nat) (accepted : Bytes) : Option Bytes :=
  if 0 ≤ ptr ∧ ptr + n ≤ buffer.length then
    some (accepted ++ (buffer.drop ptr.toNat).take n)
  else none

/-- `send_comm(socket, buffer, length)`. -/
def sendComm (buffer : Bytes) (length : Nat) : System (Comm Bytes) Outcome :=
  Comm.system (sendAt buffer) length []

/-- The memory at `buffer`, and how many bytes of the stream have been read. -/
structure Received where
  buffer : Bytes
  count : Nat

/-- `n` bytes of the stream, from the `i`-th on. -/
def streamBytes (stream : Nat → UInt8) (i n : Nat) : Bytes := (List.range' i n).map stream

/-- Where the next `n` bytes of the stream go. -/
def recvAt (stream : Nat → UInt8) (ptr : Int) (n : Nat) (r : Received) : Option Received :=
  if 0 ≤ ptr ∧ ptr + n ≤ r.buffer.length then
    some ⟨writeAt r.buffer ptr.toNat (streamBytes stream r.count n), r.count + n⟩
  else none

/-- `recv_comm(socket, buffer, length)`, with `stream` coming in. -/
def recvComm (buffer : Bytes) (stream : Nat → UInt8) (length : Nat) :
    System (Comm Received) Outcome :=
  Comm.system (recvAt stream) length ⟨buffer, 0⟩

/-! ## What they should do -/

/-- The socket has accepted the first `k` bytes of the buffer. -/
def SentFirst (buffer : Bytes) (k : Nat) (accepted : Bytes) : Prop := accepted = buffer.take k

/-- The first `k` bytes of the stream are in the buffer, and nothing else has changed. -/
def ReceivedFirst (buffer : Bytes) (stream : Nat → UInt8) (k : Nat) (r : Received) : Prop :=
  r = ⟨streamBytes stream 0 k ++ buffer.drop k, k⟩

/-- The bytes moved are the first `k`, of `length` at most; the cursor is in the buffer, and 0 is
returned only once all are moved. -/
structure Exact {σ : Type} (first : Nat → σ → Prop) (length : Nat) (s : Comm σ) : Prop where
  moved : ∃ k ≤ length, first k s.data ∧ (s.phase = .returned 0 → k = length)
  cursor : 0 ≤ s.ptr ∧ s.ptr ≤ length
  noFault : s.phase ≠ .fault

/-! ## Without a failed call -/

section Progress
variable {σ : Type} {move : Int → Nat → σ → Option σ} {first : Nat → σ → Prop} {length : Nat}

/-- The first `k` bytes have been moved, and the cursor is behind them. -/
structure Progress (first : Nat → σ → Prop) (length : Nat) (s : Comm σ) (k : Nat) : Prop where
  le : k ≤ length
  first : first k s.data
  ptr : s.ptr = k
  bytesLeft : s.bytesLeft = length - k
  noFault : s.phase ≠ .fault
  done : s.phase = .returned 0 → k = length

theorem Progress.exact {s : Comm σ} {k : Nat} (h : Progress first length s k) :
    Exact first length s where
  moved := ⟨k, h.le, h.first, h.done⟩
  cursor := by
    have hle := h.le
    rw [h.ptr]
    omega
  noFault := h.noFault

theorem Progress.test {s : Comm σ} {k : Nat} (h : Progress first length s k) :
    Progress first length s.test k := by
  have hle := h.le
  have hleft := h.bytesLeft
  rw [Comm.test]
  split
  · exact ⟨h.le, h.first, h.ptr, h.bytesLeft, nofun, fun _ => by omega⟩
  · exact h

theorem progress_start {data : σ} (hfirst : first 0 data) :
    Progress first length (Comm.start length data) 0 := by
  refine Progress.test ⟨Nat.zero_le _, hfirst, rfl, ?_, nofun, nofun⟩
  rw [Nat.cast_zero, sub_zero]

/-- **One round.** -/
theorem Progress.round (hint : length ≤ intMax)
    (hmove : ∀ k n d, first k d → k + n ≤ length → ∃ d', move k n d = some d' ∧ first (k + n) d')
    {s s' : Comm σ} {o : Outcome} {k : Nat} (h : Progress first length s k) (ho : o ≠ .failed)
    (hs : Comm.round move o s = some s') : ∃ k', Progress first length s' k' := by
  have hle := h.le
  have hleft := h.bytesLeft
  obtain ⟨hrunning, hcases⟩ := Comm.round_cases hs
  rcases hcases with ⟨n, rfl, -, hn, hmoved⟩ | ⟨rfl, rfl⟩ | ⟨rfl, rfl⟩ | ⟨rfl, -⟩
  · obtain ⟨d', hd', hfirst⟩ := hmove k n s.data h.first (by omega)
    rw [h.ptr, hd'] at hmoved
    obtain ⟨hnone, -⟩ | ⟨d, hd, rfl⟩ := hmoved
    · cases hnone
    · obtain rfl := Option.some.inj hd
      refine ⟨k + n, ?_⟩
      have hfits : s.bytesLeft - n ≤ intMax := by omega
      rw [Comm.advance, if_pos hfits]
      refine Progress.test ⟨by omega, hfirst, ?_, ?_, h.noFault, fun hret => ?_⟩
      · exact (Nat.cast_add k n).symm
      · change s.bytesLeft - n = _
        omega
      · cases hrunning.symm.trans hret
  · exact ⟨k, h.le, h.first, h.ptr, h.bytesLeft, nofun, nofun⟩
  · exact ⟨k, h.test⟩
  · exact absurd rfl ho

/-- **A run without a failed call.** -/
theorem always_exact (hint : length ≤ intMax)
    (hmove : ∀ k n d, first k d → k + n ≤ length → ∃ d', move k n d = some d' ∧ first (k + n) d')
    {data : σ} (hfirst : first 0 data) {past : List (Comm σ × Outcome)} {s : Comm σ}
    (h : (Comm.system move length data).Run past s) (hpast : ∀ x ∈ past, x.2 ≠ .failed) :
    System.Always (Exact first length) past s := by
  have hprogress : System.Always (fun s => ∃ k, Progress first length s k) past s := by
    refine h.always_of (P := fun _ o => o ≠ .failed) ?_ ?_ hpast
    · rintro s rfl
      exact ⟨0, progress_start hfirst⟩
    · rintro o s s' ⟨k, hk⟩ ho hs
      exact hk.round hint hmove ho hs
  exact ⟨fun x hx => (hprogress.1 x hx).elim fun _ => Progress.exact,
    hprogress.2.elim fun _ => Progress.exact⟩

end Progress

/-! ## With failed calls

A call that fails returns -1, which the loop takes for a number of bytes. -/

section Count
variable {σ : Type} {move : Int → Nat → σ → Option σ} {size : σ → Nat} {length : Nat}

/-- The calls that have failed. -/
def failures (past : List (Comm σ × Outcome)) : Nat :=
  past.countP fun x => decide (x.2 = .failed)

theorem failures_concat (past : List (Comm σ × Outcome)) (s : Comm σ) (o : Outcome) :
    failures (past ++ [(s, o)]) = failures past + if o = .failed then 1 else 0 := by
  rw [failures, List.countP_append, List.countP_singleton]
  simp only [failures, decide_eq_true_eq]

theorem failures_eq_zero {past : List (Comm σ × Outcome)} :
    failures past = 0 ↔ ∀ x ∈ past, x.2 ≠ .failed := by
  rw [failures, List.countP_eq_zero]
  simp only [decide_eq_true_eq, ne_eq]

/-- What has been moved and what is left: with every failed call there is one byte more. -/
structure Balance (size : σ → Nat) (length failed : Nat) (s : Comm σ) : Prop where
  total : s.phase ≠ .fault → size s.data + s.bytesLeft = length + failed
  done : s.phase = .returned 0 → s.bytesLeft = 0

theorem balance_test {failed : Nat} {s : Comm σ} (hrunning : s.phase = .running)
    (h : size s.data + s.bytesLeft = length + failed) : Balance size length failed s.test := by
  rw [Comm.test]
  split
  · next hzero => exact ⟨fun _ => h, fun _ => hzero⟩
  · exact ⟨fun _ => h, fun hret => nomatch hrunning.symm.trans hret⟩

theorem balance_advance {failed : Nat} {s : Comm σ} {bytes : Int} (hrunning : s.phase = .running)
    (h : size s.data + (s.bytesLeft - bytes) = length + failed) :
    Balance size length failed (s.advance bytes) := by
  rw [Comm.advance]
  split
  · exact balance_test hrunning h
  · exact ⟨fun hfault => absurd rfl hfault, nofun⟩

/-- **A run with failed calls.** -/
theorem balance_of_run {data : σ} (hsize : size data = 0)
    (hmove : ∀ ptr n d d', move ptr n d = some d' → size d' = size d + n)
    {past : List (Comm σ × Outcome)} {s : Comm σ}
    (h : (Comm.system move length data).Run past s) : Balance size length (failures past) s := by
  refine h.invariant (I := fun past s => Balance size length (failures past) s) ?_ ?_
  · rintro s rfl
    refine balance_test rfl ?_
    change (size data : Int) + length = length + (0 : ℕ)
    rw [hsize, Nat.cast_zero, zero_add, add_zero]
  · intro past s o s' hI hs
    obtain ⟨hrunning, hcases⟩ := Comm.round_cases hs
    have htotal := hI.total (by rw [hrunning]; nofun)
    rw [failures_concat]
    rcases hcases with ⟨n, rfl, -, -, ⟨-, rfl⟩ | ⟨d, hd, rfl⟩⟩ | ⟨rfl, rfl⟩ | ⟨rfl, rfl⟩ |
      ⟨rfl, rfl⟩
    · exact ⟨fun hfault => absurd rfl hfault, nofun⟩
    · refine balance_advance hrunning ?_
      have hd' := hmove _ _ _ _ hd
      change (size d : Int) + (s.bytesLeft - n) = length + (failures past : ℕ)
      omega
    · exact ⟨fun _ => htotal, nofun⟩
    · exact balance_test hrunning htotal
    · refine balance_advance hrunning ?_
      rw [if_pos rfl]
      omega

/-- **What a call that returns 0 has moved.** -/
theorem exact_iff_of_returned (size : σ → Nat) (hint : length ≤ intMax) {first : Nat → σ → Prop}
    (hfirst : ∀ k d, k ≤ length → first k d → size d = k)
    (hmoves : ∀ k n d, first k d → k + n ≤ length → ∃ d', move k n d = some d' ∧ first (k + n) d')
    (hmove : ∀ ptr n d d', move ptr n d = some d' → size d' = size d + n)
    {data : σ} (hdata : first 0 data) {past : List (Comm σ × Outcome)} {s : Comm σ}
    (h : (Comm.system move length data).Run past s) (hret : s.phase = .returned 0) :
    Exact first length s ↔ ∀ x ∈ past, x.2 ≠ .failed := by
  refine ⟨fun hexact => ?_, fun hpast => (always_exact hint hmoves hdata h hpast).2⟩
  have hbalance := balance_of_run (hfirst 0 data (Nat.zero_le _) hdata) hmove h
  obtain ⟨k, hk, hd, hdone⟩ := hexact.moved
  have hsize := hfirst k s.data hk hd
  have htotal := hbalance.total (by rw [hret]; nofun)
  have hzero := hbalance.done hret
  have hlength := hdone hret
  rw [← failures_eq_zero]
  omega

end Count

/-! ## `send_comm` and `recv_comm` -/

section Functions
variable {buffer : Bytes} {stream : Nat → UInt8} {length : Nat}

theorem length_streamBytes (stream : Nat → UInt8) (i n : Nat) :
    (streamBytes stream i n).length = n := by
  rw [streamBytes, List.length_map, List.length_range']

theorem streamBytes_add (stream : Nat → UInt8) (k n : Nat) :
    streamBytes stream 0 (k + n) = streamBytes stream 0 k ++ streamBytes stream k n := by
  rw [streamBytes, streamBytes, streamBytes, ← List.map_append]
  congr 1
  have h := @List.range'_append 0 k n 1
  rw [Nat.zero_add, Nat.one_mul] at h
  exact h.symm

theorem sendAt_first (hlength : length ≤ buffer.length) {k n : Nat} {accepted : Bytes}
    (h : SentFirst buffer k accepted) (hn : k + n ≤ length) :
    ∃ accepted', sendAt buffer k n accepted = some accepted' ∧
      SentFirst buffer (k + n) accepted' := by
  rw [sendAt, if_pos (by omega), h]
  exact ⟨_, rfl, (List.take_add ..).symm⟩

theorem length_sendAt {ptr : Int} {n : Nat} {accepted accepted' : Bytes}
    (h : sendAt buffer ptr n accepted = some accepted') :
    accepted'.length = accepted.length + n := by
  rw [sendAt] at h
  split at h
  · obtain rfl := Option.some.inj h
    rw [List.length_append, List.length_take, List.length_drop]
    omega
  · cases h

theorem recvAt_first (hlength : length ≤ buffer.length) {k n : Nat} {r : Received}
    (h : ReceivedFirst buffer stream k r) (hn : k + n ≤ length) :
    ∃ r', recvAt stream k n r = some r' ∧ ReceivedFirst buffer stream (k + n) r' := by
  have hlen : (streamBytes stream 0 k ++ buffer.drop k).length = buffer.length := by
    rw [List.length_append, length_streamBytes, List.length_drop]
    omega
  have hwrite := writeAt_built (streamBytes stream 0 k) buffer (streamBytes stream k n)
  rw [← streamBytes_add, length_streamBytes, length_streamBytes] at hwrite
  rw [recvAt, h, if_pos (by rw [hlen]; omega), Int.toNat_natCast, hwrite]
  exact ⟨_, rfl, rfl⟩

theorem count_recvAt {ptr : Int} {n : Nat} {r r' : Received} (h : recvAt stream ptr n r = some r') :
    r'.count = r.count + n := by
  rw [recvAt] at h
  split at h
  · obtain rfl := Option.some.inj h
    rfl
  · cases h

end Functions

/-- As long as no call fails all is as it should be; and if 0 is returned, only then. -/
def ExactUnlessFailed {σ : Type} (S : System (Comm σ) Outcome) (first : Nat → σ → Prop)
    (length : Nat) : Prop :=
  ∀ past s, S.Run past s →
    ((∀ x ∈ past, x.2 ≠ .failed) → System.Always (Exact first length) past s) ∧
    (s.phase = .returned 0 → (Exact first length s ↔ ∀ x ∈ past, x.2 ≠ .failed))

/-- **`send_comm` and `recv_comm`.** -/
theorem comm_exact {buffer : Bytes} {length : Nat} (hlength : length ≤ buffer.length)
    (hint : length ≤ intMax) (stream : Nat → UInt8) :
    ExactUnlessFailed (sendComm buffer length) (SentFirst buffer) length ∧
      ExactUnlessFailed (recvComm buffer stream length) (ReceivedFirst buffer stream) length := by
  constructor
  · intro past s h
    refine ⟨always_exact hint (fun k n d => sendAt_first hlength) rfl h,
      exact_iff_of_returned List.length hint ?_ (fun k n d => sendAt_first hlength)
        (fun ptr n d d' => length_sendAt) rfl h⟩
    rintro k d hk rfl
    rw [List.length_take]
    omega
  · intro past s h
    refine ⟨always_exact hint (fun k n d => recvAt_first hlength) rfl h,
      exact_iff_of_returned Received.count hint ?_ (fun k n d => recvAt_first hlength)
        (fun ptr n d d' => count_recvAt) rfl h⟩
    rintro k d - rfl
    rfl

/-- `ab` goes out in two parts, and with a signal in between. -/
theorem comm_exact_ab : ∃ past s, (sendComm (ascii "ab") 2).Run past s ∧
    s.phase = .returned 0 ∧ Exact (SentFirst (ascii "ab")) 2 s := by
  have hexec : System.exec (Comm.round (sendAt (ascii "ab"))) [.moved 1, .interrupted, .moved 1]
      (Comm.start 2 []) = some ⟨2, 0, .returned 0, ascii "ab"⟩ := rfl
  have hrun := (System.Run.start rfl : (sendComm (ascii "ab") 2).Run [] _).steps hexec
  refine ⟨_, _, hrun, rfl, ?_⟩
  exact (((comm_exact (by decide) (by decide) fun _ => 0).1 _ _ hrun).2 rfl).mpr (by decide)

/-- With a call that fails in between one byte goes out twice, and one is overwritten. -/
theorem not_comm_exact :
    (¬ ∀ (buffer : Bytes) (length : Nat), length ≤ buffer.length → ∀ past s,
      (sendComm buffer length).Run past s → Exact (SentFirst buffer) length s) ∧
    ¬ ∀ (buffer : Bytes) (stream : Nat → UInt8) (length : Nat), length ≤ buffer.length →
      ∀ past s, (recvComm buffer stream length).Run past s →
        Exact (ReceivedFirst buffer stream) length s := by
  constructor
  · intro h
    have hexec : System.exec (Comm.round (sendAt (ascii "ab"))) [.moved 1, .failed, .moved 2]
        (Comm.start 2 []) = some ⟨2, 0, .returned 0, ascii "aab"⟩ := rfl
    have hrun := (System.Run.start rfl : (sendComm (ascii "ab") 2).Run [] _).steps hexec
    obtain ⟨k, -, hk, hdone⟩ := (h _ _ (by decide) _ _ hrun).moved
    obtain rfl := hdone rfl
    exact absurd (congrArg List.length hk : (ascii "aab").length = _) (by decide)
  · intro h
    have hexec : System.exec (Comm.round (recvAt fun i => 97 + UInt8.ofNat i))
        [.moved 1, .failed, .moved 2] (Comm.start 2 ⟨[0, 0], 0⟩)
          = some ⟨2, 0, .returned 0, ⟨ascii "bc", 3⟩⟩ := rfl
    have hrun := (System.Run.start rfl :
      (recvComm [0, 0] (fun i => 97 + UInt8.ofNat i) 2).Run [] _).steps hexec
    obtain ⟨k, hle, hk, -⟩ := (h _ _ _ (by decide) _ _ hrun).moved
    have hcount : k = 3 := (congrArg Received.count hk).symm
    omega

end InternetLabs.SimpleIm
