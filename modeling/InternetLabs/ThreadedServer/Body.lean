/-
# `InternetLabs.ThreadedServer.Body` — the file behind a head

The last loop of `send_response` hands what `read` has put in its buffer to `send`.  What
`read` returns goes into a `size_t`, so the -1 of a failure is the greatest number there
is, and the loop goes on; what `send` returns is not looked at, so what the socket does not
take is lost.

So the file is delivered exactly if no read fails before the end and every `send` takes
all it is offered (`delivered_iff`).  As long as the reads succeed, the pieces offered are
those of `sendResponse` (`walk_fileBody`).
-/
import InternetLabs.ThreadedServer.Connection
import InternetLabs.Lib.Loop

namespace InternetLabs.ThreadedServer

open InternetLabs

/-! ## The loop -/

/-- What a call of `read` comes to. -/
inductive ReadResult where
  | data (bytes : Bytes)
  | eof
  | failed

namespace ReadResult

def bytes : ReadResult → Bytes
  | data bytes => bytes
  | eof => []
  | failed => []

/-- `nbytes`: what it returns, as a `size_t`. -/
def nbytes : ReadResult → UInt64
  | data bytes => UInt64.ofNat bytes.length
  | eof => 0
  | failed => UInt64.ofInt (-1)

end ReadResult

/-- What the calls of `read` come to, how much of what it is offered each call of `send`
takes (nothing if it fails), and what lies in memory behind the buffer. -/
structure FileEnv where
  reads : Nat → ReadResult
  sends : Nat → Nat
  beyond : Bytes

/-- The variables of the loop, the pieces handed to `send` and the bytes it has taken. -/
structure FileLoop where
  round : Nat
  length : Int32
  offered : List Bytes
  accepted : Bytes

/-- One round. -/
def fileBody (env : FileEnv) (s : FileLoop) : Step FileLoop FileLoop :=
  let result := env.reads s.round
  if result.nbytes > 0 then
    let buf := writeAt (List.replicate bufferMax 0) 0 result.bytes
    let piece := (buf ++ env.beyond).take result.nbytes.toNat
    .next {
      round := s.round + 1
      length := s.length + Int32.ofNat result.nbytes.toNat
      offered := s.offered ++ [piece]
      accepted := s.accepted ++ piece.take (env.sends s.round) }
  else .ret { s with round := s.round + 1 }

/-- The loop before its first round, when the head is `length` bytes long. -/
def FileLoop.start (length : Int32) : FileLoop := ⟨0, length, [], []⟩

/-- `read` delivers these pieces, and the next call returns 0 or -1. -/
structure Reading (env : FileEnv) (pieces : List Bytes) : Prop where
  data : ∀ (i : Nat) (piece : Bytes), pieces[i]? = some piece → env.reads i = .data piece
  pos : ∀ piece ∈ pieces, 0 < piece.length
  le : ∀ piece ∈ pieces, piece.length ≤ bufferMax
  last : env.reads pieces.length = .eof ∨ env.reads pieces.length = .failed

/-- The loop ends with the first call of `read` that delivers nothing, and the socket has
taken what was read. -/
def Delivered (env : FileEnv) (pieces : List Bytes) (length : Int32) : Prop :=
  ∃ s, Loop.Returns (fileBody env) (.start length) s ∧ s.round = pieces.length + 1 ∧
    s.accepted = pieces.flatten

/-! ## What the socket takes

The loop ignores what `send` returns, so what is not taken is lost. -/

/-- What it takes of the pieces, the first of them offered in round `k`. -/
def taken (sends : Nat → Nat) : Nat → List Bytes → Bytes
  | _, [] => []
  | k, piece :: pieces => piece.take (sends k) ++ taken sends (k + 1) pieces

theorem length_taken_le (sends : Nat → Nat) (k : Nat) (pieces : List Bytes) :
    (taken sends k pieces).length ≤ pieces.flatten.length := by
  induction pieces generalizing k with
  | nil => exact Nat.le_refl 0
  | cons piece pieces ih =>
      rw [taken, List.flatten_cons, List.length_append, List.length_append]
      exact Nat.add_le_add (List.length_take_le' _ _) (ih (k + 1))

theorem taken_eq_flatten_iff (sends : Nat → Nat) (k : Nat) (pieces : List Bytes) :
    taken sends k pieces = pieces.flatten ↔
      ∀ (i : Nat) (piece : Bytes), pieces[i]? = some piece → piece.length ≤ sends (k + i) := by
  induction pieces generalizing k with
  | nil => exact iff_of_true rfl nofun
  | cons piece pieces ih =>
      have hrest := length_taken_le sends (k + 1) pieces
      rw [taken, List.flatten_cons]
      constructor
      · intro heq
        have hlen := congrArg List.length heq
        rw [List.length_append, List.length_append, List.length_take] at hlen
        have hfirst : piece.length ≤ sends k := by omega
        rw [List.take_of_length_le hfirst] at heq
        have hothers := (ih (k + 1)).mp (List.append_cancel_left heq)
        intro i p hi
        cases i with
        | zero =>
            cases hi
            exact hfirst
        | succ i =>
            rw [show k + (i + 1) = k + 1 + i by omega]
            exact hothers i p hi
      · intro hall
        have hfirst : piece.length ≤ sends k := hall 0 piece rfl
        rw [List.take_of_length_le hfirst, (ih (k + 1)).mpr fun i p hi => ?_]
        rw [show k + 1 + i = k + (i + 1) by omega]
        exact hall (i + 1) p hi

/-! ## The rounds

A round reads a piece and offers it, whatever `fread` has returned. -/

section Rounds
variable {env : FileEnv} {s : FileLoop}

theorem fileBody_data {piece : Bytes} (hread : env.reads s.round = .data piece)
    (hpos : 0 < piece.length) (hle : piece.length ≤ bufferMax) :
    ∃ length, fileBody env s = .next {
      round := s.round + 1
      length := length
      offered := s.offered ++ [piece]
      accepted := s.accepted ++ piece.take (env.sends s.round) } := by
  have hmax : bufferMax = 1024 := rfl
  have hnbytes : (ReadResult.data piece).nbytes.toNat = piece.length := by
    rw [ReadResult.nbytes, UInt64.toNat_ofNat']
    exact Nat.mod_eq_of_lt (by omega)
  have hgt : (ReadResult.data piece).nbytes > 0 := by
    rw [gt_iff_lt, UInt64.lt_iff_toNat_lt, hnbytes]
    exact hpos
  have hpiece : (writeAt (List.replicate bufferMax 0) 0 piece ++ env.beyond).take piece.length
      = piece := by
    rw [writeAt_zero, List.append_assoc, List.take_left]
  simp only [fileBody, hread, if_pos hgt, hnbytes, ReadResult.bytes, hpiece]
  exact ⟨_, rfl⟩

theorem fileBody_eof (hread : env.reads s.round = .eof) :
    fileBody env s = .ret { s with round := s.round + 1 } := by
  have hzero : ¬ ReadResult.eof.nbytes > 0 := by decide
  simp only [fileBody, hread, if_neg hzero]

theorem fileBody_failed (hread : env.reads s.round = .failed) :
    ∃ s', fileBody env s = .next s' ∧ s'.round = s.round + 1 := by
  have hgt : ReadResult.failed.nbytes > 0 := by decide
  simp only [fileBody, hread, if_pos hgt]
  exact ⟨_, rfl, rfl⟩

/-- **The rounds of the pieces.** -/
theorem walk_fileBody {pieces : List Bytes}
    (hdata : ∀ (i : Nat) (piece : Bytes), pieces[i]? = some piece →
      env.reads (s.round + i) = .data piece)
    (hpos : ∀ piece ∈ pieces, 0 < piece.length) (hle : ∀ piece ∈ pieces, piece.length ≤ bufferMax) :
    ∃ t, walk (Loop.advance (fileBody env)) pieces.length s = some t ∧
      t.round = s.round + pieces.length ∧ t.offered = s.offered ++ pieces ∧
      t.accepted = s.accepted ++ taken env.sends s.round pieces := by
  induction pieces generalizing s with
  | nil => exact ⟨s, rfl, rfl, (List.append_nil _).symm, (List.append_nil _).symm⟩
  | cons piece pieces ih =>
      obtain ⟨hpos₁, hpos⟩ := List.forall_mem_cons.mp hpos
      obtain ⟨hle₁, hle⟩ := List.forall_mem_cons.mp hle
      obtain ⟨length, hnext⟩ := fileBody_data (hdata 0 piece rfl) hpos₁ hle₁
      obtain ⟨s', hs'⟩ : ∃ s' : FileLoop, s' = {
        round := s.round + 1
        length := length
        offered := s.offered ++ [piece]
        accepted := s.accepted ++ piece.take (env.sends s.round) } := ⟨_, rfl⟩
      rw [← hs'] at hnext
      have hnextRound : s'.round = s.round + 1 := by rw [hs']
      obtain ⟨t, hwalk, hround, hoffered, haccepted⟩ := @ih s' (fun i p hi => by
        rw [hnextRound, show s.round + 1 + i = s.round + (i + 1) by omega]
        exact hdata (i + 1) p hi) hpos hle
      refine ⟨t, ?_, ?_, ?_, ?_⟩
      · rw [List.length_cons, walk_succ_of_some (Loop.advance_eq_some.mpr hnext), hwalk]
      · rw [hround, hnextRound, List.length_cons]
        omega
      · rw [hoffered, hs', List.append_assoc, List.singleton_append]
      · rw [haccepted, hs', List.append_assoc, taken]

theorem lt_round_of_returns {t : FileLoop} (h : Loop.Returns (fileBody env) s t) :
    s.round < t.round := by
  induction h using Loop.Returns.induct with
  | round s h ih =>
      cases hbody : fileBody env s with
      | next s' =>
          have hround : s'.round = s.round + 1 := by
            rw [fileBody] at hbody
            split at hbody <;> cases hbody
            rfl
          have hlt := ih s' hbody
          omega
      | ret t' =>
          have hround : t'.round = s.round + 1 := by
            rw [fileBody] at hbody
            split at hbody <;> cases hbody
            rfl
          rw [(Loop.returns_ret_iff hbody).mp h]
          omega
      | fault => exact absurd h (Loop.not_returns_fault hbody)

end Rounds

/-! ## The file -/

section File
variable {env : FileEnv} {pieces : List Bytes}

/-- After the pieces. -/
theorem Reading.walk (h : Reading env pieces) (length : Int32) :
    ∃ t, walk (Loop.advance (fileBody env)) pieces.length (.start length) = some t ∧
      t.round = pieces.length ∧ t.offered = pieces ∧ t.accepted = taken env.sends 0 pieces := by
  obtain ⟨t, hwalk, hround, hoffered, haccepted⟩ := @walk_fileBody env (.start length) pieces
    (fun i piece hi => by
      rw [FileLoop.start, Nat.zero_add]
      exact h.data i piece hi) h.pos h.le
  exact ⟨t, hwalk, hround.trans (Nat.zero_add _), hoffered, haccepted⟩

/-- Where a read fails `fread` returns nothing and `feof` stays false: the loop goes on past the
last piece. -/
theorem Reading.not_delivered_of_failed (h : Reading env pieces)
    (hfailed : env.reads pieces.length = .failed) (length : Int32) :
    ¬ Delivered env pieces length := by
  rintro ⟨s, hret, hround, -⟩
  obtain ⟨t, hwalk, ht, -, -⟩ := h.walk length
  obtain ⟨s', hnext, hs'⟩ := @fileBody_failed env t (by rw [ht]; exact hfailed)
  have hrest := (Loop.returns_next_iff hnext).mp ((Loop.returns_walk_iff hwalk).mp hret)
  have hlt := lt_round_of_returns hrest
  omega

/-- With the end of the file it ends, and each piece has been offered. -/
theorem Reading.returns_of_eof (h : Reading env pieces) (heof : env.reads pieces.length = .eof)
    (length : Int32) : ∃ s, Loop.Returns (fileBody env) (.start length) s ∧
      s.round = pieces.length + 1 ∧ s.offered = pieces ∧ s.accepted = taken env.sends 0 pieces := by
  obtain ⟨t, hwalk, ht, hoffered, haccepted⟩ := h.walk length
  have hret := Loop.returns_of_ret (@fileBody_eof env t (by rw [ht]; exact heof))
  exact ⟨_, (Loop.returns_walk_iff hwalk).mpr hret, congrArg (· + 1) ht, hoffered, haccepted⟩

/-- **The file is delivered exactly if** the reads end with the end of the file, and each
piece is taken as a whole. -/
theorem delivered_iff (h : Reading env pieces) (length : Int32) :
    Delivered env pieces length ↔ env.reads pieces.length = .eof ∧
      ∀ (i : Nat) (piece : Bytes), pieces[i]? = some piece → piece.length ≤ env.sends i := by
  rcases h.last with heof | hfailed
  swap
  · refine iff_of_false (h.not_delivered_of_failed hfailed length) ?_
    rintro ⟨heof, -⟩
    rw [hfailed] at heof
    cases heof
  obtain ⟨s, hret, hround, -, haccepted⟩ := h.returns_of_eof heof length
  have htaken := taken_eq_flatten_iff env.sends 0 pieces
  simp only [Nat.zero_add] at htaken
  rw [← htaken, ← haccepted]
  constructor
  · rintro ⟨s', hret', -, hall⟩
    rw [hret'.unique hret] at hall
    exact ⟨heof, hall⟩
  · rintro ⟨-, hall⟩
    exact ⟨s, hret, hround, hall⟩

end File

/-- A page that is read in one piece and taken in one. -/
def pageEnv : FileEnv where
  reads i := if i = 0 then .data (ascii "hi\n") else .eof
  sends _ := 3
  beyond := []

theorem reading_page : Reading pageEnv [ascii "hi\n"] := by
  refine ⟨fun i piece hi => ?_, by decide, by decide, .inl rfl⟩
  cases i with
  | zero => cases hi; rfl
  | succ i => cases hi

theorem delivered_page : Delivered pageEnv [ascii "hi\n"] 0 :=
  (delivered_iff reading_page 0).mpr ⟨rfl, fun i piece hi => by
    cases i with
    | zero => cases hi; decide
    | succ i => cases hi⟩

/-- A directory: `read` fails with `EISDIR`, however often it is called. -/
def directoryEnv : FileEnv where
  reads _ := .failed
  sends _ := 0
  beyond := []

/-- The loop does not end. -/
theorem directory_not_delivered : ¬ ∀ (env : FileEnv) (pieces : List Bytes) (length : Int32),
    Reading env pieces → Delivered env pieces length := by
  intro hall
  have hreading : Reading directoryEnv [] := by
    refine ⟨fun i piece hi => ?_, List.forall_mem_nil _, List.forall_mem_nil _, .inr rfl⟩
    rw [List.getElem?_nil] at hi
    cases hi
  exact hreading.not_delivered_of_failed rfl 0 (hall directoryEnv [] 0 hreading)

end InternetLabs.ThreadedServer
