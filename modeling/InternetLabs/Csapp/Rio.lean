/-
# `InternetLabs.Csapp.Rio` — the Rio package of `csapp.c`

Robust I/O on a socket: `rio_readn` and `rio_writen` go on after short counts and signals, and
`rio_readnb` and `rio_readlineb` read through a buffer that `rio_read` fills.  A `Socket` holds
what the peer sends until it shuts its side down, and what the next calls of `read` and `write`
come to; calls after these move all they can.

A reader with its buffer is a source (`InternetLabs.Lib.Source`) of the bytes in the buffer
and of those that are still to come (`Reader.unread`), like the socket itself: `rio_readn` and
`rio_readnb` are the same loop on the two.  `rio_readlineb` reads what `fgets` would read
(`fgets_eq_lineOf`).

What the functions store from `usrbuf` on is the list of the bytes stored.
-/
import InternetLabs.Lib.Scan
import InternetLabs.Lib.Source

namespace InternetLabs.Csapp

open InternetLabs

/-! ## The socket

What the calls of `read` and `write` come to is a script; a piece may be as short as one
byte, and a signal may come in between. -/

/-- What a call of `read` or `write` comes to: so many bytes can be moved, a signal interrupts
it, or it fails otherwise. -/
inductive Outcome where
  | moved (n : Nat)
  | interrupted
  | failed
deriving DecidableEq

/-- A connected socket; `eintr` is `errno == EINTR`. -/
structure Socket where
  incoming : Bytes
  reads : List Outcome
  writes : List Outcome
  accepted : Bytes
  eintr : Bool
deriving DecidableEq

namespace Socket

/-- `read(fd, buf, n)`, for `n` > 0: where there is something to come, it delivers something.  The
peer goes on sending or shuts down, so that `read` comes back. -/
def read (n : Nat) (fd : Socket) : Option (Pull UInt8 × Socket) :=
  match fd.reads with
  | [] => some (.data (fd.incoming.take n), { fd with incoming := fd.incoming.drop n })
  | .moved k :: reads =>
      let m := min n (max 1 k)
      some (.data (fd.incoming.take m),
        { fd with incoming := fd.incoming.drop m, reads := reads })
  | .interrupted :: reads => some (.again, { fd with reads := reads, eintr := true })
  | .failed :: reads => some (.failed, { fd with reads := reads, eintr := false })

/-- `write(fd, bytes, |bytes|)`: how many bytes the socket accepts, `none` for -1. -/
def write (bytes : Bytes) (fd : Socket) : Option Nat × Socket :=
  match fd.writes with
  | [] => (some bytes.length, { fd with accepted := fd.accepted ++ bytes })
  | .moved k :: writes =>
      (some (min k bytes.length),
        { fd with accepted := fd.accepted ++ bytes.take k, writes := writes })
  | .interrupted :: writes => (none, { fd with writes := writes, eintr := true })
  | .failed :: writes => (none, { fd with writes := writes, eintr := false })

/-- No read fails. -/
def ReadsQuiet (fd : Socket) : Prop := .failed ∉ fd.reads

instance (fd : Socket) : Decidable fd.ReadsQuiet := inferInstanceAs (Decidable (_ ∉ _))

/-- Every write accepts something, unless a signal interrupts it. -/
def WritesQuiet (fd : Socket) : Prop := ∀ o ∈ fd.writes, o ≠ .failed ∧ o ≠ .moved 0

instance (fd : Socket) : Decidable fd.WritesQuiet :=
  inferInstanceAs (Decidable (∀ o ∈ fd.writes, o ≠ .failed ∧ o ≠ .moved 0))

theorem read_cases {n : Nat} {fd fd' : Socket} {r : Pull UInt8} (h : fd.read n = some (r, fd')) :
    (∃ m reads, m ≤ n ∧ (0 < n → 0 < m) ∧ reads <:+ fd.reads ∧ r = .data (fd.incoming.take m) ∧
        fd' = { fd with incoming := fd.incoming.drop m, reads := reads }) ∨
      (∃ reads, fd.reads = .interrupted :: reads ∧ r = .again ∧
        fd' = { fd with reads := reads, eintr := true }) ∨
      ∃ reads, fd.reads = .failed :: reads ∧ r = .failed ∧
        fd' = { fd with reads := reads, eintr := false } := by
  unfold read at h
  split at h
  · next hreads =>
    obtain ⟨rfl, rfl⟩ := Prod.mk.inj (Option.some.inj h)
    exact .inl ⟨n, fd.reads, Nat.le_refl n, id, List.suffix_refl _, rfl, rfl⟩
  · next k reads hreads =>
    obtain ⟨rfl, rfl⟩ := Prod.mk.inj (Option.some.inj h)
    refine .inl ⟨min n (max 1 k), reads, Nat.min_le_left _ _, fun hn => by omega, ?_, rfl, rfl⟩
    rw [hreads]
    exact List.suffix_cons _ _
  · next reads hreads =>
    obtain ⟨rfl, rfl⟩ := Prod.mk.inj (Option.some.inj h)
    exact .inr (.inl ⟨reads, hreads, rfl, rfl⟩)
  · next reads hreads =>
    obtain ⟨rfl, rfl⟩ := Prod.mk.inj (Option.some.inj h)
    exact .inr (.inr ⟨reads, hreads, rfl, rfl⟩)

theorem read_ends (n : Nat) (fd : Socket) : ∃ r fd', fd.read n = some (r, fd') := by
  unfold read
  split <;> exact ⟨_, _, rfl⟩

/-- The calls that a read leaves to come are the last of those there were. -/
theorem read_reads {n : Nat} {fd fd' : Socket} {r : Pull UInt8} (h : fd.read n = some (r, fd')) :
    fd'.reads <:+ fd.reads := by
  obtain ⟨m, reads, -, -, hsuffix, -, rfl⟩ | ⟨reads, hreads, -, rfl⟩ | ⟨reads, hreads, -, rfl⟩ :=
    read_cases h
  · exact hsuffix
  all_goals
    rw [hreads]
    exact List.suffix_cons _ _

/-- The side that is written to is the same. -/
def SameWrites (fd' fd : Socket) : Prop := fd'.writes = fd.writes ∧ fd'.accepted = fd.accepted

theorem SameWrites.trans {fd fd' fd'' : Socket} (h : fd''.SameWrites fd') (h' : fd'.SameWrites fd) :
    fd''.SameWrites fd :=
  ⟨h.1.trans h'.1, h.2.trans h'.2⟩

theorem read_sameWrites {n : Nat} {fd fd' : Socket} {r : Pull UInt8}
    (h : fd.read n = some (r, fd')) : fd'.SameWrites fd := by
  obtain ⟨_, _, -, -, -, -, rfl⟩ | ⟨_, -, -, rfl⟩ | ⟨_, -, -, rfl⟩ := read_cases h <;>
    exact ⟨rfl, rfl⟩

/-- **A socket is a source** of the bytes that come in. -/
theorem serves : Source.Serves read ReadsQuiet incoming fun fd => fd.reads.length where
  ends := read_ends
  data := by
    intro n fd bs fd' hn h
    obtain ⟨m, reads, hle, hpos, -, hdata, rfl⟩ | ⟨_, -, hdata, -⟩ | ⟨_, -, hdata, -⟩ :=
      read_cases h
    · obtain rfl := Pull.data.inj hdata
      refine ⟨(List.length_take_le _ _).trans hle, (List.take_append_drop m fd.incoming).symm, ?_⟩
      intro hnil
      exact (List.take_eq_nil_iff.mp hnil).resolve_left (hpos hn).ne'
    all_goals cases hdata
  again := by
    intro n fd fd' h
    obtain ⟨_, _, -, -, -, hagain, -⟩ | ⟨reads, hreads, -, rfl⟩ | ⟨_, -, hagain, -⟩ := read_cases h
    · cases hagain
    · refine ⟨rfl, ?_⟩
      rw [hreads]
      exact Nat.lt_succ_self _
    · cases hagain
  failed := by
    intro n fd fd' h
    obtain ⟨_, _, -, -, -, hfailed, -⟩ | ⟨_, -, hfailed, -⟩ | ⟨reads, hreads, -, rfl⟩ :=
      read_cases h
    · cases hfailed
    · cases hfailed
    · exact ⟨rfl, fun hquiet => hquiet (hreads ▸ List.mem_cons_self)⟩
  quiet := fun h hquiet hmem => hquiet ((read_reads h).subset hmem)
  patience := fun h => (read_reads h).length_le

end Socket

/-! ## The buffer

`rio_t` with its two counters, and the loop that fills it again. -/

/-- `RIO_BUFSIZE`. -/
def rioBufsize : Nat := 8192

/-- `rio_t`, with `rio_bufptr` as an offset in `rio_buf`: the bytes that are unread lie in the
buffer.  (`rio_fd` is the socket next to it.) -/
structure Rio where
  rioCnt : Int
  rioBufptr : Nat
  rioBuf : Bytes
  size : rioBuf.length = rioBufsize
  within : rioBufptr + rioCnt.toNat ≤ rioBufsize

namespace Rio

/-- `rio_readinitb`, on a `rio_t` of any content. -/
def readinitb (rioBuf : Bytes) (size : rioBuf.length = rioBufsize) : Rio where
  rioCnt := 0
  rioBufptr := 0
  rioBuf := rioBuf
  size := size
  within := Nat.zero_le _

/-- `rp->rio_cnt = cnt`, where nothing has been read. -/
def setCnt (rp : Rio) (cnt : Int) (h : cnt ≤ 0) : Rio where
  rioCnt := cnt
  rioBufptr := rp.rioBufptr
  rioBuf := rp.rioBuf
  size := rp.size
  within := by
    have := rp.within
    omega

/-- `read` has put these bytes into the buffer. -/
def filled (rp : Rio) (bytes : Bytes) (h : bytes.length ≤ rioBufsize) : Rio where
  rioCnt := bytes.length
  rioBufptr := 0
  rioBuf := writeAt rp.rioBuf 0 bytes
  size := by
    rw [length_writeAt, rp.size]
    omega
  within := by omega

/-- `rp->rio_bufptr += cnt; rp->rio_cnt -= cnt`. -/
def advance (rp : Rio) (cnt : Nat) (h : cnt ≤ rp.rioCnt.toNat) : Rio where
  rioCnt := rp.rioCnt - cnt
  rioBufptr := rp.rioBufptr + cnt
  rioBuf := rp.rioBuf
  size := rp.size
  within := by
    have := rp.within
    omega

/-- The bytes in the buffer that are unread. -/
def buffered (rp : Rio) : Bytes := (rp.rioBuf.drop rp.rioBufptr).take rp.rioCnt.toNat

end Rio

/-- A reader: its buffer, and the socket. -/
structure Reader where
  rp : Rio
  fd : Socket

/-- How the loop of `rio_read` ends. -/
inductive Refilled where
  | ready
  | eof
  | error

/-- The loop of `rio_read`. -/
def refillBody (s : Reader) : Step Reader (Refilled × Reader) :=
  if 0 < s.rp.rioCnt then .ret (.ready, s)
  else
    match s.fd.read rioBufsize with
    | none => .fault
    | some (.again, fd) => .next ⟨s.rp.setCnt (-1) (by decide), fd⟩
    | some (.failed, fd) => .ret (.error, ⟨s.rp.setCnt (-1) (by decide), fd⟩)
    | some (.data bytes, fd) =>
        if h : 0 < bytes.length ∧ bytes.length ≤ rioBufsize then .next ⟨s.rp.filled bytes h.2, fd⟩
        else .ret (.eof, ⟨s.rp.setCnt 0 (Int.le_refl 0), fd⟩)

/-- `rio_read`, as what it copies to `usrbuf`; the end of the file are no bytes. -/
def rioRead (n : Nat) (s : Reader) : Option (Pull UInt8 × Reader) :=
  match Loop.run refillBody (s.fd.reads.length + 2) s with
  | none => none
  | some (.error, s) => some (.failed, s)
  | some (.eof, s) => some (.data [], s)
  | some (.ready, s) =>
      let cnt := if s.rp.rioCnt.toNat < n then s.rp.rioCnt.toNat else n
      some (.data ((s.rp.rioBuf.drop s.rp.rioBufptr).take cnt),
        ⟨s.rp.advance cnt (by dsimp only [cnt]; split <;> omega), s.fd⟩)

/-- What a reader has still to deliver. -/
def Reader.unread (s : Reader) : Bytes := s.rp.buffered ++ s.fd.incoming

namespace Rio
variable {rp : Rio}

theorem length_buffered (rp : Rio) : rp.buffered.length = rp.rioCnt.toNat := by
  have hsize := rp.size
  have hwithin := rp.within
  rw [buffered, List.length_take, List.length_drop]
  omega

theorem buffered_of_le (h : rp.rioCnt ≤ 0) : rp.buffered = [] := by
  rw [← List.length_eq_zero_iff, length_buffered]
  omega

theorem buffered_filled {bytes : Bytes} (h : bytes.length ≤ rioBufsize) :
    (rp.filled bytes h).buffered = bytes := by
  change (writeAt rp.rioBuf 0 bytes).take bytes.length = bytes
  rw [writeAt_zero, List.take_left]

theorem buffered_advance {cnt : Nat} (h : cnt ≤ rp.rioCnt.toNat) :
    (rp.advance cnt h).buffered = rp.buffered.drop cnt := by
  have hcnt : (rp.rioCnt - cnt).toNat = rp.rioCnt.toNat - cnt := by omega
  rw [buffered, buffered, advance, List.drop_take, List.drop_drop, hcnt]

end Rio

/-! ## The reader as a source

Whatever the pieces, the bytes that are unread are those in the buffer and those still
to come, in this order. -/

/-- What the loop of `rio_read` comes to: nothing is lost. -/
structure Refills (s : Reader) (out : Refilled) (s' : Reader) : Prop where
  unread : s'.unread = s.unread
  reads : s'.fd.reads <:+ s.fd.reads
  writes : s'.fd.SameWrites s.fd
  ready : out = .ready → 0 < s'.rp.rioCnt
  eof : out = .eof → s.unread = []
  error : out = .error → ¬ s.fd.ReadsQuiet

theorem refillBody_ready {s : Reader} (h : 0 < s.rp.rioCnt) : refillBody s = .ret (.ready, s) :=
  if_pos h

theorem Reader.unread_of_le {s : Reader} (h : s.rp.rioCnt ≤ 0) : s.unread = s.fd.incoming := by
  rw [unread, Rio.buffered_of_le h, List.nil_append]

theorem Reader.unread_setCnt (rp : Rio) {cnt : Int} (h : cnt ≤ 0) (fd : Socket) :
    Reader.unread ⟨rp.setCnt cnt h, fd⟩ = fd.incoming :=
  Reader.unread_of_le h

/-- In the loop of `rio_read`: nothing has been lost. -/
structure Refilling (s t : Reader) : Prop where
  unread : t.unread = s.unread
  reads : t.fd.reads <:+ s.fd.reads
  writes : t.fd.SameWrites s.fd

/-- How many rounds the loop of `rio_read` may still make. -/
def Reader.refills (t : Reader) : Nat := if 0 < t.rp.rioCnt then 0 else t.fd.reads.length + 1

theorem Reader.refills_le (t : Reader) : t.refills ≤ t.fd.reads.length + 1 := by
  unfold refills
  split
  · exact Nat.zero_le _
  · exact Nat.le_refl _

theorem Refilling.round {s t : Reader} (h : Refilling s t) :
    (∃ t', refillBody t = .next t' ∧ Refilling s t' ∧ t'.refills < t.refills) ∨
    ∃ out, refillBody t = .ret out ∧ Refills s out.1 out.2 := by
  obtain ⟨hunread, hreads, hsame⟩ := h
  by_cases hcnt : 0 < t.rp.rioCnt
  · exact .inr ⟨_, refillBody_ready hcnt, hunread, hreads, hsame, fun _ => hcnt, nofun, nofun⟩
  have hempty : t.unread = t.fd.incoming := Reader.unread_of_le (by omega)
  have hleft : t.refills = t.fd.reads.length + 1 := if_neg hcnt
  obtain ⟨r, fd, hread⟩ := Socket.read_ends rioBufsize t.fd
  have hreads' := Socket.read_reads hread
  have hsame' := (Socket.read_sameWrites hread).trans hsame
  cases r with
  | again =>
      obtain ⟨hkept, hless⟩ := Socket.serves.again hread
      refine .inl ⟨⟨t.rp.setCnt (-1) (by decide), fd⟩,
        by simp only [refillBody, if_neg hcnt, hread], ⟨?_, hreads'.trans hreads, hsame'⟩, ?_⟩
      · rw [Reader.unread_setCnt, ← hunread, hempty, hkept]
      · rw [hleft]
        exact (Reader.refills_le _).trans_lt (Nat.succ_lt_succ hless)
  | failed =>
      obtain ⟨hkept, hnot⟩ := Socket.serves.failed hread
      refine .inr ⟨(.error, ⟨t.rp.setCnt (-1) (by decide), fd⟩),
        by simp only [refillBody, if_neg hcnt, hread], ?_, hreads'.trans hreads, hsame',
        nofun, nofun, fun _ hq => hnot fun hmem => hq (hreads.subset hmem)⟩
      rw [Reader.unread_setCnt, ← hunread, hempty, hkept]
  | data bytes =>
      obtain ⟨hle, hsplit, hend⟩ := Socket.serves.data (by decide) hread
      by_cases hpos : 0 < bytes.length
      · have hready : 0 < (t.rp.filled bytes hle).rioCnt := Int.natCast_pos.mpr hpos
        refine .inl ⟨⟨t.rp.filled bytes hle, fd⟩, ?_, ⟨?_, hreads'.trans hreads, hsame'⟩, ?_⟩
        · simp only [refillBody, if_neg hcnt, hread, dif_pos (And.intro hpos hle)]
        · rw [← hunread, hempty, Reader.unread, Rio.buffered_filled, ← hsplit]
        · rw [hleft, Reader.refills, if_pos hready]
          exact Nat.succ_pos _
      · obtain rfl := List.length_eq_zero_iff.mp (Nat.eq_zero_of_not_pos hpos)
        refine .inr ⟨(.eof, ⟨t.rp.setCnt 0 (Int.le_refl 0), fd⟩), ?_, ?_,
          hreads'.trans hreads, hsame', nofun, fun _ => ?_, nofun⟩
        · simp only [refillBody, if_neg hcnt, hread, List.length_nil, Nat.lt_irrefl, false_and,
            dite_false]
        · rw [Reader.unread_setCnt, ← hunread, hempty, hsplit, List.nil_append]
        · rw [← hunread, hempty, hend rfl]

/-- **The loop of `rio_read` ends.** -/
theorem refill_spec (s : Reader) {fuel : Nat} (hfuel : s.fd.reads.length + 1 < fuel) :
    ∃ out, Loop.run refillBody fuel s = some out ∧ Refills s out.1 out.2 := by
  have hstart : Refilling s s := ⟨rfl, List.suffix_refl _, rfl, rfl⟩
  exact Loop.run_spec Reader.refills (fun _ h => h.round) hstart (s.refills_le.trans_lt hfuel)

theorem rioRead_cases (n : Nat) (s : Reader) : ∃ out s₁, Refills s out s₁ ∧
    ((out = .error ∧ rioRead n s = some (.failed, s₁)) ∨
      (out = .eof ∧ rioRead n s = some (.data [], s₁)) ∨
      (out = .ready ∧ ∃ cnt, ∃ h : cnt ≤ s₁.rp.rioCnt.toNat, cnt ≤ n ∧ (0 < n → 0 < cnt) ∧
        rioRead n s = some (.data (s₁.rp.buffered.take cnt), ⟨s₁.rp.advance cnt h, s₁.fd⟩))) := by
  obtain ⟨⟨out, s₁⟩, hrun, h⟩ := refill_spec s (Nat.lt_succ_self _)
  refine ⟨out, s₁, h, ?_⟩
  cases out with
  | error => exact .inl ⟨rfl, by simp only [rioRead, hrun]⟩
  | eof => exact .inr (.inl ⟨rfl, by simp only [rioRead, hrun]⟩)
  | ready =>
      have hpos : 0 < s₁.rp.rioCnt := h.ready rfl
      obtain ⟨cnt, hcnt⟩ : ∃ cnt, cnt = if s₁.rp.rioCnt.toNat < n then s₁.rp.rioCnt.toNat else n :=
        ⟨_, rfl⟩
      have hle : cnt ≤ s₁.rp.rioCnt.toNat := by rw [hcnt]; split <;> omega
      refine .inr (.inr ⟨rfl, cnt, hle, ?_, fun hn => ?_, ?_⟩)
      · rw [hcnt]; split <;> omega
      · rw [hcnt]; split <;> omega
      · subst hcnt
        simp only [rioRead, hrun, Rio.buffered, List.take_take, Nat.min_eq_left hle]

/-- **A reader is a source** of the bytes in its buffer and behind it, and never says `again`. -/
theorem Reader.serves :
    Source.Serves rioRead (fun s => s.fd.ReadsQuiet) Reader.unread fun _ => 0 where
  ends := by
    intro n s
    obtain ⟨out, s₁, -, ⟨-, h⟩ | ⟨-, h⟩ | ⟨-, cnt, _, -, -, h⟩⟩ := rioRead_cases n s <;>
      exact ⟨_, _, h⟩
  data := by
    intro n s bs s' hn hread
    obtain ⟨out, s₁, hr, ⟨-, h⟩ | ⟨rfl, h⟩ | ⟨-, cnt, hle, hcnt, hpos, h⟩⟩ := rioRead_cases n s
    · rw [h] at hread
      cases hread
    · rw [h] at hread
      cases hread
      exact ⟨Nat.zero_le n, hr.unread.symm, fun _ => hr.eof rfl⟩
    · rw [h] at hread
      cases hread
      have hlen : (s₁.rp.buffered.take cnt).length = cnt := by
        rw [List.length_take, Rio.length_buffered, Nat.min_eq_left hle]
      refine ⟨hlen.le.trans hcnt, ?_, fun hnil => ?_⟩
      · rw [← hr.unread, Reader.unread, Reader.unread, Rio.buffered_advance, ← List.append_assoc,
          List.take_append_drop]
      · rw [hnil, List.length_nil] at hlen
        exact absurd hlen (hpos hn).ne
  again := by
    intro n s s' hread
    obtain ⟨out, s₁, -, ⟨-, h⟩ | ⟨-, h⟩ | ⟨-, cnt, _, -, -, h⟩⟩ := rioRead_cases n s <;>
      · rw [h] at hread
        cases hread
  failed := by
    intro n s s' hread
    obtain ⟨out, s₁, hr, ⟨rfl, h⟩ | ⟨-, h⟩ | ⟨-, cnt, _, -, -, h⟩⟩ := rioRead_cases n s <;>
      rw [h] at hread <;> cases hread
    exact ⟨hr.unread, hr.error rfl⟩
  quiet := by
    intro n s r s' hread hquiet hmem
    obtain ⟨out, s₁, hr, ⟨-, h⟩ | ⟨-, h⟩ | ⟨-, cnt, _, -, -, h⟩⟩ := rioRead_cases n s <;>
      · rw [h] at hread
        cases hread
        exact hquiet (hr.reads.subset hmem)
  patience := fun _ => Nat.le_refl 0

theorem rioRead_sameWrites {n : Nat} {s s' : Reader} {r : Pull UInt8}
    (h : rioRead n s = some (r, s')) : s'.fd.SameWrites s.fd := by
  obtain ⟨out, s₁, hr, ⟨-, h₁⟩ | ⟨-, h₁⟩ | ⟨-, cnt, _, -, -, h₁⟩⟩ := rioRead_cases n s <;>
    · rw [h₁] at h
      cases h
      exact hr.writes

/-! ## The functions

`rio_readn` and `rio_readnb` are one loop on two sources. -/

/-- What they return: how many bytes they have stored, or -1. -/
def retOf (done : Bool) (stored : Bytes) : Int := if done then stored.length else -1

/-- `rio_readn`: what it returns, what it stores, and the socket afterwards. -/
def rioReadn (n : Nat) (fd : Socket) : Option (Int × Bytes × Socket) :=
  (Source.fetch Socket.read (n + fd.reads.length + 1) n fd).map fun (done, stored, fd) =>
    (retOf done stored, stored, fd)

/-- **`rio_readn`** reads the next `n` bytes, or all there are, where no read fails. -/
theorem rioReadn_quiet (n : Nat) {fd : Socket} (hq : fd.ReadsQuiet) :
    ∃ fd' : Socket, rioReadn n fd
        = some (((fd.incoming.take n).length : Int), fd.incoming.take n, fd') ∧
      fd'.incoming = fd.incoming.drop n ∧ fd'.ReadsQuiet := by
  obtain ⟨fd', hfetch, hrest, hq'⟩ := Source.fetch_quiet Socket.serves n hq (Nat.lt_succ_self _)
  exact ⟨fd', by simp only [rioReadn, hfetch, Option.map_some, retOf, if_true], hrest, hq'⟩

/-- `rio_readnb`. -/
def rioReadnb (n : Nat) (s : Reader) : Option (Int × Bytes × Reader) :=
  (Source.fetch rioRead (n + 1) n s).map fun (done, stored, s) => (retOf done stored, stored, s)

/-- The variables of `rio_readlineb`. -/
structure LineLoop where
  n : Nat
  stored : Bytes
  source : Reader

/-- Behind the loop of `rio_readlineb`. -/
def LineLoop.close (l : LineLoop) : Int × Bytes × Reader := (l.n - 1, l.stored ++ [0], l.source)

/-- One round of `rio_readlineb`; `n++` must fit an `int`. -/
def lineBody (maxlen : Nat) (l : LineLoop) : Step LineLoop (Int × Bytes × Reader) :=
  if l.n < maxlen then
    match rioRead 1 l.source with
    | none => .fault
    | some (.data [], s) =>
        if l.n = 1 then .ret (0, l.stored, s) else .ret (LineLoop.close ⟨l.n, l.stored, s⟩)
    | some (.data (c :: _), s) =>
        if l.n + 1 < 2 ^ 31 then
          if c = newline then .ret (LineLoop.close ⟨l.n + 1, l.stored ++ [c], s⟩)
          else .next ⟨l.n + 1, l.stored ++ [c], s⟩
        else .fault
    | some (_, s) => .ret (-1, l.stored, s)
  else .ret l.close

/-- `rio_readlineb`. -/
def rioReadlineb (maxlen : Nat) (s : Reader) : Option (Int × Bytes × Reader) :=
  Loop.run (lineBody maxlen) (maxlen + 1) ⟨1, [], s⟩

/-- `rio_writen`: the variables of its loop. -/
structure WriteLoop where
  nleft : Nat
  bufp : Nat
  fd : Socket

/-- One round of `rio_writen`. -/
def writeBody (usrbuf : Bytes) (n : Nat) (w : WriteLoop) : Step WriteLoop (Int × Socket) :=
  if w.nleft = 0 then .ret (n, w.fd)
  else
    match w.fd.write ((usrbuf.drop w.bufp).take w.nleft) with
    | (some (k + 1), fd) => .next ⟨w.nleft - (k + 1), w.bufp + (k + 1), fd⟩
    | (_, fd) => if fd.eintr then .next { w with fd := fd } else .ret (-1, fd)

/-- `rio_writen`: what it returns, and the socket afterwards. -/
def rioWriten (usrbuf : Bytes) (n : Nat) (fd : Socket) : Option (Int × Socket) :=
  Loop.run (writeBody usrbuf n) (n + fd.writes.length + 1) ⟨n, 0, fd⟩

/-! ## Lines

A line is as long as its newline, the end of what there is, or the caller's buffer
allow. -/

/-- The first line of a text, but no more than `k` bytes of it. -/
def lineOf : Nat → Bytes → Bytes
  | 0, _ => []
  | _ + 1, [] => []
  | k + 1, c :: u => if c = newline then [c] else c :: lineOf k u

theorem length_lineOf_le (k : Nat) (u : Bytes) : (lineOf k u).length ≤ k := by
  induction k generalizing u with
  | zero => exact Nat.le_refl 0
  | succ k ih =>
      cases u with
      | nil => exact Nat.zero_le _
      | cons c u =>
          rw [lineOf]
          split
          · exact Nat.succ_le_succ (Nat.zero_le k)
          · exact Nat.succ_le_succ (ih u)

theorem lineOf_begins (k : Nat) (u : Bytes) : lineOf k u <+: u := by
  induction k generalizing u with
  | zero => exact List.nil_prefix
  | succ k ih =>
      cases u with
      | nil => exact List.nil_prefix
      | cons c u =>
          rw [lineOf]
          split
          · exact List.cons_prefix_cons.mpr ⟨rfl, List.nil_prefix⟩
          · exact List.cons_prefix_cons.mpr ⟨rfl, ih u⟩

theorem lineOf_ne_nil {k : Nat} (hk : 0 < k) {u : Bytes} (hu : u ≠ []) : lineOf k u ≠ [] := by
  obtain ⟨k, rfl⟩ : ∃ j, k = j + 1 := ⟨k - 1, by omega⟩
  obtain ⟨c, u, rfl⟩ := List.exists_cons_of_ne_nil hu
  rw [lineOf]
  split <;> exact List.cons_ne_nil _ _

theorem fgets_eq_lineOf (size : Nat) {u : Bytes} (hu : u ≠ []) :
    fgets size u = some (lineOf (size - 1) u, u.drop (lineOf (size - 1) u).length) := by
  have hcut : ∀ (k : Nat) (u : Bytes), u.take ((((u.take k).idxOf? newline).elim (u.take k).length
      (· + 1))) = lineOf k u := by
    intro k
    induction k with
    | zero => intro u; simp [lineOf]
    | succ k ih =>
        intro u
        cases u with
        | nil => rfl
        | cons c u =>
            rw [lineOf, List.take_succ_cons, List.idxOf?_cons]
            by_cases hc : c = newline
            · rw [if_pos hc, if_pos (by simpa using hc)]
              rfl
            · rw [if_neg hc, if_neg (by simpa using hc)]
              have hrec := ih u
              cases hidx : (u.take k).idxOf? newline with
              | none =>
                  rw [hidx] at hrec
                  simpa using hrec
              | some j =>
                  rw [hidx] at hrec
                  simpa using hrec
  have htake := hcut (size - 1) u
  simp only [fgets, if_neg hu]
  have hdrop : ∀ m, u.take m = lineOf (size - 1) u →
      u.drop m = u.drop (lineOf (size - 1) u).length := by
    intro m hm
    have hwhole := List.prefix_iff_eq_append.mp (lineOf_begins (size - 1) u)
    refine List.append_cancel_left (Eq.trans ?_ hwhole.symm)
    rw [← hm, List.take_append_drop]
  rw [hdrop _ htake, htake]

/-- What `rio_readlineb` comes to: a line, the end of what there is to read, or a failure. -/
structure Lined (maxlen : Nat) (s : Reader) (out : Int × Bytes × Reader) : Prop where
  writes : out.2.2.fd.SameWrites s.fd
  goesOn : s.fd.ReadsQuiet → 0 ≤ out.1 ∧ out.2.2.fd.ReadsQuiet
  ret : 0 ≤ out.1 → out.1 = (lineOf (maxlen - 1) s.unread).length
  rest : 0 ≤ out.1 → s.unread = lineOf (maxlen - 1) s.unread ++ out.2.2.unread
  stored : 0 ≤ out.1 → out.2.1 =
    if 1 < maxlen ∧ s.unread = [] then [] else lineOf (maxlen - 1) s.unread ++ [0]
  failed : out.1 < 0 → out.1 = -1 ∧ s.unread = out.2.1 ++ out.2.2.unread ∧
    out.2.1.length < maxlen

/-- In `rio_readlineb`: what is stored is the beginning of what was unread. -/
structure Storing (s : Reader) (l : LineLoop) : Prop where
  count : l.n = l.stored.length + 1
  split : s.unread = l.stored ++ l.source.unread
  writes : l.source.fd.SameWrites s.fd
  quiet : s.fd.ReadsQuiet → l.source.fd.ReadsQuiet

/-- In the loop of `rio_readlineb`: what is stored is the beginning of the line. -/
structure Lining (maxlen : Nat) (s : Reader) (l : LineLoop) : Prop extends Storing s l where
  line : lineOf (maxlen - 1) s.unread = l.stored ++ lineOf (maxlen - l.n) l.source.unread

section Readline
variable {maxlen : Nat} {s s₁ : Reader} {l : LineLoop}

/-- Behind the loop the line is in `usrbuf`. -/
theorem Storing.close (h : Storing s l) (hline : lineOf (maxlen - 1) s.unread = l.stored)
    (hnot : ¬ (1 < maxlen ∧ s.unread = [])) : Lined maxlen s l.close := by
  have hcount := h.count
  have hret : (l.n : Int) - 1 = l.stored.length := by omega
  refine ⟨h.writes, fun hq => ⟨?_, h.quiet hq⟩, fun _ => ?_, fun _ => ?_,
    fun _ => ?_, fun hneg => ?_⟩
  · dsimp only [LineLoop.close]
    omega
  · rw [hline]
    exact hret
  · rw [hline]
    exact h.split
  · rw [if_neg hnot, hline]
    rfl
  · dsimp only [LineLoop.close] at hneg
    omega

/-- There is no more room. -/
theorem Lining.full (h : Lining maxlen s l) (hlt : ¬ l.n < maxlen) : Lined maxlen s l.close := by
  have hline := h.line
  rw [Nat.sub_eq_zero_of_le (Nat.le_of_not_lt hlt), lineOf, List.append_nil] at hline
  refine h.toStoring.close hline ?_
  rintro ⟨hone, hnil⟩
  have hsplit := h.split
  have hcount := h.count
  rw [hnil] at hsplit
  rw [(List.append_eq_nil_iff.mp hsplit.symm).1, List.length_nil] at hcount
  omega

/-- The stream has come to its end. -/
theorem Lining.dry (h : Lining maxlen s l) (hlt : l.n < maxlen)
    (hread : rioRead 1 l.source = some (.data [], s₁)) :
    ∃ out, lineBody maxlen l = .ret out ∧ Lined maxlen s out := by
  obtain ⟨⟨hn, hsplit, hsame, hquiet⟩, hline⟩ := h
  obtain ⟨-, hbytes, hend⟩ := Reader.serves.data Nat.one_pos hread
  have hsame' := (rioRead_sameWrites hread).trans hsame
  have hquiet' := fun hq => Reader.serves.quiet hread (hquiet hq)
  have hdry : l.source.unread = [] := hend rfl
  have hdry' : s₁.unread = [] := by rw [← hdry, hbytes, List.nil_append]
  have hnone : ∀ k, lineOf k [] = [] := fun k => by cases k <;> rfl
  rw [hdry] at hsplit hline
  rw [hnone, List.append_nil] at hline
  by_cases hone : l.n = 1
  · have hempty : l.stored = [] := List.length_eq_zero_iff.mp (by omega)
    rw [hempty, List.append_nil] at hsplit
    rw [hempty] at hline
    refine ⟨(0, l.stored, s₁), by simp only [lineBody, if_pos hlt, hread, if_pos hone],
      hsame', fun hq => ⟨Int.le_refl 0, hquiet' hq⟩, fun _ => ?_, fun _ => ?_, fun _ => ?_,
      fun hneg => absurd hneg (Int.lt_irrefl 0)⟩
    · rw [hline]
      rfl
    · rw [hline, hsplit, hdry']
      rfl
    · rw [if_pos ⟨by omega, hsplit⟩, hempty]
  · have hnext : Storing s ⟨l.n, l.stored, s₁⟩ := ⟨hn, by rw [hsplit, hdry'], hsame', hquiet'⟩
    refine ⟨_, by simp only [lineBody, if_pos hlt, hread, if_neg hone], hnext.close hline ?_⟩
    rintro ⟨-, hnil⟩
    rw [hnil, List.append_nil] at hsplit
    rw [← hsplit, List.length_nil] at hn
    exact hone hn

/-- A byte more has come in. -/
theorem Lining.byte (h : Lining maxlen s l) (hmax : maxlen < 2 ^ 31)
    (hlt : l.n < maxlen) {c : UInt8}
    (hread : rioRead 1 l.source = some (.data [c], s₁)) :
    (∃ l', lineBody maxlen l = .next l' ∧ Lining maxlen s l' ∧ maxlen - l'.n < maxlen - l.n) ∨
    ∃ out, lineBody maxlen l = .ret out ∧ Lined maxlen s out := by
  obtain ⟨⟨hn, hsplit, hsame, hquiet⟩, hline⟩ := h
  obtain ⟨-, hbytes, -⟩ := Reader.serves.data Nat.one_pos hread
  have hsame' := (rioRead_sameWrites hread).trans hsame
  have hquiet' := fun hq => Reader.serves.quiet hread (hquiet hq)
  have hint : l.n + 1 < 2 ^ 31 := by omega
  have hk : maxlen - l.n = maxlen - (l.n + 1) + 1 := by omega
  have hsplit' : s.unread = (l.stored ++ [c]) ++ s₁.unread := by
    rw [hsplit, hbytes, List.append_assoc]
  have hn' : l.n + 1 = (l.stored ++ [c]).length + 1 := by
    rw [hn, List.length_append, List.length_singleton]
  rw [hbytes, hk, List.singleton_append, lineOf] at hline
  by_cases hc : c = newline
  · rw [if_pos hc] at hline
    have hnext : Storing s ⟨l.n + 1, l.stored ++ [c], s₁⟩ := ⟨hn', hsplit', hsame', hquiet'⟩
    refine .inr ⟨LineLoop.close ⟨l.n + 1, l.stored ++ [c], s₁⟩,
      by simp only [lineBody, if_pos hlt, hread, if_pos hint, if_pos hc], hnext.close hline ?_⟩
    rintro ⟨-, hnil⟩
    rw [hnil] at hsplit'
    simp at hsplit'
  · rw [if_neg hc] at hline
    refine .inl ⟨⟨l.n + 1, l.stored ++ [c], s₁⟩,
      by simp only [lineBody, if_pos hlt, hread, if_pos hint, if_neg hc],
      ⟨⟨hn', hsplit', hsame', hquiet'⟩, ?_⟩, by dsimp only; omega⟩
    rw [hline, List.append_assoc, List.singleton_append]

theorem Lining.round (h : Lining maxlen s l) (hmax : maxlen < 2 ^ 31) :
    (∃ l', lineBody maxlen l = .next l' ∧ Lining maxlen s l' ∧ maxlen - l'.n < maxlen - l.n) ∨
    ∃ out, lineBody maxlen l = .ret out ∧ Lined maxlen s out := by
  by_cases hlt : l.n < maxlen
  swap
  · exact .inr ⟨_, if_neg hlt, h.full hlt⟩
  obtain ⟨r, s₁, hread⟩ := Reader.serves.ends 1 l.source
  cases r with
  | again => exact absurd (Reader.serves.again hread).2 (Nat.lt_irrefl 0)
  | failed =>
      obtain ⟨hkept, hnot⟩ := Reader.serves.failed hread
      refine .inr ⟨(-1, l.stored, s₁), by simp only [lineBody, if_pos hlt, hread],
        (rioRead_sameWrites hread).trans h.writes, fun hq => (hnot (h.quiet hq)).elim, nofun, nofun,
        nofun, fun _ => ⟨rfl, ?_, ?_⟩⟩
      · rw [h.split, hkept]
      · have := h.count
        dsimp only
        omega
  | data bytes =>
      obtain ⟨hle, -, -⟩ := Reader.serves.data Nat.one_pos hread
      match bytes with
      | [] => exact .inr (h.dry hlt hread)
      | [c] => exact h.byte hmax hlt hread

/-- **`rio_readlineb` returns**, and this is what it comes to. -/
theorem rioReadlineb_spec (hmax : maxlen < 2 ^ 31) (s : Reader) :
    ∃ out, rioReadlineb maxlen s = some out ∧ Lined maxlen s out := by
  have hstart : Lining maxlen s ⟨1, [], s⟩ := ⟨⟨rfl, rfl, ⟨rfl, rfl⟩, id⟩, rfl⟩
  exact Loop.run_spec (fun l => maxlen - l.n)
    (fun _ h => h.round hmax) hstart (by dsimp only; omega)

end Readline

/-! ## A reader is the stream

Calls in any order read from the stream what they would read from a file. -/

/-- A call of one of the buffered functions. -/
inductive Call where
  | readnb (n : Nat)
  | readlineb (maxlen : Nat)

namespace Call

/-- What it does to a reader. -/
def run : Call → Reader → Option (Int × Bytes × Reader)
  | readnb n => rioReadnb n
  | readlineb maxlen => rioReadlineb maxlen

/-- There is room for a byte and the NUL, and the length is an `int`. -/
def Ok : Call → Prop
  | readnb _ => True
  | readlineb maxlen => 1 < maxlen ∧ maxlen < 2 ^ 31

/-- What it should return and store when the bytes `u` are to be read, and what it leaves. -/
def spec : Call → Bytes → (Int × Bytes) × Bytes
  | readnb n, u => (((u.take n).length, u.take n), u.drop n)
  | readlineb maxlen, u =>
      match fgets maxlen u with
      | none => ((0, []), [])
      | some (line, rest) => ((line.length, line ++ [0]), rest)

end Call

/-- Calls one after the other, up to one that returns -1. -/
def runCalls : List Call → Reader → Option (List (Int × Bytes) × Reader)
  | [], s => some ([], s)
  | c :: cs, s =>
      match c.run s with
      | none => none
      | some (ret, stored, s) =>
          if ret < 0 then some ([(ret, stored)], s)
          else (runCalls cs s).map fun (results, s) => ((ret, stored) :: results, s)

/-- Calls on the stream. -/
def specCalls : List Call → Bytes → List (Int × Bytes) × Bytes
  | [], u => ([], u)
  | c :: cs, u =>
      let (result, u) := c.spec u
      let (results, u) := specCalls cs u
      (result :: results, u)

theorem Call.run_spec {c : Call} (hc : c.Ok) (s : Reader) : ∃ ret stored s',
    c.run s = some (ret, stored, s') ∧ s'.fd.SameWrites s.fd ∧
      (s.fd.ReadsQuiet → 0 ≤ ret ∧ s'.fd.ReadsQuiet) ∧
      (0 ≤ ret → c.spec s.unread = ((ret, stored), s'.unread)) ∧
      (ret < 0 → ret = -1 ∧ s.unread = stored ++ s'.unread) := by
  cases c with
  | readnb n =>
      obtain ⟨⟨done, stored, s'⟩, hrun, h⟩ :=
        Source.fetch_spec Reader.serves n s (Nat.lt_succ_self n)
      have hsame := Source.fetch_keeps (P := fun t => t.fd.SameWrites s.fd)
        (fun _ _ _ _ hread ht => (rioRead_sameWrites hread).trans ht) hrun ⟨rfl, rfl⟩
      refine ⟨retOf done stored, stored, s', ?_, hsame,
        fun hq => ?_, fun hret => ?_, fun hret => ?_⟩
      · rw [Call.run, rioReadnb, hrun, Option.map_some]
      · obtain ⟨hdone, hq'⟩ := h.goesOn hq
        have hdone' : done = true := hdone
        rw [hdone']
        exact ⟨Int.natCast_nonneg _, hq'⟩
      · cases done with
        | false => exact absurd hret (show ¬ (0 : Int) ≤ -1 by decide)
        | true =>
            have hall : stored = s.unread.take n := h.all rfl
            have hrest : s.unread = stored ++ s'.unread := h.rest
            have hdrop : s.unread.drop n = s'.unread := by
              rw [hall] at hrest
              exact List.append_cancel_left ((List.take_append_drop n _).trans hrest)
            rw [Call.spec, hdrop, ← hall]
            rfl
      · cases done with
        | false => exact ⟨rfl, h.rest⟩
        | true => exact absurd hret (Int.not_lt.mpr (Int.natCast_nonneg _))
  | readlineb maxlen =>
      obtain ⟨⟨ret, stored, s'⟩, hrun, h⟩ := rioReadlineb_spec hc.2 s
      refine ⟨ret, stored, s', hrun, h.writes, h.goesOn, fun hret => ?_, fun hret => ?_⟩
      · have hrest := h.rest hret
        have hstored := h.stored hret
        have hlen := h.ret hret
        dsimp only at hrest hstored hlen
        by_cases hnil : s.unread = []
        · rw [if_pos ⟨hc.1, hnil⟩] at hstored
          have hdry : s'.unread = [] := (List.append_eq_nil_iff.mp (hrest.symm.trans hnil)).2
          have hzero : ret = 0 := by
            rw [hlen, hnil]
            cases maxlen - 1 <;> rfl
          rw [Call.spec, hnil, fgets_nil, hstored, hdry, hzero]
        · rw [if_neg fun h => hnil h.2] at hstored
          have hdrop : s.unread.drop (lineOf (maxlen - 1) s.unread).length = s'.unread := by
            have hwhole := List.prefix_iff_eq_append.mp (lineOf_begins (maxlen - 1) s.unread)
            exact List.append_cancel_left (hwhole.trans hrest)
          rw [Call.spec, fgets_eq_lineOf maxlen hnil]
          dsimp only
          rw [hdrop, hstored, hlen]
      · exact ⟨(h.failed hret).1, (h.failed hret).2.1⟩

/-- **A reader refines the stream.**  Whatever the sizes of the pieces that come in, calls of the
buffered functions (of `rio_readlineb` with a `maxlen` from 2 on that is an `int`) return and store
what they should for the bytes of the stream, and leave the others; if a call returns -1 the calls
before it have done so. -/
theorem reader_refines_stream {calls : List Call} (hcalls : ∀ c ∈ calls, c.Ok) (s : Reader) :
    ∃ results s', runCalls calls s = some (results, s') ∧
      (s.fd.ReadsQuiet → (results, s'.unread) = specCalls calls s.unread) ∧
      (results <+: (specCalls calls s.unread).1 ∨ ∃ done stored, results = done ++ [(-1, stored)] ∧
        done <+: (specCalls calls s.unread).1) := by
  induction calls generalizing s with
  | nil => exact ⟨[], s, rfl, fun _ => rfl, .inl List.nil_prefix⟩
  | cons c cs ih =>
      obtain ⟨hc, hcs⟩ := List.forall_mem_cons.mp hcalls
      obtain ⟨ret, stored, s₁, hrun, -, hquiet, hspec, hfailed⟩ := c.run_spec hc s
      by_cases hret : ret < 0
      · refine ⟨[(ret, stored)], s₁, by simp only [runCalls, hrun, if_pos hret], fun hq => ?_, ?_⟩
        · exact absurd (hquiet hq).1 (Int.not_le.mpr hret)
        · exact .inr ⟨[], stored, by rw [(hfailed hret).1, List.nil_append], List.nil_prefix⟩
      have hone := hspec (Int.not_lt.mp hret)
      obtain ⟨results, s', hrest, hquiet', hpre⟩ := ih hcs s₁
      have hcalls' : specCalls (c :: cs) s.unread
          = ((ret, stored) :: (specCalls cs s₁.unread).1, (specCalls cs s₁.unread).2) := by
        simp only [specCalls, hone]
      refine ⟨(ret, stored) :: results, s', ?_, fun hq => ?_, ?_⟩
      · simp only [runCalls, hrun, if_neg hret, hrest, Option.map_some]
      · rw [hcalls', ← hquiet' (hquiet hq).2]
      · rw [hcalls']
        obtain hpre | ⟨done, last, rfl, hpre⟩ := hpre
        · exact .inl (List.cons_prefix_cons.mpr ⟨rfl, hpre⟩)
        · exact .inr ⟨(ret, stored) :: done, last, rfl, List.cons_prefix_cons.mpr ⟨rfl, hpre⟩⟩

/-- A `rio_t` that starts in memory that is zero. -/
def Rio.blank : Rio := .readinitb (List.replicate rioBufsize 0) (List.length_replicate ..)

/-- A reader that starts, with two lines that come in piece by piece. -/
def twoLines : Reader where
  rp := .blank
  fd := {
    incoming := ascii "ab" ++ [newline] ++ ascii "cd"
    reads := [.moved 1, .interrupted, .moved 3]
    writes := []
    accepted := []
    eintr := false }

theorem reader_refines_stream_twoLines : ∃ s',
    runCalls [.readlineb 10, .readnb 5] twoLines
      = some ([(3, ascii "ab" ++ [newline, 0]), (2, ascii "cd")], s') ∧ s'.unread = [] := by
  have hunread : twoLines.unread = ascii "ab" ++ [newline] ++ ascii "cd" :=
    Reader.unread_of_le (Int.le_refl 0)
  have hcalls : ∀ c ∈ [Call.readlineb 10, .readnb 5], c.Ok := by simp [Call.Ok]
  obtain ⟨results, s', hrun, hquiet, -⟩ := reader_refines_stream hcalls twoLines
  have hall := hquiet (show twoLines.fd.ReadsQuiet by decide)
  rw [hunread] at hall
  obtain ⟨rfl, hrest⟩ := Prod.mk.inj hall
  exact ⟨s', hrun, hrest⟩

/-! ## Writing -/

/-- The side that is read from is the same. -/
def Socket.SameReads (fd' fd : Socket) : Prop := fd'.incoming = fd.incoming ∧ fd'.reads = fd.reads

theorem Socket.SameReads.trans {fd fd' fd'' : Socket} (h : fd''.SameReads fd')
    (h' : fd'.SameReads fd) : fd''.SameReads fd :=
  ⟨h.1.trans h'.1, h.2.trans h'.2⟩

/-- What a write of some bytes does: it moves some of them, or none. -/
theorem Socket.write_cases {bytes : Bytes} (hne : bytes ≠ []) (fd : Socket) :
    ∃ r fd', fd.write bytes = (r, fd') ∧ fd'.SameReads fd ∧ fd'.writes <:+ fd.writes ∧
      ((∃ k < bytes.length, r = some (k + 1) ∧ fd'.accepted = fd.accepted ++ bytes.take (k + 1)) ∨
        (r = none ∨ r = some 0) ∧ fd'.accepted = fd.accepted ∧
          fd'.writes.length < fd.writes.length ∧ (fd'.eintr = false → ¬ fd.WritesQuiet)) := by
  have hpos := List.length_pos_iff.mpr hne
  cases hwrites : fd.writes with
  | nil =>
      refine ⟨some bytes.length, { fd with accepted := fd.accepted ++ bytes },
        by simp only [write, hwrites], ⟨rfl, rfl⟩, hwrites ▸ List.suffix_refl _,
        .inl ⟨bytes.length - 1, by omega, by rw [Nat.sub_add_cancel hpos], ?_⟩⟩
      rw [Nat.sub_add_cancel hpos, List.take_length]
  | cons o writes =>
      have hbad : o = .failed ∨ o = .moved 0 → ¬ fd.WritesQuiet := by
        intro ho hq
        have hnot := hq o (hwrites ▸ List.mem_cons_self)
        exact ho.elim hnot.1 hnot.2
      cases o with
      | moved k =>
          refine ⟨some (min k bytes.length),
            { fd with accepted := fd.accepted ++ bytes.take k, writes := writes },
            by simp only [write, hwrites], ⟨rfl, rfl⟩, List.suffix_cons _ _, ?_⟩
          cases k with
          | zero =>
              refine .inr ⟨.inr (by rw [Nat.zero_min]), ?_, Nat.lt_succ_self _,
                fun _ => hbad (.inr rfl)⟩
              rw [List.take_zero, List.append_nil]
          | succ k =>
              refine .inl ⟨min (k + 1) bytes.length - 1, by omega, ?_, ?_⟩
              · rw [Nat.sub_add_cancel (by omega)]
              · rw [Nat.sub_add_cancel (by omega), ← List.take_eq_take_min]
      | interrupted =>
          exact ⟨none, { fd with writes := writes, eintr := true }, by simp only [write, hwrites],
            ⟨rfl, rfl⟩, List.suffix_cons _ _, .inr ⟨.inl rfl, rfl, Nat.lt_succ_self _, nofun⟩⟩
      | failed =>
          exact ⟨none, { fd with writes := writes, eintr := false }, by simp only [write, hwrites],
            ⟨rfl, rfl⟩, List.suffix_cons _ _,
            .inr ⟨.inl rfl, rfl, Nat.lt_succ_self _, fun _ => hbad (.inl rfl)⟩⟩

/-- What `rio_writen` comes to: everything is accepted, or some of it and a failure. -/
structure Written (usrbuf : Bytes) (n : Nat) (fd : Socket) (out : Int × Socket) : Prop where
  reads : out.2.SameReads fd
  goesOn : fd.WritesQuiet → out.1 = n ∧ out.2.WritesQuiet
  all : 0 ≤ out.1 → out.1 = n ∧ out.2.accepted = fd.accepted ++ usrbuf.take n
  some : out.1 < 0 → ∃ k < n, out.2.accepted = fd.accepted ++ usrbuf.take k

/-- In the loop of `rio_writen`: so much has been accepted. -/
structure Writing (usrbuf : Bytes) (n : Nat) (fd : Socket) (w : WriteLoop) : Prop where
  count : w.bufp + w.nleft = n
  reads : w.fd.SameReads fd
  accepted : w.fd.accepted = fd.accepted ++ usrbuf.take w.bufp
  writes : w.fd.writes <:+ fd.writes

theorem Writing.round {usrbuf : Bytes} {n : Nat} (hn : n ≤ usrbuf.length) {fd : Socket}
    {w : WriteLoop} (h : Writing usrbuf n fd w) :
    (∃ w', writeBody usrbuf n w = .next w' ∧ Writing usrbuf n fd w' ∧
      w'.nleft + w'.fd.writes.length < w.nleft + w.fd.writes.length) ∨
    ∃ out, writeBody usrbuf n w = .ret out ∧ Written usrbuf n fd out := by
  obtain ⟨hcount, hsame, haccepted, hwrites⟩ := h
  by_cases hleft : w.nleft = 0
  · obtain rfl : w.bufp = n := by omega
    refine .inr ⟨_, by rw [writeBody, if_pos hleft], hsame, fun hq => ⟨rfl, fun o ho => ?_⟩,
      fun _ => ⟨rfl, haccepted⟩, fun hneg => absurd hneg (Int.not_lt.mpr (Int.natCast_nonneg _))⟩
    exact hq o (hwrites.subset ho)
  have hlen : ((usrbuf.drop w.bufp).take w.nleft).length = w.nleft := by
    rw [List.length_take, List.length_drop]
    omega
  have hne : (usrbuf.drop w.bufp).take w.nleft ≠ [] := by
    intro hnil
    rw [hnil] at hlen
    exact hleft hlen.symm
  obtain ⟨r, fd₁, hwrite, hsame₁, hsuffix, ⟨k, hk, rfl, hmoved⟩ | ⟨hr, hmoved, hless, hbad⟩⟩ :=
    w.fd.write_cases hne
  · rw [hlen] at hk
    refine .inl ⟨⟨w.nleft - (k + 1), w.bufp + (k + 1), fd₁⟩,
      by simp only [writeBody, if_neg hleft, hwrite], ⟨?_, hsame₁.trans hsame, ?_,
      hsuffix.trans hwrites⟩, ?_⟩
    · dsimp only
      omega
    · dsimp only
      rw [hmoved, haccepted, List.take_take, Nat.min_eq_left (by omega), List.append_assoc,
        ← List.take_add]
    · have := hsuffix.length_le
      dsimp only
      omega
  · have hbody : writeBody usrbuf n w
        = if fd₁.eintr then .next { w with fd := fd₁ } else .ret (-1, fd₁) := by
      obtain rfl | rfl := hr <;> simp only [writeBody, if_neg hleft, hwrite]
    have haccepted₁ := hmoved.trans haccepted
    cases heintr : fd₁.eintr with
    | true =>
        rw [if_pos heintr] at hbody
        exact .inl ⟨_, hbody, ⟨hcount, hsame₁.trans hsame, haccepted₁, hsuffix.trans hwrites⟩,
          Nat.add_lt_add_left hless _⟩
    | false =>
        rw [if_neg (by simp [heintr])] at hbody
        refine .inr ⟨_, hbody, hsame₁.trans hsame, fun hq => ?_, nofun,
          fun _ => ⟨w.bufp, by omega, haccepted₁⟩⟩
        exact (hbad heintr fun o ho => hq o (hwrites.subset ho)).elim

/-- **`rio_writen` returns**, and this is what it comes to. -/
theorem rioWriten_spec {usrbuf : Bytes} {n : Nat} (hn : n ≤ usrbuf.length) (fd : Socket) :
    ∃ out, rioWriten usrbuf n fd = some out ∧ Written usrbuf n fd out := by
  have hstart : Writing usrbuf n fd ⟨n, 0, fd⟩ :=
    ⟨Nat.zero_add n, ⟨rfl, rfl⟩, by simp, List.suffix_refl _⟩
  exact Loop.run_spec (fun w => w.nleft + w.fd.writes.length) (fun _ h => h.round hn) hstart
    (Nat.lt_succ_self _)

end InternetLabs.Csapp
