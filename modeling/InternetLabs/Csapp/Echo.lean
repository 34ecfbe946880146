/-
# `InternetLabs.Csapp.Echo` — the echo service

`echo` reads lines with `Rio_readlineb` and writes each of them back with `Rio_writen`.  The
two wrappers leave the program when a call has failed (`unix_error`), so `echo` returns or the
program exits.  What the peer has been sent is at every moment the front of what it has sent
(`echo_echoes`), and all of it once `echo` returns.
-/
import InternetLabs.Csapp.Rio

namespace InternetLabs.Csapp

open InternetLabs

/-- `MAXLINE`. -/
def maxline : Nat := 8192

/-- The variables of `echo`. -/
structure EchoLoop where
  buf : Bytes
  source : Reader

/-- How `echo` ends: it returns, or `unix_error` leaves the program. -/
inductive Ended where
  | returned
  | exited
deriving DecidableEq

/-- One round of `echo`. -/
def echoBody (l : EchoLoop) : Step EchoLoop (Ended × Socket) :=
  match rioReadlineb maxline l.source with
  | none => .fault
  | some (n, stored, s) =>
      if n < 0 then .ret (.exited, s.fd)
      else if n = 0 then .ret (.returned, s.fd)
      else
        let buf := writeAt l.buf 0 stored
        match rioWriten buf n.toNat s.fd with
        | none => .fault
        | some (ret, fd) => if ret = n then .next ⟨buf, s.rp, fd⟩ else .ret (.exited, fd)

/-- The peer gets back the front of what it sends, and all of it when `echo` returns. -/
structure Echoed (connfd : Socket) (out : Ended × Socket) : Prop where
  front : ∃ sent, sent <+: connfd.incoming ∧ out.2.accepted = connfd.accepted ++ sent
  all : out.1 = .returned → out.2.accepted = connfd.accepted ++ connfd.incoming
  returns : connfd.ReadsQuiet → connfd.WritesQuiet → out.1 = .returned

/-- What `Rio_readlineb` comes to: a failure, the end, or a line that is in `buf`. -/
inductive LineRead (s : Reader) (n : Int) (stored : Bytes) (s' : Reader) : Prop
  | failed (h : n < 0) (quiet : ¬ s.fd.ReadsQuiet)
  | eof (h : n = 0) (unread : s.unread = [])
  | line (line : Bytes) (h : n = line.length) (pos : 0 < n) (stored : stored = line ++ [0])
      (unread : s.unread = line ++ s'.unread)

theorem readline_cases (s : Reader) : ∃ n stored s', rioReadlineb maxline s = some (n, stored, s') ∧
    s'.fd.SameWrites s.fd ∧ (s.fd.ReadsQuiet → s'.fd.ReadsQuiet) ∧ LineRead s n stored s' := by
  obtain ⟨⟨n, stored, s'⟩, hread, h⟩ := rioReadlineb_spec (show maxline < 2 ^ 31 by decide) s
  refine ⟨n, stored, s', hread, h.writes, fun hq => (h.goesOn hq).2, ?_⟩
  by_cases hneg : n < 0
  · exact .failed hneg fun hq => absurd (h.goesOn hq).1 (Int.not_le.mpr hneg)
  have hpos : 0 ≤ n := Int.not_lt.mp hneg
  have hret := h.ret hpos
  dsimp only at hret
  by_cases hunread : s.unread = []
  · rw [hunread] at hret
    exact .eof hret hunread
  · have hline := lineOf_ne_nil (show 0 < maxline - 1 by decide) hunread
    have hlen := List.length_pos_iff.mpr hline
    refine .line _ hret (by omega) ?_ (h.rest hpos)
    have hstored := h.stored hpos
    rwa [if_neg fun hand => hunread hand.2] at hstored

theorem writeline_cases {buf line : Bytes} {n : Int} (hn : n = line.length)
    (hbuf : buf.take line.length = line) (fd : Socket) :
    ∃ ret fd', rioWriten buf n.toNat fd = some (ret, fd') ∧ fd'.SameReads fd ∧
      (fd.WritesQuiet → ret = n ∧ fd'.WritesQuiet) ∧
      ∃ sent, sent <+: line ∧ fd'.accepted = fd.accepted ++ sent ∧ (ret = n → sent = line) := by
  have hlen : n.toNat = line.length := by omega
  have hfits : n.toNat ≤ buf.length := by
    rw [hlen, ← congrArg List.length hbuf, List.length_take]
    omega
  obtain ⟨⟨ret, fd'⟩, hwrite, h⟩ := rioWriten_spec hfits fd
  have hgood : fd.WritesQuiet → ret = n ∧ fd'.WritesQuiet := by
    intro hq
    obtain ⟨hret, hq'⟩ := h.goesOn hq
    dsimp only at hret
    exact ⟨by omega, hq'⟩
  refine ⟨ret, fd', hwrite, h.reads, hgood, ?_⟩
  by_cases hneg : ret < 0
  · obtain ⟨k, hlt, hk⟩ := h.some hneg
    refine ⟨(buf.take n.toNat).take k, ?_, ?_, fun hret => ?_⟩
    · rw [hlen, hbuf]
      exact List.take_prefix k line
    · rw [List.take_take, Nat.min_eq_left hlt.le]
      exact hk
    · omega
  · refine ⟨line, List.prefix_refl _, ?_, fun _ => rfl⟩
    rw [← hbuf, ← hlen]
    exact (h.all (Int.not_lt.mp hneg)).2

theorem take_writeAt_line (buf line : Bytes) :
    (writeAt buf 0 (line ++ [0])).take line.length = line := by
  rw [writeAt_zero, List.append_assoc, List.take_left]

/-- In the loop of `echo`: what has been read has been sent back. -/
structure Echoing (connfd : Socket) (l : EchoLoop) : Prop where
  echoed : ∃ sent, l.source.fd.accepted = connfd.accepted ++ sent ∧
    sent ++ l.source.unread = connfd.incoming
  reads : connfd.ReadsQuiet → l.source.fd.ReadsQuiet
  writes : connfd.WritesQuiet → l.source.fd.WritesQuiet

theorem Echoing.round {connfd : Socket} {l : EchoLoop} (h : Echoing connfd l) :
    (∃ l', echoBody l = .next l' ∧ Echoing connfd l' ∧
      l'.source.unread.length < l.source.unread.length) ∨
    ∃ out, echoBody l = .ret out ∧ Echoed connfd out := by
  obtain ⟨⟨sent, haccepted, hsent⟩, hreads, hwrites⟩ := h
  obtain ⟨n, stored, s, hread, hsame, hreads', hline⟩ := readline_cases l.source
  have haccepted' : s.fd.accepted = connfd.accepted ++ sent := hsame.2.trans haccepted
  have hwrites' : connfd.WritesQuiet → s.fd.WritesQuiet := by
    intro hq
    rw [Socket.WritesQuiet, hsame.1]
    exact hwrites hq
  cases hline with
  | failed hneg hnot =>
      exact .inr ⟨(.exited, s.fd), by simp only [echoBody, hread, if_pos hneg],
        ⟨sent, ⟨_, hsent⟩, haccepted'⟩, (fun h => by cases h), fun hq _ => (hnot (hreads hq)).elim⟩
  | eof hzero hend =>
      rw [hend, List.append_nil] at hsent
      refine .inr ⟨(.returned, s.fd), ?_, ⟨sent, hsent ▸ List.prefix_refl _, haccepted'⟩,
        fun _ => by rw [haccepted', hsent], fun _ _ => rfl⟩
      simp only [echoBody, hread, hzero, if_neg (Int.lt_irrefl 0), if_true]
  | line line hn hpos hstored hrest =>
      rw [hrest] at hsent
      have hbuf : (writeAt l.buf 0 stored).take line.length = line := by
        rw [hstored]
        exact take_writeAt_line l.buf line
      obtain ⟨ret, fd, hwrite, hkept, hgood, more, hmore, hmoved, hall⟩ :=
        writeline_cases hn hbuf s.fd
      have hunread' : (⟨s.rp, fd⟩ : Reader).unread = s.unread := by
        rw [Reader.unread, hkept.1]
        rfl
      have hneg : ¬ n < 0 := Int.not_lt.mpr hpos.le
      by_cases hret : ret = n
      · obtain rfl := hall hret
        refine .inl ⟨⟨writeAt l.buf 0 stored, s.rp, fd⟩, ?_, ⟨⟨sent ++ more, ?_, ?_⟩, fun hq => ?_,
          fun hq => (hgood (hwrites' hq)).2⟩, ?_⟩
        · simp only [echoBody, hread, if_neg hneg, if_neg hpos.ne', hwrite, if_pos hret]
        · rw [hmoved, haccepted', List.append_assoc]
        · rw [hunread', List.append_assoc, hsent]
        · rw [Socket.ReadsQuiet, hkept.2]
          exact hreads' (hreads hq)
        · dsimp only
          rw [hunread', hrest, List.length_append]
          omega
      · refine .inr ⟨(.exited, fd), ?_, ⟨sent ++ more, ?_, ?_⟩, (fun h => by cases h),
          fun _ hq => (hret (hgood (hwrites' hq)).1).elim⟩
        · simp only [echoBody, hread, if_neg hneg, if_neg hpos.ne', hwrite, if_neg hret]
        · rw [← hsent]
          exact (List.prefix_append_right_inj sent).mpr (hmore.trans (List.prefix_append _ _))
        · rw [hmoved, haccepted', List.append_assoc]

/-- The bytes that the lines say they count. -/
def total (printed : List (Nat × Int)) : Nat := (printed.map Prod.fst).sum

/-- Every line that is printed shows the bytes counted up to it. -/
def RunningTotals (printed : List (Nat × Int)) : Prop :=
  ∀ (before : List (Nat × Int)) (n : Nat) (cnt : Int) (after : List (Nat × Int)),
    printed = before ++ (n, cnt) :: after → cnt = total before + n

theorem total_concat (printed : List (Nat × Int)) (x : Nat × Int) :
    total (printed ++ [x]) = total printed + x.1 := by
  rw [total, total, List.map_append, List.sum_append, List.map_singleton, List.sum_singleton]

theorem RunningTotals.concat {printed : List (Nat × Int)} (h : RunningTotals printed) {n : Nat}
    {cnt : Int} (hcnt : cnt = total printed + n) : RunningTotals (printed ++ [(n, cnt)]) := by
  intro before m cnt' after heq
  obtain rfl | ⟨after, x, rfl⟩ := List.eq_nil_or_concat after
  · obtain ⟨rfl, hlast⟩ := List.append_inj' heq rfl
    obtain ⟨rfl, rfl⟩ := Prod.mk.inj (List.cons.inj hlast).1
    exact hcnt
  · rw [List.concat_eq_append, ← List.cons_append, ← List.append_assoc] at heq
    exact h before m cnt' after (List.append_inj' heq rfl).1

end InternetLabs.Csapp
