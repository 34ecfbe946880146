/-
# `InternetLabs.SimpleIm.Until` — receiving up to a newline

`recv_comm_until` of `simple_im.c` looks for the needle in all it has received so far, with
`strstr`, so that what it has received has to be a string.  The block it starts with is cleared,
and as long as there are fewer bytes than it is long a NUL is behind them (`Holding`).  At 1024
bytes there is none any more, and beyond that what follows them is what `realloc` has found in
the memory it adds (`Holding.round_overflow`).

Memory is always granted here.
-/
import InternetLabs.Lib.CText
import InternetLabs.Lib.Scan
import InternetLabs.SimpleIm.Comm

namespace InternetLabs.SimpleIm

open InternetLabs

/-- `TEMP_BUF_LEN`, and what `buffer_length` always is. -/
def tempBufLen : Nat := 1024

/-- What a call of `recv` comes to. -/
inductive Recv where
  | chunk (bytes : Bytes)
  | closed
  | interrupted
  | failed
deriving DecidableEq

/-- The block at `*buffer`, `total_bytes_read`, and where the function is. -/
structure Until where
  block : Bytes
  total : Nat
  phase : Phase

/-- `realloc(block, size)`; `fresh size` is what the memory it adds contains. -/
def realloc (fresh : Nat → Nat → UInt8) (block : Bytes) (size : Nat) : Bytes :=
  block.take size ++ (List.range' block.length (size - block.length)).map (fresh size)

namespace Until

/-- `while (strstr(*buffer, needle) == NULL)`, and the `return` behind it. -/
def test (needle : Bytes) (s : Until) : Until :=
  if 0 ∈ s.block then
    if strstr needle s.block = none then s else { s with phase := .returned 0 }
  else { s with phase := .fault }

/-- `realloc`, if there are too many bytes, and `memcpy`; `none` where an `int` overflows. -/
def store (fresh : Nat → Nat → UInt8) (bytes : Bytes) (s : Until) : Option Until :=
  let size := s.total + bytes.length
  if size > tempBufLen then
    if size * 2 ≤ intMax then
      some { s with
        block := writeAt (realloc fresh s.block (size * 2)) s.total bytes
        total := size }
    else none
  else some { s with block := writeAt s.block s.total bytes, total := size }

/-- One round.  If `recv` fails, `memcpy` is to copy -1 bytes. -/
def round (needle : Bytes) (fresh : Nat → Nat → UInt8) (o : Recv) (s : Until) : Option Until :=
  if s.phase ≠ .running then none
  else
    match o with
    | .chunk bytes =>
        if 0 < bytes.length ∧ bytes.length ≤ tempBufLen then
          match s.store fresh bytes with
          | none => some { s with phase := .fault }
          | some s => some (s.test needle)
        else none
    | .closed => some { s with phase := .returned (-1) }
    | .interrupted => some (s.test needle)
    | .failed => some { s with phase := .fault }

/-- The first evaluation of the condition. -/
def start (needle : Bytes) : Until :=
  test needle { block := List.replicate tempBufLen 0, total := 0, phase := .running }

end Until

/-- `recv_comm_until(socket, buffer, "\n")`, while `recv` comes to one thing after the other. -/
def recvCommUntil (fresh : Nat → Nat → UInt8) (script : List Recv) : Option Until :=
  System.exec (Until.round [newline] fresh) script (Until.start [newline])

/-! ## What it should do

The block is a string whenever the condition is evaluated, and 0 is returned when it has
the needle. -/

/-- A piece of the text, or a signal. -/
inductive Recv.Delivered : Recv → Prop
  | chunk {bytes : Bytes} (hpos : 0 < bytes.length) (hle : bytes.length ≤ tempBufLen)
      (hnul : (0 : UInt8) ∉ bytes) : Delivered (.chunk bytes)
  | interrupted : Delivered .interrupted

def received (script : List Recv) : Bytes :=
  script.flatMap fun o => match o with
    | .chunk bytes => bytes
    | _ => []

/-- Up to the first piece with a newline. -/
def untilNewline : List Recv → List Recv
  | [] => []
  | .chunk bytes :: rest =>
      if newline ∈ bytes then [.chunk bytes] else .chunk bytes :: untilNewline rest
  | o :: rest => o :: untilNewline rest

/-- When the condition has been evaluated `*buffer` is the string `text`, and 0 has been returned
if it has a newline. -/
structure Accumulated (text : Bytes) (s : Until) : Prop where
  nul : 0 ∈ s.block
  string : cstr s.block = text
  phase : s.phase = if newline ∈ text then .returned 0 else .running

/-- The function collects what it is sent up to the first newline, and returns there. -/
def Accumulates (script : List Recv) : Prop :=
  ∀ fresh past, past <+: untilNewline script →
    ∃ s, recvCommUntil fresh past = some s ∧ Accumulated (received past) s

/-! ## A round

`realloc` keeps the string and adds memory of any content behind it. -/

/-- What the block holds before the first newline, while a NUL fits behind it. -/
structure Holding (text : Bytes) (s : Until) : Prop where
  block : s.block = text ++ (List.replicate tempBufLen 0).drop text.length
  total : s.total = text.length
  running : s.phase = .running
  lt : text.length < tempBufLen
  noNul : (0 : UInt8) ∉ text
  noNewline : newline ∉ text

section Round
variable {text bytes needle : Bytes} {s s' : Until} {fresh : Nat → Nat → UInt8}

theorem Until.test_block (needle : Bytes) (s : Until) : (s.test needle).block = s.block := by
  unfold Until.test
  split
  · split <;> rfl
  · rfl

theorem round_chunk (hrunning : s.phase = .running) (hpos : 0 < bytes.length)
    (hle : bytes.length ≤ tempBufLen) (hstore : s.store fresh bytes = some s') :
    Until.round needle fresh (.chunk bytes) s = some (s'.test needle) := by
  simp only [Until.round, hrunning, ne_eq, not_true_eq_false, if_false, hpos, hle, and_self,
    if_true, hstore]

theorem round_interrupted (hrunning : s.phase = .running) :
    Until.round needle fresh .interrupted s = some (s.test needle) := by
  simp only [Until.round, hrunning, ne_eq, not_true_eq_false, if_false]

theorem accumulated_test (htext : (0 : UInt8) ∉ text) {tail : Bytes}
    (hblock : s.block = text ++ 0 :: tail) (hrunning : s.phase = .running) :
    Accumulated text (s.test [newline]) ∧ (newline ∉ text → s.test [newline] = s) := by
  have hnul : 0 ∈ s.block := by
    rw [hblock]
    exact List.mem_append_right _ List.mem_cons_self
  have hcstr : cstr s.block = text := by rw [hblock, cstr_append_zero htext]
  have hfind : strstr [newline] s.block = none ↔ newline ∉ text := by
    rw [hblock, strstr_append_zero (by decide) (by decide), strstr_singleton_eq_none_iff htext]
  rw [Until.test, if_pos hnul]
  by_cases hnewline : newline ∈ text
  · rw [if_neg (mt hfind.mp (not_not.mpr hnewline))]
    exact ⟨⟨hnul, hcstr, (if_pos hnewline).symm⟩, fun h => absurd hnewline h⟩
  · rw [if_pos (hfind.mpr hnewline)]
    exact ⟨⟨hnul, hcstr, by rw [hrunning, if_neg hnewline]⟩, fun _ => rfl⟩

theorem exists_drop_replicate {n : Nat} (hlt : n < tempBufLen) :
    ∃ tail, (List.replicate tempBufLen (0 : UInt8)).drop n = 0 :: tail := by
  obtain ⟨k, hk⟩ : ∃ k, tempBufLen - n = k + 1 := ⟨tempBufLen - n - 1, by omega⟩
  exact ⟨List.replicate k 0, by rw [List.drop_replicate, hk, List.replicate_succ]⟩

theorem Holding.test (h : Holding text s) : Accumulated text s ∧ s.test [newline] = s := by
  obtain ⟨tail, htail⟩ := exists_drop_replicate h.lt
  obtain ⟨hacc, hsame⟩ := accumulated_test h.noNul (htail ▸ h.block) h.running
  have heq := hsame h.noNewline
  exact ⟨heq ▸ hacc, heq⟩

theorem Holding.store_of_le (h : Holding text s) (hle : (text ++ bytes).length ≤ tempBufLen) :
    s.store fresh bytes = some
      { block := (text ++ bytes) ++ (List.replicate tempBufLen 0).drop (text ++ bytes).length
        total := (text ++ bytes).length
        phase := .running } := by
  have hsize : s.total + bytes.length = (text ++ bytes).length := by
    rw [h.total, List.length_append]
  rw [Until.store, hsize, if_neg (by omega), h.block, h.total, writeAt_built, h.running]

/-- A piece that does: behind it there is what the block has got. -/
theorem Holding.store_of_gt (h : Holding text s) (hgt : tempBufLen < (text ++ bytes).length)
    (hle : bytes.length ≤ tempBufLen) : ∃ tail : Bytes,
      (∀ b ∈ tail, ∃ i, b = fresh ((text ++ bytes).length * 2) i) ∧
      s.store fresh bytes = some
        { block := (text ++ bytes) ++ tail
          total := (text ++ bytes).length
          phase := .running } := by
  have hlt := h.lt
  have hmax : tempBufLen = 1024 := rfl
  have hsize : s.total + bytes.length = (text ++ bytes).length := by
    rw [h.total, List.length_append]
  have hint : (((text ++ bytes).length : ℕ) : Int) * 2 ≤ intMax := by
    rw [List.length_append, intMax]
    push_cast
    omega
  have hblock : s.block.length = tempBufLen := by
    rw [h.block, List.length_append, List.length_drop, List.length_replicate]
    omega
  obtain ⟨stale, hstale⟩ : ∃ stale, stale = (List.range' tempBufLen
      ((text ++ bytes).length * 2 - tempBufLen)).map (fresh ((text ++ bytes).length * 2)) :=
    ⟨_, rfl⟩
  have hrealloc : realloc fresh s.block ((text ++ bytes).length * 2)
      = text ++ (List.replicate tempBufLen 0 ++ stale).drop text.length := by
    rw [realloc, hblock, List.take_of_length_le (by omega), ← hstale, h.block, List.append_assoc,
      List.drop_append_of_le_length (by rw [List.length_replicate]; exact hlt.le)]
  have hbehind : (List.replicate tempBufLen (0 : UInt8) ++ stale).drop (text ++ bytes).length
      = stale.drop ((text ++ bytes).length - tempBufLen) := by
    rw [List.drop_append, List.length_replicate, List.drop_replicate,
      Nat.sub_eq_zero_of_le hgt.le, List.replicate_zero, List.nil_append]
  refine ⟨stale.drop ((text ++ bytes).length - tempBufLen), fun b hb => ?_, ?_⟩
  · rw [hstale] at hb
    obtain ⟨i, -, hi⟩ := List.mem_map.mp (List.mem_of_mem_drop hb)
    exact ⟨i, hi.symm⟩
  · rw [Until.store, hsize, if_pos hgt, if_pos hint, hrealloc, h.total, writeAt_built, hbehind,
      h.running]

/-- **A piece that fits**, with a NUL behind it. -/
theorem Holding.round_chunk (h : Holding text s) (fresh : Nat → Nat → UInt8)
    (hpos : 0 < bytes.length) (hnul : (0 : UInt8) ∉ bytes)
    (hlt : (text ++ bytes).length < tempBufLen) :
    ∃ s', Until.round [newline] fresh (.chunk bytes) s = some s' ∧
      Accumulated (text ++ bytes) s' ∧ (newline ∉ bytes → Holding (text ++ bytes) s') := by
  have hle : bytes.length ≤ tempBufLen := by
    rw [List.length_append] at hlt
    omega
  have hnul' : (0 : UInt8) ∉ text ++ bytes := by
    rw [List.mem_append, not_or]
    exact ⟨h.noNul, hnul⟩
  obtain ⟨tail, htail⟩ := exists_drop_replicate hlt
  refine ⟨_, SimpleIm.round_chunk h.running hpos hle (h.store_of_le hlt.le), ?_⟩
  rw [htail]
  obtain ⟨hacc, hsame⟩ := accumulated_test (s := ⟨_, (text ++ bytes).length, _⟩) hnul' rfl rfl
  refine ⟨hacc, fun hnewline => ?_⟩
  have hnewline' : newline ∉ text ++ bytes := by
    rw [List.mem_append, not_or]
    exact ⟨h.noNewline, hnewline⟩
  rw [hsame hnewline']
  exact ⟨by rw [htail], rfl, rfl, hlt, hnul', hnewline'⟩

/-- **A piece that does not**: there need not be a NUL in the block any more. -/
theorem Holding.round_overflow (h : Holding text s) (hpos : 0 < bytes.length)
    (hle : bytes.length ≤ tempBufLen) (hnul : (0 : UInt8) ∉ bytes)
    (hge : tempBufLen ≤ (text ++ bytes).length) :
    ∃ s', Until.round [newline] (fun _ _ => 97) (.chunk bytes) s = some s' ∧ 0 ∉ s'.block := by
  have hnul' : (0 : UInt8) ∉ text ++ bytes := by
    rw [List.mem_append, not_or]
    exact ⟨h.noNul, hnul⟩
  rcases Nat.lt_or_eq_of_le hge with hgt | heq
  · obtain ⟨tail, htail, hstore⟩ := h.store_of_gt hgt hle
    refine ⟨_, SimpleIm.round_chunk h.running hpos hle hstore, ?_⟩
    rw [Until.test_block, List.mem_append, not_or]
    refine ⟨hnul', fun hmem => ?_⟩
    obtain ⟨i, hi⟩ := htail _ hmem
    exact absurd hi (by decide)
  · refine ⟨_, SimpleIm.round_chunk h.running hpos hle (h.store_of_le heq.ge), ?_⟩
    rw [Until.test_block, ← heq, List.drop_replicate, Nat.sub_self, List.replicate_zero,
      List.append_nil]
    exact hnul'

end Round

/-! ## A run -/

section Script
variable {script past : List Recv} {text bytes : Bytes} {s s' : Until}

theorem received_cons_chunk (bytes : Bytes) (rest : List Recv) :
    received (.chunk bytes :: rest) = bytes ++ received rest := rfl

theorem untilNewline_cons_interrupted (rest : List Recv) :
    untilNewline (.interrupted :: rest) = .interrupted :: untilNewline rest := rfl

theorem untilNewline_of_mem (h : newline ∈ bytes) (rest : List Recv) :
    untilNewline (.chunk bytes :: rest) = [.chunk bytes] := by
  rw [untilNewline, if_pos h]

theorem untilNewline_of_notMem (h : newline ∉ bytes) (rest : List Recv) :
    untilNewline (.chunk bytes :: rest) = .chunk bytes :: untilNewline rest := by
  rw [untilNewline, if_neg h]

/-- **While everything fits.** -/
theorem Holding.exec_accumulated (hs : Holding text s) (hscript : ∀ o ∈ script, o.Delivered)
    (hlt : (text ++ received (untilNewline script)).length < tempBufLen)
    (hpast : past <+: untilNewline script) (fresh : Nat → Nat → UInt8) :
    ∃ s', System.exec (Until.round [newline] fresh) past s = some s' ∧
      Accumulated (text ++ received past) s' := by
  induction script generalizing text s past with
  | nil =>
      obtain rfl := List.prefix_nil.mp hpast
      exact ⟨s, rfl, (List.append_nil text).symm ▸ hs.test.1⟩
  | cons o rest ih =>
      have hrest : ∀ o ∈ rest, o.Delivered := fun o ho => hscript o (List.mem_cons_of_mem _ ho)
      cases past with
      | nil => exact ⟨s, rfl, (List.append_nil text).symm ▸ hs.test.1⟩
      | cons o' past =>
          cases hscript o List.mem_cons_self with
          | interrupted =>
              rw [untilNewline_cons_interrupted] at hlt hpast
              obtain ⟨rfl, hmore⟩ := List.cons_prefix_cons.mp hpast
              rw [System.exec_cons_of_step (round_interrupted hs.running), hs.test.2]
              exact ih hs hrest hlt hmore
          | @chunk bytes hpos hle hnul =>
              by_cases hnewline : newline ∈ bytes
              · rw [untilNewline_of_mem hnewline] at hlt hpast
                obtain ⟨rfl, hmore⟩ := List.cons_prefix_cons.mp hpast
                obtain rfl := List.prefix_nil.mp hmore
                rw [received_cons_chunk, received, List.flatMap_nil, List.append_nil] at hlt ⊢
                obtain ⟨s', hround, hacc, -⟩ := hs.round_chunk fresh hpos hnul hlt
                exact ⟨s', System.exec_cons_of_step hround [], hacc⟩
              · rw [untilNewline_of_notMem hnewline] at hlt hpast
                obtain ⟨rfl, hmore⟩ := List.cons_prefix_cons.mp hpast
                rw [received_cons_chunk, ← List.append_assoc] at hlt ⊢
                have hlt' : (text ++ bytes).length < tempBufLen := by
                  rw [List.length_append] at hlt
                  omega
                obtain ⟨s', hround, -, hholding⟩ := hs.round_chunk fresh hpos hnul hlt'
                rw [System.exec_cons_of_step hround]
                exact ih (hholding hnewline) hrest hlt hmore

/-- **Once something does not.** -/
theorem Holding.exec_overflow (hs : Holding text s) (hscript : ∀ o ∈ script, o.Delivered)
    (hge : tempBufLen ≤ (text ++ received (untilNewline script)).length) :
    ∃ past, past <+: untilNewline script ∧ ∃ s',
      System.exec (Until.round [newline] fun _ _ => 97) past s = some s' ∧ 0 ∉ s'.block := by
  induction script generalizing text s with
  | nil =>
      have hlt := hs.lt
      rw [untilNewline, received, List.flatMap_nil, List.append_nil] at hge
      omega
  | cons o rest ih =>
      have hrest : ∀ o ∈ rest, o.Delivered := fun o ho => hscript o (List.mem_cons_of_mem _ ho)
      cases hscript o List.mem_cons_self with
      | interrupted =>
          rw [untilNewline_cons_interrupted] at hge ⊢
          obtain ⟨past, hpast, s', hexec, hnul⟩ := ih hs hrest hge
          refine ⟨.interrupted :: past, List.cons_prefix_cons.mpr ⟨rfl, hpast⟩, s', ?_, hnul⟩
          rw [System.exec_cons_of_step (round_interrupted hs.running), hs.test.2, hexec]
      | @chunk bytes hpos hle hnul =>
          rcases Nat.lt_or_ge (text ++ bytes).length tempBufLen with hlt | hover
          · -- it is a later piece, so there is no newline in this one
            obtain ⟨s₁, hround, -, hholding⟩ := hs.round_chunk (fun _ _ => 97) hpos hnul hlt
            have hnewline : newline ∉ bytes := by
              intro hnewline
              rw [untilNewline_of_mem hnewline, received_cons_chunk, received, List.flatMap_nil,
                List.append_nil] at hge
              omega
            rw [untilNewline_of_notMem hnewline] at hge ⊢
            rw [received_cons_chunk, ← List.append_assoc] at hge
            obtain ⟨past, hpast, s', hexec, hnul⟩ := ih (hholding hnewline) hrest hge
            refine ⟨.chunk bytes :: past, List.cons_prefix_cons.mpr ⟨rfl, hpast⟩, s', ?_, hnul⟩
            rw [System.exec_cons_of_step hround, hexec]
          · obtain ⟨s', hround, hnul⟩ := hs.round_overflow hpos hle hnul hover
            refine ⟨[.chunk bytes], ?_, s', System.exec_cons_of_step hround [], hnul⟩
            by_cases hnewline : newline ∈ bytes
            · rw [untilNewline_of_mem hnewline]
            · rw [untilNewline_of_notMem hnewline]
              exact List.cons_prefix_cons.mpr ⟨rfl, List.nil_prefix⟩

end Script

theorem holding_start : Holding [] (Until.start [newline]) := by
  have hblock : 0 ∈ List.replicate tempBufLen (0 : UInt8) :=
    List.mem_replicate.mpr ⟨by decide, rfl⟩
  have hfind : strstr [newline] (List.replicate tempBufLen 0) = none := rfl
  have hstart : Until.start [newline] = ⟨List.replicate tempBufLen 0, 0, .running⟩ := by
    rw [Until.start, Until.test, if_pos hblock, if_pos hfind]
  rw [hstart]
  exact ⟨rfl, rfl, rfl, by decide, List.not_mem_nil, List.not_mem_nil⟩

theorem Accumulates.length_lt {script : List Recv} (h : Accumulates script)
    (hscript : ∀ o ∈ script, o.Delivered) :
    (received (untilNewline script)).length < tempBufLen := by
  by_contra hge
  obtain ⟨past, hpast, s, hexec, hnul⟩ :=
    holding_start.exec_overflow hscript (Nat.le_of_not_lt hge)
  obtain ⟨s', hs', hacc⟩ := h (fun _ _ => 97) past hpast
  rw [recvCommUntil, hexec] at hs'
  obtain rfl := Option.some.inj hs'
  exact hnul hacc.nul

/-- **When `recv_comm_until` accumulates**: if what comes up to the first newline is shorter than
the first block. -/
theorem accumulates_iff {script : List Recv} (hscript : ∀ o ∈ script, o.Delivered) :
    Accumulates script ↔ (received (untilNewline script)).length < tempBufLen :=
  ⟨fun h => h.length_lt hscript, fun hlt fresh _ hpast =>
    holding_start.exec_accumulated hscript hlt hpast fresh⟩

/-- A line in two pieces, and a signal in between. -/
theorem accumulates_line :
    Accumulates [.chunk (ascii "hi"), .interrupted, .chunk [33, newline]] := by
  refine (accumulates_iff ?_).mpr (by decide)
  simp only [List.forall_mem_cons, List.not_mem_nil, false_implies, implies_true, and_true]
  exact ⟨.chunk (by decide) (by decide) (by decide), .interrupted,
    .chunk (by decide) (by decide) (by decide)⟩

/-- A piece that fills the block leaves no NUL. -/
theorem not_accumulates :
    ¬ ∀ script : List Recv, (∀ o ∈ script, o.Delivered) → Accumulates script := by
  intro h
  have hnul : ∀ b : UInt8, b ≠ 97 → b ∉ List.replicate tempBufLen (97 : UInt8) :=
    fun b hb hmem => hb (List.mem_replicate.mp hmem).2
  have hscript : ∀ o ∈ [Recv.chunk (List.replicate tempBufLen 97)], o.Delivered := by
    intro o ho
    obtain rfl := List.mem_singleton.mp ho
    refine .chunk ?_ ?_ (hnul 0 (by decide))
    · rw [List.length_replicate]
      decide
    · rw [List.length_replicate]
  have hlt := (h _ hscript).length_lt hscript
  rw [untilNewline_of_notMem (hnul newline (by decide)), received_cons_chunk, List.length_append,
    List.length_replicate] at hlt
  omega

end InternetLabs.SimpleIm
