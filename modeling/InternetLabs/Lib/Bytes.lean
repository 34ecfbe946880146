/-
# `InternetLabs.Lib.Bytes` — memory, C strings and machine words

What the C library and a little-endian host give the programs of this
development.  A region of memory is the list of its bytes from some pointer on.

* **Writing.** `writeAt m off bs` is `memcpy(m + off, bs, …)`.  A region is as
  long as the block the program allocated; a write past its end makes the list
  longer, so that an overrun shows in the length and is never silently dropped.
* **C strings.** `cstr m` is the string a `char *` to `m` denotes, the bytes
  before the first NUL.  `strtokAll` is the sequence of tokens that repeated
  `strtok` calls hand out.
* **Words.** A 16- or 32-bit variable lies in memory low byte first (`le16`,
  `le32`); `htons` and `SWAP_ENDIAN_32` exchange its bytes, and the two together
  put it in network order (`be16`, `be32`).
-/
import Mathlib.Tactic.IntervalCases
import Mathlib.Data.List.Basic

namespace InternetLabs

abbrev Bytes := List UInt8

/-- The bytes of a string literal. -/
def ascii (s : String) : Bytes := s.toList.map fun c => UInt8.ofNat c.toNat

/-- What is said of every byte of a text is decided along the text. -/
instance (priority := high) decidableForallMem (p : UInt8 → Prop) [DecidablePred p] (l : Bytes) :
    Decidable (∀ b ∈ l, p b) := List.decidableBAll p l

/-- Whether a text is one of a list is decided along the list. -/
instance (priority := high) decidableMem (text : Bytes) (l : List Bytes) : Decidable (text ∈ l) :=
  List.instDecidableMemOfLawfulBEq text l

/-! ## Writing to memory -/

/-- `memcpy(m + off, bs, |bs|)`. -/
def writeAt (m : Bytes) (off : Nat) (bs : Bytes) : Bytes :=
  m.take off ++ List.replicate (off - m.length) 0 ++ bs ++ m.drop (off + bs.length)

theorem length_writeAt (m : Bytes) (off : Nat) (bs : Bytes) :
    (writeAt m off bs).length = max m.length (off + bs.length) := by
  simp only [writeAt, List.length_append, List.length_take, List.length_replicate,
    List.length_drop]
  omega

theorem writeAt_zero (m bs : Bytes) : writeAt m 0 bs = bs ++ m.drop bs.length := by
  simp [writeAt]

/-- What has been written has something in front of it and something behind. -/
theorem writeAt_split (m : Bytes) (off : Nat) (bs : Bytes) :
    ∃ pre post : Bytes, pre.length = off ∧ writeAt m off bs = pre ++ bs ++ post := by
  refine ⟨m.take off ++ List.replicate (off - m.length) 0, m.drop (off + bs.length), ?_, rfl⟩
  simp only [List.length_append, List.length_take, List.length_replicate]
  omega

theorem writeAt_middle {a old new b : Bytes} (h : old.length = new.length) :
    writeAt (a ++ old ++ b) a.length new = a ++ new ++ b := by
  have hpad : a.length - (a ++ old ++ b).length = 0 := by simp
  have htake : (a ++ old ++ b).take a.length = a := by
    rw [List.append_assoc, List.take_left]
  have hdrop : (a ++ old ++ b).drop (a.length + new.length) = b := by
    rw [← h, ← List.length_append, List.drop_left]
  rw [writeAt, hpad, htake, hdrop]
  simp

theorem writeAt_append (m : Bytes) {off off' : Nat} (a b : Bytes) (h : off' = off + a.length) :
    writeAt (writeAt m off a) off' b = writeAt m off (a ++ b) := by
  obtain ⟨pre, hpre⟩ : ∃ pre, pre = m.take off ++ List.replicate (off - m.length) 0 ++ a := ⟨_, rfl⟩
  have hlen : off' = pre.length := by
    simp only [h, hpre, List.length_append, List.length_take, List.length_replicate]
    omega
  have hfirst : writeAt m off a = pre ++ m.drop (off + a.length) := by rw [hpre, writeAt]
  have hpad : pre.length - (pre ++ m.drop (off + a.length)).length = 0 := by simp
  rw [hfirst, hlen, writeAt, List.take_left, hpad, ← List.drop_drop, List.drop_left, List.drop_drop,
    writeAt, hpre, List.length_append]
  simp only [List.append_assoc, List.replicate_zero, List.nil_append, Nat.add_assoc]

/-- Appending to what has been built at the start of the region `m`. -/
theorem writeAt_built (done m bs : Bytes) :
    writeAt (done ++ m.drop done.length) done.length bs
      = (done ++ bs) ++ m.drop (done ++ bs).length := by
  have hpad : done.length - (done ++ m.drop done.length).length = 0 := by simp
  have hdrop : (done ++ m.drop done.length).drop (done.length + bs.length)
      = m.drop (done ++ bs).length := by
    rw [List.length_append, ← List.drop_drop, List.drop_left, List.drop_drop]
  rw [writeAt, hpad, hdrop, List.take_left]
  simp

/-! ## C strings

Memory is a list of bytes from the pointer on, and a string is what is before its first
NUL. -/

/-- The string a pointer to `m` denotes: the bytes before the first NUL. -/
def cstr : Bytes → Bytes
  | [] => []
  | b :: m => if b = 0 then [] else b :: cstr m

@[simp] theorem cstr_nil : cstr [] = [] := rfl

@[simp] theorem cstr_zero_cons (m : Bytes) : cstr (0 :: m) = [] := by simp [cstr]

theorem cstr_cons_of_ne {b : UInt8} (hb : b ≠ 0) (m : Bytes) :
    cstr (b :: m) = b :: cstr m := by
  simp [cstr, hb]

theorem cstr_append {s : Bytes} (h : (0 : UInt8) ∉ s) (m : Bytes) :
    cstr (s ++ m) = s ++ cstr m := by
  induction s with
  | nil => rfl
  | cons b s ih =>
      have hb : b ≠ 0 := fun h0 => h (by simp [h0])
      rw [List.cons_append, cstr_cons_of_ne hb, ih (fun h0 => h (List.mem_cons_of_mem _ h0))]
      rfl

theorem cstr_append_of_mem {s : Bytes} (h : (0 : UInt8) ∈ s) (m : Bytes) :
    cstr (s ++ m) = cstr s := by
  induction s with
  | nil => cases h
  | cons b s ih =>
      by_cases hb : b = 0
      · simp [hb]
      · have hs : (0 : UInt8) ∈ s := (List.mem_cons.mp h).resolve_left fun h0 => hb h0.symm
        rw [List.cons_append, cstr_cons_of_ne hb, cstr_cons_of_ne hb, ih hs]

theorem cstr_eq_self {s : Bytes} (h : (0 : UInt8) ∉ s) : cstr s = s := by
  simpa using cstr_append h []

theorem cstr_append_zero {s : Bytes} (h : (0 : UInt8) ∉ s) (m : Bytes) :
    cstr (s ++ 0 :: m) = s := by
  simpa using cstr_append h (0 :: m)

@[simp] theorem cstr_replicate_zero (n : Nat) : cstr (List.replicate n 0) = [] := by
  cases n with
  | zero => rfl
  | succ n => simp [List.replicate_succ]

theorem cstr_append_replicate {s : Bytes} (h : (0 : UInt8) ∉ s) (n : Nat) :
    cstr (s ++ List.replicate n 0) = s := by
  simpa using cstr_append h (List.replicate n 0)

theorem zero_notMem_cstr (m : Bytes) : (0 : UInt8) ∉ cstr m := by
  induction m with
  | nil => simp
  | cons b m ih =>
      by_cases hb : b = 0
      · simp [hb]
      · rw [cstr_cons_of_ne hb]
        simpa [Ne.symm hb] using ih

theorem length_cstr_le (m : Bytes) : (cstr m).length ≤ m.length := by
  induction m with
  | nil => exact Nat.le_refl 0
  | cons b m ih =>
      by_cases hb : b = 0
      · simp [hb]
      · rw [cstr_cons_of_ne hb, List.length_cons, List.length_cons]
        exact Nat.succ_le_succ ih

theorem getElem?_of_lt_cstr {m : Bytes} {i : Nat} (h : i < (cstr m).length) :
    ∃ b, m[i]? = some b ∧ b ≠ 0 := by
  induction m generalizing i with
  | nil => cases h
  | cons b m ih =>
      by_cases hb : b = 0
      · simp [hb] at h
      · cases i with
        | zero => exact ⟨b, rfl, hb⟩
        | succ i =>
            rw [cstr_cons_of_ne hb, List.length_cons] at h
            exact ih (Nat.lt_of_succ_lt_succ h)

theorem getElem?_length_cstr (m : Bytes) : m[(cstr m).length]? = none ∨
    m[(cstr m).length]? = some 0 := by
  induction m with
  | nil => exact .inl rfl
  | cons b m ih =>
      by_cases hb : b = 0
      · exact .inr (by simp [hb])
      · rw [cstr_cons_of_ne hb]
        exact ih

/-- Memory with a NUL is a string, the NUL, and what is behind it. -/
theorem exists_cstr_append {m : Bytes} (h : (0 : UInt8) ∈ m) :
    ∃ post, m = cstr m ++ 0 :: post := by
  induction m with
  | nil => cases h
  | cons b m ih =>
      by_cases hb : b = 0
      · exact ⟨m, by simp [hb]⟩
      · obtain ⟨post, hpost⟩ := ih ((List.mem_cons.mp h).resolve_left fun h0 => hb h0.symm)
        exact ⟨post, by rw [cstr_cons_of_ne hb, List.cons_append, ← hpost]⟩

/-- The string is shorter than the memory if the memory has a NUL. -/
theorem length_cstr_lt_iff {m : Bytes} : (cstr m).length < m.length ↔ (0 : UInt8) ∈ m := by
  constructor
  · intro h
    by_contra h0
    rw [cstr_eq_self h0] at h
    exact Nat.lt_irrefl _ h
  · intro h
    refine Nat.lt_of_le_of_ne (length_cstr_le m) fun heq => ?_
    obtain ⟨i, hi, h0⟩ := List.getElem_of_mem h
    obtain ⟨b, hb, hne⟩ := getElem?_of_lt_cstr (heq ▸ hi)
    rw [List.getElem?_eq_getElem hi] at hb
    exact absurd (h0 ▸ Option.some.inj hb).symm hne

section Tokens
variable {α : Type*}

/-- The tokens that `strtok(s, …)`, `strtok(NULL, …)`, … return one after the
other: the longest runs of bytes that are no delimiters. -/
def strtokAll (isDelim : α → Bool) (s : List α) : List (List α) :=
  (s.splitOnP isDelim).filter (fun t => !t.isEmpty)

variable {isDelim : α → Bool}

@[simp] theorem strtokAll_nil : strtokAll isDelim [] = [] := by
  simp [strtokAll, List.splitOnP_nil]

theorem strtokAll_append_cons (xs ys : List α) {sep : α} (hsep : isDelim sep = true) :
    strtokAll isDelim (xs ++ sep :: ys) = strtokAll isDelim xs ++ strtokAll isDelim ys := by
  rw [strtokAll, List.splitOnP_append_cons xs ys hsep, List.filter_append]
  rfl

theorem strtokAll_cons_delim (ys : List α) {sep : α} (hsep : isDelim sep = true) :
    strtokAll isDelim (sep :: ys) = strtokAll isDelim ys := by
  simpa using strtokAll_append_cons [] ys hsep

theorem strtokAll_run {xs : List α} (hne : xs ≠ []) (h : ∀ x ∈ xs, isDelim x = false) :
    strtokAll isDelim xs = [xs] := by
  rw [strtokAll, List.splitOnP_eq_singleton h]
  simp [hne]

/-- Non-empty runs joined by a delimiter are the tokens of the joined text. -/
theorem strtokAll_intercalate {sep : α} (hsep : isDelim sep = true) :
    ∀ {ls : List (List α)}, (∀ l ∈ ls, l ≠ [] ∧ ∀ x ∈ l, isDelim x = false) →
      strtokAll isDelim ([sep].intercalate ls) = ls
  | [], _ => by simp
  | [l], h => by
      obtain ⟨hne, hrun⟩ := h l (by simp)
      simpa using strtokAll_run hne hrun
  | l :: l' :: ls, h => by
      obtain ⟨hne, hrun⟩ := h l (by simp)
      have ih : strtokAll isDelim ([sep].intercalate (l' :: ls)) = l' :: ls :=
        strtokAll_intercalate hsep (fun x hx => h x (List.mem_cons_of_mem _ hx))
      rw [List.intercalate_cons_cons, List.append_assoc, List.singleton_append,
        strtokAll_append_cons _ _ hsep, strtokAll_run hne hrun, ih]
      rfl

theorem sum_length_splitOnP (xs : List α) :
    ((xs.splitOnP isDelim).map (·.length + 1)).sum = xs.length + 1 := by
  induction xs with
  | nil => rfl
  | cons x xs ih =>
      obtain ⟨run, runs, hruns⟩ := List.exists_cons_of_ne_nil (List.splitOnP_ne_nil isDelim xs)
      rw [hruns, List.map_cons, List.sum_cons] at ih
      rw [List.splitOnP_cons_eq_if_modifyHead, hruns]
      split
      · simp only [List.map_cons, List.sum_cons, List.length_nil, List.length_cons]
        omega
      · simp only [List.modifyHead_cons, List.map_cons, List.sum_cons, List.length_cons]
        omega

/-- The tokens are no longer than the text, with a delimiter between each two. -/
theorem sum_length_strtokAll_le (xs : List α) :
    ((strtokAll isDelim xs).map (·.length + 1)).sum ≤ xs.length + 1 := by
  have hfilter : ∀ ts : List (List α),
      ((ts.filter fun t => !t.isEmpty).map (·.length + 1)).sum ≤ (ts.map (·.length + 1)).sum := by
    intro ts
    induction ts with
    | nil => exact Nat.le_refl _
    | cons t ts ih =>
        rw [List.filter_cons]
        split
        · simp only [List.map_cons, List.sum_cons]
          omega
        · simp only [List.map_cons, List.sum_cons]
          omega
  exact (hfilter _).trans (Nat.le_of_eq (sum_length_splitOnP xs))

theorem length_strtokAll_append_right (xs ys : List α) :
    (strtokAll isDelim ys).length ≤ (strtokAll isDelim (xs ++ ys)).length := by
  induction xs with
  | nil => exact Nat.le_refl _
  | cons x xs ih =>
      refine ih.trans ?_
      rw [List.cons_append]
      cases hx : isDelim x with
      | true => rw [strtokAll_cons_delim _ hx]
      | false =>
          -- the first run grows by `x`
          obtain ⟨run, runs, hruns⟩ :=
            List.exists_cons_of_ne_nil (List.splitOnP_ne_nil isDelim (xs ++ ys))
          rw [strtokAll, strtokAll, List.splitOnP_cons_eq_if_modifyHead, hx, hruns]
          cases run <;> simp

end Tokens

/-! ## Words in memory -/

/-- A 16-bit variable as it lies in memory. -/
def le16 (x : UInt16) : Bytes := [x.toUInt8, (x >>> 8).toUInt8]

/-- A 16-bit value in network order. -/
def be16 (x : UInt16) : Bytes := [(x >>> 8).toUInt8, x.toUInt8]

/-- `memcpy(&x, p, 2)` for a 16-bit variable `x` and the two bytes at `p`. -/
def load16 (lo hi : UInt8) : UInt16 := lo.toUInt16 ||| (hi.toUInt16 <<< 8)

/-- `htons`, and `ntohs`: the two bytes change places. -/
def htons (x : UInt16) : UInt16 := (x <<< 8) ||| (x >>> 8)

abbrev ntohs (x : UInt16) : UInt16 := htons x

/-- A 32-bit variable as it lies in memory. -/
def le32 (x : UInt32) : Bytes :=
  [x.toUInt8, (x >>> 8).toUInt8, (x >>> 16).toUInt8, (x >>> 24).toUInt8]

/-- A 32-bit value in network order. -/
def be32 (x : UInt32) : Bytes :=
  [(x >>> 24).toUInt8, (x >>> 16).toUInt8, (x >>> 8).toUInt8, x.toUInt8]

@[simp] theorem length_le16 (x : UInt16) : (le16 x).length = 2 := rfl
@[simp] theorem length_be16 (x : UInt16) : (be16 x).length = 2 := rfl
@[simp] theorem length_le32 (x : UInt32) : (le32 x).length = 4 := rfl
@[simp] theorem length_be32 (x : UInt32) : (be32 x).length = 4 := rfl

theorem htons_lo (x : UInt16) : (htons x).toUInt8 = (x >>> 8).toUInt8 := by
  apply UInt8.toBitVec_inj.mp
  simp only [htons, UInt16.toBitVec_toUInt8, UInt16.toBitVec_or, UInt16.toBitVec_shiftLeft,
    UInt16.toBitVec_shiftRight]
  ext i hi
  simp

theorem htons_hi (x : UInt16) : (htons x >>> 8).toUInt8 = x.toUInt8 := by
  apply UInt8.toBitVec_inj.mp
  simp only [htons, UInt16.toBitVec_toUInt8, UInt16.toBitVec_or, UInt16.toBitVec_shiftLeft,
    UInt16.toBitVec_shiftRight]
  ext i hi
  have hlow : 8 + i < 16 := by omega
  have hhigh : 16 ≤ 8 + (8 + i) := by omega
  simp [hlow, BitVec.getLsbD_of_ge _ _ hhigh,
    BitVec.getLsbD_eq_getElem (Nat.lt_of_lt_of_le hi (by decide : 8 ≤ 16))]

@[simp] theorem le16_htons (x : UInt16) : le16 (htons x) = be16 x := by
  rw [le16, be16, htons_lo, htons_hi]

theorem htons_htons (x : UInt16) : htons (htons x) = x := by
  apply UInt16.toBitVec_inj.mp
  simp only [htons, UInt16.toBitVec_or, UInt16.toBitVec_shiftLeft, UInt16.toBitVec_shiftRight]
  ext i hi
  interval_cases i <;> simp

end InternetLabs
