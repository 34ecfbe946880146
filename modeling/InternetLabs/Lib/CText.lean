/-
# `InternetLabs.Lib.CText` — the C library's searches in a text

`strstr`, `strrchr`, one call of `strtok`, the `%s` of `sscanf` and the `%d` of
`sprintf`, on memory as `InternetLabs.Lib.Bytes` has it.

`strtok` writes a NUL behind the token it returns and remembers the byte after it.
Between two tokens the memory is a stretch that is done with, a string still to be
cut and a NUL, and a call moves a piece of the string to what is done with
(`strtok_cut`).  So the tokens of a loop of calls are those of `strtokAll`, and
nothing behind the string is touched (`tokenLoop_run`).
-/
import Mathlib.Data.List.TakeWhile
import InternetLabs.Lib.Bytes
import InternetLabs.Lib.Loop

namespace InternetLabs

/-! ## Searching

Searches do not look behind the NUL. -/

/-- `strstr(s, needle) - s`; the needle has no NUL. -/
def strstr (needle : Bytes) : Bytes → Option Nat
  | [] => if needle.isEmpty then some 0 else none
  | b :: m =>
      if needle.isPrefixOf (b :: m) then some 0
      else if b = 0 then none
      else (strstr needle m).map (· + 1)

theorem strstr_eq_some_iff {needle : Bytes} (hne : needle ≠ []) {m : Bytes} {k : Nat} :
    strstr needle m = some k ↔
      (0 : UInt8) ∉ m.take k ∧ needle <+: m.drop k ∧ ∀ j < k, ¬ needle <+: m.drop j := by
  have hnil : needle.isEmpty = false := by simpa using hne
  induction m generalizing k with
  | nil => simp [strstr, hnil, hne]
  | cons b m ih =>
      rw [strstr]
      by_cases hpre : needle <+: b :: m
      · rw [if_pos (List.isPrefixOf_iff_prefix.mpr hpre)]
        constructor
        · rintro ⟨⟩
          exact ⟨List.not_mem_nil, hpre, fun j hj => absurd hj (Nat.not_lt_zero j)⟩
        · rintro ⟨-, -, hfirst⟩
          cases k with
          | zero => rfl
          | succ k => exact absurd hpre (hfirst 0 (Nat.succ_pos k))
      rw [if_neg (by simpa using hpre)]
      by_cases hb : b = 0
      · rw [if_pos hb]
        refine iff_of_false (by simp) ?_
        rintro ⟨hnul, hat, -⟩
        cases k with
        | zero => exact hpre hat
        | succ k => exact hnul (by simp [hb])
      rw [if_neg hb, Option.map_eq_some_iff]
      constructor
      · rintro ⟨k, hk, rfl⟩
        obtain ⟨hnul, hat, hfirst⟩ := ih.mp hk
        refine ⟨?_, hat, fun j hj => ?_⟩
        · rw [List.take_succ_cons, List.mem_cons]
          exact not_or.mpr ⟨fun h => hb h.symm, hnul⟩
        · cases j with
          | zero => exact hpre
          | succ j => exact hfirst j (Nat.lt_of_succ_lt_succ hj)
      · rintro ⟨hnul, hat, hfirst⟩
        cases k with
        | zero => exact absurd hat hpre
        | succ k =>
            refine ⟨k, ih.mpr ⟨fun h => hnul ?_, hat, fun j hj => ?_⟩, rfl⟩
            · rw [List.take_succ_cons]
              exact List.mem_cons_of_mem b h
            · exact hfirst (j + 1) (Nat.succ_lt_succ hj)

theorem prefix_append_zero_iff {needle : Bytes} (h0 : (0 : UInt8) ∉ needle) (q m : Bytes) :
    needle <+: q ++ 0 :: m ↔ needle <+: q := by
  constructor
  · intro h
    rcases List.prefix_or_prefix_of_prefix h (List.prefix_append q (0 :: m)) with hq | ⟨t, rfl⟩
    · exact hq
    · cases t with
      | nil => simp
      | cons b t =>
          obtain ⟨rfl, -⟩ := List.cons_prefix_cons.mp ((List.prefix_append_right_inj q).mp h)
          exact absurd (List.mem_append_right q List.mem_cons_self) h0
  · exact fun h => h.trans (List.prefix_append q (0 :: m))

theorem strstr_append_zero {needle : Bytes} (hne : needle ≠ []) (h0 : (0 : UInt8) ∉ needle)
    (q m : Bytes) : strstr needle (q ++ 0 :: m) = strstr needle q := by
  induction q with
  | nil =>
      have hpre : needle.isPrefixOf (0 :: m) = false := by
        rw [Bool.eq_false_iff, ne_eq, List.isPrefixOf_iff_prefix,
          ← List.nil_append (0 :: m), prefix_append_zero_iff h0]
        simpa using hne
      simp [strstr, hpre, hne]
  | cons b q ih =>
      have hpre : needle.isPrefixOf (b :: (q ++ 0 :: m)) = needle.isPrefixOf (b :: q) := by
        rw [Bool.eq_iff_iff, List.isPrefixOf_iff_prefix, List.isPrefixOf_iff_prefix,
          ← List.cons_append, prefix_append_zero_iff h0]
      rw [List.cons_append, strstr, strstr, hpre, ih]

theorem strstr_of_prefix {needle : Bytes} (hne : needle ≠ []) {q m : Bytes}
    (hqm : q <+: m) {k : Nat} (h : strstr needle q = some k) : strstr needle m = some k := by
  obtain ⟨t, rfl⟩ := hqm
  obtain ⟨hnul, hat, hfirst⟩ := (strstr_eq_some_iff hne).mp h
  have hlen : k + needle.length ≤ q.length := by
    have hle := hat.length_le
    rw [List.length_drop] at hle
    have := List.length_pos_iff.mpr hne
    omega
  refine (strstr_eq_some_iff hne).mpr ⟨?_, ?_, fun j hj hpre => hfirst j hj ?_⟩
  · rwa [List.take_append_of_le_length (by omega)]
  · rw [List.drop_append_of_le_length (by omega)]
    exact hat.trans (List.prefix_append _ t)
  · rw [List.drop_append_of_le_length (by omega)] at hpre
    exact List.prefix_of_prefix_length_le hpre (List.prefix_append _ t)
      (by rw [List.length_drop]; omega)

theorem strstr_skip {a : UInt8} {needle s m : Bytes} (h : ∀ b ∈ s, b ≠ a ∧ b ≠ 0) :
    strstr (a :: needle) (s ++ m) = (strstr (a :: needle) m).map (s.length + ·) := by
  induction s with
  | nil => simp
  | cons b s ih =>
      obtain ⟨ha, h0⟩ := h b List.mem_cons_self
      have hpre : (a :: needle).isPrefixOf (b :: (s ++ m)) = false := by
        simp [List.isPrefixOf, Ne.symm ha]
      rw [List.cons_append, strstr, hpre, if_neg Bool.false_ne_true, if_neg h0,
        ih fun b hb => h b (List.mem_cons_of_mem _ hb), Option.map_map]
      congr 1
      funext i
      simp only [Function.comp, List.length_cons]
      omega

theorem strstr_singleton_eq_none_iff {a : UInt8} {s : Bytes} (h0 : (0 : UInt8) ∉ s) :
    strstr [a] s = none ↔ a ∉ s := by
  constructor
  · intro h ha
    obtain ⟨p, q, rfl, hp⟩ := List.eq_append_cons_of_mem ha
    have hskip : ∀ b ∈ p, b ≠ a ∧ b ≠ 0 := fun b hb =>
      ⟨fun hba => hp (hba ▸ hb), fun hb0 => h0 (List.mem_append_left _ (hb0 ▸ hb))⟩
    rw [strstr_skip hskip] at h
    simp [strstr] at h
  · intro ha
    have hskip : ∀ b ∈ s, b ≠ a ∧ b ≠ 0 := fun b hb =>
      ⟨fun hba => ha (hba ▸ hb), fun hb0 => h0 (hb0 ▸ hb)⟩
    have h := @strstr_skip a [] s [] hskip
    rw [List.append_nil] at h
    simpa [strstr] using h

/-- How often the needle stands in the memory. -/
def occurrences (needle : Bytes) : Bytes → Nat
  | [] => 0
  | b :: m => (if needle.isPrefixOf (b :: m) then 1 else 0) + occurrences needle m

theorem occurrences_append_le (needle m m' : Bytes) :
    occurrences needle m + occurrences needle m' ≤ occurrences needle (m ++ m') := by
  induction m with
  | nil => simp [occurrences]
  | cons b m ih =>
      have hpre : needle.isPrefixOf (b :: m) = true → needle.isPrefixOf (b :: (m ++ m'))
          = true := by
        rw [List.isPrefixOf_iff_prefix, List.isPrefixOf_iff_prefix]
        exact fun h => h.trans (List.prefix_append (b :: m) m')
      rw [List.cons_append, occurrences, occurrences]
      by_cases h : needle.isPrefixOf (b :: m) = true
      · rw [if_pos h, if_pos (hpre h)]
        omega
      · rw [if_neg h]
        omega

/-- The needle does not begin in a stretch without its first byte. -/
theorem occurrences_skip {a : UInt8} {needle s : Bytes} (h : ∀ b ∈ s, b ≠ a) (m : Bytes) :
    occurrences (a :: needle) (s ++ m) = occurrences (a :: needle) m := by
  induction s with
  | nil => rfl
  | cons b s ih =>
      have hpre : (a :: needle).isPrefixOf (b :: (s ++ m)) = false := by
        simp [List.isPrefixOf, Ne.symm (h b List.mem_cons_self)]
      rw [List.cons_append, occurrences, hpre, if_neg Bool.false_ne_true, Nat.zero_add,
        ih fun b hb => h b (List.mem_cons_of_mem _ hb)]

theorem occurrences_append_zero {needle : Bytes} (hne : needle ≠ []) (h0 : (0 : UInt8) ∉ needle)
    (q m : Bytes) : occurrences needle (q ++ 0 :: m)
    = occurrences needle q + occurrences needle m := by
  induction q with
  | nil =>
      have hpre : needle.isPrefixOf (0 :: m) = false := by
        rw [Bool.eq_false_iff, ne_eq, List.isPrefixOf_iff_prefix,
          ← List.nil_append (0 :: m), prefix_append_zero_iff h0]
        simpa using hne
      simp [occurrences, hpre]
  | cons b q ih =>
      have hpre : needle.isPrefixOf (b :: (q ++ 0 :: m)) = needle.isPrefixOf (b :: q) := by
        rw [Bool.eq_iff_iff, List.isPrefixOf_iff_prefix, List.isPrefixOf_iff_prefix,
          ← List.cons_append, prefix_append_zero_iff h0]
      rw [List.cons_append, occurrences, occurrences, hpre, ih, Nat.add_assoc]

theorem occurrences_pos {needle : Bytes} (hne : needle ≠ []) {m : Bytes} {k : Nat}
    (h : strstr needle m = some k) : 0 < occurrences needle m := by
  obtain ⟨-, ⟨t, ht⟩, -⟩ := (strstr_eq_some_iff hne).mp h
  have hm := occurrences_append_le needle (m.take k) (m.drop k)
  rw [List.take_append_drop] at hm
  have hone : 0 < occurrences needle (m.drop k) := by
    obtain ⟨a, needle, rfl⟩ := List.exists_cons_of_ne_nil hne
    rw [← ht, List.cons_append, occurrences, if_pos (by
      rw [List.isPrefixOf_iff_prefix, ← List.cons_append]
      exact List.prefix_append _ t)]
    omega
  omega

/-- `strrchr(s, c) - s`. -/
def strrchr (c : UInt8) (s : Bytes) : Option Nat :=
  (s.reverse.idxOf? c).map fun i => s.length - 1 - i

theorem strrchr_append_cons {c : UInt8} {ext : Bytes} (h : c ∉ ext) (pre : Bytes) :
    strrchr c (pre ++ c :: ext) = some pre.length := by
  have hidx : (pre ++ c :: ext).reverse.idxOf? c = some ext.length := by
    have hrev : (pre ++ c :: ext).reverse = ext.reverse ++ c :: pre.reverse := by simp
    rw [hrev, List.idxOf?_eq_some_iff]
    refine ⟨by simp, by simp, fun j hj => ?_⟩
    rw [← List.length_reverse] at hj
    rw [List.getElem_append_left hj]
    exact fun heq => h (List.mem_reverse.mp (heq ▸ List.getElem_mem hj))
  rw [strrchr, hidx, Option.map_some, List.length_append, List.length_cons]
  congr 1
  omega

theorem strrchr_of_notMem {c : UInt8} {s : Bytes} (h : c ∉ s) : strrchr c s = none := by
  have hidx : s.reverse.idxOf? c = none :=
    List.idxOf?_eq_none_iff.mpr fun hmem => h (List.mem_reverse.mp hmem)
  rw [strrchr, hidx, Option.map_none]

/-- `isspace`. -/
def isSpace (b : UInt8) : Bool := b == 32 || (9 ≤ b && b ≤ 13)

/-- The words the `%s` of `sscanf(line, "%s %s …", …)` read one after the other. -/
def words (line : Bytes) : List Bytes := strtokAll isSpace line

/-- `%d`. -/
def decimal (n : Int) : Bytes :=
  (if n < 0 then [45] else []) ++ (Nat.toDigits 10 n.natAbs).map fun c => UInt8.ofNat c.toNat

example : decimal (-1024) = ascii "-1024" := by decide

/-! ## `strtok`

`strtok` writes a NUL behind the token, and remembers where it has stopped. -/

/-- What a call of `strtok` returns and leaves behind. -/
structure Strtok where
  token : Option Nat
  save : Nat
  data : Bytes

/-- `strtok`, at the byte where the last call stopped. -/
def strtok (isDelim : UInt8 → Bool) (data : Bytes) (s : Nat) : Strtok :=
  let s := s + ((cstr (data.drop s)).takeWhile isDelim).length
  let token := (cstr (data.drop s)).takeWhile fun b => !isDelim b
  if token = [] then ⟨none, s, data⟩
  else
    let stop := s + token.length
    if data[stop]? = some 0 ∨ data[stop]? = none then ⟨some s, stop, data⟩
    else ⟨some s, stop + 1, data.set stop 0⟩

section Cut
variable {isDelim : UInt8 → Bool}

/-- Where the first token of a string lies: delimiters, the token, and nothing or a
delimiter with more behind it. -/
theorem exists_token (isDelim : UInt8 → Bool) (s : Bytes) :
    ∃ ds t rest, s = ds ++ (t ++ rest) ∧ s.takeWhile isDelim = ds ∧
      (t ++ rest).takeWhile (fun b => !isDelim b) = t ∧ (∀ b ∈ t, isDelim b = false) ∧
      (t = [] → rest = []) ∧ (∀ d ∈ rest.head?, isDelim d = true) ∧
      strtokAll isDelim s = strtokAll isDelim (t ++ rest) := by
  refine ⟨s.takeWhile isDelim, (s.dropWhile isDelim).takeWhile fun b => !isDelim b,
    (s.dropWhile isDelim).dropWhile fun b => !isDelim b, ?_, rfl, ?_, ?_, ?_, ?_, ?_⟩
  · rw [List.takeWhile_append_dropWhile, List.takeWhile_append_dropWhile]
  · rw [List.takeWhile_append_dropWhile]
  · intro b hb
    simpa using List.mem_takeWhile_imp hb
  · -- a first byte that is left is no delimiter, so it belongs to the token
    intro hnil
    have hhead := List.head?_dropWhile_not isDelim s
    cases hs : s.dropWhile isDelim with
    | nil => rfl
    | cons b m =>
        rw [hs] at hnil hhead
        simp only [List.head?_cons] at hhead
        rw [List.takeWhile_cons_of_pos (by simpa using hhead)] at hnil
        cases hnil
  · intro d hd
    have hhead := List.head?_dropWhile_not (fun b => !isDelim b) (s.dropWhile isDelim)
    rw [Option.mem_def] at hd
    rw [hd] at hhead
    simpa using hhead
  · rw [List.takeWhile_append_dropWhile]
    induction s with
    | nil => rfl
    | cons b s ih =>
        cases hb : isDelim b with
        | true => rw [List.dropWhile_cons_of_pos hb, strtokAll_cons_delim s hb, ih]
        | false => rw [List.dropWhile_cons_of_neg (by rw [hb]; exact Bool.false_ne_true)]

/-- **One call.**  The memory is `pre` (done with), the string `s` and a NUL.  The
call returns the string's first token and leaves the others to be cut. -/
theorem strtok_cut {pre s post : Bytes} (hs : (0 : UInt8) ∉ s) :
    (strtokAll isDelim s = [] ∧ ∃ save,
        strtok isDelim (pre ++ (s ++ 0 :: post)) pre.length
          = ⟨none, save, pre ++ (s ++ 0 :: post)⟩) ∨
      ∃ t pre' s' tok, strtokAll isDelim s = t :: strtokAll isDelim s' ∧ (0 : UInt8) ∉ s' ∧
        s'.length < s.length ∧ pre'.length + s'.length = pre.length + s.length ∧
        strtok isDelim (pre ++ (s ++ 0 :: post)) pre.length
          = ⟨some tok, pre'.length, pre' ++ (s' ++ 0 :: post)⟩ ∧
        cstr ((pre' ++ (s' ++ 0 :: post)).drop tok) = t := by
  obtain ⟨ds, t, rest, hsplit, hds, ht, hrun, hrest, hdelim, htoks⟩ := exists_token isDelim s
  have hnul : (0 : UInt8) ∉ t ++ rest := fun h => hs (hsplit ▸ List.mem_append_right ds h)
  have hnult : (0 : UInt8) ∉ t := fun h => hnul (List.mem_append_left rest h)
  have hmem : pre ++ (s ++ 0 :: post) = (pre ++ ds) ++ (t ++ rest ++ 0 :: post) := by
    rw [hsplit]
    simp only [List.append_assoc]
  have hskip : pre.length + ((cstr ((pre ++ (s ++ 0 :: post)).drop pre.length)).takeWhile
      isDelim).length = (pre ++ ds).length := by
    rw [List.drop_left, cstr_append_zero hs, hds, List.length_append]
  have htoken : (cstr ((pre ++ (s ++ 0 :: post)).drop (pre ++ ds).length)).takeWhile
      (fun b => !isDelim b) = t := by
    rw [hmem, List.drop_left, cstr_append_zero hnul, ht]
  have hstop : (pre ++ (s ++ 0 :: post))[(pre ++ ds).length + t.length]?
      = (rest ++ 0 :: post).head? := by
    rw [hmem, ← List.length_append, List.append_assoc t, ← List.append_assoc,
      ← List.head?_drop, List.drop_left]
  simp only [strtok, hskip, htoken, hstop]
  by_cases hempty : t = []
  · left
    rw [if_pos hempty, htoks, hempty, hrest hempty]
    exact ⟨strtokAll_nil, _, rfl⟩
  right
  rw [if_neg hempty]
  have htpos : 0 < t.length := List.length_pos_iff.mpr hempty
  have hslen : s.length = ds.length + (t.length + rest.length) := by
    rw [hsplit, List.length_append, List.length_append]
  cases rest with
  | nil =>
      refine ⟨t, pre ++ s, [], (pre ++ ds).length, ?_, List.not_mem_nil, ?_, ?_, ?_, ?_⟩
      · rw [htoks, List.append_nil, strtokAll_run hempty hrun, strtokAll_nil]
      · rw [List.length_nil]; omega
      · rw [List.length_append, List.length_nil]; omega
      · rw [List.nil_append, List.head?_cons, if_pos (Or.inl rfl), List.length_append,
          List.length_append, hslen, List.length_nil, List.append_assoc,
            Nat.add_zero, Nat.add_assoc]
      · rw [hsplit, List.append_nil, List.nil_append, ← List.append_assoc pre,
          List.append_assoc _ t,
          List.drop_left, cstr_append_zero hnult]
  | cons d s' =>
      have hd : isDelim d = true := hdelim d rfl
      have hnuls' : (0 : UInt8) ∉ s' := fun h =>
        hnul (List.mem_append_right t (List.mem_cons_of_mem d h))
      have hd0 : d ≠ 0 := fun h => hnul (List.mem_append_right t (h ▸ List.mem_cons_self))
      refine ⟨t, pre ++ ds ++ t ++ [0], s', (pre ++ ds).length, ?_, hnuls', ?_, ?_, ?_, ?_⟩
      · rw [htoks, strtokAll_append_cons t s' hd, strtokAll_run hempty hrun]
        rfl
      · rw [hslen, List.length_cons]; omega
      · rw [hslen]; simp only [List.length_append, List.length_cons, List.length_nil]; omega
      · rw [if_neg (by simpa using hd0)]
        have hset : (pre ++ (s ++ 0 :: post)).set ((pre ++ ds).length + t.length) 0
            = pre ++ ds ++ t ++ [0] ++ (s' ++ 0 :: post) := by
          rw [hmem, ← List.length_append, show pre ++ ds ++ (t ++ d :: s' ++ 0 :: post)
            = (pre ++ ds ++ t) ++ d :: (s' ++ 0 :: post) by simp]
          simp [List.set_append_right]
        rw [hset]
        simp only [List.length_append, List.length_cons, List.length_nil]
      · rw [List.append_assoc _ [0], List.append_assoc _ t, List.drop_left]
        exact cstr_append_zero hnult _

end Cut

/-! ## A loop of calls -/

section TokenLoop
variable {σ ε : Type*}

/-- `while (token != NULL) { …; token = strtok(NULL, …); }`, whose body is `step`: what
`strtok` has returned, and the variables. -/
def tokenLoop (isDelim : UInt8 → Bool) (step : σ → Bytes → Except ε σ) (s : Strtok × σ) :
    Step (Strtok × σ) (Except ε σ) :=
  match s.1.token with
  | none => .ret (.ok s.2)
  | some token =>
      match step s.2 (cstr (s.1.data.drop token)) with
      | .ok vars => .next (strtok isDelim s.1.data s.1.save, vars)
      | .error e => .ret (.error e)

/-- **The loop** folds its body over the tokens of the string `s`. -/
theorem tokenLoop_run (isDelim : UInt8 → Bool) (step : σ → Bytes → Except ε σ) {pre s post : Bytes}
    (hs : (0 : UInt8) ∉ s) (vars : σ) {fuel : Nat} (hfuel : s.length < fuel) :
    Loop.run (tokenLoop isDelim step) fuel
        (strtok isDelim (pre ++ (s ++ 0 :: post)) pre.length, vars)
      = some ((strtokAll isDelim s).foldlM step vars) := by
  induction fuel generalizing pre s vars with
  | zero => cases hfuel
  | succ fuel ih =>
      rcases @strtok_cut isDelim pre s post hs with
        ⟨htoks, save, hcall⟩ | ⟨t, pre', s', tok, htoks, hs', hlt, hlen, hcall, htok⟩
      · have hret : tokenLoop isDelim step (⟨none, save, pre ++ (s ++ 0 :: post)⟩, vars)
            = .ret (.ok vars) := rfl
        rw [hcall, htoks, Loop.run_ret hret]
        rfl
      · rw [hcall, htoks, List.foldlM_cons]
        cases hstep : step vars t with
        | ok vars' =>
            have hnext : tokenLoop isDelim step (⟨some tok, pre'.length,
                pre' ++ (s' ++ 0 :: post)⟩, vars)
                = .next (strtok isDelim (pre' ++ (s' ++ 0 :: post)) pre'.length, vars') := by
              simp only [tokenLoop, htok, hstep]
            rw [Loop.run_next hnext, ih hs' vars' (by omega)]
            rfl
        | error e =>
            have hret : tokenLoop isDelim step (⟨some tok, pre'.length,
                pre' ++ (s' ++ 0 :: post)⟩, vars) = .ret (.error e) := by
              simp only [tokenLoop, htok, hstep]
            rw [Loop.run_ret hret]
            rfl

end TokenLoop

end InternetLabs
