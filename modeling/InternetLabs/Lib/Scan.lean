/-
# `InternetLabs.Lib.Scan` — the C library's `fgets` and `sscanf`

A file is the bytes that are still to be read, and a conversion of `sscanf` takes what
it can from the front of a text and leaves the rest.  `fgets` gives a file back line by
line (`fgets_line`), `%s` the words of a line (`scanString_word`), and `%d` the number
that `%d` of `sprintf` has written (`scanInt_decimal`).
-/
import InternetLabs.Lib.CText

namespace InternetLabs

/-! ## `fgets` -/

/-- `'\n'`. -/
def newline : UInt8 := 10

/-- `fgets(buf, size, file)`: the string in `buf` and the rest of the file. -/
def fgets (size : Nat) (file : Bytes) : Option (Bytes × Bytes) :=
  if file = [] then none
  else
    let window := file.take (size - 1)
    let n := (window.idxOf? newline).elim window.length (· + 1)
    some (file.take n, file.drop n)

section Fgets
variable {size : Nat} {line : Bytes}

theorem fgets_nil (size : Nat) : fgets size [] = none := rfl

theorem fgets_line (hline : newline ∉ line) (hfits : line.length + 1 < size) (rest : Bytes) :
    fgets size (line ++ newline :: rest) = some (line ++ [newline], rest) := by
  have hsplit : line ++ newline :: rest = (line ++ [newline]) ++ rest := by
    rw [List.append_assoc, List.singleton_append]
  have hidx : ((line ++ newline :: rest).take (size - 1)).idxOf? newline = some line.length := by
    rw [hsplit, List.take_append, List.take_of_length_le
      (by rw [List.length_append, List.length_singleton]; omega), List.append_assoc,
      List.singleton_append, List.idxOf?_eq_some_iff]
    refine ⟨by simp, by simp, fun j hj => ?_⟩
    rw [List.getElem_append_left hj]
    exact fun h => hline (h ▸ List.getElem_mem hj)
  have hlen : line.length + 1 = (line ++ [newline]).length := by
    rw [List.length_append, List.length_singleton]
  simp only [fgets,
    if_neg (List.append_ne_nil_of_right_ne_nil line (List.cons_ne_nil newline rest)),
    hidx, Option.elim_some]
  rw [hsplit, hlen, List.take_left, List.drop_left]

theorem fgets_last (hne : line ≠ []) (hline : newline ∉ line) (hfits : line.length < size) :
    fgets size line = some (line, []) := by
  have htake : line.take (size - 1) = line := List.take_of_length_le (by omega)
  have hidx : line.idxOf? newline = none := List.idxOf?_eq_none_iff.mpr hline
  simp only [fgets, if_neg hne, htake, hidx, Option.elim_none, List.take_length, List.drop_length]

theorem length_lt_of_fgets {file rest : Bytes} (hsize : 0 < size)
    (h : fgets size file = some (line, rest)) : line.length < size := by
  obtain ⟨-, h⟩ := Option.ite_none_left_eq_some.mp h
  obtain ⟨rfl, -⟩ := Prod.mk.inj (Option.some.inj h)
  have hwindow : (file.take (size - 1)).length ≤ size - 1 := List.length_take_le _ _
  rw [List.length_take]
  cases hidx : (file.take (size - 1)).idxOf? newline with
  | none => rw [Option.elim_none]; omega
  | some i =>
      have hlt := (List.idxOf?_eq_some_iff.mp hidx).1
      rw [Option.elim_some]
      omega

end Fgets

/-! ## `%s` -/

/-- `%s`: the next word and what is behind it. -/
def scanString (s : Bytes) : Option (Bytes × Bytes) :=
  let s := s.dropWhile isSpace
  let word := s.takeWhile fun b => !isSpace b
  if word = [] then none else some (word, s.drop word.length)

/-- Bytes that `%s` takes as one word. -/
def IsWord (w : Bytes) : Prop := w ≠ [] ∧ ∀ b ∈ w, isSpace b = false

instance (w : Bytes) : Decidable (IsWord w) := inferInstanceAs (Decidable (_ ∧ _))

section ScanString
variable {w rest : Bytes}

theorem IsWord.dropWhile (h : IsWord w) (rest : Bytes) :
    (w ++ rest).dropWhile isSpace = w ++ rest := by
  obtain ⟨b, w, rfl⟩ := List.exists_cons_of_ne_nil h.1
  rw [List.cons_append, List.dropWhile_cons_of_neg]
  rw [h.2 b List.mem_cons_self]
  exact Bool.false_ne_true

theorem IsWord.takeWhile (h : IsWord w) (hrest : ∀ b ∈ rest.head?, isSpace b = true) :
    (w ++ rest).takeWhile (fun b => !isSpace b) = w := by
  rw [List.takeWhile_append_of_pos fun b hb => by rw [h.2 b hb]; rfl]
  cases rest with
  | nil => rw [List.takeWhile_nil, List.append_nil]
  | cons b rest =>
      rw [List.takeWhile_cons_of_neg (by rw [hrest b rfl]; exact Bool.false_ne_true),
        List.append_nil]

theorem scanString_space {b : UInt8} (hb : isSpace b = true) (s : Bytes) :
    scanString (b :: s) = scanString s := by
  rw [scanString, List.dropWhile_cons_of_pos hb]
  rfl

theorem scanString_word (h : IsWord w) (hrest : ∀ b ∈ rest.head?, isSpace b = true) :
    scanString (w ++ rest) = some (w, rest) := by
  simp only [scanString, h.dropWhile, h.takeWhile hrest, if_neg h.1, List.drop_left]

/-- What is read is a word of the text, and the rest is behind it. -/
theorem scanString_eq_some {s : Bytes} (h : scanString s = some (w, rest)) :
    IsWord w ∧ ∃ skipped, s = skipped ++ (w ++ rest) := by
  obtain ⟨hne, h⟩ := Option.ite_none_left_eq_some.mp h
  obtain ⟨rfl, rfl⟩ := Prod.mk.inj (Option.some.inj h)
  refine ⟨⟨hne, fun b hb => by simpa using List.mem_takeWhile_imp hb⟩, s.takeWhile isSpace, ?_⟩
  have hrest := List.prefix_iff_eq_append.mp
    (List.takeWhile_prefix (fun b => !isSpace b) (l := s.dropWhile isSpace))
  rw [hrest, List.takeWhile_append_dropWhile]

end ScanString

/-! ## `%d`

The number is read as a `long` and cut to an `int`. -/

/-- `isdigit`. -/
def isDigit (b : UInt8) : Bool := 48 ≤ b && b ≤ 57

/-- The number a row of digits spells. -/
def digitsVal (digits : Bytes) : Nat := digits.foldl (fun v d => 10 * v + (d.toNat - 48)) 0

/-- `strtol` stops at the ends of `long`. -/
def clampLong (v : Int) : Int := max (-2 ^ 63) (min v (2 ^ 63 - 1))

/-- `%d`: the number, in an `int`, and what is behind it. -/
def scanInt (s : Bytes) : Option (Int × Bytes) :=
  let s := s.dropWhile isSpace
  let s' := if s.head? = some 45 ∨ s.head? = some 43 then s.tail else s
  let digits := s'.takeWhile isDigit
  if digits = [] then none
  else
    let v : Int := if s.head? = some 45 then -(digitsVal digits : Int) else digitsVal digits
    some ((clampLong v).bmod (2 ^ 32), s'.drop digits.length)

example : scanInt (ascii " -30 IN") = some (-30, ascii " IN") := by decide

theorem scanInt_space {b : UInt8} (hb : isSpace b = true) (s : Bytes) :
    scanInt (b :: s) = scanInt s := by
  rw [scanInt, List.dropWhile_cons_of_pos hb]
  rfl

section ScanInt
variable {n : Nat}

theorem toNat_of_isDigit {c : Char} (hc : c.isDigit = true) :
    (UInt8.ofNat c.toNat).toNat = c.toNat ∧ 48 ≤ c.toNat ∧ c.toNat ≤ 57 := by
  obtain ⟨hle, hge⟩ : 48 ≤ c.toNat ∧ c.toNat ≤ 57 := Char.isDigit_iff_toNat.mp hc
  refine ⟨?_, hle, hge⟩
  rw [UInt8.toNat_ofNat']
  exact Nat.mod_eq_of_lt (by omega)

/-- What is behind the number is a rest of the text, and the number is an `int`. -/
theorem scanInt_eq_some {s rest : Bytes} {v : Int} (h : scanInt s = some (v, rest)) :
    rest <:+ s ∧ -2 ^ 31 ≤ v ∧ v < 2 ^ 31 := by
  obtain ⟨-, h⟩ := Option.ite_none_left_eq_some.mp h
  obtain ⟨rfl, rfl⟩ := Prod.mk.inj (Option.some.inj h)
  refine ⟨(List.drop_suffix _ _).trans ?_, ?_, ?_⟩
  · split
    · exact (List.tail_suffix _).trans (List.dropWhile_suffix _)
    · exact List.dropWhile_suffix _
  · exact Int.le_bmod (by decide)
  · exact Int.bmod_lt (by decide)

/-- The digits `%d` writes. -/
def digits (n : Nat) : Bytes := (Nat.toDigits 10 n).map fun c => UInt8.ofNat c.toNat

theorem decimal_natCast (n : Nat) : decimal n = digits n := by
  rw [decimal, if_neg (by omega), List.nil_append, Int.natAbs_natCast]
  rfl

theorem digits_ne_nil (n : Nat) : digits n ≠ [] := by
  rw [digits, ne_eq, List.map_eq_nil_iff]
  exact Nat.toDigits_ne_nil

theorem isDigit_of_mem_digits {b : UInt8} (hb : b ∈ digits n) : isDigit b = true := by
  obtain ⟨c, hc, rfl⟩ := List.mem_map.mp hb
  obtain ⟨heq, hle, hge⟩ :=
    toNat_of_isDigit (Nat.isDigit_of_mem_toDigits (by decide) (by decide) hc)
  simp only [isDigit, Bool.and_eq_true, decide_eq_true_eq, UInt8.le_iff_toNat_le, heq]
  exact ⟨hle, hge⟩

theorem digitsVal_digits (n : Nat) : digitsVal (digits n) = n := by
  have hval : ∀ (l : List Char) (v : Nat), (∀ c ∈ l, c.isDigit = true) →
      (l.map fun c => UInt8.ofNat c.toNat).foldl (fun v d => 10 * v + (d.toNat - 48)) v
        = Nat.ofDigitChars 10 l v := by
    intro l
    induction l with
    | nil => intro v _; rw [Nat.ofDigitChars_nil]; rfl
    | cons c l ih =>
        intro v hl
        obtain ⟨heq, -, -⟩ := toNat_of_isDigit (hl c List.mem_cons_self)
        rw [List.map_cons, List.foldl_cons, ih _ fun c hc => hl c (List.mem_cons_of_mem _ hc),
          Nat.ofDigitChars_cons, heq]
        rfl
  rw [digitsVal, digits, hval _ 0 fun c hc => Nat.isDigit_of_mem_toDigits (by decide)
    (by decide) hc, Nat.ofDigitChars_ten_toDigits]

theorem ne_of_isDigit {d : UInt8} (hd : isDigit d = true) :
    isSpace d = false ∧ d ≠ 45 ∧ d ≠ 43 := by
  simp only [isDigit, Bool.and_eq_true, decide_eq_true_eq, UInt8.le_iff_toNat_le] at hd
  obtain ⟨hle, hge⟩ : 48 ≤ d.toNat ∧ d.toNat ≤ 57 := hd
  refine ⟨?_, fun h => ?_, fun h => ?_⟩
  · rw [Bool.eq_false_iff, isSpace]
    simp only [ne_eq, Bool.or_eq_true, beq_iff_eq, Bool.and_eq_true, decide_eq_true_eq,
      UInt8.le_iff_toNat_le, ← UInt8.toNat_inj]
    change ¬ (d.toNat = 32 ∨ 9 ≤ d.toNat ∧ d.toNat ≤ 13)
    omega
  · rw [h] at hle
    exact absurd hle (by decide)
  · rw [h] at hle
    exact absurd hle (by decide)

theorem bmod_clampLong (hn : n < 2 ^ 31) : (clampLong n).bmod (2 ^ 32) = n := by
  have hclamp : clampLong n = n := by
    rw [clampLong]
    omega
  rw [hclamp]
  exact Int.bmod_eq_of_le (by omega) (by omega)

theorem decimal_injective {m n : Int} (h : decimal m = decimal n) : m = n := by
  have hval : ∀ {k l : Nat}, digits k = digits l → k = l := fun {k l} hkl => by
    rw [← digitsVal_digits k, hkl, digitsVal_digits]
  have hsign : ∀ {k l : Nat}, 45 :: digits k ≠ digits l := fun {k l} hkl => by
    have hdigit : isDigit 45 = true := isDigit_of_mem_digits (hkl ▸ List.mem_cons_self)
    cases hdigit
  have hdecimal : ∀ k : Int, decimal k = (if k < 0 then [45] else []) ++ digits k.natAbs :=
    fun _ => rfl
  rw [hdecimal, hdecimal] at h
  by_cases hm : m < 0 <;> by_cases hn : n < 0
  · rw [if_pos hm, if_pos hn] at h
    have := hval (List.append_cancel_left h)
    omega
  · rw [if_pos hm, if_neg hn] at h
    exact absurd h hsign
  · rw [if_neg hm, if_pos hn] at h
    exact absurd h.symm hsign
  · rw [if_neg hm, if_neg hn] at h
    have := hval (List.append_cancel_left h)
    omega

theorem length_decimal_natCast_le_iff {k : Nat} (hk : 0 < k) :
    (decimal n).length ≤ k ↔ n < 10 ^ k := by
  rw [decimal_natCast, digits, List.length_map]
  exact Nat.length_toDigits_le_iff (by decide) hk

/-- **`%d` reads** what `%d` has written. -/
theorem scanInt_decimal (hn : n < 2 ^ 31) {rest : Bytes}
    (hrest : ∀ b ∈ rest.head?, isDigit b = false) :
    scanInt (decimal n ++ rest) = some ((n : Int), rest) := by
  obtain ⟨d, ds, hds⟩ := List.exists_cons_of_ne_nil (digits_ne_nil n)
  obtain ⟨hspace, hminus, hplus⟩ :=
    ne_of_isDigit (isDigit_of_mem_digits (hds ▸ List.mem_cons_self : d ∈ digits n))
  have hskip : (digits n ++ rest).dropWhile isSpace = digits n ++ rest := by
    rw [hds, List.cons_append, List.dropWhile_cons_of_neg]
    rw [hspace]
    exact Bool.false_ne_true
  have hhead : (digits n ++ rest).head? = some d := by rw [hds, List.cons_append, List.head?_cons]
  have hrun : (digits n ++ rest).takeWhile isDigit = digits n := by
    rw [List.takeWhile_append_of_pos fun b hb => isDigit_of_mem_digits hb]
    cases rest with
    | nil => rw [List.takeWhile_nil, List.append_nil]
    | cons b rest =>
        rw [List.takeWhile_cons_of_neg (by rw [hrest b rfl]; exact Bool.false_ne_true),
          List.append_nil]
  simp only [decimal_natCast, scanInt, hskip, hhead, Option.some.injEq, hminus, hplus, or_self,
    if_false, hrun, if_neg (digits_ne_nil n), digitsVal_digits, bmod_clampLong hn, List.drop_left]

end ScanInt

end InternetLabs
