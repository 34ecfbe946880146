/-
# `InternetLabs.DataLab.Puzzles` — the integer puzzles

The functions of `bits.c` that do with a few operators what C has an operator or a comparison for.
Each is shown to be that, for all words; the shifts are by less than the width of a word, as the
comments before the functions ask for.

A word is negative where its bits, as a number, are at least `2 ^ 31` (`toInt_eq`); most of what
follows is arithmetic on these numbers.
-/
import InternetLabs.DataLab.Count

namespace InternetLabs.DataLab

open InternetLabs

/-- `!x`. -/
def lnot (x : Int32) : Int32 := if x = 0 then 1 else 0

/-- `bitAnd`. -/
def bitAnd (x y : Int32) : Int32 := ~~~(~~~x ||| ~~~y)

/-- `getByte`. -/
def getByte (x n : Int32) : Int32 := x >>> (n <<< 3) &&& 0xFF

/-- `logicalShift`. -/
def logicalShift (x n : Int32) : Int32 := x >>> n &&& ~~~(((1 : Int32) <<< 31 >>> n) <<< 1)

/-- `tmin`. -/
def tmin : Int32 := (8 : Int32) <<< 28

/-- `fitsBits`. -/
def fitsBits (x n : Int32) : Int32 :=
  let shift := 32 + (~~~n + 1)
  lnot ((x <<< shift >>> shift) ^^^ x)

/-- `divpwr2`. -/
def divpwr2 (x n : Int32) : Int32 :=
  let mask := (1 : Int32) <<< n + ~~~(0 : Int32)
  let eq := x >>> 31 &&& mask
  (x + eq) >>> n

/-- `negate`. -/
def negate (x : Int32) : Int32 := ~~~x + 1

/-- `isPositive`. -/
def isPositive (x : Int32) : Int32 := lnot ((x &&& (1 : Int32) <<< 31) ||| lnot x)

/-- `isLessOrEqual`. -/
def isLessOrEqual (x y : Int32) : Int32 :=
  let equal := lnot (x ^^^ y)
  let sign := x ^^^ y
  let lessThan := ~~~sign
  let difference := y + (~~~x + 1)
  let sign := sign &&& x
  let difference := ~~~difference
  let lessThan := lessThan &&& difference
  let lessThan := lessThan ||| sign
  let lessThan := lessThan &&& (1 : Int32) <<< 31
  lnot (lnot lessThan) ||| equal

/-! ## Shifts by a variable

Words shift by an amount modulo the width, and the amounts here are less than that. -/

section Shifts
variable {x n : Int32} {m : Nat}

theorem smod_width (hn : n.toInt = m) (hm : m < 32) : (n.toBitVec.smod 32).toNat = m := by
  have hmod : (n.toBitVec.smod 32).toInt = m := by
    rw [BitVec.toInt_smod]
    change n.toInt.fmod 32 = m
    rw [hn, Int.fmod_eq_emod_of_nonneg _ (by decide)]
    omega
  have hcond := BitVec.toInt_eq_toNat_cond (n.toBitVec.smod 32)
  have hlt := (n.toBitVec.smod 32).isLt
  rw [hmod] at hcond
  split at hcond <;> omega

theorem toInt_shiftRight (hn : n.toInt = m) (hm : m < 32) :
    (x >>> n).toInt = x.toInt / 2 ^ m := by
  change (x.toBitVec.sshiftRight' (n.toBitVec.smod 32)).toInt = _
  rw [BitVec.sshiftRight', BitVec.toInt_sshiftRight, smod_width hn hm, Int.shiftRight_eq_div_pow]
  rfl

theorem bits_shiftLeft_of_toInt (hn : n.toInt = m) (hm : m < 32) :
    bits (x <<< n) = bits x * 2 ^ m % 2 ^ 32 :=
  bits_shiftLeft x (smod_width hn hm)

theorem toInt_emod (x : Int32) : x.toInt % 2 ^ 32 = bits x := by
  have hcond := toInt_eq x
  have hlt := bits_lt x
  split at hcond <;> omega

theorem toInt_lt (x : Int32) : -2 ^ 31 ≤ x.toInt ∧ x.toInt < 2 ^ 31 := by
  have hcond := toInt_eq x
  have hlt := bits_lt x
  split at hcond <;> omega

/-- A number that a word can hold is the number of the word with its bits. -/
theorem toInt_eq_of_emod {z : Int} (hz : z % 2 ^ 32 = bits x) (hlo : -2 ^ 31 ≤ z)
    (hhi : z < 2 ^ 31) :
    x.toInt = z := by
  have hx := toInt_emod x
  have hlt := toInt_lt x
  omega

end Shifts

/-! ## Division and width -/

section Arithmetic
variable {x n : Int32} {m : Nat}

theorem negate_eq (hx : x ≠ tmin) : (negate x).toInt = -x.toInt := by
  have hmin : bits tmin = 2 ^ 31 := by decide
  have hne : bits x ≠ 2 ^ 31 := fun h => hx ((bits_inj x tmin).mp (h.trans hmin.symm))
  have hone : bits 1 = 1 := by decide
  have hbits : bits (negate x) = (2 ^ 32 - 1 - bits x + 1) % 2 ^ 32 := by
    rw [negate, bits_add, bits_complement, hone]
  have hlt := bits_lt x
  have hcond := toInt_eq x
  refine toInt_eq_of_emod ?_ ?_ ?_ <;> split at hcond <;> omega

theorem ones_mod {k m : Nat} (h : m ≤ k) : (2 ^ k - 1) % 2 ^ m = 2 ^ m - 1 := by
  obtain ⟨c, rfl⟩ := Nat.exists_eq_add_of_le h
  have hpos := Nat.two_pow_pos m
  have hsplit : 2 ^ (m + c) - 1 = 2 ^ m * (2 ^ c - 1) + (2 ^ m - 1) := by
    have hc := Nat.two_pow_pos c
    have hle : 2 ^ m ≤ 2 ^ m * 2 ^ c := Nat.le_mul_of_pos_right _ hc
    rw [Nat.pow_add, Nat.mul_sub, Nat.mul_one]
    omega
  rw [hsplit, Nat.mul_add_mod, Nat.mod_eq_of_lt (by omega)]

theorem toInt_bias (hn : n.toInt = m) (hm : m ≤ 30) :
    (x + (x >>> 31 &&& ((1 : Int32) <<< n + ~~~(0 : Int32)))).toInt
      = x.toInt + if x.toInt < 0 then 2 ^ m - 1 else 0 := by
  have hpow : 2 ^ m ≤ 2 ^ 30 := Nat.pow_le_pow_right (by decide) hm
  have hpos := Nat.two_pow_pos m
  have hone : bits 1 = 1 := by decide
  have hall : bits (~~~(0 : Int32)) = 2 ^ 32 - 1 := by decide
  have hmask : bits ((1 : Int32) <<< n + ~~~(0 : Int32)) = 2 ^ m - 1 := by
    rw [bits_add, bits_shiftLeft_of_toInt hn (by omega), hone, hall, Nat.one_mul,
      Nat.mod_eq_of_lt (by omega : 2 ^ m < 2 ^ 32)]
    omega
  have hsign : bits (x >>> 31 &&& ((1 : Int32) <<< n + ~~~(0 : Int32)))
      = if x.toInt < 0 then 2 ^ m - 1 else 0 := by
    have hshift : (x >>> 31).toInt = if x.toInt < 0 then -1 else 0 := by
      have hlt := toInt_lt x
      rw [toInt_shiftRight (n := 31) (m := 31) (by decide) (by decide)]
      split <;> omega
    rw [bits_and_low _ _ hmask]
    have hmod := toInt_emod (x >>> 31)
    rw [hshift] at hmod
    split at hmod
    next hneg =>
      have hbits : bits (x >>> 31) = 2 ^ 32 - 1 := by omega
      rw [if_pos hneg, hbits]
      exact ones_mod (by omega)
    next hneg =>
      have hbits : bits (x >>> 31) = 0 := by omega
      rw [if_neg hneg, hbits, Nat.zero_mod]
  have hlt := toInt_lt x
  have hx := toInt_emod x
  have hcast : ((2 ^ m : ℕ) : Int) = 2 ^ m := Nat.cast_pow 2 m
  refine toInt_eq_of_emod ?_ ?_ ?_
  · rw [bits_add, hsign]
    split <;> omega
  · split <;> omega
  · split <;> omega

/-- **`divpwr2` divides**, and rounds to zero. -/
theorem divpwr2_eq_tdiv (hn : n.toInt = m) (hm : m ≤ 30) :
    (divpwr2 x n).toInt = x.toInt.tdiv (2 ^ m) := by
  have hdiv : (divpwr2 x n).toInt = (x.toInt + if x.toInt < 0 then 2 ^ m - 1 else 0) / 2 ^ m := by
    rw [← toInt_bias hn hm, ← toInt_shiftRight hn (by omega)]
    rfl
  have hpos : (0 : Int) < 2 ^ m := by positivity
  rw [hdiv]
  by_cases hneg : x.toInt < 0
  · have hzero : ((2 : Int) ^ m - 1) / 2 ^ m = 0 := Int.ediv_eq_zero_of_lt (by omega) (by omega)
    have hmod : ((2 : Int) ^ m - 1) % 2 ^ m = 2 ^ m - 1 := Int.emod_eq_of_lt (by omega) (by omega)
    have hdvd : (2 : Int) ^ m ∣ x.toInt ↔ x.toInt % 2 ^ m = 0 := Int.dvd_iff_emod_eq_zero
    have hlo := Int.emod_nonneg x.toInt hpos.ne'
    rw [if_pos hneg, Int.tdiv_eq_ediv, Int.sign_eq_one_of_pos hpos, Int.add_ediv_of_pos hpos, hzero,
      hmod, Int.add_zero]
    congr 1
    split <;> split <;> omega
  · rw [if_neg hneg, Int.add_zero, Int.tdiv_eq_ediv_of_nonneg (by omega)]

theorem divpwr2_minus : (divpwr2 (-33) 4).toInt = (-33 : Int).tdiv (2 ^ 4) :=
  @divpwr2_eq_tdiv (-33) 4 4 (by decide) (by decide)

/-- Shifting to the left and back keeps the low bits, the last of them as the sign. -/
theorem toInt_shiftLeft_shiftRight (hn : n.toInt = m) (hm : m < 32) :
    ∃ q : Int, (x <<< n >>> n).toInt = x.toInt - 2 ^ (32 - m) * q ∧
      -2 ^ 31 ≤ (x.toInt - 2 ^ (32 - m) * q) * 2 ^ m ∧
      (x.toInt - 2 ^ (32 - m) * q) * 2 ^ m < 2 ^ 31 := by
  have hbits := toInt_emod (x <<< n)
  have hmod : x.toInt * 2 ^ m % 2 ^ 32 = (x <<< n).toInt % 2 ^ 32 := by
    have hcast : ((bits x * 2 ^ m : ℕ) : Int) = bits x * 2 ^ m := by push_cast; rfl
    rw [hbits, bits_shiftLeft_of_toInt hn hm]
    change _ = ((bits x * 2 ^ m : ℕ) : Int) % 2 ^ 32
    rw [hcast, ← toInt_emod x, Int.mul_emod x.toInt (2 ^ m),
      Int.mul_emod (x.toInt % 2 ^ 32) (2 ^ m), Int.emod_emod]
  obtain ⟨q, hq⟩ := Int.dvd_of_emod_eq_zero (Int.emod_eq_emod_iff_emod_sub_eq_zero.mp hmod)
  have hpow : (2 : Int) ^ 32 = 2 ^ (32 - m) * 2 ^ m := by
    rw [← pow_add, Nat.sub_add_cancel hm.le]
  have hpos : (0 : Int) < 2 ^ m := by positivity
  have hshift : (x <<< n).toInt = (x.toInt - 2 ^ (32 - m) * q) * 2 ^ m := by
    rw [hpow] at hq
    linarith
  refine ⟨q, ?_, ?_⟩
  · rw [toInt_shiftRight hn hm, hshift, Int.mul_ediv_cancel _ hpos.ne']
  · rw [← hshift]
    exact toInt_lt _

/-- **`fitsBits`** tells whether `n` bits can hold the number. -/
theorem fitsBits_eq (hn : n.toInt = m) (hlo : 1 ≤ m) (hhi : m ≤ 32) :
    fitsBits x n = if -2 ^ (m - 1) ≤ x.toInt ∧ x.toInt < 2 ^ (m - 1) then 1 else 0 := by
  have hshift : (32 + (~~~n + 1)).toInt = (32 - m : ℕ) := by
    have hbits : bits (32 + (~~~n + 1)) = (32 + (2 ^ 32 - 1 - bits n + 1) % 2 ^ 32) % 2 ^ 32 := by
      rw [bits_add, bits_add, bits_complement]
      rfl
    have hnbits := toInt_emod n
    refine toInt_eq_of_emod ?_ ?_ ?_ <;> omega
  obtain ⟨q, hback, hlow, hhigh⟩ := toInt_shiftLeft_shiftRight (x := x) hshift (by omega)
  obtain ⟨l, rfl⟩ : ∃ l, m = l + 1 := ⟨m - 1, by omega⟩
  have hwidth : 32 - (32 - (l + 1)) = l + 1 := by omega
  have hpow : (2 : Int) ^ 31 = 2 ^ l * 2 ^ (32 - (l + 1)) := by
    rw [← pow_add]
    congr 1
    omega
  have hpos : (0 : Int) < 2 ^ (32 - (l + 1)) := by positivity
  rw [hwidth] at hback hlow hhigh
  -- what comes back is in the range
  have hlow' : -2 ^ l ≤ x.toInt - 2 ^ (l + 1) * q := by
    refine le_of_mul_le_mul_right ?_ hpos
    rwa [neg_mul, ← hpow]
  have hhigh' : x.toInt - 2 ^ (l + 1) * q < 2 ^ l := by
    refine lt_of_mul_lt_mul_right ?_ hpos.le
    rwa [← hpow]
  have hsame : (x <<< (32 + (~~~n + 1)) >>> (32 + (~~~n + 1))) ^^^ x = 0 ↔
      x.toInt - 2 ^ (l + 1) * q = x.toInt := by
    rw [Int32.xor_eq_zero_iff, ← Int32.toInt_inj, hback]
  have hfits : x.toInt - 2 ^ (l + 1) * q = x.toInt ↔ -2 ^ l ≤ x.toInt ∧ x.toInt < 2 ^ l := by
    constructor
    · intro heq
      rw [heq] at hlow' hhigh'
      exact ⟨hlow', hhigh'⟩
    · rintro ⟨hlo', hhi'⟩
      have hdouble : (2 : Int) ^ (l + 1) = 2 * 2 ^ l := by rw [pow_succ, mul_comm]
      have hlpos : (0 : Int) < 2 * 2 ^ l := by positivity
      rw [hdouble] at hlow' hhigh' ⊢
      have hq1 : q < 1 := lt_of_mul_lt_mul_left (by linarith) hlpos.le
      have hq0 : -1 < q := lt_of_mul_lt_mul_left (by linarith) hlpos.le
      obtain rfl : q = 0 := by omega
      ring
  rw [Nat.add_sub_cancel]
  change (if _ then (1 : Int32) else 0) = _
  rw [if_congr (hsame.trans hfits) rfl rfl]

theorem fitsBits_minus_four :
    fitsBits (-4) 3 = if -2 ^ 2 ≤ (-4 : Int32).toInt ∧ (-4 : Int32).toInt < 2 ^ 2 then 1 else 0 :=
  @fitsBits_eq (-4) 3 3 (by decide) (by decide) (by decide)

end Arithmetic

/-! ## Single bits and comparisons -/

section Bits
variable {x y n : Int32} {m : Nat}

theorem bitAnd_eq (x y : Int32) : bitAnd x y = x &&& y := by
  rw [bitAnd]
  simp [← Int32.toBitVec_inj, BitVec.not_or]

theorem testBit_sign (x : Int32) : (bits x).testBit 31 = decide (x.toInt < 0) := by
  have hcond := toInt_eq x
  have hlt := bits_lt x
  rw [Nat.testBit_eq_decide_div_mod_eq, decide_eq_decide]
  split at hcond <;> omega

theorem bits_xor (x y : Int32) : bits (x ^^^ y) = bits x ^^^ bits y := rfl

theorem and_sign_ne_zero_iff (x : Int32) :
    x &&& (1 : Int32) <<< 31 ≠ 0 ↔ (bits x).testBit 31 = true := by
  rw [and_two_pow_ne_zero_iff x _ bits_mask, Nat.testBit_eq_decide_div_mod_eq, decide_eq_true_iff]

theorem testBit_complement {j : Nat} (hj : j < 32) :
    (bits (~~~x)).testBit j = !(bits x).testBit j := by
  change (~~~x.toBitVec).getLsbD j = _
  rw [BitVec.getLsbD_not, decide_eq_true hj, Bool.true_and]
  rfl

theorem lnot_eq_zero_iff (x : Int32) : lnot x = 0 ↔ x ≠ 0 := by
  rw [lnot]
  split
  next h => simp [h]
  next h => simp [h]

theorem lnot_lnot_or_lnot (x y : Int32) :
    lnot (lnot x) ||| lnot y = if x ≠ 0 ∨ y = 0 then 1 else 0 := by
  by_cases hx : x = 0 <;> by_cases hy : y = 0 <;> simp [lnot, hx, hy]

/-- **`isPositive`** tells the sign. -/
theorem isPositive_eq (x : Int32) : isPositive x = if 0 < x.toInt then 1 else 0 := by
  have hzero : x = 0 ↔ x.toInt = 0 := by rw [← Int32.toInt_inj, Int32.toInt_zero]
  have hsign : x &&& (1 : Int32) <<< 31 = 0 ↔ ¬ x.toInt < 0 := by
    rw [← not_iff_not, ← Ne, and_sign_ne_zero_iff, testBit_sign, decide_eq_true_iff, not_not]
  have hboth : (x &&& (1 : Int32) <<< 31) ||| lnot x = 0 ↔ 0 < x.toInt := by
    rw [Int32.or_eq_zero_iff, hsign, lnot_eq_zero_iff, Ne, hzero]
    omega
  rw [isPositive]
  change (if _ then (1 : Int32) else 0) = _
  rw [if_congr hboth rfl rfl]

theorem testBit_difference (hsame : x.toInt < 0 ↔ y.toInt < 0) :
    (bits (y + (~~~x + 1))).testBit 31 = decide (y.toInt < x.toInt) := by
  have hone : bits 1 = 1 := by decide
  have hbits : bits (y + (~~~x + 1)) = (bits y + (2 ^ 32 - 1 - bits x + 1) % 2 ^ 32) % 2 ^ 32 := by
    rw [bits_add, bits_add, bits_complement, hone]
  have hx := toInt_eq x
  have hy := toInt_eq y
  have hxlt := bits_lt x
  have hylt := bits_lt y
  rw [Nat.testBit_eq_decide_div_mod_eq, hbits, decide_eq_decide]
  split at hx <;> split at hy <;> omega

/-- **`isLessOrEqual` compares**, also where the difference overflows. -/
theorem isLessOrEqual_eq (x y : Int32) :
    isLessOrEqual x y = if x.toInt ≤ y.toInt then 1 else 0 := by
  have hrun : isLessOrEqual x y = lnot (lnot (((~~~(x ^^^ y) &&& ~~~(y + (~~~x + 1))) |||
      ((x ^^^ y) &&& x)) &&& (1 : Int32) <<< 31)) ||| lnot (x ^^^ y) := rfl
  have hbit : (bits ((~~~(x ^^^ y) &&& ~~~(y + (~~~x + 1))) ||| ((x ^^^ y) &&& x))).testBit 31
      = if (x.toInt < 0 ↔ y.toInt < 0) then decide (x.toInt ≤ y.toInt)
          else decide (x.toInt < 0) := by
    rw [bits_or, bits_and, bits_and, Nat.testBit_or, Nat.testBit_and, Nat.testBit_and,
      testBit_complement (by decide), testBit_complement (by decide), bits_xor, Nat.testBit_xor,
      testBit_sign x, testBit_sign y]
    by_cases hsame : x.toInt < 0 ↔ y.toInt < 0
    · have hsigns : decide (x.toInt < 0) = decide (y.toInt < 0) := decide_eq_decide.mpr hsame
      rw [if_pos hsame, testBit_difference hsame, hsigns]
      have hnot : (!decide (y.toInt < x.toInt)) = decide (x.toInt ≤ y.toInt) := by
        rw [← decide_not, decide_eq_decide, not_lt]
      rw [hnot]
      simp
    · rw [if_neg hsame]
      by_cases hx : x.toInt < 0
      · have hy : ¬ y.toInt < 0 := fun hy => hsame (iff_of_true hx hy)
        simp [hx, hy]
      · have hy : y.toInt < 0 := by
          by_contra hy
          exact hsame (iff_of_false hx hy)
        simp [hx, hy]
  rw [hrun, lnot_lnot_or_lnot]
  refine if_congr ?_ rfl rfl
  rw [and_sign_ne_zero_iff, hbit, Int32.xor_eq_zero_iff, ← Int32.toInt_inj]
  split
  next hsame =>
    rw [decide_eq_true_iff]
    omega
  next hsame =>
    rw [decide_eq_true_iff]
    omega

theorem tmin_eq : tmin.toInt = -2 ^ 31 := by decide

theorem getByte_eq (hn : n.toInt = m) (hm : m ≤ 3) : bits (getByte x n)
    = bits x / 256 ^ m % 256 := by
  have hbits := toInt_emod n
  have hk : (n <<< 3).toInt = (8 * m : ℕ) := by
    have hshift : bits (n <<< 3) = bits n * 2 ^ 3 % 2 ^ 32 := bits_shiftLeft n (by decide)
    refine toInt_eq_of_emod ?_ ?_ ?_ <;> omega
  have hbyte : bits 0xFF = 2 ^ 8 - 1 := by decide
  have hroom : 2 ^ 8 ≤ 2 ^ (32 - 8 * m) := Nat.pow_le_pow_right (by decide) (by omega)
  rw [getByte, bits_shiftRight_and x 0xFF (smod_width hk (by omega)) (by omega), hbyte,
    Nat.and_two_pow_sub_one_eq_mod, Nat.shiftRight_eq_div_pow, Nat.pow_mul]

/-- **`logicalShift`** shifts the bits, and no sign comes in. -/
theorem logicalShift_eq (hn : n.toInt = m) (hm : m < 32) : bits (logicalShift x n)
    = bits x >>> m := by
  have hk := smod_width hn hm
  refine Nat.eq_of_testBit_eq fun j => ?_
  have hout : ∀ j, 32 ≤ j → (bits x).testBit j = false := fun j hj =>
    Nat.testBit_lt_two_pow ((bits_lt x).trans_le (Nat.pow_le_pow_right (by decide) hj))
  rw [logicalShift, bits_and, Nat.testBit_and, testBit_shiftRight x hk, Nat.testBit_shiftRight]
  by_cases hj : j < 32
  swap
  · rw [decide_eq_false hj, Bool.false_and, Bool.false_and, hout _ (by omega)]
  -- the mask has its ones where the sign would come in
  have hmask : (bits (((1 : Int32) <<< 31 >>> n) <<< 1)).testBit j = decide (32 ≤ m + j) := by
    rw [bits_shiftLeft _ (n := 1) (by decide), Nat.testBit_mod_two_pow, ← Nat.shiftLeft_eq,
      Nat.testBit_shiftLeft, testBit_shiftRight _ hk, bits_mask, Nat.testBit_two_pow,
      decide_eq_true hj, Bool.true_and]
    have hmsb : ((1 : Int32) <<< 31).toBitVec.msb = true := by decide
    rw [hmsb]
    by_cases hcut : 32 ≤ m + j
    · rw [decide_eq_true hcut, decide_eq_true (by omega), decide_eq_true (by omega)]
      by_cases hlast : m + (j - 1) < 32
      · rw [if_pos hlast, decide_eq_true (by omega)]
        rfl
      · rw [if_neg hlast]
        rfl
    · rw [decide_eq_false hcut]
      by_cases hfirst : 1 ≤ j
      · rw [decide_eq_true hfirst, decide_eq_true (by omega), if_pos (by omega),
          decide_eq_false (by omega)]
        rfl
      · rw [decide_eq_false hfirst]
        rfl
  rw [testBit_complement hj, hmask, decide_eq_true hj, Bool.true_and]
  by_cases hcut : m + j < 32
  · rw [if_pos hcut, decide_eq_false (by omega), Bool.not_false, Bool.and_true]
  · rw [if_neg hcut, decide_eq_true (by omega), Bool.not_true, Bool.and_false, hout _ (by omega)]

end Bits

end InternetLabs.DataLab
