/-
# `InternetLabs.DataLab.FloatI2f` — from an integer to a single-precision pattern

`float_i2f` of `bits.c`, for a machine with 32-bit integers in two's complement, as the lab
assumes.  Its loop moves the leading bit to the place of the sign; the 23 bits behind it are the
fraction, and the eight bits behind these decide whether one more is added, which may carry into
the exponent.  With the magnitude in `[2 ^ 31, 2 ^ 32)` this is the choice between two rungs of
the ladder of `InternetLabs.Lib.Ieee` that are 256 apart (`floatI2f_rounds`).
-/
import InternetLabs.Lib.Ieee
import InternetLabs.Lib.Loop
import Mathlib.Data.Nat.Bitwise

namespace InternetLabs.DataLab

open InternetLabs

/-- The loop of `float_i2f`. -/
def shiftLoop (mask : Int32) : Int32 × Int32 → Step (Int32 × Int32) (Int32 × Int32)
  | (x, e) => if x &&& mask = 0 then .next (x <<< 1, e - 1) else .ret (x, e)

/-- What it does after the loop. -/
def roundFrac (mask sign : Int32) : Int32 × Int32 → UInt32
  | (x, e) =>
      let frac := (x &&& ~~~mask) >>> 8
      let frac :=
        if x &&& 0x80 ≠ 0 ∧ (x &&& 0x7F > 0 ∨ frac &&& 1 ≠ 0) then frac + 1 else frac
      (sign + e <<< 23 + frac).toUInt32

/-- `float_i2f`, with at most `fuel` evaluations of the condition of its loop. -/
def floatI2f (fuel : Nat) (x : Int32) : Option UInt32 :=
  let e : Int32 := 158
  let mask := (1 : Int32) <<< 31
  let sign := x &&& mask
  if x = mask then some (mask ||| (158 : Int32) <<< 23).toUInt32
  else if x = 0 then some 0
  else
    let x := if sign ≠ 0 then ~~~x + 1 else x
    (Loop.run (shiftLoop mask) fuel (x, e)).map (roundFrac mask sign)

/-! ## Words as numbers

A word as the number of its bits, and each operation of the source on it. -/

/-- A word without its sign, as a number. -/
def bits (x : Int32) : Nat := x.toUInt32.toNat

section Bits
variable (x y : Int32)

theorem bits_lt : bits x < 2 ^ 32 := x.toUInt32.toNat_lt

theorem bits_inj : bits x = bits y ↔ x = y :=
  ⟨fun h => Int32.toBitVec.inj (BitVec.eq_of_toNat_eq h), congrArg bits⟩

theorem toInt_eq : x.toInt = if bits x < 2 ^ 31 then (bits x : Int) else bits x - 2 ^ 32 := by
  have h := BitVec.toInt_eq_toNat_cond x.toBitVec
  change x.toInt = if 2 * bits x < 2 ^ 32 then (bits x : Int) else bits x - (2 ^ 32 : ℕ) at h
  rw [h]
  split <;> split <;> omega

theorem bits_add : bits (x + y) = (bits x + bits y) % 2 ^ 32 := rfl

theorem bits_sub : bits (x - y) = (2 ^ 32 - bits y + bits x) % 2 ^ 32 := rfl

theorem bits_and : bits (x &&& y) = bits x &&& bits y := rfl

theorem bits_complement : bits (~~~x) = 2 ^ 32 - 1 - bits x := BitVec.toNat_not

theorem bits_shiftLeft {k : Int32} {n : Nat} (hk : (k.toBitVec.smod 32).toNat = n) :
    bits (x <<< k) = bits x * 2 ^ n % 2 ^ 32 := by
  change (x.toBitVec <<< (k.toBitVec.smod 32)).toNat = _
  rw [BitVec.shiftLeft_eq', BitVec.toNat_shiftLeft, hk, Nat.shiftLeft_eq]
  rfl

theorem bits_shiftRight (h : bits x < 2 ^ 31) : bits (x >>> 8) = bits x / 2 ^ 8 := by
  have hmsb : x.toBitVec.msb = false := by
    rw [BitVec.msb_eq_false_iff_two_mul_lt]
    change 2 * bits x < 2 ^ 32
    omega
  change (x.toBitVec.sshiftRight' _).toNat = _
  rw [BitVec.toNat_sshiftRight'_of_msb_false hmsb, Nat.shiftRight_eq_div_pow]
  rfl

theorem bits_and_two_pow {k : Nat} (hy : bits y = 2 ^ k) :
    bits (x &&& y) = bits x / 2 ^ k % 2 * 2 ^ k := by
  rw [bits_and, hy, Nat.and_two_pow, Nat.testBit_eq_decide_div_mod_eq]
  rcases Nat.mod_two_eq_zero_or_one (bits x / 2 ^ k) with h | h <;> simp [h]

theorem bits_and_low {k : Nat} (hy : bits y = 2 ^ k - 1) : bits (x &&& y) = bits x % 2 ^ k := by
  rw [bits_and, hy, Nat.and_two_pow_sub_one_eq_mod]

theorem and_two_pow_ne_zero_iff {k : Nat} (hy : bits y = 2 ^ k) :
    x &&& y ≠ 0 ↔ bits x / 2 ^ k % 2 = 1 := by
  rw [Ne, ← bits_inj, bits_and_two_pow x y hy]
  change ¬ _ = 0 ↔ _
  rw [Nat.mul_eq_zero, not_or]
  have hpos : (2 ^ k : ℕ) ≠ 0 := (Nat.two_pow_pos k).ne'
  omega

end Bits

/-! ## The loop -/

/-- The leading bit comes to its place, and the exponent counts the shifts. -/
theorem run_shiftLoop {k : Nat} {x e : Int32} (hlo : 2 ^ 31 ≤ bits x * 2 ^ k)
    (hhi : bits x * 2 ^ k < 2 ^ 32) (he : k ≤ bits e) {fuel : Nat} (hfuel : k < fuel) :
    ∃ x' e', Loop.run (shiftLoop ((1 : Int32) <<< 31)) fuel (x, e) = some (x', e') ∧
      bits x' = bits x * 2 ^ k ∧ bits e' + k = bits e := by
  have hmask : bits ((1 : Int32) <<< 31) = 2 ^ 31 := by decide
  induction k generalizing x e fuel with
  | zero =>
      obtain ⟨fuel, rfl⟩ : ∃ f, fuel = f + 1 := ⟨fuel - 1, by omega⟩
      have hlead : x &&& (1 : Int32) <<< 31 ≠ 0 := by
        rw [and_two_pow_ne_zero_iff x _ hmask]
        omega
      have hret : shiftLoop ((1 : Int32) <<< 31) (x, e) = .ret (x, e) := by
        simp only [shiftLoop, if_neg hlead]
      exact ⟨x, e, Loop.run_ret hret fuel, (Nat.mul_one _).symm, rfl⟩
  | succ k ih =>
      obtain ⟨fuel, rfl⟩ : ∃ f, fuel = f + 1 := ⟨fuel - 1, by omega⟩
      have hpow : bits x * 2 ^ (k + 1) = bits x * 2 * 2 ^ k := by ring
      have hpos : 1 ≤ 2 ^ k := Nat.one_le_two_pow
      have hsmall : bits x * 2 < 2 ^ 32 := by
        refine Nat.lt_of_le_of_lt (Nat.le_mul_of_pos_right _ hpos) ?_
        rwa [← hpow]
      have hlead : x &&& (1 : Int32) <<< 31 = 0 := by
        by_contra hne
        rw [← Ne, and_two_pow_ne_zero_iff x _ hmask] at hne
        omega
      have hnext : shiftLoop ((1 : Int32) <<< 31) (x, e) = .next (x <<< 1, e - 1) := by
        simp only [shiftLoop, if_pos hlead]
      have hx : bits (x <<< 1) = bits x * 2 := by
        rw [bits_shiftLeft x (n := 1) (by decide), Nat.pow_one, Nat.mod_eq_of_lt hsmall]
      have he' : bits (e - 1) + 1 = bits e := by
        have hlt := bits_lt e
        have hone : bits 1 = 1 := by decide
        rw [bits_sub, hone]
        omega
      rw [hpow] at hlo hhi ⊢
      rw [Loop.run_next hnext, ← hx]
      obtain ⟨x', e', hrun, hx', hcount⟩ :=
        ih (x := x <<< 1) (e := e - 1) (by rwa [hx]) (by rwa [hx]) (by omega)
          (Nat.lt_of_succ_lt_succ hfuel)
      exact ⟨x', e', hrun, hx', by omega⟩

/-- A number is shifted to its place by fewer bits than a word has. -/
theorem exists_shift {n : Nat} (hpos : 0 < n) (hlt : n < 2 ^ 32) :
    ∃ k ≤ 31, 2 ^ 31 ≤ n * 2 ^ k ∧ n * 2 ^ k < 2 ^ 32 := by
  have hlog : Nat.log2 n < 32 := (Nat.log2_lt hpos.ne').mpr hlt
  have hlo : 2 ^ Nat.log2 n ≤ n := Nat.log2_self_le hpos.ne'
  have hhi : n < 2 ^ (Nat.log2 n + 1) := Nat.lt_log2_self
  refine ⟨31 - Nat.log2 n, by omega, ?_, ?_⟩
  · calc 2 ^ 31 = 2 ^ Nat.log2 n * 2 ^ (31 - Nat.log2 n) := by
          rw [← Nat.pow_add]
          congr 1
          omega
      _ ≤ n * 2 ^ (31 - Nat.log2 n) := Nat.mul_le_mul_right _ hlo
  · calc n * 2 ^ (31 - Nat.log2 n) < 2 ^ (Nat.log2 n + 1) * 2 ^ (31 - Nat.log2 n) :=
          Nat.mul_lt_mul_of_pos_right hhi (Nat.two_pow_pos _)
      _ = 2 ^ 32 := by
          rw [← Nat.pow_add]
          congr 1
          omega

/-! ## The two rungs

The pattern that is cut off and the next one are neighbours on the ladder, and the
number is between them. -/

/-- The exponent, and the 23 bits behind the leading one. -/
def truncated (e X : Nat) : Nat := e * 2 ^ 23 + X % 2 ^ 31 / 2 ^ 8

/-- What the eight bits behind these add. -/
def roundUp (X : Nat) : Prop :=
  X / 2 ^ 7 % 2 = 1 ∧ (0 < X % 2 ^ 7 ∨ X % 2 ^ 31 / 2 ^ 8 % 2 = 1)

instance (X : Nat) : Decidable (roundUp X) := inferInstanceAs (Decidable (_ ∧ _))

/-- The pattern without its sign. -/
def rounded (e X : Nat) : Nat := if roundUp X then truncated e X + 1 else truncated e X

section Rungs
variable {n k e : Nat} (he : e + k = 158) (hk : k ≤ 31)
  (hlo : 2 ^ 31 ≤ n * 2 ^ k) (hhi : n * 2 ^ k < 2 ^ 32)

theorem truncated_div (X : Nat) : truncated e X / 2 ^ 23 = e := by
  have hlt : X % 2 ^ 31 / 2 ^ 8 < 2 ^ 23 := by omega
  rw [truncated]
  omega

theorem even_truncated_iff (X : Nat) : Even (truncated e X) ↔ X % 2 ^ 31 / 2 ^ 8 % 2 = 0 := by
  rw [Nat.even_iff, truncated]
  omega

/-- What the last bit of the number is worth, in its place. -/
theorem scale (hk : k ≤ 31) : ((n * 2 ^ k : ℕ) : ℚ) * (2 ^ (149 - k) * Format.single.unit) = n := by
  have hunit : Format.single.unit = (2 ^ 149)⁻¹ := by
    rw [Format.unit]
    norm_num [Format.bias, Format.single]
  have hpow : (2 : ℚ) ^ k * 2 ^ (149 - k) = 2 ^ 149 := by
    rw [← pow_add]
    congr 1
    omega
  rw [hunit]
  push_cast
  rw [mul_assoc, ← mul_assoc (2 ^ k : ℚ), hpow, mul_inv_cancel₀ (by norm_num), mul_one]

include he hk hlo hhi

theorem magnitude_truncated :
    (Format.single.magnitude (truncated e (n * 2 ^ k)) : ℚ) * Format.single.unit
      = (n * 2 ^ k / 2 ^ 8 * 2 ^ 8 : ℕ) * (2 ^ (149 - k) * Format.single.unit) := by
  have hnormal : truncated e (n * 2 ^ k)
      = (157 - k + 1) * 2 ^ 23 + n * 2 ^ k % 2 ^ 31 / 2 ^ 8 := by
    rw [truncated, show e = 157 - k + 1 by omega]
  have hlt : n * 2 ^ k % 2 ^ 31 / 2 ^ 8 < 2 ^ Format.single.fracBits := by
    change _ < 2 ^ 23
    omega
  have hlead : 2 ^ Format.single.fracBits + n * 2 ^ k % 2 ^ 31 / 2 ^ 8 = n * 2 ^ k / 2 ^ 8 := by
    change 2 ^ 23 + _ = _
    omega
  have hpow : 2 ^ (157 - k) = 2 ^ 8 * 2 ^ (149 - k) := by
    rw [← Nat.pow_add]
    congr 1
    omega
  have hmag := Format.single.magnitude_mul_add (e := 157 - k) hlt
  change Format.single.magnitude ((157 - k + 1) * 2 ^ 23 + _) = _ at hmag
  rw [hnormal, hmag, hlead, hpow]
  push_cast
  ring

theorem magnitude_truncated_succ :
    (Format.single.magnitude (truncated e (n * 2 ^ k) + 1) : ℚ) * Format.single.unit
      = (n * 2 ^ k / 2 ^ 8 * 2 ^ 8 + 2 ^ 8 : ℕ) * (2 ^ (149 - k) * Format.single.unit) := by
  have hdiv := truncated_div (e := e) (n * 2 ^ k)
  change _ / 2 ^ Format.single.fracBits = _ at hdiv
  have hpow : 2 ^ (e - 1) = 2 ^ 8 * 2 ^ (149 - k) := by
    rw [← Nat.pow_add]
    congr 1
    omega
  rw [Format.magnitude_succ, hdiv, hpow, Nat.cast_add, add_mul,
    magnitude_truncated he hk hlo hhi]
  push_cast
  ring

/-- **The right rung.**  The eight bits that are left over say how far it is to both. -/
theorem nearestEven_rounded :
    NearestEven (fun m => (Format.single.magnitude m : ℚ) * Format.single.unit) n
      (rounded e (n * 2 ^ k)) := by
  have hmono : StrictMono fun m => (Format.single.magnitude m : ℚ) * Format.single.unit := by
    intro a b hab
    exact mul_lt_mul_of_pos_right (Nat.cast_lt.mpr (Format.single.magnitude_strictMono hab))
      Format.single.unit_pos
  have hbelow := magnitude_truncated he hk hlo hhi
  have habove := magnitude_truncated_succ he hk hlo hhi
  have hn := scale (n := n) hk
  have hpos : (0 : ℚ) < 2 ^ (149 - k) * Format.single.unit :=
    mul_pos (by positivity) Format.single.unit_pos
  have heven := even_truncated_iff (e := e) (n * 2 ^ k)
  generalize (2 : ℚ) ^ (149 - k) * Format.single.unit = c at hbelow habove hn hpos
  generalize hX : n * 2 ^ k = X at *
  have hsplit : X / 2 ^ 8 * 2 ^ 8 + X % 2 ^ 8 = X := Nat.div_add_mod' X _
  -- the distances, in units of the last bit
  have hdown : (n : ℚ) - Format.single.magnitude (truncated e X) * Format.single.unit
      = (X % 2 ^ 8 : ℕ) * c := by
    rw [hbelow, ← hn, ← sub_mul]
    congr 1
    rw [sub_eq_iff_eq_add, ← Nat.cast_add, Nat.add_comm, hsplit]
  have hup : (Format.single.magnitude (truncated e X + 1) : ℚ) * Format.single.unit - n
      = (2 ^ 8 - X % 2 ^ 8 : ℕ) * c := by
    rw [habove, ← hn, ← sub_mul]
    congr 1
    rw [sub_eq_iff_eq_add, ← Nat.cast_add]
    congr 1
    omega
  rw [rounded]
  split
  · next h =>
    obtain ⟨hguard, hsticky⟩ := h
    refine nearestEven_succ hmono ?_ ?_
    · rw [← sub_nonneg, hup]
      positivity
    · rw [hup, hdown, mul_lt_mul_iff_of_pos_right hpos, mul_left_inj' hpos.ne', Nat.cast_lt,
        Nat.cast_inj, Nat.even_add_one, heven]
      omega
  · next h =>
    rw [roundUp] at h
    refine nearestEven_of_le hmono ?_ ?_
    · rw [← sub_nonneg, hdown]
      positivity
    · rw [hup, hdown, mul_lt_mul_iff_of_pos_right hpos, mul_left_inj' hpos.ne', Nat.cast_lt,
        Nat.cast_inj, heven]
      omega

theorem magnitude_rounded (h : n * 2 ^ k % 2 ^ 8 = 0) :
    (Format.single.magnitude (rounded e (n * 2 ^ k)) : ℚ) * Format.single.unit = n := by
  have hdown : ¬ roundUp (n * 2 ^ k) := by
    rw [roundUp]
    omega
  rw [rounded, if_neg hdown, magnitude_truncated he hk hlo hhi, Nat.div_mul_cancel
    (Nat.dvd_of_mod_eq_zero h), scale hk]

omit he hk hhi in
theorem mod_eq_zero_of_lt (h : n < 2 ^ 24) : n * 2 ^ k % 2 ^ 8 = 0 := by
  have hk' : 8 ≤ k := by
    by_contra hlt
    have hpow : 2 ^ k ≤ 2 ^ 7 := Nat.pow_le_pow_right (by decide) (by omega)
    have hle : n * 2 ^ k ≤ n * 2 ^ 7 := Nat.mul_le_mul_left n hpow
    omega
  obtain ⟨j, rfl⟩ := Nat.exists_eq_add_of_le hk'
  rw [Nat.pow_add, Nat.mul_left_comm]
  exact Nat.mul_mod_right _ _

end Rungs

/-! ## The function -/

section Function
variable {x : Int32}

theorem bits_mask : bits ((1 : Int32) <<< 31) = 2 ^ 31 := by decide

theorem toNat_roundFrac {e : Int32} {s : Nat} {sign : Int32} (hs : s ≤ 1) (he : bits e ≤ 158)
    (hsign : bits sign = s * 2 ^ 31) :
    (roundFrac ((1 : Int32) <<< 31) sign (x, e)).toNat
      = s * 2 ^ 31 + rounded (bits e) (bits x) := by
  have hlow : bits (~~~((1 : Int32) <<< 31)) = 2 ^ 31 - 1 := by decide
  have hrest : bits (x &&& ~~~((1 : Int32) <<< 31)) = bits x % 2 ^ 31 := bits_and_low x _ hlow
  have hfrac : bits ((x &&& ~~~((1 : Int32) <<< 31)) >>> 8) = bits x % 2 ^ 31 / 2 ^ 8 := by
    rw [bits_shiftRight _ (by rw [hrest]; omega), hrest]
  have hexp : bits (e <<< 23) = bits e * 2 ^ 23 := by
    rw [bits_shiftLeft e (n := 23) (by decide), Nat.mod_eq_of_lt (by omega)]
  have hsticky : x &&& 0x7F > 0 ↔ 0 < bits x % 2 ^ 7 := by
    have hand : bits (x &&& 0x7F) = bits x % 2 ^ 7 := bits_and_low x _ (by decide)
    rw [gt_iff_lt, Int32.lt_iff_toInt_lt, Int32.toInt_zero, toInt_eq, hand]
    split <;> omega
  have hround : (x &&& 0x80 ≠ 0 ∧ (x &&& 0x7F > 0 ∨
      (x &&& ~~~((1 : Int32) <<< 31)) >>> 8 &&& 1 ≠ 0)) ↔ roundUp (bits x) := by
    rw [roundUp, and_two_pow_ne_zero_iff x _ (k := 7) (by decide), hsticky,
      and_two_pow_ne_zero_iff _ 1 (k := 0) (by decide), hfrac, Nat.pow_zero, Nat.div_one]
  change bits (sign + e <<< 23 + ite _ _ _) = _
  have hlt : bits x % 2 ^ 31 / 2 ^ 8 < 2 ^ 23 := by omega
  have hone : bits 1 = 1 := by decide
  rw [bits_add, bits_add, hsign, hexp, rounded, truncated]
  by_cases h : roundUp (bits x)
  · rw [if_pos (hround.mpr h), if_pos h, bits_add, hfrac, hone]
    omega
  · rw [if_neg (mt hround.mp h), if_neg h, hfrac]
    omega

theorem bits_abs (x : Int32) :
    bits (if x &&& (1 : Int32) <<< 31 ≠ 0 then ~~~x + 1 else x) = x.toInt.natAbs := by
  have hlt := bits_lt x
  have hint := toInt_eq x
  have hlead := and_two_pow_ne_zero_iff x _ bits_mask
  by_cases h : x &&& (1 : Int32) <<< 31 ≠ 0
  · have hone : bits 1 = 1 := by decide
    rw [if_pos h, bits_add, bits_complement, hone]
    rw [hlead] at h
    rw [if_neg (by omega)] at hint
    omega
  · rw [if_neg h]
    rw [hlead] at h
    rw [if_pos (by omega)] at hint
    omega

/-- **What `float_i2f` returns**, once its loop is given as many rounds as a word has bits. -/
theorem floatI2f_eq (hx : x ≠ 0) : ∃ k e r, e + k = 158 ∧ k ≤ 31 ∧
    2 ^ 31 ≤ x.toInt.natAbs * 2 ^ k ∧ x.toInt.natAbs * 2 ^ k < 2 ^ 32 ∧
    (∀ fuel, 32 ≤ fuel → floatI2f fuel x = some r) ∧
    r.toNat = bits x / 2 ^ 31 * 2 ^ 31 + rounded e (x.toInt.natAbs * 2 ^ k) := by
  have hlt := bits_lt x
  have hint := toInt_eq x
  by_cases hmin : x = (1 : Int32) <<< 31
  · subst hmin
    refine ⟨0, 158, ((1 : Int32) <<< 31 ||| (158 : Int32) <<< 23).toUInt32, rfl, by decide,
      by decide, by decide, fun fuel _ => ?_, by decide⟩
    rw [floatI2f, if_pos rfl]
  · have hpos : 0 < bits x := Nat.pos_of_ne_zero fun h => hx ((bits_inj x 0).mp h)
    have hsign : bits (x &&& (1 : Int32) <<< 31) = bits x / 2 ^ 31 * 2 ^ 31 := by
      rw [bits_and_two_pow x _ bits_mask]
      omega
    have habs := bits_abs x
    have hn : 0 < x.toInt.natAbs ∧ x.toInt.natAbs < 2 ^ 32 := by
      rw [← habs]
      refine ⟨?_, bits_lt _⟩
      rw [habs]
      split at hint <;> omega
    obtain ⟨k, hk, hlo, hhi⟩ := exists_shift hn.1 hn.2
    have he : bits 158 = 158 := by decide
    obtain ⟨x', e', hrun, hx', he'⟩ := run_shiftLoop (e := 158) (by rw [habs]; exact hlo)
      (by rw [habs]; exact hhi) (by rw [he]; omega) (Nat.lt_succ_of_le hk)
    refine ⟨k, bits e', roundFrac ((1 : Int32) <<< 31) (x &&& (1 : Int32) <<< 31) (x', e'),
      he ▸ he', hk, hlo, hhi, fun fuel hfuel => ?_, ?_⟩
    · simp only [floatI2f, if_neg hmin, if_neg hx, Loop.run_mono hfuel hrun, Option.map_some]
    · rw [toNat_roundFrac (by omega) (by omega) hsign, hx', habs]

theorem value_of_toNat {r : UInt32} {u : Nat} (hu : u < Format.single.special * 2 ^ 23)
    (hr : r.toNat = bits x / 2 ^ 31 * 2 ^ 31 + u) :
    Format.single.exponent r.toNat ≠ Format.single.special ∧ Format.single.unsigned r.toNat = u ∧
      (x.toInt : ℚ)
        = if Format.single.negative r.toNat then -(|(x.toInt : ℚ)|) else |(x.toInt : ℚ)| := by
  have hlt : u < 2 ^ 31 := Nat.lt_trans hu (by decide)
  obtain ⟨hunsigned, hneg⟩ := Format.single.unsigned_negative_of_eq hr hlt
  refine ⟨Format.single.exponent_ne_special (hunsigned.symm ▸ hu), hunsigned, ?_⟩
  have hint := toInt_eq x
  have hbits := bits_lt x
  simp only [hneg, decide_eq_true_eq]
  rw [← Int.cast_abs, ← Int.cast_neg, ← apply_ite, Int.cast_inj, Int.abs_eq_natAbs]
  split at hint <;> split <;> omega

end Function

/-- **`float_i2f` rounds to nearest, ties to even.**  Its loop ends within 32 evaluations of the
condition, and the number is exact where 24 bits hold it. -/
theorem floatI2f_rounds (x : Int32) : ∃ r, (∀ fuel, 32 ≤ fuel → floatI2f fuel x = some r) ∧
    Format.single.Rounds x.toInt r.toNat ∧
    (|x.toInt| < 2 ^ 24 → Format.single.value r.toNat = x.toInt) := by
  by_cases hx : x = 0
  · subst hx
    have hzero : Format.single.value (0 : UInt32).toNat = (0 : Int32).toInt := by
      have hmag : Format.single.magnitude (Format.single.unsigned (0 : UInt32).toNat) = 0 := by
        decide
      rw [Format.value_eq, hmag, Nat.cast_zero, zero_mul, mul_zero, Int32.toInt_zero, Int.cast_zero]
    refine ⟨0, fun fuel _ => ?_, Format.rounds_of_value_eq (by decide) hzero, fun _ => hzero⟩
    rw [floatI2f, if_neg (by decide), if_pos rfl]
  · obtain ⟨k, e, r, he, hk, hlo, hhi, hrun, hr⟩ := floatI2f_eq hx
    have hu : rounded e (x.toInt.natAbs * 2 ^ k) < Format.single.special * 2 ^ 23 := by
      change _ < 255 * 2 ^ 23
      rw [rounded, truncated]
      split <;> omega
    obtain ⟨hfinite, hunsigned, hsign⟩ := value_of_toNat hu hr
    have habs : ((x.toInt.natAbs : ℕ) : ℚ) = |(x.toInt : ℚ)| := by
      rw [Nat.cast_natAbs, Int.cast_abs]
    refine ⟨r, hrun, ?_, fun hsmall => ?_⟩
    · have hnear := nearestEven_rounded he hk hlo hhi
      rw [habs, ← hunsigned] at hnear
      exact Format.rounds_of_nearestEven (by decide) hsign hfinite hnear
    · rw [Int.abs_eq_natAbs] at hsmall
      have hexact := magnitude_rounded he hk hlo hhi (mod_eq_zero_of_lt hlo (by omega))
      rw [habs, ← hunsigned] at hexact
      rw [Format.value_eq, hexact]
      conv_rhs => rw [hsign]
      split
      · exact neg_one_mul _
      · exact one_mul _

end InternetLabs.DataLab
