/-
# `InternetLabs.DataLab.FloatNeg` — the sign of a single-precision pattern

`float_neg` of `bits.c` flips the sign of all patterns but the NaNs.  With the other puzzles it
makes two squares: converting the negative of an integer is negating the conversion, except for
zero and the smallest integer (`floatI2f_negate_iff`); and doubling commutes with it exactly where
doubling is right (`floatTwice_floatNeg_iff`).
-/
import InternetLabs.DataLab.FloatTwice
import InternetLabs.DataLab.Puzzles

namespace InternetLabs.DataLab

open InternetLabs

/-- `float_neg`. -/
def floatNeg (uf : UInt32) : UInt32 :=
  let checkNaN := (0xFF : UInt32) <<< 23
  let checkFrac := 0x7FFFFF &&& uf
  if checkNaN &&& uf = checkNaN ∧ checkFrac ≠ 0 then uf else uf ^^^ (1 : UInt32) <<< 31

section
variable (uf : UInt32)

theorem checkNaN_iff : (0xFF : UInt32) <<< 23 &&& uf = (0xFF : UInt32) <<< 23 ∧
    0x7FFFFF &&& uf ≠ 0 ↔
    Format.single.exponent uf.toNat = 255 ∧ Format.single.fraction uf.toNat ≠ 0 := by
  have hexp : (0xFF : UInt32) <<< 23 &&& uf = (0xFF : UInt32) <<< 23 ↔
      Format.single.exponent uf.toNat = 255 := by
    have hmask : ((0xFF : UInt32) <<< 23).toNat = 255 * 2 ^ 23 := by decide
    have hle := exponent_le uf
    have hand : ((0xFF : UInt32) <<< 23 &&& uf).toNat
        = Format.single.exponent uf.toNat * 2 ^ 23 := by
      have hhigh : 255 &&& uf.toNat / 2 ^ 23 = uf.toNat / 2 ^ 23 % 2 ^ 8 := by
        rw [Nat.and_comm]
        exact Nat.and_two_pow_sub_one_eq_mod _ 8
      have hmod : (255 * 2 ^ 23 &&& uf.toNat) % 2 ^ 23 = 0 := by
        rw [Nat.and_mod_two_pow, Nat.mul_mod_left, Nat.zero_and]
      have hdiv : (255 * 2 ^ 23 &&& uf.toNat) / 2 ^ 23 = uf.toNat / 2 ^ 23 % 2 ^ 8 := by
        rw [Nat.and_div_two_pow, Nat.mul_div_cancel _ (by decide), hhigh]
      change _ = uf.toNat / 2 ^ 23 % 2 ^ 8 * 2 ^ 23
      rw [UInt32.toNat_and, hmask, ← hdiv]
      omega
    rw [← UInt32.toNat_inj, hand, hmask]
    omega
  have hfrac : 0x7FFFFF &&& uf = 0 ↔ Format.single.fraction uf.toNat = 0 := by
    have hand : (0x7FFFFF &&& uf).toNat = Format.single.fraction uf.toNat := by
      rw [UInt32.toNat_and, Nat.and_comm]
      exact Nat.and_two_pow_sub_one_eq_mod _ 23
    rw [← UInt32.toNat_inj, hand]
    rfl
  rw [hexp, Ne, hfrac]

theorem toNat_flip : (uf ^^^ (1 : UInt32) <<< 31).toNat
    = (1 - uf.toNat / 2 ^ 31) * 2 ^ 31 + Format.single.unsigned uf.toNat := by
  have hlt := uf.toNat_lt
  have hmask : ((1 : UInt32) <<< 31).toNat = 2 ^ 31 := by decide
  have hmod : (uf.toNat ^^^ 2 ^ 31) % 2 ^ 31 = uf.toNat % 2 ^ 31 := by
    rw [Nat.xor_mod_two_pow, Nat.mod_self, Nat.xor_zero]
  have hdiv : (uf.toNat ^^^ 2 ^ 31) / 2 ^ 31 = 1 - uf.toNat / 2 ^ 31 := by
    rw [Nat.xor_div_two_pow, Nat.div_self (by decide)]
    obtain hbit | hbit : uf.toNat / 2 ^ 31 = 0 ∨ uf.toNat / 2 ^ 31 = 1 := by omega
    · rw [hbit]
      rfl
    · rw [hbit]
      rfl
  change _ = _ * 2 ^ 31 + uf.toNat % 2 ^ 31
  rw [UInt32.toNat_xor, hmask, ← hmod, ← hdiv]
  omega

end

section Negates
variable {uf : UInt32}

theorem floatNeg_nan (h : Format.single.exponent uf.toNat = 255)
    (hfrac : Format.single.fraction uf.toNat ≠ 0) : floatNeg uf = uf := by
  simp only [floatNeg, if_pos ((checkNaN_iff uf).mpr ⟨h, hfrac⟩)]

theorem toNat_floatNeg
    (h : Format.single.exponent uf.toNat = 255 → Format.single.fraction uf.toNat = 0) :
    (floatNeg uf).toNat
      = (1 - uf.toNat / 2 ^ 31) * 2 ^ 31 + Format.single.unsigned uf.toNat := by
  have hnot : ¬ ((0xFF : UInt32) <<< 23 &&& uf = (0xFF : UInt32) <<< 23 ∧ 0x7FFFFF &&& uf ≠ 0) := by
    rw [checkNaN_iff]
    exact fun hand => hand.2 (h hand.1)
  simp only [floatNeg, if_neg hnot]
  exact toNat_flip uf

theorem floatNeg_fields
    (h : Format.single.exponent uf.toNat = 255 → Format.single.fraction uf.toNat = 0) :
    Format.single.unsigned (floatNeg uf).toNat = Format.single.unsigned uf.toNat ∧
      (floatNeg uf).toNat / 2 ^ 31 = 1 - uf.toNat / 2 ^ 31 := by
  have hflip := toNat_floatNeg h
  have hlt : Format.single.unsigned uf.toNat < 2 ^ 31 := Nat.mod_lt _ (by decide)
  constructor
  · change (floatNeg uf).toNat % 2 ^ 31 = _
    omega
  · omega

/-- **`float_neg` negates.** -/
theorem datum_floatNeg (uf : UInt32) : datum (floatNeg uf) = (datum uf).neg := by
  by_cases h : Format.single.exponent uf.toNat = 255 → Format.single.fraction uf.toNat = 0
  · obtain ⟨hu, hsign⟩ := floatNeg_fields h
    refine Format.single.decode_flip hu ?_
    have hlt := uf.toNat_lt
    change decide ((floatNeg uf).toNat / 2 ^ 31 % 2 = 1) = !decide (uf.toNat / 2 ^ 31 % 2 = 1)
    rw [hsign, ← decide_not, decide_eq_decide]
    omega
  · obtain ⟨hexp, hfrac⟩ := Classical.not_imp.mp h
    have hnan : datum uf = .nan := by
      rw [datum, Format.decode_special _ hexp, if_neg hfrac]
    rw [floatNeg_nan hexp hfrac, hnan]
    rfl

end Negates

/-! ## With the other puzzles -/

section Squares
variable {uf r : UInt32} {x : Int32}

theorem fields_of_toNat {s u : Nat} (hr : r.toNat = s * 2 ^ 31 + u) (hu : u < 2 ^ 31) :
    Format.single.unsigned r.toNat = u ∧ r.toNat / 2 ^ 31 = s := by
  constructor
  · change r.toNat % 2 ^ 31 = u
    omega
  · omega

/-- `float_twice` keeps the sign, and what is below it does not depend on the sign. -/
theorem floatTwice_unsigned (hspecial : Format.single.exponent uf.toNat ≠ Format.single.special) :
    ∃ v < 2 ^ 31, ∀ m : UInt32, Format.single.unsigned m.toNat = Format.single.unsigned uf.toNat →
      (floatTwice m).toNat = m.toNat / 2 ^ 31 * 2 ^ 31 + v := by
  have hle := exponent_le uf
  have hf := fraction_lt uf
  have hu := unsigned_eq uf
  have hne : Format.single.exponent uf.toNat ≠ 255 := hspecial
  have hexp : ∀ m : UInt32, Format.single.unsigned m.toNat = Format.single.unsigned uf.toNat →
      Format.single.exponent m.toNat = Format.single.exponent uf.toNat := by
    intro m hm
    rw [← Format.unsigned_div, hm, Format.unsigned_div]
  by_cases hzero : Format.single.exponent uf.toNat = 0
  · refine ⟨2 * Format.single.unsigned uf.toNat, by omega, fun m hm => ?_⟩
    rw [floatTwice_denormal ((hexp m hm).trans hzero), hm]
  · refine ⟨Format.single.unsigned uf.toNat + 2 ^ 23, by omega, fun m hm => ?_⟩
    have hm' := hexp m hm
    rw [floatTwice_normal (hm' ▸ hzero) (hm' ▸ hspecial), hm]

/-- **Doubling and negating commute** exactly where doubling does not make a NaN of a number. -/
theorem floatTwice_floatNeg_iff (uf : UInt32) : floatTwice (floatNeg uf)
    = floatNeg (floatTwice uf) ↔
    (Format.single.exponent uf.toNat = 254 → Format.single.fraction uf.toNat = 0) := by
  have hlt := uf.toNat_lt
  by_cases hspecial : Format.single.exponent uf.toNat = Format.single.special
  · have hne : Format.single.exponent uf.toNat ≠ 254 := by
      rw [hspecial]
      decide
    refine iff_of_true ?_ fun h => (hne h).elim
    rw [floatTwice_special hspecial]
    by_cases hnum : Format.single.exponent uf.toNat = 255 → Format.single.fraction uf.toNat = 0
    · obtain ⟨hu, -⟩ := floatNeg_fields hnum
      refine floatTwice_special ?_
      rw [← Format.unsigned_div, hu, Format.unsigned_div, hspecial]
    · obtain ⟨hexp, hfrac⟩ := Classical.not_imp.mp hnum
      rw [floatNeg_nan hexp hfrac, floatTwice_special hspecial]
  have hnot : Format.single.exponent uf.toNat ≠ 255 := hspecial
  obtain ⟨v, hv, htwice⟩ := floatTwice_unsigned hspecial
  have hnum : Format.single.exponent uf.toNat = 255 → Format.single.fraction uf.toNat = 0 :=
    fun h => (hnot h).elim
  obtain ⟨hu, hsign⟩ := floatNeg_fields hnum
  have hleft := htwice (floatNeg uf) hu
  have hright := htwice uf rfl
  rw [hsign] at hleft
  obtain ⟨hv', hs'⟩ := fields_of_toNat hright hv
  have hflip : (Format.single.exponent (floatTwice uf).toNat = 255 →
      Format.single.fraction (floatTwice uf).toNat = 0) ↔
      floatTwice (floatNeg uf) = floatNeg (floatTwice uf) := by
    constructor
    · intro hnum
      have hneg := toNat_floatNeg hnum
      rw [hv', hs'] at hneg
      rw [← UInt32.toNat_inj, hleft, hneg]
    · intro heq hexp
      by_contra hfrac
      rw [floatNeg_nan hexp hfrac, ← UInt32.toNat_inj, hleft, hright] at heq
      omega
  rw [← hflip]
  have hle := exponent_le uf
  have hf := fraction_lt uf
  have hfields := unsigned_eq uf
  have hfields' := unsigned_eq (floatTwice uf)
  have hf' := fraction_lt (floatTwice uf)
  rw [hv'] at hfields'
  by_cases hzero : Format.single.exponent uf.toNat = 0
  · have hden := floatTwice_denormal hzero
    omega
  · have hnorm := floatTwice_normal hzero hspecial
    omega

/-- The shift that brings the leading bit to its place is the only one. -/
theorem shift_unique {n k l : Nat} (hk : 2 ^ 31 ≤ n * 2 ^ k) (hk' : n * 2 ^ k < 2 ^ 32)
    (hl : 2 ^ 31 ≤ n * 2 ^ l) (hl' : n * 2 ^ l < 2 ^ 32) : k = l := by
  have hless : ∀ {a b : Nat}, 2 ^ 31 ≤ n * 2 ^ a → n * 2 ^ b < 2 ^ 32 → b ≤ a := by
    intro a b ha hb
    by_contra hlt
    have hle : n * 2 ^ (a + 1) ≤ n * 2 ^ b :=
      Nat.mul_le_mul_left n (Nat.pow_le_pow_right (by decide) (by omega))
    rw [Nat.pow_succ, ← Nat.mul_assoc] at hle
    omega
  exact Nat.le_antisymm (hless hl hk') (hless hk hl')

/-- **Converting and negating commute**, except for zero, whose conversion has no sign to begin
with, and for the smallest integer, which is its own negative. -/
theorem floatI2f_negate_iff (x : Int32) : floatI2f 32 (negate x) = (floatI2f 32 x).map floatNeg ↔
    x ≠ 0 ∧ x ≠ tmin := by
  by_cases hx : x = 0
  · rw [hx]
    exact iff_of_false (by decide) fun h => h.1 rfl
  by_cases hmin : x = tmin
  · rw [hmin]
    exact iff_of_false (by decide) fun h => h.2 rfl
  refine iff_of_true ?_ ⟨hx, hmin⟩
  have hneg := negate_eq hmin
  have hy : negate x ≠ 0 := by
    rw [Ne, ← Int32.toInt_inj, hneg, Int32.toInt_zero, neg_eq_zero, ← Int32.toInt_zero,
      Int32.toInt_inj]
    exact hx
  obtain ⟨k, e, r, he, hk, hlo, hhi, hrun, hr⟩ := floatI2f_eq hx
  obtain ⟨k', e', r', he', hk', hlo', hhi', hrun', hr'⟩ := floatI2f_eq hy
  have habs : (negate x).toInt.natAbs = x.toInt.natAbs := by rw [hneg, Int.natAbs_neg]
  rw [habs] at hlo' hhi' hr'
  obtain rfl := shift_unique hlo hhi hlo' hhi'
  obtain rfl : e = e' := by omega
  have hu : rounded e (x.toInt.natAbs * 2 ^ k) < 255 * 2 ^ 23 := by
    rw [rounded, truncated]
    split <;> omega
  obtain ⟨hfields, hsign⟩ := fields_of_toNat hr (by omega)
  have hexp : Format.single.exponent r.toNat ≠ 255 := by
    rw [← Format.unsigned_div, hfields]
    change rounded e (x.toInt.natAbs * 2 ^ k) / 2 ^ 23 ≠ 255
    omega
  have hnum : Format.single.exponent r.toNat = 255 → Format.single.fraction r.toNat = 0 :=
    fun h => (hexp h).elim
  have hflip := toNat_floatNeg hnum
  rw [hfields, hsign] at hflip
  rw [hrun 32 (Nat.le_refl 32), hrun' 32 (Nat.le_refl 32), Option.map_some, Option.some.injEq,
    ← UInt32.toNat_inj, hr', hflip]
  have hx' := toInt_eq x
  have hy' := toInt_eq (negate x)
  have hxlt := bits_lt x
  have hylt := bits_lt (negate x)
  have hzero : bits x ≠ 0 := fun h => hx ((bits_inj x 0).mp (h.trans (by decide)))
  have hsigns : bits (negate x) / 2 ^ 31 = 1 - bits x / 2 ^ 31 := by
    split at hx' <;> split at hy' <;> omega
  rw [hsigns]

end Squares

end InternetLabs.DataLab
