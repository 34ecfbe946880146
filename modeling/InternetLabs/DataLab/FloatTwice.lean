/-
# `InternetLabs.DataLab.FloatTwice` — doubling a single-precision pattern

`float_twice` of `bits.c`.  Shifting a denormal pattern and raising the exponent of a normal one
both double the number, and the former also where it becomes normal.  The largest normal numbers
get the exponent of the special patterns and keep their fraction: unless that is zero, which
makes them infinite, they become NaNs (`doubles_iff`).
-/
import InternetLabs.Lib.Ieee

namespace InternetLabs.DataLab

open InternetLabs

/-- `float_twice`. -/
def floatTwice (uf : UInt32) : UInt32 :=
  let sign := uf >>> 31 <<< 31
  let exponent := uf <<< 1 >>> 24 <<< 23
  let fraction := uf <<< 9 >>> 9
  let sMask := (0x7F : UInt32) <<< 24 ||| (0x80 : UInt32) <<< 16
  if exponent = sMask then uf
  else if exponent = 0 then uf <<< 1 ||| sign
  else
    let exponent := exponent + (1 : UInt32) <<< 23
    sign ||| exponent ||| fraction

/-- What a pattern stands for. -/
def datum (uf : UInt32) : Datum := Format.single.decode uf.toNat

/-- `r` is twice `uf`. -/
structure Doubles (uf r : UInt32) : Prop where
  special : (∀ s v, datum uf ≠ .finite s v) → r = uf
  exact : ∀ s v, datum uf = .finite s v → (∃ m s', datum m = .finite s' (2 * v)) →
    datum r = .finite s (2 * v)
  overflow : ∀ s v, datum uf = .finite s v → (∀ m s' v', datum m = .finite s' v' → v' < |2 * v|) →
    datum r = .infinity s

/-! ## The fields -/

section Fields
variable (uf : UInt32)

theorem toNat_sign : (uf >>> 31 <<< 31).toNat = uf.toNat / 2 ^ 31 * 2 ^ 31 := by
  have hlt := uf.toNat_lt
  rw [UInt32.toNat_shiftLeft, UInt32.toNat_shiftRight]
  change uf.toNat >>> 31 <<< 31 % 2 ^ 32 = _
  rw [Nat.shiftRight_eq_div_pow, Nat.shiftLeft_eq]
  omega

theorem toNat_exponent :
    (uf <<< 1 >>> 24 <<< 23).toNat = Format.single.exponent uf.toNat * 2 ^ 23 := by
  have hlt := uf.toNat_lt
  rw [UInt32.toNat_shiftLeft, UInt32.toNat_shiftRight, UInt32.toNat_shiftLeft]
  change ((uf.toNat <<< 1 % 2 ^ 32) >>> 24) <<< 23 % 2 ^ 32 = uf.toNat / 2 ^ 23 % 2 ^ 8 * 2 ^ 23
  rw [Nat.shiftRight_eq_div_pow, Nat.shiftLeft_eq, Nat.shiftLeft_eq]
  omega

theorem toNat_fraction : (uf <<< 9 >>> 9).toNat = Format.single.fraction uf.toNat := by
  have hlt := uf.toNat_lt
  rw [UInt32.toNat_shiftRight, UInt32.toNat_shiftLeft]
  change (uf.toNat <<< 9 % 2 ^ 32) >>> 9 = uf.toNat % 2 ^ 23
  rw [Nat.shiftRight_eq_div_pow, Nat.shiftLeft_eq]
  omega

theorem exponent_le : Format.single.exponent uf.toNat ≤ 255 := by
  change uf.toNat / 2 ^ 23 % 2 ^ 8 ≤ 255
  omega

theorem fraction_lt : Format.single.fraction uf.toNat < 2 ^ 23 := Nat.mod_lt _ (by decide)

theorem toNat_eq : uf.toNat = uf.toNat / 2 ^ 31 * 2 ^ 31 + Format.single.unsigned uf.toNat := by
  change uf.toNat = uf.toNat / 2 ^ 31 * 2 ^ 31 + uf.toNat % 2 ^ 31
  omega

theorem unsigned_eq : Format.single.unsigned uf.toNat
    = Format.single.exponent uf.toNat * 2 ^ 23 + Format.single.fraction uf.toNat :=
  Format.single.unsigned_eq uf.toNat

end Fields

/-! ## The three branches -/

theorem mul_two_pow_or {b k : Nat} (h : b < 2 ^ k) (a : Nat) : a * 2 ^ k ||| b = a * 2 ^ k + b := by
  rw [← Nat.shiftLeft_eq, Nat.shiftLeft_add_eq_or_of_lt h]

section Branches
variable {uf : UInt32}

theorem floatTwice_special (h : Format.single.exponent uf.toNat = Format.single.special) :
    floatTwice uf = uf := by
  have hmask : uf <<< 1 >>> 24 <<< 23 = (0x7F : UInt32) <<< 24 ||| (0x80 : UInt32) <<< 16 := by
    rw [← UInt32.toNat_inj, toNat_exponent, h]
    decide
  simp only [floatTwice, if_pos hmask]

theorem exponent_ne_sMask (h : Format.single.exponent uf.toNat ≠ Format.single.special) :
    uf <<< 1 >>> 24 <<< 23 ≠ (0x7F : UInt32) <<< 24 ||| (0x80 : UInt32) <<< 16 := by
  intro heq
  have hnat : (uf <<< 1 >>> 24 <<< 23).toNat = 255 * 2 ^ 23 := congrArg UInt32.toNat heq
  rw [toNat_exponent] at hnat
  exact h (Nat.eq_of_mul_eq_mul_right (by decide) hnat)

theorem floatTwice_denormal (h : Format.single.exponent uf.toNat = 0) :
    (floatTwice uf).toNat = uf.toNat / 2 ^ 31 * 2 ^ 31 + 2 * Format.single.unsigned uf.toNat := by
  have hzero : uf <<< 1 >>> 24 <<< 23 = 0 := by
    rw [← UInt32.toNat_inj, toNat_exponent, h]
    rfl
  have hspecial : Format.single.exponent uf.toNat ≠ Format.single.special := by
    rw [h]
    decide
  have hu := unsigned_eq uf
  have hf := fraction_lt uf
  have hn := toNat_eq uf
  have hshift : (uf <<< 1).toNat = 2 * Format.single.unsigned uf.toNat := by
    rw [UInt32.toNat_shiftLeft]
    change uf.toNat <<< 1 % 2 ^ 32 = _
    rw [Nat.shiftLeft_eq]
    omega
  simp only [floatTwice, if_neg (exponent_ne_sMask hspecial), if_pos hzero]
  rw [UInt32.toNat_or, Nat.or_comm, toNat_sign, hshift, mul_two_pow_or (by omega)]

theorem floatTwice_normal (h : Format.single.exponent uf.toNat ≠ 0)
    (h' : Format.single.exponent uf.toNat ≠ Format.single.special) :
    (floatTwice uf).toNat
      = uf.toNat / 2 ^ 31 * 2 ^ 31 + (Format.single.unsigned uf.toNat + 2 ^ 23) := by
  have hzero : uf <<< 1 >>> 24 <<< 23 ≠ 0 := by
    rw [Ne, ← UInt32.toNat_inj, toNat_exponent]
    exact Nat.mul_ne_zero h (by decide)
  have hle := exponent_le uf
  have hf := fraction_lt uf
  have hne : Format.single.exponent uf.toNat ≠ 255 := h'
  have hnext : (uf <<< 1 >>> 24 <<< 23 + (1 : UInt32) <<< 23).toNat
      = (Format.single.exponent uf.toNat + 1) * 2 ^ 23 := by
    rw [UInt32.toNat_add, toNat_exponent, Nat.succ_mul]
    exact Nat.mod_eq_of_lt (by change _ + 2 ^ 23 < 2 ^ 32; omega)
  simp only [floatTwice, if_neg (exponent_ne_sMask h'), if_neg hzero]
  rw [UInt32.toNat_or, UInt32.toNat_or, toNat_sign, hnext, toNat_fraction, unsigned_eq,
    Nat.or_assoc, mul_two_pow_or hf, mul_two_pow_or (by omega), Nat.succ_mul]
  omega

end Branches

/-! ## The numbers

What the three branches do to the pattern, told as what they do to the number. -/

section Numbers
variable {uf r : UInt32}

theorem sign_of_eq {u : Nat} (hr : r.toNat = uf.toNat / 2 ^ 31 * 2 ^ 31 + u) (hu : u < 2 ^ 31) :
    Format.single.unsigned r.toNat = u ∧
      Format.single.negative r.toNat = Format.single.negative uf.toNat :=
  Format.single.unsigned_negative_of_eq hr hu

theorem datum_of_lt {u : Nat} (hr : r.toNat = uf.toNat / 2 ^ 31 * 2 ^ 31 + u)
    (hu : u < Format.single.special * 2 ^ 23) :
    datum r = .finite (Format.single.negative uf.toNat)
      ((if Format.single.negative uf.toNat then -1 else 1)
        * (Format.single.magnitude u * Format.single.unit)) := by
  have hlt : u < 2 ^ 31 := Nat.lt_trans hu (by decide)
  obtain ⟨hunsigned, hneg⟩ := sign_of_eq hr hlt
  have hfinite : Format.single.exponent r.toNat ≠ Format.single.special :=
    Format.single.exponent_ne_special (hunsigned.symm ▸ hu)
  rw [datum, Format.single.decode_finite hfinite, Format.single.value_eq, hunsigned, hneg]

theorem datum_eq_finite (h : Format.single.exponent uf.toNat ≠ Format.single.special) :
    datum uf = .finite (Format.single.negative uf.toNat) (Format.single.value uf.toNat) :=
  Format.single.decode_finite h

theorem datum_ne_finite (h : Format.single.exponent uf.toNat = Format.single.special)
    (s : Bool) (v : ℚ) : datum uf ≠ .finite s v := by
  rw [datum, Format.single.decode_special h]
  split <;> nofun

theorem abs_of_datum {s : Bool} {v : ℚ} (h : datum uf = .finite s v) :
    Format.single.unsigned uf.toNat < Format.single.special * 2 ^ 23 ∧
      |v| = Format.single.magnitude (Format.single.unsigned uf.toNat) * Format.single.unit := by
  by_cases hspecial : Format.single.exponent uf.toNat = Format.single.special
  · exact absurd h (datum_ne_finite hspecial s v)
  · rw [datum_eq_finite hspecial, Datum.finite.injEq] at h
    obtain ⟨-, rfl⟩ := h
    have hle := exponent_le uf
    have hf := fraction_lt uf
    have hne : Format.single.exponent uf.toNat ≠ 255 := hspecial
    rw [← Format.abs_value, unsigned_eq]
    change _ < 255 * 2 ^ 23 ∧ _
    exact ⟨by omega, rfl⟩

theorem exists_abs {s : Bool} {v : ℚ} (h : datum uf = .finite s v) :
    ∃ m, datum m = .finite false |v| := by
  obtain ⟨hlt, hv⟩ := abs_of_datum h
  refine ⟨UInt32.ofNat (Format.single.unsigned uf.toNat), ?_⟩
  have hlt' : Format.single.unsigned uf.toNat < 2 ^ 32 := Nat.lt_trans hlt (by decide)
  have hnat : (UInt32.ofNat (Format.single.unsigned uf.toNat)).toNat
      = (0 : UInt32).toNat / 2 ^ 31 * 2 ^ 31 + Format.single.unsigned uf.toNat := by
    rw [UInt32.toNat_ofNat', Nat.mod_eq_of_lt hlt']
    simp
  have hzero : Format.single.negative (0 : UInt32).toNat = false := by decide
  rw [datum_of_lt hnat hlt, hv, hzero, if_neg Bool.false_ne_true, one_mul]

/-- Where twice the number has a pattern, it is enough to have found it. -/
theorem doubles_of_datum {s : Bool} {v : ℚ} (huf : datum uf = .finite s v)
    (hr : datum r = .finite s (2 * v)) : Doubles uf r where
  special h := absurd huf (h s v)
  exact s' v' h _ := by
    obtain ⟨rfl, rfl⟩ := Datum.finite.inj (huf.symm.trans h)
    exact hr
  overflow s' v' h hover := by
    obtain ⟨rfl, rfl⟩ := Datum.finite.inj (huf.symm.trans h)
    obtain ⟨m, hm⟩ := exists_abs hr
    exact absurd (hover m _ _ hm) (lt_irrefl _)

theorem doubles_of_magnitude {u : Nat} (hr : r.toNat = uf.toNat / 2 ^ 31 * 2 ^ 31 + u)
    (hu : u < Format.single.special * 2 ^ 23)
    (hmag : Format.single.magnitude u
      = 2 * Format.single.magnitude (Format.single.unsigned uf.toNat))
    (h : Format.single.exponent uf.toNat ≠ Format.single.special) : Doubles uf r := by
  refine doubles_of_datum (datum_eq_finite h) ?_
  rw [datum_of_lt hr hu, Format.single.value_eq uf.toNat, hmag]
  push_cast
  congr 1
  ring

/-- Twice a number with the largest exponent is larger than what is finite. -/
theorem lt_of_largest (h : Format.single.exponent uf.toNat = 254) {m : UInt32} {s : Bool} {v : ℚ}
    (hm : datum m = .finite s v) : v < |2 * Format.single.value uf.toNat| := by
  have hu := unsigned_eq uf
  obtain ⟨hlt, hv⟩ := abs_of_datum hm
  have htwice : |2 * Format.single.value uf.toNat|
      = Format.single.magnitude (Format.single.unsigned uf.toNat + 2 ^ 23)
        * Format.single.unit := by
    have hnormal : 2 ^ Format.single.fracBits ≤ Format.single.unsigned uf.toNat := by
      change 2 ^ 23 ≤ _
      omega
    have hpow := Format.single.magnitude_add_pow hnormal
    change Format.single.magnitude (Format.single.unsigned uf.toNat + 2 ^ 23) = _ at hpow
    rw [abs_mul, Format.abs_value, hpow, abs_of_pos (by norm_num : (0 : ℚ) < 2)]
    push_cast
    ring
  have hrung : Format.single.magnitude (Format.single.unsigned m.toNat)
      < Format.single.magnitude (Format.single.unsigned uf.toNat + 2 ^ 23) := by
    refine Format.single.magnitude_strictMono (Nat.lt_of_lt_of_le hlt ?_)
    change 255 * 2 ^ 23 ≤ _
    omega
  rw [htwice]
  refine (le_abs_self v).trans_lt ?_
  rw [hv]
  exact mul_lt_mul_of_pos_right (Nat.cast_lt.mpr hrung) Format.single.unit_pos

/-- **The largest exponent**: the next one is special. -/
theorem doubles_largest_iff (h : Format.single.exponent uf.toNat = 254)
    (hr : r.toNat = uf.toNat / 2 ^ 31 * 2 ^ 31 + (Format.single.unsigned uf.toNat + 2 ^ 23)) :
    Doubles uf r ↔ Format.single.fraction uf.toNat = 0 := by
  have hu := unsigned_eq uf
  have hf := fraction_lt uf
  have hlt : Format.single.unsigned uf.toNat + 2 ^ 23 < 2 ^ 31 := by omega
  obtain ⟨hunsigned, hneg⟩ := sign_of_eq hr hlt
  have hr' := unsigned_eq r
  have hfr := fraction_lt r
  have hspecial : Format.single.exponent r.toNat = 255 := by omega
  have hfraction : Format.single.fraction r.toNat = Format.single.fraction uf.toNat := by omega
  have hdatum : datum r = if Format.single.fraction uf.toNat = 0 then
      .infinity (Format.single.negative uf.toNat) else .nan := by
    rw [datum, Format.single.decode_special hspecial, hfraction, hneg]
  have huf : datum uf = .finite (Format.single.negative uf.toNat) (Format.single.value uf.toNat) :=
    datum_eq_finite (by rw [h]; decide)
  constructor
  · intro hd
    by_contra hne
    have hinf := hd.overflow _ _ huf fun m s v hm => lt_of_largest h hm
    rw [hdatum, if_neg hne] at hinf
    cases hinf
  · intro hzero
    refine ⟨fun hs => absurd huf (hs _ _), fun s v hv => ?_, fun s v hv _ => ?_⟩
    · obtain ⟨-, rfl⟩ := Datum.finite.inj (huf.symm.trans hv)
      rintro ⟨m, s', hm⟩
      obtain ⟨m', hm'⟩ := exists_abs hm
      exact absurd (lt_of_largest h hm') (lt_irrefl _)
    · obtain ⟨rfl, -⟩ := Datum.finite.inj (huf.symm.trans hv)
      rw [hdatum, if_pos hzero]

end Numbers

/-- **When `float_twice` doubles.** -/
theorem doubles_iff (uf : UInt32) : Doubles uf (floatTwice uf) ↔
    (Format.single.exponent uf.toNat = 254 → Format.single.fraction uf.toNat = 0) := by
  have hle := exponent_le uf
  have hf := fraction_lt uf
  have hu := unsigned_eq uf
  by_cases hspecial : Format.single.exponent uf.toNat = Format.single.special
  · refine iff_of_true ⟨fun _ => floatTwice_special hspecial, fun s v h => ?_, fun s v h => ?_⟩ ?_
    · exact absurd h (datum_ne_finite hspecial s v)
    · exact absurd h (datum_ne_finite hspecial s v)
    · rw [hspecial]
      exact fun h => absurd h (by decide)
  by_cases hzero : Format.single.exponent uf.toNat = 0
  · refine iff_of_true ?_ fun h => absurd (hzero.symm.trans h) (by decide)
    refine doubles_of_magnitude (floatTwice_denormal hzero) ?_ ?_ hspecial
    · change _ < 255 * 2 ^ 23
      omega
    · exact Format.single.magnitude_two_mul (by change _ < 2 ^ 23; omega)
  have hnormal := floatTwice_normal hzero hspecial
  by_cases hlargest : Format.single.exponent uf.toNat = 254
  · rw [doubles_largest_iff hlargest hnormal]
    exact ⟨fun h _ => h, fun h => h hlargest⟩
  · refine iff_of_true ?_ fun h => absurd h hlargest
    have hne : Format.single.exponent uf.toNat ≠ 255 := hspecial
    refine doubles_of_magnitude hnormal ?_ ?_ hspecial
    · change _ < 255 * 2 ^ 23
      omega
    · exact Format.single.magnitude_add_pow (by change 2 ^ 23 ≤ _; omega)

/-- Twice the largest finite number should be infinite. -/
theorem not_doubles_max : ¬ Doubles 0x7F7FFFFF (floatTwice 0x7F7FFFFF) := by
  have hnormal := @floatTwice_normal 0x7F7FFFFF (by decide) (by decide)
  rw [doubles_largest_iff (by decide) hnormal]
  decide

end InternetLabs.DataLab
