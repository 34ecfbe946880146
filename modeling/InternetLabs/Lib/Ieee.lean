/-
# `InternetLabs.Lib.Ieee` — binary floating-point formats

A format is given by the widths of its two fields.  A bit pattern is a natural number, read
as a sign, an exponent and a fraction; `decode` says what it stands for, finite numbers as
exact rationals.

Without its sign a pattern is the number of a rung on a ladder: `magnitude` is strictly
increasing in the whole pattern, exponent and fraction together, and from one rung to the next
it is as far as the exponent says (`magnitude_succ`).  So to be nearest among all patterns is
to be nearest on the ladder (`rounds_of_nearestEven`), where only the two rungs around a number
have to be looked at (`nearestEven_of_le`, `nearestEven_succ`).
-/
import Mathlib.Algebra.Order.Field.Power
import Mathlib.Algebra.Order.Field.Rat
import Mathlib.Algebra.Order.Group.Unbundled.Abs
import Mathlib.Order.Monotone.Basic
import Mathlib.Tactic.Linarith
import Mathlib.Tactic.Positivity
import Mathlib.Tactic.Ring

namespace InternetLabs

/-! ## The nearest rung of a ladder

Rounding needs only that the numbers of a format go up with their patterns. -/

section Ladder
variable {α : Type*} [Field α] [LinearOrder α] [IsStrictOrderedRing α]

/-- No rung of `f` is nearer to `x` than the `n`-th, and if another is as near, `n` is even. -/
structure NearestEven (f : ℕ → α) (x : α) (n : ℕ) : Prop where
  nearest : ∀ m, |f n - x| ≤ |f m - x|
  even : ∀ m, m ≠ n → |f m - x| = |f n - x| → Even n

variable {f : ℕ → α} (hf : StrictMono f) {x : α} {n : ℕ}
include hf

theorem nearestEven_of_le (hlo : f n ≤ x)
    (hnear : x - f n < f (n + 1) - x ∨ x - f n = f (n + 1) - x ∧ Even n) :
    NearestEven f x n := by
  have hn : |f n - x| = x - f n := by rw [abs_sub_comm, abs_of_nonneg (sub_nonneg.mpr hlo)]
  have hle : x - f n ≤ f (n + 1) - x := hnear.elim le_of_lt fun h => h.1.le
  have hbelow : ∀ m, f m ≤ f n → |f m - x| = x - f m := by
    intro m hm
    rw [abs_sub_comm, abs_of_nonneg (sub_nonneg.mpr (hm.trans hlo))]
  have habove : ∀ m, n < m → f (n + 1) - x ≤ |f m - x| := by
    intro m hm
    have hm' : f (n + 1) ≤ f m := hf.monotone hm
    rw [abs_of_nonneg (by linarith)]
    linarith
  constructor
  · intro m
    rw [hn]
    rcases Nat.lt_or_ge n m with hm | hm
    · exact hle.trans (habove m hm)
    · have hm' : f m ≤ f n := hf.monotone hm
      rw [hbelow m hm']
      linarith
  · intro m hne heq
    rw [hn] at heq
    rcases Nat.lt_or_gt_of_ne hne with hm | hm
    · have hm' : f m < f n := hf hm
      rw [hbelow m hm'.le] at heq
      linarith
    · refine hnear.elim (fun h => ?_) And.right
      exact absurd ((habove m hm).trans heq.le) (not_le.mpr h)

theorem nearestEven_succ (hhi : x ≤ f (n + 1))
    (hnear : f (n + 1) - x < x - f n ∨ f (n + 1) - x = x - f n ∧ Even (n + 1)) :
    NearestEven f x (n + 1) := by
  have hn : |f (n + 1) - x| = f (n + 1) - x := abs_of_nonneg (sub_nonneg.mpr hhi)
  have hle : f (n + 1) - x ≤ x - f n := hnear.elim le_of_lt fun h => h.1.le
  have habove : ∀ m, f (n + 1) ≤ f m → |f m - x| = f m - x := by
    intro m hm
    exact abs_of_nonneg (sub_nonneg.mpr (hhi.trans hm))
  have hbelow : ∀ m, m < n + 1 → x - f n ≤ |f m - x| := by
    intro m hm
    have hm' : f m ≤ f n := hf.monotone (Nat.le_of_lt_succ hm)
    rw [abs_sub_comm, abs_of_nonneg (by linarith)]
    linarith
  constructor
  · intro m
    rw [hn]
    rcases Nat.lt_or_ge m (n + 1) with hm | hm
    · exact hle.trans (hbelow m hm)
    · have hm' : f (n + 1) ≤ f m := hf.monotone hm
      rw [habove m hm']
      linarith
  · intro m hne heq
    rw [hn] at heq
    rcases Nat.lt_or_gt_of_ne hne with hm | hm
    · refine hnear.elim (fun h => ?_) And.right
      exact absurd ((hbelow m hm).trans heq.le) (not_le.mpr h)
    · have hm' : f (n + 1) < f m := hf hm
      rw [habove m hm'.le] at heq
      linarith

end Ladder

/-! ## Formats

Patterns are natural numbers, whose fields are found by division. -/

/-- The widths of the exponent field and of the fraction field. -/
structure Format where
  expBits : ℕ
  fracBits : ℕ

/-- What a bit pattern stands for. -/
inductive Datum where
  | nan
  | infinity (negative : Bool)
  | finite (negative : Bool) (value : ℚ)

def Datum.neg : Datum → Datum
  | nan => nan
  | infinity negative => infinity !negative
  | finite negative value => finite (!negative) (-value)

namespace Format

variable (F : Format)

/-- The low field. -/
def fraction (n : ℕ) : ℕ := n % 2 ^ F.fracBits

/-- The field above it. -/
def exponent (n : ℕ) : ℕ := n / 2 ^ F.fracBits % 2 ^ F.expBits

/-- The bit above both. -/
def negative (n : ℕ) : Bool := decide (n / 2 ^ (F.fracBits + F.expBits) % 2 = 1)

/-- The exponent field of one. -/
def bias : ℤ := 2 ^ (F.expBits - 1) - 1

/-- The exponent field of infinities and NaNs. -/
def special : ℕ := 2 ^ F.expBits - 1

/-- The fraction with its leading bit, which denormal numbers do not have. -/
def significand (n : ℕ) : ℕ :=
  if F.exponent n = 0 then F.fraction n else 2 ^ F.fracBits + F.fraction n

/-- The number a finite pattern stands for. -/
def value (n : ℕ) : ℚ :=
  (if F.negative n then -1 else 1) * F.significand n
    * 2 ^ ((max (F.exponent n) 1 : ℕ) - F.bias - F.fracBits)

/-- What a pattern stands for. -/
def decode (n : ℕ) : Datum :=
  if F.exponent n = F.special then
    if F.fraction n = 0 then .infinity (F.negative n) else .nan
  else .finite (F.negative n) (F.value n)

/-- `n` stands for the finite number that is nearest to `x`; its significand is even if
another is as near. -/
structure Rounds (x : ℚ) (n : ℕ) : Prop where
  finite : F.exponent n ≠ F.special
  nearest : ∀ m, F.exponent m ≠ F.special → |F.value n - x| ≤ |F.value m - x|
  even : ∀ m, F.exponent m ≠ F.special → F.value m ≠ F.value n →
    |F.value m - x| = |F.value n - x| → Even (F.significand n)

def single : Format := { expBits := 8, fracBits := 23 }

theorem decode_finite {n : ℕ} (h : F.exponent n ≠ F.special) :
    F.decode n = .finite (F.negative n) (F.value n) := if_neg h

theorem decode_special {n : ℕ} (h : F.exponent n = F.special) :
    F.decode n = if F.fraction n = 0 then .infinity (F.negative n) else .nan := if_pos h

/-! ### The ladder of magnitudes

The pattern without its sign is the number of the rung, across all exponents. -/

/-- The smallest positive number. -/
def unit : ℚ := 2 ^ (1 - F.bias - F.fracBits)

/-- The `n`-th number that is not negative, in units. -/
def magnitude (n : ℕ) : ℕ :=
  (if n / 2 ^ F.fracBits = 0 then n else 2 ^ F.fracBits + n % 2 ^ F.fracBits)
    * 2 ^ (n / 2 ^ F.fracBits - 1)

theorem unit_pos : 0 < F.unit := zpow_pos (by norm_num) _

/-- A pattern without its sign. -/
def unsigned (n : ℕ) : ℕ := n % 2 ^ (F.fracBits + F.expBits)

theorem unsigned_div (n : ℕ) : F.unsigned n / 2 ^ F.fracBits = F.exponent n := by
  rw [unsigned, Nat.pow_add, Nat.mod_mul_right_div_self]
  rfl

theorem unsigned_mod (n : ℕ) : F.unsigned n % 2 ^ F.fracBits = F.fraction n := by
  rw [unsigned, Nat.pow_add, Nat.mod_mul_right_mod]
  rfl

theorem unsigned_eq (n : ℕ) :
    F.unsigned n = F.exponent n * 2 ^ F.fracBits + F.fraction n := by
  rw [← unsigned_div, ← unsigned_mod, Nat.mul_comm]
  exact (Nat.div_add_mod _ _).symm

theorem unsigned_negative_of_eq {n s u : ℕ} (hn : n = s * 2 ^ (F.fracBits + F.expBits) + u)
    (hu : u < 2 ^ (F.fracBits + F.expBits)) :
    F.unsigned n = u ∧ F.negative n = decide (s % 2 = 1) := by
  rw [unsigned, negative, hn, Nat.mul_comm s, Nat.mul_add_mod, Nat.mod_eq_of_lt hu,
    Nat.mul_add_div (Nat.two_pow_pos _), Nat.div_eq_of_lt hu, Nat.add_zero]
  exact ⟨rfl, rfl⟩

theorem exponent_ne_special {n : ℕ} (h : F.unsigned n < F.special * 2 ^ F.fracBits) :
    F.exponent n ≠ F.special := by
  rw [← unsigned_div]
  exact ((Nat.div_lt_iff_lt_mul (Nat.two_pow_pos _)).mpr h).ne

theorem magnitude_unsigned (n : ℕ) :
    F.magnitude (F.unsigned n) = F.significand n * 2 ^ (F.exponent n - 1) := by
  rw [magnitude, unsigned_div, unsigned_mod, significand]
  by_cases h : F.exponent n = 0
  · rw [if_pos h, if_pos h, unsigned_eq, h, Nat.zero_mul, Nat.zero_add]
  · rw [if_neg h, if_neg h]

theorem value_eq (n : ℕ) :
    F.value n = (if F.negative n then -1 else 1) * (F.magnitude (F.unsigned n) * F.unit) := by
  have hscale : (2 : ℚ) ^ (((max (F.exponent n) 1 : ℕ) : ℤ) - F.bias - F.fracBits)
      = 2 ^ (F.exponent n - 1) * F.unit := by
    rw [unit, ← zpow_natCast, ← zpow_add₀ (by norm_num)]
    congr 1
    omega
  rw [value, magnitude_unsigned, hscale]
  push_cast
  ring

theorem decode_flip {m n : ℕ} (hu : F.unsigned m = F.unsigned n)
    (hneg : F.negative m = !F.negative n) : F.decode m = (F.decode n).neg := by
  have hexp : F.exponent m = F.exponent n := by rw [← unsigned_div, hu, unsigned_div]
  have hfrac : F.fraction m = F.fraction n := by rw [← unsigned_mod, hu, unsigned_mod]
  have hvalue : F.value m = -F.value n := by
    rw [value_eq, value_eq, hu, hneg]
    cases F.negative n <;> simp
  rw [decode, decode, hexp, hfrac, hneg, hvalue]
  split
  · split <;> rfl
  · rfl

theorem magnitude_of_lt {n : ℕ} (h : n < 2 ^ F.fracBits) : F.magnitude n = n := by
  rw [magnitude, Nat.div_eq_of_lt h, if_pos rfl, Nat.zero_sub, Nat.pow_zero, Nat.mul_one]

theorem magnitude_mul_add {e r : ℕ} (hr : r < 2 ^ F.fracBits) :
    F.magnitude ((e + 1) * 2 ^ F.fracBits + r) = (2 ^ F.fracBits + r) * 2 ^ e := by
  have hdiv : ((e + 1) * 2 ^ F.fracBits + r) / 2 ^ F.fracBits = e + 1 := by
    rw [Nat.mul_comm, Nat.mul_add_div (Nat.two_pow_pos _), Nat.div_eq_of_lt hr, Nat.add_zero]
  have hmod : ((e + 1) * 2 ^ F.fracBits + r) % 2 ^ F.fracBits = r := by
    rw [Nat.mul_comm, Nat.mul_add_mod, Nat.mod_eq_of_lt hr]
  rw [magnitude, hdiv, hmod, if_neg (Nat.succ_ne_zero e), Nat.add_sub_cancel]

/-- A pattern is below the normal ones, or has an exponent and a fraction. -/
theorem lt_or_exists (n : ℕ) :
    n < 2 ^ F.fracBits ∨ ∃ e r, n = (e + 1) * 2 ^ F.fracBits + r ∧ r < 2 ^ F.fracBits := by
  rcases Nat.lt_or_ge n (2 ^ F.fracBits) with h | h
  · exact .inl h
  · have hpos : 0 < n / 2 ^ F.fracBits := Nat.div_pos h (Nat.two_pow_pos _)
    refine .inr ⟨n / 2 ^ F.fracBits - 1, n % 2 ^ F.fracBits, ?_, Nat.mod_lt _ (Nat.two_pow_pos _)⟩
    rw [Nat.sub_add_cancel hpos, Nat.mul_comm]
    exact (Nat.div_add_mod _ _).symm

/-- **The next rung**, also if it has the next exponent. -/
theorem magnitude_succ (n : ℕ) :
    F.magnitude (n + 1) = F.magnitude n + 2 ^ (n / 2 ^ F.fracBits - 1) := by
  rcases F.lt_or_exists n with h | ⟨e, r, rfl, hr⟩
  · rw [F.magnitude_of_lt h, Nat.div_eq_of_lt h, Nat.zero_sub, Nat.pow_zero]
    rcases Nat.lt_or_eq_of_le (Nat.succ_le_of_lt h) with h' | h'
    · exact F.magnitude_of_lt h'
    · have hnext : n + 1 = (0 + 1) * 2 ^ F.fracBits + 0 := by omega
      rw [hnext, F.magnitude_mul_add (Nat.two_pow_pos _)]
      omega
  · have hdiv : ((e + 1) * 2 ^ F.fracBits + r) / 2 ^ F.fracBits - 1 = e := by
      rw [Nat.mul_comm, Nat.mul_add_div (Nat.two_pow_pos _), Nat.div_eq_of_lt hr]
      rfl
    rw [hdiv, F.magnitude_mul_add hr]
    rcases Nat.lt_or_eq_of_le (Nat.succ_le_of_lt hr) with h' | h'
    · rw [Nat.add_assoc, F.magnitude_mul_add h', Nat.succ_eq_add_one]
      ring
    · have hnext : (e + 1) * 2 ^ F.fracBits + r + 1 = (e + 1 + 1) * 2 ^ F.fracBits + 0 := by
        rw [Nat.succ_mul (e + 1)]
        omega
      rw [hnext, F.magnitude_mul_add (Nat.two_pow_pos _), ← h', Nat.pow_succ, Nat.succ_eq_add_one]
      ring

theorem magnitude_strictMono : StrictMono F.magnitude := by
  refine strictMono_nat_of_lt_succ fun n => ?_
  rw [magnitude_succ]
  exact Nat.lt_add_of_pos_right (Nat.two_pow_pos _)

/-- **Twice a denormal number** is twice its pattern, also if it gets a leading bit. -/
theorem magnitude_two_mul {n : ℕ} (h : n < 2 ^ F.fracBits) :
    F.magnitude (2 * n) = 2 * F.magnitude n := by
  rw [F.magnitude_of_lt h]
  rcases Nat.lt_or_ge (2 * n) (2 ^ F.fracBits) with h' | h'
  · exact F.magnitude_of_lt h'
  · have hnormal : 2 * n = (0 + 1) * 2 ^ F.fracBits + (2 * n - 2 ^ F.fracBits) := by omega
    rw [hnormal, F.magnitude_mul_add (by omega)]
    omega

/-- **Twice a normal number** has the next exponent. -/
theorem magnitude_add_pow {n : ℕ} (h : 2 ^ F.fracBits ≤ n) :
    F.magnitude (n + 2 ^ F.fracBits) = 2 * F.magnitude n := by
  obtain hlt | ⟨e, r, rfl, hr⟩ := F.lt_or_exists n
  · omega
  · have hnext : (e + 1) * 2 ^ F.fracBits + r + 2 ^ F.fracBits
        = (e + 1 + 1) * 2 ^ F.fracBits + r := by
      rw [Nat.succ_mul (e + 1)]
      omega
    rw [hnext, F.magnitude_mul_add hr, F.magnitude_mul_add hr, Nat.pow_succ]
    ring

/-! ### Rounding -/

variable {F}

theorem abs_value (n : ℕ) : |F.value n| = F.magnitude (F.unsigned n) * F.unit := by
  have hpos : 0 ≤ (F.magnitude (F.unsigned n) : ℚ) * F.unit :=
    mul_nonneg (Nat.cast_nonneg _) F.unit_pos.le
  rw [value_eq]
  split
  · rw [neg_one_mul, abs_neg, abs_of_nonneg hpos]
  · rw [one_mul, abs_of_nonneg hpos]

theorem even_significand_iff (hF : 1 ≤ F.fracBits) (n : ℕ) :
    Even (F.significand n) ↔ Even (F.unsigned n) := by
  have heven : Even (2 ^ F.fracBits) := (Nat.even_pow' (by omega)).mpr even_two
  have hfraction : Even (F.unsigned n) ↔ Even (F.fraction n) := by
    rw [unsigned_eq, Nat.even_add]
    exact iff_true_left (heven.mul_left _)
  rw [hfraction, significand]
  split
  · exact Iff.rfl
  · rw [Nat.even_add]
    exact iff_true_left heven

/-- Of two patterns that differ in their sign only, the one is not as near as the other. -/
theorem value_eq_of_unsigned_eq {x : ℚ} {m n : ℕ} (hmn : F.unsigned m = F.unsigned n)
    (hzero : x = 0 → F.value n = 0) (heq : |F.value m - x| = |F.value n - x|) :
    F.value m = F.value n := by
  have habs : |F.value m| = |F.value n| := by rw [abs_value, abs_value, hmn]
  rcases abs_eq_abs.mp habs with h | h
  · exact h
  · rw [h] at heq ⊢
    have hn : F.value n = 0 := by
      rcases abs_eq_abs.mp heq with h' | h'
      · linarith
      · exact hzero (by linarith)
    rw [hn, neg_zero]

theorem rounds_of_value_eq {x : ℚ} {n : ℕ} (hfinite : F.exponent n ≠ F.special)
    (h : F.value n = x) : F.Rounds x n := by
  have hzero : |F.value n - x| = 0 := by rw [h, sub_self, abs_zero]
  refine ⟨hfinite, fun m _ => ?_, fun m _ hne heq => ?_⟩
  · rw [hzero]
    exact abs_nonneg _
  · rw [hzero, abs_eq_zero, sub_eq_zero, ← h] at heq
    exact absurd heq hne

/-- **Nearest on the ladder is nearest**: the sign has only to be right. -/
theorem rounds_of_nearestEven (hF : 1 ≤ F.fracBits) {x : ℚ} {n : ℕ}
    (hsign : x = if F.negative n then -|x| else |x|) (hfinite : F.exponent n ≠ F.special)
    (h : NearestEven (fun m => (F.magnitude m : ℚ) * F.unit) |x| (F.unsigned n)) :
    F.Rounds x n := by
  have hn : |F.value n - x| = |(F.magnitude (F.unsigned n) : ℚ) * F.unit - (|x|)| := by
    rw [value_eq]
    split at hsign
    · next hneg =>
      rw [if_pos hneg, hsign, neg_one_mul, abs_neg, abs_abs, ← neg_sub_neg, neg_neg, neg_neg,
        abs_sub_comm]
    · next hpos => rw [if_neg hpos, hsign, one_mul, abs_abs]
  have hm : ∀ m, |(F.magnitude (F.unsigned m) : ℚ) * F.unit - (|x|)| ≤ |F.value m - x| := by
    intro m
    rw [← abs_value]
    exact abs_abs_sub_abs_le _ _
  refine ⟨hfinite, fun m _ => ?_, fun m _ hne heq => ?_⟩
  · rw [hn]
    exact (h.nearest _).trans (hm m)
  · rw [even_significand_iff hF]
    refine h.even (F.unsigned m) (fun hmn => hne ?_) (le_antisymm ?_ (h.nearest _))
    · refine value_eq_of_unsigned_eq hmn (fun hx => ?_) heq
      have hzero := h.nearest 0
      simp only [hx, F.magnitude_of_lt (Nat.two_pow_pos _), abs_zero, sub_zero, Nat.cast_zero,
        zero_mul] at hzero
      rw [← abs_nonpos_iff, abs_value]
      exact (le_abs_self _).trans hzero
    · rw [← hn, ← heq]
      exact hm m

end Format

end InternetLabs
