/-
# `InternetLabs.Lib.Lanes` — several small numbers in one word

A word is taken as lanes of `w` bits (`Lanes.sum`, the sum of the lanes).  Masking and shifting
work on all lanes at once: `gather` puts the sum of the `m` pieces of each lane into the lane, and
the sum over all of the word stays what it was (`sum_gather`), as long as a lane has
room.  Starting from lanes of one bit, this counts the ones.

`Covers` is the other way to work on all bits at once: each bit of the result stands for some bits
from its place on.  A word combined with its own shift covers twice as many (`Covers.or_shift`),
and one that covers enough is all ones below its leading bit.
-/
import Mathlib.Algebra.BigOperators.Ring.Finset
import Mathlib.Data.Nat.Bitwise
import Mathlib.Tactic.Ring

namespace InternetLabs

namespace Lanes

/-- The sum of the low `k` lanes of `w` bits. -/
def sum (w : Nat) : Nat → Nat → Nat
  | 0, _ => 0
  | k + 1, x => x % 2 ^ w + sum w k (x / 2 ^ w)

/-- `m` in each of `k` lanes. -/
def mask (w m : Nat) : Nat → Nat
  | 0 => 0
  | k + 1 => m + 2 ^ w * mask w m k

/-- No lane is more than `b`. -/
def Below (w b : Nat) : Nat → Nat → Prop
  | 0, _ => True
  | k + 1, x => x % 2 ^ w ≤ b ∧ Below w b k (x / 2 ^ w)

/-- The pieces of `v` bits of each of `k` lanes, which has `m` of them, added up in the lane. -/
def gather (v m k x : Nat) : Nat :=
  ∑ j ∈ Finset.range m, (x >>> (v * j) &&& mask (v * m) (2 ^ v - 1) k)

section Lanes
variable {w v m k b c x y : Nat}

theorem sum_succ (w k x : Nat) : sum w (k + 1) x = x % 2 ^ w + sum w k (x / 2 ^ w) := rfl

theorem sum_add (w k l x : Nat) : sum w (k + l) x = sum w k x + sum w l (x / 2 ^ (w * k)) := by
  induction k generalizing x with
  | zero => simp [sum]
  | succ k ih =>
      have hexp : w * (k + 1) = w + w * k := by ring
      rw [Nat.add_right_comm, sum_succ, sum_succ, ih, hexp, Nat.pow_add, Nat.div_div_eq_div_mul,
        Nat.add_assoc]

theorem sum_one (w x : Nat) : sum w 1 x = x % 2 ^ w := rfl

theorem sum_le (w k x : Nat) : sum w k x ≤ k * (2 ^ w - 1) := by
  induction k generalizing x with
  | zero => exact Nat.zero_le _
  | succ k ih =>
      have hlane : x % 2 ^ w < 2 ^ w := Nat.mod_lt _ (Nat.two_pow_pos w)
      have hrest := ih (x / 2 ^ w)
      rw [sum_succ, Nat.succ_mul]
      omega

theorem lane_split {r : Nat} (hr : r < 2 ^ w) (q : Nat) :
    (r + 2 ^ w * q) % 2 ^ w = r ∧ (r + 2 ^ w * q) / 2 ^ w = q := by
  constructor
  · rw [Nat.add_mul_mod_self_left, Nat.mod_eq_of_lt hr]
  · rw [Nat.add_mul_div_left _ _ (Nat.two_pow_pos w), Nat.div_eq_of_lt hr, Nat.zero_add]

theorem sum_add_of_below (hx : Below w b k x) (hy : Below w c k y) (hroom : b + c < 2 ^ w) :
    sum w k (x + y) = sum w k x + sum w k y ∧ Below w (b + c) k (x + y) := by
  induction k generalizing x y with
  | zero => exact ⟨rfl, trivial⟩
  | succ k ih =>
      obtain ⟨hx, hxs⟩ := hx
      obtain ⟨hy, hys⟩ := hy
      have hlt : x % 2 ^ w + y % 2 ^ w < 2 ^ w := by omega
      have hmod : (x + y) % 2 ^ w = x % 2 ^ w + y % 2 ^ w := by
        rw [Nat.add_mod, Nat.mod_eq_of_lt hlt]
      have hdiv : (x + y) / 2 ^ w = x / 2 ^ w + y / 2 ^ w := by
        rw [Nat.add_div (Nat.two_pow_pos w), if_neg (by omega), Nat.add_zero]
      obtain ⟨hsum, hbelow⟩ := ih hxs hys
      refine ⟨?_, ?_, ?_⟩
      · rw [sum_succ, sum_succ, sum_succ, hmod, hdiv, hsum]
        omega
      · rw [hmod]
        exact Nat.add_le_add hx hy
      · rw [hdiv]
        exact hbelow

/-- The upper lanes. -/
theorem Below.drop (l : Nat) (h : Below w b (l + k) x) : Below w b k (x / 2 ^ (w * l)) := by
  induction l generalizing x with
  | zero => simpa using h
  | succ l ih =>
      rw [Nat.add_right_comm] at h
      have hrest := ih h.2
      rwa [Nat.div_div_eq_div_mul, ← Nat.pow_add, Nat.add_comm w, ← Nat.mul_succ] at hrest

/-- The lower lanes. -/
theorem Below.take (l : Nat) (h : Below w b (k + l) x) : Below w b k x := by
  induction k generalizing x with
  | zero => trivial
  | succ k ih =>
      rw [Nat.add_right_comm] at h
      exact ⟨h.1, ih h.2⟩

theorem and_mask_succ (hv : v ≤ w) (x k : Nat) :
    x &&& mask w (2 ^ v - 1) (k + 1)
    = x % 2 ^ v + 2 ^ w * (x / 2 ^ w &&& mask w (2 ^ v - 1) k) := by
  have hpow : 2 ^ v ≤ 2 ^ w := Nat.pow_le_pow_right (by decide) hv
  have hpos := Nat.two_pow_pos v
  obtain ⟨hlow, hhigh⟩ := lane_split (w := w) (r := 2 ^ v - 1) (by omega) (mask w (2 ^ v - 1) k)
  have hmod : (x &&& mask w (2 ^ v - 1) (k + 1)) % 2 ^ w = x % 2 ^ v := by
    rw [Nat.and_mod_two_pow, mask, hlow, Nat.and_two_pow_sub_one_eq_mod, Nat.mod_mod_of_dvd]
    exact Nat.pow_dvd_pow 2 hv
  have hdiv : (x &&& mask w (2 ^ v - 1) (k + 1)) / 2 ^ w = x / 2 ^ w &&& mask w (2 ^ v - 1) k := by
    rw [Nat.and_div_two_pow, mask, hhigh]
  rw [← hmod, ← hdiv, Nat.mod_add_div]

theorem gather_succ (v m k x : Nat) :
    gather v m (k + 1) x = sum v m x + 2 ^ (v * m) * gather v m k (x / 2 ^ (v * m)) := by
  have hsum : ∑ j ∈ Finset.range m, (x >>> (v * j)) % 2 ^ v = sum v m x := by
    induction m with
    | zero => rfl
    | succ m ih => rw [Finset.sum_range_succ, ih, sum_add, sum_one, Nat.shiftRight_eq_div_pow]
  rw [gather, gather, ← hsum, Finset.mul_sum, ← Finset.sum_add_distrib]
  refine Finset.sum_congr rfl fun j hj => ?_
  have hj := Finset.mem_range.mp hj
  have hv : v ≤ v * m := Nat.le_mul_of_pos_right v (by omega)
  rw [and_mask_succ hv, Nat.shiftRight_eq_div_pow, Nat.shiftRight_eq_div_pow,
    Nat.div_div_eq_div_mul, Nat.div_div_eq_div_mul, Nat.mul_comm (2 ^ (v * j)) (2 ^ (v * m))]

/-- **Gathering keeps the sum**, as long as the pieces of a lane have room in it. -/
theorem sum_gather (hroom : m * (2 ^ v - 1) < 2 ^ (v * m)) (k x : Nat) :
    sum (v * m) k (gather v m k x) = sum v (m * k) x ∧
      Below (v * m) (m * (2 ^ v - 1)) k (gather v m k x) ∧ gather v m k x < 2 ^ (v * m * k) := by
  induction k generalizing x with
  | zero =>
      refine ⟨rfl, trivial, ?_⟩
      simp [gather, mask]
  | succ k ih =>
      obtain ⟨hsum, hbelow, hlt⟩ := ih (x / 2 ^ (v * m))
      have hlane := sum_le v m x
      obtain ⟨hlow, hhigh⟩ := lane_split (w := v * m) (hlane.trans_lt hroom)
        (gather v m k (x / 2 ^ (v * m)))
      refine ⟨?_, ⟨?_, ?_⟩, ?_⟩
      · rw [gather_succ, sum_succ, hlow, hhigh, hsum, Nat.mul_succ, Nat.add_comm (m * k), sum_add]
      · rw [gather_succ, hlow]
        exact hlane
      · rw [gather_succ, hhigh]
        exact hbelow
      · have hpow : 2 ^ (v * m * (k + 1)) = 2 ^ (v * m) * 2 ^ (v * m * k) := by
          rw [← Nat.pow_add]
          congr 1
          ring
        rw [gather_succ, hpow]
        calc sum v m x + 2 ^ (v * m) * gather v m k (x / 2 ^ (v * m))
            < 2 ^ (v * m) * (gather v m k (x / 2 ^ (v * m)) + 1) := by
              rw [Nat.mul_succ]
              omega
          _ ≤ 2 ^ (v * m) * 2 ^ (v * m * k) := Nat.mul_le_mul_left _ hlt

theorem gather_two (v k x : Nat) : gather v 2 k x
    = (x &&& mask (v * 2) (2 ^ v - 1) k) + (x >>> v &&& mask (v * 2) (2 ^ v - 1) k) := by
  rw [gather, Finset.sum_range_succ, Finset.sum_range_succ, Finset.sum_range_zero, Nat.zero_add,
    Nat.mul_zero, Nat.shiftRight_zero, Nat.mul_one]

theorem sum_ones {n k : Nat} (h : n ≤ k) : sum 1 k (2 ^ n - 1) = n := by
  induction n generalizing k with
  | zero =>
      have hzero : ∀ k, sum 1 k 0 = 0 := by
        intro k
        induction k with
        | zero => rfl
        | succ k ih => rw [sum_succ, Nat.zero_mod, Nat.zero_div, ih]
      exact hzero k
  | succ n ih =>
      obtain ⟨k, rfl⟩ : ∃ j, k = j + 1 := ⟨k - 1, by omega⟩
      have hpos := Nat.two_pow_pos n
      have hlow : (2 ^ (n + 1) - 1) % 2 ^ 1 = 1 := by
        rw [Nat.pow_succ]
        omega
      have hhigh : (2 ^ (n + 1) - 1) / 2 ^ 1 = 2 ^ n - 1 := by
        rw [Nat.pow_succ]
        omega
      rw [sum_succ, hlow, hhigh, ih (by omega), Nat.add_comm]

end Lanes

/-! ## Smearing

Shifting to the right and joining, until all bits below the leading one are set. -/

/-- Each bit of `y` stands for `m` bits of `x` from its place on. -/
def Covers (x m y : Nat) : Prop := ∀ j, y.testBit j = true ↔ ∃ d < m, x.testBit (j + d) = true

theorem Covers.one (x : Nat) : Covers x 1 x := by
  intro j
  constructor
  · exact fun h => ⟨0, Nat.one_pos, h⟩
  · rintro ⟨d, hd, h⟩
    obtain rfl := Nat.lt_one_iff.mp hd
    exact h

theorem Covers.or_shift {x m y : Nat} (h : Covers x m y) : Covers x (2 * m) (y ||| y >>> m) := by
  intro j
  rw [Nat.testBit_or, Nat.testBit_shiftRight, Bool.or_eq_true, h j, h (m + j)]
  constructor
  · rintro (⟨d, hd, hbit⟩ | ⟨d, hd, hbit⟩)
    · exact ⟨d, by omega, hbit⟩
    · exact ⟨m + d, by omega, by rwa [← Nat.add_assoc, Nat.add_comm j]⟩
  · rintro ⟨d, hd, hbit⟩
    by_cases hlow : d < m
    · exact .inl ⟨d, hlow, hbit⟩
    · refine .inr ⟨d - m, by omega, ?_⟩
      rwa [show m + j + (d - m) = j + d by omega]

/-- What covers all of a number is all ones up to its leading bit. -/
theorem Covers.eq_ones {x m y n : Nat} (h : Covers x m y) (hlo : 2 ^ n ≤ x) (hhi : x < 2 ^ (n + 1))
    (hm : n < m) : y = 2 ^ (n + 1) - 1 := by
  have hlead : x.testBit n = true := by
    rw [Nat.testBit_eq_decide_div_mod_eq, decide_eq_true_iff]
    have hone : x / 2 ^ n = 1 := by
      rw [Nat.pow_succ] at hhi
      exact Nat.div_eq_of_lt_le (by omega) (by omega)
    rw [hone]
  refine Nat.eq_of_testBit_eq fun j => ?_
  rw [Nat.testBit_two_pow_sub_one, Bool.eq_iff_iff, h j, decide_eq_true_iff]
  constructor
  · rintro ⟨d, -, hbit⟩
    by_contra hj
    rw [Nat.testBit_lt_two_pow (hhi.trans_le (Nat.pow_le_pow_right (by decide) (by omega)))] at hbit
    cases hbit
  · intro hj
    exact ⟨n - j, by omega, by rwa [Nat.add_sub_cancel' (by omega)]⟩

end Lanes

end InternetLabs
