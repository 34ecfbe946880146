/-
# `InternetLabs.DataLab.Count` — counting bits with masks

`bitCount`, `ilog2` and `bang` of `bits.c`.  The first adds up the ones of a word lane by lane, four
bits at once to begin with; the second smears the leading bit over those below it and then counts
them, with lanes that double; the third smears in the other order.  The lanes and the smearing are
those of `InternetLabs.Lib.Lanes`.  Right shifts are arithmetic, but what they bring in from the
left is masked away (`bits_shiftRight_and`), or there is no sign.
-/
import InternetLabs.DataLab.FloatI2f
import InternetLabs.Lib.Lanes

namespace InternetLabs.DataLab

open InternetLabs

/-- The first part of `bitCount`: the ones of four bits each. -/
def nibbles (x : Int32) : Int32 :=
  let mask : Int32 := 0x11
  let mask := mask + mask <<< 8
  let mask := mask + mask <<< 16
  let sum := x &&& mask
  let sum := sum + (x >>> 1 &&& mask)
  let sum := sum + (x >>> 2 &&& mask)
  sum + (x >>> 3 &&& mask)

/-- The second part of `bitCount`: the lanes are added up. -/
def addNibbles (sum : Int32) : Int32 :=
  let sum := sum + sum >>> 16
  let mask := (0xF : Int32) ||| (0xF : Int32) <<< 8
  let sum := (sum &&& mask) + (sum >>> 4 &&& mask)
  (sum + sum >>> 8) &&& 0xFF

/-- `bitCount`. -/
def bitCount (x : Int32) : Int32 := addNibbles (nibbles x)

/-- `bang`. -/
def bang (x : Int32) : Int32 :=
  let x := x ||| x >>> 16
  let x := x ||| x >>> 8
  let x := x ||| x >>> 4
  let x := x ||| x >>> 2
  let x := x ||| x >>> 1
  ~~~x &&& 0x01

/-- The first part of `ilog2`. -/
def smear (x : Int32) : Int32 :=
  let x := x ||| x >>> 1
  let x := x ||| x >>> 2
  let x := x ||| x >>> 4
  let x := x ||| x >>> 8
  x ||| x >>> 16

/-- `(x&mask) + ((x>>k)&mask)`. -/
def addPairs (k mask x : Int32) : Int32 := (x &&& mask) + (x >>> k &&& mask)

/-- The second part of `ilog2`, but for the last line. -/
def addLanes (x : Int32) : Int32 :=
  let mask5 := (0x55 : Int32) ||| (0x55 : Int32) <<< 8
  let mask5 := mask5 ||| mask5 <<< 16
  let mask3 := (0x33 : Int32) ||| (0x33 : Int32) <<< 8
  let mask3 := mask3 ||| mask3 <<< 16
  let maskf := (0x0F : Int32) ||| (0x0F : Int32) <<< 8
  let maskf := maskf ||| maskf <<< 16
  let maskff := (0xFF : Int32) ||| (0xFF : Int32) <<< 16
  let maskLast := (0xFF : Int32) ||| (0xFF : Int32) <<< 8
  let x := addPairs 1 mask5 x
  let x := addPairs 2 mask3 x
  let x := addPairs 4 maskf x
  let x := addPairs 8 maskff x
  addPairs 16 maskLast x

/-- `ilog2`. -/
def ilog2 (x : Int32) : Int32 := addLanes (smear x) + ~~~(0 : Int32)

/-! ## Shifts and masks on words

The bridge from words to numbers; the counting itself is done there. -/

section Words
variable (x y : Int32)

theorem bits_or : bits (x ||| y) = bits x ||| bits y := rfl

/-- The bits of a word that is shifted to the right: the sign comes in from the left. -/
theorem testBit_shiftRight {k : Int32} {n : Nat} (hk : (k.toBitVec.smod 32).toNat = n) (j : Nat) :
    (bits (x >>> k)).testBit j
      = (decide (j < 32) && if n + j < 32 then (bits x).testBit (n + j) else x.toBitVec.msb) := by
  change (x.toBitVec.sshiftRight' (k.toBitVec.smod 32)).getLsbD j = _
  rw [BitVec.getLsbD_sshiftRight', hk]
  by_cases hj : j < 32
  · rw [decide_eq_false (Nat.not_le_of_lt hj), decide_eq_true hj]
    rfl
  · rw [decide_eq_true (Nat.le_of_not_lt hj), decide_eq_false hj]
    rfl

theorem bits_shiftRight_and {k : Int32} {n : Nat} (hk : (k.toBitVec.smod 32).toNat = n)
    (hy : bits y < 2 ^ (32 - n)) : bits (x >>> k &&& y) = bits x >>> n &&& bits y := by
  refine Nat.eq_of_testBit_eq fun j => ?_
  rw [bits_and, Nat.testBit_and, Nat.testBit_and, Nat.testBit_shiftRight, testBit_shiftRight x hk]
  by_cases hj : j < 32 - n
  · rw [decide_eq_true (by omega), if_pos (by omega), Bool.true_and]
  · have hout : (bits y).testBit j = false :=
      Nat.testBit_lt_two_pow (hy.trans_le (Nat.pow_le_pow_right (by decide) (by omega)))
    rw [hout, Bool.and_false, Bool.and_false]

theorem bits_shiftRight_of_lt {k : Int32} {n : Nat} (hk : (k.toBitVec.smod 32).toNat = n)
    (hx : bits x < 2 ^ 31) : bits (x >>> k) = bits x >>> n := by
  have hmsb : x.toBitVec.msb = false := by
    rw [BitVec.msb_eq_false_iff_two_mul_lt]
    change 2 * bits x < 2 ^ 32
    omega
  change (x.toBitVec.sshiftRight' _).toNat = _
  rw [BitVec.toNat_sshiftRight'_of_msb_false hmsb, hk]
  rfl

theorem bits_add_of_lt (h : bits x + bits y < 2 ^ 32) : bits (x + y) = bits x + bits y :=
  Nat.mod_eq_of_lt h

theorem sum_eq_cpop : Lanes.sum 1 32 (bits x) = x.toBitVec.cpop.toNat := by
  have hrec : ∀ n, Lanes.sum 1 n (bits x) = x.toBitVec.cpopNatRec n 0 := by
    intro n
    induction n with
    | zero => rfl
    | succ n ih =>
        have hbit : bits x / 2 ^ n % 2 = (x.toBitVec.getLsbD n).toNat := by
          change _ = ((bits x).testBit n).toNat
          rw [Nat.toNat_testBit]
        rw [BitVec.cpopNatRec_succ, BitVec.cpopNatRec_eq, ← ih, Lanes.sum_add, Lanes.sum_one,
          Nat.one_mul, Nat.pow_one, hbit]
        omega
  have hle := BitVec.cpopNatRec_zero_le x.toBitVec 32
  rw [hrec, BitVec.cpop, BitVec.toNat_ofNat, Nat.mod_eq_of_lt (by omega)]

end Words

/-! ## `bitCount` -/

theorem bits_nibbles (x : Int32) : bits (nibbles x) = Lanes.gather 1 4 8 (bits x) ∧
    bits (nibbles x) < 2 ^ 31 := by
  obtain ⟨mask, hmask⟩ : ∃ m : Int32, m = 0x11111111 := ⟨_, rfl⟩
  have hm : bits mask = 0x11111111 := by rw [hmask]; decide
  have hrun : nibbles x
      = (x &&& mask) + (x >>> 1 &&& mask) + (x >>> 2 &&& mask) + (x >>> 3 &&& mask) := by
    rw [hmask]
    rfl
  have h0 : bits (x &&& mask) = bits x &&& bits mask := bits_and x mask
  have h1 := bits_shiftRight_and x mask (k := 1) (n := 1) (by decide) (by rw [hm]; decide)
  have h2 := bits_shiftRight_and x mask (k := 2) (n := 2) (by decide) (by rw [hm]; decide)
  have h3 := bits_shiftRight_and x mask (k := 3) (n := 3) (by decide) (by rw [hm]; decide)
  have hle : ∀ y, y &&& bits mask ≤ 0x11111111 := fun y => hm ▸ Nat.and_le_right
  have hle0 := hle (bits x)
  have hle1 := hle (bits x >>> 1)
  have hle2 := hle (bits x >>> 2)
  have hle3 := hle (bits x >>> 3)
  have hsum1 : bits ((x &&& mask) + (x >>> 1 &&& mask)) = _ :=
    bits_add_of_lt _ _ (by rw [h0, h1]; omega)
  have hsum2 : bits ((x &&& mask) + (x >>> 1 &&& mask) + (x >>> 2 &&& mask)) = _ :=
    bits_add_of_lt _ _ (by rw [hsum1, h0, h1, h2]; omega)
  have hsum3 : bits (nibbles x) = (bits x &&& bits mask) + (bits x >>> 1 &&& bits mask)
      + (bits x >>> 2 &&& bits mask) + (bits x >>> 3 &&& bits mask) := by
    rw [hrun, bits_add_of_lt _ _ (by rw [hsum2, hsum1, h0, h1, h2, h3]; omega),
      hsum2, hsum1, h0, h1, h2, h3]
  have hlanes : Lanes.mask 4 1 8 = bits mask := by rw [hm]; decide
  refine ⟨?_, by rw [hsum3]; omega⟩
  rw [hsum3, ← hlanes]
  simp [Lanes.gather, Finset.sum_range_succ]

theorem bits_addNibbles {s : Int32} (hbelow : Lanes.Below 4 4 8 (bits s)) (hs : bits s < 2 ^ 31) :
    bits (addNibbles s) = Lanes.sum 4 8 (bits s) := by
  -- the upper half is added to the lower one
  have hshift : bits (s >>> 16) = bits s / 2 ^ 16 := by
    rw [bits_shiftRight_of_lt s (n := 16) (by decide) hs, Nat.shiftRight_eq_div_pow]
  have hhalf : bits (s + s >>> 16) = bits s + bits s / 2 ^ 16 := by
    rw [bits_add_of_lt _ _ (by rw [hshift]; omega), hshift]
  obtain ⟨hsum, -⟩ := Lanes.sum_add_of_below (hbelow.take 4) (hbelow.drop 4) (by decide)
  have hall : Lanes.sum 4 4 (bits (s + s >>> 16)) = Lanes.sum 4 8 (bits s) := by
    rw [hhalf, Lanes.sum_add 4 4 4]
    exact hsum
  obtain ⟨t, ht⟩ : ∃ t, t = s + s >>> 16 := ⟨_, rfl⟩
  rw [← ht] at hall
  -- two lanes of a byte
  obtain ⟨mask, hmask⟩ : ∃ m : Int32, m = 0x0F0F := ⟨_, rfl⟩
  have hm : bits mask = Lanes.mask (4 * 2) (2 ^ 4 - 1) 2 := by rw [hmask]; decide
  have hm' : bits mask = 0x0F0F := by rw [hmask]; decide
  obtain ⟨hgather, -, hlt⟩ := Lanes.sum_gather (v := 4) (m := 2) (by decide) 2 (bits t)
  have hbytes : bits ((t &&& mask) + (t >>> 4 &&& mask)) = Lanes.gather 4 2 2 (bits t) := by
    have h0 : bits (t &&& mask) = bits t &&& bits mask := bits_and t mask
    have h1 := bits_shiftRight_and t mask (k := 4) (n := 4) (by decide) (by rw [hm']; decide)
    have hle : ∀ y, y &&& bits mask ≤ 0x0F0F := fun y => hm' ▸ Nat.and_le_right
    have hle0 := hle (bits t)
    have hle1 := hle (bits t >>> 4)
    rw [bits_add_of_lt _ _ (by rw [h0, h1]; omega), h0, h1, hm, Lanes.gather_two]
  obtain ⟨u, hu⟩ : ∃ u, u = (t &&& mask) + (t >>> 4 &&& mask) := ⟨_, rfl⟩
  rw [← hu] at hbytes
  rw [← hbytes] at hgather hlt
  have hrun : addNibbles s = (u + u >>> 8) &&& 0xFF := by
    rw [hu, ht, hmask]
    rfl
  have hshift' : bits (u >>> 8) = bits u / 2 ^ 8 := by
    rw [bits_shiftRight_of_lt u (n := 8) (by decide) (hlt.trans (by decide)),
      Nat.shiftRight_eq_div_pow]
  have htwo : bits u % 2 ^ 8 + bits u / 2 ^ 8 % 2 ^ 8 = Lanes.sum 4 8 (bits s) := by
    rw [← hall, ← hgather]
    rfl
  have hroom := Lanes.sum_le 4 8 (bits s)
  have hadd : bits (u + u >>> 8) = bits u + bits u / 2 ^ 8 := by
    rw [bits_add_of_lt _ _ (by rw [hshift']; omega), hshift']
  rw [hrun, bits_and_low _ _ (k := 8) (by decide), hadd, ← htwo]
  omega

/-- **`bitCount` counts the ones.** -/
theorem bitCount_eq_cpop (x : Int32) : (bitCount x).toBitVec = x.toBitVec.cpop := by
  obtain ⟨hnibbles, hlt⟩ := bits_nibbles x
  obtain ⟨hsum, hbelow, -⟩ := Lanes.sum_gather (v := 1) (m := 4) (by decide) 8 (bits x)
  rw [← hnibbles] at hsum hbelow
  refine BitVec.eq_of_toNat_eq ?_
  change bits (bitCount x) = _
  rw [bitCount, bits_addNibbles hbelow hlt, ← sum_eq_cpop]
  exact hsum

example : bitCount 7 = 3 ∧ bitCount (-1) = 32 := by decide

/-! ## `ilog2` -/

theorem bits_or_shiftRight {x k : Int32} {n : Nat} (hk : (k.toBitVec.smod 32).toNat = n)
    (hx : bits x < 2 ^ 31) : bits (x ||| x >>> k) = bits x ||| bits x >>> n ∧
      bits (x ||| x >>> k) < 2 ^ 31 := by
  have hor : bits (x ||| x >>> k) = bits x ||| bits x >>> n := by
    rw [bits_or, bits_shiftRight_of_lt x hk hx]
  refine ⟨hor, ?_⟩
  rw [hor]
  exact Nat.or_lt_two_pow hx ((Nat.shiftRight_le _ _).trans_lt hx)

theorem bits_smear {x : Int32} {n : Nat} (hlo : 2 ^ n ≤ bits x) (hhi : bits x < 2 ^ (n + 1))
    (hx : bits x < 2 ^ 31) : bits (smear x) = 2 ^ (n + 1) - 1 := by
  have hn : n < 32 := by
    by_contra hge
    have := Nat.pow_le_pow_right (n := 2) (by decide) (Nat.le_of_not_lt hge)
    omega
  have hstep : ∀ {y k : Int32} {m : Nat}, (k.toBitVec.smod 32).toNat = m → bits y < 2 ^ 31 →
      Lanes.Covers (bits x) m (bits y) →
      bits (y ||| y >>> k) < 2 ^ 31 ∧ Lanes.Covers (bits x) (2 * m) (bits (y ||| y >>> k)) := by
    intro y k m hk hy hcovers
    obtain ⟨hor, hlt⟩ := bits_or_shiftRight hk hy
    exact ⟨hlt, hor ▸ hcovers.or_shift⟩
  obtain ⟨h1, hcovers1⟩ := hstep (k := 1) (m := 1) (by decide) hx (.one _)
  obtain ⟨h2, hcovers2⟩ := hstep (k := 2) (m := 2) (by decide) h1 hcovers1
  obtain ⟨h4, hcovers4⟩ := hstep (k := 4) (m := 4) (by decide) h2 hcovers2
  obtain ⟨h8, hcovers8⟩ := hstep (k := 8) (m := 8) (by decide) h4 hcovers4
  obtain ⟨-, hcovers16⟩ := hstep (k := 16) (m := 16) (by decide) h8 hcovers8
  exact hcovers16.eq_ones hlo hhi hn

theorem bits_addPairs (x : Int32) {k m : Int32} {v l : Nat} (hk : (k.toBitVec.smod 32).toNat = v)
    (hm : bits m = Lanes.mask (v * 2) (2 ^ v - 1) l) (hroom : 2 * (2 ^ v - 1) < 2 ^ (v * 2))
    (hl : v * 2 * l = 32) (hlt : bits m < 2 ^ (32 - v)) :
    Lanes.sum (v * 2) l (bits (addPairs k m x)) = Lanes.sum v (2 * l) (bits x) := by
  obtain ⟨hsum, -, hfits⟩ := Lanes.sum_gather hroom l (bits x)
  have h0 : bits (x &&& m) = bits x &&& bits m := bits_and x m
  have h1 := bits_shiftRight_and x m hk hlt
  have htwo := Lanes.gather_two v l (bits x)
  rw [hl] at hfits
  rw [← hm] at htwo
  rw [addPairs, bits_add_of_lt _ _ (by rw [h0, h1, ← htwo]; exact hfits), h0, h1, ← htwo, hsum]

theorem bits_addLanes (x : Int32) : bits (addLanes x) = Lanes.sum 1 32 (bits x) := by
  have h1 := bits_addPairs x (k := 1) (m := 0x55555555) (v := 1) (l := 16) (by decide)
    (by decide) (by decide) rfl (by decide)
  have h2 := fun y => bits_addPairs y (k := 2) (m := 0x33333333) (v := 2) (l := 8) (by decide)
    (by decide) (by decide) rfl (by decide)
  have h4 := fun y => bits_addPairs y (k := 4) (m := 0x0F0F0F0F) (v := 4) (l := 4) (by decide)
    (by decide) (by decide) rfl (by decide)
  have h8 := fun y => bits_addPairs y (k := 8) (m := 0x00FF00FF) (v := 8) (l := 2) (by decide)
    (by decide) (by decide) rfl (by decide)
  have h16 := fun y => bits_addPairs y (k := 16) (m := 0xFFFF) (v := 16) (l := 1) (by decide)
    (by decide) (by decide) rfl (by decide)
  have hone : ∀ y, Lanes.sum (16 * 2) 1 (bits y) = bits y := fun y => Nat.mod_eq_of_lt (bits_lt y)
  rw [← hone]
  exact (h16 _).trans ((h8 _).trans ((h4 _).trans ((h2 _).trans h1)))

/-- **`ilog2` is the logarithm**: of a number that is positive, rounded down. -/
theorem ilog2_eq_log2 {x : Int32} (hx : 0 < x.toInt) : (ilog2 x).toInt = x.toInt.toNat.log2 := by
  have hcond := toInt_eq x
  have hbits := bits_lt x
  have hlt : bits x < 2 ^ 31 := by
    by_contra hge
    rw [if_neg hge] at hcond
    omega
  rw [if_pos hlt] at hcond
  have hnat : x.toInt.toNat = bits x := by omega
  have hpos : bits x ≠ 0 := by omega
  have hlo := Nat.log2_self_le hpos
  have hhi := Nat.lt_log2_self (n := bits x)
  have hsmear := bits_smear hlo hhi hlt
  have hn : (bits x).log2 < 31 := (Nat.log2_lt hpos).mpr hlt
  have hcount : bits (addLanes (smear x)) = (bits x).log2 + 1 := by
    rw [bits_addLanes, hsmear, Lanes.sum_ones (by omega)]
  have hone : bits (~~~(0 : Int32)) = 2 ^ 32 - 1 := by decide
  have hres : bits (ilog2 x) = (bits x).log2 := by
    rw [ilog2, bits_add, hcount, hone]
    omega
  rw [toInt_eq, hres, if_pos (by omega), hnat]

theorem ilog2_sixteen : (ilog2 16).toInt = Nat.log2 16 := ilog2_eq_log2 (by decide)

/-! ## `bang` -/

/-- One step of smearing to the right: the ones move into the lower half. -/
theorem exists_bit_or_shiftRight {x k : Int32} {n : Nat} (hk : (k.toBitVec.smod 32).toNat = n)
    (hn : 2 * n ≤ 32) (h : ∃ i < 2 * n, (bits x).testBit i = true) :
    ∃ i < n, (bits (x ||| x >>> k)).testBit i = true := by
  obtain ⟨i, hi, hbit⟩ := h
  by_cases hlow : i < n
  · refine ⟨i, hlow, ?_⟩
    rw [bits_or, Nat.testBit_or, hbit, Bool.true_or]
  · refine ⟨i - n, by omega, ?_⟩
    have hback : n + (i - n) = i := by omega
    rw [bits_or, Nat.testBit_or, testBit_shiftRight x hk, hback, if_pos (by omega), hbit,
      decide_eq_true (by omega), Bool.and_true, Bool.or_true]

/-- **`bang` is `!`.** -/
theorem bang_eq (x : Int32) : bang x = if x = 0 then 1 else 0 := by
  by_cases hx : x = 0
  · rw [hx]
    decide
  rw [if_neg hx]
  obtain ⟨i, hbit⟩ : ∃ i, (bits x).testBit i = true :=
    Nat.exists_testBit_of_ne_zero fun hzero => hx ((bits_inj x 0).mp hzero)
  have hi : i < 32 := by
    by_contra hge
    have hout := (bits_lt x).trans_le (Nat.pow_le_pow_right (n := 2)
      (by decide) (Nat.le_of_not_lt hge))
    rw [Nat.testBit_lt_two_pow hout] at hbit
    cases hbit
  have h16 := exists_bit_or_shiftRight (k := 16) (n := 16) (by decide) (by decide) ⟨i, hi, hbit⟩
  have h8 := exists_bit_or_shiftRight (k := 8) (n := 8) (by decide) (by decide) h16
  have h4 := exists_bit_or_shiftRight (k := 4) (n := 4) (by decide) (by decide) h8
  have h2 := exists_bit_or_shiftRight (k := 2) (n := 2) (by decide) (by decide) h4
  obtain ⟨j, hj, hlow⟩ := exists_bit_or_shiftRight (k := 1) (n := 1) (by decide) (by decide) h2
  obtain rfl := Nat.lt_one_iff.mp hj
  obtain ⟨y, hy⟩ : ∃ y, bang x = ~~~y &&& 0x01 ∧ (bits y).testBit 0 = true := ⟨_, rfl, hlow⟩
  obtain ⟨hrun, hodd⟩ := hy
  rw [hrun, ← bits_inj, bits_and_low _ _ (k := 1) (by decide), bits_complement]
  have hlt := bits_lt y
  rw [Nat.testBit_zero, decide_eq_true_iff] at hodd
  have hzero : bits 0 = 0 := by decide
  omega

end InternetLabs.DataLab
