/-
# `InternetLabs.Cache.Address` — a trace address, its set and its tag

`fscanf` reads up to eleven hexadecimal digits into an `int`, so of an address only the low
32 bits are left.  The set index is shifted out of those by amounts that were meant for 64
bits; with at least one set bit the processor's reduction of the counts puts that right,
and with none it leaves the bits in place that should have been shifted out
(`setIndex_of_zero`).  The tag keeps all there is above the set bits, also if the `int` is
negative (`inputTag_eq_iff`).
-/
import InternetLabs.Lib.Bytes
import InternetLabs.Cache.Lru

namespace InternetLabs.Cache

open InternetLabs

/-! ## Reading an address -/

/-- The value of a hexadecimal digit. -/
def hexDigit (b : UInt8) : Option Nat :=
  if 48 ≤ b.toNat ∧ b.toNat ≤ 57 then some (b.toNat - 48)
  else if 97 ≤ b.toNat ∧ b.toNat ≤ 102 then some (b.toNat - 87)
  else if 65 ≤ b.toNat ∧ b.toNat ≤ 70 then some (b.toNat - 55)
  else none

/-- The number a row of them spells. -/
def hexVal (digits : Bytes) : Nat := digits.foldl (fun v d => 16 * v + (hexDigit d).getD 0) 0

/-- The `%11x` of `fscanf`, into an `int`: the low 32 bits of the number. -/
def scanAddress (text : Bytes) : UInt32 :=
  UInt32.ofNat (hexVal ((text.take 11).takeWhile fun b => (hexDigit b).isSome))

/-- An address of a trace: up to eleven hexadecimal digits. -/
structure TraceAddress where
  digits : Bytes
  short : digits.length ≤ 11
  hex : ∀ d ∈ digits, (hexDigit d).isSome

namespace TraceAddress

def value (a : TraceAddress) : Nat := hexVal a.digits

/-- What the loop of `main` reads, up to the comma behind it. -/
def read (a : TraceAddress) : UInt32 := scanAddress (a.digits ++ ascii ",")

theorem toNat_read (a : TraceAddress) : a.read.toNat = a.value % 2 ^ 32 := by
  have hcomma : ((ascii ",").take (11 - a.digits.length)).takeWhile (fun b => (hexDigit b).isSome)
      = [] := by
    cases 11 - a.digits.length with
    | zero => rfl
    | succ n => rfl
  have hdigits : ((a.digits ++ ascii ",").take 11).takeWhile (fun b => (hexDigit b).isSome)
      = a.digits := by
    rw [List.take_append, List.take_of_length_le a.short, List.takeWhile_append_of_pos a.hex,
      hcomma, List.append_nil]
  rw [read, scanAddress, hdigits, UInt32.toNat_ofNat']
  rfl

end TraceAddress

/-! ## The set and the tag -/

section Shifts
variable {cfg : Config}

/-- Without a set bit the shift to the right does not undo the one to the left. -/
theorem Config.setIndex_of_zero (hs : cfg.setBits = 0) (hb : cfg.dataBits ≤ 31) (address : UInt32) :
    cfg.setIndex address = if cfg.dataBits = 0 then address.toNat
      else address.toNat % 2 ^ cfg.dataBits * 2 ^ (32 - cfg.dataBits) := by
  obtain ⟨s, E, b⟩ := cfg
  simp only at hs hb
  subst hs
  have hdown : (UInt32.ofNat (64 - (0 + b) + b)).toNat % 32 = 0 := by
    rw [UInt32.toNat_ofNat']
    omega
  have hup : (UInt32.ofNat (64 - (0 + b))).toNat % 32 = if b = 0 then 0 else 32 - b := by
    rw [UInt32.toNat_ofNat']
    split <;> omega
  simp only [Config.setIndex, UInt32.toNat_shiftRight, UInt32.toNat_shiftLeft, hup, hdown,
    Nat.shiftLeft_eq, Nat.shiftRight_zero]
  by_cases hb0 : b = 0
  · rw [if_pos hb0, if_pos hb0, Nat.pow_zero, Nat.mul_one]
    exact Nat.mod_eq_of_lt address.toNat_lt
  · rw [if_neg hb0, if_neg hb0]
    have htop : (2 : Nat) ^ 32 = 2 ^ b * 2 ^ (32 - b) := by
      rw [← Nat.pow_add]
      congr 1
      omega
    rw [htop, Nat.mul_mod_mul_right]

theorem shiftRight_toInt (address : UInt32) {k : Nat} (hk : k ≤ 31) :
    address.toInt32.toInt >>> k = (address.toNat / 2 ^ k : Nat)
      - (if address.toNat < 2 ^ 31 then 0 else 2 ^ (32 - k) : Int) := by
  have hint : address.toInt32.toInt
      = (address.toNat : Int) - (if address.toNat < 2 ^ 31 then 0 else 2 ^ 32 : Int) := by
    change address.toBitVec.toInt = _
    rw [BitVec.toInt_eq_toNat_cond]
    change (if 2 * address.toNat < 2 ^ 32 then _ else _) = _
    split <;> split <;> simp only [UInt32.toNat_toBitVec] <;> omega
  have htop : (2 : Int) ^ 32 = 2 ^ (32 - k) * 2 ^ k := by
    rw [← Int.pow_add]
    congr 1
    omega
  rw [hint, Int.shiftRight_eq_div_pow]
  split
  · simp
  · rw [htop]
    push_cast
    rw [Int.sub_mul_ediv_right _ _ (by positivity)]

/-- **The tag** is what the `int` has above the set bits. -/
theorem inputTag_eq_iff (hsb : cfg.setBits + cfg.dataBits ≤ 31) (a a' : UInt32) :
    cfg.inputTag a = cfg.inputTag a' ↔
      a.toNat / 2 ^ (cfg.setBits + cfg.dataBits) = a'.toNat / 2 ^ (cfg.setBits + cfg.dataBits) := by
  obtain ⟨k, hk⟩ : ∃ k, k = cfg.setBits + cfg.dataBits := ⟨_, rfl⟩
  rw [← hk] at hsb ⊢
  rw [Config.inputTag, Config.inputTag, ← hk, Nat.mod_eq_of_lt (by omega), shiftRight_toInt a hsb,
    shiftRight_toInt a' hsb]
  -- the quotient tells the sign, and is less than what a negative one is lowered by
  have hsign : ∀ x : UInt32, x.toNat < 2 ^ 31 ↔ x.toNat / 2 ^ k < 2 ^ (31 - k) := by
    intro x
    rw [Nat.div_lt_iff_lt_mul (Nat.two_pow_pos k), ← Nat.pow_add, Nat.sub_add_cancel hsb]
  have hlt : ∀ x : UInt32, ((x.toNat / 2 ^ k : Nat) : Int) < 2 ^ (32 - k) := by
    intro x
    have hnat : x.toNat / 2 ^ k < 2 ^ (32 - k) := by
      rw [Nat.div_lt_iff_lt_mul (Nat.two_pow_pos k), ← Nat.pow_add, Nat.sub_add_cancel (by omega)]
      exact x.toNat_lt
    exact_mod_cast hnat
  have hnonneg : ∀ x : UInt32, (0 : Int) ≤ (x.toNat / 2 ^ k : Nat) := fun x => Int.natCast_nonneg _
  constructor
  · intro heq
    have ha := hlt a
    have ha' := hlt a'
    have h0 := hnonneg a
    have h0' := hnonneg a'
    split at heq <;> split at heq <;> omega
  · intro heq
    have hsame : a.toNat < 2 ^ 31 ↔ a'.toNat < 2 ^ 31 := by rw [hsign, hsign, heq]
    rw [heq]
    by_cases ha : a.toNat < 2 ^ 31
    · rw [if_pos ha, if_pos (hsame.mp ha)]
    · rw [if_neg ha, if_neg fun h => ha (hsame.mpr h)]

end Shifts

/-! ## Blocks

Two addresses of one block must have set and tag in common, and others must not. -/

/-- The two addresses are taken apart faithfully: each comes to its set, and they have set
and tag in common if they are in one block. -/
structure Faithful (cfg : Config) (a a' : TraceAddress) : Prop where
  left : cfg.setIndex a.read = a.value / 2 ^ cfg.dataBits % 2 ^ cfg.setBits
  right : cfg.setIndex a'.read = a'.value / 2 ^ cfg.dataBits % 2 ^ cfg.setBits
  block : cfg.setIndex a.read = cfg.setIndex a'.read ∧ cfg.inputTag a.read = cfg.inputTag a'.read ↔
    a.value / 2 ^ cfg.dataBits = a'.value / 2 ^ cfg.dataBits

/-- The set index is right: there is a set bit, or nothing to be shifted out. -/
def IndexRight (cfg : Config) (a : TraceAddress) : Prop :=
  1 ≤ cfg.setBits ∨ a.value % 2 ^ (if cfg.dataBits = 0 then 32 else cfg.dataBits) = 0

section Blocks
variable {cfg : Config} (hsb : cfg.setBits + cfg.dataBits ≤ 31) (a a' : TraceAddress)
include hsb

theorem div_mod_low : a.value % 2 ^ 32 / 2 ^ cfg.dataBits % 2 ^ cfg.setBits
    = a.value / 2 ^ cfg.dataBits % 2 ^ cfg.setBits := by
  have htop : (2 : Nat) ^ 32 = 2 ^ cfg.dataBits * 2 ^ (32 - cfg.dataBits) := by
    rw [← Nat.pow_add]
    congr 1
    omega
  rw [htop, Nat.mod_mul_right_div_self,
    Nat.mod_mod_of_dvd _ (Nat.pow_dvd_pow 2 (by omega))]

theorem setIndex_iff : cfg.setIndex a.read = a.value / 2 ^ cfg.dataBits % 2 ^ cfg.setBits ↔
    IndexRight cfg a := by
  by_cases hs : 1 ≤ cfg.setBits
  · rw [Config.setIndex_of_pos hs hsb, Config.setOf, a.toNat_read, div_mod_low hsb a]
    exact iff_of_true rfl (.inl hs)
  have hs0 : cfg.setBits = 0 := by omega
  have hright : IndexRight cfg a ↔
      a.value % 2 ^ (if cfg.dataBits = 0 then 32 else cfg.dataBits) = 0 := or_iff_right hs
  rw [hright, Config.setIndex_of_zero hs0 (by omega), hs0, Nat.pow_zero, Nat.mod_one, a.toNat_read]
  by_cases hb : cfg.dataBits = 0
  · rw [if_pos hb, if_pos hb]
  · have hlow : a.value % 2 ^ 32 % 2 ^ cfg.dataBits = a.value % 2 ^ cfg.dataBits :=
      Nat.mod_mod_of_dvd _ (Nat.pow_dvd_pow 2 (by omega))
    rw [if_neg hb, if_neg hb, hlow, Nat.mul_eq_zero]
    exact or_iff_left (Nat.two_pow_pos _).ne'

/-- Addresses whose set indices are right have set and tag in common if their low 32 bits
are in one block. -/
theorem sameLine_iff (h : cfg.setIndex a.read = a.value / 2 ^ cfg.dataBits % 2 ^ cfg.setBits)
    (h' : cfg.setIndex a'.read = a'.value / 2 ^ cfg.dataBits % 2 ^ cfg.setBits) :
    cfg.setIndex a.read = cfg.setIndex a'.read ∧ cfg.inputTag a.read = cfg.inputTag a'.read ↔
      a.value % 2 ^ 32 / 2 ^ cfg.dataBits = a'.value % 2 ^ 32 / 2 ^ cfg.dataBits := by
  rw [inputTag_eq_iff hsb, h, h', ← div_mod_low hsb a, ← div_mod_low hsb a', a.toNat_read,
    a'.toNat_read, Nat.add_comm, Nat.pow_add, ← Nat.div_div_eq_div_mul, ← Nat.div_div_eq_div_mul]
  constructor
  · rintro ⟨hmod, hdiv⟩
    rw [← Nat.div_add_mod (a.value % 2 ^ 32 / 2 ^ cfg.dataBits) (2 ^ cfg.setBits), hmod, hdiv,
      Nat.div_add_mod]
  · intro heq
    rw [heq]
    exact ⟨rfl, rfl⟩

/-- A block is told by the bits from 32 on and the block of the low 32 bits. -/
theorem block_iff : a.value / 2 ^ cfg.dataBits = a'.value / 2 ^ cfg.dataBits ↔
    a.value / 2 ^ 32 = a'.value / 2 ^ 32 ∧
      a.value % 2 ^ 32 / 2 ^ cfg.dataBits = a'.value % 2 ^ 32 / 2 ^ cfg.dataBits := by
  have htop : (2 : Nat) ^ 32 = 2 ^ cfg.dataBits * 2 ^ (32 - cfg.dataBits) := by
    rw [← Nat.pow_add]
    congr 1
    omega
  rw [htop, Nat.mod_mul_right_div_self, Nat.mod_mul_right_div_self, ← Nat.div_div_eq_div_mul,
    ← Nat.div_div_eq_div_mul]
  constructor
  · intro heq
    rw [heq]
    exact ⟨rfl, rfl⟩
  · rintro ⟨hdiv, hmod⟩
    rw [← Nat.div_add_mod (a.value / 2 ^ cfg.dataBits) (2 ^ (32 - cfg.dataBits)), hmod, hdiv,
      Nat.div_add_mod]

/-- **Two addresses are taken apart faithfully exactly if** their set indices are right,
and the bits lost from 32 on are the same or the rest tells the blocks apart. -/
theorem faithful_iff : Faithful cfg a a' ↔ IndexRight cfg a ∧ IndexRight cfg a' ∧
    (a.value / 2 ^ 32 = a'.value / 2 ^ 32 ∨
      a.value % 2 ^ 32 / 2 ^ cfg.dataBits ≠ a'.value % 2 ^ 32 / 2 ^ cfg.dataBits) := by
  have hblock : cfg.setIndex a.read = a.value / 2 ^ cfg.dataBits % 2 ^ cfg.setBits →
      cfg.setIndex a'.read = a'.value / 2 ^ cfg.dataBits % 2 ^ cfg.setBits →
      ((cfg.setIndex a.read = cfg.setIndex a'.read ∧ cfg.inputTag a.read = cfg.inputTag a'.read ↔
        a.value / 2 ^ cfg.dataBits = a'.value / 2 ^ cfg.dataBits) ↔
      (a.value / 2 ^ 32 = a'.value / 2 ^ 32 ∨
        a.value % 2 ^ 32 / 2 ^ cfg.dataBits ≠ a'.value % 2 ^ 32 / 2 ^ cfg.dataBits)) := by
    intro h h'
    rw [sameLine_iff hsb a a' h h', block_iff hsb a a']
    tauto
  rw [← setIndex_iff hsb a, ← setIndex_iff hsb a']
  constructor
  · rintro ⟨h, h', hlines⟩
    exact ⟨h, h', (hblock h h').mp hlines⟩
  · rintro ⟨h, h', hlow⟩
    exact ⟨h, h', (hblock h h').mpr hlow⟩

end Blocks

/-- An address on the stack, as `long.trace` has it. -/
def stackAddress : TraceAddress := ⟨ascii "7fefe05a8", by decide, by decide⟩

def heapAddress : TraceAddress := ⟨ascii "00602264", by decide, by decide⟩

/-- Sixteen sets of 16-byte blocks. -/
def sixteenSets : Config := ⟨4, 1, 4⟩

theorem faithful_trace : sixteenSets.setBits + sixteenSets.dataBits ≤ 31 ∧
    Faithful sixteenSets stackAddress heapAddress :=
  ⟨by decide, (faithful_iff (by decide) stackAddress heapAddress).mpr
    ⟨.inl (by decide), .inl (by decide), .inr (by decide)⟩⟩

/-- The address that has all but its first digit in common with that on the stack. -/
def lowAddress : TraceAddress := ⟨ascii "fefe05a8", by decide, by decide⟩

/-- Two addresses of different blocks are told to be in one. -/
theorem stackAddress_not_faithful : ¬ ∀ (cfg : Config) (a a' : TraceAddress),
    cfg.setBits + cfg.dataBits ≤ 31 → Faithful cfg a a' := by
  intro hall
  have h := (hall sixteenSets stackAddress lowAddress (by decide)).block
  exact absurd h (by decide)

end InternetLabs.Cache
