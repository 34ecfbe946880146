/-
# `InternetLabs.Cache.Trans` — the transpose functions of `cachelab`

`trans.c`: the plain `trans` and the tiled `transpose_submit`.  `A` and `B` are as large as
their types say, and reading or writing next to them is a fault; so is an `int` that gets too
large.  `A` and `B` are two arrays: `B` is written and `A` is not (`Copied`).

The three branches of `transpose_submit` are one loop nest for three `Tiling`s.  The diagonal
element of a row waits in `temp` and `diagonal` for the end of the row, and they keep it when
the next row has none.
-/
import Mathlib.Algebra.Order.Floor.Div
import Mathlib.Algebra.Order.Ring.Nat
import Mathlib.LinearAlgebra.Matrix.Defs
import InternetLabs.Lib.ForLoop

namespace InternetLabs.Cache

open InternetLabs

variable {M N : Nat}

/-! ## The matrices

Arrays with bounds that are checked, and additions that an `int` has to hold. -/

/-- What a transpose function works on: `int A[N][M]` and `int B[M][N]`. -/
structure Matrices (M N : Nat) where
  A : Matrix (Fin N) (Fin M) Int32
  B : Matrix (Fin M) (Fin N) Int32

namespace Matrices

/-- `A[i][j]`. -/
def load (m : Matrices M N) (i j : Nat) : Option Int32 :=
  if h : i < N ∧ j < M then some (m.A ⟨i, h.1⟩ ⟨j, h.2⟩) else none

/-- `B[j][i] = v`. -/
def store (m : Matrices M N) (j i : Nat) (v : Int32) : Option (Matrices M N) :=
  if j < M ∧ i < N then
    some { m with B := .of fun r c => if r = j ∧ c = i then v else m.B r c }
  else none

theorem load_fin (m : Matrices M N) (i : Fin N) (j : Fin M) : m.load i j = some (m.A i j) :=
  dif_pos ⟨i.isLt, j.isLt⟩

theorem load_eq_none (m : Matrices M N) {i j : Nat} (h : M ≤ j) : m.load i j = none :=
  dif_neg fun hij => Nat.not_lt.mpr h hij.2

end Matrices

/-- From `m` to `m'` the transpose of `A` has got into `B` where `P` says; all else is as it
was. -/
structure Copied (P : Nat → Nat → Prop) (m m' : Matrices M N) : Prop where
  source : m'.A = m.A
  copied : ∀ (r : Fin M) (c : Fin N), P r c → m'.B r c = m.A c r
  kept : ∀ (r : Fin M) (c : Fin N), ¬ P r c → m'.B r c = m.B r c

section Copied
variable {P Q : Nat → Nat → Prop} {m m' m'' : Matrices M N}

theorem Copied.refl (h : ∀ r c, ¬ P r c) : Copied P m m where
  source := rfl
  copied r c hp := (h r c hp).elim
  kept _ _ _ := rfl

theorem Copied.congr (h : Copied P m m') (hPQ : ∀ r c, r < M → c < N → (P r c ↔ Q r c)) :
    Copied Q m m' where
  source := h.source
  copied r c hq := h.copied r c ((hPQ r c r.isLt c.isLt).mpr hq)
  kept r c hq := h.kept r c fun hp => hq ((hPQ r c r.isLt c.isLt).mp hp)

/-- What is copied twice is copied. -/
theorem Copied.comp (h : Copied P m m') (h' : Copied Q m' m'') :
    Copied (fun r c => P r c ∨ Q r c) m m'' where
  source := h'.source.trans h.source
  copied r c hpq := by
    by_cases hq : Q r c
    · rw [h'.copied r c hq, h.source]
    · rw [h'.kept r c hq, h.copied r c (hpq.resolve_right hq)]
  kept r c hpq := by
    rw [h'.kept r c fun hq => hpq (.inr hq), h.kept r c fun hp => hpq (.inl hp)]

theorem Matrices.store_copied {i j : Nat} {a : Int32} (h : m.load i j = some a) :
    ∃ m', m.store j i a = some m' ∧ Copied (fun r c => r = j ∧ c = i) m m' := by
  obtain ⟨⟨hi, hj⟩, ha⟩ := Option.dite_none_right_eq_some.mp h
  obtain rfl := Option.some.inj ha
  refine ⟨_, if_pos ⟨hj, hi⟩, rfl, fun r c hrc => ?_, fun r c hrc => if_neg hrc⟩
  obtain rfl : r = ⟨j, hj⟩ := Fin.ext hrc.1
  obtain rfl : c = ⟨i, hi⟩ := Fin.ext hrc.2
  exact if_pos ⟨rfl, rfl⟩

end Copied

/-- The sum of two `int`s that are not negative. -/
def intAdd (a b : Nat) : Option Nat := if a + b < 2 ^ 31 then some (a + b) else none

/-- `for (k = 0; k < bound; k += step)`. -/
def upTo {σ : Type} (bound step : Nat) (body : Nat → σ → Option σ) : ForLoop σ where
  guard k := some (decide (k < bound))
  next k := intAdd k step
  body := body

theorem intAdd_of_lt {a b : Nat} (h : a + b < 2 ^ 31) : intAdd a b = some (a + b) := if_pos h

theorem intAdd_eq_none {a b : Nat} (h : 2 ^ 31 ≤ a + b) : intAdd a b = none :=
  if_neg (Nat.not_lt.mpr h)

section UpTo
variable {σ : Type} {bound step : Nat} {body : Nat → σ → Option σ}

theorem upTo_leads {n : Nat} (hn : ∀ k < n, k * step < bound) (hint : n * step < 2 ^ 31) :
    (upTo bound step body).Leads 0 step n where
  guard k hk := by
    rw [Nat.zero_add]
    exact congrArg some (decide_eq_true (hn k hk))
  next k hk := by
    have hle : (k + 1) * step ≤ n * step := Nat.mul_le_mul_right step hk
    rw [Nat.zero_add, Nat.zero_add, Nat.succ_mul]
    rw [Nat.succ_mul] at hle
    exact intAdd_of_lt (Nat.lt_of_le_of_lt hle hint)

theorem lt_ceilDiv_iff (hstep : 0 < step) {k : Nat} : k < bound ⌈/⌉ step ↔ k * step < bound := by
  rw [Nat.mul_comm, ← Nat.not_le, ceilDiv_le_iff_le_mul hstep, Nat.not_le]

theorem min_ceilDiv (hstep : 0 < step) : min ((bound ⌈/⌉ step) * step) bound = bound :=
  Nat.min_eq_right (Nat.mul_comm step _ ▸ le_smul_ceilDiv hstep)

/-- A loop that goes up to a `bound`, so far below the largest `int` that the last step is an
`int` as well. -/
theorem upTo_counts (hstep : 0 < step) (hint : bound + step ≤ 2 ^ 31) :
    (upTo bound step body).Counts 0 step (bound ⌈/⌉ step) := by
  have hlt : (bound ⌈/⌉ step) * step < bound + step := by
    cases hn : bound ⌈/⌉ step with
    | zero => omega
    | succ n =>
        have hlast : n * step < bound := (lt_ceilDiv_iff hstep).mp (by omega)
        rw [Nat.succ_mul]
        exact Nat.add_lt_add_right hlast step
  refine ⟨upTo_leads (fun k hk => (lt_ceilDiv_iff hstep).mp hk) (by omega), ?_⟩
  have hstop : ¬ (bound ⌈/⌉ step) * step < bound :=
    mt (lt_ceilDiv_iff hstep).mpr (Nat.lt_irrefl _)
  rw [Nat.zero_add]
  exact congrArg some (decide_eq_false hstop)

theorem upTo_run (I : Nat → σ → Prop) (hstep : 0 < step) (hint : bound + step ≤ 2 ^ 31)
    (hbody : ∀ k s, k * step < bound → I k s → ∃ s', body (k * step) s = some s' ∧ I (k + 1) s')
    {s : σ} (hs : I 0 s) {fuel : Nat} (hfuel : bound < fuel) :
    ∃ s', (upTo bound step body).run fuel 0 s = some s' ∧ I (bound ⌈/⌉ step) s' := by
  have hrounds : bound ⌈/⌉ step ≤ bound :=
    (ceilDiv_le_iff_le_mul hstep).mpr (Nat.le_mul_of_pos_left bound hstep)
  refine (upTo_counts hstep hint).run (fun k hk s hI => ?_) hs (Nat.lt_of_le_of_lt hrounds hfuel)
  rw [Nat.zero_add]
  exact hbody k s ((lt_ceilDiv_iff hstep).mp hk) hI

end UpTo

/-! ## The plain transpose -/

/-- The body of the inner loop of `trans`. -/
def transElement (i j : Nat) (m : Matrices M N) : Option (Matrices M N) := do
  let tmp ← m.load i j
  m.store j i tmp

def transRow (fuel i : Nat) : Matrices M N → Option (Matrices M N) :=
  (upTo M 1 (transElement i)).run fuel 0

/-- `trans`. -/
def trans (fuel : Nat) : Matrices M N → Option (Matrices M N) :=
  (upTo N 1 (transRow fuel)).run fuel 0

section Plain
variable {fuel : Nat}

theorem transElement_copied {i j : Nat} (hi : i < N) (hj : j < M) (m : Matrices M N) :
    ∃ m', transElement i j m = some m' ∧ Copied (fun r c => r = j ∧ c = i) m m' := by
  have hload : m.load i j = _ := m.load_fin ⟨i, hi⟩ ⟨j, hj⟩
  obtain ⟨m', hm', hcopied⟩ := m.store_copied hload
  exact ⟨m', by rw [transElement, hload]; exact hm', hcopied⟩

theorem transRow_copied (hM : M < 2 ^ 31) (hfuel : M < fuel) {i : Nat} (hi : i < N)
    (m : Matrices M N) : ∃ m', transRow fuel i m = some m' ∧ Copied (fun _ c => c = i) m m' := by
  have hbody : ∀ j m₁, j * 1 < M → Copied (fun r c => c = i ∧ r < j) m m₁ →
      ∃ m₂, transElement i (j * 1) m₁ = some m₂ ∧
        Copied (fun r c => c = i ∧ r < j + 1) m m₂ := by
    intro j m₁ hj hm₁
    rw [Nat.mul_one] at hj ⊢
    obtain ⟨m₂, hm₂, hcopied⟩ := transElement_copied hi hj m₁
    refine ⟨m₂, hm₂, (hm₁.comp hcopied).congr ?_⟩
    omega
  have hnone : Copied (fun r c => c = i ∧ r < 0) m m :=
    Copied.refl fun r _ h => Nat.not_lt_zero r h.2
  obtain ⟨m', hm', hcopied⟩ :=
    upTo_run (fun j => Copied (fun r c => c = i ∧ r < j) m) Nat.one_pos hM hbody hnone hfuel
  rw [ceilDiv_one] at hcopied
  exact ⟨m', hm', hcopied.congr fun r c hr _ => and_iff_left hr⟩

/-- **`trans` transposes.** -/
theorem trans_copied (hM : M < 2 ^ 31) (hN : N < 2 ^ 31) (hfuel : max M N < fuel)
    (m : Matrices M N) : ∃ m', trans fuel m = some m' ∧ Copied (fun _ _ => True) m m' := by
  obtain ⟨hMf, hNf⟩ := Nat.max_lt.mp hfuel
  have hbody : ∀ i m₁, i * 1 < N → Copied (fun _ c => c < i) m m₁ →
      ∃ m₂, transRow fuel (i * 1) m₁ = some m₂ ∧ Copied (fun _ c => c < i + 1) m m₂ := by
    intro i m₁ hi hm₁
    rw [Nat.mul_one] at hi ⊢
    obtain ⟨m₂, hm₂, hcopied⟩ := transRow_copied hM hMf hi m₁
    refine ⟨m₂, hm₂, (hm₁.comp hcopied).congr ?_⟩
    omega
  have hnone : Copied (fun _ c => c < 0) m m := Copied.refl fun _ c => Nat.not_lt_zero c
  obtain ⟨m', hm', hcopied⟩ :=
    upTo_run (fun i => Copied (fun _ c => c < i) m) Nat.one_pos hN hbody hnone hNf
  rw [ceilDiv_one] at hcopied
  exact ⟨m', hm', hcopied.congr fun r c _ hc => iff_true_intro hc⟩

end Plain

/-! ## The tiled transpose

The three branches are one loop nest with other parameters. -/

/-- What the branches of `transpose_submit` differ in: the width of a tile, the bounds of
`column` and `row`, and the second halves of the guards of `j` and `i`, if there are any. -/
structure Tiling where
  width : Nat
  cols : Nat
  rows : Nat
  colLimit : Option Nat
  rowLimit : Option Nat

/-- The branch for `N == 32`. -/
def tiling32 (N : Nat) : Tiling :=
  { width := 8, cols := N, rows := N, colLimit := none, rowLimit := none }

/-- The branch for `N == 64`. -/
def tiling64 (N : Nat) : Tiling :=
  { width := 4, cols := N, rows := N, colLimit := none, rowLimit := none }

/-- The last branch. -/
def tilingElse (M N : Nat) : Tiling :=
  { width := 16, cols := M, rows := N, colLimit := some M, rowLimit := some N }

/-- The matrices and the variables of `transpose_submit`. -/
structure Submit (M N : Nat) extends Matrices M N where
  temp : Int32
  diagonal : Nat

/-- `B[j][i] = v` among the variables. -/
def Submit.put (s : Submit M N) (j i : Nat) (v : Int32) : Option (Submit M N) :=
  (s.store j i v).map fun m => { s with toMatrices := m }

/-- `for (k = start; (k < start + width) && (k < limit); k++)`. -/
def withinTile {σ : Type} (start width : Nat) (limit : Option Nat) (body : Nat → σ → Option σ) :
    ForLoop σ where
  guard k := do
    let top ← intAdd start width
    return decide (k < top) && limit.all fun limit => decide (k < limit)
  next k := intAdd k 1
  body := body

def element (i j : Nat) (s : Submit M N) : Option (Submit M N) :=
  if i ≠ j then do
    let a ← s.load i j
    s.put j i a
  else do
    let a ← s.load i j
    return { s with temp := a, diagonal := i }

namespace Tiling

variable (t : Tiling) (fuel : Nat)

def row (column row i : Nat) (s : Submit M N) : Option (Submit M N) := do
  let s ← (withinTile column t.width t.colLimit (element i)).run fuel column s
  if row = column then s.put s.diagonal s.diagonal s.temp else return s

def tile (column row : Nat) : Submit M N → Option (Submit M N) :=
  (withinTile row t.width t.rowLimit (t.row fuel column row)).run fuel row

/-- The tiles of a `column`. -/
def column (column : Nat) : Submit M N → Option (Submit M N) :=
  (upTo t.rows t.width (t.tile fuel column)).run fuel 0

def tiles : Submit M N → Option (Submit M N) := (upTo t.cols t.width (t.column fuel)).run fuel 0

end Tiling

/-- `transpose_submit`. -/
def transposeSubmit (fuel : Nat) (m : Matrices M N) : Option (Matrices M N) :=
  let s : Submit M N := { m with diagonal := 0, temp := 0 }
  (if N = 32 then (tiling32 N).tiles fuel s
    else if N = 64 then (tiling64 N).tiles fuel s
    else (tilingElse M N).tiles fuel s).map Submit.toMatrices

end InternetLabs.Cache
