/-
# `InternetLabs.Cache.Tiled` — the tiled transpose transposes

The loops of `transpose_submit` from the inside out: an element, a row of a tile, a tile, the
tiles of a column, all tiles.  Off the diagonal a tile is copied element by element.  On it,
the first row sets `temp` and `diagonal`, and from then on they name an element of the tile
that is in its place or about to be put there (`Held`); so the store at the end of a row
without a diagonal element does nothing.
-/
import InternetLabs.Cache.Trans

namespace InternetLabs.Cache

open InternetLabs

variable {M N : Nat}

/-! ## Within a tile

The guard has two halves.  For matrices whose width is a whole number of tiles the
second says nothing. -/

/-- The tiles end at `bound`: by the second half of the guard, or because it is a whole number
of them. -/
def Clipped (limit : Option Nat) (width bound : Nat) : Prop :=
  limit = some bound ∨ limit = none ∧ width ∣ bound

theorem withinTile_guard_eq_none {σ : Type} {start width : Nat} {limit : Option Nat}
    {body : Nat → σ → Option σ} (h : 2 ^ 31 ≤ start + width) (k : Nat) :
    (withinTile start width limit body).guard k = none := by
  simp only [withinTile, intAdd_eq_none h, Option.bind_eq_bind, Option.bind_none]

section WithinTile
variable {σ : Type} {width bound a : Nat} {limit : Option Nat} {body : Nat → σ → Option σ}
  (hclip : Clipped limit width bound) (hint : bound + width ≤ 2 ^ 31) (ha : a * width < bound)
include hclip hint ha

theorem withinTile_guard (k : Nat) : (withinTile (a * width) width limit body).guard k
    = some (decide (k < min (a * width + width) bound)) := by
  have htop : intAdd (a * width) width = some (a * width + width) := intAdd_of_lt (by omega)
  change ((intAdd (a * width) width).bind fun top =>
    some (decide (k < top) && limit.all fun limit => decide (k < limit))) = _
  rw [htop, Option.bind_some]
  rcases hclip with rfl | ⟨rfl, b, rfl⟩
  · simp only [Option.all_some, Nat.lt_min, Bool.decide_and]
  · have hle : (a + 1) * width ≤ b * width := by
      rw [Nat.mul_comm width b] at ha
      exact Nat.mul_le_mul_right width (Nat.lt_of_mul_lt_mul_right ha)
    rw [Nat.succ_mul, Nat.mul_comm b width] at hle
    rw [Option.all_none, Bool.and_true, Nat.min_eq_left hle]

theorem withinTile_run (I : Nat → σ → Prop)
    (hbody : ∀ k s, a * width ≤ k → k < min (a * width + width) bound → I k s →
      ∃ s', body k s = some s' ∧ I (k + 1) s')
    {s : σ} (hs : I (a * width) s) (hpos : 0 < width) {fuel : Nat} (hfuel : bound < fuel) :
    ∃ s', (withinTile (a * width) width limit body).run fuel (a * width) s = some s' ∧
      I (min (a * width + width) bound) s' := by
  obtain ⟨n, hn⟩ : ∃ n, min (a * width + width) bound = a * width + n :=
    ⟨min (a * width + width) bound - a * width, by omega⟩
  have hcounts : (withinTile (a * width) width limit body).Counts (a * width) 1 n := by
    refine ⟨⟨fun k hk => ?_, fun k hk => ?_⟩, ?_⟩
    · rw [withinTile_guard hclip hint ha, Nat.mul_one, decide_eq_true (by omega)]
    · rw [Nat.mul_one, Nat.mul_one]
      exact intAdd_of_lt (by omega)
    · rw [withinTile_guard hclip hint ha, Nat.mul_one, decide_eq_false (by omega)]
  rw [hn]
  refine hcounts.run (I := fun k => I (a * width + k)) (fun k hk s hI => ?_) hs (by omega)
  rw [Nat.mul_one]
  exact hbody (a * width + k) s (by omega) (by omega) hI

end WithinTile

/-! ## An element

The element on the diagonal is put aside and stored at the end of its row. -/

/-- `temp` is the element of `A` at `diagonal`. -/
def Submit.Held (s : Submit M N) : Prop := s.load s.diagonal s.diagonal = some s.temp

theorem Matrices.load_congr {m m' : Matrices M N} (h : m'.A = m.A) (i j : Nat) :
    m'.load i j = m.load i j := by
  unfold load
  rw [h]

/-- The row `i` of a tile from `column` on, when `j` has come to `k`. -/
structure Passed (s : Submit M N) (column i k : Nat) (s' : Submit M N) : Prop where
  copied : Copied (fun r c => c = i ∧ column ≤ r ∧ r < k ∧ r ≠ i) s.toMatrices s'.toMatrices
  met : column ≤ i → i < k → s'.diagonal = i ∧ s'.Held
  unmet : ¬ (column ≤ i ∧ i < k) → s'.diagonal = s.diagonal ∧ s'.temp = s.temp

section Elements
variable {s s' : Submit M N} {column i j k : Nat}

theorem Submit.Held.congr (h : s.Held) (hA : s'.A = s.A) (hd : s'.diagonal = s.diagonal)
    (ht : s'.temp = s.temp) : s'.Held := by
  unfold Held at h ⊢
  rw [Matrices.load_congr hA, hd, ht, h]

theorem Passed.refl (s : Submit M N) (column i : Nat) : Passed s column i column s where
  copied := Copied.refl fun r c h => by omega
  met := fun h h' => by omega
  unmet := fun _ => ⟨rfl, rfl⟩

theorem Passed.element (h : Passed s column i j s') (hi : i < N) (hj : j < M) (hcol : column ≤ j) :
    ∃ s'', element i j s' = some s'' ∧ Passed s column i (j + 1) s'' := by
  have hload : s'.load i j = _ := s'.load_fin ⟨i, hi⟩ ⟨j, hj⟩
  by_cases hij : i = j
  · subst hij
    refine ⟨{ s' with temp := s'.A ⟨i, hi⟩ ⟨i, hj⟩, diagonal := i }, ?_, ?_, ?_, ?_⟩
    · rw [Cache.element, if_neg (not_not_intro rfl), hload]
      rfl
    · exact h.copied.congr fun r c _ _ => by omega
    · exact fun _ _ => ⟨rfl, hload⟩
    · exact fun hout => (hout ⟨hcol, Nat.lt_succ_self i⟩).elim
  · obtain ⟨m, hm, hcopied⟩ := s'.store_copied hload
    refine ⟨{ s' with toMatrices := m }, ?_, ?_, ?_, ?_⟩
    · rw [Cache.element, if_pos hij, hload, Option.bind_eq_bind, Option.bind_some, Submit.put, hm]
      rfl
    · exact (h.copied.comp hcopied).congr fun r c _ _ => by omega
    · intro hle hlt
      obtain ⟨hd, hheld⟩ := h.met hle (by omega)
      exact ⟨hd, hheld.congr hcopied.source rfl rfl⟩
    · exact fun hout => h.unmet (by omega)

/-- `B[diagonal][diagonal] = temp` puts the element in its place. -/
theorem Submit.Held.put (h : s.Held) : ∃ s', s.put s.diagonal s.diagonal s.temp = some s' ∧
    Copied (fun r c => r = s.diagonal ∧ c = s.diagonal) s.toMatrices s'.toMatrices ∧
    s'.diagonal = s.diagonal ∧ s'.Held := by
  obtain ⟨m, hm, hcopied⟩ := s.store_copied h
  refine ⟨{ s with toMatrices := m }, ?_, hcopied, rfl, h.congr hcopied.source rfl rfl⟩
  rw [Submit.put, hm]
  rfl

end Elements

/-! ## Rows and tiles

One invariant for each of the five loops, from the inside to the outside. -/

namespace Tiling

/-- The tiles are within the matrices, and no `int` gets too large. -/
structure Fits (t : Tiling) (M N : Nat) : Prop where
  pos : 0 < t.width
  cols_le : t.cols ≤ M
  rows_le : t.rows ≤ N
  cols_int : t.cols + t.width ≤ 2 ^ 31
  rows_int : t.rows + t.width ≤ 2 ^ 31
  cols_clipped : Clipped t.colLimit t.width t.cols
  rows_clipped : Clipped t.rowLimit t.width t.rows

/-- Where `j` ends in the tiles of column `a`. -/
def colEnd (t : Tiling) (a : Nat) : Nat := min (a * t.width + t.width) t.cols

/-- Where `i` ends in the tiles of row `b`. -/
def rowEnd (t : Tiling) (b : Nat) : Nat := min (b * t.width + t.width) t.rows

/-- The tile in column `a` and row `b`, when `i` has come to `k`: on the diagonal, `temp` and
`diagonal` name an element that is in its place. -/
structure Filled (t : Tiling) (a b : Nat) (s : Submit M N) (k : Nat) (s' : Submit M N) :
    Prop where
  copied : Copied (fun r c => (b * t.width ≤ c ∧ c < k) ∧ a * t.width ≤ r ∧ r < t.colEnd a)
    s.toMatrices s'.toMatrices
  held : a = b → b * t.width < k → s'.Held ∧ b * t.width ≤ s'.diagonal ∧ s'.diagonal < k ∧
    s'.diagonal < t.colEnd a

theorem Filled.refl (t : Tiling) (a b : Nat) (s : Submit M N) :
    t.Filled a b s (b * t.width) s where
  copied := Copied.refl fun r c h => by omega
  held := fun _ h => by omega

section Tiles
variable {t : Tiling} (ht : t.Fits M N) {fuel : Nat} (hfuel : max t.cols t.rows < fuel)
  {a b i : Nat} (ha : a * t.width < t.cols)
include ht hfuel ha

theorem passed_elements (hi : i < N) (s : Submit M N) :
    ∃ s', (withinTile (a * t.width) t.width t.colLimit (element i)).run fuel (a * t.width) s
      = some s' ∧ Passed s (a * t.width) i (t.colEnd a) s' := by
  refine withinTile_run ht.cols_clipped ht.cols_int ha (Passed s (a * t.width) i)
    (fun j s' hcol hj h => h.element hi ?_ hcol) (Passed.refl s _ i) ht.pos
    (Nat.lt_of_le_of_lt (Nat.le_max_left _ _) hfuel)
  exact Nat.lt_of_lt_of_le (Nat.lt_of_lt_of_le hj (Nat.min_le_right _ _)) ht.cols_le

/-- **A row of a tile.** -/
theorem Filled.row {s s₁ : Submit M N} (h : t.Filled a b s i s₁) (hb : b * t.width ≤ i)
    (hi : i < t.rowEnd b) :
    ∃ s₂, t.row fuel (a * t.width) (b * t.width) i s₁ = some s₂ ∧ t.Filled a b s (i + 1) s₂ := by
  have hrow : i < b * t.width + t.width := Nat.lt_of_lt_of_le hi (Nat.min_le_left _ _)
  have hiN : i < N :=
    Nat.lt_of_lt_of_le (Nat.lt_of_lt_of_le hi (Nat.min_le_right _ _)) ht.rows_le
  have hend : t.colEnd a ≤ a * t.width + t.width := Nat.min_le_left _ _
  obtain ⟨s₂, hs₂, hpassed⟩ := passed_elements ht hfuel ha hiN s₁
  unfold Tiling.row
  rw [hs₂, Option.bind_eq_bind, Option.bind_some]
  by_cases hab : a = b
  · subst hab
    -- the element at `diagonal` is of this row, or in its place since an earlier one
    have hheld : s₂.Held ∧ a * t.width ≤ s₂.diagonal ∧ s₂.diagonal < i + 1 ∧
        s₂.diagonal < t.colEnd a ∧ (i < t.colEnd a → s₂.diagonal = i) ∧
        (t.colEnd a ≤ i → s₂.diagonal < i) := by
      by_cases hdiag : i < t.colEnd a
      · obtain ⟨hd, hheld⟩ := hpassed.met hb hdiag
        exact ⟨hheld, by omega, by omega, by omega, fun _ => hd, fun _ => by omega⟩
      · obtain ⟨hd, htemp⟩ := hpassed.unmet fun hin => hdiag hin.2
        have hlt : a * t.width < t.colEnd a := Nat.lt_min.mpr ⟨by have := ht.pos; omega, ha⟩
        obtain ⟨hheld, hle, hlt', hend'⟩ := h.held rfl (by omega)
        refine ⟨hheld.congr hpassed.copied.source hd htemp, ?_⟩
        omega
    obtain ⟨hheld, hle, hlt, hlt', hthis, hearlier⟩ := hheld
    obtain ⟨s₃, hs₃, hcopied, hd, hheld'⟩ := hheld.put
    refine ⟨s₃, by rw [if_pos rfl, hs₃], ?_, fun _ _ => ⟨hheld', by omega⟩⟩
    refine ((h.copied.comp hpassed.copied).comp hcopied).congr fun r c _ _ => ?_
    omega
  · have hoff : ¬ b * t.width = a * t.width := fun heq =>
      hab (Nat.eq_of_mul_eq_mul_right ht.pos heq.symm)
    refine ⟨s₂, by rw [if_neg hoff]; rfl, ?_, fun heq => (hab heq).elim⟩
    -- the row does not meet the diagonal
    have hmeet : ¬ (a * t.width ≤ i ∧ i < a * t.width + t.width) := by
      rintro ⟨hle, hlt⟩
      have hia : i / t.width = a := Nat.div_eq_of_lt_le hle (by rw [Nat.succ_mul]; exact hlt)
      have hib : i / t.width = b := Nat.div_eq_of_lt_le hb (by rw [Nat.succ_mul]; exact hrow)
      exact hab (hia.symm.trans hib)
    refine (h.copied.comp hpassed.copied).congr fun r c _ _ => ?_
    omega

/-- **A tile.** -/
theorem tile_copied (hb : b * t.width < t.rows) (s : Submit M N) :
    ∃ s', t.tile fuel (a * t.width) (b * t.width) s = some s' ∧
      Copied (fun r c => (b * t.width ≤ c ∧ c < t.rowEnd b) ∧ a * t.width ≤ r ∧ r < t.colEnd a)
        s.toMatrices s'.toMatrices := by
  obtain ⟨s', hs', hfilled⟩ := withinTile_run ht.rows_clipped ht.rows_int hb (t.Filled a b s)
    (fun i s₁ hrow hi h => h.row ht hfuel ha hrow hi) (Filled.refl t a b s) ht.pos
    (Nat.lt_of_le_of_lt (Nat.le_max_right _ _) hfuel)
  exact ⟨s', hs', hfilled.copied⟩

/-- **The tiles of a column.** -/
theorem column_copied (s : Submit M N) :
    ∃ s', t.column fuel (a * t.width) s = some s' ∧
      Copied (fun r c => c < t.rows ∧ a * t.width ≤ r ∧ r < t.colEnd a)
        s.toMatrices s'.toMatrices := by
  have hbody : ∀ b s₁, b * t.width < t.rows →
      Copied (fun r c => c < min (b * t.width) t.rows ∧ a * t.width ≤ r ∧ r < t.colEnd a)
        s.toMatrices s₁.toMatrices →
      ∃ s₂, t.tile fuel (a * t.width) (b * t.width) s₁ = some s₂ ∧
        Copied (fun r c => c < min ((b + 1) * t.width) t.rows ∧ a * t.width ≤ r ∧ r < t.colEnd a)
          s.toMatrices s₂.toMatrices := by
    intro b s₁ hb hs₁
    obtain ⟨s₂, hs₂, hcopied⟩ := tile_copied ht hfuel ha hb s₁
    refine ⟨s₂, hs₂, (hs₁.comp hcopied).congr fun r c _ _ => ?_⟩
    rw [Nat.succ_mul, rowEnd]
    omega
  obtain ⟨s', hs', hcopied⟩ := upTo_run
    (fun b (s' : Submit M N) => Copied (fun r c => c < min (b * t.width) t.rows ∧
      a * t.width ≤ r ∧ r < t.colEnd a) s.toMatrices s'.toMatrices)
    ht.pos ht.rows_int hbody (Copied.refl fun r c h => by omega)
    (Nat.lt_of_le_of_lt (Nat.le_max_right _ _) hfuel)
  rw [min_ceilDiv ht.pos] at hcopied
  exact ⟨s', hs', hcopied⟩

end Tiles

/-- **All tiles.** -/
theorem tiles_copied {t : Tiling} (ht : t.Fits M N) {fuel : Nat} (hfuel : max t.cols t.rows < fuel)
    (s : Submit M N) : ∃ s', t.tiles fuel s = some s' ∧
      Copied (fun r c => r < t.cols ∧ c < t.rows) s.toMatrices s'.toMatrices := by
  have hbody : ∀ a s₁, a * t.width < t.cols →
      Copied (fun r c => r < min (a * t.width) t.cols ∧ c < t.rows) s.toMatrices s₁.toMatrices →
      ∃ s₂, t.column fuel (a * t.width) s₁ = some s₂ ∧
        Copied (fun r c => r < min ((a + 1) * t.width) t.cols ∧ c < t.rows)
          s.toMatrices s₂.toMatrices := by
    intro a s₁ ha hs₁
    obtain ⟨s₂, hs₂, hcopied⟩ := column_copied ht hfuel ha s₁
    refine ⟨s₂, hs₂, (hs₁.comp hcopied).congr fun r c _ _ => ?_⟩
    rw [Nat.succ_mul, colEnd]
    omega
  obtain ⟨s', hs', hcopied⟩ := upTo_run
    (fun a (s' : Submit M N) => Copied (fun r c => r < min (a * t.width) t.cols ∧ c < t.rows)
      s.toMatrices s'.toMatrices)
    ht.pos ht.cols_int hbody (Copied.refl fun r c h => by omega)
    (Nat.lt_of_le_of_lt (Nat.le_max_left _ _) hfuel)
  rw [min_ceilDiv ht.pos] at hcopied
  exact ⟨s', hs', hcopied⟩

/-- Of a column that cannot even be begun, the first element of the first tile is reached. -/
theorem tiles_eq_none {t : Tiling} {fuel a : Nat} (hpos : 0 < t.width) (hcol : a * t.width < t.cols)
    (hint : a * t.width < 2 ^ 31) (hrows : 0 < t.rows) (hrows_int : t.rows + t.width ≤ 2 ^ 31)
    (hclip : Clipped t.rowLimit t.width t.rows)
    (hfault : ∀ s : Submit M N,
      (withinTile (a * t.width) t.width t.colLimit (element 0)).run fuel (a * t.width) s = none)
    (s : Submit M N) : t.tiles fuel s = none := by
  have hrow : ∀ s : Submit M N, t.row fuel (a * t.width) 0 0 s = none := by
    intro s
    rw [Tiling.row, hfault s]
    rfl
  have htile : ∀ s : Submit M N, t.tile fuel (a * t.width) 0 s = none := by
    intro s
    have hguard : (withinTile (0 * t.width) t.width t.rowLimit
        (t.row (M := M) (N := N) fuel (a * t.width) 0)).guard 0 = _ :=
      withinTile_guard hclip hrows_int (by omega) 0
    rw [Nat.zero_mul, decide_eq_true (by omega)] at hguard
    exact Loop.run_fault (ForLoop.round_of_body hguard (hrow s)) fuel
  have hcolumn : ∀ s : Submit M N, t.column fuel (a * t.width) s = none := by
    intro s
    have hguard : (upTo t.rows t.width (t.tile (M := M) (N := N) fuel (a * t.width))).guard 0
      = some true := congrArg some (decide_eq_true hrows)
    exact Loop.run_fault (ForLoop.round_of_body hguard (htile s)) fuel
  have hleads : (upTo t.cols t.width (t.column (M := M) (N := N) fuel)).Leads 0 t.width a :=
    upTo_leads (fun k hk => Nat.lt_of_le_of_lt (Nat.mul_le_mul_right _ hk.le) hcol) hint
  refine hleads.run_eq_none (fun s => ?_) fuel s
  rw [Nat.zero_add]
  exact ForLoop.round_of_body (congrArg some (decide_eq_true hcol)) (hcolumn s)

end Tiling

/-! ## The last branch -/

theorem tilingElse_fits (hM : M ≤ 2 ^ 31 - 16) (hN : N ≤ 2 ^ 31 - 16) :
    (tilingElse M N).Fits M N where
  pos := Nat.succ_pos 15
  cols_le := Nat.le_refl M
  rows_le := Nat.le_refl N
  cols_int := by change M + 16 ≤ 2 ^ 31; omega
  rows_int := by change N + 16 ≤ 2 ^ 31; omega
  cols_clipped := .inl rfl
  rows_clipped := .inl rfl

/-- The function comes to an end without a fault, and `A` is as it was and `B` its transpose. -/
def Transposes (f : Nat → Matrices M N → Option (Matrices M N)) (m : Matrices M N) : Prop :=
  ∃ n, ∀ fuel ≥ n, f fuel m = some { m with B := m.A.transpose }

theorem Copied.eq_transpose {m m' : Matrices M N} (h : Copied (fun r c => r < M ∧ c < N) m m') :
    m' = { m with B := m.A.transpose } := by
  obtain ⟨A, B⟩ := m'
  have hB : B = m.A.transpose := funext fun r => funext fun c => h.copied r c ⟨r.isLt, c.isLt⟩
  rw [hB, show A = m.A from h.source]

theorem transposes_trans (hM : M < 2 ^ 31) (hN : N < 2 ^ 31) (m : Matrices M N) :
    Transposes trans m := by
  refine ⟨max M N + 1, fun fuel hfuel => ?_⟩
  obtain ⟨m', hm', hcopied⟩ := trans_copied hM hN hfuel m
  rw [hm', (hcopied.congr fun r c hr hc => iff_of_true trivial ⟨hr, hc⟩).eq_transpose]

/-- **The tiled transpose is the plain one** when its last branch does the work and the `int`s
have room for a tile more. -/
theorem transposeSubmit_transposes (hM : M ≤ 2 ^ 31 - 16) (hN : N ≤ 2 ^ 31 - 16) (h32 : N ≠ 32)
    (h64 : N ≠ 64) (m : Matrices M N) :
    Transposes transposeSubmit m ∧ Transposes trans m := by
  refine ⟨⟨max M N + 1, fun fuel hfuel => ?_⟩, transposes_trans (by omega) (by omega) m⟩
  obtain ⟨s', hs', hcopied⟩ := Tiling.tiles_copied (tilingElse_fits hM hN) hfuel
    { m with diagonal := 0, temp := 0 }
  rw [transposeSubmit, if_neg h32, if_neg h64, hs', Option.map_some, hcopied.eq_transpose]

def numbered (M N : Nat) : Matrices M N :=
  { A := .of fun i j => Int32.ofNat (1000 * i + j), B := .of fun _ _ => -1 }

theorem numbered_transposed :
    Transposes transposeSubmit (numbered 61 67) ∧ Transposes trans (numbered 61 67) :=
  transposeSubmit_transposes (by decide) (by decide) (by decide) (by decide) _

/-- For the last tile of a row of `2 ^ 31 - 15` elements, `column + 16` is no `int`. -/
theorem wide_not_transposed : (1 ≤ 2 ^ 31 - 15 ∧ 2 ^ 31 - 15 < 2 ^ 31) ∧
    ¬ Transposes transposeSubmit (numbered (2 ^ 31 - 15) 1) := by
  refine ⟨by decide, fun ⟨n, hn⟩ => ?_⟩
  have hfault : ∀ s : Submit (2 ^ 31 - 15) 1, (withinTile ((2 ^ 27 - 1) * 16) 16
      (some (2 ^ 31 - 15)) (element 0)).run n ((2 ^ 27 - 1) * 16) s = none := by
    intro s
    exact Loop.run_fault (ForLoop.round_of_guard (withinTile_guard_eq_none (by decide) _) s) n
  have hnone := Tiling.tiles_eq_none (t := tilingElse (2 ^ 31 - 15) 1) (by decide) (by decide)
    (by decide) (by decide) (by decide) (.inl rfl) hfault
    { numbered (2 ^ 31 - 15) 1 with diagonal := 0, temp := 0 }
  have hsome := hn n (Nat.le_refl n)
  rw [transposeSubmit, if_neg (by decide), if_neg (by decide), hnone] at hsome
  cases hsome

end InternetLabs.Cache
