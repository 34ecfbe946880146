/-
# `InternetLabs.Cache.FastPath` — the transposes for `N == 32` and `N == 64`

These branches look at `N` only, and take it for both bounds.  With `M` smaller than `N` they
read behind the rows of `A`; with `M` larger the rows of `B` from `N` on are left as they were.
`test-trans` takes both.
-/
import InternetLabs.Cache.Tiled

namespace InternetLabs.Cache

open InternetLabs

variable {M N : Nat}

/-- The dimensions that `main` of `test-trans` goes on with. -/
def testTransAccepts (M N : Int) : Bool :=
  let maxN := 256
  !(M == 0 || N == 0) && !(decide (M > maxN) || decide (N > maxN))

/-- The two functions come to an end without a fault, and leave the same matrix in `B`. -/
def LikeTrans (m : Matrices M N) : Prop :=
  ∃ n, ∀ fuel ≥ n, ∃ m₁ m₂, transposeSubmit fuel m = some m₁ ∧ trans fuel m = some m₂ ∧
    m₁.B = m₂.B

/-- Without second halves of the guards, whole tiles fill a square of `N` rows and columns. -/
theorem square_fits {w : Nat} (hpos : 0 < w) (hdvd : w ∣ N) (hint : N + w ≤ 2 ^ 31) (hle : N ≤ M) :
    Tiling.Fits { width := w, cols := N, rows := N, colLimit := none, rowLimit := none } M N where
  pos := hpos
  cols_le := hle
  rows_le := Nat.le_refl N
  cols_int := hint
  rows_int := hint
  cols_clipped := .inr ⟨rfl, hdvd⟩
  rows_clipped := .inr ⟨rfl, hdvd⟩

/-- The fast path of `N`, whichever it is. -/
structure FastPath (N : Nat) (t : Tiling) : Prop where
  cols : t.cols = N
  rows : t.rows = N
  fits : ∀ {M}, N ≤ M → t.Fits M N
  run : ∀ {M} (fuel : Nat) (m : Matrices M N), transposeSubmit fuel m
    = (t.tiles fuel { m with diagonal := 0, temp := 0 }).map Submit.toMatrices

theorem exists_fastPath (hN : N = 32 ∨ N = 64) : ∃ t, FastPath N t := by
  rcases hN with h32 | h64
  · exact ⟨tiling32 N, rfl, rfl, square_fits (Nat.succ_pos 7) (by omega) (by omega),
      fun fuel m => by rw [transposeSubmit, if_pos h32]⟩
  · have h32 : N ≠ 32 := by omega
    exact ⟨tiling64 N, rfl, rfl, square_fits (Nat.succ_pos 3) (by omega) (by omega),
      fun fuel m => by rw [transposeSubmit, if_neg h32, if_pos h64]⟩

/-- **With `N` columns or more**, the first `N` of them are transposed. -/
theorem transposeSubmit_copied (hN : N = 32 ∨ N = 64) (hle : N ≤ M) {fuel : Nat} (hfuel : N < fuel)
    (m : Matrices M N) :
    ∃ m', transposeSubmit fuel m = some m' ∧ Copied (fun r _ => r < N) m m' := by
  obtain ⟨t, ht⟩ := exists_fastPath hN
  have hmax : max t.cols t.rows < fuel := by rwa [ht.cols, ht.rows, Nat.max_self]
  obtain ⟨s', hs', hcopied⟩ := Tiling.tiles_copied (ht.fits hle) hmax
    { m with diagonal := 0, temp := 0 }
  rw [ht.cols, ht.rows] at hcopied
  exact ⟨s'.toMatrices, by rw [ht.run, hs', Option.map_some],
    hcopied.congr fun _ _ _ hc => and_iff_left hc⟩

theorem element_eq_none {i j : Nat} (h : M ≤ j) (s : Submit M N) : element i j s = none := by
  unfold element
  rw [s.load_eq_none h]
  split <;> rfl

/-- **With fewer columns**, the loop over the first row gets to an element that is not there. -/
theorem tiles_narrow {t : Tiling} (ht : t.Fits N N) (hcols : M < t.cols) (hrows : 0 < t.rows)
    (fuel : Nat) (s : Submit M N) : t.tiles fuel s = none := by
  have hle : M / t.width * t.width ≤ M := Nat.div_mul_le_self M t.width
  have hlt : M < M / t.width * t.width + t.width := Nat.lt_div_mul_add ht.pos
  have hint := ht.cols_int
  refine Tiling.tiles_eq_none (a := M / t.width) ht.pos (by omega) (by omega) hrows ht.rows_int
    ht.rows_clipped (fun s => ?_) s
  -- the guard knows nothing of `M`
  have hguard : ∀ k ≤ M, (withinTile (M / t.width * t.width) t.width t.colLimit
      (element (M := M) (N := N) 0)).guard k = some true := by
    intro k hk
    rw [withinTile_guard ht.cols_clipped ht.cols_int (by omega), decide_eq_true (by omega)]
  obtain ⟨n, hn⟩ : ∃ n, M = M / t.width * t.width + n := ⟨M - M / t.width * t.width, by omega⟩
  have hleads : (withinTile (M / t.width * t.width) t.width t.colLimit
      (element (M := M) (N := N) 0)).Leads (M / t.width * t.width) 1 n := by
    refine ⟨fun k hk => hguard _ (by omega), fun k hk => ?_⟩
    rw [Nat.mul_one, Nat.mul_one]
    exact intAdd_of_lt (by omega)
  refine hleads.run_eq_none (fun s => ?_) fuel s
  rw [Nat.mul_one]
  exact ForLoop.round_of_body (hguard _ (by omega)) (element_eq_none (by omega) s)

theorem transposeSubmit_narrow (hN : N = 32 ∨ N = 64) (hlt : M < N) (fuel : Nat)
    (m : Matrices M N) : transposeSubmit fuel m = none := by
  obtain ⟨t, ht⟩ := exists_fastPath hN
  have hcols : M < t.cols := by rwa [ht.cols]
  have hrows : 0 < t.rows := by rw [ht.rows]; exact Nat.zero_lt_of_lt hlt
  rw [ht.run, tiles_narrow (ht.fits (Nat.le_refl N)) hcols hrows, Option.map_none]

theorem Copied.eq_transpose_iff {m m' : Matrices M N} (h : Copied (fun r _ => r < N) m m') :
    m'.B = m.A.transpose ↔ ∀ (r : Fin M) (c : Fin N), N ≤ r → m.B r c = m.A c r := by
  constructor
  · intro hB r c hr
    rw [← h.kept r c (Nat.not_lt.mpr hr), hB, Matrix.transpose_apply]
  · intro hrest
    funext r c
    rcases Nat.lt_or_ge r N with hr | hr
    · exact h.copied r c hr
    · rw [h.kept r c (Nat.not_lt.mpr hr), hrest r c hr, Matrix.transpose_apply]

theorem likeTrans_iff_of_le (hN : N = 32 ∨ N = 64) (hle : N ≤ M) (hM : M < 2 ^ 31)
    (m : Matrices M N) :
    LikeTrans m ↔ ∀ (r : Fin M) (c : Fin N), N ≤ r → m.B r c = m.A c r := by
  obtain ⟨n₀, hplain⟩ := transposes_trans hM (by omega) m
  constructor
  · rintro ⟨n, hn⟩
    obtain ⟨m₁, m₂, h₁, h₂, hB⟩ := hn (n + n₀ + N + 1) (by omega)
    have hfuel : N < n + n₀ + N + 1 := by omega
    obtain ⟨m', hm', hcopied⟩ := transposeSubmit_copied hN hle hfuel m
    rw [h₁] at hm'
    rw [hplain _ (by omega)] at h₂
    cases hm'
    cases h₂
    exact hcopied.eq_transpose_iff.mp hB
  · intro hrest
    refine ⟨n₀ + N + 1, fun fuel hfuel => ?_⟩
    have hlt : N < fuel := by omega
    obtain ⟨m', hm', hcopied⟩ := transposeSubmit_copied hN hle hlt m
    exact ⟨m', _, hm', hplain fuel (by omega), hcopied.eq_transpose_iff.mpr hrest⟩

theorem not_likeTrans_narrow (hN : N = 32 ∨ N = 64) (hlt : M < N) (m : Matrices M N) :
    ¬ LikeTrans m := by
  rintro ⟨n, hn⟩
  obtain ⟨m₁, m₂, h₁, -⟩ := hn n (Nat.le_refl n)
  rw [transposeSubmit_narrow hN hlt] at h₁
  cases h₁

theorem le_of_testTransAccepts (h : testTransAccepts M N = true) : M ≤ 256 := by
  simp only [testTransAccepts, Bool.and_eq_true, Bool.not_eq_true', Bool.or_eq_false_iff,
    decide_eq_false_iff_not] at h
  omega

/-- **When the fast paths agree with the plain transpose**: the matrices are square, or the
rows of `B` that are left out hold the transpose already. -/
theorem likeTrans_iff (hN : N = 32 ∨ N = 64) (haccepts : testTransAccepts M N = true)
    (m : Matrices M N) :
    LikeTrans m ↔ M = N ∨ N < M ∧ ∀ (r : Fin M) (c : Fin N), N ≤ r → m.B r c = m.A c r := by
  have hM := le_of_testTransAccepts haccepts
  rcases Nat.lt_trichotomy M N with hlt | heq | hgt
  · exact iff_of_false (not_likeTrans_narrow hN hlt m) (by omega)
  · have hnone : ∀ (r : Fin M) (c : Fin N), N ≤ r → m.B r c = m.A c r :=
      fun r _ hr => absurd (heq ▸ r.isLt) (Nat.not_lt.mpr hr)
    exact iff_of_true ((likeTrans_iff_of_le hN heq.ge (by omega) m).mpr hnone) (.inl heq)
  · rw [likeTrans_iff_of_le hN hgt.le (by omega) m]
    exact ⟨fun h => .inr ⟨hgt, h⟩, fun h => (h.resolve_left hgt.ne').2⟩

theorem numbered_likeTrans : (testTransAccepts 64 64 = true ∧ testTransAccepts 31 32 = true) ∧
    LikeTrans (numbered 64 64) ∧ ¬ LikeTrans (numbered 31 32) :=
  ⟨by decide, (likeTrans_iff (.inr rfl) (by decide) _).mpr (.inl rfl),
    fun h => absurd ((likeTrans_iff (.inl rfl) (by decide) _).mp h) (by omega)⟩

/-- Rows 32 to 63 of `B` are left as they were. -/
theorem wide_not_likeTrans : testTransAccepts 64 32 = true ∧ ¬ LikeTrans (numbered 64 32) := by
  refine ⟨by decide, fun h => ?_⟩
  have hrest := (likeTrans_iff_of_le (.inl rfl) (by decide) (by decide) _).mp h
  have helement : (numbered 64 32).B 32 0 = (numbered 64 32).A 0 32 := hrest 32 0 (by decide)
  revert helement
  decide

end InternetLabs.Cache
