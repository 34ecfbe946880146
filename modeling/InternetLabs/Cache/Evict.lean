/-
# `InternetLabs.Cache.Evict` — the configurations the simulator is right for

With one line a set has one victim to choose, and with as many lines as there are
tags it never has to choose.  For every other configuration `tieTrace` is a trace
the simulator gets wrong: fill a set with the tags 0, 1, …, `E - 1`, access 0
again, so that the counters of 0 and 1 are both 2 and 0 is in the lower line, and
let the tag `E` in.  The simulator evicts 0, the one just accessed; the next
access to 0 tells.
-/
import InternetLabs.Cache.Bookkeeping

namespace InternetLabs.Cache

open InternetLabs

/-! ## Where it cannot go wrong

With one line to a set there is no choice, and with as many lines as tags no eviction. -/

section Right
variable {cfg : Config}

/-- The number of tags addresses below `2 ^ 31` have in a set. -/
def Config.tagCount (cfg : Config) : Nat := 2 ^ (31 - (cfg.setBits + cfg.dataBits))

theorem Config.Ok.tagOf_lt (h : cfg.Ok) {address : UInt32} (ha : address.toNat < 2 ^ 31) :
    ∃ n < cfg.tagCount, cfg.tagOf address = (n : Int) := by
  have hbits := h.bits
  refine ⟨_, ?_, rfl⟩
  rw [Config.tagCount, Nat.div_div_eq_div_mul]
  refine Nat.div_lt_of_lt_mul ?_
  rw [← Nat.pow_add, ← Nat.pow_add, show cfg.dataBits + cfg.setBits
    + (31 - (cfg.setBits + cfg.dataBits)) = 31 by omega]
  exact ha

/-- The tags 0, 1, …, `n - 1`. -/
def natTags (n : Nat) : List Int := (List.range n).map (↑)

theorem mem_natTags {n : Nat} {t : Int} : t ∈ natTags n ↔ ∃ k < n, t = (k : Int) := by
  simp only [natTags, List.mem_map, List.mem_range]
  exact exists_congr fun k => and_congr_right fun _ => eq_comm

theorem notMem_natTags {n k : Nat} (h : n ≤ k) : (k : Int) ∉ natTags n := by
  rw [mem_natTags]
  rintro ⟨i, hi, heq⟩
  have := Int.ofNat.inj heq
  omega

@[simp] theorem length_natTags (n : Nat) : (natTags n).length = n := by simp [natTags]

theorem natTags_succ (n : Nat) : natTags (n + 1) = natTags n ++ [(n : Int)] := by
  rw [natTags, List.range_succ, List.map_append]
  rfl

theorem nodup_natTags (n : Nat) : (natTags n).Nodup :=
  List.nodup_range.map fun _ _ h => Int.ofNat.inj h

theorem victimIsOldest_of_one {lines : List Line} {tags : List Int} (h : Agree 1 lines tags)
    (hfull : 1 ≤ tags.length) : VictimIsOldest lines tags := by
  obtain ⟨l, rfl⟩ := List.length_eq_one_iff.mp h.length
  have hperm := h.perm
  cases hv : l.valid with
  | false =>
      rw [validTags_cons_of_invalid hv, validTags_nil] at hperm
      rw [← hperm.nil_eq] at hfull
      exact absurd hfull (by decide)
  | true =>
      rw [validTags_cons_of_valid hv, validTags_nil] at hperm
      refine ⟨l, by simp [findLRU, findLRULoop], ?_⟩
      rw [← List.singleton_perm.mp hperm]
      rfl

/-- A set of as many lines as there are tags is not full without a tag. -/
theorem length_lt_of_tags {tags : List Int} {t : Int} {n : Nat} (hnodup : tags.Nodup)
    (hlt : ∀ x ∈ tags, ∃ k < n, x = (k : Int)) (ht : t ∉ tags) (htn : ∃ k < n, t = (k : Int)) :
    tags.length < n := by
  have hsub : (t :: tags) ⊆ natTags n := by
    intro x hx
    rw [mem_natTags]
    rcases List.mem_cons.mp hx with rfl | hx
    · exact htn
    · exact hlt x hx
  have := (List.subperm_of_subset (List.nodup_cons.mpr ⟨ht, hnodup⟩) hsub).length_le
  rw [List.length_cons, length_natTags] at this
  exact this

theorem evictsOldest_of_config (h : cfg.Ok)
    (hcfg : cfg.numLines = 1 ∨ cfg.tagCount ≤ cfg.numLines) {trace : List UInt32}
    (htrace : ∀ a ∈ trace, a.toNat < 2 ^ 31) {sim : Sim} {ref : Lru.Cache Nat Int}
    (ha : Agrees cfg sim ref)
    (htags : ∀ i, ∀ t ∈ ref.sets i, ∃ n < cfg.tagCount, t = (n : Int)) :
    EvictsOldest cfg sim ref trace := by
  induction trace generalizing sim ref with
  | nil => trivial
  | cons address rest ih =>
      have haddr := htrace address List.mem_cons_self
      have hlt := h.tagOf_lt haddr
      have hold : cfg.tagOf address ∉ ref.sets (cfg.setOf address) →
          cfg.numLines ≤ (ref.sets (cfg.setOf address)).length →
          VictimIsOldest (sim.sets (cfg.setOf address)) (ref.sets (cfg.setOf address)) := by
        intro hmem hfull
        rcases hcfg with hone | hmany
        · rw [hone] at hfull
          exact victimIsOldest_of_one (hone ▸ ha.sets _) hfull
        · have := length_lt_of_tags (ha.sets _).nodup (htags _) hmem hlt
          omega
      refine ⟨hold, ih (fun a hmem => htrace a (List.mem_cons_of_mem _ hmem))
        (ha.step h haddr hold) ?_⟩
      intro i t ht
      simp only [reference, Lru.Cache.access] at ht
      by_cases hi : i = cfg.setOf address
      · subst hi
        rw [Function.update_self] at ht
        rcases Lru.mem_of_mem_touch ht with rfl | ht
        · exact hlt
        · exact htags _ t ht
      · rw [Function.update_of_ne hi] at ht
        exact htags i t ht

end Right

/-! ## Where it does

In all other configurations a set is filled and its first line hit once more.  Then two
counters are the same, and the first line is the victim. -/

section Wrong
variable {lines : List Line}

theorem findLRULoop_maxUsed {n : Nat} (hle : ∀ l ∈ lines, l.accessCount ≤ n) (i : Nat)
    {s : LruScan} (hs : s.maxUsed ≤ n)
    (hmem : s.maxUsed = n ∨ ∃ l ∈ lines, l.accessCount = n) :
    (findLRULoop lines i s).maxUsed = n := by
  induction lines generalizing i s with
  | nil => exact hmem.resolve_right (by simp)
  | cons l ls ih =>
      rw [findLRULoop]
      have hl := hle l List.mem_cons_self
      refine ih (fun x hx => hle x (List.mem_cons_of_mem l hx)) (i + 1) ?_ ?_
      · split <;> split <;> simp_all
      · rcases hmem with h | ⟨x, hx, hxn⟩
        · left
          split <;> split <;> simp_all <;> omega
        · rcases List.mem_cons.mp hx with rfl | hx
          · left
            split <;> split <;> simp_all <;> omega
          · exact .inr ⟨x, hx, hxn⟩

theorem findLRU_maxUsed {n : Nat} (hle : ∀ l ∈ lines, l.accessCount ≤ n)
    (hmem : ∃ l ∈ lines, l.accessCount = n) : (findLRU lines).maxUsed = n := by
  refine findLRULoop_maxUsed hle 0 ?_ (.inr hmem)
  obtain ⟨l, hl, -⟩ := hmem
  cases lines with
  | nil => cases hl
  | cons l' ls => exact hle l' List.mem_cons_self

theorem findLRULoop_lruIndex (i : Nat) {s : LruScan}
    (h : ∀ l ∈ lines, s.minUsed ≤ l.accessCount) : (findLRULoop lines i s).lruIndex
    = s.lruIndex := by
  induction lines generalizing i s with
  | nil => rfl
  | cons l ls ih =>
      have hl : ¬ s.minUsed > l.accessCount := Nat.not_lt_of_le (h l List.mem_cons_self)
      have hrest : ∀ x ∈ ls, s.minUsed ≤ x.accessCount := fun x hx =>
        h x (List.mem_cons_of_mem l hx)
      rw [findLRULoop, if_neg hl]
      split
      · exact @ih (i + 1) { s with maxUsed := l.accessCount } hrest
      · exact @ih (i + 1) s hrest

/-- `findLRU` picks the first line if no counter is smaller than its. -/
theorem findLRU_lruIndex {l : Line} (h : ∀ x ∈ l :: lines, l.accessCount ≤ x.accessCount) :
    (findLRU (l :: lines)).lruIndex = 0 :=
  findLRULoop_lruIndex 0 h

/-- The line that held the tag `i` since it was filled. -/
def filledLine (i : Nat) : Line := { valid := true, accessCount := i + 1, tag := i }

/-- A set of `cap` lines after the tags 0, 1, …, `k - 1`. -/
def filled (cap k : Nat) : List Line :=
  (List.range k).map filledLine ++ List.replicate (cap - k) .init

theorem validTags_filled (cap k : Nat) : validTags (filled cap k) = natTags k := by
  have hvalid : ((List.range k).map filledLine).filter (·.valid) = (List.range k).map filledLine :=
    List.filter_eq_self.mpr fun l hl => by
      obtain ⟨i, -, rfl⟩ := List.mem_map.mp hl
      rfl
  have hinit : (List.replicate (cap - k) Line.init).filter (·.valid) = [] := by
    rw [List.filter_replicate]
    rfl
  rw [validTags, filled, List.filter_append, hvalid, hinit, List.append_nil, List.map_map]
  rfl

theorem modify_append_cons {α : Type*} (xs : List α) (x : α) (ys : List α) (f : α → α) :
    (xs ++ x :: ys).modify xs.length f = xs ++ f x :: ys := by
  induction xs with
  | nil => rfl
  | cons y xs ih => simp [ih]

theorem findLRU_filled {cap k : Nat} (hk : k < cap) : (findLRU (filled cap k)).maxUsed = k := by
  refine findLRU_maxUsed ?_ ?_
  · intro l hl
    rcases List.mem_append.mp hl with hl | hl
    · obtain ⟨i, hi, rfl⟩ := List.mem_map.mp hl
      exact List.mem_range.mp hi
    · rw [List.eq_of_mem_replicate hl]
      exact Nat.zero_le k
  · cases k with
    | zero =>
        refine ⟨.init, List.mem_append_right _ ?_, rfl⟩
        exact List.mem_replicate.mpr ⟨by omega, rfl⟩
    | succ k =>
        refine ⟨filledLine k, List.mem_append_left _ (List.mem_map.mpr ⟨k, ?_, rfl⟩), rfl⟩
        exact List.mem_range.mpr (Nat.lt_succ_self k)

theorem accessSet_filled {cap k : Nat} (hk : k < cap) (tally : Lru.Tally) :
    accessSet (filled cap k) k tally = (filled cap (k + 1), tally.add .fill) := by
  obtain ⟨j, hj⟩ : ∃ j, cap - k = j + 1 := ⟨cap - k - 1, by omega⟩
  have hsplit : filled cap k = (List.range k).map filledLine
      ++ .init :: List.replicate j .init := by
    rw [filled, hj, List.replicate_succ]
  have hnew : (k : Int) ∉ validTags (filled cap k) := by
    rw [validTags_filled]
    exact notMem_natTags (Nat.le_refl k)
  have hall : ¬ (filled cap k).all (·.valid) = true := by
    rw [hsplit]
    simp [Line.init]
  have hempty : findEmptyLine (filled cap k) = some k := by
    have hnone : ((List.range k).map filledLine).findIdx? (fun l => !l.valid) = none := by
      rw [List.findIdx?_eq_none_iff]
      intro l hl
      obtain ⟨i, -, rfl⟩ := List.mem_map.mp hl
      rfl
    rw [findEmptyLine, hsplit, List.findIdx?_append, hnone]
    simp [List.findIdx?_cons, Line.init]
  have hlen : ((List.range k).map filledLine).length = k := by simp
  have hmodify := modify_append_cons ((List.range k).map filledLine) Line.init
    (List.replicate j .init) fun _ => { valid := true, accessCount := k + 1, tag := k }
  rw [hlen, ← hsplit] at hmodify
  rw [accessSet_miss hnew, if_neg hall, hempty, findLRU_filled hk]
  have hnext : filled cap (k + 1)
      = (List.range k).map filledLine ++ filledLine k :: List.replicate j .init := by
    rw [filled, show cap - (k + 1) = j by omega, List.range_succ, List.map_append,
      List.append_assoc]
    rfl
  rw [hnext]
  exact congrArg (·, tally.add .fill) hmodify

/-- The tags one after the other in one set. -/
def accessAll (lines : List Line) (tally : Lru.Tally) (tags : List Nat) : List Line × Lru.Tally :=
  tags.foldl (fun p (t : Nat) => accessSet p.1 t p.2) (lines, tally)

def touchAll (cap : Nat) (l : List Int) (tally : Lru.Tally) (tags : List Nat) :
    List Int × Lru.Tally :=
  tags.foldl (fun p (t : Nat) => ((Lru.touch cap p.1 t).1, p.2.add (Lru.touch cap p.1 t).2))
    (l, tally)

def tieTags (cap : Nat) : List Nat := List.range cap ++ [0, cap, 0]

theorem accessAll_fill {cap k : Nat} (hk : k ≤ cap) :
    ∃ misses, accessAll (filled cap 0) .zero (List.range k) = (filled cap k, ⟨0, misses, 0⟩) := by
  induction k with
  | zero => exact ⟨0, rfl⟩
  | succ k ih =>
      obtain ⟨misses, hrun⟩ := ih (Nat.le_of_succ_le hk)
      refine ⟨misses + 1, ?_⟩
      rw [accessAll, List.range_succ, List.foldl_append]
      rw [accessAll] at hrun
      rw [hrun]
      exact accessSet_filled hk _

theorem touchAll_fill {cap k : Nat} (hk : k ≤ cap) :
    ∃ misses, touchAll cap [] .zero (List.range k) = ((natTags k).reverse, ⟨0, misses, 0⟩) := by
  induction k with
  | zero => exact ⟨0, rfl⟩
  | succ k ih =>
      obtain ⟨misses, hrun⟩ := ih (Nat.le_of_succ_le hk)
      refine ⟨misses + 1, ?_⟩
      have hnew : (k : Int) ∉ (natTags k).reverse := by
        rw [List.mem_reverse]
        exact notMem_natTags (Nat.le_refl k)
      rw [touchAll, List.range_succ, List.foldl_append]
      rw [touchAll] at hrun
      rw [hrun, List.foldl_cons, List.foldl_nil, Lru.touch_of_lt hnew
        (by rw [List.length_reverse, length_natTags]; exact hk), natTags_succ, List.reverse_append]
      rfl

theorem accessSet_miss_hits {t : Int} {tally : Lru.Tally} (h : t ∉ validTags lines) :
    (accessSet lines t tally).2.hits = tally.hits := by
  rw [accessSet_miss h]
  split
  · rfl
  · split <;> rfl

/-- The lines above the first, never accessed again. -/
def upperLines (n : Nat) : List Line := (List.range n).map fun i => filledLine (i + 1)

theorem validTags_upperLines (n : Nat) : validTags (upperLines n) = (List.range n).map fun i =>
    ((i + 1 : Nat) : Int) := by
  have hvalid : (upperLines n).filter (·.valid) = upperLines n :=
    List.filter_eq_self.mpr fun l hl => by
      obtain ⟨i, -, rfl⟩ := List.mem_map.mp hl
      rfl
  rw [validTags, hvalid, upperLines, List.map_map]
  rfl

theorem zero_notMem_upperLines (n : Nat) : 0 ∉ validTags (upperLines n) := by
  rw [validTags_upperLines, List.mem_map]
  rintro ⟨i, -, h⟩
  exact absurd h (by omega)

theorem filled_full (n : Nat) : filled (n + 1) (n + 1) = filledLine 0 :: upperLines n := by
  rw [filled, Nat.sub_self, List.replicate_zero, List.append_nil, List.range_succ_eq_map,
    List.map_cons, List.map_map]
  rfl

theorem accessSet_tie (n : Nat) (tally : Lru.Tally) :
    accessSet (filled (n + 1) (n + 1)) 0 tally
      = ({ valid := true, accessCount := 2, tag := 0 } :: upperLines n, tally.add .hit) := by
  have hcount : (validTags (filled (n + 1) (n + 1))).count 0 = 1 := by
    rw [validTags_filled]
    exact List.count_eq_one_of_mem (nodup_natTags _) (mem_natTags.mpr ⟨0, Nat.succ_pos n, rfl⟩)
  have hupper : (upperLines n).map (bump 0) = upperLines n :=
    map_bump_of_notMem (zero_notMem_upperLines n)
  rw [accessSet_hit hcount, filled_full, List.map_cons, hupper]
  rfl

theorem accessSet_evict_first (n : Nat) (tally : Lru.Tally) :
    ∃ l : Line, l.valid = true ∧ l.tag = ((n + 1 : Nat) : Int) ∧
      accessSet ({ valid := true, accessCount := 2, tag := 0 } :: upperLines n)
      ((n + 1 : Nat) : Int)
        tally = (l :: upperLines n, tally.add .evict) := by
  have hnew : ((n + 1 : Nat) : Int) ∉
      validTags ({ valid := true, accessCount := 2, tag := 0 } :: upperLines n) := by
    rw [validTags_cons_of_valid rfl, validTags_upperLines, List.mem_cons, List.mem_map]
    rintro (h | ⟨i, hi, h⟩)
    · exact absurd h (by simp only; omega)
    · have := List.mem_range.mp hi
      omega
  have hall : (({ valid := true, accessCount := 2, tag := 0 } : Line) :: upperLines n).all (·.valid)
      = true := by
    rw [List.all_cons, List.all_eq_true.mpr]
    · rfl
    · intro l hl
      obtain ⟨i, -, rfl⟩ := List.mem_map.mp hl
      rfl
  have hfirst : (findLRU ({ valid := true, accessCount := 2, tag := 0 } :: upperLines n)).lruIndex
      = 0 := by
    refine findLRU_lruIndex fun x hx => ?_
    rcases List.mem_cons.mp hx with rfl | hx
    · exact Nat.le_refl 2
    · obtain ⟨i, -, rfl⟩ := List.mem_map.mp hx
      exact Nat.le_add_left 2 i
  rw [accessSet_miss hnew, if_pos hall, hfirst]
  exact ⟨_, rfl, rfl, rfl⟩

theorem accessAll_tieTags (n : Nat) :
    (accessAll (filled (n + 1) 0) .zero (tieTags (n + 1))).2.hits = 1 := by
  obtain ⟨misses, hrun⟩ := accessAll_fill (Nat.le_refl (n + 1))
  rw [accessAll] at hrun
  rw [accessAll, tieTags, List.foldl_append, hrun, List.foldl_cons, Int.natCast_zero, accessSet_tie,
    List.foldl_cons]
  obtain ⟨l, hv, htag, hevict⟩ := accessSet_evict_first n ((⟨0, misses, 0⟩ : Lru.Tally).add .hit)
  rw [hevict, List.foldl_cons, List.foldl_nil]
  have hgone : 0 ∉ validTags (l :: upperLines n) := by
    rw [validTags_cons_of_valid hv, htag, List.mem_cons]
    exact not_or.mpr ⟨by omega, zero_notMem_upperLines n⟩
  rw [Int.natCast_zero, accessSet_miss_hits hgone]
  rfl

theorem touchAll_tieTags (n : Nat) :
    (touchAll (n + 2) [] .zero (tieTags (n + 2))).2.hits = 2 := by
  obtain ⟨misses, hrun⟩ := touchAll_fill (Nat.le_refl (n + 2))
  rw [touchAll] at hrun
  have h0 : 0 ∈ (natTags (n + 2)).reverse := by
    rw [List.mem_reverse, mem_natTags]
    exact ⟨0, Nat.succ_pos _, rfl⟩
  obtain ⟨rest, hrest⟩ : ∃ rest, rest = ((natTags (n + 2)).reverse).erase 0 := ⟨_, rfl⟩
  have hlen : rest.length = n + 1 := by
    rw [hrest, List.length_erase_of_mem h0, List.length_reverse, length_natTags]
    rfl
  have hnew : ((n + 2 : Nat) : Int) ∉ 0 :: rest := by
    intro h
    rcases List.mem_cons.mp h with h | h
    · omega
    · rw [hrest] at h
      exact notMem_natTags (Nat.le_refl _) (List.mem_reverse.mp (List.mem_of_mem_erase h))
  have hkept : 0 ∈ ((n + 2 : Nat) : Int) :: (0 :: rest).dropLast := by
    cases rest with
    | nil => cases hlen
    | cons x xs => simp
  rw [touchAll, tieTags, List.foldl_append, hrun, List.foldl_cons, Int.natCast_zero,
    Lru.touch_of_mem h0, ← hrest, List.foldl_cons,
      Lru.touch_of_full hnew (by rw [List.length_cons]; omega), List.foldl_cons,
    Int.natCast_zero, Lru.touch_of_mem hkept]
  rfl

end Wrong

/-! ## The configurations -/

section Configurations
variable {cfg : Config}

/-- The first address of the block with this tag in set 0. -/
def Config.addressOf (cfg : Config) (tag : Nat) : UInt32 :=
  UInt32.ofNat (tag * 2 ^ (cfg.setBits + cfg.dataBits))

/-- The trace the simulator gets wrong. -/
def tieTrace (cfg : Config) : List UInt32 := (tieTags cfg.numLines).map cfg.addressOf

theorem Config.Ok.toNat_addressOf (h : cfg.Ok) {tag : Nat} (ht : tag < cfg.tagCount) :
    (cfg.addressOf tag).toNat = tag * 2 ^ (cfg.setBits + cfg.dataBits) ∧
      (cfg.addressOf tag).toNat < 2 ^ 31 := by
  have hbits := h.bits
  have hlt : tag * 2 ^ (cfg.setBits + cfg.dataBits) < 2 ^ 31 := by
    have := Nat.mul_lt_mul_of_pos_right ht (Nat.two_pow_pos (cfg.setBits + cfg.dataBits))
    rwa [Config.tagCount, ← Nat.pow_add,
      show 31 - (cfg.setBits + cfg.dataBits) + (cfg.setBits + cfg.dataBits) = 31 by omega] at this
  have heq : (cfg.addressOf tag).toNat = tag * 2 ^ (cfg.setBits + cfg.dataBits) := by
    rw [Config.addressOf, UInt32.toNat_ofNat']
    exact Nat.mod_eq_of_lt (by omega)
  exact ⟨heq, heq ▸ hlt⟩

theorem Config.Ok.setOf_addressOf (h : cfg.Ok) {tag : Nat} (ht : tag < cfg.tagCount) :
    cfg.setOf (cfg.addressOf tag) = 0 ∧ cfg.tagOf (cfg.addressOf tag) = tag := by
  have hblock : tag * 2 ^ (cfg.setBits + cfg.dataBits) / 2 ^ cfg.dataBits
      = tag * 2 ^ cfg.setBits := by
    rw [Nat.pow_add, ← Nat.mul_assoc, Nat.mul_div_cancel _ (Nat.two_pow_pos _)]
  rw [Config.setOf, Config.tagOf, (h.toNat_addressOf ht).1, hblock]
  exact ⟨Nat.mul_mod_left _ _, congrArg _ (Nat.mul_div_cancel _ (Nat.two_pow_pos _))⟩

theorem run_setZero (h : cfg.Ok) {tags : List Nat} (ht : ∀ t ∈ tags, t < cfg.tagCount)
    (sim : Sim) :
    (Sim.run cfg sim (tags.map cfg.addressOf)).tally
      = (accessAll (sim.sets 0) sim.tally tags).2 := by
  induction tags generalizing sim with
  | nil => rfl
  | cons t rest ih =>
      have htag := ht t List.mem_cons_self
      obtain ⟨hset, htagOf⟩ := h.setOf_addressOf htag
      have ih := ih (fun x hx => ht x (List.mem_cons_of_mem t hx))
        (Sim.access cfg sim (cfg.addressOf t))
      rw [Sim.run] at ih
      rw [List.map_cons, Sim.run, List.foldl_cons, ih,
        access_eq h sim (h.toNat_addressOf htag).2, hset, htagOf]
      simp only [Function.update_self]
      rfl

theorem referenceRun_setZero (h : cfg.Ok) {tags : List Nat} (ht : ∀ t ∈ tags, t < cfg.tagCount)
    (ref : Lru.Cache Nat Int) :
    (referenceRun cfg ref (tags.map cfg.addressOf)).tally
      = (touchAll cfg.numLines (ref.sets 0) ref.tally tags).2 := by
  induction tags generalizing ref with
  | nil => rfl
  | cons t rest ih =>
      obtain ⟨hset, htagOf⟩ := h.setOf_addressOf (ht t List.mem_cons_self)
      have ih := ih (fun x hx => ht x (List.mem_cons_of_mem t hx))
        (reference cfg ref (cfg.addressOf t))
      rw [referenceRun] at ih
      rw [List.map_cons, referenceRun, List.foldl_cons, ih, reference, Lru.Cache.access, hset,
        htagOf]
      simp only [Function.update_self]
      rfl

theorem tieTags_lt {tag : Nat} (h : tag ∈ tieTags cfg.numLines) : tag ≤ cfg.numLines := by
  simp only [tieTags, List.mem_append, List.mem_range, List.mem_cons, List.not_mem_nil,
    or_false] at h
  omega

/-- **The tie is counted wrong** wherever there is a line to choose and a tag that
does not fit. -/
theorem tieTrace_wrong (h : cfg.Ok) (hlines : 2 ≤ cfg.numLines)
    (htags : cfg.numLines < cfg.tagCount) :
    (∀ a ∈ tieTrace cfg, a.toNat < 2 ^ 31) ∧
      (Sim.run cfg (Sim.start cfg) (tieTrace cfg)).tally
        ≠ (referenceRun cfg .empty (tieTrace cfg)).tally := by
  have hlt : ∀ tag ∈ tieTags cfg.numLines, tag < cfg.tagCount := fun tag ht => by
    have := tieTags_lt ht
    omega
  refine ⟨fun a ha => ?_, fun heq => ?_⟩
  · obtain ⟨tag, ht, rfl⟩ := List.mem_map.mp ha
    exact (h.toNat_addressOf (hlt tag ht)).2
  · rw [tieTrace, run_setZero h hlt, referenceRun_setZero h hlt] at heq
    obtain ⟨n, hn⟩ : ∃ n, cfg.numLines = n + 2 := ⟨cfg.numLines - 2, by omega⟩
    have hits := congrArg Lru.Tally.hits heq
    rw [hn] at hits
    have hcode := accessAll_tieTags (n + 1)
    have hstart : (Sim.start cfg).sets 0 = filled (n + 2) 0 := by
      rw [Sim.start, hn]
      rfl
    rw [hstart] at hits
    have htwo := touchAll_tieTags n
    exact absurd (hcode.symm.trans (hits.trans htwo)) (by decide)

theorem length_tieTrace (h : cfg.Ok) (htags : cfg.numLines < cfg.tagCount) :
    (tieTrace cfg).length < 2 ^ 31 := by
  have hle : cfg.tagCount ≤ 2 ^ 30 := Nat.pow_le_pow_right (by decide) (by have := h.setBits; omega)
  rw [tieTrace, List.length_map, tieTags, List.length_append, List.length_range]
  simp only [List.length_cons, List.length_nil]
  omega

/-! ## The program

The program ends where a counter overflows; until then it counts as the accesses without
limits do. -/

variable (cfg) in
/-- The program gets through the trace and counts what the reference counts. -/
def CountsLru (trace : List UInt32) : Prop :=
  ∃ g, simulateAll cfg trace = some g ∧ g.tally = (referenceRun cfg .empty trace).tally

variable (cfg) in
/-- Whenever a call for a tag that its set does not have finds the set full, the victim
that `findLRU` picks is the oldest line. -/
def EvictsOldestOn (trace : List UInt32) : Prop :=
  ∀ before address, before ++ [address] <+: trace → ∀ g lines, simulateAll cfg before = some g →
    g.sets[cfg.setOf address]? = some lines →
    cfg.tagOf address ∉ (referenceRun cfg .empty before).sets (cfg.setOf address) →
    cfg.numLines ≤ ((referenceRun cfg .empty before).sets (cfg.setOf address)).length →
    VictimIsOldest lines ((referenceRun cfg .empty before).sets (cfg.setOf address))

theorem Config.Ok.inRange (h : cfg.Ok) (address : UInt32) :
    cfg.setIndex address < 2 ^ cfg.setBits := by
  rw [h.setIndex_eq]
  exact Nat.mod_lt _ (Nat.two_pow_pos _)

theorem evictsOldest_of_prefixes {sim : Sim} {ref : Lru.Cache Nat Int} {trace : List UInt32}
    (h : ∀ before address, before ++ [address] <+: trace →
      cfg.tagOf address ∉ (referenceRun cfg ref before).sets (cfg.setOf address) →
      cfg.numLines ≤ ((referenceRun cfg ref before).sets (cfg.setOf address)).length →
      VictimIsOldest ((Sim.run cfg sim before).sets (cfg.setOf address))
        ((referenceRun cfg ref before).sets (cfg.setOf address))) :
    EvictsOldest cfg sim ref trace := by
  induction trace generalizing sim ref with
  | nil => trivial
  | cons address trace ih =>
      refine ⟨h [] address (List.prefix_append [address] trace), ih fun before a hpre => ?_⟩
      exact h (address :: before) a (List.cons_prefix_cons.mpr ⟨rfl, hpre⟩)

theorem EvictsOldestOn.evictsOldest (h : cfg.Ok) (hs : cfg.setBits ≤ 30) {trace : List UInt32}
    (hlen : trace.length < 2 ^ 31) (hold : EvictsOldestOn cfg trace) :
    EvictsOldest cfg (Sim.start cfg) .empty trace := by
  refine evictsOldest_of_prefixes fun before address hpre => ?_
  have hshort := hpre.length_le
  rw [List.length_append] at hshort
  have hrun := simulateAll_eq hs h.numLines (fun a (_ : a ∈ before) => h.inRange a) (by omega)
  refine hold before address hpre _ _ hrun ?_
  rw [Sim.getElem?_globals, ← h.setIndex_eq, if_pos (h.inRange address)]

/-- Where the simulator without limits counts right, the program does. -/
theorem countsLru_of_run (h : cfg.Ok) (hs : cfg.setBits ≤ 30) {trace : List UInt32}
    (hlen : trace.length < 2 ^ 31)
    (hrun : (Sim.run cfg (Sim.start cfg) trace).tally = (referenceRun cfg .empty trace).tally) :
    CountsLru cfg trace :=
  ⟨_, simulateAll_eq hs h.numLines (fun a _ => h.inRange a) hlen, hrun⟩

/-- Calls for one address overflow `hits` in the end, in every configuration. -/
theorem not_countsLru_replicate (h : cfg.Ok) (address : UInt32) :
    ¬ CountsLru cfg (List.replicate (2 ^ 31 + 1) address) := by
  rintro ⟨g, hg, -⟩
  obtain ⟨n, hn⟩ : ∃ n, n = 2 ^ 31 := ⟨_, rfl⟩
  rw [← hn] at hg
  have hhits : g.tally.hits = n := by
    rw [simulateAll_globals hg]
    exact (run_replicate h.numLines (h.inRange address) n).1
  rw [List.replicate_succ', simulateAll_concat] at hg
  obtain ⟨before, -, hcall⟩ := Option.bind_eq_some_iff.mp hg
  obtain ⟨lines, hcounted⟩ := Counted.of_cacheSimulate _ hcall
  exact absurd hcounted.hits (by omega)

/-- **How far the simulator is an LRU simulator.**  If the number of sets is an `int`, it
counts what the reference counts on every trace of fewer accesses than an `int` counts,
after every access, as long as each eviction takes the oldest line.  It counts so on all
such traces exactly if there is one line, or as many lines as the addresses have tags in a
set.  In every configuration a longer trace overflows a counter. -/
theorem simulate_lru_iff (h : cfg.Ok) :
    (∀ trace : List UInt32, (∀ a ∈ trace, a.toNat < 2 ^ 31) → trace.length < 2 ^ 31 →
      cfg.setBits ≤ 30 → EvictsOldestOn cfg trace → ∀ n, CountsLru cfg (trace.take n)) ∧
    ((∀ trace : List UInt32, (∀ a ∈ trace, a.toNat < 2 ^ 31) → trace.length < 2 ^ 31 →
      CountsLru cfg trace) ↔
      cfg.setBits ≤ 30 ∧
        (cfg.numLines = 1 ∨ 2 ^ (31 - (cfg.setBits + cfg.dataBits)) ≤ cfg.numLines)) ∧
    ∀ address, ¬ CountsLru cfg (List.replicate (2 ^ 31 + 1) address) := by
  refine ⟨fun trace htrace hlen hs hold n => ?_, ⟨fun hall => ?_, ?_⟩, not_countsLru_replicate h⟩
  · have hlt : ∀ a ∈ trace.take n, a.toNat < 2 ^ 31 := fun a ha =>
      htrace a (List.mem_of_mem_take ha)
    have hshort : (trace.take n).length < 2 ^ 31 := (List.length_take_le' n trace).trans_lt hlen
    exact countsLru_of_run h hs hshort
      (Agrees.init.run h hlt ((hold.evictsOldest h hs hlen).take n)).tally
  · obtain ⟨g, hempty, -⟩ := hall [] (fun a ha => by cases ha) (Nat.two_pow_pos 31)
    have hs : cfg.setBits ≤ 30 := by
      by_contra hs
      rw [simulateAll, initializeCache_eq_none cfg hs] at hempty
      cases hempty
    refine ⟨hs, ?_⟩
    by_contra hnot
    obtain ⟨hone, hmany⟩ := not_or.mp hnot
    have hlines := h.numLines
    have htags : cfg.numLines < cfg.tagCount := Nat.lt_of_not_le hmany
    obtain ⟨hbelow, hwrong⟩ := tieTrace_wrong h (by omega) htags
    obtain ⟨g, hg, heq⟩ := hall _ hbelow (length_tieTrace h htags)
    rw [simulateAll_globals hg] at heq
    exact hwrong heq
  · rintro ⟨hs, hcfg⟩ trace htrace hlen
    refine countsLru_of_run h hs hlen
      (Agrees.init.run h htrace (evictsOldest_of_config h hcfg htrace Agrees.init ?_)).tally
    intro i t ht
    cases ht

/-- One set bit, two lines, blocks of one byte: the configuration of the tie. -/
def twoLines : Config := { setBits := 1, numLines := 2, dataBits := 0 }

/-- The theorem for two lines, which are too few: some trace is counted wrong. -/
theorem twoLines_not_lru :
    twoLines.Ok ∧ ¬ ∀ trace : List UInt32, (∀ a ∈ trace, a.toNat < 2 ^ 31) → trace.length < 2 ^ 31 →
      CountsLru twoLines trace := by
  have hok : twoLines.Ok := ⟨by decide, by decide, by decide⟩
  exact ⟨hok, fun hall => absurd ((simulate_lru_iff hok).2.1.mp hall).2 (by decide)⟩

/-- The trace 0, 2, 0, 4, 0 with two lines: the fourth access evicts the block the
third one hit, so the simulator counts one hit where the reference counts two. -/
theorem tieTrace_counts :
    twoLines.Ok ∧ (∀ a ∈ [(0 : UInt32), 2, 0, 4, 0], a.toNat < 2 ^ 31) ∧
      (simulateAll twoLines [0, 2, 0, 4, 0]).map Globals.tally = some ⟨1, 4, 2⟩ ∧
      (referenceRun twoLines .empty [0, 2, 0, 4, 0]).tally = ⟨2, 3, 1⟩ :=
  ⟨⟨by decide, by decide, by decide⟩, by simp, by decide⟩

end Configurations

end InternetLabs.Cache
