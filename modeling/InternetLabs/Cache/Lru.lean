/-
# `InternetLabs.Cache.Lru` — how far the simulator is an LRU simulator

Forget the counters and a set of the simulator is the set of its valid tags, and
so is a set of the reference, which keeps them by recency as well: `Agree`.  A
hit and a fill keep that up whatever the counters say.  An eviction does when the
victim `findLRU` picks by its counters is the one the reference picks by recency.

The counters do not always say: a fill gives its line the largest counter in the
set plus one, a hit adds one to its own, so a line hit just now can still have the
smallest counter.  It takes two lines and one tag more than there are lines for
this to show, and then it does (`simulate_lru_iff`).
-/
import Mathlib.Data.List.Perm.Basic
import Mathlib.Data.Fintype.Card
import InternetLabs.Cache.Sim

namespace InternetLabs.Cache

open InternetLabs

/-! ## One set

The reference keeps the tags of a set in the order of their last use, the simulator in
lines with counters. -/

def validTags (lines : List Line) : List Int := (lines.filter (·.valid)).map (·.tag)

/-- What a hit on `t` makes of a line. -/
def bump (t : Int) (l : Line) : Line :=
  if l.valid ∧ l.tag = t then { l with accessCount := l.accessCount + 1 } else l

@[simp] theorem validTags_nil : validTags [] = [] := rfl

theorem validTags_cons_of_valid {l : Line} (h : l.valid = true) (ls : List Line) :
    validTags (l :: ls) = l.tag :: validTags ls := by
  simp [validTags, h]

theorem validTags_cons_of_invalid {l : Line} (h : l.valid = false) (ls : List Line) :
    validTags (l :: ls) = validTags ls := by
  simp [validTags, h]

theorem Perm.validTags {ls ls' : List Line} (h : ls.Perm ls') :
    (validTags ls).Perm (validTags ls') :=
  (h.filter _).map _

@[simp] theorem bump_valid (t : Int) (l : Line) : (bump t l).valid = l.valid := by
  unfold bump; split <;> rfl

@[simp] theorem bump_tag (t : Int) (l : Line) : (bump t l).tag = l.tag := by
  unfold bump; split <;> rfl

theorem validTags_map_bump (t : Int) (lines : List Line) :
    validTags (lines.map (bump t)) = validTags lines := by
  induction lines with
  | nil => rfl
  | cons l ls ih =>
      cases hv : l.valid with
      | true =>
          rw [List.map_cons, validTags_cons_of_valid (by simpa using hv),
            validTags_cons_of_valid hv, ih, bump_tag]
      | false =>
          rw [List.map_cons, validTags_cons_of_invalid (by simpa using hv),
            validTags_cons_of_invalid hv, ih]

theorem map_bump_of_notMem {t : Int} {lines : List Line} (h : t ∉ validTags lines) :
    lines.map (bump t) = lines := by
  rw [List.map_congr_left (g := id), List.map_id]
  intro l hl
  refine if_neg fun hb => h ?_
  exact List.mem_map.mpr ⟨l, List.mem_filter.mpr ⟨hl, hb.1⟩, hb.2⟩

theorem scanLines_eq (t : Int) (lines : List Line) :
    scanLines t lines = (lines.map (bump t), (validTags lines).count t, lines.all (·.valid)) := by
  induction lines with
  | nil => rfl
  | cons l ls ih =>
      rw [scanLines, ih]
      cases hv : l.valid with
      | false => simp [bump, hv, validTags_cons_of_invalid hv]
      | true =>
          by_cases ht : l.tag = t
          · simp [bump, hv, ht, validTags_cons_of_valid hv]
          · simp [bump, hv, ht, validTags_cons_of_valid hv]

theorem length_validTags_le (lines : List Line) : (validTags lines).length ≤ lines.length := by
  rw [validTags, List.length_map]
  exact List.length_filter_le _ _

theorem all_valid_iff (lines : List Line) :
    lines.all (·.valid) = true ↔ (validTags lines).length = lines.length := by
  rw [validTags, List.length_map, List.length_filter_eq_length_iff, List.all_eq_true]

/-- The lines of a set and the tags the reference has in it. -/
structure Agree (cap : Nat) (lines : List Line) (tags : List Int) : Prop where
  length : lines.length = cap
  nodup : tags.Nodup
  perm : (validTags lines).Perm tags

/-- The victim `findLRU` picks holds the tag whose last access is oldest. -/
def VictimIsOldest (lines : List Line) (tags : List Int) : Prop :=
  ∃ l, lines[(findLRU lines).lruIndex]? = some l ∧ tags.getLast? = some l.tag

theorem validTags_set_invalid {lines : List Line} {i : Nat} (hi : i < lines.length)
    (h : lines[i].valid = false) {l : Line} (hl : l.valid = true) :
    (validTags (lines.set i l)).Perm (l.tag :: validTags lines) := by
  have hset := Perm.validTags (List.set_perm_cons_eraseIdx hi l)
  have hold := Perm.validTags (List.getElem_cons_eraseIdx_perm hi)
  rw [validTags_cons_of_valid hl] at hset
  rw [validTags_cons_of_invalid h] at hold
  exact hset.trans (hold.cons _)

theorem validTags_set_valid {lines : List Line} {i : Nat} (hi : i < lines.length)
    (h : lines[i].valid = true) {l : Line} (hl : l.valid = true) {rest : List Int}
    (hrest : (validTags lines).Perm (lines[i].tag :: rest)) :
    (validTags (lines.set i l)).Perm (l.tag :: rest) := by
  have hset := Perm.validTags (List.set_perm_cons_eraseIdx hi l)
  have hold := Perm.validTags (List.getElem_cons_eraseIdx_perm hi)
  rw [validTags_cons_of_valid hl] at hset
  rw [validTags_cons_of_valid h] at hold
  exact hset.trans ((hold.trans hrest).cons_inv.cons _)

theorem findEmptyLine_eq_some {lines : List Line} (h : lines.all (·.valid) = false) :
    ∃ (i : Nat) (hi : i < lines.length), findEmptyLine lines = some i ∧ lines[i].valid = false := by
  cases hf : findEmptyLine lines with
  | none =>
      rw [findEmptyLine, List.findIdx?_eq_none_iff] at hf
      rw [List.all_eq_false] at h
      obtain ⟨l, hl, hinv⟩ := h
      have := hf l hl
      simp_all
  | some i =>
      obtain ⟨hi, hinv, -⟩ := List.findIdx?_eq_some_iff_getElem.mp hf
      exact ⟨i, hi, rfl, by simpa using hinv⟩

theorem modify_eq_set_getElem {lines : List Line} {i : Nat} (hi : i < lines.length)
    (f : Line → Line) : lines.modify i f = lines.set i (f lines[i]) := by
  refine List.ext_getElem (by simp) fun j h₁ h₂ => ?_
  rw [List.getElem_modify, List.getElem_set]
  by_cases hij : i = j
  · subst hij; simp
  · simp [hij]

section Access
variable {cap : Nat} {lines : List Line} {tags : List Int} {t : Int} {tally : Lru.Tally}

theorem accessSet_hit (h : (validTags lines).count t = 1) :
    accessSet lines t tally = (lines.map (bump t), tally.add .hit) := by
  simp only [accessSet, scanLines_eq, h, Lru.Tally.add]
  rfl

theorem accessSet_miss (h : t ∉ validTags lines) :
    accessSet lines t tally =
      if lines.all (·.valid) then
        (lines.modify (findLRU lines).lruIndex fun l =>
            { l with tag := t, accessCount := (findLRU lines).maxUsed + 1 }, tally.add .evict)
      else
        match findEmptyLine lines with
        | none => (lines, tally.add .fill)
        | some i => (lines.modify i fun _ =>
            { valid := true, tag := t, accessCount := (findLRU lines).maxUsed + 1 },
            tally.add .fill) := by
  have h0 : (validTags lines).count t = 0 := List.count_eq_zero.mpr h
  simp only [accessSet, scanLines_eq, map_bump_of_notMem h, h0, Lru.Tally.add, Nat.add_zero]
  rfl

/-- **One access.**  Sets that agree are accessed alike, and agree afterwards, if an
eviction takes the oldest line. -/
theorem Agree.access (h : Agree cap lines tags)
    (hold : t ∉ tags → cap ≤ tags.length → VictimIsOldest lines tags) :
    Agree cap (accessSet lines t tally).1 (Lru.touch cap tags t).1 ∧
      (accessSet lines t tally).2 = tally.add (Lru.touch cap tags t).2 := by
  by_cases hmem : t ∈ tags
  · have hcount : (validTags lines).count t = 1 := by
      rw [h.perm.count_eq]
      exact List.count_eq_one_of_mem h.nodup hmem
    rw [accessSet_hit hcount, Lru.touch_of_mem hmem]
    refine ⟨⟨by rw [List.length_map]; exact h.length, ?_, ?_⟩, rfl⟩
    · exact List.nodup_cons.mpr ⟨h.nodup.not_mem_erase, h.nodup.erase t⟩
    · rw [validTags_map_bump]
      exact h.perm.trans (List.perm_cons_erase hmem)
  · have hmem' : t ∉ validTags lines := fun hv => hmem (h.perm.mem_iff.mp hv)
    have hlen : (validTags lines).length = tags.length := h.perm.length_eq
    have hle := length_validTags_le lines
    rw [accessSet_miss hmem']
    by_cases hfull : cap ≤ tags.length
    · -- every line is valid
      have hall : lines.all (·.valid) = true := by
        rw [all_valid_iff]
        have := h.length
        omega
      obtain ⟨l, hl, hlast⟩ := hold hmem hfull
      obtain ⟨hi, rfl⟩ := List.getElem?_eq_some_iff.mp hl
      have hvalid : lines[(findLRU lines).lruIndex].valid = true :=
        List.all_eq_true.mp hall _ (List.getElem_mem hi)
      rw [if_pos hall, Lru.touch_of_full hmem hfull, modify_eq_set_getElem hi]
      refine ⟨⟨by rw [List.length_set]; exact h.length, ?_, ?_⟩, rfl⟩
      · refine List.nodup_cons.mpr ⟨fun hd => hmem (List.dropLast_subset tags hd), ?_⟩
        exact h.nodup.sublist (List.dropLast_sublist tags)
      · refine validTags_set_valid hi hvalid (l := { lines[(findLRU lines).lruIndex] with
          tag := t, accessCount := (findLRU lines).maxUsed + 1 }) hvalid (h.perm.trans ?_)
        obtain ⟨rest, hrest⟩ := List.getLast?_eq_some_iff.mp hlast
        rw [hrest, List.dropLast_concat]
        exact List.perm_append_singleton _ _
    · have hall : lines.all (·.valid) = false := by
        rw [Bool.eq_false_iff, ne_eq, all_valid_iff]
        have := h.length
        omega
      obtain ⟨i, hi, hempty, hinv⟩ := findEmptyLine_eq_some hall
      rw [if_neg (by rw [hall]; exact Bool.false_ne_true), hempty,
        Lru.touch_of_lt hmem (Nat.lt_of_not_le hfull)]
      change Agree cap (lines.modify i _) (t :: tags) ∧ _
      rw [modify_eq_set_getElem hi]
      refine ⟨⟨by rw [List.length_set]; exact h.length, List.nodup_cons.mpr ⟨hmem, h.nodup⟩, ?_⟩,
        rfl⟩
      exact (validTags_set_invalid hi hinv rfl).trans (h.perm.cons t)

end Access

/-! ## The address

The shifts of `cacheSimulate`, for addresses that an `int` holds. -/

/-- At least one set bit and one line, and no more than 31 bits for the set and the
block. -/
structure Config.Ok (cfg : Config) : Prop where
  setBits : 1 ≤ cfg.setBits
  numLines : 1 ≤ cfg.numLines
  bits : cfg.setBits + cfg.dataBits ≤ 31

/-- The set and the tag of the block an address is in. -/
def Config.setOf (cfg : Config) (address : UInt32) : Nat :=
  address.toNat / 2 ^ cfg.dataBits % 2 ^ cfg.setBits

def Config.tagOf (cfg : Config) (address : UInt32) : Int :=
  (address.toNat / 2 ^ cfg.dataBits / 2 ^ cfg.setBits : Nat)

theorem Config.setIndex_of_pos {cfg : Config} (hs : 1 ≤ cfg.setBits)
    (hsb : cfg.setBits + cfg.dataBits ≤ 31) (address : UInt32) :
    cfg.setIndex address = cfg.setOf address := by
  obtain ⟨s, E, b⟩ := cfg
  simp only at hs hsb
  have hup : (UInt32.ofNat (64 - (s + b))).toNat % 32 = 32 - (s + b) := by
    rw [UInt32.toNat_ofNat']
    omega
  have hdown : (UInt32.ofNat (64 - (s + b) + b)).toNat % 32 = 32 - (s + b) + b := by
    rw [UInt32.toNat_ofNat']
    omega
  simp only [Config.setIndex, Config.setOf, UInt32.toNat_shiftRight, UInt32.toNat_shiftLeft, hup,
    hdown, Nat.shiftLeft_eq, Nat.shiftRight_eq_div_pow]
  -- the bits above the index fall out at the top, the bits below it at the bottom
  obtain ⟨k, hk⟩ : ∃ k, k = 32 - (s + b) := ⟨_, rfl⟩
  have htop : (2 : Nat) ^ 32 = 2 ^ b * 2 ^ s * 2 ^ k := by
    rw [← Nat.pow_add, ← Nat.pow_add]
    congr 1
    omega
  rw [← hk, htop, Nat.mul_mod_mul_right, Nat.add_comm, Nat.pow_add,
    Nat.mul_div_mul_right _ _ (Nat.two_pow_pos k), Nat.mod_mul_right_div_self]

theorem Config.Ok.setIndex_eq {cfg : Config} (h : cfg.Ok) (address : UInt32) :
    cfg.setIndex address = cfg.setOf address := Config.setIndex_of_pos h.setBits h.bits address

theorem Config.Ok.inputTag_eq {cfg : Config} (h : cfg.Ok) {address : UInt32}
    (ha : address.toNat < 2 ^ 31) : cfg.inputTag address = cfg.tagOf address := by
  have hbits := h.bits
  have hint : address.toInt32.toInt = (address.toNat : Int) := by
    change address.toBitVec.toInt = (address.toBitVec.toNat : Int)
    exact BitVec.toInt_eq_toNat_of_lt (by change 2 * address.toNat < 2 ^ 32; omega)
  rw [Config.inputTag, Config.tagOf, hint, Nat.mod_eq_of_lt (by omega), Int.shiftRight_eq_div_pow,
    Nat.div_div_eq_div_mul, ← Nat.pow_add, Nat.add_comm]
  rfl

/-! ## A trace

By one access after the other, as long as each victim is the oldest line. -/

section Trace
variable (cfg : Config)

def reference (ref : Lru.Cache Nat Int) (address : UInt32) : Lru.Cache Nat Int :=
  ref.access cfg.numLines (cfg.setOf address) (cfg.tagOf address)

def referenceRun (ref : Lru.Cache Nat Int) (trace : List UInt32) : Lru.Cache Nat Int :=
  trace.foldl (reference cfg) ref

/-- Whenever an access of the trace evicts, the victim is the oldest line. -/
def EvictsOldest : Sim → Lru.Cache Nat Int → List UInt32 → Prop
  | _, _, [] => True
  | sim, ref, address :: rest =>
      (cfg.tagOf address ∉ ref.sets (cfg.setOf address) →
        cfg.numLines ≤ (ref.sets (cfg.setOf address)).length →
        VictimIsOldest (sim.sets (cfg.setOf address)) (ref.sets (cfg.setOf address))) ∧
      EvictsOldest (Sim.access cfg sim address) (reference cfg ref address) rest

/-- The simulator and the reference agree in every set and in the counts. -/
structure Agrees (sim : Sim) (ref : Lru.Cache Nat Int) : Prop where
  sets : ∀ i, Agree cfg.numLines (sim.sets i) (ref.sets i)
  tally : sim.tally = ref.tally

variable {cfg}

theorem Agrees.init : Agrees cfg (Sim.start cfg) .empty where
  sets _ := by
    refine ⟨List.length_replicate, List.nodup_nil, ?_⟩
    have : validTags (List.replicate cfg.numLines Line.init) = [] := by
      rw [validTags, List.filter_replicate]
      rfl
    rw [Sim.start, this]
    exact .nil
  tally := rfl

theorem access_eq (h : cfg.Ok) (sim : Sim) {address : UInt32}
    (hlt : address.toNat < 2 ^ 31) :
    Sim.access cfg sim address =
      { sets := Function.update sim.sets (cfg.setOf address)
          (accessSet (sim.sets (cfg.setOf address)) (cfg.tagOf address) sim.tally).1
        tally := (accessSet (sim.sets (cfg.setOf address)) (cfg.tagOf address) sim.tally).2 } := by
  simp only [Sim.access, h.setIndex_eq, h.inputTag_eq hlt]

theorem Agrees.step (h : cfg.Ok) {sim : Sim} {ref : Lru.Cache Nat Int} (ha : Agrees cfg sim ref)
    {address : UInt32} (hlt : address.toNat < 2 ^ 31)
    (hold : cfg.tagOf address ∉ ref.sets (cfg.setOf address) →
      cfg.numLines ≤ (ref.sets (cfg.setOf address)).length →
      VictimIsOldest (sim.sets (cfg.setOf address)) (ref.sets (cfg.setOf address))) :
    Agrees cfg (Sim.access cfg sim address) (reference cfg ref address) := by
  obtain ⟨hset, htally⟩ := @Agree.access _ _ _ _ sim.tally (ha.sets (cfg.setOf address)) hold
  rw [access_eq h sim hlt]
  refine ⟨fun i => ?_, ?_⟩
  · simp only [reference, Lru.Cache.access]
    by_cases hi : i = cfg.setOf address
    · subst hi
      simpa only [Function.update_self] using hset
    · simpa only [Function.update_of_ne hi] using ha.sets i
  · exact htally.trans (by rw [ha.tally]; rfl)

theorem Agrees.run (h : cfg.Ok) {sim : Sim} {ref : Lru.Cache Nat Int} (ha : Agrees cfg sim ref)
    {trace : List UInt32} (htrace : ∀ a ∈ trace, a.toNat < 2 ^ 31)
    (hold : EvictsOldest cfg sim ref trace) :
    Agrees cfg (Sim.run cfg sim trace) (referenceRun cfg ref trace) := by
  induction trace generalizing sim ref with
  | nil => exact ha
  | cons address rest ih =>
      have hlt := htrace address List.mem_cons_self
      exact ih (ha.step h hlt hold.1) (fun a hmem => htrace a (List.mem_cons_of_mem _ hmem)) hold.2

theorem EvictsOldest.take {sim : Sim} {ref : Lru.Cache Nat Int} {trace : List UInt32}
    (h : EvictsOldest cfg sim ref trace) (n : Nat) : EvictsOldest cfg sim ref (trace.take n) := by
  induction trace generalizing sim ref n with
  | nil => rw [List.take_nil]; trivial
  | cons address rest ih =>
      cases n with
      | zero => trivial
      | succ n => exact ⟨h.1, ih h.2 n⟩

end Trace

end InternetLabs.Cache
