/-
# `InternetLabs.Cache.Sim` — the cache simulator of `cachelab`

`csim.c` from `initializeCache` to `cacheSimulate`.  The shifts by more than 31
that take an address apart are the processor's, which looks at the low five bits
of the count, as `UInt32` does.  A tag is the `int` it was computed as.
`malloc` does not fail.

The program has as many sets as `int numSets = pow(2,setBits)` says, and its
counters are `int`s: `initializeCache` and `cacheSimulate` are `none` where the
number of sets does not fit, where a set or a line is read that is not there, and
where a counter overflows.

`Sim` is the same without limits: a set at every index, and counters that no
addition makes too large.  What is said of runs is said of these first.  The
program does what they do as long as it does anything (`simulate_globals`), and no
counter of a line is larger than the number of accesses (`accessCount_le`), so
that short traces come to their end.
-/
import Mathlib.Algebra.Group.Nat.Defs
import Mathlib.Data.List.Induction
import InternetLabs.Lib.Lru

namespace InternetLabs.Cache

open InternetLabs

/-! ## Lines and sets

The functions on the lines of one set. -/

/-- `Line`; no block is ever allocated. -/
structure Line where
  valid : Bool
  accessCount : Nat
  tag : Int
deriving DecidableEq

/-- What `initializeCache` puts in every line. -/
def Line.init : Line := { valid := false, accessCount := 0, tag := 0 }

/-- `findEmptyLine`; `-1` is `none`. -/
def findEmptyLine (lines : List Line) : Option Nat := lines.findIdx? fun l => !l.valid

/-- The variables of the loop of `findLRU`. -/
structure LruScan where
  lruIndex : Nat
  minUsed : Nat
  maxUsed : Nat

/-- The loop of `findLRU`, from the line number `line` on. -/
def findLRULoop : List Line → Nat → LruScan → LruScan
  | [], _, s => s
  | currentLine :: rest, line, s =>
      let s := if s.minUsed > currentLine.accessCount then
          { s with lruIndex := line, minUsed := currentLine.accessCount } else s
      let s := if s.maxUsed < currentLine.accessCount then
          { s with maxUsed := currentLine.accessCount } else s
      findLRULoop rest (line + 1) s

/-- `findLRU`: the index returned and the two entries of `usedLines`. -/
def findLRU (lines : List Line) : LruScan :=
  let first := (lines.head?.getD .init).accessCount
  findLRULoop lines 0 { lruIndex := 0, minUsed := first, maxUsed := first }

/-- The loop of `cacheSimulate` over the lines of the set: the lines, the hits
counted, and `cFull`. -/
def scanLines (inputTag : Int) : List Line → List Line × Nat × Bool
  | [] => ([], 0, true)
  | currentLine :: rest =>
      let (lines, hits, cFull) := scanLines inputTag rest
      if currentLine.valid then
        if currentLine.tag = inputTag then
          ({ currentLine with accessCount := currentLine.accessCount + 1 } :: lines,
            hits + 1, cFull)
        else (currentLine :: lines, hits, cFull)
      else (currentLine :: lines, hits, false)

/-- The part of `cacheSimulate` that follows the address arithmetic: the lines of
the set and the counts afterwards, if no counter overflows. -/
def accessSet (lines : List Line) (inputTag : Int) (tally : Lru.Tally) :
    List Line × Lru.Tally :=
  let (lines, hits, cFull) := scanLines inputTag lines
  let tally := { tally with hits := tally.hits + hits }
  if hits ≠ 0 then (lines, tally)
  else
    let tally := { tally with misses := tally.misses + 1 }
    let used := findLRU lines
    if cFull then
      (lines.modify used.lruIndex fun l =>
          { l with tag := inputTag, accessCount := used.maxUsed + 1 },
        { tally with evictions := tally.evictions + 1 })
    else
      match findEmptyLine lines with
      | none => (lines, tally)
      | some mtLineIndex =>
          (lines.modify mtLineIndex fun _ =>
            { valid := true, tag := inputTag, accessCount := used.maxUsed + 1 }, tally)

/-! ## The cache

The functions on the whole cache.  All counters are `int`s, and the number of sets is
one, too. -/

/-- `setBits`, `numLines` and `dataBits`. -/
structure Config where
  setBits : Nat
  numLines : Nat
  dataBits : Nat

/-- `setIndex`: the address shifted up until the tag is gone, and down again. -/
def Config.setIndex (cfg : Config) (address : UInt32) : Nat :=
  let tagBits := 64 - (cfg.setBits + cfg.dataBits)
  let shift := address <<< UInt32.ofNat tagBits
  (shift >>> UInt32.ofNat (tagBits + cfg.dataBits)).toNat

/-- `inputTag`: the address is an `int`, and is shifted down as one. -/
def Config.inputTag (cfg : Config) (address : UInt32) : Int :=
  address.toInt32.toInt >>> ((cfg.setBits + cfg.dataBits) % 32)

/-- `cache.sets`, and `hits`, `misses` and `evictions`. -/
structure Globals where
  sets : List (List Line)
  tally : Lru.Tally
deriving DecidableEq

/-- The counters of a set and the counts are `int`s. -/
structure Counted (lines : List Line) (tally : Lru.Tally) : Prop where
  lines : ∀ l ∈ lines, l.accessCount < 2 ^ 31
  hits : tally.hits < 2 ^ 31
  misses : tally.misses < 2 ^ 31
  evictions : tally.evictions < 2 ^ 31

instance (lines : List Line) (tally : Lru.Tally) : Decidable (Counted lines tally) :=
  decidable_of_iff ((∀ l ∈ lines, l.accessCount < 2 ^ 31) ∧ tally.hits < 2 ^ 31 ∧
      tally.misses < 2 ^ 31 ∧ tally.evictions < 2 ^ 31)
    ⟨fun ⟨h₁, h₂, h₃, h₄⟩ => ⟨h₁, h₂, h₃, h₄⟩, fun ⟨h₁, h₂, h₃, h₄⟩ => ⟨h₁, h₂, h₃, h₄⟩⟩

/-- `initializeCache`, with the counts at zero; `none` if the number of sets is no `int`. -/
def initializeCache (cfg : Config) : Option Globals :=
  if 2 ^ cfg.setBits < 2 ^ 31 then
    some ⟨List.replicate (2 ^ cfg.setBits) (List.replicate cfg.numLines .init), .zero⟩
  else none

/-- `cacheSimulate`; `none` if there is no such set, if it has no lines, or if a counter
overflows: each is only added to, so that it has if it is too large in the end. -/
def cacheSimulate (cfg : Config) (g : Globals) (address : UInt32) : Option Globals :=
  let setIndex := cfg.setIndex address
  match g.sets[setIndex]? with
  | none => none
  | some lines =>
      let (after, tally) := accessSet lines (cfg.inputTag address) g.tally
      if lines ≠ [] ∧ Counted after tally then some ⟨g.sets.set setIndex after, tally⟩ else none

/-- The calls of a trace one after the other. -/
def simulate (cfg : Config) (g : Globals) (trace : List UInt32) : Option Globals :=
  trace.foldlM (cacheSimulate cfg) g

/-- The calls of a trace from the start. -/
def simulateAll (cfg : Config) (trace : List UInt32) : Option Globals :=
  (initializeCache cfg).bind fun g => simulate cfg g trace

/-! ### Without limits

The same accesses with sets at every index and counters of any size, which are easier to
reason about; where nothing overflows they are the program's. -/

/-- A set at every index, and counts of any size. -/
structure Sim where
  sets : Nat → List Line
  tally : Lru.Tally

def Sim.start (cfg : Config) : Sim where
  sets := fun _ => List.replicate cfg.numLines .init
  tally := .zero

def Sim.access (cfg : Config) (sim : Sim) (address : UInt32) : Sim :=
  let setIndex := cfg.setIndex address
  let (lines, tally) := accessSet (sim.sets setIndex) (cfg.inputTag address) sim.tally
  { sets := Function.update sim.sets setIndex lines, tally := tally }

/-- The accesses of a trace one after the other. -/
def Sim.run (cfg : Config) (sim : Sim) (trace : List UInt32) : Sim :=
  trace.foldl (Sim.access cfg) sim

theorem Sim.run_concat (cfg : Config) (sim : Sim) (trace : List UInt32) (address : UInt32) :
    Sim.run cfg sim (trace ++ [address]) = Sim.access cfg (Sim.run cfg sim trace) address := by
  rw [Sim.run, List.foldl_append]
  rfl

section Globals
variable (cfg : Config)

/-- The sets that the program has of these. -/
def Sim.globals (sim : Sim) : Globals where
  sets := (List.range (2 ^ cfg.setBits)).map sim.sets
  tally := sim.tally

theorem Sim.getElem?_globals (sim : Sim) (i : Nat) :
    (sim.globals cfg).sets[i]? = if i < 2 ^ cfg.setBits then some (sim.sets i) else none := by
  rw [Sim.globals, List.getElem?_map]
  by_cases h : i < 2 ^ cfg.setBits
  · rw [if_pos h, List.getElem?_range h, Option.map_some]
  · rw [if_neg h, List.getElem?_eq_none (by rw [List.length_range]; omega), Option.map_none]

theorem initializeCache_eq (hs : cfg.setBits ≤ 30) :
    initializeCache cfg = some ((Sim.start cfg).globals cfg) := by
  have hlt : 2 ^ cfg.setBits < 2 ^ 31 := Nat.pow_lt_pow_right (by decide) (by omega)
  rw [initializeCache, if_pos hlt, Sim.globals]
  simp only [Sim.start, List.map_const', List.length_range]

theorem initializeCache_eq_none (hs : ¬ cfg.setBits ≤ 30) : initializeCache cfg = none := by
  have hle : 2 ^ 31 ≤ 2 ^ cfg.setBits := Nat.pow_le_pow_right (by decide) (by omega)
  rw [initializeCache, if_neg (Nat.not_lt_of_le hle)]

theorem Sim.globals_access (sim : Sim) (address : UInt32) :
    (Sim.access cfg sim address).globals cfg
      = ⟨(sim.globals cfg).sets.set (cfg.setIndex address)
          ((Sim.access cfg sim address).sets (cfg.setIndex address)),
        (Sim.access cfg sim address).tally⟩ := by
  have hsets : ((Sim.access cfg sim address).globals cfg).sets
      = (sim.globals cfg).sets.set (cfg.setIndex address)
          ((Sim.access cfg sim address).sets (cfg.setIndex address)) := by
    refine List.ext_getElem? fun i => ?_
    have hlen : (sim.globals cfg).sets.length = 2 ^ cfg.setBits := by
      rw [Sim.globals, List.length_map, List.length_range]
    rw [List.getElem?_set, Sim.getElem?_globals, Sim.getElem?_globals, hlen]
    by_cases hi : cfg.setIndex address = i
    · rw [if_pos hi, ← hi]
    · have hother : (Sim.access cfg sim address).sets i = sim.sets i :=
        Function.update_of_ne (Ne.symm hi) ..
      rw [if_neg hi, hother]
  rw [← hsets]
  rfl

/-- **A call** does what the access without limits does, or nothing is defined. -/
theorem cacheSimulate_globals (sim : Sim) (address : UInt32) :
    cacheSimulate cfg (sim.globals cfg) address =
      if cfg.setIndex address < 2 ^ cfg.setBits ∧ sim.sets (cfg.setIndex address) ≠ [] ∧
          Counted ((Sim.access cfg sim address).sets (cfg.setIndex address))
            (Sim.access cfg sim address).tally
      then some ((Sim.access cfg sim address).globals cfg) else none := by
  have hset : (Sim.access cfg sim address).sets (cfg.setIndex address)
      = (accessSet (sim.sets (cfg.setIndex address)) (cfg.inputTag address) sim.tally).1 :=
    Function.update_self ..
  by_cases hlt : cfg.setIndex address < 2 ^ cfg.setBits
  swap
  · rw [if_neg fun h => hlt h.1, cacheSimulate, Sim.getElem?_globals, if_neg hlt]
  rw [Sim.globals_access, hset, cacheSimulate, Sim.getElem?_globals, if_pos hlt]
  simp only [hlt, true_and]
  rfl

theorem simulate_append (g : Globals) (trace trace' : List UInt32) :
    simulate cfg g (trace ++ trace') = (simulate cfg g trace).bind fun g => simulate cfg g trace' :=
  List.foldlM_append ..

theorem simulate_singleton (g : Globals) (address : UInt32) :
    simulate cfg g [address] = cacheSimulate cfg g address := by
  rw [simulate, List.foldlM_cons]
  cases cacheSimulate cfg g address <;> rfl

theorem Counted.of_cacheSimulate {g g' : Globals} {address : UInt32}
    (h : cacheSimulate cfg g address = some g') : ∃ lines, Counted lines g'.tally := by
  rw [cacheSimulate] at h
  split at h
  next => cases h
  next =>
    dsimp only at h
    split at h
    next hcounted =>
      cases h
      exact ⟨_, hcounted.2⟩
    next => cases h

/-- **A trace**, as far as the program gets with it. -/
theorem simulate_globals {sim : Sim} {trace : List UInt32} {g : Globals}
    (h : simulate cfg (sim.globals cfg) trace = some g) :
    g = (Sim.run cfg sim trace).globals cfg := by
  induction trace generalizing sim with
  | nil =>
      cases h
      rfl
  | cons address trace ih =>
      rw [simulate, List.foldlM_cons, cacheSimulate_globals] at h
      split at h
      next => exact ih h
      next => cases h

/-- The program gets through a trace if it gets through each of its calls. -/
theorem simulate_eq {sim : Sim} {trace : List UInt32}
    (h : ∀ before address, before ++ [address] <+: trace →
      cfg.setIndex address < 2 ^ cfg.setBits ∧
        (Sim.run cfg sim before).sets (cfg.setIndex address) ≠ [] ∧
        Counted ((Sim.run cfg sim (before ++ [address])).sets (cfg.setIndex address))
          (Sim.run cfg sim (before ++ [address])).tally) :
    simulate cfg (sim.globals cfg) trace = some ((Sim.run cfg sim trace).globals cfg) := by
  induction trace using List.reverseRecOn with
  | nil => rfl
  | append_singleton trace address ih =>
      have hlast := h trace address (List.prefix_refl _)
      rw [Sim.run_concat] at hlast
      have hbefore := ih fun before a hpre =>
        h before a (hpre.trans (List.prefix_append trace [address]))
      rw [simulate_append, hbefore, Option.bind_some, simulate_singleton, cacheSimulate_globals,
        if_pos hlast, Sim.run_concat]

end Globals

/-! ## The counters

A counter that is set to the largest one and one more is no larger than the number of
accesses. -/

theorem findLRULoop_maxUsed_le {lines : List Line} {n : Nat}
    (h : ∀ l ∈ lines, l.accessCount ≤ n) (i : Nat) {s : LruScan} (hs : s.maxUsed ≤ n) :
    (findLRULoop lines i s).maxUsed ≤ n := by
  induction lines generalizing i s with
  | nil => exact hs
  | cons l ls ih =>
      have hl := h l List.mem_cons_self
      rw [findLRULoop]
      refine ih (fun x hx => h x (List.mem_cons_of_mem l hx)) (i + 1) ?_
      split <;> split <;> assumption

theorem findLRU_maxUsed_le {lines : List Line} {n : Nat} (h : ∀ l ∈ lines, l.accessCount ≤ n) :
    (findLRU lines).maxUsed ≤ n := by
  refine findLRULoop_maxUsed_le h 0 ?_
  cases lines with
  | nil => exact Nat.zero_le n
  | cons l ls => exact h l List.mem_cons_self

theorem scanLines_accessCount_le {lines : List Line} {n : Nat} (t : Int)
    (h : ∀ l ∈ lines, l.accessCount ≤ n) : ∀ l ∈ (scanLines t lines).1, l.accessCount ≤ n + 1 := by
  induction lines with
  | nil => intro l hl; cases hl
  | cons l ls ih =>
      have ih := ih fun x hx => h x (List.mem_cons_of_mem l hx)
      have hl := h l List.mem_cons_self
      intro x hx
      simp only [scanLines] at hx
      split at hx
      · split at hx <;> rcases List.mem_cons.mp hx with rfl | hx
        · exact Nat.succ_le_succ hl
        · exact ih x hx
        · exact Nat.le_succ_of_le hl
        · exact ih x hx
      · rcases List.mem_cons.mp hx with rfl | hx
        · exact Nat.le_succ_of_le hl
        · exact ih x hx

theorem accessSet_accessCount_le {lines : List Line} {n : Nat} (t : Int) (tally : Lru.Tally)
    (h : ∀ l ∈ lines, l.accessCount ≤ n) :
    ∀ l ∈ (accessSet lines t tally).1, l.accessCount ≤ n + 1 := by
  have hmiss : (scanLines t lines).2.1 = 0 → (scanLines t lines).1 = lines := by
    induction lines with
    | nil => intro _; rfl
    | cons l ls ih =>
        have ih := ih fun x hx => h x (List.mem_cons_of_mem l hx)
        simp only [scanLines]
        split
        · split
          · exact fun h0 => absurd h0 (Nat.succ_ne_zero _)
          · exact fun h0 => congrArg (l :: ·) (ih h0)
        · exact fun h0 => congrArg (l :: ·) (ih h0)
  have hset : ∀ (i : Nat) (f : Line → Line), (∀ x, (f x).accessCount ≤ n + 1) →
      ∀ l ∈ lines.modify i f, l.accessCount ≤ n + 1 := by
    intro i f hf l hl
    obtain ⟨j, hj⟩ := List.mem_iff_getElem?.mp hl
    rw [List.getElem?_modify] at hj
    obtain ⟨x, hx, rfl⟩ := Option.map_eq_some_iff.mp hj
    have hmem := h x (List.mem_of_getElem? hx)
    split
    · exact hf x
    · exact Nat.le_succ_of_le hmem
  simp only [accessSet]
  split
  · exact scanLines_accessCount_le t h
  next h0 =>
    rw [hmiss (not_not.mp h0)]
    have hmax := Nat.succ_le_succ (findLRU_maxUsed_le h)
    split
    · exact hset _ _ fun _ => hmax
    · split
      · exact fun l hl => Nat.le_succ_of_le (h l hl)
      · exact hset _ _ fun _ => hmax

theorem accessCount_le (cfg : Config) (trace : List UInt32) (i : Nat) :
    ∀ l ∈ (Sim.run cfg (Sim.start cfg) trace).sets i, l.accessCount ≤ trace.length := by
  induction trace using List.reverseRecOn generalizing i with
  | nil =>
      intro l hl
      rw [List.eq_of_mem_replicate hl]
      exact Nat.le_refl 0
  | append_singleton trace a ih =>
      rw [Sim.run, List.foldl_append, List.length_append]
      change ∀ l ∈ Function.update _ _ _ i, _
      by_cases hi : i = cfg.setIndex a
      · subst hi
        rw [Function.update_self]
        exact accessSet_accessCount_le _ _ (ih _)
      · rw [Function.update_of_ne hi]
        exact fun l hl => Nat.le_succ_of_le (ih i l hl)

end InternetLabs.Cache
