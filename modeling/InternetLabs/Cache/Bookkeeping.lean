/-
# `InternetLabs.Cache.Bookkeeping` — what the lines and the counts have to do with each other

A hit is counted for each line with the tag, so counting is right if no tag is in two
lines; a line is filled only after a scan without a hit, so no tag is; and a scan sees
that a set is full, and finds its first empty line, whatever the order of the lines.
The valid lines are in front because the first empty line is filled and no line is
emptied.

`Accessed` says what an access makes of a set that is kept so, `Filled.access` that
the set is kept so, and `Sim.Ok` is the invariant of runs.
-/
import Mathlib.Algebra.GroupWithZero.Nat
import Mathlib.Data.Finset.Range
import Mathlib.Algebra.BigOperators.Group.Finset.Piecewise
import InternetLabs.Cache.Lru

namespace InternetLabs.Cache

open InternetLabs

/-! ## One set

The lines of a set fill up from the front and are never emptied. -/

/-- The valid lines are in front. -/
def Packed (lines : List Line) : Prop :=
  ∃ used empty, lines.map (·.valid) = List.replicate used true ++ List.replicate empty false

/-- The valid lines are in front, and no tag is in two of them. -/
structure Filled (lines : List Line) : Prop where
  packed : Packed lines
  nodup : (validTags lines).Nodup

/-- What an access to `t` makes of the lines of a set and the counts. -/
inductive Accessed (lines : List Line) (t : Int) (tally : Lru.Tally) :
    List Line × Lru.Tally → Prop
  | hit : t ∈ validTags lines → Accessed lines t tally (lines.map (bump t), tally.add .hit)
  | fill {i : Nat} {l : Line} : t ∉ validTags lines → findEmptyLine lines = some i →
      l.valid = true → l.tag = t → Accessed lines t tally (lines.set i l, tally.add .fill)
  | evict {i : Nat} {l : Line} (hi : i < lines.length) : t ∉ validTags lines →
      lines[i].valid = true → l.valid = true → l.tag = t →
      Accessed lines t tally (lines.set i l, tally.add .evict)

theorem findLRULoop_lruIndex_lt {lines : List Line} {n line : Nat} {s : LruScan}
    (hline : line + lines.length ≤ n) (hs : s.lruIndex < n) :
    (findLRULoop lines line s).lruIndex < n := by
  induction lines generalizing line s with
  | nil => exact hs
  | cons l ls ih =>
      rw [List.length_cons] at hline
      rw [findLRULoop]
      refine ih (by omega) ?_
      split <;> split <;> first | exact hs | (simp only; omega)

theorem findLRU_lruIndex_lt {lines : List Line} (h : lines ≠ []) :
    (findLRU lines).lruIndex < lines.length :=
  findLRULoop_lruIndex_lt (by omega) (List.length_pos_iff.mpr h)

/-- **An access to a set.** -/
theorem accessSet_accessed {lines : List Line} (hne : lines ≠ []) (hnodup : (validTags lines).Nodup)
    (t : Int) (tally : Lru.Tally) : Accessed lines t tally (accessSet lines t tally) := by
  by_cases hmem : t ∈ validTags lines
  · rw [accessSet_hit (List.count_eq_one_of_mem hnodup hmem)]
    exact .hit hmem
  rw [accessSet_miss hmem]
  cases hall : lines.all (·.valid) with
  | true =>
      have hlt := findLRU_lruIndex_lt hne
      have hvalid : lines[(findLRU lines).lruIndex].valid = true :=
        List.all_eq_true.mp hall _ (List.getElem_mem hlt)
      rw [if_pos rfl, modify_eq_set_getElem hlt]
      exact .evict hlt hmem hvalid hvalid rfl
  | false =>
      obtain ⟨i, hi, hempty, -⟩ := findEmptyLine_eq_some hall
      rw [if_neg Bool.false_ne_true, hempty]
      change Accessed lines t tally (lines.modify i _, _)
      rw [modify_eq_set_getElem hi]
      exact .fill hmem hempty rfl rfl

/-- In a packed set the first empty line is the one behind the valid ones. -/
theorem findEmptyLine_of_packed {lines : List Line} {used empty i : Nat}
    (h : lines.map (·.valid) = List.replicate used true ++ List.replicate empty false)
    (hi : findEmptyLine lines = some i) : i = used ∧ 0 < empty := by
  have hfind : (lines.map (·.valid)).findIdx? (!·) = some i := by
    rw [List.findIdx?_map]
    exact hi
  rw [h] at hfind
  cases empty with
  | zero => simp at hfind
  | succ empty =>
      have hused : (List.replicate used true ++ List.replicate (empty + 1) false).findIdx? (!·)
          = some used := by
        simp [List.findIdx?_append, List.findIdx?_replicate]
      exact ⟨(Option.some.inj (hused.symm.trans hfind)).symm, Nat.succ_pos empty⟩

section Access
variable {lines : List Line} {t : Int} {tally : Lru.Tally} {after : List Line × Lru.Tally}

theorem Accessed.packed (h : Accessed lines t tally after) (hp : Packed lines) :
    Packed after.1 := by
  obtain ⟨used, empty, hvalid⟩ := hp
  cases h with
  | hit _ =>
      refine ⟨used, empty, ?_⟩
      rw [List.map_map, ← hvalid]
      exact List.map_congr_left fun l _ => bump_valid t l
  | @fill i l _ hempty hl _ =>
      obtain ⟨rfl, hpos⟩ := findEmptyLine_of_packed hvalid hempty
      obtain ⟨k, rfl⟩ : ∃ k, empty = k + 1 := ⟨empty - 1, by omega⟩
      refine ⟨i + 1, k, ?_⟩
      rw [List.map_set, hvalid, hl, List.set_append_right _ _ (by simp), List.length_replicate,
        Nat.sub_self, List.replicate_succ, List.set_cons_zero, List.replicate_succ']
      simp
  | @evict i l hi _ hold hl _ =>
      refine ⟨used, empty, ?_⟩
      have hsame : (lines.set i l).map (·.valid) = lines.map (·.valid) := by
        refine List.ext_getElem (by simp) fun j h₁ h₂ => ?_
        rw [List.getElem_map, List.getElem_map, List.getElem_set]
        split
        · next hij => subst hij; rw [hl, hold]
        · rfl
      rw [hsame, hvalid]

/-- The tags after an access: `t` is among them, in one line. -/
theorem Accessed.tags (h : Accessed lines t tally after) (hnodup : (validTags lines).Nodup) :
    (validTags after.1).Nodup ∧ t ∈ validTags after.1 := by
  cases h with
  | hit hmem =>
      rw [validTags_map_bump]
      exact ⟨hnodup, hmem⟩
  | fill hmem hempty hl ht =>
      obtain ⟨hi, hinv, -⟩ := List.findIdx?_eq_some_iff_getElem.mp hempty
      have hperm := validTags_set_invalid hi (by simpa using hinv) hl
      rw [ht] at hperm
      exact ⟨hperm.nodup_iff.mpr (List.nodup_cons.mpr ⟨hmem, hnodup⟩),
        hperm.mem_iff.mpr List.mem_cons_self⟩
  | @evict i l hi hmem hold hl ht =>
      have hin : lines[i].tag ∈ validTags lines :=
        List.mem_map.mpr ⟨_, List.mem_filter.mpr ⟨List.getElem_mem hi, hold⟩, rfl⟩
      have hperm := validTags_set_valid hi hold hl (List.perm_cons_erase hin)
      rw [ht] at hperm
      exact ⟨hperm.nodup_iff.mpr (List.nodup_cons.mpr
          ⟨fun hm => hmem (List.mem_of_mem_erase hm), hnodup.erase _⟩),
        hperm.mem_iff.mpr List.mem_cons_self⟩

/-- The lines in use and the counts. -/
theorem Accessed.counts (h : Accessed lines t tally after) :
    after.1.length = lines.length ∧
      after.2.evictions + (validTags after.1).length + tally.misses
        = tally.evictions + (validTags lines).length + after.2.misses ∧
      (after.2.hits = tally.hits + 1 ∧ after.2.misses = tally.misses ∨
        after.2.hits = tally.hits ∧ after.2.misses = tally.misses + 1) := by
  cases h with
  | hit hmem =>
      rw [validTags_map_bump, List.length_map]
      exact ⟨rfl, rfl, .inl ⟨rfl, rfl⟩⟩
  | fill hmem hempty hl ht =>
      obtain ⟨hi, hinv, -⟩ := List.findIdx?_eq_some_iff_getElem.mp hempty
      have hlen := (validTags_set_invalid hi (by simpa using hinv) hl).length_eq
      rw [List.length_cons] at hlen
      refine ⟨List.length_set, ?_, .inr ⟨rfl, rfl⟩⟩
      simp only [Lru.Tally.add, hlen]
      omega
  | @evict i l hi hmem hold hl ht =>
      have hin : lines[i].tag ∈ validTags lines :=
        List.mem_map.mpr ⟨_, List.mem_filter.mpr ⟨List.getElem_mem hi, hold⟩, rfl⟩
      have hlen := (validTags_set_valid hi hold hl (List.perm_cons_erase hin)).length_eq
      have hbefore := (List.perm_cons_erase hin).length_eq
      rw [List.length_cons] at hlen hbefore
      refine ⟨List.length_set, ?_, .inr ⟨rfl, rfl⟩⟩
      simp only [Lru.Tally.add, hlen, hbefore]
      omega

theorem Accessed.misses_of_notMem (h : Accessed lines t tally after) (hnot : t ∉ validTags lines) :
    after.2.misses = tally.misses + 1 := by
  cases h with
  | hit hmem => exact (hnot hmem).elim
  | fill => rfl
  | evict => rfl

end Access

/-! ## Runs

What an access does to one set, and to the counts, over a whole trace. -/

section Runs
variable (cfg : Config)

def validLines (sim : Sim) : Nat :=
  ∑ i ∈ Finset.range (2 ^ cfg.setBits), (validTags (sim.sets i)).length

/-- What holds after `calls` calls of `Sim.access`. -/
structure Sim.Ok (sim : Sim) (calls : Nat) : Prop where
  length : ∀ i, (sim.sets i).length = cfg.numLines
  filled : ∀ i, Filled (sim.sets i)
  total : sim.tally.hits + sim.tally.misses = calls
  evictions : sim.tally.evictions + validLines cfg sim = sim.tally.misses

theorem validTags_start (i : Nat) : validTags ((Sim.start cfg).sets i) = [] := by
  rw [Sim.start, validTags, List.filter_replicate]
  rfl

theorem Sim.Ok.init : (Sim.start cfg).Ok cfg 0 := by
  refine ⟨fun i => List.length_replicate, fun i => ⟨⟨0, cfg.numLines, ?_⟩, ?_⟩, rfl, ?_⟩
  · rw [Sim.start, List.map_replicate]
    rfl
  · rw [validTags_start]
    exact List.nodup_nil
  · simp only [validLines, validTags_start, List.length_nil, Finset.sum_const_zero]
    rfl

variable {cfg}

theorem access_accessed (hE : 1 ≤ cfg.numLines) {sim : Sim} {calls : Nat} (h : sim.Ok cfg calls)
    (address : UInt32) :
    Accessed (sim.sets (cfg.setIndex address)) (cfg.inputTag address) sim.tally
      ((Sim.access cfg sim address).sets (cfg.setIndex address),
        (Sim.access cfg sim address).tally) := by
  have hne : sim.sets (cfg.setIndex address) ≠ [] := by
    refine List.ne_nil_of_length_pos ?_
    rw [h.length]
    exact hE
  have hset := accessSet_accessed hne (h.filled _).nodup (cfg.inputTag address) sim.tally
  simp only [Sim.access, Function.update_self]
  exact hset

theorem access_other (sim : Sim) {address : UInt32} {i : Nat} (h : i ≠ cfg.setIndex address) :
    (Sim.access cfg sim address).sets i = sim.sets i := by
  simp only [Sim.access, Function.update_of_ne h]

theorem validLines_access (sim : Sim) {address : UInt32}
    (hrange : cfg.setIndex address < 2 ^ cfg.setBits) :
    validLines cfg (Sim.access cfg sim address)
        + (validTags (sim.sets (cfg.setIndex address))).length
      = validLines cfg sim
        + (validTags ((Sim.access cfg sim address).sets (cfg.setIndex address))).length := by
  have hmem := Finset.mem_range.mpr hrange
  have hothers : ∑ i ∈ (Finset.range (2 ^ cfg.setBits)).erase (cfg.setIndex address),
        (validTags ((Sim.access cfg sim address).sets i)).length
      = ∑ i ∈ (Finset.range (2 ^ cfg.setBits)).erase (cfg.setIndex address),
        (validTags (sim.sets i)).length :=
    Finset.sum_congr rfl fun i hi => by rw [access_other sim (Finset.ne_of_mem_erase hi)]
  rw [validLines, validLines, ← Finset.add_sum_erase _ _ hmem,
    ← Finset.add_sum_erase _ _ hmem, hothers]
  omega

theorem Sim.Ok.step (hE : 1 ≤ cfg.numLines) {sim : Sim} {calls : Nat} (h : sim.Ok cfg calls)
    {address : UInt32} (hrange : cfg.setIndex address < 2 ^ cfg.setBits) :
    (Sim.access cfg sim address).Ok cfg (calls + 1) := by
  have haccess := access_accessed hE h address
  obtain ⟨hlength, hevictions, hgrew⟩ := haccess.counts
  have hvalid := validLines_access sim hrange
  have htotal := h.total
  have hbefore := h.evictions
  simp only at hlength hevictions hgrew
  refine ⟨fun i => ?_, fun i => ?_, by omega, by omega⟩
  · by_cases hi : i = cfg.setIndex address
    · rw [hi, hlength, h.length]
    · rw [access_other sim hi, h.length]
  · by_cases hi : i = cfg.setIndex address
    · rw [hi]
      exact ⟨haccess.packed (h.filled _).packed, (haccess.tags (h.filled _).nodup).1⟩
    · rw [access_other sim hi]
      exact h.filled i

theorem Sim.Ok.run (hE : 1 ≤ cfg.numLines) {sim : Sim} {calls : Nat} (h : sim.Ok cfg calls)
    {trace : List UInt32} (hrange : ∀ a ∈ trace, cfg.setIndex a < 2 ^ cfg.setBits) :
    (Sim.run cfg sim trace).Ok cfg (calls + trace.length) := by
  induction trace generalizing sim calls with
  | nil => exact h
  | cons a trace ih =>
      obtain ⟨ha, hrest⟩ := List.forall_mem_cons.mp hrange
      have hrun := ih (h.step hE ha) hrest
      rw [List.length_cons, ← Nat.add_assoc, Nat.add_right_comm]
      exact hrun

/-- An access that has just been made is a hit, and moves no tag. -/
theorem access_again {sim : Sim} {address : UInt32}
    (hnodup : (validTags (sim.sets (cfg.setIndex address))).Nodup)
    (hmem : cfg.inputTag address ∈ validTags (sim.sets (cfg.setIndex address))) :
    (Sim.access cfg sim address).tally = sim.tally.add .hit ∧
      ∀ i, validTags ((Sim.access cfg sim address).sets i) = validTags (sim.sets i) := by
  have hhit := @accessSet_hit _ _ sim.tally (List.count_eq_one_of_mem hnodup hmem)
  simp only [Sim.access, hhit, true_and]
  intro i
  by_cases hi : i = cfg.setIndex address
  · subst hi
    rw [Function.update_self, validTags_map_bump]
  · rw [Function.update_of_ne hi]

/-! ### What the program does

As long as its counters are `int`s, the program does what the accesses without limits
do. -/

/-- The counters are `int`s as long as there are fewer accesses than an `int` counts. -/
theorem Sim.Ok.counted {sim : Sim} {calls : Nat} (h : sim.Ok cfg calls) (hcalls : calls < 2 ^ 31)
    {lines : List Line} (hlines : ∀ l ∈ lines, l.accessCount ≤ calls) :
    Counted lines sim.tally := by
  have htotal := h.total
  have hevictions := h.evictions
  exact ⟨fun l hl => (hlines l hl).trans_lt hcalls, by omega, by omega, by omega⟩

/-- **The program gets through a trace** of fewer accesses than an `int` counts. -/
theorem simulateAll_eq (hs : cfg.setBits ≤ 30) (hE : 1 ≤ cfg.numLines) {trace : List UInt32}
    (hrange : ∀ a ∈ trace, cfg.setIndex a < 2 ^ cfg.setBits) (hlen : trace.length < 2 ^ 31) :
    simulateAll cfg trace = some ((Sim.run cfg (Sim.start cfg) trace).globals cfg) := by
  rw [simulateAll, initializeCache_eq cfg hs, Option.bind_some]
  refine simulate_eq cfg fun before address hpre => ?_
  have hmem : ∀ a ∈ before ++ [address], cfg.setIndex a < 2 ^ cfg.setBits :=
    fun a ha => hrange a (hpre.subset ha)
  obtain ⟨hbefore, haddress⟩ := List.forall_mem_append.mp hmem
  have hok := (Sim.Ok.init cfg).run hE hbefore
  have hok' := (Sim.Ok.init cfg).run hE hmem
  refine ⟨haddress address (List.mem_singleton_self address), ?_, ?_⟩
  · refine List.ne_nil_of_length_pos ?_
    rw [hok.length]
    exact hE
  · have hshort := hpre.length_le
    refine hok'.counted (by omega) fun l hl => ?_
    rw [Nat.zero_add]
    exact accessCount_le cfg _ _ l hl

/-- What it has come to is what the accesses without limits come to. -/
theorem simulateAll_globals {trace : List UInt32} {g : Globals}
    (h : simulateAll cfg trace = some g) :
    g = (Sim.run cfg (Sim.start cfg) trace).globals cfg := by
  by_cases hs : cfg.setBits ≤ 30
  · rw [simulateAll, initializeCache_eq cfg hs] at h
    exact simulate_globals cfg h
  · rw [simulateAll, initializeCache_eq_none cfg hs] at h
    cases h

theorem simulateAll_concat (trace : List UInt32) (address : UInt32) :
    simulateAll cfg (trace ++ [address])
      = (simulateAll cfg trace).bind fun g => cacheSimulate cfg g address := by
  rw [simulateAll, simulateAll, Option.bind_assoc]
  simp only [simulate_append, simulate_singleton]

theorem cacheSimulate_eq_some {sim : Sim} {address : UInt32} {g : Globals}
    (h : cacheSimulate cfg (sim.globals cfg) address = some g) :
    cfg.setIndex address < 2 ^ cfg.setBits ∧ g = (Sim.access cfg sim address).globals cfg := by
  rw [cacheSimulate_globals] at h
  split at h
  next hcond =>
    cases h
    exact ⟨hcond.1, rfl⟩
  next => cases h

def Globals.validLines (g : Globals) : Nat := (g.sets.map fun lines => (validTags lines).length).sum

theorem Sim.validLines_globals (sim : Sim) : (sim.globals cfg).validLines
    = Cache.validLines cfg sim := by
  rw [Globals.validLines, Sim.globals, List.map_map]
  rfl

/-! ### The loop of `main` -/

/-- A line of the trace file, as `fscanf` reads it; its size is not looked at. -/
structure TraceLine where
  cmd : UInt8
  addr : UInt32
deriving DecidableEq

/-- The `switch` of `main`: the addresses `cacheSimulate` is called with. -/
def TraceLine.calls (line : TraceLine) : List UInt32 :=
  if line.cmd = 76 ∨ line.cmd = 83 then [line.addr]
  else if line.cmd = 77 then [line.addr, line.addr]
  else []

theorem TraceLine.eq_of_mem_calls {line : TraceLine} {a : UInt32} (h : a ∈ line.calls) :
    a = line.addr := by
  unfold TraceLine.calls at h
  split at h
  · exact List.mem_singleton.mp h
  · split at h
    · simpa using h
    · cases h

variable (cfg) in
/-- The loop of `main` over the lines. -/
def mainLoop (g : Globals) (lines : List TraceLine) : Option Globals :=
  lines.foldlM (fun g line => simulate cfg g line.calls) g

theorem mainLoop_eq_simulate (g : Globals) (lines : List TraceLine) :
    mainLoop cfg g lines = simulate cfg g (lines.flatMap TraceLine.calls) := by
  induction lines generalizing g with
  | nil => rfl
  | cons line lines ih =>
      rw [mainLoop, List.foldlM_cons, List.flatMap_cons, simulate_append]
      exact congrArg (Option.bind (simulate cfg g line.calls)) (funext ih)

/-- **What `main` prints** adds up. -/
theorem mainLoop_ok (hs : cfg.setBits ≤ 30) (hE : 1 ≤ cfg.numLines) {lines : List TraceLine}
    (hrange : ∀ line ∈ lines, cfg.setIndex line.addr < 2 ^ cfg.setBits)
    (hlen : (lines.flatMap TraceLine.calls).length < 2 ^ 31) :
    ∃ g, (initializeCache cfg).bind (fun g => mainLoop cfg g lines) = some g ∧
      g.tally.hits + g.tally.misses = (lines.flatMap TraceLine.calls).length ∧
      g.tally.evictions + g.validLines = g.tally.misses := by
  have hcalls : ∀ a ∈ lines.flatMap TraceLine.calls, cfg.setIndex a < 2 ^ cfg.setBits := by
    intro a ha
    obtain ⟨line, hline, hcall⟩ := List.mem_flatMap.mp ha
    rw [TraceLine.eq_of_mem_calls hcall]
    exact hrange line hline
  have hok := (Sim.Ok.init cfg).run hE hcalls
  rw [Nat.zero_add] at hok
  refine ⟨(Sim.run cfg (Sim.start cfg) (lines.flatMap TraceLine.calls)).globals cfg, ?_,
    hok.total, ?_⟩
  · simp only [mainLoop_eq_simulate]
    exact simulateAll_eq hs hE hcalls hlen
  · rw [Sim.validLines_globals]
    exact hok.evictions

/-- **The bookkeeping.**  After every call the valid lines of each set are in front and
have tags of their own, the tag accessed is valid in its set, one of hits and misses has
grown by one, and evictions are the misses that did not fill a line; and the same access
once more is one hit. -/
theorem bookkeeping (hs : cfg.setBits ≤ 30) (hE : 1 ≤ cfg.numLines) (trace : List UInt32)
    (address : UInt32) (hrange : ∀ a ∈ trace ++ [address], cfg.setIndex a < 2 ^ cfg.setBits)
    (hlen : (trace ++ [address]).length < 2 ^ 31) :
    ∃ before after, simulateAll cfg trace = some before ∧
      cacheSimulate cfg before address = some after ∧
      (∀ lines ∈ after.sets, Packed lines ∧ (validTags lines).Nodup) ∧
      (∃ lines, after.sets[cfg.setIndex address]? = some lines ∧
        cfg.inputTag address ∈ validTags lines) ∧
      (after.tally.hits = before.tally.hits + 1 ∧ after.tally.misses = before.tally.misses ∨
        after.tally.hits = before.tally.hits ∧ after.tally.misses = before.tally.misses + 1) ∧
      after.tally.hits + after.tally.misses = (trace ++ [address]).length ∧
      after.tally.evictions + after.validLines = after.tally.misses ∧
      ∀ again, cacheSimulate cfg after address = some again →
        again.tally = after.tally.add .hit ∧ again.sets.map validTags
        = after.sets.map validTags := by
  obtain ⟨hbefore, haddress⟩ := List.forall_mem_append.mp hrange
  have hlt := haddress address (List.mem_singleton_self address)
  obtain ⟨sim, hsim⟩ : ∃ sim, sim = Sim.run cfg (Sim.start cfg) trace := ⟨_, rfl⟩
  have hok : sim.Ok cfg (0 + trace.length) := hsim ▸ (Sim.Ok.init cfg).run hE hbefore
  have haccess := access_accessed hE hok address
  have hstep := hok.step hE hlt
  obtain ⟨hnodup, hmem⟩ := haccess.tags (hok.filled _).nodup
  have hruns : simulateAll cfg trace = some (sim.globals cfg) := by
    rw [hsim]
    refine simulateAll_eq hs hE hbefore ?_
    rw [List.length_append] at hlen
    omega
  have hcall : cacheSimulate cfg (sim.globals cfg) address
      = some ((Sim.access cfg sim address).globals cfg) := by
    have hall := simulateAll_eq hs hE hrange hlen
    rw [simulateAll_concat, hruns, Option.bind_some, Sim.run_concat, ← hsim] at hall
    exact hall
  refine ⟨_, _, hruns, hcall, fun lines hlines => ?_, ⟨_, ?_, hmem⟩, haccess.counts.2.2, ?_, ?_,
    fun again hagain => ?_⟩
  · obtain ⟨i, -, rfl⟩ := List.mem_map.mp hlines
    exact ⟨(hstep.filled i).packed, (hstep.filled i).nodup⟩
  · rw [Sim.getElem?_globals, if_pos hlt]
  · have htotal := hstep.total
    rw [Nat.zero_add] at htotal
    rw [List.length_append]
    exact htotal
  · rw [Sim.validLines_globals]
    exact hstep.evictions
  · obtain ⟨htally, htags⟩ := @access_again cfg (Sim.access cfg sim address) address hnodup hmem
    obtain ⟨-, rfl⟩ := cacheSimulate_eq_some hagain
    refine ⟨htally, ?_⟩
    rw [Sim.globals, Sim.globals, List.map_map, List.map_map]
    exact List.map_congr_left fun i _ => htags i

end Runs

/-- Two lines a set, one set bit, and blocks of two bytes. -/
def twoByTwo : Config := { setBits := 1, numLines := 2, dataBits := 1 }

theorem bookkeeping_twoByTwo :
    ∃ before after, simulateAll twoByTwo [0, 4, 8, 2] = some before ∧
      cacheSimulate twoByTwo before 0 = some after ∧
      (∀ lines ∈ after.sets, Packed lines ∧ (validTags lines).Nodup) ∧
      (∃ lines, after.sets[twoByTwo.setIndex 0]? = some lines ∧
        twoByTwo.inputTag 0 ∈ validTags lines) ∧
      (after.tally.hits = before.tally.hits + 1 ∧ after.tally.misses = before.tally.misses ∨
        after.tally.hits = before.tally.hits ∧ after.tally.misses = before.tally.misses + 1) ∧
      after.tally.hits + after.tally.misses = ([0, 4, 8, 2] ++ [(0 : UInt32)]).length ∧
      after.tally.evictions + after.validLines = after.tally.misses ∧
      ∀ again, cacheSimulate twoByTwo after 0 = some again →
        again.tally = after.tally.add .hit ∧ again.sets.map validTags = after.sets.map validTags :=
  bookkeeping (by decide) (by decide) [0, 4, 8, 2] 0
    (by simp only [List.cons_append, List.nil_append, List.forall_mem_cons, List.not_mem_nil,
      false_implies, implies_true]; decide) (by decide)

/-! ## Where a counter overflows -/

section Overflow
variable {cfg : Config} {address : UInt32}

theorem run_replicate (hE : 1 ≤ cfg.numLines) (hrange : cfg.setIndex address < 2 ^ cfg.setBits)
    (n : Nat) :
    (Sim.run cfg (Sim.start cfg) (List.replicate (n + 1) address)).tally.hits = n ∧
      cfg.inputTag address ∈ validTags
        ((Sim.run cfg (Sim.start cfg) (List.replicate (n + 1) address)).sets
        (cfg.setIndex address)) := by
  have hok : ∀ k, (Sim.run cfg (Sim.start cfg) (List.replicate k address)).Ok cfg (0 + k) := by
    intro k
    have hmem : ∀ a ∈ List.replicate k address, cfg.setIndex a < 2 ^ cfg.setBits :=
      fun a ha => List.eq_of_mem_replicate ha ▸ hrange
    have hrun := (Sim.Ok.init cfg).run hE hmem
    rwa [List.length_replicate] at hrun
  induction n with
  | zero =>
      have haccess := access_accessed hE (Sim.Ok.init cfg) address
      have hmiss := haccess.misses_of_notMem (by rw [validTags_start]; exact List.not_mem_nil)
      have htotal := (hok 1).total
      refine ⟨?_, (haccess.tags (by rw [validTags_start]; exact List.nodup_nil)).2⟩
      change (Sim.access cfg (Sim.start cfg) address).tally.misses = 0 + 1 at hmiss
      change (Sim.access cfg (Sim.start cfg) address).tally.hits
        + (Sim.access cfg (Sim.start cfg) address).tally.misses = 0 + 1 at htotal
      change (Sim.access cfg (Sim.start cfg) address).tally.hits = 0
      omega
  | succ n ih =>
      obtain ⟨hhits, hmem⟩ := ih
      obtain ⟨htally, htags⟩ := access_again ((hok (n + 1)).filled _).nodup hmem
      rw [List.replicate_succ', Sim.run_concat, htags, htally]
      exact ⟨congrArg (· + 1) hhits, hmem⟩

/-- The calls are as many as an `int` counts and one more. -/
theorem not_bookkeeping : ¬ ∀ (cfg : Config) (trace : List UInt32) (address : UInt32),
    (initializeCache cfg).isSome → 1 ≤ cfg.numLines →
    (∀ a ∈ trace ++ [address], cfg.setIndex a < 2 ^ cfg.setBits) →
    ∃ before after, simulateAll cfg trace = some before ∧
      cacheSimulate cfg before address = some after ∧
      after.tally.hits + after.tally.misses = (trace ++ [address]).length := by
  intro hall
  obtain ⟨n, hn⟩ : ∃ n, n = 2 ^ 31 := ⟨_, rfl⟩
  have hlast : List.replicate n (0 : UInt32) ++ [0] = List.replicate (n + 1) 0 :=
    List.replicate_succ'.symm
  obtain ⟨before, after, hbefore, hafter, -⟩ := hall twoByTwo (List.replicate n 0) 0 (by decide)
    (by decide) fun a ha => List.eq_of_mem_replicate (hlast ▸ ha) ▸ by decide
  obtain ⟨lines, hcounted⟩ := Counted.of_cacheSimulate _ hafter
  have hrun : simulateAll twoByTwo (List.replicate (n + 1) 0) = some after := by
    rw [← hlast, simulateAll_concat, hbefore, Option.bind_some, hafter]
  obtain ⟨hmany, -⟩ := @run_replicate twoByTwo 0 (by decide) (by decide) n
  have hhits : after.tally.hits = n := by
    rw [simulateAll_globals hrun]
    exact hmany
  exact absurd hcounted.hits (by omega)

end Overflow

end InternetLabs.Cache
