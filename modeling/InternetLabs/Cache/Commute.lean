/-
# `InternetLabs.Cache.Commute` — accesses to different sets

`cacheSimulate` reads and writes the lines of one set, and what it adds to the counts
depends on those lines alone (`accessSet_add`).  So the sets are places in the sense
of `InternetLabs.Lib.Places`, an access without limits is a step in one of them
(`access_eq_step`), and what holds of such steps holds of traces.

With limits two calls commute as well (`cacheSimulate_comm`): the counts only grow, so
that they overflow in one order if they do in the other.  The calls of one set by
themselves count less than all calls together, and need not overflow where those do
(`not_sets_independent`).
-/
import Mathlib.Data.Finset.Range
import InternetLabs.Lib.Places
import InternetLabs.Cache.Bookkeeping

namespace InternetLabs.Cache

open InternetLabs

theorem accessSet_add (lines : List Line) (t : Int) (tally : Lru.Tally) :
    accessSet lines t tally = ((accessSet lines t 0).1, tally + (accessSet lines t 0).2) := by
  have hzero : (0 : Lru.Tally) = ⟨0, 0, 0⟩ := rfl
  simp only [accessSet, hzero]
  split
  · simp only [Lru.Tally.add_def, Nat.zero_add, Nat.add_zero]
  · split
    · simp only [Lru.Tally.add_def, Nat.zero_add]
    · split <;> simp only [Lru.Tally.add_def, Nat.zero_add, Nat.add_zero]

/-- The sets as places. -/
def Config.places (cfg : Config) : Places Nat (List Line) UInt32 Lru.Tally where
  place := cfg.setIndex
  act address lines := accessSet lines (cfg.inputTag address) 0

/-- The sets and the counts as the state of a machine with places. -/
def Sim.state (sim : Sim) : (Nat → List Line) × Lru.Tally := (sim.sets, sim.tally)

section Trace
variable (cfg : Config)

/-- **An access is a step in its set.** -/
theorem access_eq_step (sim : Sim) (address : UInt32) :
    (Sim.access cfg sim address).state = cfg.places.step sim.state address := by
  simp only [Sim.state, Sim.access, accessSet_add _ _ sim.tally]
  rfl

theorem run_eq_run (sim : Sim) (trace : List UInt32) :
    (Sim.run cfg sim trace).state = cfg.places.run sim.state trace := by
  induction trace generalizing sim with
  | nil => rfl
  | cons address trace ih =>
      rw [Sim.run, List.foldl_cons, ← Sim.run, ih, access_eq_step]
      rfl

/-- The accesses of a trace to the set `i`. -/
def subTrace (i : Nat) (trace : List UInt32) : List UInt32 :=
  trace.filter fun address => cfg.setIndex address = i

/-- The lines and the counts of a trace without limits are those of its accesses to each
set. -/
theorem run_subTrace {trace : List UInt32}
    (hrange : ∀ address ∈ trace, cfg.setIndex address < 2 ^ cfg.setBits) :
    (Sim.run cfg (Sim.start cfg) trace).tally
        = ∑ i ∈ Finset.range (2 ^ cfg.setBits),
            (Sim.run cfg (Sim.start cfg) (subTrace cfg i trace)).tally ∧
      ∀ i, (Sim.run cfg (Sim.start cfg) trace).sets i
        = (Sim.run cfg (Sim.start cfg) (subTrace cfg i trace)).sets i := by
  have hstate : ∀ t, (Sim.run cfg (Sim.start cfg) t).state
      = cfg.places.run ((Sim.start cfg).sets, 0) t := run_eq_run cfg (Sim.start cfg)
  constructor
  · have hmem : ∀ a ∈ trace, cfg.places.place a ∈ Finset.range (2 ^ cfg.setBits) :=
      fun a ha => Finset.mem_range.mpr (hrange a ha)
    have hcount := cfg.places.run_count (Sim.start cfg).sets hmem
    simp only [← hstate] at hcount
    exact hcount
  · intro i
    have hcontents := cfg.places.run_contents ((Sim.start cfg).sets, 0) trace i
    simp only [← hstate] at hcontents
    exact hcontents

/-! ## With limits

A counter that overflows ends the program.  Counters only go up, so it is enough to look
at the last values. -/

/-- The counts of earlier calls are `int`s if those of later ones are. -/
theorem Counted.of_add {lines lines' : List Line} {tally tally' : Lru.Tally}
    (h : Counted lines (tally + tally')) (hlines : ∀ l ∈ lines', l.accessCount < 2 ^ 31) :
    Counted lines' tally := by
  obtain ⟨-, hhits, hmisses, hevictions⟩ := h
  simp only [Lru.Tally.add_def] at hhits hmisses hevictions
  exact ⟨hlines, by omega, by omega, by omega⟩

theorem Counted.append_comm {lines lines' : List Line} {tally : Lru.Tally}
    (h : Counted (lines ++ lines') tally) : Counted (lines' ++ lines) tally :=
  ⟨fun l hl => h.lines l (List.perm_append_comm.mem_iff.mp hl), h.hits, h.misses, h.evictions⟩

theorem cacheSimulate_of_none {g : Globals} {a : UInt32} (h : g.sets[cfg.setIndex a]? = none) :
    cacheSimulate cfg g a = none := by
  simp only [cacheSimulate, h]

variable {cfg} in
/-- **A call leaves the other sets alone.** -/
theorem cacheSimulate_other {g g' : Globals} {a : UInt32} (h : cacheSimulate cfg g a = some g')
    {i : Nat} (hne : cfg.setIndex a ≠ i) : g'.sets[i]? = g.sets[i]? := by
  rw [cacheSimulate] at h
  split at h
  next => cases h
  next =>
    dsimp only at h
    split at h
    next =>
      cases h
      exact List.getElem?_set_ne hne
    next => cases h

variable {cfg} in
/-- Two calls in different sets come to something exactly if both sets have lines, and all
counters are `int`s in the end. -/
theorem cacheSimulate_two {g : Globals} {a b : UInt32} (hne : cfg.setIndex a ≠ cfg.setIndex b)
    {linesA linesB : List Line} (hA : g.sets[cfg.setIndex a]? = some linesA)
    (hB : g.sets[cfg.setIndex b]? = some linesB) :
    (cacheSimulate cfg g a).bind (fun g => cacheSimulate cfg g b) =
      if (linesA ≠ [] ∧ linesB ≠ []) ∧
          Counted ((accessSet linesA (cfg.inputTag a) 0).1
              ++ (accessSet linesB (cfg.inputTag b) 0).1)
            (g.tally + (accessSet linesA (cfg.inputTag a) 0).2
              + (accessSet linesB (cfg.inputTag b) 0).2)
      then some ⟨(g.sets.set (cfg.setIndex a) (accessSet linesA (cfg.inputTag a) 0).1).set
          (cfg.setIndex b) (accessSet linesB (cfg.inputTag b) 0).1,
        g.tally + (accessSet linesA (cfg.inputTag a) 0).2 + (accessSet linesB (cfg.inputTag b) 0).2⟩
      else none := by
  have hB' : (g.sets.set (cfg.setIndex a) (accessSet linesA (cfg.inputTag a) 0).1)[cfg.setIndex b]?
      = some linesB := by rw [List.getElem?_set_ne hne, hB]
  simp only [cacheSimulate, hA, accessSet_add _ _ g.tally]
  by_cases hfirst : linesA ≠ [] ∧ Counted (accessSet linesA (cfg.inputTag a) 0).1
      (g.tally + (accessSet linesA (cfg.inputTag a) 0).2)
  · rw [if_pos hfirst, Option.bind_some]
    simp only [hB', accessSet_add _ _ (g.tally + _)]
    refine if_congr ⟨?_, ?_⟩ rfl rfl
    · rintro ⟨hlines, hcounted⟩
      refine ⟨⟨hfirst.1, hlines⟩, ⟨?_, hcounted.hits, hcounted.misses, hcounted.evictions⟩⟩
      exact List.forall_mem_append.mpr ⟨hfirst.2.lines, hcounted.lines⟩
    · rintro ⟨⟨-, hlines⟩, hcounted⟩
      exact ⟨hlines, ⟨(List.forall_mem_append.mp hcounted.lines).2, hcounted.hits, hcounted.misses,
        hcounted.evictions⟩⟩
  · rw [if_neg hfirst, Option.bind_none, if_neg]
    rintro ⟨⟨hlines, -⟩, hcounted⟩
    exact hfirst ⟨hlines, hcounted.of_add (List.forall_mem_append.mp hcounted.lines).1⟩

/-- **Calls in different sets commute**, wherever they overflow. -/
theorem cacheSimulate_comm (g : Globals) {a b : UInt32} (hne : cfg.setIndex a ≠ cfg.setIndex b) :
    (cacheSimulate cfg g a).bind (fun g => cacheSimulate cfg g b)
      = (cacheSimulate cfg g b).bind fun g => cacheSimulate cfg g a := by
  have hnone : ∀ {x y : UInt32}, cfg.setIndex y ≠ cfg.setIndex x → g.sets[cfg.setIndex x]? = none →
      (cacheSimulate cfg g y).bind (fun g => cacheSimulate cfg g x) = none := by
    intro x y hne hx
    cases hy : cacheSimulate cfg g y with
    | none => rfl
    | some g' =>
        rw [Option.bind_some]
        exact cacheSimulate_of_none cfg ((cacheSimulate_other hy hne).trans hx)
  cases hA : g.sets[cfg.setIndex a]? with
  | none =>
      rw [hnone hne.symm hA, cacheSimulate_of_none cfg hA, Option.bind_none]
  | some linesA =>
      cases hB : g.sets[cfg.setIndex b]? with
      | none =>
          rw [hnone hne hB, cacheSimulate_of_none cfg hB, Option.bind_none]
      | some linesB =>
          rw [cacheSimulate_two hne hA hB, cacheSimulate_two hne.symm hB hA, List.set_comm _ _ hne,
            add_right_comm]
          exact if_congr (and_congr and_comm ⟨.append_comm, .append_comm⟩) rfl rfl

/-- **Accesses to different sets commute**, the lines and the counts of a trace are
those of its accesses to each set run by themselves, and traces with the same accesses
to each set come to the same. -/
theorem sets_independent (hs : cfg.setBits ≤ 30) (hE : 1 ≤ cfg.numLines) :
    (∀ (g : Globals) (a b : UInt32), cfg.setIndex a ≠ cfg.setIndex b →
      (cacheSimulate cfg g a).bind (fun g => cacheSimulate cfg g b)
        = (cacheSimulate cfg g b).bind fun g => cacheSimulate cfg g a) ∧
    (∀ trace : List UInt32, (∀ address ∈ trace, cfg.setIndex address < 2 ^ cfg.setBits) →
      trace.length < 2 ^ 31 →
      ∃ g, simulateAll cfg trace = some g ∧ ∃ parts : Nat → Globals,
        (∀ i, simulateAll cfg (subTrace cfg i trace) = some (parts i)) ∧
        g.tally = ∑ i ∈ Finset.range (2 ^ cfg.setBits), (parts i).tally ∧
        ∀ i, g.sets[i]? = (parts i).sets[i]?) ∧
    (∀ (g : Globals) (trace trace' : List UInt32),
      (∀ i, subTrace cfg i trace = subTrace cfg i trace') →
      simulate cfg g trace = simulate cfg g trace') := by
  refine ⟨fun g a b hne => cacheSimulate_comm cfg g hne, fun trace hrange hlen => ?_,
    fun g trace trace' h => ?_⟩
  · obtain ⟨htally, hsets⟩ := run_subTrace cfg hrange
    refine ⟨_, simulateAll_eq hs hE hrange hlen,
      fun i => (Sim.run cfg (Sim.start cfg) (subTrace cfg i trace)).globals cfg,
      fun i => ?_, htally, fun i => ?_⟩
    · refine simulateAll_eq hs hE (fun a ha => hrange a (List.mem_of_mem_filter ha)) ?_
      exact (List.length_filter_le _ _).trans_lt hlen
    · rw [Sim.getElem?_globals, Sim.getElem?_globals, hsets]
  · have hcomm : ∀ (g : Globals) (a b : UInt32), cfg.setIndex a ≠ cfg.setIndex b → _ :=
      fun g a b hne => cacheSimulate_comm cfg g hne
    exact foldlM_congr_of_comm hcomm h g

end Trace

/-- Two sets of one line, and blocks of two bytes. -/
def twoSets : Config := { setBits := 1, numLines := 1, dataBits := 1 }

theorem twoSets_independent :
    (cacheSimulate twoSets ⟨[[.init], [.init]], .zero⟩ 0).bind (fun g => cacheSimulate twoSets g 2)
        = (cacheSimulate twoSets ⟨[[.init], [.init]], .zero⟩ 2).bind
            (fun g => cacheSimulate twoSets g 0) ∧
      (∃ g, simulateAll twoSets [0, 2, 4, 2] = some g ∧ ∃ parts : Nat → Globals,
        (∀ i, simulateAll twoSets (subTrace twoSets i [0, 2, 4, 2]) = some (parts i)) ∧
        g.tally = ∑ i ∈ Finset.range (2 ^ twoSets.setBits), (parts i).tally ∧
        ∀ i, g.sets[i]? = (parts i).sets[i]?) ∧
      simulate twoSets ⟨[[.init], [.init]], .zero⟩ [0, 2, 4, 2]
        = simulate twoSets ⟨[[.init], [.init]], .zero⟩ [2, 0, 2, 4] := by
  obtain ⟨hcomm, htotal, hcongr⟩ := sets_independent twoSets (by decide) (by decide)
  have hrange : ∀ a ∈ [(0 : UInt32), 2, 4, 2], twoSets.setIndex a < 2 ^ twoSets.setBits := by
    simp only [List.forall_mem_cons, List.not_mem_nil, false_implies, implies_true]
    decide
  refine ⟨hcomm _ 0 2 (by decide), htotal [0, 2, 4, 2] hrange (by decide), hcongr _ _ _ fun i => ?_⟩
  have hzero : twoSets.setIndex 0 = 0 := by decide
  have htwo : twoSets.setIndex 2 = 1 := by decide
  have hfour : twoSets.setIndex 4 = 0 := by decide
  by_cases hi : 0 = i
  · subst hi
    decide
  · simp only [subTrace, List.filter_cons, hzero, htwo, hfour, hi, decide_false, Bool.false_eq_true,
      if_false]

/-- One address of each set, again and again. -/
def busyTrace (n : Nat) : List UInt32 := List.replicate (n + 1) 0 ++ List.replicate (n + 1) 2

theorem subTrace_busyTrace (n i : Nat) : subTrace twoSets i (busyTrace n)
    = if i = 0 then List.replicate (n + 1) 0 else if i = 1 then List.replicate (n + 1) 2
    else [] := by
  have hzero : twoSets.setIndex 0 = 0 := by decide
  have htwo : twoSets.setIndex 2 = 1 := by decide
  rw [subTrace, busyTrace, List.filter_append, List.filter_replicate, List.filter_replicate,
    hzero, htwo]
  by_cases h0 : i = 0
  · simp [h0]
  · by_cases h1 : i = 1
    · simp [h1]
    · simp [h0, h1, Ne.symm h0, Ne.symm h1]

/-- The calls in each set come to their end, and those in both sets overflow `hits`. -/
theorem not_sets_independent : ¬ ∀ (cfg : Config) (trace : List UInt32),
    (initializeCache cfg).isSome → 1 ≤ cfg.numLines →
    (∀ address ∈ trace, cfg.setIndex address < 2 ^ cfg.setBits) →
    ∀ parts : Nat → Globals, (∀ i, simulateAll cfg (subTrace cfg i trace) = some (parts i)) →
    ∃ g, simulateAll cfg trace = some g ∧
      g.tally = ∑ i ∈ Finset.range (2 ^ cfg.setBits), (parts i).tally := by
  intro hall
  obtain ⟨n, hn⟩ : ∃ n, n = 2 ^ 30 := ⟨_, rfl⟩
  have hrange : ∀ a ∈ busyTrace n, twoSets.setIndex a < 2 ^ twoSets.setBits := by
    intro a ha
    obtain h | h := List.mem_append.mp ha
    · rw [List.eq_of_mem_replicate h]
      decide
    · rw [List.eq_of_mem_replicate h]
      decide
  have hpart : ∀ i, simulateAll twoSets (subTrace twoSets i (busyTrace n))
      = some ((Sim.run twoSets (Sim.start twoSets) (subTrace twoSets i (busyTrace n))).globals
          twoSets) := by
    intro i
    refine simulateAll_eq (by decide) (by decide)
      (fun a ha => hrange a (List.mem_of_mem_filter ha)) ?_
    rw [subTrace_busyTrace]
    split
    · rw [List.length_replicate]
      omega
    · split
      · rw [List.length_replicate]
        omega
      · exact Nat.two_pow_pos 31
  obtain ⟨g, hg, -⟩ := hall twoSets (busyTrace n) (by decide) (by decide) hrange _ hpart
  -- each set alone has been hit half as often as an `int` counts
  obtain ⟨htally, -⟩ := run_subTrace twoSets hrange
  have hsum : g.tally.hits = n + n := by
    have h0 := (@run_replicate twoSets 0 (by decide) (by decide) n).1
    have h1 := (@run_replicate twoSets 2 (by decide) (by decide) n).1
    have hboth := congrArg Lru.Tally.hits htally
    rw [simulateAll_globals hg]
    rw [show 2 ^ twoSets.setBits = 2 from rfl, Finset.sum_range_succ, Finset.sum_range_one,
      subTrace_busyTrace, subTrace_busyTrace] at hboth
    exact hboth.trans (congrArg₂ (· + ·) h0 h1)
  have hlast : busyTrace n = (List.replicate (n + 1) 0 ++ List.replicate n 2) ++ [2] := by
    rw [busyTrace, List.append_assoc, ← List.replicate_succ']
  rw [hlast, simulateAll_concat] at hg
  obtain ⟨before, -, hcall⟩ := Option.bind_eq_some_iff.mp hg
  obtain ⟨lines, hcounted⟩ := Counted.of_cacheSimulate _ hcall
  exact absurd hcounted.hits (by omega)

end InternetLabs.Cache
