/-
# `InternetLabs.Cache.Compulsory` — misses that no cache of this size avoids

The first access to a block is a miss whatever is evicted (`Cold.misses`).  A set evicts for the
first time when it is asked for more tags than it has lines, and up to then it holds all the tags
it has been asked for (`Cold.tags`).  So a trace that asks no set for more tags than it has lines
misses each of its blocks once, which is all `no_evictions_iff` says; it does not matter which
line the simulator would have evicted.
-/
import InternetLabs.Cache.Bookkeeping

namespace InternetLabs.Cache

open InternetLabs

section Set
variable {lines : List Line} {t : Int} {tally : Lru.Tally}

theorem accessSet_evictions (hmem : t ∉ validTags lines)
    (hlt : (validTags lines).length < lines.length) :
    (accessSet lines t tally).2.evictions = tally.evictions := by
  have hall : ¬ lines.all (·.valid) = true := fun h => hlt.ne ((all_valid_iff lines).mp h)
  rw [accessSet_miss hmem, if_neg hall]
  cases findEmptyLine lines <;> rfl

variable {after : List Line × Lru.Tally}

theorem Accessed.evictions_le (h : Accessed lines t tally after) :
    tally.evictions ≤ after.2.evictions := by
  cases h with
  | hit => exact Nat.le_refl _
  | fill => exact Nat.le_refl _
  | evict => exact Nat.le_succ _

theorem Accessed.evictions_of_mem (h : Accessed lines t tally after) (hmem : t ∈ validTags lines) :
    after.2.evictions = tally.evictions := by
  cases h with
  | hit => rfl
  | fill hnot => exact (hnot hmem).elim
  | evict _ hnot => exact (hnot hmem).elim

/-- A hit changes no tag, and a tag that is put into an empty line is added to the others. -/
theorem Accessed.tags_eq (h : Accessed lines t tally after)
    (hkeep : after.2.evictions = tally.evictions) :
    (validTags after.1).toFinset = insert t (validTags lines).toFinset := by
  cases h with
  | hit hmem =>
      rw [validTags_map_bump]
      exact (Finset.insert_eq_self.mpr (List.mem_toFinset.mpr hmem)).symm
  | fill hmem hempty hl ht =>
      obtain ⟨hi, hinv, -⟩ := List.findIdx?_eq_some_iff_getElem.mp hempty
      have hperm := validTags_set_invalid hi (by simpa using hinv) hl
      rw [ht] at hperm
      rw [List.toFinset_eq_of_perm _ _ hperm, List.toFinset_cons]
  | evict => exact absurd hkeep (Nat.succ_ne_self _)

theorem Accessed.tags_subset (h : Accessed lines t tally after) :
    (validTags after.1).toFinset ⊆ insert t (validTags lines).toFinset := by
  cases h with
  | hit hmem =>
      rw [validTags_map_bump]
      exact Finset.subset_insert _ _
  | fill hmem hempty hl ht =>
      have hfill : Accessed lines t tally _ := .fill hmem hempty hl ht
      exact (hfill.tags_eq rfl).subset
  | @evict i l hi hmem hold hl ht =>
      have hin : lines[i].tag ∈ validTags lines :=
        List.mem_map.mpr ⟨_, List.mem_filter.mpr ⟨List.getElem_mem hi, hold⟩, rfl⟩
      have hperm := validTags_set_valid hi hold hl (List.perm_cons_erase hin)
      rw [ht] at hperm
      rw [List.toFinset_eq_of_perm _ _ hperm, List.toFinset_cons]
      refine Finset.insert_subset_insert _ fun x hx => ?_
      exact List.mem_toFinset.mpr (List.mem_of_mem_erase (List.mem_toFinset.mp hx))

end Set

/-! ## The blocks of a trace

A trace asks each set for some tags; how many there are in all is the least number of
misses. -/

section Trace
variable (cfg : Config)

/-- The tags that a trace asks the set `i` for. -/
def tagsOf (i : Nat) (trace : List UInt32) : Finset Int :=
  ((trace.filter fun a => cfg.setIndex a = i).map cfg.inputTag).toFinset

/-- The number of blocks a trace is in. -/
def blocks (trace : List UInt32) : Nat :=
  ∑ i ∈ Finset.range (2 ^ cfg.setBits), (tagsOf cfg i trace).card

variable {cfg}

theorem tagsOf_concat (i : Nat) (trace : List UInt32) (a : UInt32) :
    tagsOf cfg i (trace ++ [a])
      = if cfg.setIndex a = i then insert (cfg.inputTag a) (tagsOf cfg i trace)
      else tagsOf cfg i trace := by
  rw [tagsOf, List.filter_append]
  split
  next h =>
    have hone : [a].filter (fun b => cfg.setIndex b = i) = [a] := by simp [h]
    rw [hone, List.map_append, List.toFinset_append]
    exact Finset.union_comm _ _
  next h =>
    have hone : [a].filter (fun b => cfg.setIndex b = i) = [] := by simp [h]
    rw [hone, List.append_nil]
    rfl

theorem tagsOf_mono (i : Nat) (trace : List UInt32) (a : UInt32) :
    tagsOf cfg i trace ⊆ tagsOf cfg i (trace ++ [a]) := by
  rw [tagsOf_concat]
  split
  · exact Finset.subset_insert _ _
  · exact Finset.Subset.refl _

theorem blocks_concat (trace : List UInt32) {a : UInt32}
    (hrange : cfg.setIndex a < 2 ^ cfg.setBits) :
    blocks cfg (trace ++ [a])
      = blocks cfg trace + if cfg.inputTag a ∈ tagsOf cfg (cfg.setIndex a) trace then 0 else 1 := by
  have hmem := Finset.mem_range.mpr hrange
  have hothers : ∑ i ∈ (Finset.range (2 ^ cfg.setBits)).erase (cfg.setIndex a),
        (tagsOf cfg i (trace ++ [a])).card
      = ∑ i ∈ (Finset.range (2 ^ cfg.setBits)).erase (cfg.setIndex a),
          (tagsOf cfg i trace).card := by
    refine Finset.sum_congr rfl fun i hi => ?_
    rw [tagsOf_concat, if_neg (Finset.ne_of_mem_erase hi).symm]
  rw [blocks, blocks, ← Finset.add_sum_erase _ _ hmem, ← Finset.add_sum_erase _ _ hmem, hothers,
    tagsOf_concat, if_pos rfl]
  split
  next h =>
    rw [Finset.insert_eq_self.mpr h]
    rfl
  next h =>
    rw [Finset.card_insert_of_notMem h]
    omega

end Trace

/-! ## Runs -/

/-- **What is in the cache, and what has been missed**, after a trace from the start. -/
structure Cold (cfg : Config) (trace : List UInt32) (sim : Sim) : Prop where
  ok : sim.Ok cfg trace.length
  subset : ∀ i, (validTags (sim.sets i)).toFinset ⊆ tagsOf cfg i trace
  misses : blocks cfg trace ≤ sim.tally.misses
  tags : sim.tally.evictions = 0 → ∀ i, (validTags (sim.sets i)).toFinset = tagsOf cfg i trace

section Runs
variable {cfg : Config} {trace : List UInt32} {sim : Sim}

theorem Cold.init (cfg : Config) : Cold cfg [] (Sim.start cfg) := by
  have hnone : ∀ i, (validTags ((Sim.start cfg).sets i)).toFinset = ∅ := fun i => by
    rw [Sim.start, validTags, List.filter_replicate]
    rfl
  have hblocks : blocks cfg [] = 0 := Finset.sum_eq_zero fun i _ => rfl
  exact ⟨.init cfg, fun i => (hnone i).subset, hblocks.le, fun _ i => hnone i⟩

/-- **An access.** -/
theorem Cold.step (hE : 1 ≤ cfg.numLines) (h : Cold cfg trace sim) {a : UInt32}
    (hrange : cfg.setIndex a < 2 ^ cfg.setBits) :
    Cold cfg (trace ++ [a]) (Sim.access cfg sim a) := by
  have haccess := access_accessed hE h.ok a
  obtain ⟨-, hevictions, hgrew⟩ := haccess.counts
  simp only at hevictions hgrew
  refine ⟨?_, fun i => ?_, ?_, fun hzero i => ?_⟩
  · rw [List.length_append, List.length_singleton]
    exact h.ok.step hE hrange
  · rw [tagsOf_concat]
    by_cases hi : cfg.setIndex a = i
    · subst hi
      rw [if_pos rfl]
      exact haccess.tags_subset.trans (Finset.insert_subset_insert _ (h.subset _))
    · rw [if_neg hi, access_other sim (Ne.symm hi)]
      exact h.subset i
  · rw [blocks_concat trace hrange]
    have hbefore := h.misses
    split
    · omega
    next hnew =>
      -- the tag is in no line, so the access does not hit
      have hmiss : cfg.inputTag a ∉ validTags (sim.sets (cfg.setIndex a)) :=
        fun hmem => hnew (h.subset _ (List.mem_toFinset.mpr hmem))
      have hmisses := haccess.misses_of_notMem hmiss
      simp only at hmisses
      omega
  · have hsim : sim.tally.evictions = 0 ∧ (Sim.access cfg sim a).tally.evictions
        = sim.tally.evictions := by
      have hle := haccess.evictions_le
      simp only at hle
      omega
    rw [tagsOf_concat]
    by_cases hi : cfg.setIndex a = i
    · subst hi
      rw [if_pos rfl, ← h.tags hsim.1]
      exact haccess.tags_eq hsim.2
    · rw [if_neg hi, access_other sim (Ne.symm hi)]
      exact h.tags hsim.1 i

theorem Cold.run (hE : 1 ≤ cfg.numLines) (hrange : ∀ a ∈ trace, cfg.setIndex a < 2 ^ cfg.setBits) :
    Cold cfg trace (Sim.run cfg (Sim.start cfg) trace) := by
  induction trace using List.reverseRecOn with
  | nil => exact .init cfg
  | append_singleton trace a ih =>
      obtain ⟨hpast, ha⟩ := List.forall_mem_append.mp hrange
      rw [Sim.run, List.foldl_append]
      exact (ih hpast).step hE (ha a (List.mem_singleton_self a))

/-- A set holds as many tags as it has lines in use. -/
theorem Cold.card (h : Cold cfg trace sim) (i : Nat) :
    (validTags (sim.sets i)).toFinset.card = (validTags (sim.sets i)).length :=
  List.toFinset_card_of_nodup (h.ok.filled i).nodup

/-- No set evicts as long as none is asked for more tags than it has lines. -/
theorem Cold.evictions_eq_zero (hE : 1 ≤ cfg.numLines)
    (hrange : ∀ a ∈ trace, cfg.setIndex a < 2 ^ cfg.setBits)
    (hfits : ∀ i, (tagsOf cfg i trace).card ≤ cfg.numLines) :
    (Sim.run cfg (Sim.start cfg) trace).tally.evictions = 0 := by
  induction trace using List.reverseRecOn with
  | nil => rfl
  | append_singleton trace a ih =>
      obtain ⟨hpast, -⟩ := List.forall_mem_append.mp hrange
      have hbefore := ih hpast fun i =>
        (Finset.card_le_card (tagsOf_mono i trace a)).trans (hfits i)
      have hcold := Cold.run hE hpast
      generalize hsim : Sim.run cfg (Sim.start cfg) trace = sim at hbefore hcold
      have hrun : Sim.run cfg (Sim.start cfg) (trace ++ [a]) = Sim.access cfg sim a := by
        rw [← hsim, Sim.run, List.foldl_append]
        rfl
      rw [hrun, ← hbefore]
      by_cases hmem : cfg.inputTag a ∈ validTags (sim.sets (cfg.setIndex a))
      · exact (access_accessed hE hcold.ok a).evictions_of_mem hmem
      · -- one tag more than the set holds, and it has room for all of them
        have htags := hcold.tags hbefore (cfg.setIndex a)
        have hnew : cfg.inputTag a ∉ tagsOf cfg (cfg.setIndex a) trace := by
          rw [← htags]
          exact fun h => hmem (List.mem_toFinset.mp h)
        have hcard := hfits (cfg.setIndex a)
        rw [tagsOf_concat, if_pos rfl, Finset.card_insert_of_notMem hnew,
          ← htags, hcold.card] at hcard
        refine accessSet_evictions hmem ?_
        rw [hcold.ok.length]
        exact hcard

/-- **Which misses the cache can avoid.**  Every block of a trace is missed once, at least.  Nothing
is evicted exactly if no set is asked for more tags than it has lines, and then every block is
missed once. -/
theorem no_evictions_iff (hs : cfg.setBits ≤ 30) (hE : 1 ≤ cfg.numLines)
    (hrange : ∀ a ∈ trace, cfg.setIndex a < 2 ^ cfg.setBits) (hlen : trace.length < 2 ^ 31) :
    ∃ g, simulateAll cfg trace = some g ∧ blocks cfg trace ≤ g.tally.misses ∧
      (g.tally.evictions = 0 ↔ ∀ i, (tagsOf cfg i trace).card ≤ cfg.numLines) ∧
      (g.tally.evictions = 0 → g.tally.misses = blocks cfg trace ∧
        g.tally.hits = trace.length - blocks cfg trace) := by
  have hcold := Cold.run hE hrange
  have hmisses : (Sim.run cfg (Sim.start cfg) trace).tally.evictions = 0 →
      (Sim.run cfg (Sim.start cfg) trace).tally.misses = blocks cfg trace := by
    intro hzero
    rw [← hcold.ok.evictions, hzero, Nat.zero_add]
    exact Finset.sum_congr rfl fun i _ => by rw [← hcold.card, hcold.tags hzero]
  refine ⟨(Sim.run cfg (Sim.start cfg) trace).globals cfg, simulateAll_eq hs hE hrange hlen,
    hcold.misses, ⟨fun hzero i => ?_, Cold.evictions_eq_zero hE hrange⟩, fun hzero => ?_⟩
  · rw [← hcold.tags hzero, hcold.card, ← hcold.ok.length i]
    exact length_validTags_le _
  · have htotal := hcold.ok.total
    have hnone := hmisses hzero
    refine ⟨hnone, ?_⟩
    change (Sim.run cfg (Sim.start cfg) trace).tally.hits = _
    omega

end Runs

/-- Three blocks in a set of two lines: the third is one too many. -/
theorem no_evictions_twoByTwo :
    (simulateAll twoByTwo [0, 4, 2, 8]).map Globals.tally = some ⟨0, 4, 1⟩ ∧
      ¬ ∀ i, (tagsOf twoByTwo i [0, 4, 2, 8]).card ≤ twoByTwo.numLines := by
  have hrange : ∀ a ∈ [(0 : UInt32), 4, 2, 8], twoByTwo.setIndex a < 2 ^ twoByTwo.setBits := by
    simp only [List.forall_mem_cons, List.not_mem_nil, false_implies, implies_true]
    decide
  have htally : (simulateAll twoByTwo [0, 4, 2, 8]).map Globals.tally = some ⟨0, 4, 1⟩ := by decide
  obtain ⟨g, hg, -, hevictions, -⟩ := @no_evictions_iff twoByTwo [0, 4, 2, 8]
    (by decide) (by decide) hrange (by decide)
  refine ⟨htally, fun hfits => ?_⟩
  have hzero := hevictions.mpr hfits
  rw [hg, Option.map_some, Option.some.injEq] at htally
  rw [htally] at hzero
  cases hzero

end InternetLabs.Cache
