/-
# `InternetLabs.Lib.Loop` — while loops that may not end

A loop body is a function `body : σ → Step σ α`: one evaluation of the guard
and, if it holds, of the body.  It either goes round again, leaves the loop with
a value, or faults (reads memory that is not there).

`run body fuel s` executes the loop with at most `fuel` rounds.  A loop that
does not end is a loop `run` answers `none` for at every fuel; a loop that
faults is likewise answered by `none`.  The two are told apart by `Halts`, which
only asks that the rounds come to an end.  What a loop that returns has done is
told by induction on its rounds (`Returns.induct`).

The rounds of a loop are a walk (`InternetLabs.Lib.Walk`) on its states.  When
the guard and the branches look only at a *key* of the state (`Keyed`), they are
a walk on the keys, and the two theorems on finite walks carry over:
`halts_iff_acyclic`, and `returns_iff_run`, by which a fuel as large as the
set of keys is enough.
-/
import InternetLabs.Lib.Walk

namespace InternetLabs

/-- What one round of a loop does. -/
inductive Step (σ α : Type*) where
  | next (s : σ)
  | ret (a : α)
  | fault

namespace Loop

variable {σ α κ : Type*}

/-- The state of the next round, if there is one. -/
def advance (body : σ → Step σ α) (s : σ) : Option σ :=
  match body s with
  | .next s' => some s'
  | _ => none

/-- The loop makes finitely many rounds. -/
abbrev Halts (body : σ → Step σ α) (s : σ) : Prop := Ends (advance body) s

/-- Execute the loop for at most `fuel` rounds. -/
def run (body : σ → Step σ α) : Nat → σ → Option α
  | 0, _ => none
  | fuel + 1, s =>
      match body s with
      | .next s' => run body fuel s'
      | .ret a => some a
      | .fault => none

/-- The loop leaves with the value `a`. -/
def Returns (body : σ → Step σ α) (s : σ) (a : α) : Prop :=
  ∃ fuel, run body fuel s = some a

variable {body : σ → Step σ α}

theorem advance_eq_some {s s' : σ} : advance body s = some s' ↔ body s = .next s' := by
  unfold advance
  cases h : body s <;> simp

theorem advance_of_ret {s : σ} {a : α} (h : body s = .ret a) : advance body s = none := by
  simp only [advance, h]

theorem advance_of_fault {s : σ} (h : body s = .fault) : advance body s = none := by
  simp only [advance, h]

theorem run_next {s s' : σ} (h : body s = .next s') (fuel : Nat) :
    run body (fuel + 1) s = run body fuel s' := by
  simp only [run, h]

theorem run_ret {s : σ} {a : α} (h : body s = .ret a) (fuel : Nat) :
    run body (fuel + 1) s = some a := by
  simp only [run, h]

theorem run_fault {s : σ} (h : body s = .fault) (fuel : Nat) : run body fuel s = none := by
  cases fuel with
  | zero => rfl
  | succ fuel => simp only [run, h]

/-! ## Running and returning

A loop returns if some number of rounds is enough; more of them change nothing. -/

theorem run_mono {m n : Nat} (hmn : m ≤ n) {s : σ} {a : α} (h : run body m s = some a) :
    run body n s = some a := by
  induction m generalizing n s with
  | zero => cases h
  | succ m ih =>
      obtain ⟨n, rfl⟩ : ∃ k, n = k + 1 := ⟨n - 1, by omega⟩
      cases hb : body s with
      | next s' =>
          rw [run_next hb] at h ⊢
          exact ih (Nat.le_of_succ_le_succ hmn) h
      | ret b => rw [run_ret hb] at h ⊢; exact h
      | fault => rw [run_fault hb] at h; cases h

theorem Returns.unique {s : σ} {a b : α} (ha : Returns body s a) (hb : Returns body s b) :
    a = b := by
  obtain ⟨m, hm⟩ := ha
  obtain ⟨n, hn⟩ := hb
  have hm' := run_mono (Nat.le_max_left m n) hm
  have hn' := run_mono (Nat.le_max_right m n) hn
  exact Option.some.inj (hm'.symm.trans hn')

theorem returns_of_ret {s : σ} {a : α} (h : body s = .ret a) : Returns body s a :=
  ⟨1, run_ret h 0⟩

theorem returns_of_next {s s' : σ} {a : α} (h : body s = .next s')
    (hr : Returns body s' a) : Returns body s a := by
  obtain ⟨n, hn⟩ := hr
  exact ⟨n + 1, by rw [run_next h]; exact hn⟩

theorem returns_next_iff {s s' : σ} {a : α} (h : body s = .next s') :
    Returns body s a ↔ Returns body s' a := by
  refine ⟨fun ⟨n, hn⟩ => ?_, returns_of_next h⟩
  cases n with
  | zero => cases hn
  | succ n => exact ⟨n, by rwa [run_next h] at hn⟩

theorem returns_ret_iff {s : σ} {a b : α} (h : body s = .ret b) : Returns body s a ↔ a = b :=
  ⟨fun ha => ha.unique (returns_of_ret h), fun hab => hab ▸ returns_of_ret h⟩

theorem not_returns_fault {s : σ} {a : α} (h : body s = .fault) : ¬ Returns body s a := by
  rintro ⟨n, hn⟩
  rw [run_fault h] at hn
  cases hn

theorem returns_iff_run_of_measure (μ : σ → Nat) (hμ : ∀ s s', body s = .next s' → μ s' < μ s)
    {s : σ} {a : α} : Returns body s a ↔ run body (μ s + 1) s = some a := by
  refine ⟨fun h => ?_, fun h => ⟨_, h⟩⟩
  induction hk : μ s using Nat.strong_induction_on generalizing s with
  | _ k ih =>
      cases hb : body s with
      | next s' =>
          have hlt := hμ s s' hb
          have hrun := ih (μ s') (hk ▸ hlt) ((returns_next_iff hb).mp h) rfl
          rw [run_next hb]
          exact run_mono (by omega) hrun
      | ret b => rw [run_ret hb, (returns_ret_iff hb).mp h]
      | fault => exact (not_returns_fault hb h).elim

theorem run_of_walk {n : Nat} {s t : σ} {a : α} (ht : walk (advance body) n s = some t)
    (hret : body t = .ret a) : run body (n + 1) s = some a := by
  induction n generalizing s with
  | zero => cases ht; exact run_ret hret 0
  | succ n ih =>
      rw [walk_succ] at ht
      obtain ⟨s', hs', ht⟩ := Option.bind_eq_some_iff.mp ht
      rw [run_next (advance_eq_some.mp hs')]
      exact ih ht

theorem returns_iff_walk {s : σ} {a : α} :
    Returns body s a ↔ ∃ n t, walk (advance body) n s = some t ∧ body t = .ret a := by
  constructor
  · rintro ⟨fuel, h⟩
    induction fuel generalizing s with
    | zero => cases h
    | succ fuel ih =>
        cases hb : body s with
        | next s' =>
            rw [run_next hb] at h
            obtain ⟨n, t, ht, hret⟩ := ih h
            exact ⟨n + 1, t, by rw [walk_succ_of_some (advance_eq_some.mpr hb)]; exact ht,
              hret⟩
        | ret b =>
            rw [run_ret hb] at h
            cases h
            exact ⟨0, s, rfl, hb⟩
        | fault => rw [run_fault hb] at h; cases h
  · rintro ⟨n, t, ht, hret⟩
    exact ⟨n + 1, run_of_walk ht hret⟩

theorem returns_walk_iff {n : Nat} {s t : σ} {a : α} (ht : walk (advance body) n s = some t) :
    Returns body s a ↔ Returns body t a := by
  induction n generalizing s with
  | zero => cases ht; exact Iff.rfl
  | succ n ih =>
      rw [walk_succ] at ht
      obtain ⟨s', hs', ht⟩ := Option.bind_eq_some_iff.mp ht
      rw [returns_next_iff (advance_eq_some.mp hs')]
      exact ih ht

theorem halts_of_returns {s : σ} {a : α} (h : Returns body s a) : Halts body s := by
  obtain ⟨n, t, ht, hret⟩ := returns_iff_walk.mp h
  exact ⟨n + 1, by rw [walk_add, ht]; exact walk_succ_of_none (advance_of_ret hret) 0⟩

theorem returns_or_fault_of_halts {s : σ} (h : Halts body s) :
    (∃ a, Returns body s a) ∨ ∃ n t, walk (advance body) n s = some t ∧ body t = .fault := by
  obtain ⟨n, hn⟩ := h
  induction n generalizing s with
  | zero => cases hn
  | succ n ih =>
      cases hb : body s with
      | next s' =>
          have hadv := advance_eq_some.mpr hb
          rw [walk_succ_of_some hadv] at hn
          rcases ih hn with ⟨a, ha⟩ | ⟨m, t, ht, hf⟩
          · exact .inl ⟨a, returns_of_next hb ha⟩
          · exact .inr ⟨m + 1, t, by rw [walk_succ_of_some hadv]; exact ht, hf⟩
      | ret a => exact .inl ⟨a, returns_of_ret hb⟩
      | fault => exact .inr ⟨0, s, rfl, hb⟩

theorem not_returns_of_fault {s t : σ} {n : Nat} (ht : walk (advance body) n s = some t)
    (hf : body t = .fault) (a : α) : ¬ Returns body s a := by
  intro h
  obtain ⟨m, u, hu, hret⟩ := returns_iff_walk.mp h
  have hstop : ∀ {k : Nat} {v : σ}, walk (advance body) k s = some v → advance body v = none →
      walk (advance body) (k + 1) s = none := by
    intro k v hv hnone
    rw [walk_add, hv]
    exact walk_succ_of_none hnone 0
  rcases Nat.lt_trichotomy m n with hlt | heq | hgt
  · obtain ⟨y, hy⟩ := walk_some_of_le hlt ht
    rw [Nat.succ_eq_add_one, hstop hu (advance_of_ret hret)] at hy
    cases hy
  · subst heq
    rw [hu] at ht
    cases ht
    rw [hret] at hf
    cases hf
  · obtain ⟨y, hy⟩ := walk_some_of_le hgt hu
    rw [Nat.succ_eq_add_one, hstop ht (advance_of_fault hf)] at hy
    cases hy

/-! ## Induction on the rounds

Rules for invariants, for measures, and for two loops that do the same. -/

/-- **Induction on the rounds of a loop that returns.**  What holds of a state when it
holds of the state the round leads to, if it leads to one, holds of every state that the
loop returns from. -/
@[elab_as_elim]
theorem Returns.induct {a : α} {motive : ∀ s, Returns body s a → Prop}
    (round : ∀ s (h : Returns body s a),
      (∀ s' (hb : body s = .next s'), motive s' ((returns_next_iff hb).mp h)) → motive s h)
    {s : σ} (h : Returns body s a) : motive s h := by
  obtain ⟨fuel, hrun⟩ := h
  induction fuel generalizing s with
  | zero => cases hrun
  | succ fuel ih =>
      refine round s ⟨fuel + 1, hrun⟩ fun s' hb => ?_
      rw [run_next hb] at hrun
      exact ih hrun

/-- What every round keeps holds of every state that a round begins with. -/
theorem walk_invariant {I : σ → Prop} (hI : ∀ s s', I s → body s = .next s' → I s')
    {n : Nat} {s t : σ} (hs : I s) (h : walk (advance body) n s = some t) : I t := by
  induction n generalizing s with
  | zero => cases h; exact hs
  | succ n ih =>
      rw [walk_succ] at h
      obtain ⟨s', hs', h⟩ := Option.bind_eq_some_iff.mp h
      exact ih (hI s s' hs (advance_eq_some.mp hs')) h

/-- **Partial correctness.**  What every round keeps, and what the last round makes of it. -/
theorem run_keeps {I : σ → Prop} {Q : α → Prop} (hnext : ∀ s s', I s → body s = .next s' → I s')
    (hret : ∀ s a, I s → body s = .ret a → Q a) {fuel : Nat} {s : σ} {a : α} (hs : I s)
    (h : run body fuel s = some a) : Q a := by
  obtain ⟨n, t, ht, hlast⟩ := returns_iff_walk.mp ⟨fuel, h⟩
  exact hret t a (walk_invariant hnext hs ht) hlast

/-- **Total correctness.**  A loop whose rounds keep `I` and make `μ` smaller, until one leaves
it with `Q`. -/
theorem run_spec {I : σ → Prop} {Q : α → Prop} (μ : σ → Nat)
    (hround : ∀ s, I s → (∃ s', body s = .next s' ∧ I s' ∧ μ s' < μ s) ∨ ∃ a, body s = .ret a ∧ Q a)
    {s : σ} (hs : I s) {fuel : Nat} (hfuel : μ s < fuel) : ∃ a, run body fuel s = some a ∧ Q a := by
  induction fuel generalizing s with
  | zero => exact absurd hfuel (Nat.not_lt_zero _)
  | succ fuel ih =>
      obtain ⟨s', hb, hI, hlt⟩ | ⟨a, hb, hQ⟩ := hround s hs
      · rw [run_next hb]
        exact ih hI (by omega)
      · exact ⟨a, run_ret hb fuel, hQ⟩

/-- Loops that do the same in every state that is reached return the same. -/
theorem Returns.congr {body' : σ → Step σ α} {s : σ} {a : α} (h : Returns body s a)
    (hsame : ∀ n t, walk (advance body) n s = some t → body t = body' t) : Returns body' s a := by
  induction h using Returns.induct with
  | round s h ih =>
      have hbody := hsame 0 s rfl
      cases hb : body s with
      | next s' =>
          refine returns_of_next (hbody.symm.trans hb) (ih s' hb fun n t ht => hsame (n + 1) t ?_)
          rwa [walk_succ_of_some (advance_eq_some.mpr hb)]
      | ret b =>
          rw [(returns_ret_iff hb).mp h]
          exact returns_of_ret (hbody.symm.trans hb)
      | fault => exact (not_returns_fault hb h).elim

/-- The loop leaves with the value `a`, and every state a round begins with meets `P`. -/
def ReturnsWith (body : σ → Step σ α) (P : σ → Prop) (s : σ) (a : α) : Prop :=
  Returns body s a ∧ ∀ n t, walk (advance body) n s = some t → P t

section ReturnsWith
variable {P : σ → Prop} {s : σ} {a : α}

theorem returnsWith_next_iff {s' : σ} (h : body s = .next s') :
    ReturnsWith body P s a ↔ P s ∧ ReturnsWith body P s' a := by
  have hadv := advance_eq_some.mpr h
  rw [ReturnsWith, returns_next_iff h]
  constructor
  · rintro ⟨hret, hall⟩
    refine ⟨hall 0 s rfl, hret, fun n t ht => hall (n + 1) t ?_⟩
    rwa [walk_succ_of_some hadv]
  · rintro ⟨hs, hret, hall⟩
    refine ⟨hret, fun n t ht => ?_⟩
    cases n with
    | zero => cases ht; exact hs
    | succ n => exact hall n t (by rwa [walk_succ_of_some hadv] at ht)

theorem returnsWith_ret_iff {b : α} (h : body s = .ret b) :
    ReturnsWith body P s a ↔ P s ∧ a = b := by
  rw [ReturnsWith, returns_ret_iff h]
  constructor
  · rintro ⟨rfl, hall⟩
    exact ⟨hall 0 s rfl, rfl⟩
  · rintro ⟨hs, rfl⟩
    refine ⟨rfl, fun n t ht => ?_⟩
    cases n with
    | zero => cases ht; exact hs
    | succ n => rw [walk_succ_of_none (advance_of_ret h)] at ht; cases ht

theorem not_returnsWith_fault (h : body s = .fault) : ¬ ReturnsWith body P s a :=
  fun hret => not_returns_fault h hret.1

end ReturnsWith

/-! ## Loops whose control is a walk on keys

`I` is an invariant of the loop; the keys need only be right while it holds. -/

/-- `f` is the walk the loop makes on the keys of its states. -/
structure Keyed (body : σ → Step σ α) (I : σ → Prop) (key : σ → κ) (f : κ → Option κ) :
    Prop where
  inv : ∀ {s s'}, I s → body s = .next s' → I s'
  next : ∀ {s s'}, I s → body s = .next s' → f (key s) = some (key s')
  stop : ∀ {s}, I s → advance body s = none → f (key s) = none

section Keyed
variable {I : σ → Prop} {key : σ → κ} {f : κ → Option κ} (hk : Keyed body I key f)
include hk

theorem Keyed.walk_key (n : Nat) {s : σ} (hs : I s) :
    walk f n (key s) = (walk (advance body) n s).map key := by
  induction n generalizing s with
  | zero => rfl
  | succ n ih =>
      cases hb : advance body s with
      | none => rw [walk_succ_of_none (hk.stop hs hb), walk_succ_of_none hb]; rfl
      | some s' =>
          have hnext := advance_eq_some.mp hb
          rw [walk_succ_of_some (hk.next hs hnext), walk_succ_of_some hb]
          exact ih (hk.inv hs hnext)

theorem Keyed.walk_eq_none {n : Nat} {s : σ} (hs : I s) :
    walk (advance body) n s = none ↔ walk f n (key s) = none := by
  rw [hk.walk_key n hs, Option.map_eq_none_iff]

theorem Keyed.halts_iff {s : σ} (hs : I s) : Halts body s ↔ Ends f (key s) :=
  exists_congr fun _ => hk.walk_eq_none hs

/-- **When a keyed loop makes finitely many rounds.** -/
theorem Keyed.halts_iff_acyclic {S : Finset κ} (hS : ∀ x ∈ S, ∀ y, f x = some y → y ∈ S)
    {s : σ} (hs : I s) (hmem : key s ∈ S) :
    Halts body s ↔ ∀ b, LeadsTo f (key s) b → ¬ OnCycle f b :=
  (hk.halts_iff hs).trans (ends_iff_acyclic hS hmem)

/-- **Enough fuel for a keyed loop**: one round for each key. -/
theorem Keyed.returns_iff_run {S : Finset κ} (hS : ∀ x ∈ S, ∀ y, f x = some y → y ∈ S)
    {s : σ} {a : α} (hs : I s) (hmem : key s ∈ S) {fuel : Nat} (hfuel : S.card ≤ fuel) :
    Returns body s a ↔ run body fuel s = some a := by
  refine ⟨fun h => ?_, fun h => ⟨fuel, h⟩⟩
  have hends : Ends f (key s) := (hk.halts_iff hs).mp (halts_of_returns h)
  have hnone : walk (advance body) S.card s = none :=
    (hk.walk_eq_none hs).mpr (walk_card_eq_none hS hmem hends)
  obtain ⟨n, t, ht, hret⟩ := returns_iff_walk.mp h
  have hlt : n < S.card := by
    by_contra hge
    rw [walk_none_mono (Nat.le_of_not_lt hge) hnone] at ht
    cases ht
  exact run_mono (Nat.le_trans hlt hfuel) (run_of_walk ht hret)

end Keyed

end Loop

end InternetLabs
