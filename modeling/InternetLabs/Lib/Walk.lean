/-
# `InternetLabs.Lib.Walk` — following a partial function

A deterministic loop is a partial function `f : κ → Option κ` iterated from a
start.  `walk f n k` is the point reached after `n` steps, `none` if the walk
stopped before.  Two questions are asked of such a walk again and again, and
both are settled here once, for any `f` whose walk stays in a finite set:

* **does it end?** — exactly when no point it leads to lies on a cycle
  (`ends_iff_acyclic`);
* **how long can it take?** — no longer than the finite set is large
  (`walk_card_eq_none`).

Both rest on one pigeonhole, `exists_repeat`: a walk that outlives the set
visits some point twice, and a point visited twice is visited for ever.
-/
import Mathlib.Logic.Relation
import Mathlib.Data.Fintype.Pigeonhole
import Mathlib.Data.Finset.Card

namespace InternetLabs

variable {κ : Type*}

/-- The point reached from `k` after `n` steps of `f`, if the walk gets there. -/
def walk (f : κ → Option κ) : Nat → κ → Option κ
  | 0, k => some k
  | n + 1, k => (f k).bind (walk f n)

/-- The walk from `k` stops. -/
def Ends (f : κ → Option κ) (k : κ) : Prop := ∃ n, walk f n k = none

/-- One step of `f`, as a relation. -/
def StepTo (f : κ → Option κ) (a b : κ) : Prop := f a = some b

/-- `f` leads from `a` to `b` in some number of steps. -/
abbrev LeadsTo (f : κ → Option κ) : κ → κ → Prop := Relation.ReflTransGen (StepTo f)

/-- `a` lies on a cycle of `f`. -/
def OnCycle (f : κ → Option κ) (a : κ) : Prop := Relation.TransGen (StepTo f) a a

variable {f : κ → Option κ}

@[simp] theorem walk_zero (k : κ) : walk f 0 k = some k := rfl

theorem walk_succ (n : Nat) (k : κ) : walk f (n + 1) k = (f k).bind (walk f n) := rfl

theorem walk_succ_of_some {k k' : κ} (h : f k = some k') (n : Nat) :
    walk f (n + 1) k = walk f n k' := by
  rw [walk_succ, h]; rfl

theorem walk_succ_of_none {k : κ} (h : f k = none) (n : Nat) : walk f (n + 1) k = none := by
  rw [walk_succ, h]; rfl

theorem walk_add (m n : Nat) (k : κ) : walk f (m + n) k = (walk f m k).bind (walk f n) := by
  induction m generalizing k with
  | zero => simp
  | succ m ih =>
      rw [Nat.succ_add, walk_succ, walk_succ]
      cases f k with
      | none => rfl
      | some k' => exact ih k'

theorem walk_none_mono {m n : Nat} {k : κ} (hmn : m ≤ n) (h : walk f m k = none) :
    walk f n k = none := by
  obtain ⟨d, rfl⟩ := Nat.exists_eq_add_of_le hmn
  rw [walk_add, h]; rfl

theorem walk_some_of_le {m n : Nat} {k x : κ} (hmn : m ≤ n) (h : walk f n k = some x) :
    ∃ y, walk f m k = some y := by
  cases hm : walk f m k with
  | none => rw [walk_none_mono hmn hm] at h; cases h
  | some y => exact ⟨y, rfl⟩

/-! ## Walking and leading to -/

theorem leadsTo_iff_walk {a b : κ} : LeadsTo f a b ↔ ∃ n, walk f n a = some b := by
  constructor
  · intro h
    induction h using Relation.ReflTransGen.head_induction_on with
    | refl => exact ⟨0, rfl⟩
    | head hab _ ih =>
        obtain ⟨n, hn⟩ := ih
        exact ⟨n + 1, by rw [walk_succ_of_some hab]; exact hn⟩
  · rintro ⟨n, hn⟩
    induction n generalizing a with
    | zero => cases hn; exact .refl
    | succ n ih =>
        rw [walk_succ] at hn
        obtain ⟨c, hc, hcb⟩ := Option.bind_eq_some_iff.mp hn
        exact .head hc (ih hcb)

theorem onCycle_iff_walk {a : κ} : OnCycle f a ↔ ∃ n, walk f (n + 1) a = some a := by
  constructor
  · intro h
    obtain ⟨b, hab, hba⟩ := Relation.TransGen.head'_iff.mp h
    obtain ⟨n, hn⟩ := leadsTo_iff_walk.mp hba
    exact ⟨n, by rw [walk_succ_of_some hab]; exact hn⟩
  · rintro ⟨n, hn⟩
    rw [walk_succ] at hn
    obtain ⟨b, hab, hba⟩ := Option.bind_eq_some_iff.mp hn
    exact Relation.TransGen.head' hab (leadsTo_iff_walk.mpr ⟨n, hba⟩)

/-- A walk that goes round a cycle goes round it any number of times. -/
theorem walk_mul_of_cycle {a : κ} {p : Nat} (h : walk f p a = some a) (t : Nat) :
    walk f (p * t) a = some a := by
  induction t with
  | zero => rfl
  | succ t ih => rw [Nat.mul_succ, walk_add, ih]; exact h

theorem not_ends_of_onCycle {a : κ} (h : OnCycle f a) : ¬ Ends f a := by
  rintro ⟨n, hn⟩
  obtain ⟨p, hp⟩ := onCycle_iff_walk.mp h
  have hround := walk_mul_of_cycle hp n
  have hle : n ≤ (p + 1) * n := Nat.le_mul_of_pos_left n (Nat.succ_pos p)
  rw [walk_none_mono hle hn] at hround
  cases hround

theorem ends_of_leadsTo {a b : κ} (hab : LeadsTo f a b) : Ends f a ↔ Ends f b := by
  obtain ⟨m, hm⟩ := leadsTo_iff_walk.mp hab
  constructor
  · rintro ⟨n, hn⟩
    refine ⟨n, ?_⟩
    have h := walk_none_mono (Nat.le_add_left n m) hn
    rwa [walk_add, hm] at h
  · rintro ⟨n, hn⟩
    exact ⟨m + n, by rw [walk_add, hm]; exact hn⟩

theorem not_onCycle_of_ends {a b : κ} (h : Ends f a) (hab : LeadsTo f a b) :
    ¬ OnCycle f b :=
  fun hc => not_ends_of_onCycle hc ((ends_of_leadsTo hab).mp h)

theorem walk_injective_of_ends {k x : κ} (h : Ends f k) {m n : Nat} (hmn : m < n)
    (hm : walk f m k = some x) (hn : walk f n k = some x) : False := by
  refine not_onCycle_of_ends h (leadsTo_iff_walk.mpr ⟨m, hm⟩) (onCycle_iff_walk.mpr ?_)
  obtain ⟨d, rfl⟩ := Nat.exists_eq_add_of_lt hmn
  refine ⟨d, ?_⟩
  rwa [Nat.add_assoc, walk_add, hm] at hn

theorem onCycle_of_leadsTo {a b : κ} (ha : OnCycle f a) (hab : LeadsTo f a b) :
    OnCycle f b := by
  obtain ⟨p, hp⟩ := onCycle_iff_walk.mp ha
  obtain ⟨m, hm⟩ := leadsTo_iff_walk.mp hab
  have hround := walk_mul_of_cycle hp m
  obtain ⟨d, hd⟩ := Nat.exists_eq_add_of_le (Nat.le_mul_of_pos_left m (Nat.succ_pos p))
  rw [hd, walk_add, hm] at hround
  have hba : LeadsTo f b a := leadsTo_iff_walk.mpr ⟨d, hround⟩
  exact (Relation.TransGen.trans_right hba ha).trans_left hab

/-- A walk that takes at least one step of `f` for each step of `g` ends no
earlier than that of `g`. -/
theorem ends_of_transGen {ν : Type*} {g : ν → Option ν} (φ : ν → κ)
    (h : ∀ a b, g a = some b → Relation.TransGen (StepTo f) (φ a) (φ b)) {a : ν}
    (hends : Ends f (φ a)) : Ends g a := by
  have hlong : ∀ m b, walk g m a = some b → ∃ M, m ≤ M ∧ walk f M (φ a) = some (φ b) := by
    intro m
    induction m with
    | zero => intro b hb; cases hb; exact ⟨0, Nat.le_refl 0, rfl⟩
    | succ m ih =>
        intro b hb
        rw [walk_add] at hb
        obtain ⟨c, hc, hcb⟩ := Option.bind_eq_some_iff.mp hb
        have hstep : g c = some b := by
          cases hgc : g c with
          | none => rw [walk_succ_of_none hgc] at hcb; cases hcb
          | some b' => rw [walk_succ_of_some hgc] at hcb; exact hcb
        obtain ⟨M, hmM, hM⟩ := ih c hc
        obtain ⟨d, hd, hdb⟩ := Relation.TransGen.head'_iff.mp (h c b hstep)
        obtain ⟨n, hn⟩ := leadsTo_iff_walk.mp hdb
        refine ⟨M + (n + 1), by omega, ?_⟩
        rw [walk_add, hM, Option.bind_some, walk_succ_of_some hd]
        exact hn
  obtain ⟨N, hN⟩ := hends
  refine ⟨N, ?_⟩
  cases hw : walk g N a with
  | none => rfl
  | some b =>
      obtain ⟨M, hNM, hM⟩ := hlong N b hw
      rw [walk_none_mono hNM hN] at hM
      cases hM

/-! ## Finite walks

`S` is a finite set the walk cannot leave. -/

section Finite
variable {S : Finset κ}

theorem walk_mem (hS : ∀ x ∈ S, ∀ y, f x = some y → y ∈ S) {k : κ} (hk : k ∈ S) :
    ∀ {n : Nat} {x : κ}, walk f n k = some x → x ∈ S := by
  intro n
  induction n generalizing k with
  | zero => intro x h; cases h; exact hk
  | succ n ih =>
      intro x h
      rw [walk_succ] at h
      obtain ⟨k', hk', h⟩ := Option.bind_eq_some_iff.mp h
      exact ih (hS k hk k' hk') h

/-- The pigeonhole: a walk of `S.card` steps inside `S` stands somewhere twice. -/
theorem exists_repeat (hS : ∀ x ∈ S, ∀ y, f x = some y → y ∈ S) {k : κ} (hk : k ∈ S)
    {x : κ} (h : walk f S.card k = some x) :
    ∃ m n y, m < n ∧ walk f m k = some y ∧ walk f n k = some y := by
  have hsome : ∀ i : Fin (S.card + 1), ∃ y, walk f i k = some y :=
    fun i => walk_some_of_le (Nat.le_of_lt_succ i.isLt) h
  choose g hg using hsome
  have hmem : ∀ i : Fin (S.card + 1), g i ∈ S := fun i => walk_mem hS hk (hg i)
  have hcard : Fintype.card S < Fintype.card (Fin (S.card + 1)) := by simp
  obtain ⟨i, j, hij, heq⟩ :=
    Fintype.exists_ne_map_eq_of_card_lt (fun i => (⟨g i, hmem i⟩ : S)) hcard
  have hgij : g i = g j := congrArg Subtype.val heq
  rcases lt_or_gt_of_ne (fun h => hij (Fin.ext h) : i.val ≠ j.val) with hlt | hgt
  · exact ⟨i, j, g i, hlt, hg i, hgij ▸ hg j⟩
  · exact ⟨j, i, g j, hgt, hg j, hgij ▸ hg i⟩

/-- **The length of a walk that ends**: no more steps than `S` has points. -/
theorem walk_card_eq_none (hS : ∀ x ∈ S, ∀ y, f x = some y → y ∈ S) {k : κ}
    (hk : k ∈ S) (h : Ends f k) : walk f S.card k = none := by
  cases hw : walk f S.card k with
  | none => rfl
  | some x =>
      obtain ⟨m, n, y, hmn, hm, hn⟩ := exists_repeat hS hk hw
      exact (walk_injective_of_ends h hmn hm hn).elim

/-- **When a walk ends**: exactly when it leads to no cycle. -/
theorem ends_iff_acyclic (hS : ∀ x ∈ S, ∀ y, f x = some y → y ∈ S) {k : κ}
    (hk : k ∈ S) : Ends f k ↔ ∀ b, LeadsTo f k b → ¬ OnCycle f b := by
  constructor
  · exact fun h b hb => not_onCycle_of_ends h hb
  · intro h
    by_contra hends
    cases hw : walk f S.card k with
    | none => exact hends ⟨_, hw⟩
    | some x =>
        obtain ⟨m, n, y, hmn, hm, hn⟩ := exists_repeat hS hk hw
        refine h y (leadsTo_iff_walk.mpr ⟨m, hm⟩) (onCycle_iff_walk.mpr ?_)
        obtain ⟨d, rfl⟩ := Nat.exists_eq_add_of_lt hmn
        refine ⟨d, ?_⟩
        rwa [Nat.add_assoc, walk_add, hm] at hn

end Finite

end InternetLabs
