/-
# `InternetLabs.Lib.ForLoop` — loops that count

`for (k = lo; guard k; k = next k) body k`, on a machine whose integers end: the guard and
the next value of the counter may fault as well as the body.  Such a loop is a while loop
(`InternetLabs.Lib.Loop`) on the counter and the state.

What guard and counter do is told once (`Counts`: `n` rounds, in even steps), and then the
loop is an induction on the rounds: `Counts.run` for a body that keeps an invariant,
`Leads.run_eq_none` for a loop that reaches a round it cannot make.
-/
import InternetLabs.Lib.Loop

namespace InternetLabs

/-- A `for` loop, except for where it starts. -/
structure ForLoop (σ : Type*) where
  guard : Nat → Option Bool
  next : Nat → Option Nat
  body : Nat → σ → Option σ

namespace ForLoop

variable {σ : Type*}

/-- One round: the guard, the body, the next value of the counter. -/
def round (l : ForLoop σ) : Nat × σ → Step (Nat × σ) σ
  | (k, s) =>
      match l.guard k with
      | none => .fault
      | some false => .ret s
      | some true =>
          match (l.body k s).bind fun s' => (l.next k).map fun k' => (k', s') with
          | none => .fault
          | some s' => .next s'

/-- Execute the loop from `lo` for at most `fuel` rounds. -/
def run (l : ForLoop σ) (fuel lo : Nat) (s : σ) : Option σ := Loop.run l.round fuel (lo, s)

/-- The guard holds for `n` rounds, whose counters are `step` apart. -/
structure Leads (l : ForLoop σ) (lo step n : Nat) : Prop where
  guard : ∀ k < n, l.guard (lo + k * step) = some true
  next : ∀ k < n, l.next (lo + k * step) = some (lo + (k + 1) * step)

/-- The guard ends the loop after `n` rounds. -/
structure Counts (l : ForLoop σ) (lo step n : Nat) : Prop extends Leads l lo step n where
  stop : l.guard (lo + n * step) = some false

variable {l : ForLoop σ} {lo step n : Nat}

theorem round_of_true {k k' : Nat} {s s' : σ} (hg : l.guard k = some true)
    (hb : l.body k s = some s') (hn : l.next k = some k') :
    l.round (k, s) = .next (k', s') := by
  simp only [round, hg, hb, hn, Option.bind_some, Option.map_some]

theorem round_of_false {k : Nat} (hg : l.guard k = some false) (s : σ) :
    l.round (k, s) = .ret s := by
  simp only [round, hg]

theorem round_of_guard {k : Nat} (hg : l.guard k = none) (s : σ) : l.round (k, s) = .fault := by
  simp only [round, hg]

theorem round_of_body {k : Nat} {s : σ} (hg : l.guard k = some true) (hb : l.body k s = none) :
    l.round (k, s) = .fault := by
  simp only [round, hg, hb, Option.bind_none]

/-- **The invariant rule.** -/
theorem Counts.run {I : Nat → σ → Prop} (hl : l.Counts lo step n)
    (hbody : ∀ k < n, ∀ s, I k s → ∃ s', l.body (lo + k * step) s = some s' ∧ I (k + 1) s')
    {s : σ} (hs : I 0 s) {fuel : Nat} (hfuel : n < fuel) :
    ∃ s', l.run fuel lo s = some s' ∧ I n s' := by
  have hrest : ∀ m k fuel s, k + m = n → m < fuel → I k s →
      ∃ s', Loop.run l.round fuel (lo + k * step, s) = some s' ∧ I n s' := by
    intro m
    induction m with
    | zero =>
        intro k fuel s hk hfuel hI
        obtain ⟨fuel, rfl⟩ : ∃ f, fuel = f + 1 := ⟨fuel - 1, by omega⟩
        obtain rfl : k = n := by omega
        exact ⟨s, Loop.run_ret (round_of_false hl.stop s) fuel, hI⟩
    | succ m ih =>
        intro k fuel s hk hfuel hI
        obtain ⟨fuel, rfl⟩ : ∃ f, fuel = f + 1 := ⟨fuel - 1, by omega⟩
        have hkn : k < n := by omega
        obtain ⟨s', hs', hI'⟩ := hbody k hkn s hI
        rw [Loop.run_next (round_of_true (hl.guard k hkn) hs' (hl.next k hkn))]
        exact ih (k + 1) fuel s' (by omega) (by omega) hI'
  have hlo : lo + 0 * step = lo := by rw [Nat.zero_mul, Nat.add_zero]
  have hrun := hrest n 0 fuel s (Nat.zero_add n) hfuel hs
  rwa [hlo] at hrun

/-- A loop whose guards lead it to a round that faults does not get past it. -/
theorem Leads.run_eq_none (hl : l.Leads lo step n)
    (hfault : ∀ s, l.round (lo + n * step, s) = .fault) (fuel : Nat) (s : σ) :
    l.run fuel lo s = none := by
  have hrest : ∀ m k fuel s, k + m = n → Loop.run l.round fuel (lo + k * step, s) = none := by
    intro m
    induction m with
    | zero =>
        intro k fuel s hk
        obtain rfl : k = n := hk
        exact Loop.run_fault (hfault s) fuel
    | succ m ih =>
        intro k fuel s hk
        have hkn : k < n := by omega
        cases fuel with
        | zero => rfl
        | succ fuel =>
            cases hb : l.body (lo + k * step) s with
            | none => exact Loop.run_fault (round_of_body (hl.guard k hkn) hb) _
            | some s' =>
                rw [Loop.run_next (round_of_true (hl.guard k hkn) hb (hl.next k hkn))]
                exact ih (k + 1) fuel s' (by omega)
  have hlo : lo + 0 * step = lo := by rw [Nat.zero_mul, Nat.add_zero]
  have hrun := hrest n 0 fuel s (Nat.zero_add n)
  rwa [hlo] at hrun

end ForLoop

end InternetLabs
