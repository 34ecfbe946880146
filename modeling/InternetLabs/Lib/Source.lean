/-
# `InternetLabs.Lib.Source` — reading from a source piece by piece

A source hands out its items in pieces of any size: it is asked for at most `n`, and gives
some of them, or says that it should be asked again, or fails.  An empty piece is the end, and
`none` a call that does not return.  `Serves` says what is behind such a source, a list of items
that are `unread`: every piece is the front of it, whatever the sizes of the pieces are.

`fetch` asks until it has `n` items, which is what robust readers do on top of a source
that gives less than it is asked for.  `fetch_spec` is its specification: it gets the first
`n` items that are unread, or fails on the way.
-/
import InternetLabs.Lib.Loop

namespace InternetLabs

/-- What asking a source comes to. -/
inductive Pull (α : Type*) where
  | data (xs : List α)
  | again
  | failed
deriving DecidableEq

namespace Source

variable {σ α : Type*}

/-- Behind the source are the items `unread`; once it is `quiet` it does not fail, and it says
`again` at most `patience` times. -/
structure Serves (pull : Nat → σ → Option (Pull α × σ)) (quiet : σ → Prop) (unread : σ → List α)
    (patience : σ → Nat) : Prop where
  ends : ∀ n s, ∃ r s', pull n s = some (r, s')
  data : ∀ {n s xs s'}, 0 < n → pull n s = some (.data xs, s') → xs.length ≤ n ∧
    unread s = xs ++ unread s' ∧ (xs = [] → unread s = [])
  again : ∀ {n s s'}, pull n s = some (.again, s') → unread s' = unread s ∧
    patience s' < patience s
  failed : ∀ {n s s'}, pull n s = some (.failed, s') → unread s' = unread s ∧ ¬ quiet s
  quiet : ∀ {n s r s'}, pull n s = some (r, s') → quiet s → quiet s'
  patience : ∀ {n s r s'}, pull n s = some (r, s') → patience s' ≤ patience s

/-! ## Fetching

A loop that asks a source for items until there are enough of them, whatever the sizes
of the pieces. -/

/-- How many items are still wanted, those that have come, and the source. -/
structure Fetch (σ α : Type*) where
  nleft : Nat
  stored : List α
  source : σ

/-- One round of the loop that asks for items until there are enough of them; the value says
whether it has ended without a failure. -/
def fetchBody (pull : Nat → σ → Option (Pull α × σ)) (f : Fetch σ α) :
    Step (Fetch σ α) (Bool × List α × σ) :=
  if f.nleft = 0 then .ret (true, f.stored, f.source)
  else
    match pull f.nleft f.source with
    | none => .fault
    | some (.failed, s) => .ret (false, f.stored, s)
    | some (.again, s) => .next { f with source := s }
    | some (.data xs, s) =>
        if xs = [] then .ret (true, f.stored, s)
        else .next ⟨f.nleft - xs.length, f.stored ++ xs, s⟩

/-- Ask for `n` items. -/
def fetch (pull : Nat → σ → Option (Pull α × σ)) (fuel n : Nat) (s : σ) :
    Option (Bool × List α × σ) :=
  Loop.run (fetchBody pull) fuel ⟨n, [], s⟩

/-- What asking for `n` items may come to: the first `n` that are unread, or some of them and a
failure. -/
structure Fetched (quiet : σ → Prop) (unread : σ → List α) (n : Nat) (s : σ)
    (out : Bool × List α × σ) : Prop where
  rest : unread s = out.2.1 ++ unread out.2.2
  goesOn : quiet s → out.1 = true ∧ quiet out.2.2
  all : out.1 = true → out.2.1 = (unread s).take n
  some : out.1 = false → out.2.1.length < n

section Spec
variable {pull : Nat → σ → Option (Pull α × σ)} {quiet : σ → Prop} {unread : σ → List α}
variable {patience : σ → Nat}

/-- In the loop: what has come, and what is still wanted. -/
structure Fetching (quiet : σ → Prop) (unread : σ → List α) (n : Nat) (s : σ) (f : Fetch σ α) :
    Prop where
  split : unread s = f.stored ++ unread f.source
  count : f.stored.length + f.nleft = n
  quiet : quiet s → quiet f.source

theorem Fetching.round (hs : Serves pull quiet unread patience) {n : Nat} {s : σ} {f : Fetch σ α}
    (h : Fetching quiet unread n s f) :
    (∃ f', fetchBody pull f = .next f' ∧ Fetching quiet unread n s f' ∧
      f'.nleft + patience f'.source < f.nleft + patience f.source) ∨
    ∃ out, fetchBody pull f = .ret out ∧ Fetched quiet unread n s out := by
  obtain ⟨hsplit, hcount, hquiet⟩ := h
  by_cases hn : f.nleft = 0
  · refine .inr ⟨(true, f.stored, f.source), by rw [fetchBody, if_pos hn], hsplit,
      fun hq => ⟨rfl, hquiet hq⟩, fun _ => ?_, nofun⟩
    rw [hsplit, ← hcount, hn, Nat.add_zero, List.take_left]
  obtain ⟨r, s₁, hpull⟩ := hs.ends f.nleft f.source
  have hpat := hs.patience hpull
  cases r with
  | failed =>
      obtain ⟨hsame, hnot⟩ := hs.failed hpull
      refine .inr ⟨(false, f.stored, s₁), by simp only [fetchBody, if_neg hn, hpull], ?_,
        fun hq => (hnot (hquiet hq)).elim, nofun, fun _ => ?_⟩
      · rw [hsplit, hsame]
      · dsimp only
        omega
  | again =>
      obtain ⟨hsame, hless⟩ := hs.again hpull
      refine .inl ⟨{ f with source := s₁ }, by simp only [fetchBody, if_neg hn, hpull], ⟨?_, hcount,
        fun hq => hs.quiet hpull (hquiet hq)⟩, Nat.add_lt_add_left hless _⟩
      rw [hsplit, hsame]
  | data xs =>
      obtain ⟨hle, hxs, hend⟩ := hs.data (Nat.pos_of_ne_zero hn) hpull
      have hquiet' := fun hq => hs.quiet hpull (hquiet hq)
      by_cases hnil : xs = []
      · subst hnil
        refine .inr ⟨(true, f.stored, s₁), by simp only [fetchBody, if_neg hn, hpull, if_true], ?_,
          fun hq => ⟨rfl, hquiet' hq⟩, fun _ => ?_, nofun⟩
        · rw [hsplit, hxs, List.nil_append]
        · rw [hsplit, hend rfl, List.append_nil, List.take_of_length_le (by omega)]
      · have hpos := List.length_pos_iff.mpr hnil
        refine .inl ⟨⟨f.nleft - xs.length, f.stored ++ xs, s₁⟩,
          by simp only [fetchBody, if_neg hn, hpull, if_neg hnil], ⟨?_, ?_, hquiet'⟩, ?_⟩
        · rw [hsplit, hxs, List.append_assoc]
        · dsimp only
          rw [List.length_append]
          omega
        · dsimp only
          omega

/-- **Fetching ends**, and this is what it comes to. -/
theorem fetch_spec (hs : Serves pull quiet unread patience) (n : Nat) (s : σ) {fuel : Nat}
    (hfuel : n + patience s < fuel) :
    ∃ out, fetch pull fuel n s = some out ∧ Fetched quiet unread n s out := by
  have hstart : Fetching quiet unread n s ⟨n, [], s⟩ := ⟨rfl, Nat.zero_add n, id⟩
  exact Loop.run_spec (fun f => f.nleft + patience f.source) (fun _ h => h.round hs) hstart hfuel

/-- The source after a round is the one the round began with, or the one a call has left. -/
theorem fetchBody_source {f : Fetch σ α} {P : σ → Prop} (hs : P f.source)
    (hP : ∀ n s r s', pull n s = some (r, s') → P s → P s') :
    match fetchBody pull f with
    | .next f' => P f'.source
    | .ret out => P out.2.2
    | .fault => True := by
  unfold fetchBody
  by_cases hn : f.nleft = 0
  · rw [if_pos hn]
    exact hs
  rw [if_neg hn]
  obtain hnone | ⟨r, s', hpull⟩ : pull f.nleft f.source = none ∨
      ∃ r s', pull f.nleft f.source = some (r, s') := by
    cases pull f.nleft f.source with
    | none => exact .inl rfl
    | some out => exact .inr ⟨_, _, rfl⟩
  · rw [hnone]
    trivial
  · have hs' := hP _ _ _ _ hpull hs
    rw [hpull]
    cases r with
    | failed => exact hs'
    | again => exact hs'
    | data xs =>
        by_cases hnil : xs = []
        · simpa only [hnil, if_true] using hs'
        · simpa only [hnil, if_false] using hs'

theorem fetch_keeps {P : σ → Prop} (hP : ∀ n s r s', pull n s = some (r, s') → P s → P s')
    {fuel n : Nat} {s : σ} {out : Bool × List α × σ} (h : fetch pull fuel n s = some out)
    (hs : P s) : P out.2.2 := by
  refine Loop.run_keeps (I := fun f => P f.source) (Q := fun out => P out.2.2)
    (fun f f' hf hb => ?_) (fun f out hf hb => ?_) hs h
  all_goals
    have hsource := fetchBody_source hf hP
    rw [hb] at hsource
    exact hsource

theorem fetch_quiet (hs : Serves pull quiet unread patience) (n : Nat) {s : σ} (hq : quiet s)
    {fuel : Nat} (hfuel : n + patience s < fuel) :
    ∃ s', fetch pull fuel n s = some (true, (unread s).take n, s') ∧
      unread s' = (unread s).drop n ∧ quiet s' := by
  obtain ⟨⟨done, xs, s'⟩, hrun, h⟩ := fetch_spec hs n s hfuel
  obtain ⟨rfl, hq'⟩ : done = true ∧ quiet s' := h.goesOn hq
  obtain rfl : xs = (unread s).take n := h.all rfl
  have hrest : unread s = (unread s).take n ++ unread s' := h.rest
  refine ⟨s', hrun, ?_, hq'⟩
  exact List.append_cancel_left (hrest.symm.trans (List.take_append_drop n _).symm)

end Spec

end Source

end InternetLabs
