/-
# `InternetLabs.Lib.System` — systems that take step after step

A `System` says where it may start and which action leads from which state to
which.  A run keeps its past: each step with the state it was taken in, so that a
statement can speak of the steps of a run as well as of the state it has come to.

`Run.invariant` is the induction on runs.  `Run.always_iff` turns a fact about one
step into one about a whole run: if a step keeps `Q` exactly when it meets `P`, then
`Q` holds all along a run exactly when all its steps meet `P`.  `Run.during_iff` is the
same for what a step does on its way.

A pool of threads is a function from their numbers to where each of them is;
`sum_update` counts what they hold when one of them moves.
-/
import Mathlib.Algebra.BigOperators.Group.Finset.Basic
import Mathlib.Algebra.BigOperators.Group.Finset.Piecewise
import Mathlib.Data.Fintype.BigOperators

namespace InternetLabs

/-- A labelled transition system. -/
structure System (σ α : Type*) where
  init : σ → Prop
  step : α → σ → σ → Prop

namespace System

variable {σ α : Type*} {S : System σ α}

/-- `S.Run past s`: from a start, the steps `past` have led to `s`. -/
inductive Run (S : System σ α) : List (σ × α) → σ → Prop
  | start {s : σ} (h : S.init s) : Run S [] s
  | step {past : List (σ × α)} {s s' : σ} {a : α} (h : Run S past s) (hs : S.step a s s') :
      Run S (past ++ [(s, a)]) s'

/-- `Q` has held all along the run that has come to `s`. -/
def Always (Q : σ → Prop) (past : List (σ × α)) (s : σ) : Prop := (∀ x ∈ past, Q x.1) ∧ Q s

/-- **Induction on runs.** -/
theorem Run.invariant {I : List (σ × α) → σ → Prop} (hinit : ∀ s, S.init s → I [] s)
    (hstep : ∀ past s a s', I past s → S.step a s s' → I (past ++ [(s, a)]) s')
    {past : List (σ × α)} {s : σ} (h : S.Run past s) : I past s := by
  induction h with
  | start h => exact hinit _ h
  | step h hs ih => exact hstep _ _ _ _ ih hs

/-- **Along a run whose steps meet `P`**, an invariant that only such steps keep. -/
theorem Run.always_of {I : σ → Prop} {P : σ → α → Prop} (hinit : ∀ s, S.init s → I s)
    (hstep : ∀ a s s', I s → P s a → S.step a s s' → I s') {past : List (σ × α)} {s : σ}
    (h : S.Run past s) (hP : ∀ x ∈ past, P x.1 x.2) : Always I past s := by
  induction h with
  | start hs => exact ⟨nofun, hinit _ hs⟩
  | step hrun hs ih =>
      obtain ⟨hpast, hlast⟩ := List.forall_mem_append.mp hP
      have hbefore := ih hpast
      refine ⟨List.forall_mem_append.mpr ⟨hbefore.1, List.forall_mem_singleton.mpr hbefore.2⟩, ?_⟩
      exact hstep _ _ _ hbefore.2 (hlast _ (List.mem_singleton_self _)) hs

/-- **Along a run.**  A step that keeps `Q` exactly when it meets `P`, where the
invariant `I` holds. -/
theorem Run.always_iff {I Q : σ → Prop} {P : σ → α → Prop} (hinit : ∀ s, S.init s → I s ∧ Q s)
    (hI : ∀ a s s', I s → S.step a s s' → I s')
    (hstep : ∀ a s s', I s → Q s → S.step a s s' → (Q s' ↔ P s a))
    {past : List (σ × α)} {s : σ} (h : S.Run past s) :
    Always Q past s ↔ ∀ x ∈ past, P x.1 x.2 := by
  refine (h.invariant (I := fun past s => I s ∧ (Always Q past s ↔ ∀ x ∈ past, P x.1 x.2))
    (fun s hs => ?_) fun past s a s' ih hs => ?_).2
  · exact ⟨(hinit s hs).1, by simp [Always, (hinit s hs).2]⟩
  · obtain ⟨hIs, ih⟩ := ih
    refine ⟨hI a s s' hIs hs, ?_⟩
    simp only [Always, List.forall_mem_append, List.forall_mem_singleton]
    constructor
    · rintro ⟨⟨hpast, hQ⟩, hQ'⟩
      exact ⟨ih.mp ⟨hpast, hQ⟩, (hstep a s s' hIs hQ hs).mp hQ'⟩
    · rintro ⟨hpast, hP⟩
      obtain ⟨hbefore, hQ⟩ := ih.mpr hpast
      exact ⟨⟨hbefore, hQ⟩, (hstep a s s' hIs hQ hs).mpr hP⟩

/-- **What steps do while they are taken.**  `D` is what a step keeps to on its way;
where that is the case exactly when the step meets `P`, and leads from `Q` to `Q`, it is
the case all along a run, together with `Q`, exactly when all steps meet `P`. -/
theorem Run.during_iff {I Q : σ → Prop} {D P : σ → α → Prop} (hinit : ∀ s, S.init s → I s ∧ Q s)
    (hI : ∀ a s s', I s → S.step a s s' → I s')
    (hstep : ∀ a s s', I s → S.step a s s' → (D s a ↔ P s a))
    (hQ : ∀ a s s', I s → Q s → S.step a s s' → D s a → Q s')
    {past : List (σ × α)} {s : σ} (h : S.Run past s) :
    ((∀ x ∈ past, D x.1 x.2) ∧ Always Q past s) ↔ ∀ x ∈ past, P x.1 x.2 := by
  refine (h.invariant (I := fun past s => I s ∧
    (((∀ x ∈ past, D x.1 x.2) ∧ Always Q past s) ↔ ∀ x ∈ past, P x.1 x.2))
    (fun s hs => ?_) fun past s a s' ih hs => ?_).2
  · exact ⟨(hinit s hs).1, by simp [Always, (hinit s hs).2]⟩
  · obtain ⟨hIs, ih⟩ := ih
    refine ⟨hI a s s' hIs hs, ?_⟩
    simp only [Always, List.forall_mem_append, List.forall_mem_singleton]
    constructor
    · rintro ⟨⟨hD, hDs⟩, ⟨hpast, hQs⟩, -⟩
      exact ⟨ih.mp ⟨hD, hpast, hQs⟩, (hstep a s s' hIs hs).mp hDs⟩
    · rintro ⟨hpast, hP⟩
      obtain ⟨hD, hbefore, hQs⟩ := ih.mpr hpast
      have hDs := (hstep a s s' hIs hs).mpr hP
      exact ⟨⟨hD, hDs⟩, ⟨hbefore, hQs⟩, hQ a s s' hIs hQs hs hDs⟩

/-- **A part of a system.**  Where each step leaves what `f` shows of the state as it is, or is a
step of `T` there, a run shows a run of `T`. -/
theorem Run.project {τ β : Type*} {T : System τ β} (f : σ → τ)
    (hinit : ∀ s, S.init s → T.init (f s))
    (hstep : ∀ a s s', S.step a s s' → f s' = f s ∨ ∃ b, T.step b (f s) (f s'))
    {past : List (σ × α)} {s : σ} (h : S.Run past s) : ∃ past', T.Run past' (f s) := by
  induction h with
  | start hs => exact ⟨[], .start (hinit _ hs)⟩
  | step hrun hs ih =>
      obtain ⟨past', ih⟩ := ih
      obtain hsame | ⟨b, hb⟩ := hstep _ _ _ hs
      · exact ⟨past', hsame ▸ ih⟩
      · exact ⟨_, .step ih hb⟩

/-! ## Systems that compute

A step function gives a system, and a list of actions one of its runs. -/

/-- The system of a step function; `none` where the action cannot be taken. -/
def ofStep (init : σ → Prop) (step : α → σ → Option σ) : System σ α where
  init := init
  step a s s' := step a s = some s'

/-- Take the actions one after the other. -/
def exec (step : α → σ → Option σ) : List α → σ → Option σ
  | [], s => some s
  | a :: as, s => (step a s).bind (exec step as)

theorem exec_cons_of_step {step : α → σ → Option σ} {a : α} {s s' : σ} (h : step a s = some s')
    (as : List α) : exec step (a :: as) s = exec step as s' := by
  rw [exec, h, Option.bind_some]

/-- The steps of an execution, each with the state it is taken in. -/
def steps (step : α → σ → Option σ) : List α → σ → List (σ × α)
  | [], _ => []
  | a :: as, s => (s, a) :: match step a s with
    | none => []
    | some s' => steps step as s'

theorem map_steps {step : α → σ → Option σ} {as : List α} {s s' : σ}
    (h : exec step as s = some s') :
    (steps step as s).map Prod.snd = as := by
  induction as generalizing s with
  | nil => rfl
  | cons a as ih =>
      obtain ⟨s₁, hs, h⟩ := Option.bind_eq_some_iff.mp h
      simp only [steps, hs, List.map_cons, ih h]

/-- What is executed is a run. -/
theorem Run.steps {init : σ → Prop} {step : α → σ → Option σ} {past : List (σ × α)} {s s' : σ}
    {as : List α} (h : (ofStep init step).Run past s) (hexec : exec step as s = some s') :
    (ofStep init step).Run (past ++ System.steps step as s) s' := by
  induction as generalizing past s with
  | nil =>
      cases hexec
      rwa [System.steps, List.append_nil]
  | cons a as ih =>
      obtain ⟨s₁, hs, hexec⟩ := Option.bind_eq_some_iff.mp hexec
      have hrun := ih (.step h hs) hexec
      rw [List.append_assoc, List.singleton_append] at hrun
      simpa only [System.steps, hs] using hrun

theorem Run.exec {init : σ → Prop} {step : α → σ → Option σ} {past : List (σ × α)} {s s' : σ}
    {as : List α} (h : (ofStep init step).Run past s) (hexec : exec step as s = some s') :
    ∃ more, more.map Prod.snd = as ∧ (ofStep init step).Run (past ++ more) s' :=
  ⟨_, map_steps hexec, h.steps hexec⟩

end System

/-! ## Threads

Sums over the threads of a pool, one of which moves. -/

theorem le_sum_pool {ι κ : Type*} [Fintype ι] [DecidableEq ι] (weight : κ → Nat) (pool : ι → κ)
    (i : ι) : weight (pool i) ≤ ∑ j, weight (pool j) :=
  Nat.le.intro (Finset.add_sum_erase _ (fun j => weight (pool j)) (Finset.mem_univ i))

theorem add_le_sum_pool {ι κ : Type*} [Fintype ι] [DecidableEq ι] (weight : κ → Nat) (pool : ι → κ)
    {i j : ι} (hij : i ≠ j) : weight (pool i) + weight (pool j) ≤ ∑ k, weight (pool k) := by
  have hmem : j ∈ Finset.univ.erase i := Finset.mem_erase.mpr ⟨hij.symm, Finset.mem_univ j⟩
  rw [← Finset.add_sum_erase _ _ (Finset.mem_univ i), ← Finset.add_sum_erase _ _ hmem]
  omega

theorem sum_update {ι κ : Type*} [Fintype ι] [DecidableEq ι] (weight : κ → Nat) (pool : ι → κ)
    (i : ι) (x : κ) :
    ∑ j, weight (Function.update pool i x j) + weight (pool i)
      = ∑ j, weight (pool j) + weight x := by
  have hother : ∑ j ∈ Finset.univ.erase i, weight (Function.update pool i x j)
      = ∑ j ∈ Finset.univ.erase i, weight (pool j) :=
    Finset.sum_congr rfl fun j hj => by rw [Function.update_of_ne (Finset.ne_of_mem_erase hj)]
  rw [← Finset.add_sum_erase _ _ (Finset.mem_univ i),
    ← Finset.add_sum_erase _ _ (Finset.mem_univ i), hother, Function.update_self]
  omega

end InternetLabs
