/-
# `InternetLabs.Lib.Path` — where a relative path leads

A path is a walk: a name leads down, `..` leads up, `.` and an empty component lead
nowhere.  Resolved lexically a walk comes to so many steps up from where it began, and to
names down from there (`Place`).

Two numbers tell what becomes of a walk: `depth`, how far below its beginning it ends, and
`lowest`, how far up it gets on the way.  What the walk does not climb into is as it was
(`walk_keeps`), and if it climbs above the beginning it stays above (`walk_climbs`).  So a
walk that begins in one directory ends in another of the same parent in two ways only: it
never leaves, or it climbs to the parent and comes back by name (`inside_iff`).
-/
import Mathlib.Algebra.Order.Ring.Int
import InternetLabs.Lib.Bytes

namespace InternetLabs.Path

/-- A component of a path. -/
inductive Comp (α : Type*) where
  | up
  | name (a : α)
deriving DecidableEq

/-- So many steps up, and the names down from there, the last one first. -/
structure Place (α : Type*) where
  ups : Nat
  names : List α
deriving DecidableEq

section Walk
variable {α : Type*}

/-- Where a component leads. -/
def Place.step (p : Place α) : Comp α → Place α
  | .name a => ⟨p.ups, a :: p.names⟩
  | .up =>
      match p.names with
      | [] => ⟨p.ups + 1, []⟩
      | _ :: names => ⟨p.ups, names⟩

/-- Where a walk leads. -/
def walk (p : Place α) (cs : List (Comp α)) : Place α := cs.foldl Place.step p

/-- Where a walk leads that begins nowhere in particular. -/
def resolve (cs : List (Comp α)) : Place α := walk ⟨0, []⟩ cs

/-- How far down a component leads. -/
def Comp.weight : Comp α → Int
  | .up => -1
  | .name _ => 1

/-- How far below its beginning a walk ends. -/
def depth : List (Comp α) → Int
  | [] => 0
  | c :: cs => c.weight + depth cs

/-- The depth where a walk is highest up. -/
def lowest : List (Comp α) → Int
  | [] => 0
  | c :: cs => min 0 (c.weight + lowest cs)

variable {cs : List (Comp α)}

@[simp] theorem walk_nil (p : Place α) : walk p [] = p := rfl

@[simp] theorem walk_cons (p : Place α) (c : Comp α) (cs : List (Comp α)) :
    walk p (c :: cs) = walk (p.step c) cs := rfl

theorem walk_append (p : Place α) (cs cs' : List (Comp α)) :
    walk p (cs ++ cs') = walk (walk p cs) cs' := List.foldl_append

theorem lowest_nonpos (cs : List (Comp α)) : lowest cs ≤ 0 := by
  cases cs with
  | nil => exact Int.le_refl 0
  | cons c cs => exact Int.min_le_left _ _

theorem lowest_append (cs cs' : List (Comp α)) :
    lowest (cs ++ cs') = min (lowest cs) (depth cs + lowest cs') := by
  induction cs with
  | nil => simp [lowest, depth, lowest_nonpos]
  | cons c cs ih =>
      simp only [List.cons_append, lowest, depth, ih]
      omega

/-- **What a walk does not climb into** stays below it. -/
theorem walk_keeps (ups : Nat) {top bot : List α} (h : -(top.length : Int) ≤ lowest cs) :
    ∃ new, walk ⟨ups, top ++ bot⟩ cs = ⟨ups, new ++ bot⟩ ∧
      (new.length : Int) = top.length + depth cs := by
  induction cs generalizing top with
  | nil => exact ⟨top, rfl, (Int.add_zero _).symm⟩
  | cons c cs ih =>
      have hlow := lowest_nonpos cs
      cases c with
      | name a =>
          simp only [lowest, Comp.weight] at h
          obtain ⟨new, hwalk, hlen⟩ := @ih (a :: top) (by rw [List.length_cons]; omega)
          refine ⟨new, hwalk, ?_⟩
          rw [hlen, List.length_cons, depth, Comp.weight]
          omega
      | up =>
          simp only [lowest, Comp.weight] at h
          cases top with
          | nil =>
              rw [List.length_nil] at h
              omega
          | cons t top =>
              rw [List.length_cons] at h
              obtain ⟨new, hwalk, hlen⟩ := @ih top (by omega)
              refine ⟨new, hwalk, ?_⟩
              rw [hlen, List.length_cons, depth, Comp.weight]
              omega

theorem ups_le_walk (p : Place α) (cs : List (Comp α)) : p.ups ≤ (walk p cs).ups := by
  induction cs generalizing p with
  | nil => exact Nat.le_refl _
  | cons c cs ih =>
      refine Nat.le_trans ?_ (ih (p.step c))
      cases c with
      | name a => exact Nat.le_refl _
      | up =>
          cases hnames : p.names with
          | nil =>
              simp only [Place.step, hnames]
              exact Nat.le_succ _
          | cons n names =>
              simp only [Place.step, hnames]
              exact Nat.le_refl _

/-- **A walk that climbs above its beginning** stays above. -/
theorem walk_climbs {ups : Nat} {names : List α} (h : lowest cs < -(names.length : Int)) :
    ups < (walk ⟨ups, names⟩ cs).ups := by
  induction cs generalizing names with
  | nil =>
      simp only [lowest] at h
      omega
  | cons c cs ih =>
      cases c with
      | name a =>
          simp only [lowest, Comp.weight] at h
          exact @ih (a :: names) (by rw [List.length_cons]; omega)
      | up =>
          simp only [lowest, Comp.weight] at h
          cases names with
          | nil => exact ups_le_walk ⟨ups + 1, []⟩ cs
          | cons n names =>
              rw [List.length_cons] at h
              exact @ih names (by omega)

/-- Where a walk is highest up for the last time, and how it goes on. -/
theorem exists_lowest (cs : List (Comp α)) :
    ∃ before after, cs = before ++ after ∧ depth before = lowest cs ∧
      (after = [] ∨ ∃ a rest, after = .name a :: rest ∧ 0 ≤ lowest rest) := by
  induction cs with
  | nil => exact ⟨[], [], rfl, rfl, .inl rfl⟩
  | cons c cs ih =>
      obtain ⟨before, after, hcs, hdepth, hafter⟩ := ih
      have hlow := lowest_nonpos cs
      by_cases hfirst : c.weight + lowest cs ≤ 0
      · refine ⟨c :: before, after, by rw [hcs]; rfl, ?_, hafter⟩
        rw [depth, lowest, hdepth, Int.min_eq_right hfirst]
      · -- the walk only goes down from here
        refine ⟨[], c :: cs, rfl, ?_, .inr ?_⟩
        · rw [depth, lowest]
          omega
        · cases c with
          | up =>
              rw [Comp.weight] at hfirst
              omega
          | name a =>
              rw [Comp.weight] at hfirst
              exact ⟨a, cs, rfl, by omega⟩

/-! ## Ending in a directory

Where a path leads depends on how high up it climbs on its way. -/

/-- The walk never leaves the directory it begins in. -/
def Stays (cs : List (Comp α)) : Prop := 0 ≤ lowest cs

/-- The walk climbs to the parent of where it begins, but not above, and comes back through
`base`, which it does not leave again. -/
def Returns (base : α) (cs : List (Comp α)) : Prop :=
  ∃ before after, cs = before ++ .name base :: after ∧ depth before = -1 ∧ -1 ≤ lowest before ∧
    0 ≤ lowest after

/-- The place is the directory `base`, or below it. -/
def Place.Inside (base : α) (p : Place α) : Prop := p.ups = 0 ∧ ∃ rest, p.names = rest ++ [base]

/-- The place is below the directory `base`. -/
def Place.Below (base : α) (p : Place α) : Prop :=
  p.ups = 0 ∧ ∃ rest, rest ≠ [] ∧ p.names = rest ++ [base]

variable {a base : α}

theorem append_singleton_inj {xs ys : List α} {x y : α} (h : xs ++ [x] = ys ++ [y]) :
    xs = ys ∧ x = y := by
  obtain ⟨hxs, hx⟩ := List.append_inj' h rfl
  exact ⟨hxs, List.head_eq_of_cons_eq hx⟩

theorem walk_of_stays (h : Stays cs) :
    ∃ rest, walk ⟨0, [a]⟩ cs = ⟨0, rest ++ [a]⟩ ∧ (rest.length : Int) = depth cs := by
  obtain ⟨rest, hwalk, hlen⟩ := @walk_keeps α cs 0 [] [a] h
  exact ⟨rest, hwalk, by rw [hlen, List.length_nil]; omega⟩

theorem walk_of_returns {before after : List (Comp α)} (hdepth : depth before = -1)
    (hbefore : -1 ≤ lowest before) (hafter : 0 ≤ lowest after) :
    ∃ rest, walk ⟨0, [a]⟩ (before ++ .name base :: after) = ⟨0, rest ++ [base]⟩ := by
  obtain ⟨new, hwalk, hlen⟩ := @walk_keeps α before 0 [a] [] hbefore
  rw [hdepth, List.length_singleton] at hlen
  have hnil : new = [] := List.eq_nil_of_length_eq_zero (by omega)
  obtain ⟨rest, hrest, -⟩ := @walk_of_stays α after base hafter
  refine ⟨rest, ?_⟩
  rw [walk_append, show walk ⟨0, [a]⟩ before = _ from hwalk, hnil]
  exact hrest

theorem lowest_of_ups (hups : (walk ⟨0, [a]⟩ cs).ups = 0) : -1 ≤ lowest cs := by
  by_contra hlt
  have hclimbs := @walk_climbs α cs 0 [a] (by rw [List.length_singleton]; omega)
  omega

/-- **A walk that begins in `a` ends in its sibling `base`** exactly if it stays, and they are
the same, or it returns through `base`. -/
theorem inside_iff : (walk ⟨0, [a]⟩ cs).Inside base ↔ a = base ∧ Stays cs ∨ Returns base cs := by
  constructor
  · rintro ⟨hups, rest, hnames⟩
    have hlow := lowest_of_ups hups
    by_cases hstays : Stays cs
    · obtain ⟨new, hwalk, -⟩ := @walk_of_stays α cs a hstays
      rw [hwalk] at hnames
      exact .inl ⟨(append_singleton_inj hnames).2, hstays⟩
    right
    obtain ⟨before, after, hcs, hdepth, hafter⟩ := exists_lowest cs
    have hdepth : depth before = -1 := by
      rw [Stays] at hstays
      omega
    have hbefore : -1 ≤ lowest before := by
      rw [hcs, lowest_append] at hlow
      omega
    rcases hafter with rfl | ⟨c, tail, rfl, htail⟩
    · -- it ends in the parent
      obtain ⟨new, hwalk, hlen⟩ := @walk_keeps α before 0 [a] [] hbefore
      rw [hcs, List.append_nil, show walk ⟨0, [a]⟩ before = _ from hwalk] at hnames
      have hlast := congrArg List.length hnames
      simp only [List.append_nil, List.length_append, List.length_singleton] at hlast
      rw [hdepth, List.length_singleton] at hlen
      omega
    · obtain ⟨new, hwalk⟩ := @walk_of_returns α a c before tail hdepth hbefore htail
      rw [hcs, hwalk] at hnames
      obtain rfl := (append_singleton_inj hnames).2
      exact ⟨before, tail, hcs, hdepth, hbefore, htail⟩
  · rintro (⟨rfl, hstays⟩ | ⟨before, after, rfl, hdepth, hbefore, hafter⟩)
    · obtain ⟨rest, hwalk, -⟩ := @walk_of_stays α cs a hstays
      rw [hwalk]
      exact ⟨rfl, rest, rfl⟩
    · obtain ⟨rest, hwalk⟩ := @walk_of_returns α a base before after hdepth hbefore hafter
      rw [hwalk]
      exact ⟨rfl, rest, rfl⟩

theorem below_iff : (walk ⟨0, [a]⟩ cs).Below base ↔
    (a = base ∧ Stays cs ∨ Returns base cs) ∧ 0 < depth cs := by
  rw [← inside_iff]
  have hlength : (walk ⟨0, [a]⟩ cs).ups = 0 →
      ((walk ⟨0, [a]⟩ cs).names.length : Int) = 1 + depth cs := by
    intro hups
    obtain ⟨new, hwalk, hlen⟩ := @walk_keeps α cs 0 [a] [] (lowest_of_ups hups)
    rw [show walk ⟨0, [a]⟩ cs = _ from hwalk, List.append_nil]
    exact hlen
  constructor
  · rintro ⟨hups, rest, hne, hnames⟩
    refine ⟨⟨hups, rest, hnames⟩, ?_⟩
    have hlen := hlength hups
    rw [hnames, List.length_append, List.length_singleton] at hlen
    have := List.length_pos_iff.mpr hne
    omega
  · rintro ⟨⟨hups, rest, hnames⟩, hdepth⟩
    refine ⟨hups, rest, ?_, hnames⟩
    rintro rfl
    have hlen := hlength hups
    rw [hnames, List.nil_append, List.length_singleton] at hlen
    omega

end Walk

/-! ## Paths as text

The components of a text between its slashes, of which the empty ones and the dots lead
nowhere. -/

/-- What a component of the text of a path leads to. -/
def ofText (c : Bytes) : Option (Comp Bytes) :=
  if c = ascii "." then none else if c = ascii ".." then some .up else some (.name c)

/-- The components of a path. -/
def comps (path : Bytes) : List (Comp Bytes) := (strtokAll (· == 47) path).filterMap ofText

theorem comps_append_slash (xs ys : Bytes) : comps (xs ++ 47 :: ys) = comps xs ++ comps ys := by
  rw [comps, strtokAll_append_cons xs ys (by decide), List.filterMap_append]
  rfl

theorem comps_slash (ys : Bytes) : comps (47 :: ys) = comps ys := by
  rw [comps, strtokAll_cons_delim ys (by decide)]
  rfl

theorem comps_name {c : Bytes} (hne : c ≠ []) (hslash : (47 : UInt8) ∉ c) (hdot : c ≠ ascii ".")
    (hup : c ≠ ascii "..") : comps c = [.name c] := by
  have hrun : ∀ b ∈ c, (b == 47) = false := fun b hb => by
    rw [beq_eq_false_iff_ne]
    exact fun heq => hslash (heq ▸ hb)
  rw [comps, strtokAll_run hne hrun, List.filterMap_cons, ofText, if_neg hdot, if_neg hup]
  rfl

end InternetLabs.Path
