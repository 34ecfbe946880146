/-
# `InternetLabs.Dns.Canonical` — canonical names and names on the wire

`canonicalize_name` of the server library, which works in place: it puts a NUL over the dot at
the end and goes over the name byte by byte.  What it leaves is the text of the name in lower
case (`canonicalizeName_eq`), and that text again is left as it is.

`name_ascii_to_wire` takes the name apart in a buffer of its own, which holds 1023 bytes and a
NUL; longer names are written past its end (`nameAsciiToWireBuffered_eq`).  For names that fit,
the canonical texts are the same exactly when the wire forms differ in the case of letters only.
-/
import InternetLabs.Dns.Resolver
import InternetLabs.Lib.ForLoop

namespace InternetLabs.Dns

open InternetLabs

namespace Server

/-- The loop of `canonicalize_name`. -/
def lowerLoop (namelen : Int) : ForLoop Bytes where
  guard i := some (decide ((i : Int) < namelen))
  next i := some (i + 1)
  body i name := name[i]?.map fun c =>
    if 65 ≤ c.toNat ∧ c.toNat ≤ 90 then name.set i (c + 32) else name

/-- `canonicalize_name`: the memory at `name` afterwards, `none` if it accesses what is not
there.  A `size_t` becomes an `int` here. -/
def canonicalizeName (name : Bytes) : Option Bytes :=
  if cstr name = [dot] then some name
  else
    let namelen : Int := Int.bmod (cstr name).length (2 ^ 32)
    if namelen < 1 then none
    else
      name[(namelen - 1).toNat]?.bind fun c =>
        let name := if c = dot then name.set (namelen - 1).toNat 0 else name
        (lowerLoop namelen).run (namelen.toNat + 1) 0 name

/-- `name_ascii_to_wire` with its `name_buffer`, which `memset` has cleared; `none` if `strncpy`
or `strtok` leave it. -/
def nameAsciiToWireBuffered (name wire : Bytes) : Option (Bytes × Nat) :=
  let nameBuffer := writeAt (List.replicate bufferMax 0) 0 (cstr name)
  if nameBuffer.length ≤ bufferMax ∧ 0 ∈ nameBuffer then
    some (nameToWireLoop 1 1 (strtokAll (· == dot) (cstr nameBuffer)) wire 0 0)
  else none

end Server

/-! ## Lower case -/

/-- An ASCII letter in lower case, and everything else. -/
def lower (c : UInt8) : UInt8 := if 65 ≤ c.toNat ∧ c.toNat ≤ 90 then c + 32 else c

theorem toNat_lower (c : UInt8) :
    (lower c).toNat = if 65 ≤ c.toNat ∧ c.toNat ≤ 90 then c.toNat + 32 else c.toNat := by
  rw [lower]
  split
  · next h =>
    rw [UInt8.toNat_add]
    exact Nat.mod_eq_of_lt (by change c.toNat + 32 < 256; omega)
  · rfl

theorem lower_lower (c : UInt8) : lower (lower c) = lower c := by
  have h := toNat_lower c
  rw [← UInt8.toNat_inj, toNat_lower (lower c)]
  split at h <;> split <;> omega

theorem lower_eq_iff {b : UInt8} (hb : b.toNat < 65) (c : UInt8) : lower c = b ↔ c = b := by
  rw [← UInt8.toNat_inj, ← UInt8.toNat_inj, toNat_lower]
  split <;> omega

theorem lower_eq_dot (c : UInt8) : lower c = dot ↔ c = dot := lower_eq_iff (by decide) c

theorem IsLabel.map_lower {l : Bytes} (h : IsLabel l) : IsLabel (l.map lower) where
  pos := by rw [List.length_map]; exact h.pos
  le := by rw [List.length_map]; exact h.le
  noDot := fun hm => by
    obtain ⟨c, hc, hdot⟩ := List.mem_map.mp hm
    exact h.noDot ((lower_eq_dot c).mp hdot ▸ hc)
  noNul := fun hm => by
    obtain ⟨c, hc, hzero⟩ := List.mem_map.mp hm
    exact h.noNul ((lower_eq_iff (by decide) c).mp hzero ▸ hc)

def Name.lower (n : Name) : Name where
  labels := n.labels.map (List.map Dns.lower)
  ok := by
    intro l hl
    obtain ⟨l', hl', rfl⟩ := List.mem_map.mp hl
    exact (n.ok l' hl').map_lower

theorem Name.lower_lower (n : Name) : n.lower.lower = n.lower := by
  refine Name.ext ?_
  simp only [Name.lower, List.map_map]
  congr 1
  funext l
  simp only [Function.comp_apply, List.map_map, List.map_inj_left]
  exact fun c _ => Dns.lower_lower c

theorem map_lower_labelsText (ls : List Bytes) :
    (labelsText ls).map lower = labelsText (ls.map (List.map lower)) := by
  induction ls with
  | nil => rfl
  | cons l ls ih =>
      cases ls with
      | nil => simp
      | cons l' ls =>
          have hdot : lower dot = dot := (lower_eq_dot dot).mpr rfl
          rw [labelsText_cons_cons, List.map_append, List.map_cons, ih, hdot]
          exact (labelsText_cons_cons _ _ _).symm

theorem canonicalForm_concat {y : Bytes} {c : UInt8} (hroot : y ++ [c] ≠ [dot]) :
    Resolver.canonicalForm (y ++ [c])
      = if c = dot then y.map lower else (y ++ [c]).map lower := by
  rw [Resolver.canonicalForm, if_neg hroot, List.getLast?_append, List.getLast?_singleton,
    List.dropLast_concat]
  by_cases hc : c = dot
  · subst hc
    rw [if_pos rfl]
    rfl
  · have hc' : (some c).or y.getLast? ≠ some dot := fun h => hc (Option.some.inj h)
    rw [if_neg hc, if_neg hc']
    rfl

/-! ## In place

The loop works in the caller's memory, so what is behind the string has to be told as
well. -/

namespace Server

theorem run_lowerLoop {t : Bytes} {n : Nat} (hn : n ≤ t.length) :
    (lowerLoop n).run (n + 1) 0 t = some ((t.take n).map lower ++ t.drop n) := by
  have hcounts : (lowerLoop n).Counts 0 1 n := by
    refine ⟨⟨fun k hk => ?_, fun k _ => ?_⟩, ?_⟩
    · exact congrArg some (decide_eq_true (by omega))
    · exact congrArg some (by omega)
    · exact congrArg some (decide_eq_false (by omega))
  have hround : ∀ k < n, ∀ s : Bytes, s = (t.take k).map lower ++ t.drop k →
      ∃ s', (lowerLoop n).body (0 + k * 1) s = some s' ∧
        s' = (t.take (k + 1)).map lower ++ t.drop (k + 1) := by
    intro k hk s hs
    have hlt : k < t.length := by omega
    have hlen : ((t.take k).map lower).length = k := by
      rw [List.length_map, List.length_take, Nat.min_eq_left hlt.le]
    have hat : s[0 + k * 1]? = some t[k] := by
      rw [hs, Nat.zero_add, Nat.mul_one, List.getElem?_append_right hlen.le, hlen, Nat.sub_self,
        List.getElem?_drop, Nat.add_zero, List.getElem?_eq_getElem hlt]
    have hset : ∀ c, s.set (0 + k * 1) c = (t.take k).map lower ++ c :: t.drop (k + 1) := by
      intro c
      rw [hs, Nat.zero_add, Nat.mul_one, List.set_append_right _ _ hlen.le, hlen, Nat.sub_self,
        List.drop_eq_getElem_cons hlt, List.set_cons_zero]
    have hnext : (t.take (k + 1)).map lower ++ t.drop (k + 1)
        = (t.take k).map lower ++ lower t[k] :: t.drop (k + 1) := by
      rw [List.take_succ_eq_append_getElem hlt, List.map_append, List.append_assoc]
      rfl
    rw [hnext]
    simp only [lowerLoop, hat, Option.map_some, lower]
    split
    · exact ⟨_, rfl, hset _⟩
    · refine ⟨_, rfl, ?_⟩
      rw [hs, List.drop_eq_getElem_cons hlt]
  obtain ⟨s, hrun, hs⟩ := hcounts.run (s := t) hround rfl (Nat.lt_succ_self n)
  rw [hrun, hs]

/-- **What `canonicalize_name` leaves** in place of a string. -/
theorem canonicalizeName_eq {x : Bytes} (hnul : (0 : UInt8) ∉ x) (hpos : 0 < x.length)
    (hlt : x.length < 2 ^ 31) (rest : Bytes) :
    canonicalizeName (x ++ 0 :: rest) = some (Resolver.canonicalForm x
      ++ List.replicate (x.length - (Resolver.canonicalForm x).length) 0 ++ 0 :: rest) := by
  have hcstr : cstr (x ++ 0 :: rest) = x := cstr_append_zero hnul rest
  by_cases hroot : x = [dot]
  · rw [canonicalizeName, hcstr, if_pos hroot, Resolver.canonicalForm, if_pos hroot,
      Nat.sub_self, List.replicate_zero, List.append_nil]
  have hlen : Int.bmod x.length (2 ^ 32) = x.length := by
    rw [Int.bmod_eq_of_le (by omega) (by omega)]
  obtain ⟨y, c, rfl⟩ : ∃ y c, x = y ++ [c] :=
    ⟨x.dropLast, x.getLast (List.ne_nil_of_length_pos hpos), (List.dropLast_append_getLast _).symm⟩
  have hlast : ((y ++ [c]).length - 1 : Int).toNat = y.length := by
    rw [List.length_append, List.length_singleton]
    omega
  have hat : (y ++ [c] ++ 0 :: rest)[y.length]? = some c := by
    rw [List.append_assoc, List.getElem?_append_right (Nat.le_refl _), Nat.sub_self]
    rfl
  have hset : (y ++ [c] ++ 0 :: rest).set y.length 0 = y ++ [0] ++ 0 :: rest := by
    rw [List.append_assoc, List.set_append_right _ _ (Nat.le_refl _), Nat.sub_self,
      List.append_assoc]
    rfl
  have hrun : ∀ b : UInt8, (lowerLoop (y ++ [c]).length).run ((y ++ [c]).length + 1) 0
      (y ++ [b] ++ 0 :: rest) = some ((y ++ [b]).map lower ++ 0 :: rest) := by
    intro b
    have hlen' : (y ++ [c]).length = (y ++ [b]).length := by simp
    rw [hlen', run_lowerLoop (by simp), List.take_left, List.drop_left]
  rw [canonicalizeName, hcstr, if_neg hroot, canonicalForm_concat hroot]
  simp only [hlen, hlast, hat, hset, Option.bind_some, Int.toNat_natCast]
  rw [if_neg (by omega)]
  by_cases hc : c = dot
  · have hzero : (y ++ [0]).map lower = y.map lower ++ List.replicate 1 0 := by
      rw [List.map_append]
      rfl
    rw [if_pos hc, if_pos hc, hrun, hzero, List.length_append, List.length_map,
      List.length_singleton, Nat.add_sub_cancel_left]
  · rw [if_neg hc, if_neg hc, hrun, List.length_map, Nat.sub_self, List.replicate_zero,
      List.append_nil]

/-- **What fits into `name_buffer`** is taken apart there. -/
theorem nameAsciiToWireBuffered_eq (name wire : Bytes) :
    nameAsciiToWireBuffered name wire
      = if (cstr name).length < bufferMax then some (nameAsciiToWire name wire 0) else none := by
  have hbuffer : writeAt (List.replicate bufferMax 0) 0 (cstr name)
      = cstr name ++ List.replicate (bufferMax - (cstr name).length) 0 := by
    rw [writeAt_zero, List.drop_replicate]
  have hnul := zero_notMem_cstr name
  have hfits : ((cstr name ++ List.replicate (bufferMax - (cstr name).length) 0).length ≤ bufferMax
      ∧ 0 ∈ cstr name ++ List.replicate (bufferMax - (cstr name).length) 0)
      ↔ (cstr name).length < bufferMax := by
    rw [List.length_append, List.length_replicate, List.mem_append, or_iff_right hnul,
      List.mem_replicate, and_iff_left rfl]
    omega
  rw [nameAsciiToWireBuffered, hbuffer]
  by_cases h : (cstr name).length < bufferMax
  · rw [if_pos (hfits.mpr h), if_pos h, cstr_append_replicate hnul]
    rfl
  · rw [if_neg (mt hfits.mp h), if_neg h]

end Server

/-! ## Spellings

The strings that mean a name: with any letters large or small, and with a dot at the end
or without. -/

/-- The text of a name, with or without a dot at its end; the root is a dot. -/
inductive SpellingOf : Bytes → Name → Prop
  | root {n : Name} (h : n.labels = []) : SpellingOf [dot] n
  | plain {n : Name} (h : n.labels ≠ []) : SpellingOf n.text n
  | dotted {n : Name} (h : n.labels ≠ []) : SpellingOf (n.text ++ [dot]) n

def canonicalText (n : Name) : Bytes := if n.labels = [] then [dot] else n.lower.text

section Spellings
variable {x : Bytes} {n : Name}

theorem spellingOf_text (htext : n.text = x) (h : n.labels ≠ []) : SpellingOf x n :=
  htext ▸ .plain h

theorem spellingOf_dotted (htext : n.text ++ [dot] = x) (h : n.labels ≠ []) : SpellingOf x n :=
  htext ▸ .dotted h

theorem SpellingOf.noNul (hx : SpellingOf x n) : (0 : UInt8) ∉ x := by
  cases hx with
  | root _ => decide
  | plain _ => exact n.text_noNul
  | dotted _ =>
      rw [List.mem_append, not_or]
      exact ⟨n.text_noNul, by decide⟩

theorem SpellingOf.length_pos (hx : SpellingOf x n) : 0 < x.length := by
  cases hx with
  | root _ => decide
  | plain h => exact Name.text_pos h
  | dotted _ =>
      rw [List.length_append]
      exact Nat.lt_of_lt_of_le Nat.zero_lt_one (Nat.le_add_left _ _)

theorem Name.lower_labels_ne_nil (h : n.labels ≠ []) : n.lower.labels ≠ [] := by
  rw [Name.lower, Ne, List.map_eq_nil_iff]
  exact h

theorem SpellingOf.canonical (n : Name) : SpellingOf (canonicalText n) n.lower := by
  rw [canonicalText]
  split
  · next h => exact .root (List.map_eq_nil_iff.mpr h)
  · next h => exact .plain (Name.lower_labels_ne_nil h)

theorem SpellingOf.strtokAll_eq (hx : SpellingOf x n) : strtokAll (· == dot) x = n.labels := by
  cases hx with
  | root h =>
      rw [h]
      rfl
  | plain _ => exact strtokAll_labelsText n.ok
  | dotted _ => exact n.strtokAll_text_dot

theorem Name.text_concat (h : n.labels ≠ []) : ∃ y c, n.text = y ++ [c] ∧ c ≠ dot := by
  obtain ⟨ls, l, hls⟩ : ∃ ls l, n.labels = ls ++ [l] :=
    ⟨_, _, (List.dropLast_append_getLast h).symm⟩
  have hmem : l ∈ n.labels := by
    rw [hls]
    exact List.mem_append_right _ (List.mem_singleton_self l)
  have hl : IsLabel l := n.ok l hmem
  obtain ⟨y, c, hyc⟩ : ∃ y c, l = y ++ [c] := ⟨_, _, (List.dropLast_append_getLast hl.ne_nil).symm⟩
  refine ⟨leadText ls ++ y, c, ?_, fun hc => hl.noDot ?_⟩
  · rw [Name.text, hls, labelsText_append ls (List.cons_ne_nil l []), labelsText_singleton, hyc,
      List.append_assoc]
  · rw [hyc, hc]
    exact List.mem_append_right _ (List.mem_singleton_self dot)

theorem SpellingOf.canonicalForm_eq (hx : SpellingOf x n) :
    Resolver.canonicalForm x = canonicalText n := by
  cases hx with
  | root h => rw [canonicalText, if_pos h, Resolver.canonicalForm, if_pos rfl]
  | plain h =>
      obtain ⟨y, c, htext, hc⟩ := Name.text_concat h
      have hroot : y ++ [c] ≠ [dot] := by
        intro heq
        have hlast := congrArg List.getLast? heq
        rw [List.getLast?_concat] at hlast
        exact hc (Option.some.inj hlast)
      rw [canonicalText, if_neg h, htext, canonicalForm_concat hroot, if_neg hc, ← htext]
      exact map_lower_labelsText n.labels
  | dotted h =>
      have hroot : n.text ++ [dot] ≠ [dot] := by
        rw [Ne, List.append_left_eq_self]
        exact List.ne_nil_of_length_pos (Name.text_pos h)
      rw [canonicalText, if_neg h, canonicalForm_concat hroot, if_pos rfl]
      exact map_lower_labelsText n.labels

theorem canonicalForm_canonicalText (n : Name) :
    Resolver.canonicalForm (canonicalText n) = canonicalText n := by
  have h := (SpellingOf.canonical n).canonicalForm_eq
  rw [h, canonicalText, canonicalText, n.lower_lower]
  by_cases hn : n.labels = []
  · have hn' : n.lower.labels = [] := List.map_eq_nil_iff.mpr hn
    rw [if_pos hn, if_pos hn']
  · rw [if_neg hn, if_neg (Name.lower_labels_ne_nil hn)]

end Spellings

/-! ## On the wire -/

/-- Two wire forms are the same up to the case of the bytes of their labels. -/
inductive SameWire : Bytes → Bytes → Prop
  | root : SameWire [0] [0]
  | label {l l' w w' : Bytes} (hpos : 0 < l.length) (hle : l.length ≤ 63)
      (hcase : l.map lower = l'.map lower) (h : SameWire w w') :
      SameWire (UInt8.ofNat l.length :: (l ++ w)) (UInt8.ofNat l'.length :: (l' ++ w'))

theorem exists_of_labelsWire_eq {l w : Bytes} {ls : List Bytes} (hls : ∀ l ∈ ls, IsLabel l)
    (hpos : 0 < l.length) (hle : l.length ≤ 63)
    (h : UInt8.ofNat l.length :: (l ++ w) = labelsWire ls) :
    ∃ ls', ls = l :: ls' ∧ w = labelsWire ls' := by
  have hnat : (UInt8.ofNat l.length).toNat = l.length := by
    rw [UInt8.toNat_ofNat']
    exact Nat.mod_eq_of_lt (by omega)
  cases ls with
  | nil =>
      obtain ⟨hhead, -⟩ := List.cons.inj h
      rw [hhead] at hnat
      exact absurd hnat hpos.ne
  | cons x xs =>
      rw [labelsWire_cons] at h
      obtain ⟨hhead, htail⟩ := List.cons.inj h
      rw [hhead, (hls x List.mem_cons_self).toNat_length] at hnat
      obtain ⟨rfl, hw⟩ := List.append_inj htail hnat.symm
      exact ⟨xs, rfl, hw⟩

theorem SameWire.map_lower_eq {w w' : Bytes} (h : SameWire w w') {ls ls' : List Bytes}
    (hls : ∀ l ∈ ls, IsLabel l) (hls' : ∀ l ∈ ls', IsLabel l) (hw : w = labelsWire ls)
    (hw' : w' = labelsWire ls') : ls.map (List.map lower) = ls'.map (List.map lower) := by
  have hnil : ∀ ls : List Bytes, (∀ l ∈ ls, IsLabel l) → [0] = labelsWire ls → ls = [] := by
    intro ls hok heq
    cases ls with
    | nil => rfl
    | cons l ls =>
        rw [labelsWire_cons] at heq
        obtain ⟨-, htail⟩ := List.cons.inj heq
        exact absurd (List.append_eq_nil_iff.mp htail.symm).1 (hok l List.mem_cons_self).ne_nil
  induction h generalizing ls ls' with
  | root => rw [hnil ls hls hw, hnil ls' hls' hw']
  | @label l l' w w' hpos hle hcase _ ih =>
      have hlen : l.length = l'.length := by simpa using congrArg List.length hcase
      obtain ⟨xs, rfl, hxs⟩ := exists_of_labelsWire_eq hls hpos hle hw
      obtain ⟨xs', rfl, hxs'⟩ := exists_of_labelsWire_eq hls' (hlen ▸ hpos) (hlen ▸ hle) hw'
      rw [List.map_cons, List.map_cons, hcase, ih (fun l hl => hls l (List.mem_cons_of_mem _ hl))
        (fun l hl => hls' l (List.mem_cons_of_mem _ hl)) hxs hxs']

theorem sameWire_labelsWire {ls ls' : List Bytes} (hls : ∀ l ∈ ls, IsLabel l)
    (h : ls.map (List.map lower) = ls'.map (List.map lower)) :
    SameWire (labelsWire ls) (labelsWire ls') := by
  induction ls generalizing ls' with
  | nil =>
      rw [List.map_nil, eq_comm, List.map_eq_nil_iff] at h
      rw [h]
      exact .root
  | cons l ls ih =>
      cases ls' with
      | nil => cases h
      | cons l' ls' =>
          obtain ⟨hcase, htail⟩ := List.cons.inj h
          have hl := hls l List.mem_cons_self
          rw [labelsWire_cons, labelsWire_cons]
          exact .label hl.pos hl.le hcase (ih (fun x hx => hls x (List.mem_cons_of_mem _ hx)) htail)

/-- **Canonical texts and wire forms** tell the same names apart. -/
theorem canonicalText_eq_iff (n n' : Name) :
    canonicalText n = canonicalText n' ↔ SameWire n.wire n'.wire := by
  constructor
  · intro h
    have hlabels := (SpellingOf.canonical n).strtokAll_eq
    rw [h, (SpellingOf.canonical n').strtokAll_eq] at hlabels
    exact sameWire_labelsWire n.ok hlabels.symm
  · intro h
    have hlower : n.lower = n'.lower := Name.ext (h.map_lower_eq n.ok n'.ok rfl rfl)
    have hn := canonicalForm_canonicalText n
    have hn' := canonicalForm_canonicalText n'
    rw [(SpellingOf.canonical n).canonicalForm_eq] at hn
    rw [(SpellingOf.canonical n').canonicalForm_eq] at hn'
    rw [← hn, ← hn', hlower]

/-! ## The two functions

Both are determined by the labels in lower case, which is what makes them agree on when
two names are the same. -/

/-- What `canonicalize_name` leaves of the string `x` it leaves again. -/
def Idempotent (x : Bytes) : Prop :=
  ∀ rest, ∃ c, Server.canonicalizeName (x ++ 0 :: rest) = some c ∧
    Server.canonicalizeName c = some c

/-- `canonicalize_name` makes the strings `x` and `y` equal exactly when `name_ascii_to_wire`
writes the same for them, up to case. -/
def Characterises (x y : Bytes) : Prop :=
  ∀ rest rest' wire wire', ∃ c c' w w',
    Server.canonicalizeName (x ++ 0 :: rest) = some c ∧
    Server.canonicalizeName (y ++ 0 :: rest') = some c' ∧
    Server.nameAsciiToWireBuffered (x ++ 0 :: rest) wire = some w ∧
    Server.nameAsciiToWireBuffered (y ++ 0 :: rest') wire' = some w' ∧
    (cstr c = cstr c' ↔ SameWire (w.1.take w.2) (w'.1.take w'.2))

section Functions
variable {x y : Bytes} {n n' : Name}

theorem SpellingOf.length_canonicalText_le (hx : SpellingOf x n) :
    (canonicalText n).length ≤ x.length := by
  have hlen : n.lower.text.length = n.text.length := by
    rw [Name.text, Name.text, Name.lower, ← map_lower_labelsText, List.length_map]
  cases hx with
  | root h => rw [canonicalText, if_pos h]
  | plain h => rw [canonicalText, if_neg h, hlen]
  | dotted h =>
      rw [canonicalText, if_neg h, hlen, List.length_append]
      exact Nat.le_add_right _ _

theorem SpellingOf.server_canonicalizeName (hx : SpellingOf x n) (hlt : x.length < 2 ^ 31)
    (rest : Bytes) :
    ∃ rest', Server.canonicalizeName (x ++ 0 :: rest) = some (canonicalText n ++ 0 :: rest') := by
  rw [Server.canonicalizeName_eq hx.noNul hx.length_pos hlt, hx.canonicalForm_eq,
    List.append_assoc]
  cases x.length - (canonicalText n).length with
  | zero => exact ⟨rest, rfl⟩
  | succ k => exact ⟨List.replicate k 0 ++ 0 :: rest, rfl⟩

theorem SpellingOf.idempotent (hx : SpellingOf x n) (hlt : x.length < 2 ^ 31) : Idempotent x := by
  intro rest
  obtain ⟨rest', hc⟩ := hx.server_canonicalizeName hlt rest
  have hcanon := SpellingOf.canonical n
  have hlen := hx.length_canonicalText_le
  refine ⟨_, hc, ?_⟩
  rw [Server.canonicalizeName_eq hcanon.noNul hcanon.length_pos (by omega),
    canonicalForm_canonicalText, Nat.sub_self, List.replicate_zero, List.append_nil]

/-- The length of a longer name is negative as an `int`, and the last byte is looked for in front
of it. -/
theorem SpellingOf.not_idempotent (hx : SpellingOf x n) (hge : 2 ^ 31 ≤ x.length)
    (hlt : x.length < 2 ^ 32) : ¬ Idempotent x := by
  intro h
  obtain ⟨c, hc, -⟩ := h []
  have hroot : x ≠ [dot] := by
    rintro rfl
    exact absurd hge (by decide)
  have hbmod : Int.bmod x.length (2 ^ 32) = x.length - 2 ^ 32 := by
    rw [Int.bmod_def, Int.emod_eq_of_lt (by omega) (by omega), if_neg (by omega)]
    rfl
  rw [Server.canonicalizeName, cstr_append_zero hx.noNul, if_neg hroot] at hc
  simp only [hbmod] at hc
  rw [if_pos (by omega)] at hc
  cases hc

/-- The encoder writes the wire form of the name, however it is spelled. -/
theorem SpellingOf.nameAsciiToWireBuffered_eq (hx : SpellingOf x n) (hlen : x.length < bufferMax)
    (rest wire : Bytes) : ∃ w, Server.nameAsciiToWireBuffered (x ++ 0 :: rest) wire = some w ∧
      w.1.take w.2 = n.wire := by
  have hcstr : cstr (x ++ 0 :: rest) = x := cstr_append_zero hx.noNul rest
  have htokens : strtokAll (· == dot) (cstr (x ++ 0 :: rest)) = n.labels := by
    rw [hcstr, hx.strtokAll_eq]
  rw [Server.nameAsciiToWireBuffered_eq, hcstr, if_pos hlen,
    Server.nameAsciiToWire_of_tokens htokens, writeAt_zero]
  exact ⟨_, rfl, List.take_left⟩

theorem SpellingOf.characterises (hx : SpellingOf x n) (hy : SpellingOf y n')
    (hxlen : x.length < bufferMax) (hylen : y.length < bufferMax) : Characterises x y := by
  intro rest rest' wire wire'
  have hmax : bufferMax < 2 ^ 31 := by decide
  obtain ⟨r, hc⟩ := hx.server_canonicalizeName (hxlen.trans hmax) rest
  obtain ⟨r', hc'⟩ := hy.server_canonicalizeName (hylen.trans hmax) rest'
  obtain ⟨w, hw, hwire⟩ := hx.nameAsciiToWireBuffered_eq hxlen rest wire
  obtain ⟨w', hw', hwire'⟩ := hy.nameAsciiToWireBuffered_eq hylen rest' wire'
  refine ⟨_, _, w, w', hc, hc', hw, hw', ?_⟩
  rw [cstr_append_zero (SpellingOf.canonical n).noNul,
    cstr_append_zero (SpellingOf.canonical n').noNul, hwire, hwire']
  exact canonicalText_eq_iff n n'

/-- A name that does not fit into `name_buffer` gets no wire form. -/
theorem SpellingOf.lt_of_wire (hx : SpellingOf x n) {rest wire : Bytes} {w : Bytes × Nat}
    (h : Server.nameAsciiToWireBuffered (x ++ 0 :: rest) wire = some w) : x.length < bufferMax := by
  rw [Server.nameAsciiToWireBuffered_eq, cstr_append_zero hx.noNul] at h
  by_contra hlen
  rw [if_neg hlen] at h
  cases h

theorem SpellingOf.characterises_iff (hx : SpellingOf x n) (hy : SpellingOf y n') :
    Characterises x y ↔ x.length < bufferMax ∧ y.length < bufferMax := by
  refine ⟨fun h => ?_, fun h => hx.characterises hy h.1 h.2⟩
  obtain ⟨c, c', w, w', -, -, hw, hw', -⟩ := h [] [] [] []
  exact ⟨hx.lt_of_wire hw, hy.lt_of_wire hw'⟩

end Functions

/-- **`canonicalize_name` and `name_ascii_to_wire`.** -/
theorem canonicalizeName_characterises {x y : Bytes} {n n' : Name} (hx : SpellingOf x n)
    (hy : SpellingOf y n') :
    (x.length < 2 ^ 31 → Idempotent x) ∧
      (Characterises x y ↔ x.length < bufferMax ∧ y.length < bufferMax) :=
  ⟨hx.idempotent, hx.characterises_iff hy⟩

/-- Two spellings of one name. -/
theorem canonicalizeName_characterises_www :
    Idempotent (ascii "Www.Edu") ∧ Characterises (ascii "Www.Edu") (ascii "wWW.edu.") := by
  have hx : SpellingOf (ascii "Www.Edu") ⟨[ascii "Www", ascii "Edu"], by decide⟩ :=
    spellingOf_text (by decide) (by decide)
  have hy : SpellingOf (ascii "wWW.edu.") ⟨[ascii "wWW", ascii "edu"], by decide⟩ :=
    spellingOf_dotted (by decide) (by decide)
  have h := canonicalizeName_characterises hx hy
  exact ⟨h.1 (by decide), h.2.mpr ⟨by decide, by decide⟩⟩

/-- Sixteen labels of 63 bytes fit, but not with a dot at the end. -/
theorem not_canonicalizeName_characterises : ¬ ∀ (x y : Bytes) (n n' : Name), SpellingOf x n →
    SpellingOf y n' → Idempotent x ∧ Characterises x y := by
  intro h
  obtain ⟨n, hn⟩ : ∃ n : Name, n.labels = List.replicate 16 (List.replicate 63 97) :=
    ⟨⟨_, by decide⟩, rfl⟩
  have hlabels : n.labels ≠ [] := by
    rw [hn]
    exact List.cons_ne_nil _ _
  have hx := SpellingOf.dotted hlabels
  have hlt := ((hx.characterises_iff (.plain hlabels)).mp (h _ _ n n hx (.plain hlabels)).2).1
  have hlen : n.text.length = 1023 := by
    rw [Name.text, hn]
    decide +kernel
  rw [List.length_append, hlen] at hlt
  exact absurd hlt (by decide)

end InternetLabs.Dns
