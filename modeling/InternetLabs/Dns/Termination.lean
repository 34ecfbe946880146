/-
# `InternetLabs.Dns.Termination` — when the server's two loops end

`name_ascii_from_wire` follows compression pointers wherever they lead, and the
search of `get_response` follows aliases wherever they lead.  Neither loop has a
measure: both end exactly when the thing they follow has no cycle in reach.

| loop | what it follows | it ends exactly when |
| :-- | :-- | :-- |
| name decoder | `nameHop`, offsets | no pointer in reach leads back to itself |
| alias search | `aliasHop`, names | no name in reach leads back to itself |

The alias walk is not the search's own: `aliasOf` says which entry *answers* a
name (`List.find?` on the table), and the scan that looks for it, index by
index, is shown to come to the same end (`ends_searchHop_iff`).  Slot 0 is
looked at only before the first alias, because the search restarts at index 1;
that is why `aliasHop` reads the table from 1.
-/
import InternetLabs.Dns.Search
import InternetLabs.Dns.Query
import InternetLabs.Dns.InitDb

namespace InternetLabs.Dns.Server

open InternetLabs InternetLabs.Dns

/-! ## The name decoder

A label only leads forward, so it takes a pointer to go round. -/

/-- The byte at offset `p` starts a compression pointer. -/
def IsPointer (wire : Bytes) (p : Nat) : Prop :=
  ∃ b, wire[p]? = some b ∧ compressedVal ≤ b.toNat

theorem lt_of_nameHop {wire : Bytes} {p q : Nat} (hp : ¬ IsPointer wire p)
    (h : nameHop wire p = some q) : p < q := by
  cases hb : wire[p]? with
  | none => simp only [nameHop, hb] at h; cases h
  | some b =>
      have hc : b.toNat < compressedVal := Nat.lt_of_not_le fun hge => hp ⟨b, hb, hge⟩
      by_cases h0 : b.toNat = 0
      · rw [nameHop_of_stop hb h0] at h
        cases h
      · rw [nameHop_of_label hb h0 hc] at h
        obtain ⟨-, hq⟩ := Option.ite_none_right_eq_some.mp h
        have := Option.some.inj hq
        omega

theorem exists_pointer_of_onCycle {wire : Bytes} {p : Nat} (h : OnCycle (nameHop wire) p) :
    ∃ p', LeadsTo (nameHop wire) p p' ∧ IsPointer wire p' := by
  by_contra hno
  have hforward : ∀ q, Relation.TransGen (StepTo (nameHop wire)) p q → p < q := by
    intro q hq
    induction hq with
    | single hstep => exact lt_of_nameHop (fun hp => hno ⟨p, .refl, hp⟩) hstep
    | tail hpq hstep ih =>
        exact ih.trans (lt_of_nameHop (fun hp => hno ⟨_, hpq.to_reflTransGen, hp⟩) hstep)
  exact Nat.lt_irrefl p (hforward p h)

/-- The decoder's variables when `get_question` calls it. -/
def questionScan (request : RequestBuffer) : NameScan :=
  nameStart 12 (request.bytes.getD 12 0).toNat

theorem questionScan_reads (request : RequestBuffer) (beyond : Bytes) :
    (questionScan request).Reads (request.bytes ++ beyond) := by
  have hlt : 12 < request.bytes.length := by rw [request.len]; decide
  refine ⟨request.bytes[12], ?_, ?_⟩
  · show (request.bytes ++ beyond)[12]? = _
    rw [List.getElem?_append_left hlt, List.getElem?_eq_getElem hlt]
  · simp [questionScan, nameStart, List.getD_eq_getElem?_getD, List.getElem?_eq_getElem hlt]

theorem decode_halts_iff_ends (request : RequestBuffer) (beyond : Bytes) :
    Loop.Halts (nameBody (request.bytes ++ beyond)) (questionScan request) ↔
      Ends (nameHop (request.bytes ++ beyond)) 12 :=
  (nameBody_keyed _).halts_iff (questionScan_reads request beyond)

/-- **When name decoding ends.**  Whatever the request buffer holds, and whatever
lies behind it, the loop makes finitely many rounds exactly when no compression
pointer reached from the question name leads back to itself. -/
theorem questionName_halts_iff (request : RequestBuffer) (beyond : Bytes) :
    Loop.Halts (nameBody (request.bytes ++ beyond)) (questionScan request) ↔
      ∀ p, LeadsTo (nameHop (request.bytes ++ beyond)) 12 p →
        IsPointer (request.bytes ++ beyond) p →
        ¬ OnCycle (nameHop (request.bytes ++ beyond)) p := by
  have hmem : 12 ∈ Finset.range (request.bytes ++ beyond).length := by
    rw [Finset.mem_range, List.length_append, request.len]
    exact Nat.lt_of_lt_of_le (by decide) (Nat.le_add_right _ _)
  rw [(nameBody_keyed _).halts_iff_acyclic (nameHop_mem _) (questionScan_reads request beyond) hmem]
  constructor
  · exact fun h p hp _ => h p hp
  · intro h p hp hcycle
    obtain ⟨p', hpp', hptr⟩ := exists_pointer_of_onCycle hcycle
    exact h p' (hp.trans hpp') hptr (onCycle_of_leadsTo hcycle hpp')

/-- A query whose question name is a pointer to itself. -/
def selfPointerQuery : RequestBuffer :=
  .ofDatagram [0x27, 0xd6, 0x01, 0x00, 0, 1, 0, 0, 0, 0, 0, 0, 0xc0, 12, 0, 1, 0, 1]

/-- The server accepts it, and never finishes reading its name. -/
theorem selfPointerQuery_hangs :
    isValidRequest selfPointerQuery.bytes = true ∧
      ¬ Loop.Halts (nameBody selfPointerQuery.bytes) (questionScan selfPointerQuery) := by
  refine ⟨by decide, fun h => ?_⟩
  rw [← List.append_nil selfPointerQuery.bytes, decode_halts_iff_ends, List.append_nil] at h
  have hself : nameHop selfPointerQuery.bytes 12 = some 12 := by
    have hlt : 12 < selfPointerQuery.bytes.length := by rw [selfPointerQuery.len]; decide
    have hlen : selfPointerQuery.bytes[12]? = some 0xc0 := by decide
    have hoff : selfPointerQuery.bytes[12 + 1]? = some 12 := by decide
    simp only [nameHop, hlen, hoff]
    rw [if_neg (by decide), if_pos (by decide)]
    exact if_pos hlt
  exact not_ends_of_onCycle (Relation.TransGen.single hself) h

/-! ## The alias search

`answers` is the test the scan makes of each entry; `aliasOf k n` is the name
the first entry from slot `k` on that answers `n` sends the search to, if it is
an alias that can be decoded. -/

section Alias
variable (db : CacheDb) (now : Int) (qtype : UInt16)

/-- The target of an alias, as a string. -/
def DnsDbEntry.target (e : DnsDbEntry) : Option Bytes :=
  (Server.nameAsciiFromWire e.rr.rdata 0).map fun r => cstr r.1

/-- The name the search goes on with after scanning for `n` from slot `k`. -/
def aliasOf (k : Nat) (n : Bytes) : Option Bytes :=
  match db.firstAnswer now qtype k n with
  | none => none
  | some e => if e.rr.type = qtype then none else e.target

/-- The alias walk: every name but the first is looked for from slot 1. -/
def aliasHop (n : Bytes) : Option Bytes := aliasOf db now qtype 1 n

/-- The round calls `rr_to_wire` on the entry in slot `s.i`. -/
def Search.Appends (s : Search) : Prop :=
  ∃ e, db.get s.i = some e ∧ e.answers now qtype s.qname = true

/-- No two rounds append the same slot. -/
def NoRepeat (s₀ : Search) : Prop :=
  ∀ m n s t, m < n → walk (Loop.advance (searchBody db now qtype)) m s₀ = some s →
    walk (Loop.advance (searchBody db now qtype)) n s₀ = some t →
    s.Appends db now qtype → t.Appends db now qtype → s.i ≠ t.i

variable {db now qtype}

/-! What one round does, by whether the entry answers the name. -/

theorem searchHop_of_get_none {i : Nat} (h : db.get i = none) (n : Bytes) :
    searchHop db now qtype (i, n) = none := by
  simp only [searchHop, h]

theorem searchHop_of_not_answers {i : Nat} {n : Bytes} {e : DnsDbEntry}
    (h : db.get i = some e) (he : ¬ e.answers now qtype n = true) :
    searchHop db now qtype (i, n) = some (i + 1, n) := by
  simp only [searchHop, h]
  by_cases hm : e.matches now n
  · have hno : ¬ (e.rr.type = qtype ∨ e.rr.type = cname) :=
      fun ht => he (DnsDbEntry.answers_iff.mpr ⟨hm, ht⟩)
    rw [if_pos hm, if_neg fun h => hno (.inl h), if_neg fun h => hno (.inr h)]
  · rw [if_neg hm]

theorem searchHop_of_answers {i : Nat} {n : Bytes} {e : DnsDbEntry}
    (h : db.get i = some e) (he : e.answers now qtype n = true) :
    searchHop db now qtype (i, n)
      = if e.rr.type = qtype then none else e.target.map fun t => (1, t) := by
  obtain ⟨hm, ht⟩ := DnsDbEntry.answers_iff.mp he
  simp only [searchHop, h, if_pos hm]
  by_cases hq : e.rr.type = qtype
  · rw [if_pos hq, if_pos hq]
  · rw [if_neg hq, if_neg hq, if_pos (ht.resolve_left hq)]
    simp only [DnsDbEntry.target, Option.map_map]
    rfl

/-- The scan comes to the entry that answers, or to the end of the table. -/
theorem ends_searchHop_iff (k : Nat) (n : Bytes) :
    Ends (searchHop db now qtype) (k, n) ↔
      ∀ t, aliasOf db now qtype k n = some t → Ends (searchHop db now qtype) (1, t) := by
  induction hd : db.entries.length - k generalizing k with
  | zero =>
      have hnone : db.get k = none := List.getElem?_eq_none_iff.mpr (by omega)
      constructor
      · intro _ t ht
        simp [aliasOf, CacheDb.firstAnswer_of_get_none hnone] at ht
      · exact fun _ => ⟨1, walk_succ_of_none (searchHop_of_get_none hnone n) 0⟩
  | succ d ih =>
      obtain ⟨e, he⟩ : ∃ e, db.get k = some e :=
        ⟨_, List.getElem?_eq_getElem (by omega : k < db.entries.length)⟩
      by_cases ha : e.answers now qtype n = true
      · have hhop := searchHop_of_answers he ha
        simp only [aliasOf, CacheDb.firstAnswer_of_answers he ha]
        by_cases hq : e.rr.type = qtype
        · rw [if_pos hq] at hhop
          simp only [if_pos hq]
          exact ⟨fun _ t ht => (by cases ht), fun _ => ⟨1, walk_succ_of_none hhop 0⟩⟩
        · rw [if_neg hq] at hhop
          simp only [if_neg hq]
          cases htgt : e.target with
          | none =>
              rw [htgt] at hhop
              exact ⟨fun _ t ht => (by cases ht), fun _ => ⟨1, walk_succ_of_none hhop 0⟩⟩
          | some t =>
              rw [htgt] at hhop
              have hlead : LeadsTo (searchHop db now qtype) (k, n) (1, t) := .single hhop
              rw [ends_of_leadsTo hlead]
              exact ⟨fun h t' ht' => by cases ht'; exact h, fun h => h t rfl⟩
      · have hhop := searchHop_of_not_answers he ha
        have hlead : LeadsTo (searchHop db now qtype) (k, n) (k + 1, n) := .single hhop
        rw [ends_of_leadsTo hlead, ih (k + 1) (by omega)]
        simp only [aliasOf, CacheDb.firstAnswer_of_not_answers he ha]

theorem leadsTo_answer {k : Nat} {n : Bytes} {e : DnsDbEntry}
    (h : db.firstAnswer now qtype k n = some e) :
    ∃ i, k ≤ i ∧ db.get i = some e ∧ e.answers now qtype n = true ∧
      LeadsTo (searchHop db now qtype) (k, n) (i, n) := by
  induction hd : db.entries.length - k generalizing k with
  | zero =>
      have hnone : db.get k = none := List.getElem?_eq_none_iff.mpr (by omega)
      rw [CacheDb.firstAnswer_of_get_none hnone] at h
      cases h
  | succ d ih =>
      obtain ⟨e', he'⟩ : ∃ e, db.get k = some e :=
        ⟨_, List.getElem?_eq_getElem (by omega : k < db.entries.length)⟩
      by_cases ha : e'.answers now qtype n = true
      · rw [CacheDb.firstAnswer_of_answers he' ha] at h
        cases h
        exact ⟨k, Nat.le_refl k, he', ha, .refl⟩
      · rw [CacheDb.firstAnswer_of_not_answers he' ha] at h
        obtain ⟨i, hki, hi, hai, hlead⟩ := ih h (by omega)
        exact ⟨i, Nat.le_of_succ_le hki, hi, hai,
          .head (searchHop_of_not_answers he' ha) hlead⟩

theorem transGen_of_aliasOf {k : Nat} {n t : Bytes} (h : aliasOf db now qtype k n = some t) :
    Relation.TransGen (StepTo (searchHop db now qtype)) (k, n) (1, t) := by
  unfold aliasOf at h
  split at h
  · cases h
  · next e he =>
    split at h
    · cases h
    · next hq =>
      obtain ⟨i, -, hi, ha, hlead⟩ := leadsTo_answer he
      refine Relation.TransGen.tail' hlead ?_
      show searchHop db now qtype (i, n) = some (1, t)
      rw [searchHop_of_answers hi ha, if_neg hq, h]
      rfl

/-- After an alias the search ends exactly when the alias walk does. -/
theorem ends_searchHop_one_iff (n : Bytes) :
    Ends (searchHop db now qtype) (1, n) ↔ Ends (aliasHop db now qtype) n := by
  constructor
  · exact ends_of_transGen (fun n => (1, n)) fun _ _ h => transGen_of_aliasOf h
  · rintro ⟨m, hm⟩
    induction m generalizing n with
    | zero => cases hm
    | succ m ih =>
        refine (ends_searchHop_iff 1 n).mpr fun t ht => ih t ?_
        have hhop : aliasHop db now qtype n = some t := ht
        rwa [walk_succ_of_some hhop] at hm

/-! ### The condition -/

variable (db now qtype)

/-- No name the search reaches through an alias leads back to itself. -/
def AliasAcyclic (q : Bytes) : Prop :=
  ∀ q₁, aliasOf db now qtype 0 q = some q₁ →
    ∀ n, LeadsTo (aliasHop db now qtype) q₁ n → ¬ OnCycle (aliasHop db now qtype) n

/-- The entry that answers `n` from slot `k` on is an alias whose target cannot
be decoded. -/
def Undecodable (k : Nat) (n : Bytes) : Prop :=
  ∃ e, db.firstAnswer now qtype k n = some e ∧ e.rr.type ≠ qtype ∧ e.target = none

/-- Every alias the search reaches can be decoded. -/
def AliasesDecode (q : Bytes) : Prop :=
  ¬ Undecodable db now qtype 0 q ∧
    ∀ q₁, aliasOf db now qtype 0 q = some q₁ →
      ∀ n, LeadsTo (aliasHop db now qtype) q₁ n → ¬ Undecodable db now qtype 1 n

variable {db now qtype}

theorem aliasOf_mem {k : Nat} {n t : Bytes} (h : aliasOf db now qtype k n = some t) :
    t ∈ (db.entries.filterMap DnsDbEntry.target).toFinset := by
  unfold aliasOf at h
  split at h
  · cases h
  · next e he =>
    split at h
    · cases h
    · have hmem : e ∈ db.entries := List.mem_of_mem_drop (List.mem_of_find?_eq_some he)
      exact List.mem_toFinset.mpr (List.mem_filterMap.mpr ⟨e, hmem, h⟩)

theorem ends_aliasHop_iff {k : Nat} {n q₁ : Bytes} (h : aliasOf db now qtype k n = some q₁) :
    Ends (aliasHop db now qtype) q₁ ↔
      ∀ b, LeadsTo (aliasHop db now qtype) q₁ b → ¬ OnCycle (aliasHop db now qtype) b :=
  ends_iff_acyclic (fun _ _ _ hy => aliasOf_mem hy) (aliasOf_mem h)

theorem ends_searchHop_iff_acyclic (q : Bytes) :
    Ends (searchHop db now qtype) (0, q) ↔ AliasAcyclic db now qtype q := by
  rw [ends_searchHop_iff]
  refine forall₂_congr fun q₁ h => ?_
  rw [ends_searchHop_one_iff, ends_aliasHop_iff h]

theorem search_halts_iff (qname response : Bytes) (index : Nat) :
    Loop.Halts (searchBody db now qtype) (searchStart qname response index) ↔
      AliasAcyclic db now qtype (cstr qname) := by
  rw [(searchBody_keyed db now qtype).halts_iff trivial]
  exact ends_searchHop_iff_acyclic (cstr qname)

/-- A search that halts appends no slot twice: the second time the search would
go on with the name it went on with the first time. -/
theorem noRepeat_of_halts {s₀ : Search} (h : Loop.Halts (searchBody db now qtype) s₀) :
    NoRepeat db now qtype s₀ := by
  intro m n s t hmn hs ht happ happ' hi
  obtain ⟨e, he, ha⟩ := happ
  obtain ⟨e', he', ha'⟩ := happ'
  rw [← hi, he] at he'
  cases he'
  have hk := searchBody_keyed db now qtype
  have hends : Ends (searchHop db now qtype) s₀.key := (hk.halts_iff trivial).mp h
  have hs' : walk (searchHop db now qtype) m s₀.key = some s.key := by
    rw [hk.walk_key m trivial, hs]; rfl
  have ht' : walk (searchHop db now qtype) n s₀.key = some t.key := by
    rw [hk.walk_key n trivial, ht]; rfl
  have hhop : ∀ u : Search, db.get u.i = some e → e.answers now qtype u.qname = true →
      searchHop db now qtype u.key
        = if e.rr.type = qtype then none else e.target.map fun t => (1, t) := by
    intro u hu hua
    refine searchHop_of_answers hu ?_
    rwa [DnsDbEntry.answers, DnsDbEntry.matches_cstr]
  have hnext : searchHop db now qtype s.key = searchHop db now qtype t.key :=
    (hhop s he ha).trans (hhop t (hi ▸ he) ha').symm
  -- the walk goes on after `s`, since `t` comes later
  have hle : m + 1 ≤ n := hmn
  obtain ⟨y, hy⟩ := walk_some_of_le hle ht'
  rw [walk_add, hs', Option.bind_some, walk_succ] at hy
  obtain ⟨x, hx, hxy⟩ := Option.bind_eq_some_iff.mp hy
  cases hxy
  have hm1 : walk (searchHop db now qtype) (m + 1) s₀.key = some y := by
    rw [walk_add, hs', Option.bind_some, walk_succ_of_some hx]; rfl
  have hn1 : walk (searchHop db now qtype) (n + 1) s₀.key = some y := by
    rw [walk_add, ht', Option.bind_some, walk_succ_of_some (hnext ▸ hx)]; rfl
  exact walk_injective_of_ends hends (Nat.succ_lt_succ hmn) hm1 hn1

/-! ### Leaving the loop

A search that halts leaves the loop unless its last round is stuck in the
decoding of an alias. -/

theorem aliasOf_of_firstAnswer {k : Nat} {n : Bytes} {e : DnsDbEntry}
    (h : db.firstAnswer now qtype k n = some e) (hq : e.rr.type ≠ qtype) :
    aliasOf db now qtype k n = e.target := by
  simp only [aliasOf, h, if_neg hq]

/-- The scan the search is in: for the first name from slot 0, or for a name
the alias walk reaches from slot 1. -/
def Scanning (db : CacheDb) (now : Int) (qtype : UInt16) (q : Bytes) (k : Nat × Bytes) : Prop :=
  (k.2 = q ∧ db.firstAnswer now qtype k.1 q = db.firstAnswer now qtype 0 q) ∨
  ∃ q₁, aliasOf db now qtype 0 q = some q₁ ∧ LeadsTo (aliasHop db now qtype) q₁ k.2 ∧
    db.firstAnswer now qtype k.1 k.2 = db.firstAnswer now qtype 1 k.2

theorem Scanning.step {q : Bytes} {k k' : Nat × Bytes} (h : Scanning db now qtype q k)
    (hstep : searchHop db now qtype k = some k') : Scanning db now qtype q k' := by
  obtain ⟨i, n⟩ := k
  cases hget : db.get i with
  | none => rw [searchHop_of_get_none hget] at hstep; cases hstep
  | some e =>
      by_cases ha : e.answers now qtype n = true
      · rw [searchHop_of_answers hget ha] at hstep
        split at hstep
        · cases hstep
        · next hq =>
          obtain ⟨t, ht, rfl⟩ := Option.map_eq_some_iff.mp hstep
          have hfirst := CacheDb.firstAnswer_of_answers hget ha
          rcases h with ⟨rfl, hsame⟩ | ⟨q₁, hq₁, hlead, hsame⟩
          · rw [hsame] at hfirst
            exact .inr ⟨t, (aliasOf_of_firstAnswer hfirst hq).trans ht, .refl, rfl⟩
          · rw [hsame] at hfirst
            exact .inr ⟨q₁, hq₁, hlead.tail ((aliasOf_of_firstAnswer hfirst hq).trans ht), rfl⟩
      · rw [searchHop_of_not_answers hget ha] at hstep
        cases hstep
        have hskip := CacheDb.firstAnswer_of_not_answers hget ha
        rcases h with ⟨rfl, hsame⟩ | ⟨q₁, hq₁, hlead, hsame⟩
        · exact .inl ⟨rfl, hskip.symm.trans hsame⟩
        · exact .inr ⟨q₁, hq₁, hlead, hskip.symm.trans hsame⟩

theorem Scanning.of_leadsTo {q : Bytes} {k : Nat × Bytes}
    (h : LeadsTo (searchHop db now qtype) (0, q) k) : Scanning db now qtype q k := by
  induction h with
  | refl => exact .inl ⟨rfl, rfl⟩
  | tail _ hstep ih => exact ih.step hstep

/-- A round is stuck exactly at an alias that answers and cannot be decoded. -/
theorem searchBody_eq_fault_iff {s : Search} :
    searchBody db now qtype s = .fault ↔
      ∃ e, db.get s.i = some e ∧ e.answers now qtype s.qname = true ∧ e.rr.type ≠ qtype ∧
        e.target = none := by
  simp only [searchBody, DnsDbEntry.answers_iff, DnsDbEntry.target, Option.map_eq_none_iff]
  cases db.get s.i with
  | none => simp
  | some e =>
      by_cases hm : e.matches now s.qname <;> by_cases hq : e.rr.type = qtype <;>
        by_cases hc : e.rr.type = cname <;>
        cases hdec : Server.nameAsciiFromWire e.rr.rdata 0 <;> simp_all

/-- The search gets stuck exactly when it leads to such an alias. -/
theorem stuck_iff (s₀ : Search) :
    (∃ n t, walk (Loop.advance (searchBody db now qtype)) n s₀ = some t ∧
        searchBody db now qtype t = .fault) ↔
      ∃ i n e, LeadsTo (searchHop db now qtype) s₀.key (i, n) ∧ db.get i = some e ∧
        e.answers now qtype n = true ∧ e.rr.type ≠ qtype ∧ e.target = none := by
  have hk := searchBody_keyed db now qtype
  constructor
  · rintro ⟨m, t, ht, hf⟩
    obtain ⟨e, hget, ha, hq, htgt⟩ := searchBody_eq_fault_iff.mp hf
    refine ⟨t.i, cstr t.qname, e, leadsTo_iff_walk.mpr ⟨m, ?_⟩, hget, ?_, hq, htgt⟩
    · rw [hk.walk_key m trivial, ht]; rfl
    · rwa [DnsDbEntry.answers, DnsDbEntry.matches_cstr]
  · rintro ⟨i, n, e, hlead, hget, ha, hq, htgt⟩
    obtain ⟨m, hm⟩ := leadsTo_iff_walk.mp hlead
    rw [hk.walk_key m trivial] at hm
    obtain ⟨t, ht, hkey⟩ := Option.map_eq_some_iff.mp hm
    obtain ⟨rfl, rfl⟩ := Prod.mk.inj hkey
    refine ⟨m, t, ht, searchBody_eq_fault_iff.mpr ⟨e, hget, ?_, hq, htgt⟩⟩
    rwa [DnsDbEntry.answers, DnsDbEntry.matches_cstr] at ha

theorem exists_stuck_of_undecodable {k : Nat} {n : Bytes} {q : Bytes}
    (hlead : LeadsTo (searchHop db now qtype) (0, q) (k, n))
    (h : Undecodable db now qtype k n) :
    ∃ i n e, LeadsTo (searchHop db now qtype) (0, q) (i, n) ∧ db.get i = some e ∧
        e.answers now qtype n = true ∧ e.rr.type ≠ qtype ∧ e.target = none := by
  obtain ⟨e, he, hq, htgt⟩ := h
  obtain ⟨i, -, hget, ha, hscan⟩ := leadsTo_answer he
  exact ⟨i, n, e, hlead.trans hscan, hget, ha, hq, htgt⟩

/-- The search gets stuck nowhere exactly when every alias it reaches decodes. -/
theorem not_stuck_iff (q : Bytes) :
    (¬ ∃ i n e, LeadsTo (searchHop db now qtype) (0, q) (i, n) ∧ db.get i = some e ∧
        e.answers now qtype n = true ∧ e.rr.type ≠ qtype ∧ e.target = none) ↔
      AliasesDecode db now qtype q := by
  constructor
  · intro hno
    refine ⟨fun h => hno (exists_stuck_of_undecodable .refl h), fun q₁ hq₁ n hn h => hno ?_⟩
    refine exists_stuck_of_undecodable (n := n) ?_ h
    have hfirst := (transGen_of_aliasOf hq₁).to_reflTransGen
    refine hfirst.trans ?_
    clear h
    induction hn with
    | refl => exact .refl
    | tail _ hstep ih => exact ih.trans (transGen_of_aliasOf hstep).to_reflTransGen
  · rintro ⟨hq, hall⟩ ⟨i, n, e, hlead, hget, ha, htype, htgt⟩
    have hfirst := CacheDb.firstAnswer_of_answers hget ha
    rcases Scanning.of_leadsTo hlead with ⟨rfl, hsame⟩ | ⟨q₁, hq₁, hn, hsame⟩
    · exact hq ⟨e, hsame ▸ hfirst, htype, htgt⟩
    · exact hall q₁ hq₁ n hn ⟨e, hsame ▸ hfirst, htype, htgt⟩

/-- **When the alias search ends.**  It makes finitely many rounds, and appends no
slot twice, exactly when no name it reaches through an alias leads back to
itself; and it leaves the loop exactly when, besides, every alias it reaches can
be decoded. -/
theorem aliasSearch_ends_iff (db : CacheDb) (now : Int) (qtype : UInt16)
    (qname response : Bytes) (index : Nat) :
    ((Loop.Halts (searchBody db now qtype) (searchStart qname response index) ∧
        NoRepeat db now qtype (searchStart qname response index)) ↔
      AliasAcyclic db now qtype (cstr qname)) ∧
    ((∃ s, Loop.Returns (searchBody db now qtype) (searchStart qname response index) s) ↔
      AliasAcyclic db now qtype (cstr qname) ∧ AliasesDecode db now qtype (cstr qname)) := by
  have hhalts := @search_halts_iff db now qtype qname response index
  refine ⟨⟨fun h => hhalts.mp h.1, fun h => ?_⟩, ?_⟩
  · exact ⟨hhalts.mpr h, noRepeat_of_halts (hhalts.mpr h)⟩
  · rw [← hhalts, ← not_stuck_iff]
    have hstuck := @stuck_iff db now qtype
      (searchStart qname response index)
    change _ ↔ _ ∧ ¬ _
    constructor
    · rintro ⟨s, hs⟩
      refine ⟨Loop.halts_of_returns hs, fun h => ?_⟩
      obtain ⟨n, t, ht, hf⟩ := hstuck.mpr h
      exact Loop.not_returns_of_fault ht hf s hs
    · rintro ⟨hh, hno⟩
      rcases Loop.returns_or_fault_of_halts hh with hret | hf
      · exact hret
      · exact (hno (hstuck.mp hf)).elim

end Alias

/-- A line that names an alias of itself, not in the first slot. -/
def selfAliasLine : DbLine :=
  { host := ascii "a", t := 30, cls := ascii "IN", type := ascii "CNAME", data := ascii "a" }

def selfAliasDb : CacheDb := loadDb 0 [exampleLine, selfAliasLine] (by decide)

def selfAliasName : Name := ⟨[ascii "a"], by decide⟩

def selfAliasQuery : Query := .plain selfAliasName typeA

/-- A table the server loads and a request it accepts whose search has no end. -/
theorem selfAlias_endless :
    Loadable selfAliasDb ∧ isValidRequest selfAliasQuery.bytes = true ∧
      getQuestion selfAliasQuery.bytes = some selfAliasQuery.questionRr ∧
      ¬ Loop.Halts (searchBody selfAliasDb 0 selfAliasQuery.questionRr.type)
        (searchStart selfAliasQuery.questionRr.name (List.replicate bufferMax 0) 19) := by
  refine ⟨loadable_loadDb _ ?_, selfAliasQuery.isValidRequest_bytes,
    selfAliasQuery.getQuestion_bytes, ?_⟩
  · intro l hl
    rcases List.mem_cons.mp hl with rfl | hl
    · exact exampleLine_ok
    · rw [List.mem_singleton.mp hl]
      exact ⟨by decide, by decide, by decide, by decide, by decide⟩
  · rw [search_halts_iff]
    intro hacyclic
    have hq : cstr selfAliasQuery.questionRr.name = ascii "a" := by decide +kernel
    rw [hq] at hacyclic
    have hfirst : aliasOf selfAliasDb 0 selfAliasQuery.questionRr.type 0 (ascii "a")
        = some (ascii "a") := by decide +kernel
    have hself : aliasHop selfAliasDb 0 selfAliasQuery.questionRr.type (ascii "a")
        = some (ascii "a") := by decide +kernel
    exact hacyclic _ hfirst _ .refl (.single hself)

end InternetLabs.Dns.Server
