/-
# `InternetLabs.Dns.Search` — the search over the cache, round by round

An entry *answers* a name if it is unexpired, owned by the name, and of the type
asked for or an alias; `firstAnswer k n` is the first such entry from slot `k`
on.  The lemmas of the first section say what one round does in terms of it, so
that nothing after them unfolds `searchBody`.

The second section is the search as a walk: `Search.key` is what the branches
look at, the index and the name looked for, and `searchHop` is the walk on them.
There are finitely many of either, which is where the fuel of `getResponse`
comes from (`search_returns_iff`).
-/
import Mathlib.Data.Finset.Prod
import InternetLabs.Dns.Server

namespace InternetLabs.Dns.Server

open InternetLabs InternetLabs.Dns

/-! ## Which entry answers -/

section Answers
variable (db : CacheDb) (now : Int) (qtype : UInt16)

/-- The entry is unexpired, owned by `n`, and of the type asked for or an alias. -/
def DnsDbEntry.answers (n : Bytes) (e : DnsDbEntry) : Bool :=
  e.matches now n && (e.rr.type = qtype || e.rr.type = cname)

/-- The first entry from slot `k` on that answers `n`. -/
def CacheDb.firstAnswer (k : Nat) (n : Bytes) : Option DnsDbEntry :=
  (db.entries.drop k).find? (DnsDbEntry.answers now qtype n)

variable {db now qtype}

theorem DnsDbEntry.matches_cstr (now : Int) (qname : Bytes) (cur : DnsDbEntry) :
    cur.matches now (cstr qname) = cur.matches now qname := by
  simp only [DnsDbEntry.matches, cstr_eq_self (zero_notMem_cstr qname)]

theorem DnsDbEntry.answers_iff {n : Bytes} {e : DnsDbEntry} :
    e.answers now qtype n = true ↔
      e.matches now n = true ∧ (e.rr.type = qtype ∨ e.rr.type = cname) := by
  simp [DnsDbEntry.answers]

theorem CacheDb.drop_of_get {i : Nat} {e : DnsDbEntry} (h : db.get i = some e) :
    db.entries.drop i = e :: db.entries.drop (i + 1) := by
  obtain ⟨hlt, rfl⟩ := List.getElem?_eq_some_iff.mp h
  exact List.drop_eq_getElem_cons hlt

theorem CacheDb.firstAnswer_of_get_none {i : Nat} (h : db.get i = none) (n : Bytes) :
    db.firstAnswer now qtype i n = none := by
  rw [CacheDb.firstAnswer, List.drop_eq_nil_of_le (List.getElem?_eq_none_iff.mp h)]
  rfl

theorem CacheDb.firstAnswer_of_answers {i : Nat} {n : Bytes} {e : DnsDbEntry}
    (h : db.get i = some e) (he : e.answers now qtype n = true) :
    db.firstAnswer now qtype i n = some e := by
  rw [CacheDb.firstAnswer, CacheDb.drop_of_get h, List.find?_cons_of_pos he]

theorem CacheDb.firstAnswer_of_not_answers {i : Nat} {n : Bytes} {e : DnsDbEntry}
    (h : db.get i = some e) (he : ¬ e.answers now qtype n = true) :
    db.firstAnswer now qtype i n = db.firstAnswer now qtype (i + 1) n := by
  rw [CacheDb.firstAnswer, CacheDb.drop_of_get h, List.find?_cons_of_neg he]
  rfl

theorem CacheDb.firstAnswer_congr {n n' : Bytes} (k : Nat) (h : cstr n = cstr n') :
    db.firstAnswer now qtype k n = db.firstAnswer now qtype k n' := by
  unfold CacheDb.firstAnswer DnsDbEntry.answers DnsDbEntry.matches
  rw [h]

theorem CacheDb.firstAnswer_mem {k : Nat} {n : Bytes} {e : DnsDbEntry}
    (h : db.firstAnswer now qtype k n = some e) : e ∈ db.entries :=
  List.mem_of_mem_drop (List.mem_of_find?_eq_some h)

theorem CacheDb.firstAnswer_answers {k : Nat} {n : Bytes} {e : DnsDbEntry}
    (h : db.firstAnswer now qtype k n = some e) : e.answers now qtype n = true :=
  List.find?_some h

/-! What one round does, by whether the entry answers the name. -/

theorem searchBody_of_get_none {s : Search} (h : db.get s.i = none) :
    searchBody db now qtype s = .ret s := by
  simp only [searchBody, h]

theorem searchBody_of_not_answers {s : Search} {e : DnsDbEntry} (h : db.get s.i = some e)
    (he : ¬ e.answers now qtype s.qname = true) :
    searchBody db now qtype s = .next { s with i := s.i + 1 } := by
  simp only [searchBody, h]
  by_cases hm : e.matches now s.qname
  · have hno : ¬ (e.rr.type = qtype ∨ e.rr.type = cname) :=
      fun ht => he (DnsDbEntry.answers_iff.mpr ⟨hm, ht⟩)
    rw [if_pos hm, if_neg fun h => hno (.inl h), if_neg fun h => hno (.inr h)]
  · rw [if_neg hm]

theorem searchBody_of_hit {s : Search} {e : DnsDbEntry} (h : db.get s.i = some e)
    (he : e.answers now qtype s.qname = true) (hq : e.rr.type = qtype) :
    searchBody db now qtype s =
      .ret { s with
        found := true
        numAnswers := s.numAnswers + 1
        response := (Server.rrToWire (e.answer now) s.response s.index).1
        index := s.index + (Server.rrToWire (e.answer now) s.response s.index).2 } := by
  simp only [searchBody, h, if_pos (DnsDbEntry.answers_iff.mp he).1, if_pos hq]

theorem searchBody_of_alias {s : Search} {e : DnsDbEntry} (h : db.get s.i = some e)
    (he : e.answers now qtype s.qname = true) (hq : e.rr.type ≠ qtype) :
    searchBody db now qtype s =
      match Server.nameAsciiFromWire e.rr.rdata 0 with
      | none => .fault
      | some r =>
          .next { s with
            i := 1
            qname := r.1
            numAnswers := s.numAnswers + 1
            response := (Server.rrToWire (e.answer now) s.response s.index).1
            index := s.index + (Server.rrToWire (e.answer now) s.response s.index).2 } := by
  obtain ⟨hm, ht⟩ := DnsDbEntry.answers_iff.mp he
  simp only [searchBody, h, if_pos hm, if_neg hq, if_pos (ht.resolve_left hq)]
  cases Server.nameAsciiFromWire e.rr.rdata 0 <;> rfl

theorem returns_of_not_answers {s s' : Search} {e : DnsDbEntry} (h : db.get s.i = some e)
    (he : ¬ e.answers now qtype s.qname = true)
    (hr : Loop.Returns (searchBody db now qtype) { s with i := s.i + 1 } s') :
    Loop.Returns (searchBody db now qtype) s s' :=
  Loop.returns_of_next (searchBody_of_not_answers h he) hr

theorem returns_of_firstAnswer_none {s : Search}
    (h : db.firstAnswer now qtype s.i s.qname = none) :
    ∃ j, Loop.Returns (searchBody db now qtype) s { s with i := j } := by
  induction hk : db.entries.length - s.i generalizing s with
  | zero =>
      have hget : db.get s.i = none := List.getElem?_eq_none_iff.mpr (by omega)
      exact ⟨s.i, Loop.returns_of_ret (searchBody_of_get_none hget)⟩
  | succ k ih =>
      cases hget : db.get s.i with
      | none => exact ⟨s.i, Loop.returns_of_ret (searchBody_of_get_none hget)⟩
      | some e =>
          have he : ¬ e.answers now qtype s.qname = true := fun he => by
            rw [CacheDb.firstAnswer_of_answers hget he] at h; cases h
          rw [CacheDb.firstAnswer_of_not_answers hget he] at h
          obtain ⟨j, hj⟩ := @ih { s with i := s.i + 1 } h (by simp only; omega)
          exact ⟨j, returns_of_not_answers hget he hj⟩

theorem returns_of_firstAnswer_some {s : Search} {e : DnsDbEntry}
    (h : db.firstAnswer now qtype s.i s.qname = some e) :
    ∃ j, db.get j = some e ∧ ∀ s', Loop.Returns (searchBody db now qtype) { s with i := j } s' →
      Loop.Returns (searchBody db now qtype) s s' := by
  induction hk : db.entries.length - s.i generalizing s with
  | zero =>
      have hget : db.get s.i = none := List.getElem?_eq_none_iff.mpr (by omega)
      rw [CacheDb.firstAnswer_of_get_none hget] at h
      cases h
  | succ k ih =>
      cases hget : db.get s.i with
      | none => rw [CacheDb.firstAnswer_of_get_none hget] at h; cases h
      | some e' =>
          by_cases he : e'.answers now qtype s.qname = true
          · rw [CacheDb.firstAnswer_of_answers hget he] at h
            cases h
            exact ⟨s.i, hget, fun _ hr => hr⟩
          · rw [CacheDb.firstAnswer_of_not_answers hget he] at h
            obtain ⟨j, hj, hr⟩ := @ih { s with i := s.i + 1 } h (by simp only; omega)
            exact ⟨j, hj, fun s' h' => returns_of_not_answers hget he (hr s' h')⟩

end Answers

/-! ## The search as a walk

The records it has written do not matter for where the search goes; an index and a name
do, and of these there are finitely many. -/

/-- What the branches of the search look at. -/
def Search.key (s : Search) : Nat × Bytes := (s.i, cstr s.qname)

/-- The next index and name: past an entry that does not answer, back to index
1 after an alias. -/
def searchHop (db : CacheDb) (now : Int) (qtype : UInt16) (k : Nat × Bytes) :
    Option (Nat × Bytes) :=
  match db.get k.1 with
  | none => none
  | some cur =>
      if cur.matches now k.2 then
        if cur.rr.type = qtype then none
        else if cur.rr.type = cname then
          (Server.nameAsciiFromWire cur.rr.rdata 0).map fun r => (1, cstr r.1)
        else some (k.1 + 1, k.2)
      else some (k.1 + 1, k.2)

theorem searchBody_keyed (db : CacheDb) (now : Int) (qtype : UInt16) :
    Loop.Keyed (searchBody db now qtype) (fun _ => True) Search.key (searchHop db now qtype) where
  inv := fun _ _ => trivial
  next := by
    intro s s' _ h
    simp only [searchBody] at h
    simp only [searchHop, Search.key]
    cases hcur : db.get s.i with
    | none => rw [hcur] at h; cases h
    | some cur =>
        simp only [hcur] at h
        simp only [DnsDbEntry.matches_cstr]
        split at h
        · next hm =>
          rw [if_pos hm]
          split at h
          · cases h
          · next ht =>
            rw [if_neg ht]
            split at h
            · next hc =>
              rw [if_pos hc]
              split at h
              · cases h
              · next hdec => cases h; rw [hdec]; rfl
            · next hc => cases h; rw [if_neg hc]
        · next hm => cases h; rw [if_neg hm]
  stop := by
    intro s _ h
    simp only [Loop.advance, searchBody] at h
    simp only [searchHop, Search.key]
    cases hcur : db.get s.i with
    | none => rfl
    | some cur =>
        simp only [hcur] at h
        simp only [DnsDbEntry.matches_cstr]
        split
        · next hm =>
          rw [if_pos hm] at h
          split
          · rfl
          · next ht =>
            rw [if_neg ht] at h
            split
            · next hc =>
              rw [if_pos hc] at h
              cases hdec : Server.nameAsciiFromWire cur.rr.rdata 0 with
              | none => rfl
              | some r => rw [hdec] at h; cases h
            · next hc => rw [if_neg hc] at h; cases h
        · next hm => rw [if_neg hm] at h; cases h

/-- The indices and names a search for `q` can look at. -/
def searchKeys (db : CacheDb) (q : Bytes) : Finset (Nat × Bytes) :=
  Finset.range (db.entries.length + 1) ×ˢ
    insert q (db.entries.map fun e =>
      ((Server.nameAsciiFromWire e.rr.rdata 0).map fun r => cstr r.1).getD []).toFinset

theorem searchKeys_card (db : CacheDb) (q : Bytes) :
    (searchKeys db q).card ≤ searchFuel db := by
  unfold searchKeys searchFuel
  rw [Finset.card_product, Finset.card_range]
  refine Nat.mul_le_mul_left _ (Nat.le_trans (Finset.card_insert_le _ _) ?_)
  refine Nat.succ_le_succ (Nat.le_trans (List.toFinset_card_le _) ?_)
  rw [List.length_map]

theorem start_mem_searchKeys (db : CacheDb) (q : Bytes) : (0, q) ∈ searchKeys db q :=
  Finset.mem_product.mpr ⟨by simp, by simp⟩

theorem searchHop_mem (db : CacheDb) (now : Int) (qtype : UInt16) (q : Bytes) :
    ∀ x ∈ searchKeys db q, ∀ y, searchHop db now qtype x = some y → y ∈ searchKeys db q := by
  rintro ⟨i, n⟩ hx y h
  obtain ⟨-, hn⟩ := Finset.mem_product.mp hx
  unfold searchHop at h
  cases hcur : db.get i with
  | none => simp only [hcur] at h; cases h
  | some cur =>
      have hi : i < db.entries.length := (List.getElem?_eq_some_iff.mp hcur).1
      have hmem : cur ∈ db.entries := List.mem_of_getElem? hcur
      have hstay : (i + 1, n) ∈ searchKeys db q :=
        Finset.mem_product.mpr ⟨Finset.mem_range.mpr (Nat.succ_lt_succ hi), hn⟩
      simp only [hcur] at h
      split at h
      · split at h
        · cases h
        · split at h
          · obtain ⟨r, hr, rfl⟩ := Option.map_eq_some_iff.mp h
            refine Finset.mem_product.mpr ⟨Finset.mem_range.mpr (by simp; omega), ?_⟩
            refine Finset.mem_insert_of_mem
              (List.mem_toFinset.mpr (List.mem_map.mpr ⟨cur, hmem, ?_⟩))
            rw [hr]; rfl
          · cases h; exact hstay
      · cases h; exact hstay

/-- The search's fuel is enough: it answers exactly when the loop returns. -/
theorem search_returns_iff (db : CacheDb) (now : Int) (qtype : UInt16) (qname response : Bytes)
    (index : Nat) (s : Search) :
    Loop.Returns (searchBody db now qtype) (searchStart qname response index) s ↔
      Loop.run (searchBody db now qtype) (searchFuel db) (searchStart qname response index)
        = some s :=
  have hmem : (searchStart qname response index).key ∈ searchKeys db (cstr qname) :=
    start_mem_searchKeys db (cstr qname)
  (searchBody_keyed db now qtype).returns_iff_run (searchHop_mem db now qtype (cstr qname))
    trivial hmem (searchKeys_card db _)

end InternetLabs.Dns.Server
