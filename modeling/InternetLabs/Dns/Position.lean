/-
# `InternetLabs.Dns.Position` — where an entry stands in the table

If the unexpired entries are unambiguous, one name has at most one entry that
answers it, so a question that resolves resolves in one way (`Resolves`), a
notion the order of the table has no part in.

The search does have a notion of order: after an alias it sets `i = 0`, and the
loop's `i++` makes that 1, so the entry in the first slot is never looked at
again.  `getResponse_resolves_iff` says that this is the only thing that goes
wrong, and that some order of the table makes it go wrong as soon as there is an
alias to follow.
-/
import InternetLabs.Dns.Sound

namespace InternetLabs.Dns.Server

open InternetLabs InternetLabs.Dns

/-! ## Resolution

What a table says about a name, with no word about the order of its entries. -/

section Resolves
variable (db : CacheDb) (now : Int) (qtype : UInt16)

/-- The unexpired entries with this owner and type. -/
def DnsDbEntry.ofType (n : Bytes) (type : UInt16) (e : DnsDbEntry) : Bool :=
  e.matches now n && e.rr.type = type

/-- The unexpired entries hold at most one alias and at most one entry of the
type asked for per owner, and no owner has both. -/
structure Unambiguous : Prop where
  oneAlias : ∀ n, db.entries.countP (DnsDbEntry.ofType now n cname) ≤ 1
  oneEntry : ∀ n, db.entries.countP (DnsDbEntry.ofType now n qtype) ≤ 1
  notBoth : ∀ n, db.entries.countP (DnsDbEntry.ofType now n cname) = 0 ∨
    db.entries.countP (DnsDbEntry.ofType now n qtype) = 0

/-- The unexpired aliases lead from the name to an unexpired entry of the type
asked for; the list is the aliases and that entry, each with its owner. -/
inductive Resolves : Name → List (Name × DnsDbEntry) → Prop
  | entry {n : Name} {e : DnsDbEntry} : e ∈ db.entries → e.matches now n.text = true →
      e.rr.type = qtype → Resolves n [(n, e)]
  | follow {n t : Name} {e : DnsDbEntry} {es : List (Name × DnsDbEntry)} : e ∈ db.entries →
      e.matches now n.text = true → e.rr.type = cname → e.PointsTo t → Resolves t es →
      Resolves n ((n, e) :: es)

variable {db now qtype}

theorem Unambiguous.perm {db' : CacheDb} (h : Unambiguous db now qtype)
    (hp : db'.entries.Perm db.entries) : Unambiguous db' now qtype where
  oneAlias n := by rw [hp.countP_eq]; exact h.oneAlias n
  oneEntry n := by rw [hp.countP_eq]; exact h.oneEntry n
  notBoth n := by rw [hp.countP_eq, hp.countP_eq]; exact h.notBoth n

theorem Resolves.perm {db' : CacheDb} {n : Name} {es : List (Name × DnsDbEntry)}
    (h : Resolves db now qtype n es) (hp : db'.entries.Perm db.entries) :
    Resolves db' now qtype n es := by
  induction h with
  | entry hmem hm ht => exact .entry (hp.mem_iff.mpr hmem) hm ht
  | follow hmem hm ht hpt _ ih => exact .follow (hp.mem_iff.mpr hmem) hm ht hpt ih

theorem Resolves.mem {n : Name} {es : List (Name × DnsDbEntry)} (h : Resolves db now qtype n es) :
    ∀ p ∈ es, p.2 ∈ db.entries := by
  induction h with
  | entry hmem _ _ => simpa using hmem
  | follow hmem _ _ _ _ ih =>
      intro p hp
      rcases List.mem_cons.mp hp with rfl | hp
      · exact hmem
      · exact ih p hp

theorem Unambiguous.countP_answers (h : Unambiguous db now qtype) (n : Bytes) :
    db.entries.countP (DnsDbEntry.answers now qtype n) ≤ 1 := by
  have hle : db.entries.countP (DnsDbEntry.answers now qtype n)
      ≤ db.entries.countP (DnsDbEntry.ofType now n cname)
        + db.entries.countP (DnsDbEntry.ofType now n qtype) := by
    induction db.entries with
    | nil => simp
    | cons e es ih =>
        simp only [List.countP_cons, DnsDbEntry.answers, DnsDbEntry.ofType]
        by_cases hm : e.matches now n <;> by_cases hq : e.rr.type = qtype <;>
          by_cases hc : e.rr.type = cname <;> simp [hm, hq, hc] <;> omega
  have h1 := h.oneAlias n
  have h2 := h.oneEntry n
  rcases h.notBoth n with h0 | h0 <;> omega

/-- An entry before slot `k` is the one that answers: there is none from `k` on. -/
theorem CacheDb.firstAnswer_of_mem_take {n : Bytes} {e : DnsDbEntry} {k : Nat}
    (h : db.entries.countP (DnsDbEntry.answers now qtype n) ≤ 1)
    (ha : e.answers now qtype n = true) (hmem : e ∈ db.entries.take k) :
    db.firstAnswer now qtype k n = none := by
  have hpos : 0 < (db.entries.take k).countP (DnsDbEntry.answers now qtype n) :=
    List.countP_pos_iff.mpr ⟨e, hmem, ha⟩
  have hsum := @List.countP_append _ (DnsDbEntry.answers now qtype n)
    (db.entries.take k) (db.entries.drop k)
  rw [List.take_append_drop] at hsum
  have hzero : (db.entries.drop k).countP (DnsDbEntry.answers now qtype n) = 0 := by omega
  exact List.find?_eq_none.mpr (List.countP_eq_zero.mp hzero)

theorem CacheDb.firstAnswer_of_mem_drop {n : Bytes} {e : DnsDbEntry} {k : Nat}
    (h : db.entries.countP (DnsDbEntry.answers now qtype n) ≤ 1)
    (ha : e.answers now qtype n = true) (hmem : e ∈ db.entries.drop k) :
    db.firstAnswer now qtype k n = some e := by
  obtain ⟨e', he'⟩ := Option.isSome_iff_exists.mp (List.find?_isSome.mpr ⟨e, hmem, ha⟩)
  rw [CacheDb.firstAnswer, he']
  by_contra hne
  have hmem' : e' ∈ db.entries.erase e :=
    (List.mem_erase_of_ne fun heq => hne (by rw [heq])).mpr
      (List.mem_of_mem_drop (List.mem_of_find?_eq_some he'))
  have hpos : 0 < (db.entries.erase e).countP (DnsDbEntry.answers now qtype n) :=
    List.countP_pos_iff.mpr ⟨e', hmem', List.find?_some he'⟩
  rw [(List.perm_cons_erase (List.mem_of_mem_drop hmem)).countP_eq, List.countP_cons_of_pos ha] at h
  omega

theorem CacheDb.mem_take_one_iff {e : DnsDbEntry} : e ∈ db.entries.take 1 ↔ db.get 0 = some e := by
  rw [CacheDb.get]
  cases db.entries with
  | nil => simp
  | cons e' es => simp [eq_comm]

theorem Unambiguous.firstAnswer_iff (h : Unambiguous db now qtype) {n : Bytes} {e : DnsDbEntry}
    (hmem : e ∈ db.entries) (ha : e.answers now qtype n = true) {k : Nat} (hk : k ≤ 1) :
    db.firstAnswer now qtype k n = if k = 1 ∧ db.get 0 = some e then none else some e := by
  have hone := h.countP_answers n
  split
  · next hfirst =>
    exact CacheDb.firstAnswer_of_mem_take hone ha
      (hfirst.1 ▸ CacheDb.mem_take_one_iff.mpr hfirst.2)
  · next hnot =>
    refine CacheDb.firstAnswer_of_mem_drop hone ha ?_
    rw [← List.take_append_drop k db.entries] at hmem
    refine (List.mem_append.mp hmem).resolve_left fun htake => hnot ?_
    have hk1 : k = 1 := by
      rcases Nat.le_one_iff_eq_zero_or_eq_one.mp hk with rfl | rfl
      · cases htake
      · rfl
    exact ⟨hk1, CacheDb.mem_take_one_iff.mp (hk1 ▸ htake)⟩

theorem Unambiguous.eq_of_firstAnswer (h : Unambiguous db now qtype) {n : Bytes}
    {e e' : DnsDbEntry} (hmem : e ∈ db.entries) (ha : e.answers now qtype n = true) {k : Nat}
    (hk : k ≤ 1) (h' : db.firstAnswer now qtype k n = some e') :
    e' = e ∧ ¬ (k = 1 ∧ db.get 0 = some e) := by
  rw [h.firstAnswer_iff hmem ha hk] at h'
  split at h'
  · cases h'
  · next hnot => cases h'; exact ⟨rfl, hnot⟩

theorem forall_drop_cons_iff {p : Name × DnsDbEntry} {es : List (Name × DnsDbEntry)} {k : Nat}
    (hk : k ≤ 1) :
    (∀ p' ∈ (p :: es).drop (1 - k), db.get 0 ≠ some p'.2) ↔
      ¬ (k = 1 ∧ db.get 0 = some p.2) ∧ ∀ p' ∈ es, db.get 0 ≠ some p'.2 := by
  rcases Nat.le_one_iff_eq_zero_or_eq_one.mp hk with rfl | rfl <;> simp

/-- **When the search finds the resolution.**  It does from slot 0 unless an entry
after the first stands in slot 0, and from slot 1 unless any entry does. -/
theorem Resolves.chain_iff (hun : Unambiguous db now qtype) (hq : qtype ≠ cname) {n : Name}
    {es : List (Name × DnsDbEntry)} (h : Resolves db now qtype n es) {k : Nat} (hk : k ≤ 1)
    (es' : List (Name × DnsDbEntry)) :
    Chain db now qtype k n es' true ↔
      es' = es ∧ ∀ p ∈ es.drop (1 - k), db.get 0 ≠ some p.2 := by
  induction h generalizing k es' with
  | @entry n e hmem hm ht =>
      have ha := DnsDbEntry.answers_iff.mpr ⟨hm, .inl ht⟩
      rw [forall_drop_cons_iff hk]
      constructor
      · intro hchain
        cases hchain with
        | hit h' _ =>
            obtain ⟨rfl, hnot⟩ := hun.eq_of_firstAnswer hmem ha hk h'
            exact ⟨rfl, hnot, by simp⟩
        | follow h' ht' _ _ =>
            obtain ⟨rfl, -⟩ := hun.eq_of_firstAnswer hmem ha hk h'
            exact (ht' ht).elim
      · rintro ⟨rfl, hnot, -⟩
        exact .hit (by rw [hun.firstAnswer_iff hmem ha hk, if_neg hnot]) ht
  | @follow n t e es hmem hm ht hpt _ ih =>
      have ha : e.answers now qtype n.text = true := DnsDbEntry.answers_iff.mpr ⟨hm, .inr ht⟩
      have hne : e.rr.type ≠ qtype := fun heq => hq (heq.symm.trans ht)
      rw [forall_drop_cons_iff hk]
      constructor
      · intro hchain
        cases hchain with
        | hit h' ht' =>
            obtain ⟨rfl, -⟩ := hun.eq_of_firstAnswer hmem ha hk h'
            exact (hne ht').elim
        | follow h' _ hpt' hrest =>
            obtain ⟨rfl, hnot⟩ := hun.eq_of_firstAnswer hmem ha hk h'
            obtain rfl := hpt.unique hpt'
            obtain ⟨rfl, hall⟩ := (ih (k := 1) (by omega) _).mp hrest
            exact ⟨rfl, hnot, hall⟩
      · rintro ⟨rfl, hnot, hall⟩
        refine .follow (by rw [hun.firstAnswer_iff hmem ha hk, if_neg hnot]) hne hpt ?_
        exact (ih (k := 1) (by omega) es).mpr ⟨rfl, hall⟩

/-! ## The answer

Behind an alias the search begins again at slot 1, so an entry in slot 0 is found for
the first name only. -/

theorem message_found {q : Query} {b : Bool} {es es' : List (Name × DnsDbEntry)}
    {rest rest' : Bytes} (h : message q now (rcode b) es ++ rest = message q now 0 es' ++ rest') :
    b = true := by
  cases b with
  | true => rfl
  | false =>
      have hbyte : (replyFlags q.flags 3).toUInt8 = (replyFlags q.flags 0).toUInt8 := by
        have := congrArg (fun m : Bytes => m[3]?) h
        simpa [message, be16, rcode] using this
      exfalso
      revert hbyte
      rcases and_0x0100 q.flags with hf | hf <;> rw [replyFlags, replyFlags, hf] <;> decide

/-- `q` is answered with code 0 and exactly the entries `es`. -/
def AnsweredWith (db : CacheDb) (now : Int) (q : Query) (es : List (Name × DnsDbEntry))
    (m : Bytes) : Prop :=
  getResponse db now q.bytes m =
    some (message q now 0 es ++ m.drop (message q now 0 es).length, (message q now 0 es).length)

theorem answeredWith_iff_chain (hdb : ∀ e ∈ db.entries, e.WellFormed) {q : Query}
    {es : List (Name × DnsDbEntry)} (hun : Unambiguous db now q.qtype)
    (hq : q.qtype ≠ cname) (hres : Resolves db now q.qtype q.name es) (m : Bytes) :
    AnsweredWith db now q es m ↔ Chain db now q.qtype 0 q.name es true := by
  constructor
  · intro h
    obtain ⟨es', b, hchain⟩ := chain_of_getResponse hdb h
    have hsame := getResponse_of_chain hdb hchain m
    rw [AnsweredWith, hsame] at h
    obtain rfl := message_found (Prod.mk.inj (Option.some.inj h)).1
    have := (hres.chain_iff hun hq (k := 0) (by omega) es').mp hchain
    exact this.1 ▸ hchain
  · intro h
    exact getResponse_of_chain hdb h m

/-- The table with one of its entries moved to the first slot. -/
def CacheDb.front (db : CacheDb) (e : DnsDbEntry) (h : e ∈ db.entries) : CacheDb where
  entries := e :: db.entries.erase e
  fits := by rw [(List.perm_cons_erase h).symm.length_eq]; exact db.fits

/-- **Where an entry stands matters in the first slot only.**  A question that
resolves is answered with its resolution exactly when none of the entries after
the first stands in slot 0; so every order of the table gives that answer
exactly when there is no alias to follow. -/
theorem getResponse_resolves_iff (hdb : ∀ e ∈ db.entries, e.WellFormed) {q : Query}
    (hq : q.qtype ≠ cname) (hun : Unambiguous db now q.qtype) {es : List (Name × DnsDbEntry)}
    (hres : Resolves db now q.qtype q.name es) (m : Bytes) :
    (AnsweredWith db now q es m ↔ ∀ p ∈ es.tail, db.get 0 ≠ some p.2) ∧
    ((∀ db' : CacheDb, db'.entries.Perm db.entries → AnsweredWith db' now q es m) ↔
      es.tail = []) := by
  have hall : ∀ db' : CacheDb, db'.entries.Perm db.entries →
      (AnsweredWith db' now q es m ↔ ∀ p ∈ es.tail, db'.get 0 ≠ some p.2) := by
    intro db' hp
    have hdb' : ∀ e ∈ db'.entries, e.WellFormed := fun e he => hdb e (hp.mem_iff.mp he)
    rw [answeredWith_iff_chain hdb' (hun.perm hp) hq (hres.perm hp),
      (hres.perm hp).chain_iff (hun.perm hp) hq (by omega)]
    simp
  refine ⟨hall db (.refl _), fun h => ?_, fun h db' hp => ?_⟩
  · -- an entry after the first, moved to the first slot, is not found
    by_contra hne
    obtain ⟨p, hp⟩ := List.exists_mem_of_ne_nil _ hne
    have hmem := hres.mem p (List.mem_of_mem_tail hp)
    have hperm : (db.front p.2 hmem).entries.Perm db.entries := (List.perm_cons_erase hmem).symm
    exact (hall _ hperm).mp (h _ hperm) p hp rfl
  · rw [hall db' hp, h]
    simp

end Resolves

theorem countP_ofType_le (db : CacheDb) (now : Int) (n : Bytes) (type : UInt16) :
    db.entries.countP (DnsDbEntry.ofType now n type) ≤
      db.entries.countP fun e => e.rr.type = type :=
  List.countP_mono_left fun e _ h => by simp [DnsDbEntry.ofType] at h; simpa using h.2

theorem cnameDb_unambiguous : Unambiguous cnameDb 0 wwwQuery.qtype where
  oneAlias n := (countP_ofType_le cnameDb 0 n cname).trans (by decide)
  oneEntry n := (countP_ofType_le cnameDb 0 n typeA).trans (by decide)
  notBoth n := by
    have howner : ∀ e ∈ cnameDb.entries, ∀ e' ∈ cnameDb.entries, e.rr.type = cname →
        e'.rr.type = typeA → cstr e.rr.name ≠ cstr e'.rr.name := by decide
    by_contra hboth
    obtain ⟨halias, hentry⟩ := not_or.mp hboth
    obtain ⟨e, he, ha⟩ := List.countP_pos_iff.mp (Nat.pos_of_ne_zero halias)
    obtain ⟨e', he', ha'⟩ := List.countP_pos_iff.mp (Nat.pos_of_ne_zero hentry)
    simp only [DnsDbEntry.ofType, Bool.and_eq_true, decide_eq_true_eq] at ha ha'
    exact howner e he e' he' ha.2 ha'.2
      ((DnsDbEntry.matches_iff.mp ha.1).1.trans (DnsDbEntry.matches_iff.mp ha'.1).1.symm)

theorem cnameDb_resolves : Resolves cnameDb 0 wwwQuery.qtype wwwQuery.name cnameChain :=
  .follow (by decide +kernel) (by decide) (by decide) wwwLine_pointsTo
    (.entry (by decide) (by decide) (by decide))

/-- The alias in front of its target: found, but not in every order. -/
theorem cnameDb_answered :
    AnsweredWith cnameDb 0 wwwQuery cnameChain (List.replicate bufferMax 0) ∧
      ¬ ∀ db' : CacheDb, db'.entries.Perm cnameDb.entries →
        AnsweredWith db' 0 wwwQuery cnameChain (List.replicate bufferMax 0) := by
  obtain ⟨hfirst, horder⟩ := getResponse_resolves_iff cnameDb_wellFormed (by decide)
    cnameDb_unambiguous cnameDb_resolves (List.replicate bufferMax 0)
  exact ⟨hfirst.mpr (by decide), horder.not.mpr (by decide)⟩

/-- The entries of `cnameDb`, with the target in the first slot. -/
def swappedDb : CacheDb := loadDb 0 [exampleLine, wwwLine] (by decide)

theorem swappedDb_perm : swappedDb.entries.Perm cnameDb.entries := .swap _ _ _

/-- The question resolves, and the answer is the alias alone with NXDOMAIN. -/
theorem swappedDb_nxdomain :
    (∀ e ∈ swappedDb.entries, e.WellFormed) ∧ Unambiguous swappedDb 0 wwwQuery.qtype ∧
      Resolves swappedDb 0 wwwQuery.qtype wwwQuery.name cnameChain ∧
      getResponse swappedDb 0 wwwQuery.bytes (List.replicate bufferMax 0)
        = some (message wwwQuery 0 3 [(wwwExampleCom, loadEntry 0 [0] wwwLine)]
            ++ List.replicate 951 0, 73) ∧
      ¬ AnsweredWith swappedDb 0 wwwQuery cnameChain (List.replicate bufferMax 0) := by
  have hwf : ∀ e ∈ swappedDb.entries, e.WellFormed := fun e he =>
    cnameDb_wellFormed e (swappedDb_perm.mem_iff.mp he)
  have hchain : Chain swappedDb 0 wwwQuery.qtype 0 wwwQuery.name
      [(wwwExampleCom, loadEntry 0 [0] wwwLine)] false :=
    .follow (by decide +kernel) (by decide) wwwLine_pointsTo (.miss (by decide))
  have hresp := getResponse_of_chain hwf hchain (List.replicate bufferMax 0)
  refine ⟨hwf, cnameDb_unambiguous.perm swappedDb_perm, cnameDb_resolves.perm swappedDb_perm,
    ?_, fun h => ?_⟩
  · rw [hresp]
    decide +kernel
  · rw [AnsweredWith, hresp] at h
    cases message_found (Prod.mk.inj (Option.some.inj h)).1

end InternetLabs.Dns.Server
