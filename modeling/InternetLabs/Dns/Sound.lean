/-
# `InternetLabs.Dns.Sound` — every answer is sound

A chain is sound by construction: its entries are unexpired entries of the
table, the first is owned by the question name, each but the last is an alias of
the next one's owner, and it was found when its last entry has the type asked
for.  With `getResponse_of_chain` this is a statement about the bytes sent.

The TTL is the one field that is not what the table says: `remaining` is a
`time_t` and the field has 32 bits, so an entry with more than `2 ^ 32` seconds to
go is sent with the remainder.
-/
import Mathlib.Tactic.NormNum
import InternetLabs.Dns.Answer
import InternetLabs.Dns.InitDb

namespace InternetLabs.Dns.Server

open InternetLabs InternetLabs.Dns

/-- What the answers `es` to `q` have to be; `found` is the response code's
side of it. -/
structure SoundAnswer (db : CacheDb) (now : Int) (q : Query) (es : List (Name × DnsDbEntry))
    (found : Bool) : Prop where
  mem : ∀ p ∈ es, p.2 ∈ db.entries
  owner : ∀ p ∈ es, cstr p.2.rr.name = p.1.text
  unexpired : ∀ p ∈ es, p.2.expires - now > 0
  ttl : ∀ p ∈ es, ((p.2.answer now).ttl.toNat : Int) = (p.2.expires - now) % 2 ^ 32
  wellFormed : ∀ p ∈ es, p.2.WellFormed
  first : ∀ p, es.head? = some p → p.1 = q.name
  linked : es.IsChain fun p p' => p.2.rr.type = cname ∧ p.2.PointsTo p'.1
  found : found = true ↔ ∃ p, es.getLast? = some p ∧ p.2.rr.type = q.qtype

section Chain
variable {db : CacheDb} {now : Int} {qtype : UInt16} {k : Nat} {n : Name}
  {es : List (Name × DnsDbEntry)} {b : Bool}

theorem toNat_ttl_answer (now : Int) (e : DnsDbEntry) :
    ((e.answer now).ttl.toNat : Int) = (e.expires - now) % 2 ^ 32 := by
  have hmod : 0 ≤ (e.expires - now) % 2 ^ 32 := Int.emod_nonneg _ (by decide)
  have hlt : (e.expires - now) % 2 ^ 32 < 2 ^ 32 := Int.emod_lt_of_pos _ (by decide)
  rw [DnsDbEntry.answer, UInt32.ofInt, UInt32.toNat_ofNat']
  omega

/-- The entries of a chain answer the names they are listed with. -/
theorem Chain.answers (h : Chain db now qtype k n es b) :
    ∀ p ∈ es, p.2 ∈ db.entries ∧ p.2.answers now qtype p.1.text = true := by
  induction h with
  | miss _ => simp
  | hit h _ =>
      intro p hp
      rw [List.mem_singleton.mp hp]
      exact ⟨CacheDb.firstAnswer_mem h, CacheDb.firstAnswer_answers h⟩
  | follow h _ _ _ ih =>
      intro p hp
      rcases List.mem_cons.mp hp with rfl | hp
      · exact ⟨CacheDb.firstAnswer_mem h, CacheDb.firstAnswer_answers h⟩
      · exact ih p hp

theorem Chain.head (h : Chain db now qtype k n es b) : ∀ p, es.head? = some p → p.1 = n := by
  cases h with
  | miss _ => simp
  | hit _ _ => simp
  | follow _ _ _ _ => simp

theorem Chain.linked (h : Chain db now qtype k n es b) :
    es.IsChain fun p p' => p.2.rr.type = cname ∧ p.2.PointsTo p'.1 := by
  induction h with
  | miss _ => exact .nil
  | hit _ _ => exact .singleton _
  | follow h ht hpt hrest ih =>
      have hc := (DnsDbEntry.answers_iff.mp (CacheDb.firstAnswer_answers h)).2.resolve_left ht
      refine List.isChain_cons.mpr ⟨fun p' hp' => ⟨hc, ?_⟩, ih⟩
      rw [hrest.head p' hp']
      exact hpt

theorem Chain.found_iff (h : Chain db now qtype k n es b) :
    b = true ↔ ∃ p, es.getLast? = some p ∧ p.2.rr.type = qtype := by
  induction h with
  | miss _ => simp
  | hit _ ht => simp [ht]
  | @follow k n t e es b _ ht _ _ ih =>
      rw [ih]
      cases es with
      | nil => simp [ht]
      | cons p es => rw [List.getLast?_cons_cons]

theorem length_wire_ge (n : Name) {rr : DnsRr} : 11 ≤ (rr.wire n).length := by
  have hname : 1 ≤ n.wire.length := by rw [← n.length_wire]; omega
  simp only [DnsRr.wire, List.length_append, length_be16, length_be32]
  omega

theorem length_records_ge (now : Int) (es : List (Name × DnsDbEntry)) :
    11 * es.length ≤ (records now es).length := by
  induction es with
  | nil => simp
  | cons p es ih =>
      have := @length_wire_ge p.1 (p.2.answer now)
      rw [records_cons, List.length_append, List.length_cons]
      omega

/-- The entries of a chain for `q` are a sound answer to it. -/
theorem Chain.sound {q : Query} (hdb : ∀ e ∈ db.entries, e.WellFormed)
    (h : Chain db now q.qtype 0 q.name es b) : SoundAnswer db now q es b where
  mem := fun p hp => (h.answers p hp).1
  owner := fun p hp => (answers_owner_cstr (h.answers p hp).2).trans p.1.cstr_text
  unexpired := fun p hp =>
    (DnsDbEntry.matches_iff.mp (DnsDbEntry.answers_iff.mp (h.answers p hp).2).1).2
  ttl := fun p _ => toNat_ttl_answer now p.2
  wellFormed := fun p hp => hdb p.2 (h.answers p hp).1
  first := h.head
  linked := h.linked
  found := h.found_iff

theorem length_lt_of_message {q : Query} {code : UInt16}
    (h : (message q now code es).length ≤ bufferMax) : es.length < 2 ^ 16 := by
  have hrec := length_records_ge now es
  have hle : (records now es).length ≤ (message q now code es).length := by
    simp only [message, List.length_append]
    omega
  have hmax : bufferMax = 1024 := rfl
  omega

end Chain

/-! ## A table with an alias -/

theorem loadEntry_wellFormed_iff {start : Int} {heap : Bytes} {l : DbLine} :
    (loadEntry start heap l).WellFormed ↔ (loadEntry 0 heap l).WellFormed :=
  ⟨fun ⟨howner, htarget, haddr, hblock⟩ => ⟨howner, htarget, haddr, hblock⟩,
    fun ⟨howner, htarget, haddr, hblock⟩ => ⟨howner, htarget, haddr, hblock⟩⟩

theorem exampleLine_wellFormed (start : Int) : (loadEntry start [0] exampleLine).WellFormed :=
  loadEntry_wellFormed_iff.mpr {
    owner := ⟨exampleCom, by decide⟩
    target := fun h => absurd h (by decide)
    addr := fun _ => by decide
    block := by decide }

theorem wwwLine_pointsTo : (loadEntry 0 [0] wwwLine).PointsTo exampleCom :=
  ⟨by decide, by decide +kernel⟩

theorem wwwLine_wellFormed (start : Int) : (loadEntry start [0] wwwLine).WellFormed :=
  loadEntry_wellFormed_iff.mpr {
    owner := ⟨wwwExampleCom, by decide⟩
    target := fun _ => ⟨exampleCom, wwwLine_pointsTo⟩
    addr := fun h => absurd h (by decide)
    block := by decide +kernel }

/-- The table of `cachedb-cname.txt`, less the line in between. -/
def cnameDb : CacheDb := loadDb 0 [wwwLine, exampleLine] (by decide)

theorem cnameDb_wellFormed : ∀ e ∈ cnameDb.entries, e.WellFormed := by
  intro e he
  rcases List.mem_cons.mp he with rfl | he
  · exact wwwLine_wellFormed 0
  · rw [List.mem_singleton.mp he]; exact exampleLine_wellFormed 0

/-- What a search for the alias finds in it. -/
def cnameChain : List (Name × DnsDbEntry) :=
  [(wwwExampleCom, loadEntry 0 [0] wwwLine), (exampleCom, loadEntry 0 [0] exampleLine)]

def wwwQuery : Query := .plain wwwExampleCom typeA

theorem cnameDb_chain : Chain cnameDb 0 wwwQuery.qtype 0 wwwQuery.name cnameChain true :=
  .follow (by decide +kernel) (by decide) wwwLine_pointsTo
    (.hit (by decide) (by decide))

/-! ## The answer -/

/-- **Every answer is sound.**  In a zeroed buffer, the response to a query that
fits is the message of a sound list of answers and nothing after it; the answer
count is the length of that list. -/
theorem getResponse_sound {db : CacheDb} {now : Int} (hdb : ∀ e ∈ db.entries, e.WellFormed)
    {q : Query} {out : Bytes} {len : Nat}
    (h : getResponse db now q.bytes (List.replicate bufferMax 0) = some (out, len))
    (hroom : len ≤ bufferMax) :
    ∃ es found, SoundAnswer db now q es found ∧ es.length < 2 ^ 16 ∧
      len = (message q now (rcode found) es).length ∧
      out = message q now (rcode found) es ++ List.replicate (bufferMax - len) 0 := by
  obtain ⟨es, b, hchain⟩ := chain_of_getResponse hdb h
  rw [getResponse_of_chain hdb hchain] at h
  obtain ⟨hout, hlen⟩ := Prod.mk.inj (Option.some.inj h)
  refine ⟨es, b, hchain.sound hdb, ?_, hlen.symm, ?_⟩
  · exact length_lt_of_message (hlen.trans_le hroom)
  · rw [← hout, List.drop_replicate, hlen]

theorem cnameDb_sound :
    ∃ out len es found,
      getResponse cnameDb 0 wwwQuery.bytes (List.replicate bufferMax 0) = some (out, len) ∧
      SoundAnswer cnameDb 0 wwwQuery es found ∧ es.length < 2 ^ 16 ∧
      len = (message wwwQuery 0 (rcode found) es).length ∧
      out = message wwwQuery 0 (rcode found) es ++ List.replicate (bufferMax - len) 0 := by
  have h := getResponse_of_chain cnameDb_wellFormed cnameDb_chain (List.replicate bufferMax 0)
  obtain ⟨es, found, hsound⟩ := getResponse_sound cnameDb_wellFormed h (by decide +kernel)
  exact ⟨_, _, es, found, h, hsound⟩

/-- A table read while the clock stood at `2 ^ 32`. -/
def aheadDb : CacheDb := loadDb (2 ^ 32) [exampleLine] (by decide)

theorem aheadDb_wellFormed : ∀ e ∈ aheadDb.entries, e.WellFormed := by
  intro e he
  rw [List.mem_singleton.mp he]
  exact exampleLine_wellFormed _

def exampleQuery : Query := .plain exampleCom typeA

/-- With the clock back at 0 the entry has `2 ^ 32 + 30` seconds to go, and is
sent with a TTL of 30. -/
theorem aheadDb_ttl :
    (Loadable aheadDb ∧ ∀ e ∈ aheadDb.entries, e.WellFormed) ∧
      getResponse aheadDb 0 exampleQuery.bytes (List.replicate bufferMax 0)
        = some (message exampleQuery 0 0
              [(exampleCom, loadEntry (2 ^ 32) [0] exampleLine)] ++ List.replicate 968 0, 56) ∧
      ∀ e ∈ aheadDb.entries, e.expires - 0 = 2 ^ 32 + 30 ∧ (e.answer 0).ttl = 30 := by
  refine ⟨⟨loadable_loadDb _ ?_, aheadDb_wellFormed⟩, ?_, ?_⟩
  · intro l hl
    rw [List.mem_singleton.mp hl]
    exact exampleLine_ok
  · have hchain : Chain aheadDb 0 exampleQuery.qtype 0 exampleQuery.name
        [(exampleCom, loadEntry (2 ^ 32) [0] exampleLine)] true :=
      .hit (by decide) (by decide)
    rw [getResponse_of_chain aheadDb_wellFormed hchain]
    decide +kernel
  · decide

end InternetLabs.Dns.Server
