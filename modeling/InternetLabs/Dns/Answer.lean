/-
# `InternetLabs.Dns.Answer` — what `get_response` answers

The response is put together through running offsets: header, question and
records go one after the other to the end of what has been built, and two
header fields are patched afterwards.  The invariant of the search is therefore
one equation on memory, `response = built ++ m.drop built.length`, with `built`
the message so far and `m` the buffer as it was; `returns_of_chain` carries it
through the loop.

What the loop appends is a `Chain`: the entries it meets, each paired with the
name it was looked for under.  The chain is the whole content of the answer, and
the message is a function of it (`message`, `getResponse_of_chain`).
-/
import InternetLabs.Dns.Query
import InternetLabs.Dns.Search

namespace InternetLabs.Dns.Server

open InternetLabs InternetLabs.Dns

/-! ## Well-formed tables

What the results ask of a table.  That `init_db` leaves only such tables when its file
is right is shown where the file is read. -/

/-- The rdata of an alias is the wire form of the name `t`. -/
def DnsDbEntry.PointsTo (e : DnsDbEntry) (t : Name) : Prop :=
  e.rr.rdataLen.toNat = t.wire.length ∧ t.wire <+: e.rr.rdata

/-- Owners and alias targets are names, addresses have four bytes, and the rdata
block is as long as it is said to be. -/
structure DnsDbEntry.WellFormed (e : DnsDbEntry) : Prop where
  owner : ∃ n : Name, cstr e.rr.name = n.text
  target : e.rr.type = cname → ∃ t, e.PointsTo t
  addr : e.rr.type = typeA → e.rr.rdataLen = 4
  block : e.rr.rdataLen.toNat ≤ e.rr.rdata.length

theorem DnsDbEntry.matches_iff {now : Int} {qname : Bytes} {e : DnsDbEntry} :
    e.matches now qname = true ↔ cstr e.rr.name = cstr qname ∧ e.expires - now > 0 := by
  simp [DnsDbEntry.matches]

theorem DnsDbEntry.decode_target {e : DnsDbEntry} {t : Name} (h : e.PointsTo t) :
    Server.nameAsciiFromWire e.rr.rdata 0 = some (nameBlock t.text, t.wire.length) := by
  obtain ⟨post, hpost⟩ := h.2
  have := Server.nameAsciiFromWire_wire [] post t
  rw [List.nil_append, hpost] at this
  simpa using this

theorem DnsDbEntry.PointsTo.unique {e : DnsDbEntry} {t t' : Name} (h : e.PointsTo t)
    (h' : e.PointsTo t') : t = t' := by
  have hblock := (DnsDbEntry.decode_target h).symm.trans (DnsDbEntry.decode_target h')
  have htext := congrArg cstr (Prod.mk.inj (Option.some.inj hblock)).1
  rw [cstr_nameBlock t.text_noNul, cstr_nameBlock t'.text_noNul] at htext
  exact Name.text_injective htext

/-! ## Chains

The search appends one record for each entry it follows, so its result is told by the
list of these entries. -/

section Chain
variable (db : CacheDb) (now : Int) (qtype : UInt16)

/-- What a search for `n` from slot `k` on appends: the entries that answer with
the names they were looked for under, and whether it ended at an entry of the
type asked for.  An alias restarts the search at slot 1. -/
inductive Chain : Nat → Name → List (Name × DnsDbEntry) → Bool → Prop
  | miss {k : Nat} {n : Name} : db.firstAnswer now qtype k n.text = none → Chain k n [] false
  | hit {k : Nat} {n : Name} {e : DnsDbEntry} : db.firstAnswer now qtype k n.text = some e →
      e.rr.type = qtype → Chain k n [(n, e)] true
  | follow {k : Nat} {n t : Name} {e : DnsDbEntry} {es : List (Name × DnsDbEntry)} {b : Bool} :
      db.firstAnswer now qtype k n.text = some e → e.rr.type ≠ qtype → e.PointsTo t →
      Chain 1 t es b → Chain k n ((n, e) :: es) b

/-- The answer section made of a list of entries. -/
def records (es : List (Name × DnsDbEntry)) : Bytes :=
  es.flatMap fun p => (p.2.answer now).wire p.1

variable {db now qtype}

@[simp] theorem records_nil : records now [] = [] := rfl

theorem records_cons (n : Name) (e : DnsDbEntry) (es : List (Name × DnsDbEntry)) :
    records now ((n, e) :: es) = (e.answer now).wire n ++ records now es := rfl

theorem rrToWire_live {n : Name} {e : DnsDbEntry} (he : e.WellFormed)
    (hn : cstr e.rr.name = n.text) (built m : Bytes) :
    Server.rrToWire (e.answer now) (built ++ m.drop built.length) built.length
      = ((built ++ (e.answer now).wire n) ++ m.drop (built ++ (e.answer now).wire n).length,
          ((e.answer now).wire n).length) :=
  @Server.rrToWire_named (e.answer now) n hn he.block built m

theorem answers_owner_cstr {n : Bytes} {e : DnsDbEntry} (h : e.answers now qtype n = true) :
    cstr e.rr.name = cstr n :=
  (DnsDbEntry.matches_iff.mp (DnsDbEntry.answers_iff.mp h).1).1

theorem Chain.of_firstAnswer {k k' : Nat} {n : Name} {es : List (Name × DnsDbEntry)} {b : Bool}
    (h : Chain db now qtype k n es b)
    (hk : db.firstAnswer now qtype k n.text = db.firstAnswer now qtype k' n.text) :
    Chain db now qtype k' n es b := by
  cases h with
  | miss h => exact .miss (hk ▸ h)
  | hit h ht => exact .hit (hk ▸ h) ht
  | follow h ht hpt hrest => exact .follow (hk ▸ h) ht hpt hrest

theorem chain_of_returns (hdb : ∀ e ∈ db.entries, e.WellFormed) {s s' : Search} {n : Name}
    (hq : cstr s.qname = n.text) (h : Loop.Returns (searchBody db now qtype) s s') :
    ∃ es b, Chain db now qtype s.i n es b := by
  induction h using Loop.Returns.induct generalizing n with
  | round s h ih =>
      have hfirst := @CacheDb.firstAnswer_congr db now qtype _ _ s.i
        (hq.trans n.cstr_text.symm)
      cases hget : db.get s.i with
      | none => exact ⟨[], false, .miss (CacheDb.firstAnswer_of_get_none hget _)⟩
      | some e =>
          by_cases he : e.answers now qtype s.qname = true
          · rw [CacheDb.firstAnswer_of_answers hget he] at hfirst
            by_cases ht : e.rr.type = qtype
            · exact ⟨[(n, e)], true, .hit hfirst.symm ht⟩
            · have hc := (DnsDbEntry.answers_iff.mp he).2.resolve_left ht
              obtain ⟨t, hpt⟩ := (hdb e (List.mem_of_getElem? hget)).target hc
              obtain ⟨s₁, hb, hi, hq₁⟩ : ∃ s₁ : Search, searchBody db now qtype s = .next s₁ ∧
                  s₁.i = 1 ∧ s₁.qname = nameBlock t.text := by
                rw [searchBody_of_alias hget he ht, DnsDbEntry.decode_target hpt]
                exact ⟨_, rfl, rfl, rfl⟩
              obtain ⟨es, b, hchain⟩ := ih s₁ hb (hq₁ ▸ cstr_nameBlock t.text_noNul)
              rw [hi] at hchain
              exact ⟨(n, e) :: es, b, .follow hfirst.symm ht hpt hchain⟩
          · rw [CacheDb.firstAnswer_of_not_answers hget he] at hfirst
            have hnext := @CacheDb.firstAnswer_congr db now qtype _ _
              (s.i + 1) (hq.trans n.cstr_text.symm)
            obtain ⟨es, b, hchain⟩ := ih _ (searchBody_of_not_answers hget he) hq
            exact ⟨es, b, hchain.of_firstAnswer (hnext.symm.trans hfirst)⟩

/-- `s` is what a search leaves that found the answers `es` with `built` at the
front of the buffer `m` and `count` answers counted before. -/
structure Search.Adds (s : Search) (now : Int) (built m : Bytes) (count : UInt16)
    (es : List (Name × DnsDbEntry)) (b : Bool) : Prop where
  response : s.response = (built ++ records now es) ++ m.drop (built ++ records now es).length
  index : s.index = (built ++ records now es).length
  found : s.found = b
  numAnswers : s.numAnswers = count + UInt16.ofNat es.length

/-- **The search appends the chain.**  From any round on, the loop returns, and
what it adds to the response, to the offset and to the count is what the chain
for the name looked for makes. -/
theorem returns_of_chain (hdb : ∀ e ∈ db.entries, e.WellFormed) {m : Bytes} {k : Nat} {n : Name}
    {es : List (Name × DnsDbEntry)} {b : Bool} (h : Chain db now qtype k n es b) {s : Search}
    {built : Bytes} (hk : s.i = k) (hq : cstr s.qname = n.text)
    (hresp : s.response = built ++ m.drop built.length) (hidx : s.index = built.length)
    (hfound : s.found = false) :
    ∃ s', Loop.Returns (searchBody db now qtype) s s' ∧ s'.Adds now built m s.numAnswers es b := by
  induction h generalizing s built with
  | @miss k n h =>
      rw [← CacheDb.firstAnswer_congr k (hq.trans n.cstr_text.symm), ← hk] at h
      obtain ⟨j, hj⟩ := returns_of_firstAnswer_none h
      exact ⟨_, hj, by simpa using hresp, by simpa using hidx, hfound, by simp⟩
  | @hit k n e h ht =>
      rw [← CacheDb.firstAnswer_congr k (hq.trans n.cstr_text.symm), ← hk] at h
      obtain ⟨j, hget, hr⟩ := returns_of_firstAnswer_some h
      have he := CacheDb.firstAnswer_answers h
      have hrr := @rrToWire_live now _ _ (hdb e (CacheDb.firstAnswer_mem h))
        ((answers_owner_cstr he).trans hq) built m
      rw [← hresp, ← hidx] at hrr
      have hbody := searchBody_of_hit (s := { s with i := j }) hget he ht
      rw [hrr] at hbody
      refine ⟨_, hr _ (Loop.returns_of_ret hbody), ?_, ?_, rfl, rfl⟩
      · simp [records]
      · simp [records, hidx]
  | @follow k n t e es b h ht hpt _ ih =>
      rw [← CacheDb.firstAnswer_congr k (hq.trans n.cstr_text.symm), ← hk] at h
      obtain ⟨j, hget, hr⟩ := returns_of_firstAnswer_some h
      have he := CacheDb.firstAnswer_answers h
      have hrr := @rrToWire_live now _ _ (hdb e (CacheDb.firstAnswer_mem h))
        ((answers_owner_cstr he).trans hq) built m
      rw [← hresp, ← hidx] at hrr
      obtain ⟨s₁, hs₁⟩ : ∃ s₁ : Search, s₁ =
          { s with i := 1, qname := nameBlock t.text, numAnswers := s.numAnswers + 1,
                   response := (built ++ (e.answer now).wire n)
                     ++ m.drop (built ++ (e.answer now).wire n).length,
                   index := s.index + ((e.answer now).wire n).length } := ⟨_, rfl⟩
      have hbody : searchBody db now qtype { s with i := j } = .next s₁ := by
        rw [searchBody_of_alias (s := { s with i := j }) hget he ht,
          DnsDbEntry.decode_target hpt, hrr, hs₁]
      obtain ⟨s', hs', hadds⟩ := @ih s₁ (built ++ (e.answer now).wire n) (by rw [hs₁])
        (by rw [hs₁]; exact cstr_nameBlock t.text_noNul) (by rw [hs₁])
        (by rw [hs₁, List.length_append, ← hidx]) (by rw [hs₁]; exact hfound)
      refine ⟨s', hr s' (Loop.returns_of_next hbody hs'), ?_, ?_, hadds.found, ?_⟩
      · rw [records_cons, ← List.append_assoc]; exact hadds.response
      · rw [records_cons, ← List.append_assoc]; exact hadds.index
      · have hone : UInt16.ofNat (es.length + 1) = UInt16.ofNat es.length + 1 :=
          UInt16.ofNat_add es.length 1
        rw [hadds.numAnswers, hs₁, List.length_cons, hone, UInt16.add_assoc, UInt16.add_comm 1]

end Chain

/-! ## The message

The response as one expression, in the order in which its parts lie in the buffer, while
`get_response` writes two of its fields at the end. -/

/-- The response to `q` with code `rcode` and the answers `es`. -/
def message (q : Query) (now : Int) (rcode : UInt16) (es : List (Name × DnsDbEntry)) : Bytes :=
  be16 q.id ++ be16 (replyFlags q.flags rcode) ++ be16 1 ++ be16 (UInt16.ofNat es.length)
    ++ be16 0 ++ be16 0 ++ q.question ++ records now es

/-- The response code of a search. -/
def rcode (found : Bool) : UInt16 := if found then 0 else 3

/-- The message before the search: the header without an answer count, and the
question section. -/
def preamble (q : Query) : Bytes :=
  be16 q.id ++ be16 (replyFlags q.flags 0) ++ be16 1 ++ List.replicate 6 0 ++ q.question

theorem length_preamble (q : Query) : (preamble q).length = 12 + q.question.length := by
  simp [preamble]; omega

/-- The writes up to the search put the preamble at the front of the buffer. -/
theorem getResponse_preamble (db : CacheDb) (now : Int) (q : Query) (m : Bytes) :
    getResponse db now q.bytes m =
      match Loop.run (searchBody db now q.qtype) (searchFuel db)
          (searchStart (nameBlock q.name.text) (preamble q ++ m.drop (preamble q).length)
            (preamble q).length) with
      | none => none
      | some s =>
          let response :=
            if !s.found then writeAt s.response 2 (be16 (replyFlags q.flags 3)) else s.response
          let response :=
            if s.numAnswers ≠ 0 then writeAt response 6 (be16 s.numAnswers) else response
          some (response, s.index) := by
  have h1 : writeAt m 0 (be16 q.id) = be16 q.id ++ m.drop (be16 q.id).length :=
    writeAt_built [] m (be16 q.id)
  have h2 := writeAt_built (be16 q.id) m (be16 (replyFlags q.flags 0))
  have h3 := writeAt_built (be16 q.id ++ be16 (replyFlags q.flags 0)) m (be16 1)
  have h4 := writeAt_built (be16 q.id ++ be16 (replyFlags q.flags 0) ++ be16 1) m
    (List.replicate 6 0)
  obtain ⟨hdr, hhdr⟩ : ∃ hdr, hdr = be16 q.id ++ be16 (replyFlags q.flags 0) ++ be16 1
      ++ List.replicate 6 0 := ⟨_, rfl⟩
  have hlen : hdr.length = 12 := by rw [hhdr]; rfl
  have hname := Server.nameAsciiToWire_named (cstr_nameBlock q.name.text_noNul) hdr m
  have h5 := writeAt_built (hdr ++ q.name.wire) m (be16 q.qtype)
  have h6 := writeAt_built (hdr ++ q.name.wire ++ be16 q.qtype) m (be16 q.qclass)
  rw [← hhdr] at h4
  have hpre : hdr ++ q.name.wire ++ be16 q.qtype ++ be16 q.qclass = preamble q := by
    rw [hhdr]; simp [preamble, Query.question, List.append_assoc]
  rw [hpre] at h6
  simp only [List.length_append, length_be16, hlen] at h2 h3 h4 h5 h6
  have hidx : 12 + q.name.wire.length + 2 + 2 = (preamble q).length := by
    rw [length_preamble]; simp [Query.question]; omega
  simp only [List.length_append, length_be16, hlen] at h1 hname
  simp only [getResponse, q.take_two_bytes, q.isValidRequest_bytes, q.field16_flags,
    replyFlags_zero, le16_htons, ntohs, htons_htons, setNxdomain_replyFlags, h1,
    q.getQuestion_bytes, Query.questionRr, Bool.not_true, Bool.false_eq_true, if_false]
  simp only [h2, h3, h4, hname, h5, h6]
  exact hidx ▸ rfl

/-- The two fields patched after the search complete the message. -/
theorem patch_message (q : Query) (now : Int) (found : Bool) (es : List (Name × DnsDbEntry))
    (rest : Bytes) :
    (let response := preamble q ++ records now es ++ rest
     let response :=
       if !found then writeAt response 2 (be16 (replyFlags q.flags 3)) else response
     if UInt16.ofNat es.length ≠ 0 then writeAt response 6 (be16 (UInt16.ofNat es.length))
     else response)
      = message q now (rcode found) es ++ rest := by
  obtain ⟨body, hbody⟩ : ∃ body, body = be16 0 ++ be16 0 ++ q.question ++ records now es ++ rest :=
    ⟨_, rfl⟩
  -- the first eight bytes, the flags and the count among them, and what follows
  have hpre : preamble q ++ records now es ++ rest
      = be16 q.id ++ be16 (replyFlags q.flags 0) ++ (be16 1 ++ be16 0 ++ body) := by
    rw [hbody]; simp [preamble, be16, List.replicate_succ]
  have hflags : (if !found then
        writeAt (preamble q ++ records now es ++ rest) 2 (be16 (replyFlags q.flags 3))
        else preamble q ++ records now es ++ rest)
      = be16 q.id ++ be16 (replyFlags q.flags (rcode found)) ++ be16 1 ++ be16 0 ++ body := by
    rw [hpre]
    cases found with
    | true => simp [rcode]
    | false =>
        have := writeAt_middle (a := be16 q.id) (b := be16 1 ++ be16 0 ++ body)
          (show (be16 (replyFlags q.flags 0)).length
            = (be16 (replyFlags q.flags 3)).length from rfl)
        simpa [rcode] using this
  have hcount : ∀ k : UInt16, (if k ≠ 0 then
        writeAt (be16 q.id ++ be16 (replyFlags q.flags (rcode found)) ++ be16 1 ++ be16 0 ++ body)
          6 (be16 k)
        else be16 q.id ++ be16 (replyFlags q.flags (rcode found)) ++ be16 1 ++ be16 0 ++ body)
      = be16 q.id ++ be16 (replyFlags q.flags (rcode found)) ++ be16 1 ++ be16 k ++ body := by
    intro k
    by_cases hk : k = 0
    · rw [if_neg (not_not.mpr hk), hk]
    · rw [if_pos hk]
      exact writeAt_middle (a := be16 q.id ++ be16 (replyFlags q.flags (rcode found)) ++ be16 1)
        (b := body) (show (be16 0).length = (be16 k).length from rfl)
  simp only [hflags, hcount]
  simp only [hbody, message, List.append_assoc]

/-- **The response is the message of the chain.** -/
theorem getResponse_of_chain {db : CacheDb} {now : Int} (hdb : ∀ e ∈ db.entries, e.WellFormed)
    {q : Query} {es : List (Name × DnsDbEntry)} {b : Bool}
    (hchain : Chain db now q.qtype 0 q.name es b) (m : Bytes) :
    getResponse db now q.bytes m =
      some (message q now (rcode b) es ++ m.drop (message q now (rcode b) es).length,
        (message q now (rcode b) es).length) := by
  obtain ⟨s₀, hs₀⟩ : ∃ s₀, s₀ = searchStart (nameBlock q.name.text)
      (preamble q ++ m.drop (preamble q).length) (preamble q).length := ⟨_, rfl⟩
  have hqname : cstr s₀.qname = q.name.text := by
    rw [hs₀]; exact cstr_nameBlock q.name.text_noNul
  obtain ⟨s, hret, hadds⟩ := @returns_of_chain _ _ _ hdb m _ _ _ _ hchain s₀ (preamble q)
    (by rw [hs₀]; rfl) hqname (by rw [hs₀]; rfl) (by rw [hs₀]; rfl) (by rw [hs₀]; rfl)
  have hlen : (preamble q ++ records now es).length = (message q now (rcode b) es).length := by
    simp [preamble, message]; omega
  have hnum : s.numAnswers = UInt16.ofNat es.length := by
    rw [hadds.numAnswers, hs₀, searchStart, UInt16.zero_add]
  have hresp := hadds.response
  have hidx := hadds.index
  rw [hlen] at hresp hidx
  rw [hs₀, search_returns_iff] at hret
  rw [getResponse_preamble, hret]
  simp only [hresp, hidx, hnum, hadds.found]
  rw [← patch_message q now b es (m.drop (message q now (rcode b) es).length)]

theorem chain_of_getResponse {db : CacheDb} {now : Int} (hdb : ∀ e ∈ db.entries, e.WellFormed)
    {q : Query} {m : Bytes} {r : Bytes × Nat} (h : getResponse db now q.bytes m = some r) :
    ∃ es b, Chain db now q.qtype 0 q.name es b := by
  rw [getResponse_preamble] at h
  split at h
  · cases h
  · next s hrun =>
    have hq : cstr (searchStart (nameBlock q.name.text) (preamble q ++ m.drop (preamble q).length)
        (preamble q).length).qname = q.name.text := cstr_nameBlock q.name.text_noNul
    exact chain_of_returns hdb hq ⟨_, hrun⟩

end InternetLabs.Dns.Server
