/-
# `InternetLabs.Dns.Address` — the resolver on the server's answers

The server writes the owner of each record in full, and the resolver takes the name of a
record that does not begin with a compression pointer to be eleven bytes on.  It reads the
record all the same if the owner, from its twelfth byte on, is labels and a byte that makes
a pointer of the closing zero: the pointer leads to the message's ID, the ID has to be one
in turn, and what it leads to has to complete the owner (`Respells`).

An answer whose owners are all of this kind is understood (`runs_of_chain`), and one of a
single record only then: its name can end nowhere else, or the type or the data's length
behind it would be wrong (`fields_start`).  With more records the resolver may also pass over
one it has misread and come back into step by luck.  It never understands an answer with
nothing like a pointer between the first record's twelfth byte and the next zero byte.
-/
import InternetLabs.Dns.Rounds
import InternetLabs.Dns.Sound
import InternetLabs.Dns.Codec

namespace InternetLabs.Dns.Resolver

open InternetLabs InternetLabs.Dns
open InternetLabs.Dns.Server (CacheDb DnsDbEntry Chain message records AreStretches Rereads)

/-! ## Messages of the server

What the resolver sees of a message before it comes to the records: the header and the
question, which the two programs write alike. -/

section Message
variable {q : Query} {now : Int} {rcode : UInt16} {es : List (Name × DnsDbEntry)} {rest : Bytes}

/-- The first twelve bytes. -/
def header (q : Query) (rcode : UInt16) (es : List (Name × DnsDbEntry)) : Bytes :=
  headerBytes q.id (Server.replyFlags q.flags rcode) 1 (UInt16.ofNat es.length) 0 0

theorem message_eq : message q now rcode es = header q rcode es ++ q.question
    ++ records now es := rfl

theorem scanStart_message {qname : Bytes} (hlen : es.length < 2 ^ 16) :
    scanStart qname (message q now rcode es ++ rest)
      = some { qname := qname, offset := 12 + q.question.length, rrLeft := es.length } := by
  have hcount : (UInt16.ofNat es.length).toNat = es.length := by
    rw [UInt16.toNat_ofNat', Nat.mod_eq_of_lt hlen]
  have h := @scanStart_header qname (records now es ++ rest) q.id
    (Server.replyFlags q.flags rcode) 1 (UInt16.ofNat es.length) 0 0 q.name q.qtype q.qclass
    (message q now rcode es ++ rest) (by rw [message_eq, List.append_assoc]; rfl)
  rw [hcount] at h
  exact h

/-- The first bytes: the ID, and flags whose high byte is no compression pointer. -/
theorem message_first : ∃ c : UInt8, c.toNat < compressedVal ∧
    (message q now 0 es ++ rest)[0]? = some (q.id >>> 8).toUInt8 ∧
    (message q now 0 es ++ rest)[1]? = some q.id.toUInt8 ∧
    (message q now 0 es ++ rest)[2]? = some c ∧ (message q now 0 es ++ rest)[3]? = some 0 := by
  obtain ⟨c, hc, hflags⟩ : ∃ c : UInt8, c.toNat < compressedVal ∧
      be16 (Server.replyFlags q.flags 0) = [c, 0] := by
    rcases Server.and_0x0100 q.flags with hf | hf
    · exact ⟨0x80, by decide, by rw [Server.replyFlags, hf]; decide⟩
    · exact ⟨0x81, by decide, by rw [Server.replyFlags, hf]; decide⟩
  refine ⟨c, hc, ?_⟩
  simp only [message, hflags]
  simp [be16]

end Message

/-! ## Owners that spell themselves

Eleven bytes too far into an owner the decoder begins in the middle of it.  It ends with
the owner all the same if what it takes for lengths lead it to a byte that makes a
pointer of the closing zero, and if the offset in that pointer has the owner once more. -/

/-- From its twelfth byte on the wire form of `n` is stretches and a byte that makes a
pointer of the closing zero.  The ID it leads to makes a pointer in turn, and the stretches
with the name at that offset behind them spell `n`. -/
def Respells (id : UInt16) (wire : Bytes) (n : Name) : Prop :=
  ∃ (ss : List Bytes) (b : UInt8) (t : Bytes) (k : Nat), AreStretches ss ∧
    n.wire.drop 11 = ss.flatMap labelBytes ++ [b, 0] ∧ compressedVal ≤ b.toNat ∧
    compressedVal ≤ (id >>> 8).toUInt8.toNat ∧ NameAt wire id.toUInt8.toNat t k ∧
    (leadText ss ++ t).length ≤ bufferMax ∧ n.text.length < bufferMax ∧
    cstr (leadText ss ++ t) = n.text

theorem length_cstr_le_of_zero {m : Bytes} {i : Nat} (h : m[i]? = some 0) :
    (cstr m).length ≤ i := by
  by_contra hlt
  obtain ⟨b, hb, hne⟩ := getElem?_of_lt_cstr (Nat.lt_of_not_le hlt)
  exact hne (Option.some.inj (hb.symm.trans h))

theorem length_cstr_append_le (a b : Bytes) :
    (cstr (a ++ b)).length ≤ a.length + (cstr b).length := by
  by_cases h : (0 : UInt8) ∈ a
  · rw [cstr_append_of_mem h]
    exact (length_cstr_le a).trans (Nat.le_add_right _ _)
  · rw [cstr_append h, List.length_append]

/-- A label that covers an offset has the byte there in its text. -/
theorem getElem?_label {wire rest : Bytes} {p len i : Nat} (hi : i < len)
    (hlen : p + len ≤ wire.length) :
    ((wire.drop p).take len ++ rest)[i]? = wire[p + i]? := by
  rw [List.getElem?_append_left (by rw [List.length_take, List.length_drop]; omega),
    List.getElem?_take_of_lt hi, List.getElem?_drop]

/-- A name that begins with a label, and soon comes to a zero byte, is short. -/
theorem length_le_two_of_nameAt {wire t : Bytes} {p k : Nat} {b c : UInt8} (h : NameAt wire p t k)
    (hb : wire[p]? = some b) (hlow : b.toNat < compressedVal) (hc : wire[p + 2]? = some c)
    (hclow : c.toNat < compressedVal) (hzero : wire[p + 3]? = some 0) : (cstr t).length ≤ 2 := by
  cases h with
  | stop _ => simp
  | pointer hlen hle _ _ =>
      obtain rfl := Option.some.inj (hb.symm.trans hlen)
      omega
  | @label _ k len next t hlen h0 _ hnext hrest =>
      have hroom : p + 1 + len.toNat < wire.length := (List.getElem?_eq_some_iff.mp hnext).1
      rw [List.append_assoc]
      obtain h3 | h2 | h1 : 3 ≤ len.toNat ∨ len.toNat = 2 ∨ len.toNat = 1 := by omega
      · refine length_cstr_le_of_zero ?_
        rw [getElem?_label (by omega) (by omega)]
        exact hzero
      · -- the zero byte ends the name
        rw [h2] at hnext hrest ⊢
        obtain rfl := Option.some.inj (hnext.symm.trans hzero)
        rw [hrest.eq_nil_of_zero hzero, if_neg (by decide), List.append_nil, List.append_nil]
        exact (length_cstr_le _).trans (List.length_take_le _ _)
      · rw [h1] at hnext hrest ⊢
        obtain rfl := Option.some.inj (hnext.symm.trans hc)
        refine (length_cstr_append_le _ _).trans ?_
        have hone : ((wire.drop (p + 1)).take 1).length ≤ 1 := List.length_take_le _ _
        have htail : (cstr ((if next.toNat ≠ 0 then [dot] else []) ++ t)).length ≤ 1 := by
          cases hrest with
          | stop hstop =>
              obtain rfl := Option.some.inj (hc.symm.trans hstop)
              simp
          | pointer hlen' hle _ _ =>
              obtain rfl := Option.some.inj (hc.symm.trans hlen')
              omega
          | @label _ k' len' next' t' hlen' h0' _ hnext' _ =>
              obtain rfl := Option.some.inj (hc.symm.trans hlen')
              have hroom' := (List.getElem?_eq_some_iff.mp hnext').1
              rw [if_pos h0']
              refine length_cstr_le_of_zero ?_
              rw [List.singleton_append, List.getElem?_cons_succ, List.append_assoc,
                getElem?_label (by omega) (by omega)]
              exact hzero
        omega

theorem length_leadText (ss : List Bytes) : (leadText ss).length
    = (ss.flatMap labelBytes).length := by
  induction ss with
  | nil => rfl
  | cons s ss ih =>
      simp only [leadText_cons, List.flatMap_cons, labelBytes, List.length_append,
        List.length_cons, ih]
      omega

/-- **At the start of a message of the server** only an ID that makes a pointer has room for
what is missing of an owner. -/
theorem rereads_message_iff {q : Query} {now : Int} {es : List (Name × DnsDbEntry)} {rest : Bytes}
    (n : Name) : Rereads n (message q now 0 es ++ rest) ↔
    Respells q.id (message q now 0 es ++ rest) n := by
  obtain ⟨wire, hwire⟩ : ∃ wire, wire = message q now 0 es ++ rest := ⟨_, rfl⟩
  obtain ⟨c, hclow, h0, h1, h2, h3⟩ := @message_first q now es rest
  rw [← hwire] at h0 h1 h2 h3 ⊢
  constructor
  · rintro ⟨ss, b, t, k, hss, hown, hb, hto, hfits, hshort, hspell⟩
    by_cases hid : compressedVal ≤ (q.id >>> 8).toUInt8.toNat
    · cases hto with
      | stop hstop =>
          rw [Option.some.inj (h0.symm.trans hstop)] at hid
          exact absurd hid (by decide)
      | label hlen _ hlow _ _ =>
          rw [Option.some.inj (h0.symm.trans hlen)] at hid
          omega
      | pointer hlen _ hoff hto =>
          obtain rfl := Option.some.inj (h1.symm.trans hoff)
          exact ⟨ss, b, t, _, hss, hown, hb, hid, hto, hfits, hshort, hspell⟩
    · -- eleven bytes are missing, and the header has two at most
      exfalso
      have htwo := length_le_two_of_nameAt hto h0 (Nat.lt_of_not_le hid) h2 hclow h3
      have hlen := congrArg List.length hown
      rw [List.length_drop, List.length_append, List.length_cons, List.length_singleton] at hlen
      have hne : n.labels ≠ [] := by
        intro hroot
        rw [Name.wire, hroot] at hlen
        exact absurd hlen (by simp)
      have htext : n.wire.length = n.text.length + 2 := length_labelsWire hne
      have hle := length_cstr_append_le (leadText ss) t
      rw [hspell, length_leadText] at hle
      omega
  · rintro ⟨ss, b, t, k, hss, hown, hb, hid, hto, hfits, hshort, hspell⟩
    exact ⟨ss, b, t, 2, hss, hown, hb, .pointer h0 hid h1 hto, hfits, hshort, hspell⟩

/-! ## Answers that are understood

Where every owner is read back as itself, the loop follows the records as they were
written. -/

/-- **An answer whose owners spell themselves** leads the resolver to the data of its last
record. -/
theorem runs_of_chain {db : CacheDb} {now : Int} (hdb : ∀ e ∈ db.entries, e.WellFormed)
    (hcanon : ∀ e ∈ db.entries, ∀ t, e.rr.type = cname → e.PointsTo t → Canonical t)
    {stack wire : Bytes} (hstack : stack.length = 4) {k : Nat} {n : Name}
    {es : List (Name × DnsDbEntry)} (h : Chain db now typeA k n es true) {pre post : Bytes}
    (hwire : wire = pre ++ records now es ++ post) (hre : ∀ p ∈ es, Rereads p.1 wire) :
    ∃ p, es.getLast? = some p ∧
      Runs stack wire ⟨n.text, pre.length, es.length⟩ (.found (p.2.rr.rdata.take 4)) := by
  generalize hb : true = b at h
  induction h generalizing pre with
  | miss _ => cases hb
  | @hit k n e h ht =>
      have he := hdb e (Server.CacheDb.firstAnswer_mem h)
      have hblock := he.block
      rw [Server.records_cons, Server.records_nil, List.append_nil] at hwire
      have hre := hre _ List.mem_cons_self
      rw [hwire] at hre
      obtain ⟨name, ttl, ⟨hlen, hnul, hname⟩, -, hread⟩ := @Server.readRr_of_rereads
        (e.answer now) n pre post id hblock hre
      have hrec := rrFromWire_eq wire pre.length
      rw [hwire, rrNameStart_wire, recordAt, hread, ← hwire] at hrec
      refine ⟨(n, e), rfl, ?_⟩
      refine (runs_address_iff (s := ⟨n.text, pre.length, 1⟩)
        (k := 0) rfl hrec (hname.trans n.cstr_text.symm) ht).mpr ⟨⟨hlen, hnul⟩, ?_⟩
      have hfour : (e.answer now).rdataLen.toNat = 4 := congrArg UInt16.toNat (he.addr ht)
      have hdata : 4 ≤ e.rr.rdata.length := hfour ▸ hblock
      have htake : (e.rr.rdata.take 4).length = 4 := by rw [List.length_take]; omega
      have hcopy : ((e.answer now).rdata.take 4 ++ post).take 4 = e.rr.rdata.take 4 :=
        List.take_left' htake
      refine ⟨hfour.le, ?_, ?_⟩
      · rw [hfour, List.length_append]
        exact htake.ge.trans (Nat.le_add_right _ _)
      · rw [hfour, hcopy, writeAt_zero, htake, ← hstack, List.drop_length, List.append_nil]
  | @follow k n t e es b h ht hpt hrest ih =>
      have he := hdb e (Server.CacheDb.firstAnswer_mem h)
      have hc :=
        (DnsDbEntry.answers_iff.mp (Server.CacheDb.firstAnswer_answers h)).2.resolve_left ht
      have htgt := hcanon e (Server.CacheDb.firstAnswer_mem h) t hc hpt
      have hnext : wire = (pre ++ (e.answer now).wire n) ++ records now es ++ post := by
        rw [hwire, Server.records_cons]
        simp only [List.append_assoc]
      have hsplit : wire = pre ++ (e.answer now).wire n ++ (records now es ++ post) := by
        rw [hnext, List.append_assoc]
      have hfirst := hre _ List.mem_cons_self
      rw [hsplit] at hfirst
      obtain ⟨name, ttl, ⟨hlen, hnul, hname⟩, -, hread⟩ := @Server.readRr_of_rereads
        (e.answer now) n pre (records now es ++ post) id he.block hfirst
      have hrec := rrFromWire_eq wire pre.length
      rw [hsplit, rrNameStart_wire, recordAt, hread, ← hsplit] at hrec
      obtain ⟨p, hp, hrun⟩ := ih hnext (fun p hp => hre p (List.mem_cons_of_mem _ hp)) hb
      -- the next record is the target's, so the target fits its block
      have hshort : t.text.length < bufferMax := by
        cases es with
        | nil => cases hp
        | cons p' es =>
            obtain rfl := hrest.head _ rfl
            obtain ⟨-, -, -, -, -, -, -, -, -, hshort, -⟩ :=
              hre p' (List.mem_cons_of_mem _ List.mem_cons_self)
            exact hshort
      have halias : AliasAs wire (pre.length + ((e.answer now).wire n).length
          - (e.answer now).rdataLen.toNat) t.text := by
        have htake : e.rr.rdata.take e.rr.rdataLen.toNat = t.wire := by
          rw [hpt.1]
          exact (List.prefix_iff_eq_take.mp hpt.2).symm
        obtain ⟨front, hfront⟩ : ∃ front, front = pre ++ (n.wire ++ be16 e.rr.type ++ be16 e.rr.cls
            ++ be32 (e.answer now).ttl ++ be16 e.rr.rdataLen) := ⟨_, rfl⟩
        have hrecord : pre ++ (e.answer now).wire n = front ++ t.wire := by
          rw [hfront, ← htake]
          simp only [DnsRr.wire, DnsDbEntry.answer, List.append_assoc]
        have hoff : pre.length + ((e.answer now).wire n).length - (e.answer now).rdataLen.toNat
            = front.length := by
          have hsum := congrArg List.length hrecord
          have hdata : (e.answer now).rdataLen.toNat = t.wire.length := hpt.1
          simp only [List.length_append] at hsum
          omega
        have hat := nameAt_labels t.ok front (records now es ++ post)
        rw [← Name.wire, ← hrecord, ← hsplit, ← hoff] at hat
        refine ⟨t.text, ⟨⟨_, hat⟩, Nat.le_of_lt hshort, ?_⟩, t.cstr_text.symm ▸ htgt.text⟩
        rwa [t.cstr_text]
      refine ⟨p, ?_, ?_⟩
      · cases es with
        | nil => cases hp
        | cons p' es => rw [List.getLast?_cons_cons]; exact hp
      · refine (runs_follow_iff (s := ⟨n.text, pre.length, es.length + 1⟩) (k := es.length) rfl hrec
          (hname.trans n.cstr_text.symm) hc).mpr ⟨⟨hlen, hnul⟩, t.text, halias, ?_⟩
        rw [← List.length_append]
        exact hrun

/-! ## An answer of one record

The other direction for one record: the four bytes returned can only be its data, since
only at the beginning of its fields they read as a record of type A. -/

/-- What follows the owner in a record. -/
def DnsRr.fields (rr : DnsRr) : Bytes :=
  be16 rr.type ++ be16 rr.cls ++ be32 rr.ttl ++ be16 rr.rdataLen ++ rr.rdata.take rr.rdataLen.toNat

theorem wire_eq_fields (n : Name) (rr : DnsRr) : rr.wire n = n.wire ++ DnsRr.fields rr := by
  simp only [DnsRr.wire, DnsRr.fields, List.append_assoc]

theorem fields_type (rr : DnsRr) (post : Bytes) :
    (DnsRr.fields rr ++ post)[0]? = some (rr.type >>> 8).toUInt8 := by
  simp [DnsRr.fields, be16]

theorem fields_rdataLen (rr : DnsRr) (post : Bytes) :
    (DnsRr.fields rr ++ post)[8]? = some (rr.rdataLen >>> 8).toUInt8 := by
  simp [DnsRr.fields, be16, be32]

theorem highByte_eq_zero {x : UInt16} (h : x.toNat < 256) : (x >>> 8).toUInt8 = 0 := by
  apply UInt8.toNat_inj.mp
  rw [UInt16.toNat_toUInt8, UInt16.toNat_shiftRight]
  have hdiv : x.toNat / 2 ^ 8 = 0 := Nat.div_eq_of_lt (by omega)
  simp only [UInt16.reduceToNat, Nat.shiftRight_eq_div_pow, Nat.reduceMod, hdiv]
  rfl

/-- Only an alias has so much data, and the data begins with a label. -/
theorem long_data {e : DnsDbEntry} (he : e.WellFormed) (ht : e.rr.type = typeA ∨ e.rr.type = cname)
    (hlong : 256 ≤ e.rr.rdataLen.toNat) (post : Bytes) :
    ∃ b : UInt8, (DnsRr.fields (e.answer now) ++ post)[10]? = some b ∧ b ≠ 0 := by
  rcases ht with ht | ht
  · rw [he.addr ht] at hlong
    exact absurd hlong (by decide)
  · obtain ⟨t, hpt⟩ := he.target ht
    have hne : t.labels ≠ [] := by
      intro h0
      have : t.wire.length = 1 := by rw [Name.wire, h0]; rfl
      rw [hpt.1, this] at hlong
      omega
    obtain ⟨b, rest, hb, hb0, -⟩ := Name.wire_first hne
    have hdata : e.rr.rdata.take e.rr.rdataLen.toNat = b :: rest := by
      rw [hpt.1, ← hb]; exact (List.prefix_iff_eq_take.mp hpt.2).symm
    exact ⟨b, by simp [DnsRr.fields, DnsDbEntry.answer, be16, be32, hdata], hb0⟩

/-- Only one place in the fields of an address record reads as type A, with data of four bytes
that are the address: their beginning. -/
theorem fields_start {c₁ c₂ t₁ t₂ t₃ t₄ a₁ a₂ a₃ a₄ : UInt8} {zeros fields : Bytes}
    (hzeros : ∀ b ∈ zeros, b = 0)
    (hfields : fields = [0, 1, c₁, c₂, t₁, t₂, t₃, t₄, 0, 4, a₁, a₂, a₃, a₄] ++ zeros) {d : Nat}
    (h0 : fields[d]? = some 0) (h1 : fields[d + 1]? = some 1) (h8 : fields[d + 8]? = some 0)
    (h9 : fields[d + 9]? = some 4) (haddr : (fields.drop (d + 10)).take 4 = [a₁, a₂, a₃, a₄]) :
    d = 0 := by
  have hfour : (4 : UInt8) ∉ zeros := fun h => absurd (hzeros 4 h) (by decide)
  have htail : ∀ {l : Bytes} {m : Nat}, zeros.take m = l → (4 : UInt8) ∉ l := fun h hmem =>
    hfour (List.mem_of_mem_take (h ▸ hmem))
  have hd : d < 5 := by
    by_contra hlarge
    rw [hfields, List.getElem?_append_right (by simp; omega)] at h9
    exact hfour (List.mem_of_getElem? h9)
  subst hfields
  interval_cases d
  · rfl
  · simp at h0
  · -- type in the class, length and data in the address
    simp at h8 h9 haddr
    obtain ⟨-, h4, hrest⟩ := haddr
    exact (htail hrest (by simp [h4, h9])).elim
  · simp at h9 haddr
    exact (htail haddr.2 (by simp [h9])).elim
  · simp at h9 haddr
    exact (htail haddr (by simp [h9])).elim

theorem zero_wire {n : Name} {i : Nat} (h : n.wire[i]? = some 0) : i + 1 = n.wire.length := by
  have hnul : (0 : UInt8) ∉ n.labels.flatMap labelBytes := by
    intro hmem
    obtain ⟨l, hl, hzero⟩ := List.mem_flatMap.mp hmem
    have hok := n.ok l hl
    rcases List.mem_cons.mp hzero with hlen | hnul
    · have hpos := hok.pos
      rw [← hok.toNat_length, ← hlen] at hpos
      exact absurd hpos (by decide)
    · exact hok.noNul hnul
  rw [Name.wire, labelsWire] at h ⊢
  have hlt := (List.getElem?_eq_some_iff.mp h).1
  rw [List.length_append, List.length_singleton] at hlt ⊢
  by_contra hne
  rw [List.getElem?_append_left (by omega)] at h
  exact hnul (List.mem_of_getElem? h)

/-- The address is the data of the record, whatever the stack held. -/
theorem four_of_copied {rr : DnsRr} {addr : Bytes}
    (h : ∀ stack : Bytes, stack.length = 4 → Copied stack rr addr) :
    rr.rdataLen = 4 ∧ rr.rdata.take 4 = addr := by
  obtain ⟨hle, hdata, ha⟩ := h (List.replicate 4 0) rfl
  have ha' := (h (List.replicate 4 1) rfl).eq
  have hlen : (rr.rdata.take rr.rdataLen.toNat).length = rr.rdataLen.toNat := by
    rw [List.length_take]
    omega
  -- a shorter copy would leave some of the stack in the address
  have hfour : rr.rdataLen.toNat = 4 := by
    have htail := ha.symm.trans ha'
    rw [writeAt_zero, writeAt_zero, List.append_cancel_left_eq, hlen, List.drop_replicate,
      List.drop_replicate] at htail
    by_contra hne
    obtain ⟨j, hj⟩ : ∃ j, 4 - rr.rdataLen.toNat = j + 1 := ⟨3 - rr.rdataLen.toNat, by omega⟩
    rw [hj, List.replicate_succ, List.replicate_succ] at htail
    exact absurd (List.cons.inj htail).1 (by decide)
  refine ⟨UInt16.toNat_inj.mp hfour, ?_⟩
  rw [hfour] at hlen ha
  rw [ha, writeAt_zero, hlen, List.drop_replicate]
  simp

/-- What is found in one record is that record's address. -/
theorem Runs.address {stack wire q addr : Bytes} {off : Nat}
    (h : Runs stack wire ⟨q, off, 1⟩ (.found addr)) :
    ∃ rr next, rrFromWire wire off false = some (rr, next) ∧ cstr rr.name = cstr q ∧
      rr.type = typeA ∧ InBlock rr.name ∧ Copied stack rr addr := by
  obtain ⟨rr, next, hrec, hq⟩ := h.first
  have hnull : ∀ {q' : Bytes} {off' : Nat}, ¬ Runs stack wire ⟨q', off', 0⟩ (.found addr) :=
    fun hrun => by cases (runs_zero_iff rfl).mp hrun
  by_cases hA : rr.type = typeA
  · obtain ⟨hblock, hcopy⟩ := (runs_address_iff (k := 0) rfl hrec hq hA).mp h
    exact ⟨rr, next, hrec, hq, hA, hblock, hcopy⟩
  by_cases hC : rr.type = cname
  · obtain ⟨-, _, -, hrun⟩ := (runs_follow_iff (k := 0) rfl hrec hq hC).mp h
    exact (hnull hrun).elim
  · exact (hnull ((runs_pass_iff (k := 0) rfl hrec hq hA hC).mp h).2).elim

/-- **An answer of one record is understood only if its owner spells itself**: the name read
from the twelfth byte on has to end where the owner does. -/
theorem rereads_of_runs {now : Int} {wire pre zeros : Bytes} {n : Name} {e : DnsDbEntry}
    (he : e.WellFormed) (ht : e.rr.type = typeA) (hzeros : ∀ b ∈ zeros, b = 0)
    (hwire : wire = pre ++ (e.answer now).wire n ++ zeros)
    (h : ∀ stack : Bytes, stack.length = 4 →
      Runs stack wire ⟨n.text, pre.length, 1⟩ (.found (e.rr.rdata.take 4))) : Rereads n wire := by
  have hfour : e.rr.rdataLen.toNat = 4 := congrArg UInt16.toNat (he.addr ht)
  have haddr : (e.rr.rdata.take 4).length = 4 := by
    have hblock := he.block
    rw [List.length_take]
    omega
  obtain ⟨rr, next, hrec, hname, hA, ⟨hblock, hnul⟩, -⟩ := (h (List.replicate 4 0) rfl).address
  obtain ⟨hlen, hdata⟩ := four_of_copied fun stack hstack => by
    obtain ⟨rr', next', hrec', -, -, -, hcopy⟩ := (h stack hstack).address
    obtain ⟨rfl, -⟩ := Prod.mk.inj (Option.some.inj (hrec.symm.trans hrec'))
    exact hcopy
  rw [rrFromWire_eq, hwire, rrNameStart_wire, ← hwire] at hrec
  obtain ⟨j, hread, ⟨ty, hty, htype⟩, ⟨len, hlenread, hlen'⟩, hrdata, -⟩ := readRr_fields_of hrec
  obtain ⟨t, k, hat, heq⟩ := nameFromWire_iff.mp hread
  obtain ⟨hblockEq, rfl⟩ := Prod.mk.inj heq
  rw [hblockEq] at hblock hnul hname
  have hspell : cstr t = n.text := (cstr_nameBlock_eq t).symm.trans (hname.trans n.cstr_text)
  -- the bytes read behind the name
  obtain ⟨hb0, hb1⟩ := bytes_of_read16 hty
  obtain ⟨hb8, hb9⟩ := bytes_of_read16 hlenread
  rw [htype, hA] at hb0 hb1
  rw [hlen', hlen] at hb8 hb9
  rw [hrdata] at hdata
  -- and the bytes there are
  obtain ⟨a₁, a₂, a₃, a₄, ha⟩ : ∃ a₁ a₂ a₃ a₄ : UInt8, e.rr.rdata.take 4 = [a₁, a₂, a₃, a₄] :=
    List.length_eq_four.mp haddr
  obtain ⟨fields, hfields⟩ : ∃ fields, fields = DnsRr.fields (e.answer now) ++ zeros := ⟨_, rfl⟩
  have hbytes : wire = pre ++ n.wire ++ fields := by
    rw [hwire, wire_eq_fields, hfields]
    simp only [List.append_assoc]
  have hlist : ∃ c₁ c₂ t₁ t₂ t₃ t₄ : UInt8,
      fields = [0, 1, c₁, c₂, t₁, t₂, t₃, t₄, 0, 4, a₁, a₂, a₃, a₄] ++ zeros := by
    refine ⟨(e.rr.cls >>> 8).toUInt8, e.rr.cls.toUInt8, ((e.answer now).ttl >>> 24).toUInt8,
      ((e.answer now).ttl >>> 16).toUInt8, ((e.answer now).ttl >>> 8).toUInt8,
      (e.answer now).ttl.toUInt8, ?_⟩
    rw [hfields, DnsRr.fields, DnsDbEntry.answer]
    simp only [ht, he.addr ht]
    rw [show (4 : UInt16).toNat = 4 from rfl, ha]
    rfl
  have hat' : ∀ i, wire[(pre ++ n.wire).length + i]? = fields[i]? := fun i => by
    rw [hbytes, List.getElem?_append_right (Nat.le_add_right _ _), Nat.add_sub_cancel_left]
  obtain ⟨c₁, c₂, t₁, t₂, t₃, t₄, hlist⟩ := hlist
  have hend : pre.length + 11 + k = (pre ++ n.wire).length := by
    rcases Nat.lt_or_ge (pre.length + 11 + k) (pre ++ n.wire).length with hlt | hge
    · -- inside the owner the only zero byte is the last, and behind it is another
      exfalso
      obtain ⟨i, hi⟩ : ∃ i, pre.length + 11 + k = pre.length + i := ⟨11 + k, by omega⟩
      rw [List.length_append] at hlt
      have hzero : n.wire[i]? = some 0 := by
        rw [hbytes, List.append_assoc, hi, List.getElem?_append_right (Nat.le_add_right _ _),
          Nat.add_sub_cancel_left, List.getElem?_append_left (by omega)] at hb0
        exact hb0
      have hlast := zero_wire hzero
      rw [show pre.length + 11 + k + 1 = (pre ++ n.wire).length + 0 by
        rw [List.length_append]; omega, hat', hlist] at hb1
      cases hb1
    · obtain ⟨d, hd⟩ := Nat.exists_eq_add_of_le hge
      rw [hd] at hb0 hb1 hb8 hb9 hdata
      rw [hat'] at hb0
      rw [Nat.add_assoc, hat'] at hb1 hb8
      rw [Nat.add_assoc, Nat.add_assoc, hat'] at hb9
      have hdrop : wire.drop ((pre ++ n.wire).length + d + 10) = fields.drop (d + 10) := by
        rw [hbytes, Nat.add_assoc, ← List.drop_drop, List.drop_left]
      rw [hdrop, ha] at hdata
      rw [fields_start hzeros hlist hb0 hb1 hb8 hb9 hdata] at hd
      exact hd
  have hfits : t.length ≤ bufferMax := by
    rw [length_writeAt, List.length_replicate, Nat.zero_add] at hblock
    omega
  have hshort : n.text.length < bufferMax := by
    have hlt := length_cstr_lt_iff.mpr hnul
    rwa [hname, n.cstr_text, hblock] at hlt
  rw [List.length_append] at hend
  rw [hwire] at hat ⊢
  obtain ⟨ss, b, t', k', hss, hown, hb, hto, rfl⟩ := Server.owner_stretches hat (by omega)
    (hspell ▸ length_cstr_le t)
  exact ⟨ss, b, t', k', hss, hown, hb, hto, hfits, hshort, hspell⟩


/-! ## Answers with nothing like a pointer -/

/-- **What the resolver cannot find**, if no byte from the record's twelfth on to the next
zero byte looks like a pointer: the name it reads there has another length than the one it
looks for. -/
theorem not_runs_of_lowBytes {now : Int} {n : Name} (hn : n.labels ≠ []) {e : DnsDbEntry}
    (he : e.WellFormed) (ht : e.rr.type = typeA ∨ e.rr.type = cname)
    (pre post : Bytes)
    (hlow : LowBytes (pre ++ (e.answer now).wire n ++ post) (pre.length + 11))
    {stack addr : Bytes} {k : Nat} :
    ¬ Runs stack (pre ++ (e.answer now).wire n ++ post) ⟨n.text, pre.length, k⟩ (.found addr) := by
  intro hrun
  obtain ⟨rr, next, hrec, hname⟩ := hrun.first
  rw [rrFromWire_eq, rrNameStart_wire] at hrec
  obtain ⟨j, hread, -⟩ := readRr_fields_of hrec
  obtain ⟨t, k', hat, heq⟩ := nameFromWire_iff.mp hread
  rw [(Prod.mk.inj heq).1, n.cstr_text] at hname
  have htext : n.text = cstr t := hname.symm.trans (cstr_nameBlock_eq t)
  -- the record as bytes from the message's point of view
  obtain ⟨body, hbody⟩ : ∃ body, body = (e.answer now).wire n ++ post := ⟨_, rfl⟩
  have hwire : pre ++ (e.answer now).wire n ++ post = pre ++ body := by
    rw [hbody, List.append_assoc]
  have hbyte : ∀ i, (pre ++ body)[pre.length + i]? = body[i]? := fun i => by
    rw [List.getElem?_append_right (by omega), Nat.add_sub_cancel_left]
  have hfield : ∀ i, body[n.wire.length + i]? = (DnsRr.fields (e.answer now) ++ post)[i]? :=
      fun i => by
    rw [hbody, wire_eq_fields, List.append_assoc, List.getElem?_append_right (by omega),
      Nat.add_sub_cancel_left]
  have hlen : n.wire.length = n.text.length + 2 := length_labelsWire hn
  have hpos := Name.text_pos hn
  rw [hwire] at hat hlow
  rcases hat.length_cstr hlow with ⟨-, rfl⟩ | ⟨hne, hcstr⟩
  · rw [htext] at hpos
    cases hpos
  rw [← htext, show pre.length + 11 + 1 = pre.length + 12 from rfl, List.drop_length_add_append]
    at hcstr
  have hin : ∀ i, i < n.text.length → ∃ b, body[12 + i]? = some b ∧ b ≠ 0 := fun i hi => by
    have := getElem?_of_lt_cstr (m := body.drop 12) (i := i) (by omega)
    rwa [List.getElem?_drop] at this
  have hend : body[n.wire.length + 10]? = none ∨ body[n.wire.length + 10]? = some 0 := by
    have := getElem?_length_cstr (body.drop 12)
    rwa [← hcstr, List.getElem?_drop, show 12 + n.text.length = n.wire.length + 10 by omega] at this
  -- the high byte of the type is zero, so the owner has fewer than twelve bytes
  have htype : body[n.wire.length]? = some 0 := by
    have h0 := hfield 0
    rw [Nat.add_zero, fields_type] at h0
    rw [h0]
    show some (e.rr.type >>> 8).toUInt8 = some 0
    rcases ht with ht | ht <;> rw [ht] <;> decide
  have hshort : n.wire.length < 12 := by
    by_contra hlong
    obtain ⟨b, hb, hb0⟩ := hin (n.wire.length - 12) (by omega)
    rw [show 12 + (n.wire.length - 12) = n.wire.length by omega, htype] at hb
    exact hb0 (Option.some.inj hb).symm
  -- so the data's length is at least 256, and the data that of an alias
  have hrlen : body[n.wire.length + 8]? ≠ some 0 := by
    intro h0
    by_cases h3 : n.wire.length = 3
    · rw [h3] at h0
      exact hne ((hbyte 11).trans h0)
    · obtain ⟨b, hb, hb0⟩ := hin (n.wire.length - 4) (by omega)
      rw [show 12 + (n.wire.length - 4) = n.wire.length + 8 by omega, h0] at hb
      exact hb0 (Option.some.inj hb).symm
  rw [hfield] at hrlen hend
  have hbig : 256 ≤ e.rr.rdataLen.toNat := by
    by_contra hsmall
    refine hrlen ?_
    rw [fields_rdataLen]
    exact congrArg some (highByte_eq_zero (Nat.lt_of_not_le hsmall))
  obtain ⟨b, hb, hb0⟩ := @long_data now e he ht hbig post
  rw [hb] at hend
  rcases hend with hend | hend
  · cases hend
  · exact hb0 (Option.some.inj hend)


/-! ## The answer

Both directions together, for the message that the server builds from a table. -/

/-- `get_answer_address` returns `addr`, whatever it finds on the stack, and no name leaves
its block. -/
def Understands (q : Query) (wire addr : Bytes) : Prop :=
  ∀ stack : Bytes, stack.length = 4 → Answers stack q.name.text wire (.found addr)

theorem found_of_rcode {q : Query} {now : Int} {b : Bool} {es : List (Name × DnsDbEntry)}
    {rest : Bytes}
    (h : Server.field16 (message q now (Server.rcode b) es ++ rest) 2 &&& 0xf = 0) : b = true := by
  have hfield := field16_be16 (be16 q.id)
    (be16 1 ++ be16 (UInt16.ofNat es.length) ++ be16 0 ++ be16 0
      ++ q.question ++ records now es ++ rest) (Server.replyFlags q.flags (Server.rcode b))
  have hmsg : be16 q.id ++ be16 (Server.replyFlags q.flags (Server.rcode b)) ++ (be16 1
      ++ be16 (UInt16.ofNat es.length) ++ be16 0 ++ be16 0 ++ q.question ++ records now es ++ rest)
      = message q now (Server.rcode b) es ++ rest := by
    simp [message, List.append_assoc]
  rw [hmsg, length_be16] at hfield
  rw [hfield] at h
  cases b with
  | true => rfl
  | false =>
      exfalso
      revert h
      rcases Server.and_0x0100 q.flags with hf | hf <;>
        rw [Server.replyFlags, hf, Server.rcode] <;> decide

/-- The buffer the server answers the query for `example.com` in. -/
def exampleAnswer : Bytes :=
  message Server.exampleQuery 0 0 [(Server.exampleCom, Server.loadEntry 0 [0] Server.exampleLine)]
    ++ List.replicate 968 0

theorem getResponse_exampleAnswer :
    Server.getResponse Server.cnameDb 0 Server.exampleQuery.bytes (List.replicate bufferMax 0)
      = some (exampleAnswer, 56) := by
  have hchain : Chain Server.cnameDb 0 Server.exampleQuery.qtype 0 Server.exampleQuery.name
      [(Server.exampleCom, Server.loadEntry 0 [0] Server.exampleLine)] true :=
    .hit (by decide) (by decide)
  rw [Server.getResponse_of_chain Server.cnameDb_wellFormed hchain]
  decide +kernel

/-- **When the resolver understands the server.**  The answers `es` are understood if the
owner of each spells itself; one answer, with nothing behind the message, only then.  They
are never understood if no byte from the first record's twelfth on to the next zero byte
looks like a compression pointer. -/
theorem understands_server_iff {db : CacheDb} {now : Int} (hdb : ∀ e ∈ db.entries, e.WellFormed)
    (hcanon : ∀ e ∈ db.entries, ∀ t, e.rr.type = cname → e.PointsTo t → Canonical t)
    {q : Query} (hq : q.qtype = typeA) (hname : Canonical q.name) {m out : Bytes} {len : Nat}
    (h : Server.getResponse db now q.bytes m = some (out, len))
    (hrcode : Server.field16 out 2 &&& 0xf = 0) (hroom : len ≤ bufferMax) :
    ∃ es p, Server.SoundAnswer db now q es true ∧ es.getLast? = some p ∧
      out = message q now 0 es ++ m.drop len ∧
      ((∀ p' ∈ es, Respells q.id out p'.1) → Understands q out (p.2.rr.rdata.take 4)) ∧
      (es.length = 1 → (∀ b ∈ m.drop len, b = 0) →
        (Understands q out (p.2.rr.rdata.take 4) ↔ Respells q.id out q.name)) ∧
      (LowBytes out (12 + q.question.length + 11) → ¬ Understands q out (p.2.rr.rdata.take 4)) := by
  obtain ⟨es, b, hchain⟩ := Server.chain_of_getResponse hdb h
  rw [Server.getResponse_of_chain hdb hchain] at h
  obtain ⟨hout, hlen⟩ := Prod.mk.inj (Option.some.inj h)
  rw [hlen] at hout
  rw [← hout] at hrcode
  obtain rfl := found_of_rcode hrcode
  have hmsg : message q now 0 es ++ m.drop len = out := hout
  have hsound := hchain.sound hdb
  have hes := Server.length_lt_of_message (hlen.trans_le hroom)
  have hunderstood : ∀ addr, Understands q out addr ↔ ∀ stack : Bytes, stack.length = 4 →
      Runs stack out ⟨q.name.text, 12 + q.question.length, es.length⟩ (.found addr) :=
          fun addr => by
    rw [← hmsg]
    exact forall₂_congr fun _ _ => answers_iff_runs (scanStart_message hes)
  have hrespells : ∀ n, Rereads n out ↔ Respells q.id out n := fun n => by
    rw [← hmsg]
    exact rereads_message_iff n
  have hwire : out = (header q 0 es ++ q.question) ++ records now es ++ m.drop len := hmsg.symm
  have hoff : (header q 0 es ++ q.question).length = 12 + q.question.length := by
    rw [List.length_append]
    rfl
  rw [hq] at hchain
  obtain ⟨p, hp⟩ : ∃ p, es.getLast? = some p := by
    cases hchain with
    | hit _ _ => exact ⟨_, rfl⟩
    | follow _ _ _ _ => exact ⟨_, List.getLast?_eq_getLast_of_ne_nil (List.cons_ne_nil _ _)⟩
  refine ⟨es, p, hsound, hp, hout.symm, fun hre => ?_, fun hone hzeros => ?_, fun hlow hund => ?_⟩
  · refine (hunderstood _).mpr fun stack hstack => ?_
    obtain ⟨p', hp', hrun⟩ := runs_of_chain hdb hcanon hstack hchain hwire
      fun x hx => (hrespells _).mpr (hre x hx)
    obtain rfl := Option.some.inj (hp.symm.trans hp')
    rwa [hoff] at hrun
  · rw [← hrespells]
    constructor
    · intro hund
      cases hchain with
      | follow _ _ _ hrest =>
          obtain rfl := List.eq_nil_of_length_eq_zero (Nat.succ.inj hone)
          cases hrest
      | @hit _ _ e hfirst ht =>
          obtain rfl := Option.some.inj hp
          have he := hdb e (Server.CacheDb.firstAnswer_mem hfirst)
          have hrec : out = (header q 0 [(q.name, e)] ++ q.question) ++ (e.answer now).wire q.name
              ++ m.drop len := by
            rw [hwire, Server.records_cons, Server.records_nil, List.append_nil]
          refine rereads_of_runs he ht hzeros hrec fun stack hstack => ?_
          rw [hoff]
          exact (hunderstood _).mp hund stack hstack
    · intro hre
      refine (hunderstood _).mpr fun stack hstack => ?_
      obtain ⟨p', hp', hrun⟩ := runs_of_chain hdb hcanon hstack hchain hwire fun x hx => by
        obtain ⟨y, hy⟩ := List.length_eq_one_iff.mp hone
        rw [hy, List.mem_singleton] at hx
        rw [hx, hsound.first y (by rw [hy]; rfl)]
        exact hre
      obtain rfl := Option.some.inj (hp.symm.trans hp')
      rwa [hoff] at hrun
  · have hrun := (hunderstood _).mp hund (List.replicate 4 0) rfl
    cases es with
    | nil => cases hp
    | cons p' es =>
        obtain ⟨n, e⟩ := p'
        have hfirst : n = q.name := hsound.first _ rfl
        have he := hsound.wellFormed _ List.mem_cons_self
        have htype := (DnsDbEntry.answers_iff.mp (hchain.answers _ List.mem_cons_self).2).2
        have hrec : out = (header q 0 ((n, e) :: es) ++ q.question) ++ (e.answer now).wire n
            ++ (records now es ++ m.drop len) := by
          rw [hwire, Server.records_cons]
          simp only [List.append_assoc]
        subst hfirst
        rw [← hoff, hrec] at hrun hlow
        exact not_runs_of_lowBytes hname.labels he htype _ _ hlow hrun

/-! ### An answer that is understood -/

/-- A name of eleven bytes whose last one makes a pointer of the zero behind it. -/
def spelledName : Name := ⟨[ascii "example", [99, 111, 0xC3]], by decide⟩

def spelledLine : Server.DbLine :=
  { host := spelledName.text, t := 30, cls := ascii "IN", type := ascii "A",
    data := ascii "192.0.2.1" }

def spelledDb : CacheDb := Server.loadDb 0 [spelledLine] (by decide)

/-- The query whose ID makes a pointer to the question. -/
def spelledQuery : Query := { Query.plain spelledName typeA with id := 0xC00C }

/-- The buffer it is answered in. -/
def spelledAnswer : Bytes :=
  message spelledQuery 0 0 [(spelledName, Server.loadEntry 0 [0] spelledLine)]
    ++ List.replicate 968 0

theorem spelledDb_wellFormed : ∀ e ∈ spelledDb.entries, e.WellFormed := by
  intro e he
  rw [List.mem_singleton.mp he]
  exact {
    owner := ⟨spelledName, by decide⟩
    target := fun h => absurd h (by decide)
    addr := fun _ => by decide
    block := by decide }

theorem getResponse_spelledAnswer :
    Server.getResponse spelledDb 0 spelledQuery.bytes (List.replicate bufferMax 0)
      = some (spelledAnswer, 56) := by
  have hchain : Chain spelledDb 0 spelledQuery.qtype 0 spelledQuery.name
      [(spelledName, Server.loadEntry 0 [0] spelledLine)] true :=
    .hit (by decide) (by decide)
  rw [Server.getResponse_of_chain spelledDb_wellFormed hchain]
  decide +kernel

theorem spelledName_respells : Respells spelledQuery.id spelledAnswer spelledName := by
  refine ⟨[], 0xC3, spelledName.text, spelledName.wire.length,
    fun s hs => absurd hs List.not_mem_nil,
    by decide, by decide, by decide, ?_, by decide, by decide, by decide⟩
  have hat := nameAt_labels spelledName.ok
    (header spelledQuery 0 [(spelledName, Server.loadEntry 0 [0] spelledLine)])
    (be16 typeA ++ be16 1 ++ records 0 [(spelledName, Server.loadEntry 0 [0] spelledLine)]
      ++ List.replicate 968 0)
  have hwire : spelledAnswer
    = header spelledQuery 0 [(spelledName, Server.loadEntry 0 [0] spelledLine)]
      ++ labelsWire spelledName.labels ++ (be16 typeA ++ be16 1
        ++ records 0 [(spelledName, Server.loadEntry 0 [0] spelledLine)]
            ++ List.replicate 968 0) := by
    rw [spelledAnswer, message_eq, Query.question]
    simp only [List.append_assoc]
    rfl
  rw [← hwire] at hat
  exact hat

theorem spelledAnswer_understood : Understands spelledQuery spelledAnswer [192, 0, 2, 1] := by
  obtain ⟨es, p, hsound, hp, -, hunderstood, -⟩ := understands_server_iff spelledDb_wellFormed
    (fun e he t ht => by rw [List.mem_singleton.mp he] at ht; exact absurd ht (by decide)) rfl
    ⟨by decide, by decide⟩ getResponse_spelledAnswer (by decide) (by decide)
  have howner : ∀ p' ∈ es, p'.1 = spelledName := fun p' hp' => by
    have hentry := List.mem_singleton.mp (hsound.mem p' hp')
    refine Name.text_injective ?_
    rw [← hsound.owner p' hp', hentry]
    decide
  have haddr : p.2.rr.rdata.take 4 = [192, 0, 2, 1] := by
    rw [List.mem_singleton.mp (hsound.mem p (List.mem_of_getLast? hp))]
    decide
  rw [← haddr]
  exact hunderstood fun p' hp' => howner p' hp' ▸ spelledName_respells


/-- The server answers `example.com` with its address, and the resolver returns
`NULL`. -/
theorem exampleAnswer_null :
    Server.getResponse Server.cnameDb 0 Server.exampleQuery.bytes (List.replicate bufferMax 0)
        = some (exampleAnswer, 56) ∧
      Server.field16 exampleAnswer 2 &&& 0xf = 0 ∧
      (Server.loadEntry 0 [0] Server.exampleLine).rr.rdata = [192, 0, 2, 1] ∧
      getAnswerAddress [0, 0, 0, 0] Server.exampleCom.text typeA exampleAnswer = some .null ∧
      ¬ Understands Server.exampleQuery exampleAnswer [192, 0, 2, 1] := by
  have hnull : getAnswerAddress [0, 0, 0, 0] Server.exampleCom.text typeA exampleAnswer
      = some .null := by decide +kernel
  refine ⟨getResponse_exampleAnswer, by decide, by decide, hnull, fun h => ?_⟩
  have hfound := (h [0, 0, 0, 0] rfl).1
  rw [show Server.exampleQuery.name = Server.exampleCom from rfl, hnull] at hfound
  cases hfound

end InternetLabs.Dns.Resolver
