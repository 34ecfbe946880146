/-
# `InternetLabs.Dns.Fit` — whether a response fits

`get_response` does not look at how long the buffer is.  What it writes is one stretch
from the start of the buffer to the index it returns (`search_fills`), so the response
fits exactly if that index does; and the index is a sum over the entries that the alias
search goes through (`Answered`), each as long as its owner and its data make it
(`recordLen`).  Neither the table nor the request bounds the sum.
-/
import InternetLabs.Dns.Sound
import InternetLabs.Dns.Termination

namespace InternetLabs.Dns.Server

open InternetLabs InternetLabs.Dns

/-! ## How long things are on the wire

Lengths are told for any string, not only for names, since the file can have any word
where a name should be. -/

/-- The length of a name in wire form, any string taken for a name. -/
def encodedLen (name : Bytes) : Nat :=
  ((strtokAll (· == dot) (cstr name)).map fun l => 1 + l.length).sum + 1

/-- The length of a record: `rr_to_wire` leaves a byte free behind a name that is as long
on the wire as it is as a string. -/
def recordLen (rr : DnsRr) : Nat :=
  encodedLen rr.name + (if encodedLen rr.name = (cstr rr.name).length then 1 else 0) + 10
    + rr.rdataLen.toNat

theorem nameAsciiToWire_size (name m : Bytes) (off : Nat) :
    (Server.nameAsciiToWire name m off).2 = encodedLen name ∧
      (Server.nameAsciiToWire name m off).1.length = max m.length (off + encodedLen name) := by
  rw [Server.nameAsciiToWire, nameToWire, nameToWireLoop_fst, nameToWireLoop_snd, length_writeAt,
    length_labelsWire_eq, Nat.zero_add]
  exact ⟨rfl, rfl⟩

theorem rrToWire_size {rr : DnsRr} (hdata : rr.rdataLen.toNat ≤ rr.rdata.length) (m : Bytes)
    (off : Nat) :
    (Server.rrToWire rr m off).2 = recordLen rr ∧
      (Server.rrToWire rr m off).1.length = max m.length (off + recordLen rr) := by
  obtain ⟨hlen, hmem⟩ := nameAsciiToWire_size rr.name m off
  have htake : (rr.rdata.take rr.rdataLen.toNat).length = rr.rdataLen.toNat := by
    rw [List.length_take]; omega
  simp only [Server.rrToWire, hlen, length_writeAt, hmem, htake, length_le16,
    length_le32, recordLen]
  split <;> constructor <;> omega

/-! ## Loaded tables -/

theorem length_inetPtonLoop {src octets addr : Bytes} {cur : Option Nat}
    (h : inetPtonLoop src octets cur = some addr) : addr.length = 4 := by
  induction src generalizing octets cur with
  | nil =>
      cases cur with
      | none => cases h
      | some v =>
          simp only [inetPtonLoop] at h
          split at h
          · next h3 =>
            rw [← Option.some.inj h, List.length_append, h3]
            rfl
          · cases h
  | cons ch src ih =>
      simp only [inetPtonLoop] at h
      split at h
      · cases cur with
        | none => exact ih h
        | some v =>
            simp only at h
            split at h
            · cases h
            · exact ih h
      · split at h
        · cases cur with
          | none => cases h
          | some v =>
              simp only at h
              split at h
              · cases h
              · exact ih h
        · cases h

theorem loadRdata_block (type : UInt16) (data : Bytes) :
    (loadRdata type data).1.toNat ≤ (loadRdata type data).2.length := by
  by_cases hA : type = typeA
  · rw [loadRdata, if_pos hA]
    cases haddr : inetPton data with
    | none => exact Nat.le_refl 4
    | some addr => exact Nat.le_of_eq (length_inetPtonLoop haddr).symm
  by_cases hC : type = cname
  · obtain ⟨hlen, hmem⟩ := nameAsciiToWire_size data (List.replicate bufferMax 0) 0
    rw [loadRdata, if_neg hA, if_pos hC]
    simp only [hlen, hmem, UInt16.toNat_ofNat']
    have := Nat.mod_le (encodedLen data) (2 ^ 16)
    omega
  · rw [loadRdata, if_neg hA, if_neg hC]
    exact Nat.zero_le _

/-- The data of a loaded entry is as long as it is said to be. -/
theorem Loadable.block {db : CacheDb} (h : Loadable db) :
    ∀ e ∈ db.entries, e.rr.rdataLen.toNat ≤ e.rr.rdata.length := by
  obtain ⟨start, lines, -, hentries⟩ := h
  intro e he
  rw [hentries] at he
  obtain ⟨⟨heap, l⟩, -, rfl⟩ := List.mem_map.mp he
  exact loadRdata_block _ _

/-! ## What the search appends

The entries are determined by the table, the clock and the question, so the length is,
too. -/

section Answered
variable (db : CacheDb) (now : Int) (qtype : UInt16)

/-- The entries that a search for `n` from slot `k` on goes through: the first that
answers, and if it is an alias those that answer its target, from slot 1 on. -/
inductive Answered : Nat → Bytes → List DnsDbEntry → Prop
  | miss {k : Nat} {n : Bytes} : db.firstAnswer now qtype k n = none → Answered k n []
  | hit {k : Nat} {n : Bytes} {e : DnsDbEntry} : db.firstAnswer now qtype k n = some e →
      e.rr.type = qtype → Answered k n [e]
  | follow {k : Nat} {n t : Bytes} {e : DnsDbEntry} {es : List DnsDbEntry} :
      db.firstAnswer now qtype k n = some e → e.rr.type ≠ qtype → e.target = some t →
      Answered 1 t es → Answered k n (e :: es)

variable {db now qtype}

theorem Answered.unique {k : Nat} {n : Bytes} {es es' : List DnsDbEntry}
    (h : Answered db now qtype k n es) (h' : Answered db now qtype k n es') : es = es' := by
  induction h generalizing es' with
  | miss hnone =>
      cases h' with
      | miss _ => rfl
      | hit hsome _ => rw [hnone] at hsome; cases hsome
      | follow hsome _ _ _ => rw [hnone] at hsome; cases hsome
  | hit hfirst ht =>
      cases h' with
      | miss hnone => rw [hfirst] at hnone; cases hnone
      | hit hfirst' _ => rw [hfirst] at hfirst'; cases hfirst'; rfl
      | follow hfirst' ht' _ _ => rw [hfirst] at hfirst'; cases hfirst'; exact (ht' ht).elim
  | follow hfirst ht htarget _ ih =>
      cases h' with
      | miss hnone => rw [hfirst] at hnone; cases hnone
      | hit hfirst' ht' => rw [hfirst] at hfirst'; cases hfirst'; exact (ht ht').elim
      | follow hfirst' _ htarget' hrest =>
          rw [hfirst] at hfirst'
          cases hfirst'
          rw [htarget] at htarget'
          cases htarget'
          rw [ih hrest]

/-- The length of what the entries are sent as. -/
def answersLen (es : List DnsDbEntry) : Nat := (es.map fun e => recordLen e.rr).sum

theorem Answered.congr {k k' : Nat} {n : Bytes} {es : List DnsDbEntry}
    (h : Answered db now qtype k n es)
    (hk : db.firstAnswer now qtype k n = db.firstAnswer now qtype k' n) :
    Answered db now qtype k' n es := by
  cases h with
  | miss h => exact .miss (hk ▸ h)
  | hit h ht => exact .hit (hk ▸ h) ht
  | follow h ht htarget hrest => exact .follow (hk ▸ h) ht htarget hrest

/-- **The search fills the buffer**: it goes on by the lengths of the entries it goes
through, and has written as far as it has got. -/
theorem search_fills (hdb : ∀ e ∈ db.entries, e.rr.rdataLen.toNat ≤ e.rr.rdata.length)
    {size : Nat} {s s' : Search} (hs : s.response.length = max size s.index)
    (h : Loop.Returns (searchBody db now qtype) s s') :
    ∃ es, Answered db now qtype s.i (cstr s.qname) es ∧ s'.index = s.index + answersLen es ∧
      s'.response.length = max size s'.index := by
  induction h using Loop.Returns.induct with
  | round s h ih =>
      have hfirst := @CacheDb.firstAnswer_congr db now qtype _ _ s.i
        (cstr_eq_self (zero_notMem_cstr s.qname))
      cases hget : db.get s.i with
      | none =>
          obtain rfl := (Loop.returns_ret_iff (searchBody_of_get_none hget)).mp h
          exact ⟨[], .miss (CacheDb.firstAnswer_of_get_none hget _), rfl, hs⟩
      | some e =>
          by_cases he : e.answers now qtype s.qname = true
          · rw [CacheDb.firstAnswer_of_answers hget he] at hfirst
            have hblock := hdb e (List.mem_of_getElem? hget)
            obtain ⟨hlen, hmem⟩ := @rrToWire_size (e.answer now) hblock s.response s.index
            by_cases ht : e.rr.type = qtype
            · obtain rfl := (Loop.returns_ret_iff (searchBody_of_hit hget he ht)).mp h
              refine ⟨[e], .hit hfirst ht, ?_, ?_⟩
              · simp only [hlen, answersLen, List.map_singleton, List.sum_singleton]
                rfl
              · simp only [hlen, hmem, hs]
                omega
            · cases hdec : Server.nameAsciiFromWire e.rr.rdata 0 with
              | none =>
                  have hb : searchBody db now qtype s = .fault := by
                    rw [searchBody_of_alias hget he ht, hdec]
                  exact (Loop.not_returns_fault hb h).elim
              | some r =>
                  obtain ⟨s₁, hb, hi, hq, hidx, hresp⟩ : ∃ s₁ : Search,
                      searchBody db now qtype s = .next s₁ ∧ s₁.i = 1 ∧ s₁.qname = r.1 ∧
                      s₁.index = s.index + recordLen e.rr ∧
                      s₁.response.length = max size s₁.index := by
                    rw [searchBody_of_alias hget he ht, hdec]
                    refine ⟨_, rfl, rfl, rfl, congrArg (s.index + ·) hlen, ?_⟩
                    simp only [hlen, hmem, hs]
                    omega
                  have htarget : e.target = some (cstr s₁.qname) := by
                    rw [hq, DnsDbEntry.target, hdec]
                    rfl
                  obtain ⟨es, hes, hidx', hresp'⟩ := ih s₁ hb hresp
                  rw [hi] at hes
                  refine ⟨e :: es, .follow hfirst ht htarget hes, ?_, hresp'⟩
                  rw [hidx', hidx, answersLen, answersLen, List.map_cons, List.sum_cons,
                    Nat.add_assoc]
          · rw [CacheDb.firstAnswer_of_not_answers hget he] at hfirst
            obtain ⟨es, hes, hidx, hresp⟩ := ih _ (searchBody_of_not_answers hget he) hs
            have hnext := @CacheDb.firstAnswer_congr db now qtype _ _ (s.i + 1)
              (cstr_eq_self (zero_notMem_cstr s.qname))
            exact ⟨es, hes.congr (hnext.trans hfirst.symm), hidx, hresp⟩

end Answered

/-! ## The response -/

/-- The bytes that the answer to `question` takes with the entries `es` in it: header,
question, records. -/
def responseLen (question : DnsRr) (es : List DnsDbEntry) : Nat :=
  12 + encodedLen question.name + 4 + answersLen es

section Response
variable {db : CacheDb} {now : Int} {request m out : Bytes} {len : Nat}

/-- **What `get_response` writes** is the buffer as far as the length it returns. -/
theorem getResponse_fills (hdb : ∀ e ∈ db.entries, e.rr.rdataLen.toNat ≤ e.rr.rdata.length)
    (hm : 12 ≤ m.length) (hvalid : isValidRequest request = true)
    (h : getResponse db now request m = some (out, len)) :
    ∃ question es, getQuestion request = some question ∧
      Answered db now question.type 0 (cstr question.name) es ∧ len = responseLen question es ∧
      out.length = max m.length len := by
  cases hq : getQuestion request with
  | none =>
      simp only [getResponse, hvalid, hq] at h
      cases h
  | some question =>
      simp only [getResponse, hvalid, hq, Bool.not_true, Bool.false_eq_true, if_false,
        (nameAsciiToWire_size question.name _ 12).1] at h
      split at h
      · cases h
      next s hrun =>
      generalize hs₀ : searchStart question.name _ _ = s₀ at hrun
      have hstart : s₀.response.length = max m.length s₀.index := by
        rw [← hs₀]
        simp only [searchStart, length_writeAt, (nameAsciiToWire_size question.name _ 12).2,
          length_le16, List.length_replicate, List.length_take]
        omega
      obtain ⟨es, hes, hidx, hresp⟩ := search_fills hdb hstart ⟨_, hrun⟩
      obtain ⟨hout, rfl⟩ := Prod.mk.inj (Option.some.inj h)
      have hlen : s.index = responseLen question es := by
        rw [hidx, ← hs₀, responseLen, searchStart]
      rw [← hs₀] at hes
      refine ⟨question, es, rfl, hes, hlen, ?_⟩
      -- the two header fields patched at the end lie inside
      have hinside : ∀ (b : Bytes) (i : Nat) (x : UInt16), i ≤ 6 → b.length = s.response.length →
          (writeAt b i (le16 x)).length = s.response.length := by
        intro b i x hi hb
        rw [length_writeAt, hb, length_le16, hresp]
        omega
      rw [← hresp, ← hout]
      split
      · refine hinside _ 6 _ (Nat.le_refl 6) ?_
        split
        · exact hinside _ 2 _ (by decide) rfl
        · rfl
      · split
        · exact hinside _ 2 _ (by decide) rfl
        · rfl

/-- **A response fits its buffer** exactly if header, question and the records of the
entries that the search goes through are no longer than it. -/
theorem getResponse_fits_iff (hdb : Loadable db) (hm : m.length = bufferMax)
    (hvalid : isValidRequest request = true)
    (h : getResponse db now request m = some (out, len)) :
    (out.length ≤ bufferMax ∧ len ≤ bufferMax) ↔
      ∃ question es, getQuestion request = some question ∧
        Answered db now question.type 0 (cstr question.name) es ∧
        responseLen question es ≤ bufferMax := by
  have hmax : bufferMax = 1024 := rfl
  obtain ⟨question, es, hq, hes, hlen, hout⟩ :=
    getResponse_fills hdb.block (by omega) hvalid h
  constructor
  · rintro ⟨-, hfits⟩
    exact ⟨question, es, hq, hes, hlen ▸ hfits⟩
  · rintro ⟨question', es', hq', hes', hfits⟩
    rw [hq] at hq'
    cases hq'
    obtain rfl := hes.unique hes'
    omega

end Response

/-! ### A response that does not -/

/-- A name of four labels of 62 bytes `c`, 251 bytes as a string. -/
def longName (c : UInt8) (h : IsLabel (List.replicate 62 c)) : Name where
  labels := List.replicate 4 (List.replicate 62 c)
  ok := fun _ hl => List.eq_of_mem_replicate hl ▸ h

def longAliasName : Name := longName 97 (by decide)

def longTargetName : Name := longName 98 (by decide)

/-- An alias and the address of its target. -/
def longAlias : DbLine :=
  { host := longAliasName.text, t := 30, cls := ascii "IN", type := ascii "CNAME",
    data := longTargetName.text }

def longTarget : DbLine :=
  { host := longTargetName.text, t := 30, cls := ascii "IN", type := ascii "A",
    data := ascii "192.0.2.1" }

def longDb : CacheDb := loadDb 0 [longAlias, longTarget] (by decide)

theorem longDb_loadable : Loadable longDb := by
  refine loadable_loadDb _ fun l hl => ?_
  rcases List.mem_cons.mp hl with rfl | hl
  · exact ⟨by decide +kernel, by decide, by decide, by decide, by decide +kernel⟩
  · rw [List.mem_singleton.mp hl]
    exact ⟨by decide +kernel, by decide, by decide, by decide, by decide⟩

theorem longAlias_pointsTo : (loadEntry 0 [0] longAlias).PointsTo longTargetName :=
  ⟨by decide +kernel, by decide +kernel⟩

theorem longDb_wellFormed : ∀ e ∈ longDb.entries, e.WellFormed := by
  intro e he
  rcases List.mem_cons.mp he with rfl | he
  · exact ⟨⟨longAliasName, by decide +kernel⟩, fun _ => ⟨longTargetName, longAlias_pointsTo⟩,
      fun h => absurd h (by decide), by decide +kernel⟩
  · rw [List.mem_singleton.mp he]
    exact ⟨⟨longTargetName, by decide +kernel⟩, fun h => absurd h (by decide),
      fun _ => by decide +kernel, by decide⟩

def longQuery : Query := .plain longAliasName typeA

theorem longDb_chain : Chain longDb 0 longQuery.qtype 0 longQuery.name
    [(longAliasName, loadEntry 0 [0] longAlias),
    (longTargetName, loadEntry 0 [0] longTarget)] true :=
  .follow (by decide +kernel) (by decide) longAlias_pointsTo (.hit (by decide +kernel) (by decide))

/-- The answer to it runs 28 bytes over the end of the buffer. -/
theorem longDb_overruns : Loadable longDb ∧ longQuery.bytes.length ≤ bufferMax ∧
    isValidRequest longQuery.bytes = true ∧
    ∃ out, getResponse longDb 0 longQuery.bytes (List.replicate bufferMax 0) = some (out, 1052) ∧
      out.length = 1052 := by
  have h := getResponse_of_chain longDb_wellFormed longDb_chain (List.replicate bufferMax 0)
  have hlen : (message longQuery 0 (rcode true)
      [(longAliasName, loadEntry 0 [0] longAlias),
        (longTargetName, loadEntry 0 [0] longTarget)]).length
      = 1052 := by decide +kernel
  rw [hlen] at h
  refine ⟨longDb_loadable, by decide +kernel, longQuery.isValidRequest_bytes, _, h, ?_⟩
  rw [List.length_append, hlen, List.length_drop, List.length_replicate]
  rfl

/-- The response to the query for the target of the long alias fits. -/
theorem longTarget_fits_iff : ∃ out len,
    getResponse longDb 0 (Query.plain longTargetName typeA).bytes (List.replicate bufferMax 0)
      = some (out, len) ∧
    ((out.length ≤ bufferMax ∧ len ≤ bufferMax) ↔
      ∃ question es, getQuestion (Query.plain longTargetName typeA).bytes = some question ∧
        Answered longDb 0 question.type 0 (cstr question.name) es ∧
        responseLen question es ≤ bufferMax) := by
  have hchain : Chain longDb 0 (Query.plain longTargetName typeA).qtype 0
      (Query.plain longTargetName typeA).name
      [(longTargetName, loadEntry 0 [0] longTarget)] true := .hit (by decide +kernel) (by decide)
  have h := getResponse_of_chain longDb_wellFormed hchain (List.replicate bufferMax 0)
  exact ⟨_, _, h, getResponse_fits_iff longDb_loadable List.length_replicate
    (Query.plain longTargetName typeA).isValidRequest_bytes h⟩

end InternetLabs.Dns.Server
