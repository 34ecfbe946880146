/-
# `InternetLabs.Dns.InitDb` — the cache table as `init_db` fills it

`loadEntry` is the body of the loop of `init_db` after `sscanf` has cut a line
into its five fields.  The owner's block is `malloc(strlen(host))` and receives
no terminating NUL, so what a pointer to it denotes as a string also depends on
the bytes that follow it on the heap; `heap` is that memory.

`Loadable` tables are the ones some file gives.
-/
import InternetLabs.Dns.Server

namespace InternetLabs

namespace Dns.Server

/-- The digits and dots of `inet_pton(AF_INET, …)`: `octets` are complete, `cur`
is the one being read. -/
def inetPtonLoop : Bytes → Bytes → Option Nat → Option Bytes
  | [], octets, cur =>
      match cur with
      | none => none
      | some v => if octets.length = 3 then some (octets ++ [UInt8.ofNat v]) else none
  | ch :: src, octets, cur =>
      if 48 ≤ ch.toNat ∧ ch.toNat ≤ 57 then
        match cur with
        | none => inetPtonLoop src octets (some (ch.toNat - 48))
        | some v =>
            if v = 0 ∨ v * 10 + (ch.toNat - 48) > 255 then none
            else inetPtonLoop src octets (some (v * 10 + (ch.toNat - 48)))
      else if ch = dot then
        match cur with
        | none => none
        | some v =>
            if octets.length = 3 then none else inetPtonLoop src (octets ++ [UInt8.ofNat v]) none
      else none

/-- `inet_pton(AF_INET, src, …)`: the four address bytes, if `src` is one. -/
def inetPton (src : Bytes) : Option Bytes := inetPtonLoop src [] none

example : inetPton (ascii "192.0.2.1") = some [192, 0, 2, 1] := by decide

/-- What `sscanf(line, "%s %d %s %s %s", …)` leaves in the five variables. -/
structure DbLine where
  host : Bytes
  t : Int
  cls : Bytes
  type : Bytes
  data : Bytes
deriving DecidableEq

/-- A string `sscanf` can have written into a `BUFFER_MAX` buffer. -/
def IsToken (s : Bytes) : Prop :=
  s.length < bufferMax ∧ ∀ b ∈ s, b ≠ 0 ∧ b ≠ 32 ∧ ¬ (9 ≤ b.toNat ∧ b.toNat ≤ 13)

instance (s : Bytes) : Decidable (IsToken s) := inferInstanceAs (Decidable (_ ∧ _))

structure DbLine.Ok (l : DbLine) : Prop where
  host : IsToken l.host
  t : -2 ^ 31 ≤ l.t ∧ l.t < 2 ^ 31
  cls : IsToken l.cls
  type : IsToken l.type
  data : IsToken l.data

/-- `rdata_len` and `rdata` of an entry of the given type. -/
def loadRdata (type : UInt16) (data : Bytes) : UInt16 × Bytes :=
  if type = typeA then
    (4, (inetPton data).getD [0, 0, 0, 0])
  else if type = cname then
    let (rdata, datalen) := Server.nameAsciiToWire data (List.replicate bufferMax 0) 0
    (UInt16.ofNat datalen, rdata)
  else (0, [])

/-- One line of the file becomes `cachedb[rr_num]`. -/
def loadEntry (cachedbStart : Int) (heap : Bytes) (l : DbLine) : DnsDbEntry :=
  let type := if l.type = ascii "A" then typeA else if l.type = ascii "CNAME" then cname else 0
  let (rdataLen, rdata) := loadRdata type l.data
  { rr := {
      name := l.host ++ heap
      type := type
      cls := if l.cls = ascii "IN" then 1 else 0
      ttl := UInt32.ofInt l.t
      rdataLen := rdataLen
      rdata := rdata }
    expires := cachedbStart + l.t }

/-- A table that some file, read at some time into some heap, fills. -/
def Loadable (db : CacheDb) : Prop :=
  ∃ (cachedbStart : Int) (lines : List (Bytes × DbLine)),
    (∀ l ∈ lines, l.2.Ok) ∧
    db.entries = lines.map fun l => loadEntry cachedbStart l.1 l.2

/-- `cachedb-cname.txt` has these two lines among its three. -/
def exampleLine : DbLine :=
  { host := ascii "example.com", t := 30, cls := ascii "IN", type := ascii "A",
    data := ascii "192.0.2.1" }

def wwwLine : DbLine :=
  { host := ascii "www.example.com", t := 30, cls := ascii "IN", type := ascii "CNAME",
    data := ascii "example.com" }

def exampleCom : Name := ⟨[ascii "example", ascii "com"], by decide⟩

def wwwExampleCom : Name := ⟨[ascii "www", ascii "example", ascii "com"], by decide⟩

theorem exampleLine_ok : exampleLine.Ok :=
  ⟨by decide, by decide, by decide, by decide, by decide⟩

/-- The table of a file of these lines, read at `cachedbStart`. -/
def loadDb (cachedbStart : Int) (lines : List DbLine) (h : lines.length ≤ maxEntries) :
    CacheDb where
  entries := lines.map (loadEntry cachedbStart [0])
  fits := by rwa [List.length_map]

theorem loadable_loadDb {cachedbStart : Int} {lines : List DbLine} (h : lines.length ≤ maxEntries)
    (hok : ∀ l ∈ lines, l.Ok) : Loadable (loadDb cachedbStart lines h) := by
  refine ⟨cachedbStart, lines.map fun l => ([0], l), ?_, ?_⟩
  · intro l hl
    obtain ⟨l', hl', rfl⟩ := List.mem_map.mp hl
    exact hok l' hl'
  · rw [List.map_map]; rfl

end Dns.Server

end InternetLabs
