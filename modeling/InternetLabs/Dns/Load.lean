/-
# `InternetLabs.Dns.Load` — `init_db`, from the bytes of the file to the table

`init_db` reads the file with `fgets`, cuts a line with `sscanf` and writes
`cachedb[rr_num]`.  A file of well-formed lines, `FileOf`, is read line by line
(`fgets_fileOf`, `scanLine_line`), so the table holds an entry for each.

Two things can still go wrong.  `rr_num` is not compared with `MAX_ENTRIES`: the line
after the last entry is written behind the table.  And the name is copied without its
NUL, so it goes on into the heap unless the byte behind its block is zero
(`cstr_name_iff`).
-/
import InternetLabs.Lib.Scan
import InternetLabs.Dns.InitDb

namespace InternetLabs.Dns.Server

open InternetLabs InternetLabs.Dns

/-! ## The loop -/

/-- `sscanf(line, "%s %d %s %s %s", host, &t, class, type, data)` into cleared variables. -/
def scanLine (line : Bytes) : DbLine :=
  let l : DbLine := { host := [], t := 0, cls := [], type := [], data := [] }
  match scanString line with
  | none => l
  | some (host, line) =>
      let l := { l with host := host }
      match scanInt line with
      | none => l
      | some (t, line) =>
          let l := { l with t := t }
          match scanString line with
          | none => l
          | some (cls, line) =>
              let l := { l with cls := cls }
              match scanString line with
              | none => l
              | some (type, line) =>
                  let l := { l with type := type }
                  match scanString line with
                  | none => l
                  | some (data, _) => { l with data := data }

/-- `cachedb[rr_num] = …`, `rr_num` the number of the entries there are, if that is in the
table. -/
def CacheDb.put (db : CacheDb) (e : DnsDbEntry) : Option CacheDb :=
  if h : db.entries.length < maxEntries then
    some ⟨db.entries ++ [e], by rw [List.length_append, List.length_singleton]; exact h⟩
  else none

/-- One round of the loop of `init_db`: what is left of the file, and the table.  Behind
the block that `malloc` gives for the name of entry `i` lies `heap i`. -/
def initDbBody (cachedbStart : Int) (heap : Nat → Bytes) (s : Bytes × CacheDb) :
    Step (Bytes × CacheDb) CacheDb :=
  match fgets bufferMax s.1 with
  | none => .ret s.2
  | some (line, file) =>
      match s.2.put (loadEntry cachedbStart (heap s.2.entries.length) (scanLine (cstr line))) with
      | none => .fault
      | some db => .next (file, db)

/-! ## Well-formed files

Files as the ones that come with the server: one record a line, of class IN, with a
number for its time to live. -/

/-- A name as a line of the file has it, with or without a dot at its end. -/
structure SpelledName where
  name : Name
  text : Bytes
  spells : text = name.text ∧ name.labels ≠ [] ∨ text = name.text ++ [dot]
  noSpace : ∀ b ∈ text, isSpace b = false

/-- What an entry says about its name. -/
inductive DbData where
  | address (a b c d : UInt8)
  | target (n : SpelledName)

namespace DbData

/-- The type of an entry with this data. -/
def type : DbData → UInt16
  | address .. => typeA
  | target _ => cname

/-- The word for its type. -/
def typeWord : DbData → Bytes
  | address .. => ascii "A"
  | target _ => ascii "CNAME"

/-- The word for the data. -/
def word : DbData → Bytes
  | address a b c d => decimal a.toNat ++ dot :: (decimal b.toNat ++ dot ::
      (decimal c.toNat ++ dot :: decimal d.toNat))
  | target n => n.text

/-- Address bytes, or the wire form of the target. -/
def rdata : DbData → Bytes
  | address a b c d => [a, b, c, d]
  | target n => n.name.wire

end DbData

/-- `host ttl IN type data`. -/
def dbLine (host : SpelledName) (ttl : Nat) (data : DbData) : Bytes :=
  host.text ++ 32 :: (decimal ttl ++ 32 :: (ascii "IN" ++ 32 :: (data.typeWord ++ 32 :: data.word)))

/-- A line of the file. -/
structure DbRecord where
  host : SpelledName
  ttl : Nat
  ttl_lt : ttl < 2 ^ 31
  data : DbData
  short : (dbLine host ttl data).length < bufferMax - 1

/-- The bytes of a line, without the newline. -/
def DbRecord.line (r : DbRecord) : Bytes := dbLine r.host r.ttl r.data

/-- The five words of the line. -/
def DbRecord.fields (r : DbRecord) : DbLine :=
  { host := r.host.text, t := r.ttl, cls := ascii "IN", type := r.data.typeWord,
    data := r.data.word }

/-- The file has these lines, the last with or without its newline. -/
inductive FileOf : List DbRecord → Bytes → Prop
  | nil : FileOf [] []
  | last (r : DbRecord) : FileOf [r] r.line
  | cons (r : DbRecord) {rs : List DbRecord} {file : Bytes} (h : FileOf rs file) :
      FileOf (r :: rs) (r.line ++ newline :: file)

/-! ## Reading a line -/

section Words

theorem SpelledName.isWord (n : SpelledName) : IsWord n.text := by
  refine ⟨?_, n.noSpace⟩
  rcases n.spells with ⟨htext, hlabels⟩ | htext
  · rw [htext]
    exact List.ne_nil_of_length_pos (Name.text_pos hlabels)
  · rw [htext]
    exact List.append_ne_nil_of_right_ne_nil _ (List.cons_ne_nil _ _)

theorem SpelledName.text_noNul (n : SpelledName) : (0 : UInt8) ∉ n.text := by
  rcases n.spells with ⟨h, -⟩ | h
  · rw [h]
    exact n.name.text_noNul
  · rw [h, List.mem_append, List.mem_singleton, not_or]
    exact ⟨n.name.text_noNul, by decide⟩

theorem isSpace_of_mem_decimal {n : Nat} {b : UInt8} (hb : b ∈ decimal n) : isSpace b = false := by
  rw [decimal_natCast] at hb
  exact (ne_of_isDigit (isDigit_of_mem_digits hb)).1

theorem DbData.isWord (d : DbData) : IsWord d.word := by
  cases d with
  | target n => exact n.isWord
  | address a b c d =>
      refine ⟨List.append_ne_nil_of_right_ne_nil _ (List.cons_ne_nil _ _), ?_⟩
      have hdot : isSpace dot = false := by decide
      simp only [DbData.word, List.mem_append, List.mem_cons]
      rintro x (hx | rfl | hx | rfl | hx | rfl | hx)
      all_goals first | exact hdot | exact isSpace_of_mem_decimal hx

theorem DbData.isWord_type (d : DbData) : IsWord d.typeWord := by
  cases d with
  | address => exact (by decide : IsWord (ascii "A"))
  | target => exact (by decide : IsWord (ascii "CNAME"))

/-- `sscanf` finds the five words, whatever space is behind the line. -/
theorem scanLine_line (r : DbRecord) {tail : Bytes} (htail : ∀ b ∈ tail.head?, isSpace b = true) :
    scanLine (r.line ++ tail) = r.fields := by
  have hspace : isSpace 32 = true := by decide
  have hhead : ∀ s : Bytes, ∀ b ∈ (32 :: s : Bytes).head?, isSpace b = true := by
    rintro s b ⟨⟩
    exact hspace
  have hin : IsWord (ascii "IN") := by decide
  have hint : ∀ s : Bytes, scanInt (decimal r.ttl ++ 32 :: s) = some ((r.ttl : Int), 32 :: s) :=
    fun s => scanInt_decimal r.ttl_lt (by rintro b ⟨⟩; decide)
  simp only [DbRecord.line, dbLine, List.append_assoc, List.cons_append, scanLine,
    scanString_word r.host.isWord (hhead _), scanInt_space hspace,
    hint,
    scanString_space hspace, scanString_word hin (hhead _),
    scanString_word r.data.isWord_type (hhead _), scanString_word r.data.isWord htail,
    DbRecord.fields]

theorem newline_notMem {w : Bytes} (h : ∀ b ∈ w, isSpace b = false) : newline ∉ w := by
  intro hmem
  have hspace : isSpace newline = true := by decide
  rw [h _ hmem] at hspace
  cases hspace

theorem newline_notMem_line (r : DbRecord) : newline ∉ r.line := by
  have hhost := newline_notMem r.host.noSpace
  have httl : newline ∉ decimal r.ttl := newline_notMem fun b hb => isSpace_of_mem_decimal hb
  have htype := newline_notMem r.data.isWord_type.2
  have hdata := newline_notMem r.data.isWord.2
  have hin : newline ∉ ascii "IN" := by decide
  have hspace : newline ≠ 32 := by decide
  simp only [DbRecord.line, dbLine, List.mem_append, List.mem_cons, not_or]
  exact ⟨hhost, hspace, httl, hspace, hin, hspace, htype, hspace, hdata⟩

theorem zero_notMem_decimal (n : Nat) : (0 : UInt8) ∉ decimal n := by
  rw [decimal_natCast]
  intro hmem
  have hdigit := isDigit_of_mem_digits hmem
  cases hdigit

theorem DbData.typeWord_noNul (d : DbData) : (0 : UInt8) ∉ d.typeWord := by
  cases d with
  | address => exact (by decide : (0 : UInt8) ∉ ascii "A")
  | target => exact (by decide : (0 : UInt8) ∉ ascii "CNAME")

theorem DbData.word_noNul (d : DbData) : (0 : UInt8) ∉ d.word := by
  have hdot : (0 : UInt8) ≠ dot := by decide
  cases d with
  | address a b c d =>
      simp only [DbData.word, List.mem_append, List.mem_cons, not_or]
      exact ⟨zero_notMem_decimal _, hdot, zero_notMem_decimal _, hdot, zero_notMem_decimal _, hdot,
        zero_notMem_decimal _⟩
  | target n => exact n.text_noNul

theorem zero_notMem_line (r : DbRecord) : (0 : UInt8) ∉ r.line := by
  have hspace : (0 : UInt8) ≠ 32 := by decide
  have hin : (0 : UInt8) ∉ ascii "IN" := by decide
  simp only [DbRecord.line, dbLine, List.mem_append, List.mem_cons, not_or]
  exact ⟨r.host.text_noNul, hspace, zero_notMem_decimal _, hspace, hin, hspace,
    r.data.typeWord_noNul, hspace, r.data.word_noNul⟩

/-- **A line of the file**: `fgets` and `sscanf` find it. -/
theorem fgets_fileOf {r : DbRecord} {rs : List DbRecord} {file : Bytes}
    (h : FileOf (r :: rs) file) : ∃ line rest, fgets bufferMax file = some (line, rest) ∧
      scanLine (cstr line) = r.fields ∧ FileOf rs rest := by
  have hfits := r.short
  have hline := newline_notMem_line r
  have hnul := zero_notMem_line r
  cases h with
  | last =>
      have hne : r.line ≠ [] := List.append_ne_nil_of_right_ne_nil _ (List.cons_ne_nil _ _)
      have hroom := Nat.lt_of_lt_of_le hfits (Nat.sub_le _ _)
      refine ⟨r.line, [], fgets_last hne hline hroom, ?_, .nil⟩
      have hscan : scanLine (r.line ++ []) = r.fields := scanLine_line r nofun
      rwa [List.append_nil, ← cstr_eq_self hnul] at hscan
  | cons _ h =>
      have hroom : r.line.length < bufferMax - 1 := hfits
      refine ⟨_, _, fgets_line hline (by omega) _, ?_, h⟩
      rw [cstr_eq_self (by simpa [newline] using hnul)]
      exact scanLine_line r (by rintro b ⟨⟩; decide)

end Words

/-! ## Making the entry

The functions that `init_db` calls on the words of a line, each on a word of the right
kind. -/

section Entry

/-- What a run of digits makes of the octet that is being read. -/
def octetRun : Bytes → Option Nat → Option (Option Nat)
  | [], cur => some cur
  | ch :: src, none => octetRun src (some (ch.toNat - 48))
  | ch :: src, some v =>
      if v = 0 ∨ v * 10 + (ch.toNat - 48) > 255 then none
      else octetRun src (some (v * 10 + (ch.toNat - 48)))

theorem inetPtonLoop_digits {ds : Bytes} (hds : ∀ d ∈ ds, isDigit d = true) {cur cur' : Option Nat}
    (h : octetRun ds cur = some cur') (src octets : Bytes) :
    inetPtonLoop (ds ++ src) octets cur = inetPtonLoop src octets cur' := by
  induction ds generalizing cur with
  | nil => cases h; rfl
  | cons d ds ih =>
      have hd : 48 ≤ d.toNat ∧ d.toNat ≤ 57 := by
        simpa [isDigit, UInt8.le_iff_toNat_le] using hds d List.mem_cons_self
      have ih := fun {cur} => @ih (fun x hx => hds x (List.mem_cons_of_mem d hx)) cur
      cases cur with
      | none =>
          rw [List.cons_append, inetPtonLoop, if_pos hd]
          exact ih h
      | some v =>
          rw [octetRun] at h
          rw [List.cons_append, inetPtonLoop, if_pos hd]
          split at h
          · cases h
          · next hv =>
              rw [if_neg hv]
              exact ih h

theorem octetRun_decimal : ∀ o : Fin 256, octetRun (decimal o.val) none = some (some o.val) := by
  decide +kernel

theorem inetPtonLoop_octet (o : UInt8) (src octets : Bytes) :
    inetPtonLoop (decimal o.toNat ++ src) octets none
      = inetPtonLoop src octets (some o.toNat) := by
  have hrun := octetRun_decimal ⟨o.toNat, o.toNat_lt⟩
  rw [decimal_natCast] at hrun ⊢
  exact inetPtonLoop_digits (fun d hd => isDigit_of_mem_digits hd) hrun src octets

theorem inetPtonLoop_dot (o : UInt8) (src : Bytes) {octets : Bytes} (h : octets.length ≠ 3) :
    inetPtonLoop (decimal o.toNat ++ dot :: src) octets none
      = inetPtonLoop src (octets ++ [o]) none := by
  have hdot : ¬ (48 ≤ dot.toNat ∧ dot.toNat ≤ 57) := by decide
  rw [inetPtonLoop_octet, inetPtonLoop, if_neg hdot, if_pos rfl]
  simp only [if_neg h, UInt8.ofNat_toNat]

theorem inetPton_address (a b c d : UInt8) :
    inetPton (DbData.address a b c d).word = some [a, b, c, d] := by
  rw [DbData.word, inetPton, inetPtonLoop_dot a _ (by simp), inetPtonLoop_dot b _ (by simp),
    inetPtonLoop_dot c _ (by simp), ← List.append_nil (decimal d.toNat), inetPtonLoop_octet,
    inetPtonLoop]
  simp

/-- The tokens of a name are its labels, with or without the dot at its end. -/
theorem SpelledName.strtokAll_text (n : SpelledName) :
    strtokAll (· == dot) n.text = n.name.labels := by
  rcases n.spells with ⟨h, -⟩ | h
  · rw [h]
    exact strtokAll_labelsText n.name.ok
  · rw [h, n.name.strtokAll_text_dot]

theorem SpelledName.nameAsciiToWire_text (n : SpelledName) (wire : Bytes) :
    Server.nameAsciiToWire n.text wire 0 = (writeAt wire 0 n.name.wire, n.name.wire.length) := by
  refine Server.nameAsciiToWire_of_tokens ?_ wire 0
  rw [cstr_eq_self n.text_noNul, n.strtokAll_text]

theorem SpelledName.length_wire_le (n : SpelledName) : n.name.wire.length ≤ n.text.length + 2 := by
  by_cases h : n.name.labels = []
  · simp [Name.wire, h]
  · have hlen := length_labelsWire h
    rcases n.spells with ⟨htext, -⟩ | htext
    · rw [htext]
      exact hlen.le
    · rw [htext, List.length_append]
      exact hlen.le.trans (by rw [Name.text]; omega)

theorem DbRecord.length_wire_le (r : DbRecord) {n : SpelledName} (h : r.data = .target n) :
    n.name.wire.length ≤ bufferMax := by
  have hshort := r.short
  have hwire := n.length_wire_le
  rw [h] at hshort
  simp only [dbLine, DbData.word, List.length_append, List.length_cons] at hshort
  omega

/-- What the entry of a line must be, as C strings and byte arrays. -/
structure Represents (cachedbStart : Int) (r : DbRecord) (e : DnsDbEntry) : Prop where
  name : cstr e.rr.name = r.host.text
  type : e.rr.type = r.data.type
  cls : e.rr.cls = 1
  rdataLen : e.rr.rdataLen.toNat = r.data.rdata.length
  rdata : e.rr.rdata.take e.rr.rdataLen.toNat = r.data.rdata
  expires : e.expires = cachedbStart + r.ttl

theorem loadRdata_data (r : DbRecord) : ∃ rest,
    loadRdata r.data.type r.data.word = (UInt16.ofNat r.data.rdata.length, r.data.rdata ++ rest) ∧
      r.data.rdata.length < 2 ^ 16 := by
  cases h : r.data with
  | address a b c d =>
      have hlen : (DbData.address a b c d).rdata.length = 4 := rfl
      refine ⟨[], ?_, by rw [hlen]; decide⟩
      simp only [DbData.type, loadRdata, if_true, inetPton_address]
      rfl
  | target n =>
      have hlen := r.length_wire_le h
      refine ⟨(List.replicate bufferMax 0).drop n.name.wire.length, ?_, ?_⟩
      · have htype : cname ≠ typeA := by decide
        simp only [DbData.type, loadRdata, if_neg htype, if_true, DbData.word,
          n.nameAsciiToWire_text, writeAt_zero, DbData.rdata]
      · exact Nat.lt_of_le_of_lt hlen (by decide)

theorem loadEntry_fields (cachedbStart : Int) (heap : Bytes) (r : DbRecord) :
    loadEntry cachedbStart heap r.fields =
      { rr := {
          name := r.host.text ++ heap
          type := r.data.type
          cls := 1
          ttl := UInt32.ofInt r.ttl
          rdataLen := (loadRdata r.data.type r.data.word).1
          rdata := (loadRdata r.data.type r.data.word).2 }
        expires := cachedbStart + r.ttl } := by
  have hne : ascii "CNAME" ≠ ascii "A" := by decide
  cases h : r.data with
  | address => simp only [loadEntry, DbRecord.fields, h, DbData.typeWord, if_true, DbData.type]
  | target =>
      simp only [loadEntry, DbRecord.fields, h, DbData.typeWord, if_neg hne, if_true, DbData.type]

/-- The name block has no NUL, so what is behind it belongs to the name. -/
theorem cstr_name_iff {host : Bytes} (hhost : (0 : UInt8) ∉ host) (heap : Bytes) :
    cstr (host ++ heap) = host ↔ ∀ b ∈ heap.head?, b = 0 := by
  rw [cstr_append hhost, List.append_right_eq_self]
  cases heap with
  | nil => exact iff_of_true rfl nofun
  | cons b heap =>
      have hhead : (∀ b' ∈ (b :: heap).head?, b' = 0) ↔ b = 0 :=
        ⟨fun h => h b rfl, by rintro h b' ⟨⟩; exact h⟩
      rw [hhead]
      by_cases hb : b = 0
      · rw [hb, cstr_zero_cons]
        exact iff_of_true rfl rfl
      · rw [cstr_cons_of_ne hb]
        exact iff_of_false (List.cons_ne_nil _ _) hb

/-- **The entry of a line** represents it exactly if its name ends. -/
theorem represents_iff (cachedbStart : Int) (heap : Bytes) (r : DbRecord) :
    Represents cachedbStart r (loadEntry cachedbStart heap r.fields) ↔
      ∀ b ∈ heap.head?, b = 0 := by
  obtain ⟨rest, hrdata, hlt⟩ := loadRdata_data r
  have hlen : (UInt16.ofNat r.data.rdata.length).toNat = r.data.rdata.length := by
    rw [UInt16.toNat_ofNat']
    exact Nat.mod_eq_of_lt hlt
  rw [← cstr_name_iff r.host.text_noNul]
  rw [loadEntry_fields, hrdata]
  constructor
  · exact fun h => h.name
  · intro hname
    refine ⟨hname, rfl, rfl, hlen, ?_, rfl⟩
    simp only [hlen, List.take_left]

end Entry

/-! ## The table -/

section Table
variable (cachedbStart : Int) (heap : Nat → Bytes)

/-- The entries of the lines, the first of them entry `k`. -/
def loadFrom : Nat → List DbRecord → List DnsDbEntry
  | _, [] => []
  | k, r :: rs => loadEntry cachedbStart (heap k) r.fields :: loadFrom (k + 1) rs

variable {cachedbStart heap}

theorem CacheDb.put_of_lt {db : CacheDb} (e : DnsDbEntry) (h : db.entries.length < maxEntries) :
    ∃ db', db.put e = some db' ∧ db'.entries = db.entries ++ [e] :=
  ⟨_, dif_pos h, rfl⟩

/-- **The loop** appends the entries of the lines, if there is room for all of them. -/
theorem initDb_returns {rs : List DbRecord} {file : Bytes} (hfile : FileOf rs file) {db : CacheDb}
    (hroom : db.entries.length + rs.length ≤ maxEntries) :
    ∃ db', Loop.Returns (initDbBody cachedbStart heap) (file, db) db' ∧
      db'.entries = db.entries ++ loadFrom cachedbStart heap db.entries.length rs := by
  induction rs generalizing file db with
  | nil =>
      cases hfile
      exact ⟨db, Loop.returns_of_ret rfl, (List.append_nil _).symm⟩
  | cons r rs ih =>
      obtain ⟨line, rest, hget, hscan, hrest⟩ := fgets_fileOf hfile
      rw [List.length_cons] at hroom
      obtain ⟨db₁, hput, hentries⟩ := CacheDb.put_of_lt
        (loadEntry cachedbStart (heap db.entries.length) r.fields)
        (show db.entries.length < maxEntries by omega)
      have hlen : db₁.entries.length = db.entries.length + 1 := by
        rw [hentries, List.length_append, List.length_singleton]
      have hnext : initDbBody cachedbStart heap (file, db) = .next (rest, db₁) := by
        simp only [initDbBody, hget, hscan, hput]
      have hroom' : db₁.entries.length + rs.length ≤ maxEntries := by omega
      obtain ⟨db', hret, hdb'⟩ := ih hrest hroom'
      refine ⟨db', Loop.returns_of_next hnext hret, ?_⟩
      rw [hdb', hlen, hentries, loadFrom, List.append_assoc, List.singleton_append]

theorem initDb_not_returns {rs : List DbRecord} {file : Bytes} (hfile : FileOf rs file)
    {db : CacheDb} (hroom : maxEntries < db.entries.length + rs.length) (db' : CacheDb) :
    ¬ Loop.Returns (initDbBody cachedbStart heap) (file, db) db' := by
  induction rs generalizing file db with
  | nil =>
      have hfits := db.fits
      rw [List.length_nil] at hroom
      omega
  | cons r rs ih =>
      obtain ⟨line, rest, hget, hscan, hrest⟩ := fgets_fileOf hfile
      rw [List.length_cons] at hroom
      by_cases hlt : db.entries.length < maxEntries
      · obtain ⟨db₁, hput, hentries⟩ := CacheDb.put_of_lt
          (loadEntry cachedbStart (heap db.entries.length) r.fields) hlt
        have hlen : db₁.entries.length = db.entries.length + 1 := by
          rw [hentries, List.length_append, List.length_singleton]
        have hnext : initDbBody cachedbStart heap (file, db) = .next (rest, db₁) := by
          simp only [initDbBody, hget, hscan, hput]
        rw [Loop.returns_next_iff hnext]
        exact ih hrest (by omega)
      · have hfault : initDbBody cachedbStart heap (file, db) = .fault := by
          simp only [initDbBody, hget, CacheDb.put, dif_neg hlt]
        exact Loop.not_returns_fault hfault

theorem forall₂_loadFrom_iff (k : Nat) (rs : List DbRecord) :
    List.Forall₂ (Represents cachedbStart) rs (loadFrom cachedbStart heap k rs) ↔
      ∀ i < rs.length, ∀ b ∈ (heap (k + i)).head?, b = 0 := by
  induction rs generalizing k with
  | nil => exact iff_of_true .nil nofun
  | cons r rs ih =>
      rw [loadFrom, List.forall₂_cons, represents_iff, ih]
      constructor
      · rintro ⟨hfirst, hrest⟩ i hi
        cases i with
        | zero => exact hfirst
        | succ i =>
            rw [show k + (i + 1) = k + 1 + i by omega]
            exact hrest i (Nat.lt_of_succ_lt_succ hi)
      · intro hall
        refine ⟨hall 0 (Nat.succ_pos _), fun i hi => ?_⟩
        rw [show k + 1 + i = k + (i + 1) by omega]
        exact hall (i + 1) (Nat.succ_lt_succ hi)

/-- `init_db` stays in the table, and leaves an entry for each line that represents it. -/
def Loads (cachedbStart : Int) (heap : Nat → Bytes) (rs : List DbRecord) (file : Bytes) : Prop :=
  ∃ db, Loop.Returns (initDbBody cachedbStart heap) (file, noEntries) db ∧
    List.Forall₂ (Represents cachedbStart) rs db.entries

/-- **The table represents the file exactly if** there is room for its lines and the heap
has a zero behind every name.  So whatever the heap holds, only a file without lines is
sure to be represented. -/
theorem loads_iff {rs : List DbRecord} {file : Bytes} (hfile : FileOf rs file) :
    (∀ cachedbStart heap, Loads cachedbStart heap rs file ↔
      rs.length ≤ maxEntries ∧ ∀ i < rs.length, ∀ b ∈ (heap i).head?, b = 0) ∧
    ((∀ cachedbStart heap, Loads cachedbStart heap rs file) ↔ rs = []) := by
  have hloads : ∀ cachedbStart heap, Loads cachedbStart heap rs file ↔
      rs.length ≤ maxEntries ∧ ∀ i < rs.length, ∀ b ∈ (heap i).head?, b = 0 := by
    intro cachedbStart heap
    have hzero : noEntries.entries.length = 0 := rfl
    have hforall := @forall₂_loadFrom_iff cachedbStart heap 0 rs
    simp only [Nat.zero_add] at hforall
    by_cases hroom : rs.length ≤ maxEntries
    · obtain ⟨db, hret, hdb⟩ := @initDb_returns cachedbStart heap rs file hfile noEntries
        (by rwa [hzero, Nat.zero_add])
      rw [← hforall]
      constructor
      · rintro ⟨db', hret', hrep⟩
        rw [hret'.unique hret, hdb] at hrep
        exact ⟨hroom, hrep⟩
      · rintro ⟨-, hrep⟩
        exact ⟨db, hret, by rwa [hdb]⟩
    · refine iff_of_false ?_ fun h => hroom h.1
      rintro ⟨db, hret, -⟩
      exact initDb_not_returns hfile (by rw [hzero]; omega) db hret
  refine ⟨hloads, ?_⟩
  constructor
  · intro hall
    by_contra hne
    have hbyte := ((hloads 0 fun _ => [1]).mp (hall 0 _)).2 0 (List.length_pos_of_ne_nil hne) 1 rfl
    cases hbyte
  · rintro rfl cachedbStart heap
    exact (hloads cachedbStart heap).mpr ⟨Nat.zero_le _, nofun⟩

end Table

/-! ## Any file

What holds of every table without a condition on the file: no word is longer than the
line buffer, and the rdata blocks are as long as they are said to be. -/

section AnyFile

/-- A string in a buffer of `BUFFER_MAX` bytes. -/
def InBuffer (s : Bytes) : Prop := s.length < bufferMax ∧ (0 : UInt8) ∉ s

theorem InBuffer.of_sublist {s t : Bytes} (h : InBuffer s) (hst : t.Sublist s) : InBuffer t :=
  ⟨Nat.lt_of_le_of_lt hst.length_le h.1, fun h0 => h.2 (hst.subset h0)⟩

/-- A word that is read is a token, and the rest is in the buffer. -/
theorem InBuffer.scanString {s w rest : Bytes} (h : InBuffer s)
    (hscan : scanString s = some (w, rest)) : IsToken w ∧ InBuffer rest := by
  obtain ⟨hw, skipped, rfl⟩ := scanString_eq_some hscan
  have hrest : rest.Sublist (skipped ++ (w ++ rest)) :=
    (List.sublist_append_right w rest).trans (List.sublist_append_right skipped _)
  have hword := h.of_sublist
    ((List.sublist_append_left w rest).trans (List.sublist_append_right skipped _))
  refine ⟨⟨hword.1, fun b hb => ⟨fun h0 => hword.2 (h0 ▸ hb), ?_, ?_⟩⟩, h.of_sublist hrest⟩
  · rintro rfl
    exact absurd (hw.2 _ hb) (by decide)
  · intro hspace
    have hno := hw.2 b hb
    simp only [isSpace, Bool.or_eq_false_iff, Bool.and_eq_false_iff, decide_eq_false_iff_not,
      UInt8.le_iff_toNat_le] at hno
    rcases hno.2 with hno | hno
    · exact hno hspace.1
    · exact hno hspace.2

theorem scanLine_ok {line : Bytes} (h : InBuffer line) : (scanLine line).Ok := by
  have hnil : IsToken [] := ⟨by decide, nofun⟩
  have hzero : -2 ^ 31 ≤ (0 : Int) ∧ (0 : Int) < 2 ^ 31 := by decide
  rw [scanLine]
  split
  · exact ⟨hnil, hzero, hnil, hnil, hnil⟩
  next host line₁ hhost =>
  obtain ⟨hhost, hline₁⟩ := h.scanString hhost
  split
  · exact ⟨hhost, hzero, hnil, hnil, hnil⟩
  next t line₂ ht =>
  obtain ⟨hsuffix, ht⟩ := scanInt_eq_some ht
  have hline₂ := hline₁.of_sublist hsuffix.sublist
  split
  · exact ⟨hhost, ht, hnil, hnil, hnil⟩
  next cls line₃ hcls =>
  obtain ⟨hcls, hline₃⟩ := hline₂.scanString hcls
  split
  · exact ⟨hhost, ht, hcls, hnil, hnil⟩
  next type line₄ htype =>
  obtain ⟨htype, hline₄⟩ := hline₃.scanString htype
  split
  · exact ⟨hhost, ht, hcls, htype, hnil⟩
  next data _ hdata => exact ⟨hhost, ht, hcls, htype, (hline₄.scanString hdata).1⟩

theorem Loadable.initDbBody {cachedbStart : Int} {heap : Nat → Bytes} {s s' : Bytes × CacheDb}
    {lines : List (Bytes × DbLine)} (hok : ∀ l ∈ lines, l.2.Ok)
    (hs : s.2.entries = lines.map fun l => loadEntry cachedbStart l.1 l.2)
    (hbody : initDbBody cachedbStart heap s = .next s') :
    ∃ lines' : List (Bytes × DbLine), (∀ l ∈ lines', l.2.Ok) ∧
      s'.2.entries = lines'.map fun l => loadEntry cachedbStart l.1 l.2 := by
  rw [Server.initDbBody] at hbody
  split at hbody
  · cases hbody
  next line file hget =>
  split at hbody
  · cases hbody
  next db hput =>
  cases hbody
  have hline : InBuffer (cstr line) :=
    ⟨Nat.lt_of_le_of_lt (length_cstr_le line) (length_lt_of_fgets (by decide) hget),
      zero_notMem_cstr line⟩
  rw [CacheDb.put] at hput
  obtain ⟨_, hdb⟩ := Option.dite_none_right_eq_some.mp hput
  refine ⟨lines ++ [(heap s.2.entries.length, scanLine (cstr line))], ?_, ?_⟩
  · intro l hl
    rcases List.mem_append.mp hl with hl | hl
    · exact hok l hl
    · rw [List.mem_singleton.mp hl]
      exact scanLine_ok hline
  · rw [← Option.some.inj hdb, List.map_append, ← hs]
    rfl

/-- **Whatever the file**, the table that `init_db` leaves is one of those that the other
results are about. -/
theorem loadable_of_returns {cachedbStart : Int} {heap : Nat → Bytes} {file : Bytes} {db : CacheDb}
    (h : Loop.Returns (initDbBody cachedbStart heap) (file, noEntries) db) : Loadable db := by
  obtain ⟨n, s, hs, hbody⟩ := Loop.returns_iff_walk.mp h
  obtain ⟨lines, hok, hentries⟩ := Loop.walk_invariant (I := fun s : Bytes × CacheDb =>
      ∃ lines : List (Bytes × DbLine), (∀ l ∈ lines, l.2.Ok) ∧
        s.2.entries = lines.map fun l => loadEntry cachedbStart l.1 l.2)
    (fun _ _ ⟨_, hok, hs⟩ hbody => Loadable.initDbBody hok hs hbody) ⟨[], nofun, rfl⟩ hs
  have hdb : s.2 = db := by
    rw [initDbBody] at hbody
    split at hbody
    · cases hbody; rfl
    · split at hbody <;> cases hbody
  exact ⟨cachedbStart, lines, hok, hdb ▸ hentries⟩

end AnyFile

/-! ## Examples -/

/-- `example.com`, as `cachedb-basic.txt` has it. -/
def exampleHost : SpelledName := ⟨exampleCom, ascii "example.com", by decide, by decide⟩

/-- `example.com 30 IN A 192.0.2.1` -/
def exampleRecord : DbRecord where
  host := exampleHost
  ttl := 30
  ttl_lt := by decide
  data := .address 192 0 2 1
  short := by decide

/-- `www.example.com 30 IN CNAME example.com` -/
def wwwRecord : DbRecord where
  host := ⟨wwwExampleCom, ascii "www.example.com", by decide, by decide⟩
  ttl := 30
  ttl_lt := by decide
  data := .target exampleHost
  short := by decide

theorem loads_exampleFile :
    FileOf [wwwRecord, exampleRecord] (wwwRecord.line ++ newline :: exampleRecord.line) ∧
      Loads 0 (fun _ => [0]) [wwwRecord, exampleRecord]
        (wwwRecord.line ++ newline :: exampleRecord.line) :=
  ⟨.cons _ (.last _), ((loads_iff (.cons _ (.last _))).1 0 _).mpr
    ⟨by decide, fun _ _ _ hb => (Option.some.inj hb).symm⟩⟩

/-- A host of as many bytes as a block of the heap has. -/
def blockHost : SpelledName where
  name := ⟨[ascii "abcdefghijklmnopqrst", ascii "com"], by decide⟩
  text := ascii "abcdefghijklmnopqrst.com"
  spells := by decide
  noSpace := by decide

/-- `abcdefghijklmnopqrst.com 30 IN A 192.0.2.1` -/
def blockRecord : DbRecord := { exampleRecord with host := blockHost, short := by decide }

/-- Behind its block comes the size of the next one, 33, and the name ends in `!`. -/
theorem blockRecord_not_loaded : ¬ ∀ (cachedbStart : Int) (heap : Nat → Bytes)
    (rs : List DbRecord) (file : Bytes), FileOf rs file → Loads cachedbStart heap rs file := by
  intro hall
  have hfile : FileOf [blockRecord] blockRecord.line := .last blockRecord
  have hroom : noEntries.entries.length + [blockRecord].length ≤ maxEntries := by decide
  obtain ⟨db, hret, hrep⟩ := hall 0 (fun _ => [33, 0, 0, 0, 0, 0, 0, 0]) _ _ hfile
  obtain ⟨db', hret', hdb'⟩ := initDb_returns hfile hroom
  rw [hret.unique hret', hdb'] at hrep
  obtain ⟨hentry, -⟩ := List.forall₂_cons.mp hrep
  exact absurd ((represents_iff 0 _ blockRecord).mp hentry 33 rfl) (by decide)

end InternetLabs.Dns.Server
