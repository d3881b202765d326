import PktKit.Foundations.Octets
import PktKit.Packet

/-! # DNS queries and responses

The query builder and the response parser. Names are kept as their wire form with the letters in lower case, as the
parser compares them.
-/

namespace PktKit.Dns
open Foundations

abbrev Bytes := List UInt8

inductive RecordType
  | a
  | aaaa

def RecordType.qtype : RecordType → ℕ
  | .a => 1
  | .aaaa => 28

inductive IpAddr
  | v4 (octets : Bytes)
  | v6 (octets : Bytes)

/-! ## Queries -/

/-- A label with its length, unless it is empty or too long. -/
def encodeLabel (part : Bytes) : Option Bytes :=
  if part = [] ∨ 63 < part.length then none else some (UInt8.ofNat part.length :: part)

/-- The labels of a name. One trailing dot, marking it as absolute, is allowed. -/
def labels (name : Bytes) : List Bytes :=
  let name := if name.getLast? = some 46 then name.dropLast else name
  if name = [] then [] else name.splitOn 46

def encodeName (name : Bytes) : Option Bytes :=
  ((labels name).mapM encodeLabel).bind fun parts =>
    let buf := parts.flatten ++ [0]
    if buf.length ≤ 255 then some buf else none

def buildQuery (id : BitVec 16) (name : Bytes) (rtype : RecordType) : Option Bytes :=
  (encodeName name).map fun qname =>
    be16Bytes id.toNat ++ [1, 0] ++ be16Bytes 1 ++ be16Bytes 0 ++ be16Bytes 0 ++ be16Bytes 0 ++ qname ++
      be16Bytes rtype.qtype ++ be16Bytes 1

/-! ## Names in a message -/

def TYPE_CNAME : ℕ := 5
def CLASS_IN : ℕ := 1
def MAX_CNAME_HOPS : ℕ := 16
def MAX_POINTER_HOPS : ℕ := 128

def toAsciiLowercase (b : UInt8) : UInt8 := if 65 ≤ b ∧ b ≤ 90 then b + 32 else b

def pointerTarget (hi lo : UInt8) : ℕ := (hi &&& 0x3F).toNat * 256 + lo.toNat

/-- Read on with the name at `off`: `limit` is what the next pointer must point before, `stop` where the name ends where it
sits, once a pointer was followed. -/
def readNameFrom (data : Bytes) (limit hops : ℕ) (stop : Option ℕ) (name : Bytes) (off : ℕ) : Option (Bytes × ℕ) :=
  match data[off]? with
  | none => none
  | some l =>
    if l &&& 0xC0 = 0 then
      if l = 0 then some (name ++ [0], stop.getD (off + 1))
      else if _hl : data.length < off + 1 + l.toNat then none
      -- With the root label still to come.
      else if 255 < name.length + 1 + l.toNat + 1 then none
      else readNameFrom data limit hops stop
        (name ++ l :: (slice data (off + 1) (off + 1 + l.toNat)).map toAsciiLowercase) (off + 1 + l.toNat)
    else if l &&& 0xC0 = 0xC0 then
      match data[off + 1]? with
      | none => none
      | some lo =>
        if _ht : limit ≤ pointerTarget l lo ∨ MAX_POINTER_HOPS < hops + 1 then none
        else readNameFrom data (pointerTarget l lo) (hops + 1) (some (stop.getD (off + 2)))
          name (pointerTarget l lo)
    else none
termination_by (limit, data.length - off)
decreasing_by
  · apply Prod.Lex.right
    omega
  · apply Prod.Lex.left
    omega

/-- The name at `off` and the offset just past it where it sits. -/
def readName (data : Bytes) (off : ℕ) : Option (Bytes × ℕ) := readNameFrom data off 0 none [] off

/-! ## Responses -/

/-- Whether a response repeats the question: one question, same name but for case, same type and class. -/
def questionMatches (response query : Bytes) : Bool :=
  if response.length < 12 ∨ query.length < 12 ∨ slice response 4 6 ≠ [0, 1] then false
  else
    match readName query 12 with
    | none => false
    | some (_, nameEnd) =>
      if response.length < query.length then false
      else
        let r := slice response 12 query.length
        let q := query.drop 12
        let nameLen := nameEnd - 12
        decide ((r.take nameLen).map toAsciiLowercase = (q.take nameLen).map toAsciiLowercase) &&
          decide (r.drop nameLen = q.drop nameLen)

/-- An answer record: its owner, type, class and the range of its data. -/
structure Rr where
  owner : Bytes
  rtype : ℕ
  cls : ℕ
  start : ℕ
  stop : ℕ

def readRecord (data : Bytes) (off : ℕ) : Except String Rr :=
  match readName data off with
  | none => .error "malformed answer"
  | some (owner, o) =>
    if data.length < o + 10 then .error "truncated answer"
    else if data.length < o + 10 + Packet.be16 data (o + 8) then .error "truncated answer"
    else .ok ⟨owner, Packet.be16 data o, Packet.be16 data (o + 2), o + 10, o + 10 + Packet.be16 data (o + 8)⟩

/-- The CLASS IN records among the next so many. -/
def readRecords (data : Bytes) : ℕ → ℕ → Except String (List Rr)
  | 0, _ => .ok []
  | n + 1, off =>
    (readRecord data off).bind fun rr => (readRecords data n rr.stop).map fun rest =>
      if rr.cls = CLASS_IN then rr :: rest else rest

/-- The names the answer is for: those so far, and each one a CNAME leads to from the last, in turn. -/
def followNames (data : Bytes) (records : List Rr) (names : List Bytes) : Except String (List Bytes) :=
  if _hn : MAX_CNAME_HOPS < names.length then .ok names
  else
    match names.getLast? with
    | none => .error "never empty"
    | some last =>
      match records.find? fun r => decide (r.rtype = TYPE_CNAME ∧ r.owner = last) with
      | none => .ok names
      | some r =>
        match readName data r.start with
        | none => .error "malformed CNAME"
        | some (target, stop) =>
          if stop ≠ r.stop then .error "malformed CNAME"
          else if target ∈ names then .ok names
          else followNames data records (names ++ [target])
termination_by MAX_CNAME_HOPS + 1 - names.length
decreasing_by
  rw [List.length_append, List.length_singleton]
  omega

def Rr.address (data : Bytes) (r : Rr) : Option IpAddr :=
  let rdata := slice data r.start r.stop
  if r.rtype = 1 ∧ rdata.length = 4 then some (.v4 rdata)
  else if r.rtype = 28 ∧ rdata.length = 16 then some (.v6 rdata)
  else none

/-- The answers of a response to a query whose question was found in it. -/
def readAnswers (data query : Bytes) : Except String (List IpAddr) :=
  match readName query 12 with
  | none => .error "malformed query"
  | some (qname, qend) =>
    if query.length < qend + 2 then .error "malformed query"
    else
      let qtype := Packet.be16 query qend
      (readRecords data (Packet.be16 data 6) (qend + 4)).bind fun records =>
        (followNames data records [qname]).map fun names =>
          (records.filter fun r => decide (r.rtype = qtype ∧ r.owner ∈ names)).filterMap (Rr.address data)

def parseResponse (data query : Bytes) : Except String (List IpAddr) :=
  if data.length < 12 then .error "response too short"
  else if query.length < 12 ∨ data.take 2 ≠ query.take 2 then .error "transaction ID mismatch"
  else if Packet.be16 data 2 < 0x8000 then .error "not a response"
  else if questionMatches data query = false then .error "answer to another question"
  else if Packet.be16 data 2 % 16 ≠ 0 then .error "DNS error rcode"
  else readAnswers data query

end PktKit.Dns
