import LearnSpace.Keel.Reads
import LearnSpace.KvStore.Frame

/-!
# Messages of the resolver

`DNSServe` writes a header and a question, and reads the header and the answer records of what
comes back. A `short` has its low byte first in memory, so `htons` and `ntohs` swap bytes. The
encoders convert the fields of their own object in place, which is why they return it too.

The decoders get a bare pointer. They are computations that read memory, `ch` is a position in
it, and a position outside is an out-of-bounds read (`Reads.run`).
-/

namespace LearnSpace.Dns

open Keel KvStore

/-! ## Numbers in memory -/

/-- The two bytes of a `short`. -/
def shortBytes (v : Int16) : List Byte :=
  [UInt8.ofNat v.toUInt16.toNat, UInt8.ofNat (v.toUInt16.toNat / 256)]

/-- The `short` of two bytes. -/
def shortOf (lo hi : Byte) : Int16 := (UInt16.ofNat (lo.toNat + 256 * hi.toNat)).toInt16

/-- `htons` on a little-endian host. -/
def htons (v : Int16) : Int16 :=
  (UInt16.ofNat (v.toUInt16.toNat / 256 + 256 * (v.toUInt16.toNat % 256))).toInt16

def ntohs (v : Int16) : Int16 := htons v

/-- The `int` of four bytes. -/
def intOf (b₀ b₁ b₂ b₃ : Byte) : UInt32 :=
  UInt32.ofNat (b₀.toNat + 256 * b₁.toNat + 65536 * b₂.toNat + 16777216 * b₃.toNat)

/-- `ntohl` on a little-endian host. -/
def ntohl (v : UInt32) : UInt32 :=
  intOf (UInt8.ofNat (v.toNat / 16777216)) (UInt8.ofNat (v.toNat / 65536))
    (UInt8.ofNat (v.toNat / 256)) (UInt8.ofNat v.toNat)

/-- `*reinterpret_cast<const short*>(&ch[pos])`. -/
def shortAt (pos : Int) : Reads Byte Int16 := do
  let lo ← Reads.get pos
  let hi ← Reads.get (pos + 1)
  return shortOf lo hi

/-- `*reinterpret_cast<const int*>(&ch[pos])`. -/
def intAt (pos : Int) : Reads Byte UInt32 := do
  let b₀ ← Reads.get pos
  let b₁ ← Reads.get (pos + 1)
  let b₂ ← Reads.get (pos + 2)
  let b₃ ← Reads.get (pos + 3)
  return intOf b₀ b₁ b₂ b₃

/-- The text of an address. -/
def dottedQuad (b₀ b₁ b₂ b₃ : Byte) : List Byte :=
  decimal b₀.toNat ++ [46] ++ decimal b₁.toNat ++ [46] ++ decimal b₂.toNat ++ [46] ++
    decimal b₃.toNat

/-- `inet_ntop(AF_INET, &ch[pos], …)`. -/
def inet_ntop (pos : Int) : Reads Byte (List Byte) := do
  let b₀ ← Reads.get pos
  let b₁ ← Reads.get (pos + 1)
  let b₂ ← Reads.get (pos + 2)
  let b₃ ← Reads.get (pos + 3)
  return dottedQuad b₀ b₁ b₂ b₃

/-! ## The header -/

structure Header where
  id : Int16 := 0
  flags : Int16 := 0
  qdcount : Int16 := 0
  ancount : Int16 := 0
  nscount : Int16 := 0
  arcount : Int16 := 0
  deriving DecidableEq

/-- `getHeaderStr`: the bytes, and the header with its fields converted. -/
def Header.getHeaderStr (header : Header) : List Byte × Header :=
  let header : Header :=
    { id := htons header.id
      flags := htons header.flags
      qdcount := htons header.qdcount
      ancount := htons header.ancount
      nscount := htons header.nscount
      arcount := htons header.arcount }
  (shortBytes header.id ++ shortBytes header.flags ++ shortBytes header.qdcount ++
    shortBytes header.ancount ++ shortBytes header.nscount ++ shortBytes header.arcount, header)

def Header.getHeaderFromChar (ch : Int) : Reads Byte Header := do
  let id ← shortAt ch
  let flags ← shortAt (ch + 2)
  let qdcount ← shortAt (ch + 4)
  let ancount ← shortAt (ch + 6)
  let nscount ← shortAt (ch + 8)
  let arcount ← shortAt (ch + 10)
  return {
    id := ntohs id
    flags := ntohs flags
    qdcount := ntohs qdcount
    ancount := ntohs ancount
    nscount := ntohs nscount
    arcount := ntohs arcount }

/-! ## The question -/

structure Question where
  qname : List Byte
  qtype : Int16 := 0
  qclass : Int16 := 0
  deriving DecidableEq

namespace Question

/-- `qname.substr(pos, len)`. -/
def substr (qname : List Byte) (pos len : Nat) : List Byte := (qname.drop pos).take len

/-- The state of the first loop: where the part it is in starts, and the parts before it. -/
structure Split where
  pos : Nat := 0
  nameVec : List (List Byte) := []
  deriving DecidableEq

/-- One iteration of the first loop. -/
def splitAt (qname : List Byte) (s : Split) (i : Nat) : Split :=
  if qname[i]? = some 46 then
    { pos := i + 1, nameVec := s.nameVec ++ [substr qname s.pos (i - s.pos)] }
  else s

/-- The parts of the name, as the first loop and the statement behind it leave them. -/
def nameVec (qname : List Byte) : List (List Byte) :=
  let s := (List.range qname.length).foldl (splitAt qname) {}
  s.nameVec ++ [substr qname s.pos (qname.length - s.pos)]

/-- What the second loop appends for a part. -/
def label (str : List Byte) : List Byte := UInt8.ofNat str.length :: str

/-- `getQuestionStr`: the bytes, and the question with its fields converted. The position is an
`int` in the source and has no bound here, so this is about names of less than `2 ^ 31` bytes. -/
def getQuestionStr (question : Question) : List Byte × Question :=
  let ret := (nameVec question.qname).flatMap label ++ [0]
  let question := { question with
    qtype := htons question.qtype
    qclass := htons question.qclass }
  (ret ++ shortBytes question.qtype ++ shortBytes question.qclass, question)

end Question

/-! ## The answers -/

structure Answer where
  name : List Byte := []
  type : Int16 := 0
  aclass : Int16 := 0
  ttl : UInt32 := 0
  rdataLen : Int16 := 0
  rdata : List Byte := []
  deriving DecidableEq

/-- What an iteration of `getAnswerFromChar` does: the answer, and the values of `offset` at its
start, at the data of the record, and at its end. -/
structure Round where
  start : Int
  data : Int
  next : Int
  answer : Answer
  deriving DecidableEq

namespace Answer

/-- `offset` behind the name. The test is of the first byte of the section, in every iteration,
and a name that is not a pointer is not skipped. -/
def skipName (ch offset : Int) : Reads Byte Int := do
  let first ← Reads.get ch
  if first &&& 0xc0 = 0xc0 then do
    let _pointer ← shortAt ch
    return offset + 2
  else return offset

/-- One iteration. -/
def round (ch start : Int) : Reads Byte Round := do
  let offset ← skipName ch start
  let type ← shortAt (ch + offset)
  let aclass ← shortAt (ch + (offset + 2))
  let ttl ← intAt (ch + (offset + 4))
  let rdataLen ← shortAt (ch + (offset + 8))
  let rdata ← inet_ntop (ch + (offset + 10))
  return {
    start := start
    data := offset + 10
    next := offset + 10 + (ntohs rdataLen).toInt
    answer := {
      type := ntohs type
      aclass := ntohs aclass
      ttl := ntohl ttl
      rdataLen := ntohs rdataLen
      rdata := rdata } }

/-- The loop, from an `offset`. There are at most 32767 iterations, none of which moves it by as
much as 32780, so it does not overflow an `int`. -/
def rounds (ch : Int) : Nat → Int → Reads Byte (List Round)
  | 0, _ => return []
  | count + 1, offset => do
      let r ← round ch offset
      let rs ← rounds ch count r.next
      return r :: rs

def getAnswerFromChar (ch count : Int) : Reads Byte (List Answer) := do
  let rs ← rounds ch count.toNat 0
  return rs.map Round.answer

end Answer

/-! ## The query -/

/-- What `recv` puts into the array of 10240 bytes. -/
structure Datagram where
  bytes : List Byte
  fits : bytes.length ≤ 10240

/-- `reMsg` after `recv`; it was zero before. -/
def Datagram.reMsg (d : Datagram) : List Byte :=
  d.bytes ++ List.replicate (10240 - d.bytes.length) 0

def Datagram.recvSize (d : Datagram) : Nat := d.bytes.length

/-- `msg`. -/
def msg (domainName : List Byte) (id : Int16) : List Byte :=
  let header : Header := { id := id, flags := 0x0100, qdcount := 1 }
  let question : Question := { qname := domainName, qtype := 1, qclass := 1 }
  header.getHeaderStr.1 ++ question.getQuestionStr.1

/-- The test for a reply that is not the one asked for. -/
def Header.Foreign (reHeader : Header) (id : Int16) : Prop :=
  reHeader.id ≠ id ∧ reHeader.flags ≠ 0x0101

instance (reHeader : Header) (id : Int16) : Decidable (reHeader.Foreign id) :=
  inferInstanceAs (Decidable (_ ∧ _))

/-- How `query` reads the reply, `msgSize` being `msg.size()`. -/
def decodeReply (id : Int16) (msgSize : Nat) : Reads Byte (List Answer) := do
  let reHeader ← Header.getHeaderFromChar 0
  if reHeader.Foreign id then return []
  else Answer.getAnswerFromChar msgSize reHeader.ancount.toInt

structure Ret where
  vaild : Bool := false
  ip : List Byte
  deriving DecidableEq

/-- `query`, with the id it drew and what it received; `none` for the latter when there is no
socket. The result is `none` when it reads outside `reMsg`. -/
def query (domainName : List Byte) (id : Int16) : Option Datagram → Option (List Ret)
  | none => some []
  | some d => do
      let answerVec ← (decodeReply id (msg domainName id).length).run d.reMsg
      return answerVec.map fun var => { vaild := true, ip := var.rdata }

end LearnSpace.Dns
