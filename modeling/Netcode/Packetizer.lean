import Netcode.Fault
import Netcode.Packets

/-! packetizer.hh and packet_type.hh: packets as bytes. -/
namespace Netcode

open Containers Encodings

/-- Possible packet types. -/
inductive PacketType
  | ack
  | repair
  | source
deriving DecidableEq, Repr

def PacketType.code : PacketType → Byte
  | ack => 0
  | repair => 1
  | source => 2

/-- The type of a raw packet, by its first byte. -/
def getPacketType : List Byte → Except Stop PacketType
  | [] => .error (.fault (.undefined .outOfBuffer))
  | ty :: _ =>
    if ty = PacketType.ack.code then .ok .ack
    else if ty = PacketType.repair.code then .ok .repair
    else if ty = PacketType.source.code then .ok .source
    else .error (.thrown .packetTypeError)

/-- The pairs of a list of identifiers: run lengths of adjacent differences, which are narrowed
to 16 bits after they have been compared. -/
def rleBuffer (first : ℕ) (rest : List ℕ) : List (ℕ × ℕ) :=
  (runs 255 (differencesFrom (2 ^ 32) first rest)).map fun p => (p.1, p.2 % 2 ^ 16)

def writePair (p : ℕ × ℕ) : List Byte := bigEndian 1 p.1 ++ bigEndian 2 p.2

/-- Serialize a list of source identifiers. -/
def writeIds (ids : SourceIdList) : List Byte :=
  match ids.toList with
  | [] => bigEndian 2 0
  | first :: rest =>
    bigEndian 2 ((rleBuffer first rest).length + 1) ++ (bigEndian 4 first ++
      (rleBuffer first rest).flatMap writePair)

def writeAck (a : Ack) : List Byte :=
  PacketType.ack.code :: (bigEndian 2 a.nbPackets ++ writeIds a.sourceIds)

/-- The bytes of a repair; the symbol and its size are written twice. -/
def repairBytes (r : EncoderRepair) : List Byte :=
  PacketType.repair.code :: (bigEndian 4 r.id ++ (bigEndian 2 r.symbol.length ++ (r.symbol ++
    (writeIds r.sourceIds ++ (bigEndian 2 r.encodedSize.toNat ++
    (bigEndian 2 r.symbol.length ++ r.symbol))))))

def writeRepair (b : Build) (r : EncoderRepair) : Except Fault (List Byte) := do
  b.assert .emptyRepairSymbol (0 < r.symbol.length)
  .ok (repairBytes r)

def writeSource (s : EncoderSource) : List Byte :=
  PacketType.source.code :: (bigEndian 4 s.id ++ (bigEndian 2 s.symbol.length ++ s.symbol))

/-- Where a reader stands: what follows `data` in the packet, and the length left to prevent an
overrun. -/
structure Reader where
  data : List Byte
  maxLen : ℕ

/-- A reader at the beginning of a packet. -/
def Reader.start (p : List Byte) : Reader := ⟨p, p.length⟩

/-- Read an integer of `n` bytes. -/
def Reader.read (n : ℕ) (r : Reader) : Except Stop (ℕ × Reader) :=
  if r.maxLen < n then .error (.thrown .overflowError)
  else if r.data.length < n then .error (.fault (.undefined .outOfBuffer))
  else .ok (ofBigEndian (r.data.take n), ⟨r.data.drop n, r.maxLen - n⟩)

/-- Skip a symbol. -/
def Reader.skip (n : ℕ) (r : Reader) : Except Stop Reader :=
  if r.maxLen < n then .error (.thrown .overflowError)
  else .ok ⟨r.data.drop n, r.maxLen - n⟩

/-- Reverse the run-length code on the fly. -/
def readDifferences : ℕ → Reader → Except Stop (List ℕ × Reader)
  | 0, r => .ok ([], r)
  | n + 1, r => do
    let (runLength, r) ← r.read 1
    let (value, r) ← r.read 2
    let (ds, r) ← readDifferences n r
    .ok (List.replicate runLength value ++ ds, r)

/-- The set of the elements of a list, inserted one by one. -/
def idsOfList (l : List ℕ) : SourceIdList := l.foldl FlatSet.insert FlatSet.empty

/-- Deserialize a list of source identifiers. -/
def readIds (r : Reader) : Except Stop (SourceIdList × Reader) := do
  let (nbElements, r) ← r.read 2
  if nbElements = 0 then
    .ok (FlatSet.empty, r)
  else
    let (first, r) ← r.read 4
    let (ds, r) ← readDifferences (nbElements - 1) r
    .ok (idsOfList (first :: sumsFrom (2 ^ 32) first ds), r)

/-- The packet type should have been verified by the caller. -/
def assertPacketType (b : Build) (p : List Byte) (ty : PacketType) : Except Stop Unit :=
  match getPacketType p with
  | .ok ty' => (b.assert .wrongPacketType (ty' = ty)).mapError .fault
  | .error e => if b.asserts then .error e else .ok ()

/-- Read an acknowledgement and the number of bytes it takes. -/
def readAck (b : Build) (p : List Byte) : Except Stop (Ack × ℕ) := do
  assertPacketType b p .ack
  let (_, r) ← (Reader.start p).read 1
  let (nbPackets, r) ← r.read 2
  let (ids, r) ← readIds r
  .ok (⟨ids, nbPackets⟩, p.length - r.data.length)

/-- Read a repair and the number of bytes read. -/
def readRepair (b : Build) (p : List Byte) : Except Stop (DecoderRepair × ℕ) := do
  assertPacketType b p .repair
  let (_, r) ← (Reader.start p).read 1
  let (id, r) ← r.read 4
  let (symbolSize, r) ← r.read 2
  let r ← r.skip symbolSize
  let (ids, r) ← readIds r
  let (encodedSize, r) ← r.read 2
  .ok (⟨id, ids, BitVec.ofNat 16 encodedSize, p.drop 7, symbolSize⟩, p.length - r.data.length)

/-- Read a source and the number of bytes it takes. -/
def readSource (b : Build) (p : List Byte) : Except Stop (DecoderSource × ℕ) := do
  assertPacketType b p .source
  let (_, r) ← (Reader.start p).read 1
  let (id, r) ← r.read 4
  let (symbolSize, r) ← r.read 2
  let r ← r.skip symbolSize
  .ok (⟨id, p.drop 7, symbolSize⟩, p.length - r.data.length)

/-- What the two sides hand to their packet handlers. -/
inductive WirePacket
  | ack (a : Ack)
  | repair (r : EncoderRepair)
  | source (s : EncoderSource)
deriving DecidableEq

/-- The bytes the packet handler receives. -/
def WirePacket.bytes : WirePacket → List Byte
  | ack a => writeAck a
  | repair r => repairBytes r
  | source s => writeSource s

/-- The number of bytes the reader of a packet reports, from the bytes written for it. -/
def WirePacket.bytesRead (b : Build) : WirePacket → Except Stop ℕ
  | ack a => (readAck b (writeAck a)).map Prod.snd
  | repair r => (readRepair b (repairBytes r)).map Prod.snd
  | source s => (readSource b (writeSource s)).map Prod.snd

end Netcode
