import Netcode.Packetizer
import Netcode.GaloisField

/-! detail/encoder.cc, detail/source_list.hh and encoder.hh: the sender side. -/
namespace Netcode

open Containers Encodings

variable {w : FieldSize}

namespace Detail.Encoder

/-- Resize a buffer whose new bytes are 0. -/
def resize (symbol : List Byte) (n : ℕ) : List Byte :=
  symbol.take n ++ List.replicate (n - symbol.length) 0#8

/-- Multiply and add a source that is not the first one. -/
def addSource (g : GfComplete w) (repair : EncoderRepair) (src : EncoderSource) :
    Except Fault EncoderRepair := do
  let symbol := if repair.symbol.length < src.size then resize repair.symbol src.size
    else repair.symbol
  let c := coefficient w repair.id src.id
  let symbol ← multiplyAdd g src.symbol symbol src.size c
  .ok { repair with
    sourceIds := repair.sourceIds.insert src.id
    symbol := symbol
    encodedSize := multiplySize g (BitVec.ofNat 16 src.size) c ^^^ repair.encodedSize }

/-- Fill a repair from a list of sources. -/
def encode (b : Build) (g : GfComplete w) (repair : EncoderRepair) (sources : List EncoderSource) :
    Except Fault EncoderRepair := do
  b.assert .emptySourceList (!sources.isEmpty)
  match sources with
  | [] => .error (.undefined .emptyList)
  | src :: sources => do
    let c := coefficient w repair.id src.id
    let symbol ← multiply g src.symbol (resize repair.symbol src.size) src.size c
    sources.foldlM (addSource g) { repair with
      sourceIds := repair.sourceIds.insert src.id
      symbol := symbol
      encodedSize := multiplySize g (BitVec.ofNat 16 src.size) c }

end Detail.Encoder

/-- Remove sources from a list by their identifiers, both sorted. -/
def eraseSources : List EncoderSource → List ℕ → List EncoderSource
  | [], _ => []
  | sources, [] => sources
  | src :: sources, id :: ids =>
    if src.id = id then eraseSources sources ids
    else if id < src.id then eraseSources (src :: sources) ids
    else src :: eraseSources sources (id :: ids)
termination_by sources ids => sources.length + ids.length

structure Encoder where
  systematic : Bool
  rate : ℕ
  windowSize : ℕ
  adaptive : Bool
  currentSourceId : ℕ
  currentRepairId : ℕ
  sources : List EncoderSource
  repair : EncoderRepair
  nbSentRepairs : ℕ
  nbAcks : ℕ
  nbSentSources : ℕ
  nbSentPackets : ℕ
  /-- What the packetizer gave to the packet handler. -/
  sent : List WirePacket

namespace Encoder

variable (b : Build) (g : GfComplete w)

def initial : Encoder where
  systematic := true
  rate := 5
  windowSize := 2 ^ 64 - 1
  adaptive := false
  currentSourceId := 0
  currentRepairId := 0
  sources := []
  repair := ⟨0, FlatSet.empty, 0#16, []⟩
  nbSentRepairs := 0
  nbAcks := 0
  nbSentSources := 0
  nbSentPackets := 0
  sent := []

/-- Create the repair packet from the list of sources. -/
def mkRepair (e : Encoder) : Except Fault Encoder := do
  b.assert .emptySourceList (!e.sources.isEmpty)
  let repair ← Detail.Encoder.encode b g { e.repair with id := e.currentRepairId } e.sources
  .ok { e with
    repair := repair
    currentRepairId := (e.currentRepairId + 1) % 2 ^ 32
    nbSentRepairs := e.nbSentRepairs + 1 }

/-- Force the generation of a repair. -/
def generateRepair (e : Encoder) : Except Fault Encoder := do
  let e ← mkRepair b g { e with repair := { e.repair with sourceIds := FlatSet.empty, symbol := [] } }
  b.assert .emptyRepairSymbol (0 < e.repair.symbol.length)
  .ok { e with
    nbSentPackets := (e.nbSentPackets + 1) % 2 ^ 16
    sent := e.sent ++ [.repair e.repair] }

/-- Drop the first source of a full window. -/
def evict (e : Encoder) : Except Fault Encoder :=
  if e.sources.length = e.windowSize then
    match e.sources with
    | [] => .error (.undefined .emptyList)
    | _ :: sources => .ok { e with sources := sources }
  else .ok e

/-- Send a new source, or a repair when the code is not systematic. -/
def sendSource (src : EncoderSource) (e : Encoder) : Except Fault Encoder :=
  if e.systematic then .ok { e with
      nbSentSources := e.nbSentSources + 1
      nbSentPackets := (e.nbSentPackets + 1) % 2 ^ 16
      sent := e.sent ++ [.source src] }
  else generateRepair b g e

/-- Generate a repair every `rate` sources. -/
def repairIfNeeded (e : Encoder) : Except Fault Encoder :=
  if e.rate = 0 then .error (.undefined .divisionByZero)
  else if (e.currentSourceId + 1) % 2 ^ 32 % e.rate = 0 then generateRepair b g e
  else .ok e

/-- Create a source from the given data and generate a repair if needed. -/
def commit (d : List Byte) (e : Encoder) : Except Fault Encoder := do
  let e ← e.evict
  let src : EncoderSource := ⟨e.currentSourceId, d⟩
  let e ← sendSource b g src { e with sources := e.sources ++ [src] }
  let e ← repairIfNeeded b g e
  .ok { e with currentSourceId := (e.currentSourceId + 1) % 2 ^ 32 }

/-- Give the encoder a new data. -/
def data (d : List Byte) (e : Encoder) : Except Fault Encoder := do
  b.assert .emptyData (0 < d.length)
  b.assert .partialData (decide (w.wordBytes ∣ d.length))
  commit b g d e

/-- The code rate needed for a given loss rate, in exact arithmetic. -/
def rateForLoss (loss : ℚ) : ℕ := if loss < 1 / 100 then 50 else ⌈1 / loss / 2⌉₊

/-- The rate after an acknowledgement of `nbPackets` packets. -/
def adaptRate (nbPackets : ℕ) (e : Encoder) : ℕ :=
  if e.adaptive then
    if 0 < e.nbSentPackets then
      rateForLoss (((e.nbSentPackets : ℚ) - (nbPackets : ℚ)) / (e.nbSentPackets : ℚ))
    else rateForLoss 0
  else e.rate

/-- What an acknowledgement changes. -/
def notifyAck (a : Ack) (e : Encoder) : Encoder :=
  { e with
    rate := e.adaptRate a.nbPackets
    nbSentPackets := 0
    sources := eraseSources e.sources a.sourceIds.toList }

/-- Notify the encoder of an incoming packet: its new state, with the number of bytes read or the
exception thrown. -/
def notify (p : List Byte) (e : Encoder) : Except Fault (Encoder × Except Exception ℕ) := do
  b.assert .emptyPacket (!p.isEmpty)
  match getPacketType p with
  | .error (.fault f) => .error f
  | .error (.thrown x) => .ok (e, .error x)
  | .ok .ack =>
    let e := { e with nbAcks := e.nbAcks + 1 }
    match readAck b p with
    | .error (.fault f) => .error f
    | .error (.thrown x) => .ok (e, .error x)
    | .ok (a, n) => .ok (e.notifyAck a, .ok n)
  | .ok _ => .ok (e, .error .packetTypeError)

/-- What the user of an encoder calls. -/
inductive Call
  | data (d : List Byte)
  | packet (p : List Byte)
  | generateRepair
  | setRate (rate : ℕ)
  | setWindowSize (sz : ℕ)
  | setCodeType (systematic : Bool)
  | setAdaptive (adaptive : Bool)
deriving DecidableEq

/-- The state after a call; one that throws has been caught by the user. -/
def call (e : Encoder) : Call → Except Fault Encoder
  | .data d => data b g d e
  | .packet p => (notify b p e).map Prod.fst
  | .generateRepair => generateRepair b g e
  | .setRate rate => do
    b.assert .zeroParameter (0 < rate)
    .ok { e with rate := rate }
  | .setWindowSize sz => do
    b.assert .zeroParameter (0 < sz)
    .ok { e with windowSize := sz }
  | .setCodeType systematic => .ok { e with systematic := systematic }
  | .setAdaptive adaptive => .ok { e with adaptive := adaptive }

/-- The state after calls. -/
def run (cs : List Call) : Except Fault Encoder := cs.foldlM (call b g) initial

/-- The data given by calls, in order. -/
def committed (cs : List Call) : List (List Byte) :=
  cs.filterMap fun
    | .data d => some d
    | _ => none

end Encoder

end Netcode
