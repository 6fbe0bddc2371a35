import Netcode.Encoder
import Netcode.DetailDecoder

/-! The packets of one encoder on their way to one decoder, which may be lost, repeated and
reordered. -/
namespace Netcode

variable {w : FieldSize}

/-- What a decoder reads from the bytes of a packet. -/
def WirePacket.incoming (b : Build) : WirePacket → Except Stop Detail.Incoming
  | .ack _ => .error (.thrown .packetTypeError)
  | .repair r => (readRepair b (repairBytes r)).map fun p => .repair p.1
  | .source s => (readSource b (writeSource s)).map fun p => .source p.1

/-- The packets of an encoder that reach the decoder, by their positions in what was sent. -/
def arrivals (b : Build) (sent : List WirePacket) (order : List ℕ) : List Detail.Incoming :=
  order.filterMap fun k => sent[k]?.bind fun p => (p.incoming b).toOption

/-- The packets an encoder sent when its user made calls, unless one of them did not return. -/
def packets (b : Build) (g : GfComplete w) (cs : List Encoder.Call) : List WirePacket :=
  match Encoder.run b g cs with
  | .ok e => e.sent
  | .error _ => []

/-- What a decoder becomes when it is given packets of one encoder. -/
def deliver (b : Build) (g : GfComplete w) (inOrder : Bool) (cs : List Encoder.Call)
    (order : List ℕ) : Except Fault (Detail.Decoder w) :=
  (arrivals b (packets b g cs) order).foldlM (Detail.Decoder.receive b g)
    (Detail.Decoder.initial inOrder)

/-- A repair of sources 0 and 1. -/
def pairCalls : List Encoder.Call := [.data [1], .data [2], .generateRepair]

/-- A repair of source 0, then one of sources 0 and 1, then one of sources 0 to 2. -/
def growingCalls : List Encoder.Call :=
  [.data [1], .generateRepair, .data [2], .generateRepair, .data [3], .generateRepair]

/-- A repair of sources 0 and 1, then one of sources 1 and 2. -/
def slidingCalls : List Encoder.Call :=
  [.data [1], .data [2], .generateRepair, .setWindowSize 2, .data [3], .generateRepair]

/-- A repair of sources 0 and 1, then one of sources 0 to 3. -/
def nestedCalls : List Encoder.Call :=
  [.data [1], .data [2], .generateRepair, .data [3], .data [4], .generateRepair]

end Netcode
