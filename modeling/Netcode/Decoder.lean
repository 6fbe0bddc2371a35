import Netcode.DetailDecoder
import Netcode.Packetizer

/-! decoder.hh: the receiver side, which reads packets and acknowledges sources. -/
namespace Netcode

open Containers Encodings

variable {w : FieldSize}

/-- An acknowledgement given to the packet handler, and the identifiers in the decoder's sources
when it was generated. -/
structure SentAck where
  ack : Ack
  held : List ℕ
deriving DecidableEq

structure Decoder (w : FieldSize) where
  /-- In milliseconds. -/
  ackFrequency : ℕ
  ackNbPackets : ℕ
  /-- In nanoseconds. -/
  lastAckDate : ℤ
  ack : Ack
  decoder : Detail.Decoder w
  nbReceivedRepairs : ℕ
  nbReceivedSources : ℕ
  nbSentAck : ℕ
  /-- What the user's data handler was given. -/
  data : List DecoderSource
  /-- What the packetizer gave to the packet handler. -/
  sent : List SentAck
  /-- How many times the clock was read. -/
  clockReads : ℕ

namespace Decoder

-- The clock is the date each of its reads returns.
variable (clock : ℕ → ℤ) (b : Build) (g : GfComplete w)

def initial (inOrder : Bool) : Decoder w where
  ackFrequency := 100
  ackNbPackets := 50
  lastAckDate := clock 0
  ack := ⟨FlatSet.empty, 0⟩
  decoder := Detail.Decoder.initial inOrder
  nbReceivedRepairs := 0
  nbReceivedSources := 0
  nbSentAck := 0
  data := []
  sent := []
  clockReads := 1

/-- Generate an ack when `held` are the currently known source identifiers. -/
def generateAckOf (held : List ℕ) (d : Decoder w) : Decoder w :=
  { d with
    sent := d.sent ++ [⟨{ d.ack with sourceIds := held.foldl FlatSet.insert d.ack.sourceIds }, held⟩]
    nbSentAck := d.nbSentAck + 1
    ack := ⟨FlatSet.empty, 0⟩ }

/-- Force the generation of an ack. -/
def generateAck (d : Decoder w) : Decoder w := d.generateAckOf d.decoder.sources.keys

/-- Generate an ack if needed, when `held` are the currently known source identifiers. -/
def maybeAckOf (held : List ℕ) (d : Decoder w) : Decoder w :=
  if d.ackNbPackets ≤ d.ack.nbPackets then
    { d.generateAckOf held with
      lastAckDate := clock d.clockReads
      clockReads := d.clockReads + 1 }
  else if d.ackFrequency ≠ 0 then
    let now := clock d.clockReads
    let d := { d with clockReads := d.clockReads + 1 }
    if (d.ackFrequency : ℤ) * 1000000 ≤ now - d.lastAckDate then
      { d.generateAckOf held with lastAckDate := now }
    else d
  else d

/-- Generate an ack if needed. -/
def maybeAck (d : Decoder w) : Decoder w := d.maybeAckOf clock d.decoder.sources.keys

/-- Callback given to the real decoder to be notified when a source is processed. -/
def handleSource (d : Decoder w) (c : Detail.Callback) : Decoder w :=
  { d with data := d.data ++ [c.source] }.maybeAckOf clock c.known

/-- Give a source or a repair to the real decoder. Nothing this decoder's callback does is seen by
the real one, so that its calls are made once the real decoder returns. -/
def forward (p : Detail.Incoming) (d : Decoder w) : Except Fault (Decoder w) := do
  let decoder ← d.decoder.receive b g p
  .ok ((decoder.callbacks.drop d.decoder.callbacks.length).foldl (handleSource clock)
    { d with decoder := decoder })

/-- The pending acknowledgement counts one more packet. -/
def countPacket (d : Decoder w) : Decoder w :=
  { d with ack := { d.ack with nbPackets := (d.ack.nbPackets + 1) % 2 ^ 16 } }

/-- What follows the reading of a packet. -/
def handle (d : Decoder w) :
    Except Stop (Detail.Incoming × ℕ) → Except Fault (Decoder w × Except Exception ℕ)
  | .error (.fault f) => .error f
  | .error (.thrown x) => .ok (d, .error x)
  | .ok (p, n) => do
    let d ← d.forward clock b g p
    .ok (d, .ok n)

/-- Notify the decoder of an incoming packet: its new state, with the number of bytes read or the
exception thrown. -/
def notify (p : List Byte) (d : Decoder w) : Except Fault (Decoder w × Except Exception ℕ) := do
  b.assert .emptyPacket (!p.isEmpty)
  match getPacketType p with
  | .error (.fault f) => .error f
  | .error (.thrown x) => .ok (d, .error x)
  | .ok .repair =>
    handle clock b g { d with nbReceivedRepairs := d.nbReceivedRepairs + 1 }.countPacket
      ((readRepair b p).map fun r => (.repair r.1, r.2))
  | .ok .source =>
    handle clock b g { d with nbReceivedSources := d.nbReceivedSources + 1 }.countPacket
      ((readSource b p).map fun s => (.source s.1, s.2))
  | .ok .ack => .ok (d, .error .packetTypeError)

/-- What the user of a decoder calls. -/
inductive Call
  | packet (p : List Byte)
  | generateAck
  | maybeAck
  | setAckFrequency (f : ℕ)
  | setAckNbPackets (nb : ℕ)
deriving DecidableEq

/-- The state after a call; one that throws has been caught by the user. -/
def call (d : Decoder w) : Call → Except Fault (Decoder w)
  | .packet p => (notify clock b g p d).map Prod.fst
  | .generateAck => .ok d.generateAck
  | .maybeAck => .ok (d.maybeAck clock)
  | .setAckFrequency f => .ok { d with ackFrequency := f }
  | .setAckNbPackets nb => do
    b.assert .zeroParameter (0 < nb)
    .ok { d with ackNbPackets := min nb 128 }

end Decoder

end Netcode
