import Netcode.Acknowledged

/-! One end of a two-way channel. It has an encoder and a decoder, whose packets travel in one flow,
and dispatches the packets of the other end by their type. -/
namespace Netcode

open Encodings Runs

variable {w : FieldSize} {b : Build} {g : GfComplete w}

/-- Dispatch the processing of an incoming packet: the new states, with the number of bytes read or
the exception thrown. -/
def dispatch (clock : ℕ → ℤ) (b : Build) (g : GfComplete w) (e : Encoder) (d : Decoder w)
    (p : List Byte) : Except Fault (Encoder × Decoder w × Except Exception ℕ) :=
  match getPacketType p with
  | .error (.fault f) => .error f
  | .error (.thrown x) => .ok (e, d, .error x)
  | .ok .ack => (e.notify b p).map fun r => (r.1, d, r.2)
  | .ok .repair | .ok .source => (d.notify clock b g p).map fun r => (e, r.1, r.2)

/-- Sources and repairs are for the decoder. -/
def WirePacket.isData : WirePacket → Bool
  | .ack _ => false
  | .repair _ => true
  | .source _ => true

def WirePacket.isAck (p : WirePacket) : Bool := !p.isData

variable {clock : ℕ → ℤ} {e e' : Encoder} {d d' : Decoder w}

/-- Sources and repairs are dispatched to the decoder. -/
theorem dispatch_data {p : WirePacket} (hp : p.isData = true) : dispatch clock b g e d p.bytes =
    (d.notify clock b g p.bytes).map fun r => (e, r.1, r.2) := by
  rw [dispatch]
  cases p with
  | ack a => cases hp
  | repair r =>
    have htype : getPacketType (repairBytes r) = .ok .repair := by
      simp [repairBytes, getPacketType, PacketType.code]
    simp only [WirePacket.bytes, htype]
  | source src =>
    have htype : getPacketType (writeSource src) = .ok .source := by
      simp [writeSource, getPacketType, PacketType.code]
    simp only [WirePacket.bytes, htype]

/-- Acknowledgements are dispatched to the encoder. -/
theorem dispatch_ack {p : WirePacket} (hp : p.isData = false) : dispatch clock b g e d p.bytes =
    (e.notify b p.bytes).map fun r => (r.1, d, r.2) := by
  rw [dispatch]
  cases p with
  | ack a =>
    have htype : getPacketType (writeAck a) = .ok .ack := by
      simp [writeAck, getPacketType, PacketType.code]
    simp only [WirePacket.bytes, htype]
  | repair r => cases hp
  | source src => cases hp

theorem Encoder.Sends.isData {sources : List EncoderSource} {sent : List WirePacket} {n m : ℕ}
    (h : Sends b g sources n sent m) : ∀ p ∈ sent, p.isData = true := by
  induction h with
  | nil => exact fun p hp => absurd hp List.not_mem_nil
  | source hs _ ih =>
    rintro p (_ | ⟨_, hp⟩)
    exacts [rfl, ih p hp]
  | repair hr _ ih =>
    rintro p (_ | ⟨_, hp⟩)
    exacts [rfl, ih p hp]

namespace Decoder

theorem grows_maybeAckOf (clock : ℕ → ℤ) (held : List ℕ) (d : Decoder w) :
    ∃ later, (d.maybeAckOf clock held).sent = d.sent ++ later := by
  rw [maybeAckOf]
  split
  · exact ⟨_, rfl⟩
  · split
    · dsimp only
      split
      · exact ⟨_, rfl⟩
      · exact ⟨[], (List.append_nil _).symm⟩
    · exact ⟨[], (List.append_nil _).symm⟩

theorem grows_handleSources (clock : ℕ → ℤ) (l : List Detail.Callback) (d : Decoder w) :
    ∃ later, (l.foldl (handleSource clock) d).sent = d.sent ++ later := by
  induction l generalizing d with
  | nil => exact ⟨[], (List.append_nil _).symm⟩
  | cons c l ih =>
    obtain ⟨later, hlater⟩ := ih (d.handleSource clock c)
    obtain ⟨first, hfirst⟩ := grows_maybeAckOf clock c.known { d with data := d.data ++ [c.source] }
    refine ⟨first ++ later, ?_⟩
    rw [List.foldl_cons, hlater, ← List.append_assoc]
    exact congrArg (· ++ later) hfirst

theorem grows_forward {q : Detail.Incoming} (h : d.forward clock b g q = .ok d') :
    ∃ later, d'.sent = d.sent ++ later := by
  simp only [forward, bind_ok_iff, Except.ok.injEq] at h
  obtain ⟨u, -, rfl⟩ := h
  exact grows_handleSources clock _ { d with decoder := u }

/-- What was sent stays sent. -/
theorem grows_call {c : Call} (h : d.call clock b g c = .ok d') :
    ∃ later, d'.sent = d.sent ++ later := by
  cases c with
  | packet p =>
    obtain ⟨⟨d', y⟩, hn, rfl⟩ := map_ok_iff.mp h
    simp only [notify, bind_ok_iff] at hn
    obtain ⟨-, -, hn⟩ := hn
    split at hn
    · cases hn
    · cases hn
      exact ⟨[], (List.append_nil _).symm⟩
    · rcases handle_forwards hn with ⟨-, rfl⟩ | ⟨q, n, -, hf⟩
      · exact ⟨[], (List.append_nil _).symm⟩
      · obtain ⟨later, hlater⟩ := grows_forward hf
        exact ⟨later, hlater⟩
    · rcases handle_forwards hn with ⟨-, rfl⟩ | ⟨q, n, -, hf⟩
      · exact ⟨[], (List.append_nil _).symm⟩
      · obtain ⟨later, hlater⟩ := grows_forward hf
        exact ⟨later, hlater⟩
    · cases hn
      exact ⟨[], (List.append_nil _).symm⟩
  | generateAck =>
    cases h
    exact ⟨_, rfl⟩
  | maybeAck =>
    cases h
    exact grows_maybeAckOf clock _ d
  | setAckFrequency f =>
    cases h
    exact ⟨[], (List.append_nil _).symm⟩
  | setAckNbPackets nb =>
    simp only [call, bind_ok_iff, Except.ok.injEq] at h
    obtain ⟨-, -, rfl⟩ := h
    exact ⟨[], (List.append_nil _).symm⟩

end Decoder

/-- One end, and what it sent, in order. -/
structure Peer (w : FieldSize) where
  encoder : Encoder
  decoder : Decoder w
  flow : List WirePacket

namespace Peer

variable {p : Peer w}

def initial (clock : ℕ → ℤ) (inOrder : Bool) : Peer w :=
  ⟨Encoder.initial, Decoder.initial clock inOrder, []⟩

/-- The encoder was called, and what it sent joins the flow. -/
def setEncoder (p : Peer w) (e : Encoder) : Peer w :=
  { p with encoder := e, flow := p.flow ++ e.sent.drop p.encoder.sent.length }

/-- The decoder was called, and its acknowledgements join the flow. -/
def setDecoder (p : Peer w) (d : Decoder w) : Peer w :=
  { p with
    decoder := d
    flow := p.flow ++ (d.sent.drop p.decoder.sent.length).map fun a => .ack a.ack }

@[simp] theorem encoder_setEncoder : (p.setEncoder e).encoder = e := rfl

@[simp] theorem decoder_setEncoder : (p.setEncoder e).decoder = p.decoder := rfl

@[simp] theorem encoder_setDecoder : (p.setDecoder d).encoder = p.encoder := rfl

@[simp] theorem decoder_setDecoder : (p.setDecoder d).decoder = d := rfl

/-- The flow merges what the encoder and the decoder sent. -/
structure Merged (p : Peer w) : Prop where
  data : p.flow.filter WirePacket.isData = p.encoder.sent
  acks : p.flow.filter WirePacket.isAck = p.decoder.sent.map fun a => .ack a.ack

theorem setEncoder_self : p.setEncoder p.encoder = p := by
  rw [setEncoder, List.drop_length, List.append_nil]

theorem setDecoder_self : p.setDecoder p.decoder = p := by
  rw [setDecoder, List.drop_length, List.map_nil, List.append_nil]

theorem merged_setEncoder (hI : p.Merged) {c : Encoder.Call} (h : p.encoder.call b g c = .ok e) :
    (p.setEncoder e).Merged := by
  obtain ⟨sent, hsent, hsends⟩ := (Encoder.call_called h).sent
  have hdata := hsends.isData
  have hflow : (p.setEncoder e).flow = p.flow ++ sent := by
    rw [setEncoder, hsent, List.drop_left]
  constructor
  · rw [hflow, List.filter_append, hI.data, List.filter_eq_self.mpr hdata]
    exact hsent.symm
  · have hnone : sent.filter WirePacket.isAck = [] :=
      List.filter_eq_nil_iff.mpr fun q hq => by
        rw [WirePacket.isAck, hdata q hq]
        exact Bool.false_ne_true
    rw [hflow, List.filter_append, hI.acks, hnone, List.append_nil]
    rfl

theorem merged_setDecoder (hI : p.Merged) {c : Decoder.Call}
    (h : p.decoder.call clock b g c = .ok d) : (p.setDecoder d).Merged := by
  obtain ⟨later, hlater⟩ := Decoder.grows_call h
  have hflow : (p.setDecoder d).flow = p.flow ++ later.map fun a => .ack a.ack := by
    rw [setDecoder, hlater, List.drop_left]
  have hacks : ∀ q ∈ later.map (fun a => WirePacket.ack a.ack), q.isData = false := by
    intro q hq
    obtain ⟨a, -, rfl⟩ := List.mem_map.mp hq
    rfl
  constructor
  · have hnone : (later.map fun a => WirePacket.ack a.ack).filter WirePacket.isData = [] :=
      List.filter_eq_nil_iff.mpr fun q hq => by
        rw [hacks q hq]
        exact Bool.false_ne_true
    rw [hflow, List.filter_append, hI.data, hnone, List.append_nil]
    rfl
  · have hall : (later.map fun a => WirePacket.ack a.ack).filter WirePacket.isAck =
        later.map fun a => WirePacket.ack a.ack :=
      List.filter_eq_self.mpr fun q hq => by
        rw [WirePacket.isAck, hacks q hq]
        rfl
    rw [hflow, List.filter_append, hI.acks, hall, ← List.map_append, ← hlater]
    rfl

end Peer

end Netcode
