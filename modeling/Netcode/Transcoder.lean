import Netcode.Buffers.Reading
import Netcode.Tunnel.Ordered

/-! transcoder.hh: the ends of a tunnel receive packets in a buffer which is not shrunk to their
length. What follows them is what the buffer held. -/
namespace Netcode

open Containers Encodings Runs Simulation

variable {w : FieldSize} {b : Build} {g : GfComplete w}

/-- What a buffer of some size holds. -/
abbrev Buffer (n : ℕ) := { buffer : List Byte // buffer.length = n }

/-- What it holds once a packet was received at its beginning. -/
def Buffer.fill {n : ℕ} (buffer : Buffer n) (bytes : List Byte) : List Byte :=
  bytes.take n ++ buffer.1.drop bytes.length

theorem Buffer.fill_fits {n : ℕ} {bytes : List Byte} (buffer : Buffer n) (h : bytes.length ≤ n) :
    buffer.fill bytes = bytes ++ buffer.1.drop bytes.length := by
  rw [fill, List.take_of_length_le h]

/-- A buffer without a zero. -/
def Buffer.dirty (n : ℕ) : Buffer n := ⟨List.replicate n 7, List.length_replicate⟩

namespace WirePacket

/-- The length of the symbol of a repair fits 16 bits. -/
def Short : WirePacket → Prop
  | .repair r => r.symbol.length ≤ 65535
  | _ => True

/-- What a short packet brings is read from its bytes. -/
theorem bytesRead_short {p : WirePacket} (h : p.Short) : ∃ n, p.bytesRead b = .ok n := by
  cases p with
  | ack a => exact ⟨_, by rw [bytesRead, readAck_writeAck]; rfl⟩
  | repair r => exact ⟨_, by rw [bytesRead, readRepair_repairBytes b h]; rfl⟩
  | source s =>
    have hle : ¬ s.symbol.length < s.symbol.length % 256 ^ 2 := by omega
    rw [bytesRead, readSource, writeSource, assertPacketType_code]
    simp only [ok_bind, read_byte, read_bigEndian]
    rw [Reader.skip, Reader.start, if_neg hle, ok_bind]
    exact ⟨_, rfl⟩

end WirePacket

namespace Encoder

variable {e e' : Encoder} {c : Call} {sources : List EncoderSource} {sent : List WirePacket}
  {repair r : EncoderRepair} {n m : ℕ}

/-- A repair is no longer than the sizes of its sources, which are on 16 bits. -/
theorem length_encode (h : Detail.Encoder.encode b g repair sources = .ok r) :
    r.symbol.length ≤ 65535 := by
  have hsize : ∀ src : EncoderSource, src.size ≤ 65535 := fun src => by
    rw [EncoderSource.size]
    omega
  simp only [Detail.Encoder.encode, bind_ok_iff] at h
  obtain ⟨-, -, h⟩ := h
  cases sources with
  | nil => cases h
  | cons src sources =>
    simp only [bind_ok_iff] at h
    obtain ⟨s, hs, h⟩ := h
    have hfirst : s.length ≤ 65535 := by
      obtain ⟨-, hsrc, hdst, rfl⟩ := multiply_ok_iff.mp hs
      rw [List.length_append, length_region, List.length_take, List.length_drop,
        Detail.Encoder.length_resize]
      have := hsize src
      omega
    refine foldlM_invariant (fun u : EncoderRepair => u.symbol.length ≤ 65535) ?_ hfirst h
    intro src _ u v hu hv
    simp only [Detail.Encoder.addSource, bind_ok_iff, Except.ok.injEq] at hv
    obtain ⟨s, hs, rfl⟩ := hv
    rw [(vec_multiplyAdd hs).1, (Detail.Encoder.buffer_spec (g := g) _ _).1]
    exact max_le hu (hsize src)

theorem Sends.short (h : Sends b g sources n sent m) : ∀ p ∈ sent, p.Short := by
  induction h with
  | nil => exact fun p hp => absurd hp List.not_mem_nil
  | source hs _ ih =>
    rintro p (_ | ⟨_, hp⟩)
    exacts [trivial, ih p hp]
  | repair hr _ ih =>
    rintro p (_ | ⟨_, hp⟩)
    exacts [length_encode hr, ih p hp]

theorem short_call (hI : ∀ p ∈ e.sent, p.Short) (h : e.call b g c = .ok e') :
    ∀ p ∈ e'.sent, p.Short := by
  obtain ⟨sent, hsent, hsends⟩ := (call_called h).sent
  rw [hsent]
  intro p hp
  rcases List.mem_append.mp hp with hp | hp
  · exact hI p hp
  · exact hsends.short p hp

end Encoder

variable {clock : ℕ → ℤ} {e : Encoder} {d d' : Decoder w} {p : WirePacket}

/-- The type of a packet is in its own bytes. -/
theorem getPacketType_bytes (p : WirePacket) (t : List Byte) :
    getPacketType (p.bytes ++ t) = getPacketType p.bytes :=
  getPacketType_append (Decoder.bytes_ne_nil p) t

theorem assert_nonempty {q : List Byte} (hq : q ≠ []) :
    b.assert .emptyPacket (!q.isEmpty) = .ok () := by
  rw [List.isEmpty_eq_false_iff.mpr hq]
  exact Build.assert_true

namespace Decoder

/-- A packet is read in a longer buffer as in its own. -/
theorem within_handle {x x' : Except Stop (Detail.Incoming × ℕ)} {q q' : Detail.Incoming} {n : ℕ}
    (h : d.Within d') (hx : x = .ok (q, n)) (hx' : x' = .ok (q', n)) (hq : q.Within q') :
    Simulates (fun u v => u.1.Within v.1 ∧ u.2 = v.2) (d.handle clock b g x)
      (d'.handle clock b g x') := by
  rw [hx, hx', handle, handle]
  exact (within_forward h hq).bind fun u v huv => simulates_ok ⟨huv, rfl⟩

theorem within_notify (h : d.Within d') (hp : ∃ n, p.bytesRead b = .ok n) (t : List Byte) :
    Simulates (fun u v => u.1.Within v.1 ∧ u.2 = v.2) (d.notify clock b g p.bytes)
      (d'.notify clock b g (p.bytes ++ t)) := by
  have hne := bytes_ne_nil p
  obtain ⟨n, hn⟩ := hp
  rw [notify, notify, getPacketType_bytes, assert_nonempty hne,
    assert_nonempty (List.append_ne_nil_of_left_ne_nil hne t), ok_bind, ok_bind]
  cases p with
  | ack a =>
    have htype : getPacketType (WirePacket.ack a).bytes = .ok .ack := by
      simp [WirePacket.bytes, writeAck, getPacketType, PacketType.code]
    rw [htype]
    exact simulates_ok ⟨h, rfl⟩
  | repair r =>
    have htype : getPacketType (WirePacket.repair r).bytes = .ok .repair := by
      simp [WirePacket.bytes, repairBytes, getPacketType, PacketType.code]
    obtain ⟨⟨q, m⟩, hread, rfl⟩ := map_ok_iff.mp hn
    obtain ⟨q', hread', hq⟩ := readRepair_append hne hread t
    rw [htype]
    refine within_handle ?_ (by rw [show readRepair b (WirePacket.repair r).bytes = _ from hread]; rfl)
      (by rw [hread']; rfl) (.repair hq)
    obtain ⟨hd, hdata⟩ := h
    exact ⟨hd, hdata⟩
  | source s =>
    have htype : getPacketType (WirePacket.source s).bytes = .ok .source := by
      simp [WirePacket.bytes, writeSource, getPacketType, PacketType.code]
    obtain ⟨⟨q, m⟩, hread, rfl⟩ := map_ok_iff.mp hn
    obtain ⟨q', hread', hq⟩ := readSource_append hne hread t
    rw [htype]
    refine within_handle ?_ (by rw [show readSource b (WirePacket.source s).bytes = _ from hread]; rfl)
      (by rw [hread']; rfl) (.source hq)
    obtain ⟨hd, hdata⟩ := h
    exact ⟨hd, hdata⟩

/-- The other calls. -/
theorem within_call (h : d.Within d') {c : Call} (hc : ∀ q, c ≠ .packet q) :
    Simulates Within (d.call clock b g c) (d'.call clock b g c) := by
  have hkeys : d'.decoder.sources.keys = d.decoder.sources.keys := by
    obtain ⟨hd, -⟩ := h
    exact hd.sources.keys
  cases c with
  | packet q => exact absurd rfl (hc q)
  | generateAck =>
    rw [call, call, generateAck, generateAck, hkeys]
    obtain ⟨hd, hdata⟩ := h
    exact simulates_ok ⟨hd, hdata⟩
  | maybeAck =>
    rw [call, call, maybeAck, maybeAck, hkeys]
    exact simulates_ok (within_maybeAckOf h _)
  | setAckFrequency f =>
    obtain ⟨hd, hdata⟩ := h
    exact simulates_ok ⟨hd, hdata⟩
  | setAckNbPackets nb =>
    obtain ⟨hd, hdata⟩ := h
    exact simulates_bind fun _ => simulates_ok ⟨hd, hdata⟩

end Decoder

/-- An encoder reads an acknowledgement in a longer buffer as in its own. -/
theorem Encoder.notify_append (a : Ack) (t : List Byte) (e : Encoder) :
    e.notify b (writeAck a ++ t) = e.notify b (writeAck a) := by
  have hne : writeAck a ≠ [] := Decoder.bytes_ne_nil (.ack a)
  have htype : getPacketType (writeAck a ++ t) = getPacketType (writeAck a) :=
    getPacketType_bytes (.ack a) t
  have hread := readAck_append hne (readAck_writeAck b a) t
  rw [notify, notify, htype, assert_nonempty hne,
    assert_nonempty (List.append_ne_nil_of_left_ne_nil hne t), ok_bind, ok_bind, hread,
    readAck_writeAck]

theorem within_dispatch (h : d.Within d') (hp : ∃ n, p.bytesRead b = .ok n) (t : List Byte) :
    Simulates (fun u v => u.1 = v.1 ∧ u.2.1.Within v.2.1 ∧ u.2.2 = v.2.2)
      (dispatch clock b g e d p.bytes) (dispatch clock b g e d' (p.bytes ++ t)) := by
  rw [dispatch, dispatch, getPacketType_bytes]
  cases htype : getPacketType p.bytes with
  | error x =>
    cases x with
    | fault f => exact simulates_error _ _
    | thrown x => exact simulates_ok ⟨rfl, h, rfl⟩
  | ok ty =>
    have hdata : Simulates (fun u v => u.1 = v.1 ∧ u.2.1.Within v.2.1 ∧ u.2.2 = v.2.2)
        ((d.notify clock b g p.bytes).map fun r => (e, r.1, r.2))
        ((d'.notify clock b g (p.bytes ++ t)).map fun r => (e, r.1, r.2)) :=
      (Decoder.within_notify h hp t).map fun u v huv => ⟨rfl, huv⟩
    cases ty with
    | ack =>
      cases p with
      | ack a =>
        dsimp only
        rw [show e.notify b ((WirePacket.ack a).bytes ++ t) = e.notify b (WirePacket.ack a).bytes from
          Encoder.notify_append a t e]
        refine (simulates_same _).map fun u v huv => ?_
        subst huv
        exact ⟨rfl, h, rfl⟩
      | repair r => simp [WirePacket.bytes, repairBytes, getPacketType, PacketType.code] at htype
      | source s => simp [WirePacket.bytes, writeSource, getPacketType, PacketType.code] at htype
    | repair => exact hdata
    | source => exact hdata

/-- The same end, whose decoder has longer buffers. -/
structure Peer.Within (p p' : Peer w) : Prop where
  encoder : p'.encoder = p.encoder
  decoder : p.decoder.Within p'.decoder
  flow : p'.flow = p.flow

namespace Tunnel

variable {clock : Side → ℕ → ℤ} {t t' : Tunnel w} {x : Event} {i : Side}

/-- The same ends, whose decoders have longer buffers. -/
def Within (t t' : Tunnel w) : Prop := ∀ i, (t.peer i).Within (t'.peer i)

/-- One end receives bytes. -/
def receive (clock : Side → ℕ → ℤ) (b : Build) (g : GfComplete w) (t : Tunnel w) (i : Side)
    (bytes : List Byte) : Except Fault (Tunnel w) := do
  let p := t.peer i
  let r ← dispatch (clock i) b g p.encoder p.decoder bytes
  .ok (t.set i ((p.setEncoder r.1).setDecoder r.2.1))

/-- The maximal size of an UDP packet -/
def bufferSize : ℕ := 65504

/-- A step of transcoders. The packet which passes is received at the beginning of a buffer, and the
whole buffer is read. -/
def transcode (clock : Side → ℕ → ℤ) (b : Build) (g : GfComplete w) (t : Tunnel w) :
    Event × Buffer bufferSize → Except Fault (Tunnel w)
  | (.pass i k, buffer) =>
    match (t.peer i).flow[k]? with
    | none => .ok t
    | some p => t.receive clock b g i.other (buffer.fill p.bytes)
  | (x, _) => t.step clock b g x

/-- The packet which passes is not longer than the buffer. -/
def Fits (t : Tunnel w) : Event → Prop
  | .pass i k => ∀ p ∈ (t.peer i).flow[k]?, p.bytes.length ≤ bufferSize
  | _ => True

instance (t : Tunnel w) : (x : Event) → Decidable (t.Fits x)
  | .pass _ _ => inferInstanceAs (Decidable (∀ p ∈ (_ : Option WirePacket), _))
  | .encoder _ _ | .decoder _ _ => inferInstanceAs (Decidable True)

/-- A packet that passes is received alone. -/
theorem step_pass_receive {k : ℕ} {p : WirePacket} (hp : (t.peer i).flow[k]? = some p) :
    t.step clock b g (.pass i k) = t.receive clock b g i.other p.bytes := by
  rw [step, hp]
  rfl

theorem Within.set (h : t.Within t') {p p' : Peer w} (hp : p.Within p') (i : Side) :
    (t.set i p).Within (t'.set i p') := by
  intro j
  rw [peer_set, peer_set]
  split
  · exact hp
  · exact h j

theorem within_setEncoder {p p' : Peer w} (h : p.Within p') (e : Encoder) :
    (p.setEncoder e).Within (p'.setEncoder e) :=
  ⟨rfl, h.decoder, by rw [Peer.setEncoder, Peer.setEncoder, h.flow, h.encoder]⟩

theorem within_setDecoder {p p' : Peer w} (h : p.Within p') {d d' : Decoder w} (hd : d.Within d') :
    (p.setDecoder d).Within (p'.setDecoder d') := by
  refine ⟨h.encoder, hd, ?_⟩
  have hsent : ∀ {u u' : Decoder w}, u.Within u' → u'.sent = u.sent := by
    rintro u _ ⟨-, -⟩
    rfl
  rw [Peer.setDecoder, Peer.setDecoder, h.flow, hsent hd, hsent h.decoder]

/-- What each end sent can be read. -/
structure Short (t : Tunnel w) : Prop where
  merged : t.Merged
  sent : ∀ i, ∀ p ∈ (t.peer i).encoder.sent, p.Short

theorem Short.flow (hI : t.Short) {p : WirePacket} (hp : p ∈ (t.peer i).flow) : p.Short := by
  cases hdata : p.isData with
  | true =>
    refine hI.sent i p ?_
    rw [← (hI.merged i).data]
    exact List.mem_filter.mpr ⟨hp, hdata⟩
  | false =>
    cases p with
    | ack a => trivial
    | repair r => cases hdata
    | source s => cases hdata

theorem short_initial (inOrder : Side → Bool) : (initial clock inOrder : Tunnel w).Short := by
  refine ⟨fun j => ?_, fun j p hp => ?_⟩
  · cases j <;> exact ⟨rfl, rfl⟩
  · cases j <;> exact absurd hp List.not_mem_nil

theorem short_step (hI : t.Short) (h : t.step clock b g x = .ok t') : t'.Short := by
  refine ⟨merged_step hI.merged h, fun i => ?_⟩
  have hset : ∀ j (p : Peer w), (∀ q ∈ p.encoder.sent, q.Short) →
      ∀ q ∈ ((t.set j p).peer i).encoder.sent, q.Short := by
    intro j p hp
    rw [peer_set]
    split
    · exact hp
    · exact hI.sent i
  cases x with
  | encoder j c =>
    simp only [step, bind_ok_iff, Except.ok.injEq] at h
    obtain ⟨u, hu, rfl⟩ := h
    exact hset j _ (Encoder.short_call (hI.sent j) hu)
  | decoder j c =>
    simp only [step, bind_ok_iff, Except.ok.injEq] at h
    obtain ⟨v, -, rfl⟩ := h
    exact hset j _ (hI.sent j)
  | pass j k =>
    cases hp : (t.peer j).flow[k]? with
    | none =>
      simp only [step, hp, Except.ok.injEq] at h
      exact h ▸ hI.sent i
    | some p =>
      rcases step_pass hp h with ⟨-, v, -, rfl⟩ | ⟨-, u, hu, rfl⟩
      · exact hset _ _ (hI.sent _)
      · exact hset _ _ (Encoder.short_call (hI.sent _) hu)

theorem within_transcode (h : t.Within t') (hI : t.Short) (hc : t.Fits x)
    (buffer : Buffer bufferSize) :
    Simulates Within (t.step clock b g x) (t'.transcode clock b g (x, buffer)) := by
  cases x with
  | encoder i c =>
    rw [transcode, step, step, (h i).encoder]
    · exact simulates_bind fun e => simulates_ok (h.set (within_setEncoder (h i) e) i)
    · rintro _ _ ⟨⟩
  | decoder i c =>
    rw [transcode, step, step]
    · exact (Decoder.within_call (h i).decoder c.2).bind fun d d' hd =>
        simulates_ok (h.set (within_setDecoder (h i) hd) i)
    · rintro _ _ ⟨⟩
  | pass i k =>
    rw [transcode, (h i).flow]
    cases hp : (t.peer i).flow[k]? with
    | none =>
      rw [step, hp]
      exact simulates_ok h
    | some p =>
      have hread := WirePacket.bytesRead_short (b := b) (hI.flow (List.mem_of_getElem? hp))
      have hother := h i.other
      dsimp only
      rw [Buffer.fill_fits buffer (hc p hp), step_pass_receive hp, receive, receive, hother.encoder]
      refine (within_dispatch hother.decoder hread _).bind fun u v huv => simulates_ok ?_
      obtain ⟨hencoder, hdecoder, -⟩ := huv
      rw [← hencoder]
      exact h.set (within_setDecoder (within_setEncoder hother u.1) hdecoder) i.other

theorem within_run {l : List (Event × Buffer bufferSize)} {u u' : Tunnel w}
    (h : Run (step clock b g) Fits u (l.map Prod.fst) t) (hu : u.Within u') (hI : u.Short) :
    ∃ t', Run (transcode clock b g) (fun _ _ => True) u' l t' ∧ t.Within t' := by
  induction l generalizing u u' with
  | nil =>
    cases h
    exact ⟨u', .nil, hu⟩
  | cons x l ih =>
    obtain ⟨x, buffer⟩ := x
    cases h with
    | cons hc hs hr =>
      obtain ⟨v, hv, hwithin⟩ := within_transcode hu hI hc buffer _ hs
      obtain ⟨t', ht', hend⟩ := ih hr hwithin (short_step hI hs)
      exact ⟨t', .cons trivial hv ht', hend⟩

theorem within_initial (inOrder : Side → Bool) :
    (initial clock inOrder : Tunnel w).Within (initial clock inOrder) := by
  have hdecoder : ∀ (c : ℕ → ℤ) (o : Bool),
      (Decoder.initial c o : Decoder w).Within (Decoder.initial c o) :=
    fun c o => ⟨⟨mapRel_empty, mapRel_empty, .nil⟩, .nil⟩
  intro i
  cases i <;> exact ⟨rfl, hdecoder _ _, rfl⟩

/-- What transcoders find after packets in their buffers changes nothing: the encoders, all that is
sent and the data given to users are those of a run whose packets are received alone. -/
theorem run_transcode {inOrder : Side → Bool} {l : List (Event × Buffer bufferSize)}
    (h : Run (step clock b g) Fits (initial clock inOrder) (l.map Prod.fst) t) :
    ∃ t', Run (transcode clock b g) (fun _ _ => True) (initial clock inOrder) l t' ∧
      ∀ i, (t'.peer i).encoder = (t.peer i).encoder ∧ (t'.peer i).flow = (t.peer i).flow ∧
        (t'.peer i).decoder.data.map DecoderSource.id =
          (t.peer i).decoder.data.map DecoderSource.id ∧
        (t'.peer i).decoder.data.map (fun src => src.symbol.take src.symbolSize) =
          (t.peer i).decoder.data.map (fun src => src.symbol.take src.symbolSize) := by
  obtain ⟨t', ht', hend⟩ := within_run h (within_initial inOrder) (short_initial inOrder)
  refine ⟨t', ht', fun i => ⟨(hend i).encoder, (hend i).flow, ?_⟩⟩
  have hdata : List.Forall₂ DecoderSource.Within (t.peer i).decoder.data (t'.peer i).decoder.data := by
    have hdecoder := (hend i).decoder
    revert hdecoder
    generalize (t'.peer i).decoder = d'
    rintro ⟨-, hdata⟩
    exact hdata
  exact ⟨map_eq_of_forall₂ hdata fun _ _ h => h.id, map_eq_of_forall₂ hdata fun _ _ h => h.symbol⟩

theorem run_transcode_exchangeEvents : ∃ t',
    Run (transcode (fun _ _ => 0) .release gf16) (fun _ _ => True)
      (initial (fun _ _ => 0) fun _ => true)
      (exchangeEvents.map fun x => (x, Buffer.dirty bufferSize)) t' ∧
    (t'.peer .left).encoder.sources.map EncoderSource.id = [2] ∧
    (t'.peer .right).decoder.data.map (fun src => src.symbol.take src.symbolSize) =
      [[1], [2]] := by
  have hrun : (runWhile (step (fun _ _ => 0) .release gf16) Fits
      (initial (fun _ _ => 0) fun _ => true) exchangeEvents).any (fun t => decide (
        (t.peer .left).encoder.sources.map EncoderSource.id = [2] ∧
        (t.peer .right).decoder.data.map (fun src => src.symbol.take src.symbolSize) =
          [[1], [2]])) = true := by
    decide +kernel
  obtain ⟨t, ht, hd⟩ := (Option.any_eq_true _ _).mp hrun
  obtain ⟨hwindow, hdata⟩ := of_decide_eq_true hd
  obtain ⟨t', ht', hsame⟩ := run_transcode
    (l := exchangeEvents.map fun x => (x, Buffer.dirty bufferSize)) (run_of_runWhile ht)
  refine ⟨t', ht', ?_, ?_⟩
  · rw [(hsame .left).1, hwindow]
  · rw [(hsame .right).2.2.2, hdata]

end Tunnel

end Netcode
