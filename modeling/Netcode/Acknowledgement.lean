import Netcode.Acknowledgement.Acknowledging

/-! An encoder and a decoder exchanging sources, repairs and acknowledgements: what an
acknowledgement removes from the encoder's window. -/
namespace Netcode

open Encodings Runs

variable {w : FieldSize} {b : Build} {g : GfComplete w} {clock : ℕ → ℤ}

/-- Both ends, and the sources an acknowledgement removed from the encoder's window with this
acknowledgement. -/
structure System (w : FieldSize) where
  encoder : Encoder
  decoder : Decoder w
  removed : List (EncoderSource × SentAck)

/-- What happens next: a user calls one end, or a packet sent by one end, known by its position in
what this end sent, reaches the other. A packet that never does is lost. -/
inductive Event
  | encoder (c : { c : Encoder.Call // ∀ p, c ≠ .packet p })
  | decoder (c : { c : Decoder.Call // ∀ p, c ≠ .packet p })
  | toDecoder (k : ℕ)
  | toEncoder (k : ℕ)

namespace Event

theorem data_ne_packet (d : List Byte) (p : List Byte) : Encoder.Call.data d ≠ .packet p := by simp

theorem setRate_ne_packet (n : ℕ) (p : List Byte) : Encoder.Call.setRate n ≠ .packet p := by simp

theorem setWindowSize_ne_packet (n : ℕ) (p : List Byte) :
    Encoder.Call.setWindowSize n ≠ .packet p := by
  simp

theorem generateRepair_ne_packet (p : List Byte) : Encoder.Call.generateRepair ≠ .packet p := by
  simp

theorem generateAck_ne_packet (p : List Byte) : Decoder.Call.generateAck ≠ .packet p := by simp

/-- Data is committed. -/
def data (d : List Byte) : Event := .encoder ⟨.data d, data_ne_packet d⟩

def setRate (rate : ℕ) : Event := .encoder ⟨.setRate rate, setRate_ne_packet rate⟩

def setWindowSize (sz : ℕ) : Event := .encoder ⟨.setWindowSize sz, setWindowSize_ne_packet sz⟩

def generateRepair : Event := .encoder ⟨.generateRepair, generateRepair_ne_packet⟩

def generateAck : Event := .decoder ⟨.generateAck, generateAck_ne_packet⟩

end Event

namespace System

variable {s s' : System w} {e : Event} {l : List Event}

def initial (clock : ℕ → ℤ) (inOrder : Bool) : System w :=
  ⟨Encoder.initial, Decoder.initial clock inOrder, []⟩

def step (clock : ℕ → ℤ) (b : Build) (g : GfComplete w) (s : System w) :
    Event → Except Fault (System w)
  | .encoder c => do
    let encoder ← s.encoder.call b g c.1
    .ok { s with encoder := encoder }
  | .decoder c => do
    let decoder ← s.decoder.call clock b g c.1
    .ok { s with decoder := decoder }
  | .toDecoder k =>
    match s.encoder.sent[k]? with
    | none => .ok s
    | some p => do
      let decoder ← s.decoder.call clock b g (.packet p.bytes)
      .ok { s with decoder := decoder }
  | .toEncoder k =>
    match s.decoder.sent[k]? with
    | none => .ok s
    | some a => do
      let encoder ← s.encoder.call b g (.packet (writeAck a.ack))
      .ok { s with
        encoder := encoder
        removed := s.removed ++
          (s.encoder.sources.filter fun src => decide (src ∉ encoder.sources)).map fun src =>
            (src, a) }

/-- In the acknowledgement delivered, if any, the identifiers held are at most 65535 apart. -/
def near (s : System w) : Event → Bool
  | .toEncoder k => (s.decoder.sent[k]?).all fun a => (gaps a.held).all fun x => decide (x ≤ 65535)
  | _ => true

/-- Acknowledgements are exact, and removed only sources that were held. -/
structure Safe (s : System w) : Prop where
  acknowledging : s.decoder.Acknowledging
  removed : ∀ p ∈ s.removed, p.1.id ∈ p.2.held

theorem safe_step (hI : s.Safe) (hnear : s.near e = true) (h : s.step clock b g e = .ok s') :
    s'.Safe := by
  cases e with
  | encoder c =>
    simp only [step, bind_ok_iff, Except.ok.injEq] at h
    obtain ⟨e, -, rfl⟩ := h
    exact ⟨hI.acknowledging, hI.removed⟩
  | decoder c =>
    simp only [step, bind_ok_iff, Except.ok.injEq] at h
    obtain ⟨d, hd, rfl⟩ := h
    exact ⟨Decoder.acknowledging_call hI.acknowledging hd, hI.removed⟩
  | toDecoder k =>
    rw [step] at h
    cases hk : s.encoder.sent[k]? with
    | none =>
      rw [hk] at h
      cases h
      exact hI
    | some p =>
      simp only [hk, bind_ok_iff, Except.ok.injEq] at h
      obtain ⟨d, hd, rfl⟩ := h
      exact ⟨Decoder.acknowledging_call hI.acknowledging hd, hI.removed⟩
  | toEncoder k =>
    rw [step] at h
    rw [near] at hnear
    cases hk : s.decoder.sent[k]? with
    | none =>
      rw [hk] at h
      cases h
      exact hI
    | some a =>
      simp only [hk, bind_ok_iff, Except.ok.injEq] at h
      obtain ⟨e, he, rfl⟩ := h
      refine ⟨hI.acknowledging, fun p hp => ?_⟩
      rcases List.mem_append.mp hp with hp | hp
      · exact hI.removed p hp
      · obtain ⟨src, hsrc, rfl⟩ := List.mem_map.mp hp
        rw [List.mem_filter, decide_eq_true_eq] at hsrc
        refine removed_held (hI.acknowledging.sent a (List.mem_of_getElem? hk)) ?_ he hsrc.1 hsrc.2
        simpa [hk] using hnear

/-- In every run whose acknowledgements, when delivered, list identifiers at most 65535 apart,
every source that an acknowledgement removes from the window was held when it was generated. -/
theorem acknowledged_held {inOrder : Bool}
    (h : Run (step clock b g) (fun s e => s.near e = true) (initial clock inOrder) l s) :
    ∀ p ∈ s.removed, p.1.id ∈ p.2.held :=
  (h.invariant Safe (fun _ _ _ hI hc hs => safe_step hI hc hs)
    ⟨Decoder.acknowledging_initial inOrder, fun _ hp => by cases hp⟩).removed

/-- Of two sources sent, the first one is received and acknowledged. -/
def pairEvents : List Event :=
  [.data [1], .data [2], .toDecoder 0, .generateAck, .toEncoder 0]

theorem acknowledged_held_pairEvents : ∃ s,
    runWhile (step (fun _ => 0) .release gf16) (fun s e => s.near e = true)
      (initial (fun _ => 0) true) pairEvents = some s ∧
    (s.removed.map fun p => (p.1.id, p.2.held)) = [(0, [0])] ∧
    ∀ p ∈ s.removed, p.1.id ∈ p.2.held := by
  have hrun : (runWhile (step (fun _ => 0) .release gf16) (fun s e => s.near e = true)
      (initial (fun _ => 0) true) pairEvents).any
        (fun s => decide ((s.removed.map fun p => (p.1.id, p.2.held)) = [(0, [0])])) = true := by
    decide +kernel
  obtain ⟨s, hs, hremoved⟩ := (Option.any_eq_true _ _).mp hrun
  exact ⟨s, hs, by simpa using hremoved, acknowledged_held (run_of_runWhile hs)⟩

variable {n m : ℕ} {d : Decoder .w4}

/-- The first sources, of one byte each. -/
def firstSources (n : ℕ) : List EncoderSource := (List.range n).map fun i => ⟨i, [0]⟩

/-- An encoder that only sent its first sources. -/
def filled (n : ℕ) : Encoder :=
  { Encoder.initial with
    rate := 70000
    currentSourceId := n
    sources := firstSources n
    nbSentSources := n
    nbSentPackets := n % 2 ^ 16
    sent := (firstSources n).map .source }

theorem data_filled (hn : n < 65538) :
    (filled n).call .release gf16 (.data [0]) = .ok (filled (n + 1)) := by
  have hlen : (filled n).sources.length = n := by simp [filled, firstSources]
  have hevict : (filled n).evict = .ok (filled n) := by
    rw [Encoder.evict, hlen, if_neg]
    show n ≠ 2 ^ 64 - 1
    omega
  have hmod : (n + 1) % 4294967296 = n + 1 := Nat.mod_eq_of_lt (by omega)
  simp only [Encoder.call, Encoder.data, Encoder.commit, hevict, ok_bind, Build.assert, Build.release]
  simp [filled, firstSources, Encoder.sendSource, Encoder.repairIfNeeded, Encoder.initial, hmod,
    List.range_succ, Nat.mod_eq_of_lt (show n + 1 < 70000 by omega), FieldSize.wordBytes]

def dataEvent : Event := .data [0]

theorem run_filled (hn : m + n ≤ 65538) :
    (List.replicate n dataEvent).foldlM (step (fun _ => 0) .release gf16) ⟨filled m, d, []⟩ =
      .ok ⟨filled (m + n), d, []⟩ := by
  induction n generalizing m with
  | zero => rfl
  | succ n ih =>
    rw [List.replicate_succ, List.foldlM_cons]
    have hstep : step (fun _ => 0) .release gf16 ⟨filled m, d, []⟩ dataEvent =
        .ok ⟨filled (m + 1), d, []⟩ := by
      simp only [step, dataEvent, Event.data, data_filled (n := m) (by omega), ok_bind]
    rw [hstep, ok_bind, ih (by omega), Nat.add_right_comm m 1 n, Nat.add_assoc]

theorem eraseSources_pair (rest : List EncoderSource) (x y : EncoderSource) :
    eraseSources (x :: y :: rest) [x.id, y.id] = rest := by
  cases rest <;> simp [eraseSources]

/-- The decoder holds the first source and one 65537 after it. -/
def farEvents : List Event :=
  .setRate 70000 :: (List.replicate 65538 dataEvent ++
    [.toDecoder 0, .toDecoder 65537, .generateAck, .toEncoder 0])

theorem firstSources_succ (n : ℕ) : firstSources (n + 2) =
    ⟨0, [0]⟩ :: ⟨1, [0]⟩ :: (List.range' 2 n).map fun i => ⟨i, [0]⟩ := by
  rw [firstSources, List.range_eq_range', List.range'_succ, List.range'_succ]
  rfl

theorem sources_filled (n : ℕ) : (filled (n + 2)).sources =
    ⟨0, [0]⟩ :: ⟨1, [0]⟩ :: (List.range' 2 n).map fun i => ⟨i, [0]⟩ := firstSources_succ n

theorem farEvents_decoder : ∃ d1 d2 d3 : Decoder .w4, ∃ a,
    (Decoder.initial (fun _ => 0) true).call (fun _ => 0) .release gf16
      (.packet (writeSource ⟨0, [0]⟩)) = .ok d1 ∧
    d1.call (fun _ => 0) .release gf16 (.packet (writeSource ⟨65537, [0]⟩)) = .ok d2 ∧
    d2.call (fun _ => 0) .release gf16 .generateAck = .ok d3 ∧
    d3.sent = [a] ∧ a.held = [0, 65537] ∧ a.ack.sourceIds = ⟨[0, 65537], by decide⟩ := by
  have hrun : (do
      let d1 ← (Decoder.initial (fun _ => 0) true).call (fun _ => 0) .release gf16
        (.packet (writeSource ⟨0, [0]⟩))
      let d2 ← d1.call (fun _ => 0) .release gf16 (.packet (writeSource ⟨65537, [0]⟩))
      d2.call (fun _ => 0) .release gf16 .generateAck : Except Fault (Decoder .w4)).toOption.any
        (fun d3 => decide (d3.sent =
          [⟨⟨⟨[0, 65537], by decide⟩, 2⟩, [0, 65537]⟩])) = true := by
    decide +kernel
  obtain ⟨d3, hd3, hsent⟩ := exists_ok_of_any hrun
  simp only [bind_ok_iff] at hd3
  obtain ⟨d1, hd1, d2, hd2, hd3⟩ := hd3
  exact ⟨d1, d2, d3, _, hd1, hd2, hd3, by simpa using hsent, rfl, rfl⟩

theorem step_toDecoder {e : Encoder} {d' : Decoder .w4} {src : EncoderSource} {k : ℕ}
    (hk : e.sent[k]? = some (.source src))
    (hd : d.call (fun _ => 0) .release gf16 (.packet (writeSource src)) = .ok d') :
    step (fun _ => 0) .release gf16 ⟨e, d, []⟩ (.toDecoder k) = .ok ⟨e, d', []⟩ := by
  simp only [step, hk, WirePacket.bytes, hd, ok_bind]

theorem toEncoder_removed {a : SentAck} (hsent : d.sent = [a])
    (hids : (decodedIds a.ack.sourceIds).toList = [0, 1]) (hheld : 1 ∉ a.held) :
    ∃ s, step (fun _ => 0) .release gf16 ⟨filled (n + 2), d, []⟩ (.toEncoder 0) = .ok s ∧
      ∃ p ∈ s.removed, p.1.id ∉ p.2.held := by
  have hone : (⟨1, [0]⟩ : EncoderSource) ∈ (filled (n + 2)).sources := by
    rw [sources_filled]
    exact List.mem_cons_of_mem _ List.mem_cons_self
  have hgone : (⟨1, [0]⟩ : EncoderSource) ∉ eraseSources (filled (n + 2)).sources [0, 1] := by
    rw [sources_filled, eraseSources_pair _ ⟨0, [0]⟩ ⟨1, [0]⟩]
    simp
  simp only [step, hsent, List.getElem?_cons_zero, Encoder.call, notify_writeAck, Except.map, ok_bind]
  refine ⟨_, rfl, (⟨1, [0]⟩, a), List.mem_append_right _ (List.mem_map.mpr
    ⟨_, List.mem_filter.mpr ⟨hone, decide_eq_true ?_⟩, rfl⟩), hheld⟩
  show _ ∉ eraseSources (filled (n + 2)).sources (decodedIds a.ack.sourceIds).toList
  rw [hids]
  exact hgone

/-- A difference of 65537 is narrowed to 1, and source 1 is removed. -/
theorem farEvents_removed : ∃ s,
    farEvents.foldlM (step (fun _ => 0) .release gf16) (initial (fun _ => 0) true) = .ok s ∧
    ∃ p ∈ s.removed, p.1.id ∉ p.2.held := by
  obtain ⟨d1, d2, d3, a, hd1, hd2, hd3, hsent, hheld, hids⟩ := farEvents_decoder
  have hrate : step (fun _ => 0) .release gf16 (initial (fun _ => 0) true) (.setRate 70000) =
      .ok ⟨filled 0, Decoder.initial (fun _ => 0) true, []⟩ := rfl
  have hdecoded : (decodedIds ⟨[0, 65537], by decide⟩).toList = [0, 1] := by decide +kernel
  have hfirst : (filled 65538).sent[0]? = some (.source ⟨0, [0]⟩) := by
    simp [filled, firstSources]
  have hlast : (filled 65538).sent[65537]? = some (.source ⟨65537, [0]⟩) := by
    simp [filled, firstSources]
  have hack : step (fun _ => 0) .release gf16 ⟨filled 65538, d2, []⟩ .generateAck =
      .ok ⟨filled 65538, d3, []⟩ := by
    simp only [step, Event.generateAck, hd3, ok_bind]
  obtain ⟨s, hs, hremoved⟩ := toEncoder_removed (n := 65536) hsent (by rw [hids, hdecoded])
    (by rw [hheld]; decide)
  refine ⟨s, ?_, hremoved⟩
  rw [farEvents, List.foldlM_cons, hrate, ok_bind, List.foldlM_append, run_filled (by omega),
    ok_bind, Nat.zero_add, List.foldlM_cons, step_toDecoder hfirst hd1, ok_bind, List.foldlM_cons,
    step_toDecoder hlast hd2, ok_bind, List.foldlM_cons, hack, ok_bind, List.foldlM_cons, hs, ok_bind]
  rfl

end System

end Netcode
