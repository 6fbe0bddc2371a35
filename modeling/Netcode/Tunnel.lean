import Netcode.Library.Merging
import Netcode.Tunnel.Peers

/-! Both ends of a two-way channel, and what is seen of it in one direction. -/
namespace Netcode

open Encodings Runs Merging

variable {w : FieldSize} {b : Build} {g : GfComplete w}

inductive Side
  | left
  | right
deriving DecidableEq

def Side.other : Side → Side
  | .left => .right
  | .right => .left

theorem Side.other_ne (i : Side) : i.other ≠ i := by cases i <;> decide

theorem Side.other_inj {i j : Side} : i.other = j.other ↔ i = j := by
  cases i <;> cases j <;> decide

theorem Side.eq_other {i j : Side} (h : j ≠ i) : j = i.other := by
  revert h
  cases i <;> cases j <;> decide

structure Tunnel (w : FieldSize) where
  left : Peer w
  right : Peer w

namespace Tunnel

/-- What happens next: a user calls one end, or a packet of one end, known by its position in the
flow, reaches the other. A packet that never does is lost. -/
inductive Event
  | encoder (i : Side) (c : { c : Encoder.Call // ∀ p, c ≠ .packet p })
  | decoder (i : Side) (c : { c : Decoder.Call // ∀ p, c ≠ .packet p })
  | pass (i : Side) (k : ℕ)

namespace Event

def data (i : Side) (d : List Byte) : Event := .encoder i ⟨.data d, Event.data_ne_packet d⟩

def generateRepair (i : Side) : Event := .encoder i ⟨.generateRepair, Event.generateRepair_ne_packet⟩

def generateAck (i : Side) : Event := .decoder i ⟨.generateAck, Event.generateAck_ne_packet⟩

end Event

def peer (t : Tunnel w) : Side → Peer w
  | .left => t.left
  | .right => t.right

def set (t : Tunnel w) : Side → Peer w → Tunnel w
  | .left, p => { t with left := p }
  | .right, p => { t with right := p }

theorem peer_set (t : Tunnel w) (i j : Side) (p : Peer w) :
    (t.set i p).peer j = if j = i then p else t.peer j := by
  cases i <;> cases j <;> rfl

def initial (clock : Side → ℕ → ℤ) (inOrder : Side → Bool) : Tunnel w :=
  ⟨Peer.initial (clock .left) (inOrder .left), Peer.initial (clock .right) (inOrder .right)⟩

def step (clock : Side → ℕ → ℤ) (b : Build) (g : GfComplete w) (t : Tunnel w) :
    Event → Except Fault (Tunnel w)
  | .encoder i c => do
    let e ← (t.peer i).encoder.call b g c.1
    .ok (t.set i ((t.peer i).setEncoder e))
  | .decoder i c => do
    let d ← (t.peer i).decoder.call (clock i) b g c.1
    .ok (t.set i ((t.peer i).setDecoder d))
  | .pass i k =>
    match (t.peer i).flow[k]? with
    | none => .ok t
    | some p => do
      let q := t.peer i.other
      let r ← dispatch (clock i.other) b g q.encoder q.decoder p.bytes
      .ok (t.set i.other ((q.setEncoder r.1).setDecoder r.2.1))

/-- An event as it is seen in the direction that starts from a side: sources and repairs go one way,
and acknowledgements the other way. -/
def Event.oneWay (t : Tunnel w) (i : Side) : Event → Option Netcode.Event
  | .encoder j c => if j = i then some (.encoder c) else none
  | .decoder j c => if j = i.other then some (.decoder c) else none
  | .pass j k => (t.peer j).flow[k]?.bind fun p =>
    if p.isData then
      if j = i then some (.toDecoder (rank WirePacket.isData (t.peer j).flow k)) else none
    else if j = i.other then
      some (.toEncoder (rank WirePacket.isAck (t.peer j).flow k))
    else none

variable {clock : Side → ℕ → ℤ} {t t' : Tunnel w} {s : System w} {i j : Side} {x : Event}
  {l : List Event} {u : Encoder} {v : Decoder w}

/-- In the direction that starts from a side, its encoder sends to the decoder of the other one. -/
structure Views (t : Tunnel w) (i : Side) (s : System w) : Prop where
  encoder : s.encoder = (t.peer i).encoder
  decoder : s.decoder = (t.peer i.other).decoder

theorem Views.setEncoder (h : t.Views i s) (removed : List (EncoderSource × SentAck)) :
    (t.set i ((t.peer i).setEncoder u)).Views i ⟨u, s.decoder, removed⟩ := by
  constructor
  · rw [peer_set, if_pos rfl]
    rfl
  · rw [peer_set, if_neg i.other_ne]
    exact h.decoder

theorem Views.setDecoder (h : t.Views i s) :
    (t.set i.other ((t.peer i.other).setDecoder v)).Views i { s with decoder := v } := by
  constructor
  · rw [peer_set, if_neg i.other_ne.symm]
    exact h.encoder
  · rw [peer_set, if_pos rfl]
    rfl

theorem Views.setEncoder_of_ne (h : t.Views i s) (hj : j ≠ i) :
    (t.set j ((t.peer j).setEncoder u)).Views i s := by
  obtain rfl := Side.eq_other hj
  constructor
  · rw [peer_set, if_neg i.other_ne.symm]
    exact h.encoder
  · rw [peer_set, if_pos rfl]
    exact h.decoder

theorem Views.setDecoder_of_ne (h : t.Views i s) (hj : j ≠ i.other) :
    (t.set j ((t.peer j).setDecoder v)).Views i s := by
  obtain rfl : j = i := by
    by_contra hne
    exact hj (Side.eq_other hne)
  constructor
  · rw [peer_set, if_pos rfl]
    exact h.encoder
  · rw [peer_set, if_neg j.other_ne]
    exact h.decoder

/-- Each flow merges what its encoder and its decoder sent. -/
def Merged (t : Tunnel w) : Prop := ∀ j, (t.peer j).Merged

theorem Merged.set (hI : t.Merged) {p : Peer w} (h : p.Merged) : (t.set i p).Merged := by
  intro j
  rw [peer_set]
  split
  · exact h
  · exact hI j

/-- A source or a repair reaches the decoder, and the encoder stays. -/
theorem step_pass_data {p : WirePacket} {k : ℕ} (hp : (t.peer j).flow[k]? = some p)
    (hdata : p.isData = true) : t.step clock b g (.pass j k) =
      ((t.peer j.other).decoder.call (clock j.other) b g (.packet p.bytes)).map fun v =>
        t.set j.other ((t.peer j.other).setDecoder v) := by
  simp only [step, hp, dispatch_data hdata, Decoder.call]
  cases (t.peer j.other).decoder.notify (clock j.other) b g p.bytes with
  | error f => rfl
  | ok r =>
    show Except.ok (t.set j.other (((t.peer j.other).setEncoder _).setDecoder r.1)) = _
    rw [Peer.setEncoder_self]
    rfl

/-- An acknowledgement reaches the encoder, and the decoder stays. -/
theorem step_pass_ack {p : WirePacket} {k : ℕ} (hp : (t.peer j).flow[k]? = some p)
    (hack : p.isData = false) : t.step clock b g (.pass j k) =
      ((t.peer j.other).encoder.call b g (.packet p.bytes)).map fun u =>
        t.set j.other ((t.peer j.other).setEncoder u) := by
  simp only [step, hp, dispatch_ack hack, Encoder.call]
  cases (t.peer j.other).encoder.notify b p.bytes with
  | error f => rfl
  | ok r =>
    have hself : ((t.peer j.other).setEncoder r.1).setDecoder (t.peer j.other).decoder =
        (t.peer j.other).setEncoder r.1 := Peer.setDecoder_self
    show Except.ok (t.set j.other (((t.peer j.other).setEncoder r.1).setDecoder _)) = _
    rw [hself]
    rfl

/-- A packet reaches the end it is for; the other one stays. -/
theorem step_pass {p : WirePacket} {k : ℕ} (hp : (t.peer j).flow[k]? = some p)
    (h : t.step clock b g (.pass j k) = .ok t') :
    (p.isData = true ∧ ∃ v, (t.peer j.other).decoder.call (clock j.other) b g (.packet p.bytes) =
      .ok v ∧ t' = t.set j.other ((t.peer j.other).setDecoder v)) ∨
    (p.isData = false ∧ ∃ u, (t.peer j.other).encoder.call b g (.packet p.bytes) = .ok u ∧
      t' = t.set j.other ((t.peer j.other).setEncoder u)) := by
  cases hdata : p.isData with
  | true =>
    rw [step_pass_data hp hdata] at h
    obtain ⟨v, hv, rfl⟩ := map_ok_iff.mp h
    exact Or.inl ⟨rfl, v, hv, rfl⟩
  | false =>
    rw [step_pass_ack hp hdata] at h
    obtain ⟨u, hu, rfl⟩ := map_ok_iff.mp h
    exact Or.inr ⟨rfl, u, hu, rfl⟩

theorem merged_step (hI : t.Merged) (h : t.step clock b g x = .ok t') : t'.Merged := by
  cases x with
  | encoder j c =>
    simp only [step, bind_ok_iff, Except.ok.injEq] at h
    obtain ⟨u, hu, rfl⟩ := h
    exact hI.set (Peer.merged_setEncoder (hI j) hu)
  | decoder j c =>
    simp only [step, bind_ok_iff, Except.ok.injEq] at h
    obtain ⟨v, hv, rfl⟩ := h
    exact hI.set (Peer.merged_setDecoder (hI j) hv)
  | pass j k =>
    cases hp : (t.peer j).flow[k]? with
    | none =>
      simp only [step, hp, Except.ok.injEq] at h
      exact h ▸ hI
    | some p =>
      rcases step_pass hp h with ⟨-, v, hv, rfl⟩ | ⟨-, u, hu, rfl⟩
      · exact hI.set (Peer.merged_setDecoder (hI _) hv)
      · exact hI.set (Peer.merged_setEncoder (hI _) hu)

/-- An acknowledgement reaches the encoder. -/
theorem step_toEncoder {c : ℕ → ℤ} {k : ℕ} {a : SentAck} (ha : s.decoder.sent[k]? = some a)
    (hu : s.encoder.call b g (.packet (writeAck a.ack)) = .ok u) :
    ∃ removed, s.step c b g (.toEncoder k) = .ok ⟨u, s.decoder, removed⟩ := by
  simp only [System.step, ha, hu, ok_bind]
  exact ⟨_, rfl⟩

/-- In each direction, a step is a step of the one-way system, or changes nothing. -/
theorem step_oneWay (hI : t.Merged) (hs : t.Views i s) (h : t.step clock b g x = .ok t') :
    (x.oneWay t i = none ∧ t'.Views i s) ∨ ∃ y s', x.oneWay t i = some y ∧
      s.step (clock i.other) b g y = .ok s' ∧ t'.Views i s' := by
  cases x with
  | encoder j c =>
    simp only [step, bind_ok_iff, Except.ok.injEq] at h
    obtain ⟨u, hu, rfl⟩ := h
    by_cases hj : j = i
    · subst hj
      refine Or.inr ⟨.encoder c, _, if_pos rfl, ?_, hs.setEncoder s.removed⟩
      rw [System.step, hs.encoder, hu, ok_bind]
    · exact Or.inl ⟨if_neg hj, hs.setEncoder_of_ne hj⟩
  | decoder j c =>
    simp only [step, bind_ok_iff, Except.ok.injEq] at h
    obtain ⟨v, hv, rfl⟩ := h
    by_cases hj : j = i.other
    · subst hj
      refine Or.inr ⟨.decoder c, _, if_pos rfl, ?_, hs.setDecoder⟩
      rw [System.step, hs.decoder, hv, ok_bind]
    · exact Or.inl ⟨if_neg hj, hs.setDecoder_of_ne hj⟩
  | pass j k =>
    cases hp : (t.peer j).flow[k]? with
    | none =>
      simp only [step, hp, Except.ok.injEq] at h
      exact Or.inl ⟨by rw [Event.oneWay, hp, Option.bind_none], h ▸ hs⟩
    | some p =>
      rcases step_pass hp h with ⟨hdata, v, hv, rfl⟩ | ⟨hack, u, hu, rfl⟩
      · by_cases hj : j = i
        · subst hj
          refine Or.inr ⟨.toDecoder (rank WirePacket.isData (t.peer j).flow k), _, ?_, ?_,
            hs.setDecoder⟩
          · rw [Event.oneWay, hp, Option.bind_some, if_pos hdata, if_pos rfl]
          · have hsent := getElem?_filter_rank hp hdata
            rw [(hI j).data, ← hs.encoder] at hsent
            simp only [System.step, hsent]
            rw [hs.decoder, hv, ok_bind]
        · refine Or.inl ⟨?_, hs.setDecoder_of_ne fun h => hj (Side.other_inj.mp h)⟩
          rw [Event.oneWay, hp, Option.bind_some, if_pos hdata, if_neg hj]
      · by_cases hj : j = i.other
        · subst hj
          have hi : i.other.other = i := by cases i <;> rfl
          rw [hi] at hu ⊢
          have hacked : p.isAck = true := by
            rw [WirePacket.isAck, hack]
            rfl
          have hsent := getElem?_filter_rank hp hacked
          rw [(hI i.other).acks, ← hs.decoder, List.getElem?_map, Option.map_eq_some_iff] at hsent
          obtain ⟨a, ha, rfl⟩ := hsent
          rw [← hs.encoder] at hu
          obtain ⟨removed, hstep⟩ := step_toEncoder (c := clock i.other) ha hu
          refine Or.inr ⟨.toEncoder (rank WirePacket.isAck (t.peer i.other).flow k), _, ?_, hstep,
            hs.setEncoder removed⟩
          rw [Event.oneWay, hp, Option.bind_some, if_neg (by rw [hack]; exact Bool.false_ne_true),
            if_pos rfl]
        · have hother : j.other ≠ i := by
            rintro rfl
            exact hj (by cases j <;> rfl)
          refine Or.inl ⟨?_, hs.setEncoder_of_ne hother⟩
          rw [Event.oneWay, hp, Option.bind_some, if_neg (by rw [hack]; exact Bool.false_ne_true),
            if_neg hj]

end Tunnel

end Netcode
