import Netcode.Robustness
import Netcode.Yielding

/-! How many received packets wait to be reported: the threshold is tested when a source is given, and
only then. -/
namespace Netcode.Decoder

open Containers Encodings Runs

variable {w : FieldSize} {b : Build} {g : GfComplete w} {clock : ℕ → ℤ} {d d' : Decoder w}
  {held : List ℕ} {l : List Detail.Callback} {c : Call} {calls : List Call} {inOrder : Bool}
  {p : List Byte} {q : Detail.Incoming} {y : Except Exception ℕ} {f m n nb : ℕ}

/-- A decoder after its parameters were set. -/
def configured (clock : ℕ → ℤ) (inOrder : Bool) (f nb : ℕ) : Decoder w :=
  { initial clock inOrder with
    ackFrequency := f
    ackNbPackets := nb }

/-- The packets received. -/
def received (d : Decoder w) : ℕ := d.nbReceivedRepairs + d.nbReceivedSources

/-- The packets reported by the acks sent. -/
def reported (d : Decoder w) : ℕ := (d.sent.map fun a => a.ack.nbPackets).sum

/-- The packets received are reported or counted in the pending ack, the threshold is `nb`. -/
structure Counting (nb : ℕ) (d : Decoder w) : Prop where
  threshold : d.ackNbPackets = nb
  accounted : d.received = d.reported + d.ack.nbPackets
  sound : d.decoder.Sound

/-- Fewer packets than the threshold wait to be reported. -/
def KeptUp (d : Decoder w) : Prop := d.ack.nbPackets < d.ackNbPackets

theorem counting_congr (hn : d'.ackNbPackets = d.ackNbPackets) (hr : d'.received = d.received)
    (hs : d'.sent = d.sent) (ha : d'.ack = d.ack) (hd : d'.decoder.Sound) (hI : d.Counting nb) :
    d'.Counting nb := by
  refine ⟨hn.trans hI.threshold, ?_, hd⟩
  rw [hr, reported, hs, ha]
  exact hI.accounted

theorem counting_generateAckOf (held : List ℕ) (hI : d.Counting nb) :
    (d.generateAckOf held).Counting nb := by
  refine ⟨hI.threshold, ?_, hI.sound⟩
  show d.received = _
  rw [hI.accounted, reported, reported, generateAckOf, List.map_append, List.sum_append]
  simp

theorem counting_maybeAckOf (held : List ℕ) (hI : d.Counting nb) :
    (d.maybeAckOf clock held).Counting nb := by
  have hack := counting_generateAckOf held hI
  rw [maybeAckOf]
  split
  · exact counting_congr (d := d.generateAckOf held) rfl rfl rfl rfl hack.sound hack
  · split
    · dsimp only
      split
      · exact counting_congr (d := d.generateAckOf held) rfl rfl rfl rfl hack.sound hack
      · exact counting_congr (d := d) rfl rfl rfl rfl hI.sound hI
    · exact hI

/-- Once the threshold is tested, fewer packets wait. -/
theorem keptUp_maybeAckOf (held : List ℕ) (hpos : 0 < d.ackNbPackets) :
    (d.maybeAckOf clock held).KeptUp := by
  rw [maybeAckOf]
  split
  · exact hpos
  · next hlt =>
    rw [not_le] at hlt
    split
    · dsimp only
      split
      · exact hpos
      · exact hlt
    · exact hlt

theorem handleSources_keeps (hpos : 0 < nb) (hI : d.Counting nb) (hl : l ≠ [] ∨ d.KeptUp) :
    (l.foldl (handleSource clock) d).Counting nb ∧ (l.foldl (handleSource clock) d).KeptUp := by
  induction l generalizing d with
  | nil => exact ⟨hI, hl.resolve_left fun h => h rfl⟩
  | cons c l ih =>
    have hgiven : ({ d with data := d.data ++ [c.source] } : Decoder w).Counting nb :=
      counting_congr (d := d) rfl rfl rfl rfl hI.sound hI
    refine ih (counting_maybeAckOf c.known hgiven) (Or.inr (keptUp_maybeAckOf c.known ?_))
    rw [hgiven.threshold]
    exact hpos

/-- A packet is counted when it is of a source or a repair. -/
def Counted (p : List Byte) : Prop :=
  getPacketType p = .ok .source ∨ getPacketType p = .ok .repair

/-- A call leaves fewer packets than the threshold waiting: a packet that is counted does not reach
it, or is read as a source or a repair that makes a source be given. -/
def KeepsUp (b : Build) (g : GfComplete w) (d : Decoder w) : Call → Prop
  | .packet p => Counted p → d.ack.nbPackets + 1 < d.ackNbPackets ∨
      ∃ q, Reads b p q ∧ d.decoder.Yields g q
  | .setAckNbPackets _ => False
  | _ => True

theorem forward_keeps (hpos : 0 < nb) (hI : d.Counting nb)
    (hq : Detail.Decoder.Incoming.Buffered q) (hkeeps : d.KeptUp ∨ d.decoder.Yields g q)
    (h : d.forward clock b g q = .ok d') : d'.Counting nb ∧ d'.KeptUp := by
  simp only [forward, bind_ok_iff, Except.ok.injEq] at h
  obtain ⟨u, hu, rfl⟩ := h
  have hsound := Detail.Decoder.sound_receive hI.sound hq hu
  refine handleSources_keeps hpos (counting_congr (d := d) rfl rfl rfl rfl hsound hI) ?_
  refine hkeeps.symm.imp_left fun hyields hnil => ?_
  have hgave := Detail.Decoder.receive_gives hI.sound.listed hI.sound.queued hyields hu
  exact absurd (List.drop_eq_nil_iff.mp hnil) (not_le.mpr hgave)

theorem handle_keeps {x : Except Stop (Detail.Incoming × ℕ)}
    (hpos : 0 < nb) (hI : d.Counting nb) (hx : ∀ q n, x = .ok (q, n) → Reads b p q)
    (hkeeps : d.KeptUp ∨ ∃ q n, x = .ok (q, n) ∧ d.decoder.Yields g q)
    (h : d.handle clock b g x = .ok (d', y)) : d'.Counting nb ∧ d'.KeptUp := by
  cases x with
  | error e =>
    have hkept : d.KeptUp := hkeeps.resolve_right fun ⟨q, n, hread, _⟩ => by cases hread
    cases e with
    | fault f => cases h
    | thrown e =>
      cases h
      exact ⟨hI, hkept⟩
  | ok qn =>
    obtain ⟨q, n⟩ := qn
    simp only [handle, bind_ok_iff, Except.ok.injEq, Prod.mk.injEq] at h
    obtain ⟨u, hu, rfl, -⟩ := h
    refine forward_keeps hpos hI (reads_buffered (hx q n rfl)) (hkeeps.imp_right ?_) hu
    rintro ⟨q', n', heq, hyields⟩
    cases heq
    exact hyields

/-- One more packet is received and counted. -/
theorem counting_countPacket (hI : d.Counting nb) (hlt : d.ack.nbPackets < 128)
    (hr : m + n = d.received + 1) :
    ({ d with nbReceivedRepairs := m, nbReceivedSources := n } : Decoder w).countPacket.Counting
        nb ∧
      ({ d with nbReceivedRepairs := m, nbReceivedSources := n } : Decoder w).countPacket.ack =
        { d.ack with nbPackets := d.ack.nbPackets + 1 } := by
  have hcount : (d.ack.nbPackets + 1) % 2 ^ 16 = d.ack.nbPackets + 1 :=
    Nat.mod_eq_of_lt (by omega)
  refine ⟨⟨hI.threshold, ?_, hI.sound⟩, by rw [countPacket, hcount]⟩
  show m + n = d.reported + (d.ack.nbPackets + 1) % 2 ^ 16
  rw [hr, hcount, hI.accounted, Nat.add_assoc]

theorem read_repair (htype : getPacketType p = .ok .repair) (h : Reads b p q) :
    ∃ n, (readRepair b p).map (fun r => (Detail.Incoming.repair r.1, r.2)) = .ok (q, n) := by
  cases q with
  | source src =>
    rw [h.1] at htype
    cases htype
  | repair r =>
    obtain ⟨-, n, hread⟩ := h
    exact ⟨n, by rw [hread]; rfl⟩

theorem read_source (htype : getPacketType p = .ok .source) (h : Reads b p q) :
    ∃ n, (readSource b p).map (fun s => (Detail.Incoming.source s.1, s.2)) = .ok (q, n) := by
  cases q with
  | source src =>
    obtain ⟨-, n, hread⟩ := h
    exact ⟨n, by rw [hread]; rfl⟩
  | repair r =>
    rw [h.1] at htype
    cases htype

/-- A call that returns either counts no packet, or counts one and handles what is read in it. -/
theorem notify_cases (hI : d.Counting nb) (hlt : d.ack.nbPackets < 128)
    (h : d.notify clock b g p = .ok (d', y)) : ¬ Counted p ∧ d' = d ∨
      Counted p ∧ ∃ (d1 : Decoder w) (x : Except Stop (Detail.Incoming × ℕ)),
        d1.Counting nb ∧ d1.ack.nbPackets = d.ack.nbPackets + 1 ∧
        d1.decoder = d.decoder ∧ (∀ q, Reads b p q ↔ ∃ n, x = .ok (q, n)) ∧
        d1.handle clock b g x = .ok (d', y) := by
  simp only [notify, bind_ok_iff] at h
  obtain ⟨-, -, h⟩ := h
  cases htype : getPacketType p with
  | error e =>
    rw [htype] at h
    cases e with
    | fault f => cases h
    | thrown e =>
      cases h
      exact Or.inl ⟨by simp [Counted, htype], rfl⟩
  | ok ty =>
    rw [htype] at h
    cases ty with
    | ack =>
      cases h
      exact Or.inl ⟨by simp [Counted, htype], rfl⟩
    | repair =>
      obtain ⟨hI1, hack⟩ := counting_countPacket (m := d.nbReceivedRepairs + 1)
        (n := d.nbReceivedSources) hI hlt (Nat.succ_add _ _)
      exact Or.inr ⟨Or.inr htype, _, _, hI1, by rw [hack], rfl,
        fun q => ⟨read_repair htype, fun hq => hq.elim fun _ => reads_repair htype⟩, h⟩
    | source =>
      obtain ⟨hI1, hack⟩ := counting_countPacket (m := d.nbReceivedRepairs)
        (n := d.nbReceivedSources + 1) hI hlt rfl
      exact Or.inr ⟨Or.inl htype, _, _, hI1, by rw [hack], rfl,
        fun q => ⟨read_source htype, fun hq => hq.elim fun _ => reads_source htype⟩, h⟩

theorem notify_keeps (hpos : 0 < nb) (hle : nb ≤ 128) (hI : d.Counting nb) (hkept : d.KeptUp)
    (hc : KeepsUp b g d (.packet p)) (h : d.notify clock b g p = .ok (d', y)) :
    d'.Counting nb ∧ d'.KeptUp := by
  have hlt : d.ack.nbPackets < 128 := by
    rw [KeptUp, hI.threshold] at hkept
    omega
  obtain ⟨-, rfl⟩ | ⟨hcounted, d1, x, hI1, hack, hdec, hreads, h1⟩ := notify_cases hI hlt h
  · exact ⟨hI, hkept⟩
  refine handle_keeps (p := p) hpos hI1 (fun q n hread => (hreads q).mpr ⟨n, hread⟩) ?_ h1
  rcases hc hcounted with hbelow | ⟨q, hq, hyields⟩
  · left
    rw [KeptUp, hack, hI1.threshold, ← hI.threshold]
    exact hbelow
  · obtain ⟨n, hread⟩ := (hreads q).mp hq
    exact Or.inr ⟨q, n, hread, hdec ▸ hyields⟩

/-- With assertions, the threshold is reached otherwise. -/
theorem notify_exceeds (hb : b.asserts = true) (hle : nb ≤ 128) (hI : d.Counting nb)
    (hkept : d.KeptUp) (hc : ¬ KeepsUp b g d (.packet p))
    (h : d.notify clock b g p = .ok (d', y)) : nb ≤ d'.ack.nbPackets := by
  have hlt : d.ack.nbPackets < 128 := by
    rw [KeptUp, hI.threshold] at hkept
    omega
  rw [KeepsUp] at hc
  push Not at hc
  obtain ⟨hcounted, hreached, hno⟩ := hc
  obtain ⟨hnot, -⟩ | ⟨-, d1, x, hI1, hack, hdec, hreads, h1⟩ := notify_cases hI hlt h
  · exact absurd hcounted hnot
  have hfull : nb ≤ d1.ack.nbPackets := by
    rw [hack, ← hI.threshold]
    exact hreached
  cases x with
  | error e =>
    cases e with
    | fault f => cases h1
    | thrown e =>
      cases h1
      exact hfull
  | ok qn =>
    obtain ⟨q, n⟩ := qn
    simp only [handle, forward, bind_ok_iff, Except.ok.injEq, Prod.mk.injEq] at h1
    obtain ⟨u, ⟨v, hv, rfl⟩, rfl, -⟩ := h1
    have hquiet := Detail.Decoder.receive_quiet hb hI1.sound.listed
      (hdec ▸ hno q ((hreads q).mpr ⟨n, rfl⟩)) hv
    rw [hquiet, List.drop_length]
    exact hfull

theorem call_keeps (hpos : 0 < nb) (hle : nb ≤ 128) (hI : d.Counting nb) (hkept : d.KeptUp)
    (hc : KeepsUp b g d c) (h : d.call clock b g c = .ok d') : d'.Counting nb ∧ d'.KeptUp := by
  cases c with
  | packet p =>
    obtain ⟨⟨u, y⟩, hn, rfl⟩ := map_ok_iff.mp h
    exact notify_keeps hpos hle hI hkept hc hn
  | generateAck =>
    cases h
    refine ⟨counting_generateAckOf _ hI, ?_⟩
    show 0 < d.ackNbPackets
    rw [hI.threshold]
    exact hpos
  | maybeAck =>
    cases h
    exact ⟨counting_maybeAckOf _ hI, keptUp_maybeAckOf _ (by rw [hI.threshold]; exact hpos)⟩
  | setAckFrequency f =>
    cases h
    exact ⟨counting_congr (d := d) rfl rfl rfl rfl hI.sound hI, hkept⟩
  | setAckNbPackets nb => exact hc.elim

/-- In every run in which no packet reaches the threshold without making a source be given, fewer
packets than the threshold wait to be reported and the count of the pending ack does not wrap; with
assertions, a further packet leaves it so if and only if it does not either. -/
theorem keptUp_run (hpos : 0 < nb) (hle : nb ≤ 128)
    (h : Run (call clock b g) (KeepsUp b g) (configured clock inOrder f nb) calls d) :
    d.ack.nbPackets < nb ∧ d.received = d.reported + d.ack.nbPackets ∧
    (b.asserts = true → ∀ p d', d.call clock b g (.packet p) = .ok d' →
      (d'.ack.nbPackets < nb ↔ KeepsUp b g d (.packet p))) := by
  have hstart : (configured clock inOrder f nb : Decoder w).Counting nb :=
    ⟨rfl, rfl, Detail.Decoder.sound_initial inOrder⟩
  obtain ⟨hI, hkept⟩ := h.invariant (fun u => u.Counting nb ∧ u.KeptUp)
    (fun u c v hu hc hv => call_keeps hpos hle hu.1 hu.2 hc hv) ⟨hstart, hpos⟩
  refine ⟨hI.threshold ▸ hkept, hI.accounted, fun hb p d' hd' => ?_⟩
  obtain ⟨⟨u, y⟩, hn, rfl⟩ := map_ok_iff.mp hd'
  constructor
  · intro hlt
    by_contra hc
    exact absurd hlt (notify_exceeds hb hle hI hkept hc hn).not_gt
  · intro hc
    obtain ⟨hI', hkept'⟩ := notify_keeps hpos hle hI hkept hc hn
    rw [KeptUp, hI'.threshold] at hkept'
    exact hkept'

/-- With a threshold of one packet, a source that is given is reported at once. -/
theorem keptUp_run_zeroBytes : ∃ d : Decoder .w4,
    Run (call (fun _ => 0) .checked gf16) (KeepsUp .checked gf16)
      (configured (fun _ => 0) true 0 1) [.packet zeroBytes] d ∧
    d.ack.nbPackets < 1 ∧ d.received = d.reported + d.ack.nbPackets ∧ d.reported = 1 := by
  have hcall : ((configured (fun _ => 0) true 0 1).call (fun _ => 0) .checked gf16
      (.packet zeroBytes)).toOption.any (fun d : Decoder .w4 => decide (d.reported = 1)) = true := by
    decide +kernel
  obtain ⟨d, hd, hcheck⟩ := exists_ok_of_any hcall
  have hrun : Run (call (fun _ => 0) .checked gf16) (KeepsUp .checked gf16)
      (configured (fun _ => 0) true 0 1) [.packet zeroBytes] d := by
    refine .cons (fun _ => Or.inr ⟨.source ⟨0, zeroBytes.drop 7, 1⟩, ⟨rfl, 8, rfl⟩, ?_⟩) hd .nil
    exact ⟨rfl, rfl, fun _ => Or.inl rfl⟩
  obtain ⟨hkept, haccounted, -⟩ := keptUp_run (by decide) (by decide) hrun
  exact ⟨d, hrun, hkept, haccounted, of_decide_eq_true hcheck⟩

/-- The copy of a source is counted but makes no source be given: with a threshold of one packet, it
waits to be reported. -/
theorem zeroBytes_waits : (packets .checked gf16 [.data [1]]).map WirePacket.bytes = [zeroBytes] ∧
    ∃ d : Decoder .w4, [Call.setAckFrequency 0, Call.setAckNbPackets 1, Call.packet zeroBytes,
      Call.packet zeroBytes].foldlM (call (fun _ => 0) .checked gf16) (initial (fun _ => 0) true) =
        .ok d ∧ d.ackNbPackets = 1 ∧ ¬ d.ack.nbPackets < 1 := by
  have hrun : ([Call.setAckFrequency 0, Call.setAckNbPackets 1, Call.packet zeroBytes,
      Call.packet zeroBytes].foldlM (call (fun _ => 0) .checked gf16)
        (initial (fun _ => 0) true)).toOption.any (fun d : Decoder .w4 =>
          decide (d.ackNbPackets = 1 ∧ ¬ d.ack.nbPackets < 1)) = true := by
    decide +kernel
  obtain ⟨d, hd, hcheck⟩ := exists_ok_of_any hrun
  exact ⟨by decide +kernel, d, hd, of_decide_eq_true hcheck⟩

end Netcode.Decoder
