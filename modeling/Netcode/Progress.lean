import Netcode.Progress.Withstanding
import Netcode.Robustness

/-! Over a channel that loses packets but keeps their order, no event makes either end fail: what
reaches the decoder is always consistent with what it stores. -/
namespace Netcode

open Encodings Runs

variable {w : FieldSize} {b : Build} {g : GfComplete w} {clock : ℕ → ℤ}

namespace Decoder

variable {d d' : Decoder w} {p : WirePacket} {q : Detail.Incoming} {c : Call}

/-- What is read in the bytes of a packet is what this packet brings. -/
theorem incoming_of_reads (h : Reads b p.bytes q) : p.incoming b = .ok q := by
  cases p with
  | ack a =>
    have htype : getPacketType (writeAck a) = .ok .ack := by
      simp [writeAck, getPacketType, PacketType.code]
    cases q with
    | source src => exact absurd (htype.symm.trans h.1) (by simp)
    | repair r => exact absurd (htype.symm.trans h.1) (by simp)
  | repair r =>
    have htype : getPacketType (repairBytes r) = .ok .repair := by
      simp [repairBytes, getPacketType, PacketType.code]
    cases q with
    | source src => exact absurd (htype.symm.trans h.1) (by simp)
    | repair q =>
      obtain ⟨-, n, hread⟩ := h
      rw [WirePacket.incoming, show readRepair b (repairBytes r) = _ from hread]
      rfl
  | source src =>
    have htype : getPacketType (writeSource src) = .ok .source := by
      simp [writeSource, getPacketType, PacketType.code]
    cases q with
    | repair r => exact absurd (htype.symm.trans h.1) (by simp)
    | source q =>
      obtain ⟨-, n, hread⟩ := h
      rw [WirePacket.incoming, show readSource b (writeSource src) = _ from hread]
      rfl

theorem bytes_ne_nil (p : WirePacket) : p.bytes ≠ [] := by
  cases p <;> exact List.cons_ne_nil _ _

/-- The arguments the assertions of the public interface allow. -/
def Call.Admissible : Call → Prop
  | .packet p => p ≠ []
  | .setAckNbPackets nb => 0 < nb
  | _ => True

instance : (c : Call) → Decidable c.Admissible
  | .packet p => inferInstanceAs (Decidable (p ≠ []))
  | .setAckNbPackets nb => inferInstanceAs (Decidable (0 < nb))
  | .generateAck | .maybeAck | .setAckFrequency _ => inferInstanceAs (Decidable True)

theorem call_returns (hI : d.decoder.Sound) (hc : c.Admissible) (hfit : d.Withstands b g c) :
    ∃ d', d.call clock b g c = .ok d' := by
  cases c with
  | packet p =>
    have hreturns : ∃ d' y, d.notify clock b g p = .ok (d', y) := notify_returns hI hc hfit
    obtain ⟨d', y, h⟩ := hreturns
    exact ⟨d', by rw [call, h]; rfl⟩
  | setAckNbPackets nb =>
    have hassert : b.assert .zeroParameter (decide (0 < nb)) = .ok () :=
      Build.assert_eq_ok (decide_eq_true hc)
    exact ⟨{ d with ackNbPackets := min nb 128 }, by rw [call, hassert, ok_bind]⟩
  | generateAck => exact ⟨_, rfl⟩
  | maybeAck => exact ⟨_, rfl⟩
  | setAckFrequency f => exact ⟨_, rfl⟩

end Decoder

/-- The arguments the assertions of the public interface allow. -/
def Event.Admissible (w : FieldSize) : Event → Prop
  | .encoder c => c.1.Admissible w
  | .decoder c => c.1.Admissible
  | _ => True

instance (w : FieldSize) : (e : Event) → Decidable (e.Admissible w)
  | .encoder c => inferInstanceAs (Decidable (c.1.Admissible w))
  | .decoder c => inferInstanceAs (Decidable c.1.Admissible)
  | .toDecoder _ | .toEncoder _ => inferInstanceAs (Decidable True)

namespace System

variable {s s' : System w} {e : Event} {l : List Event} {inOrder : Bool}

theorem able_step (hI : s.encoder.Able w) (he : e.Admissible w)
    (h : s.step clock b g e = .ok s') : s'.encoder.Able w := by
  cases e with
  | encoder c =>
    simp only [step, bind_ok_iff, Except.ok.injEq] at h
    obtain ⟨u, hu, rfl⟩ := h
    exact Encoder.able_call hI he hu
  | decoder c =>
    simp only [step, bind_ok_iff, Except.ok.injEq] at h
    obtain ⟨u, -, rfl⟩ := h
    exact hI
  | toDecoder k =>
    rw [step] at h
    split at h
    · cases h
      exact hI
    · simp only [bind_ok_iff, Except.ok.injEq] at h
      obtain ⟨u, -, rfl⟩ := h
      exact hI
  | toEncoder k =>
    rw [step] at h
    split at h
    · cases h
      exact hI
    · simp only [bind_ok_iff, Except.ok.injEq] at h
      obtain ⟨u, hu, rfl⟩ := h
      exact Encoder.able_call (c := .packet _) hI (List.cons_ne_nil _ _) hu

theorem sound_step (hI : s.decoder.decoder.Sound) (h : s.step clock b g e = .ok s') :
    s'.decoder.decoder.Sound := by
  cases e with
  | encoder c =>
    simp only [step, bind_ok_iff, Except.ok.injEq] at h
    obtain ⟨u, -, rfl⟩ := h
    exact hI
  | decoder c =>
    simp only [step, bind_ok_iff, Except.ok.injEq] at h
    obtain ⟨u, hu, rfl⟩ := h
    exact Decoder.sound_call hI hu
  | toDecoder k =>
    rw [step] at h
    split at h
    · cases h
      exact hI
    · simp only [bind_ok_iff, Except.ok.injEq] at h
      obtain ⟨u, hu, rfl⟩ := h
      exact Decoder.sound_call hI hu
  | toEncoder k =>
    rw [step] at h
    split at h
    · cases h
      exact hI
    · simp only [bind_ok_iff, Except.ok.injEq] at h
      obtain ⟨u, -, rfl⟩ := h
      exact hI

/-- Data that can be sent is not narrowed to nothing. -/
theorem size_ne_zero {src : EncoderSource} (h : Sendable w src.symbol) : src.size ≠ 0 := by
  have hsize : src.size = src.symbol.length := Nat.mod_eq_of_lt (Nat.lt_succ_of_le h.2.1)
  rw [hsize]
  exact h.1.ne'

/-- The encoder generates a repair whenever its window holds a source. -/
theorem generable {c : Encoder.Call} {D : List (List Byte)} (hI : s.encoder.Window D)
    (hD : ∀ x ∈ D, Sendable w x) (hc : ∀ x ∈ Encoder.committed [c], Sendable w x)
    (hrepair : c = .generateRepair → s.encoder.sources ≠ []) : s.encoder.Generable c := by
  intro hgenerates
  cases c with
  | data x =>
    refine ⟨⟨s.encoder.currentSourceId, x⟩, List.mem_append_right _ (List.mem_singleton_self _), ?_⟩
    exact size_ne_zero (w := w) (hc x List.mem_cons_self)
  | generateRepair =>
    obtain ⟨src, hsrc⟩ := List.exists_mem_of_ne_nil _ (hrepair rfl)
    refine ⟨src, hsrc, size_ne_zero (w := w) (hD _ ?_)⟩
    exact List.mem_of_getElem? (hI.committed src hsrc)
  | packet p => cases hgenerates
  | setRate rate => cases hgenerates
  | setWindowSize sz => cases hgenerates
  | setCodeType systematic => cases hgenerates
  | setAdaptive adaptive => cases hgenerates

/-- The decoder withstands the next packet. -/
theorem Followed.withstands (hw : w ≠ .w32) {D : List (List Byte)} (hD : ∀ x ∈ D, Sendable w x)
    (hcount : D.length < 2 ^ 32) (hI : s.Followed b g inOrder l) (hb : Bounded l s)
    (hsound : s.decoder.decoder.Sound) (hF : s.decoder.decoder.Faithful g (Encoder.dataOf D))
    (hsent : ∀ p ∈ s.encoder.sent, p.Faithful g (Encoder.dataOf D)) {k : ℕ} {p : WirePacket}
    (hnew : ∀ j ∈ positions l, j < k) (hp : s.encoder.sent[k]? = some p) (he : p.EncodableIds)
    (hs : ∀ q, p.incoming b = .ok q →
      Equations.SparesEquation (coef g) (s.decoder.decoder.linksWith q)) :
    s.decoder.Withstands b g (.packet p.bytes) := by
  intro q hq
  have hincoming := Decoder.incoming_of_reads hq
  have hretained := Detail.Decoder.retained_run (hI.consistent hb) hI.run
  have hmem := List.mem_of_getElem? hp
  have hne : ∀ r, q = .repair r → r.sourceIds.toList ≠ [] := by
    rintro r rfl
    obtain ⟨r0, rfl⟩ := WirePacket.eq_repair hincoming
    obtain ⟨q', heq, -, hids⟩ := WirePacket.incoming_repair
      (hI.accounted.ordered.repairs r0 hmem).length (fun i hi => hI.fits hb hmem hi) he hincoming
    cases heq
    rw [hids]
    exact hI.logged.nonempty r0 hmem
  have hf := hI.followsStored hb hnew hp he hincoming hne
  have hsend : ∀ i x, Encoder.dataOf D i = some x → Sendable w x :=
    fun i x hx => hD x (List.mem_of_getElem? hx)
  have hcarry := (hsent p hmem).carries (b := b) hcount hD he hincoming
  exact Detail.Decoder.withstands_of_follows hw hsend hsound hretained.balanced hI.peeled hF
    (Decoder.reads_buffered hq) hcarry hf (hI.retains hb hf (hs q hincoming)) hne

/-- What a run leaves, from which its next step returns. -/
structure Ready (b : Build) (g : GfComplete w) (inOrder : Bool) (l : List Event) (s : System w) :
    Prop where
  followed : s.Followed b g inOrder l
  able : s.encoder.Able w
  sound : s.decoder.decoder.Sound
  faithful : s.decoder.decoder.Faithful g (Encoder.dataOf (l.flatMap Event.committed))
  sent : ∀ p ∈ s.encoder.sent, p.Faithful g (Encoder.dataOf (l.flatMap Event.committed))

theorem ready_run (hw : w ≠ .w32) (hD : ∀ x ∈ l.flatMap Event.committed, Sendable w x)
    (hl : ∀ x ∈ l, x.Admissible w) (hb : Bounded l s)
    (h : Run (step clock b g) (Orderly b g) (initial clock inOrder) l s) :
    s.Ready b g inOrder l := by
  have hadmissible := h.of_forall (D := fun (u : System w) (x : Event) => x.Admissible w)
    fun x hx _ _ => hl x hx
  have hable := hadmissible.invariant (fun u => u.encoder.Able w)
    (fun u x v hu hx hv => able_step hu hx hv) Encoder.able_initial
  have hsound := h.invariant (fun u => u.decoder.decoder.Sound)
    (fun u x v hu _ hv => sound_step hu hv) (Detail.Decoder.sound_initial inOrder)
  exact ⟨followed_run hb h, hable, hsound, faithful_fifo hw hD hb h,
    sent_faithful hw hD hb.sources h⟩

theorem Ready.returns (hI : s.Ready b g inOrder l) (hw : w ≠ .w32)
    (hD : ∀ x ∈ (l ++ [e]).flatMap Event.committed, Sendable w x) (he : e.Admissible w)
    (hb : Bounded l s) (hfifo : (positions (l ++ [e])).Pairwise (· < ·)) (hc : s.Orderly b g e)
    (hrepair : e = .generateRepair → s.encoder.sources ≠ []) :
    ∃ s', s.step clock b g e = .ok s' := by
  rw [committed_concat] at hD
  have hdone := fun x hx => hD x (List.mem_append_left _ hx)
  cases e with
  | encoder c =>
    have hnew : ∀ x ∈ Encoder.committed [c.1], Sendable w x :=
      fun x hx => hD x (List.mem_append_right _ hx)
    have hgen := generable hI.followed.accounted.ordered.window hdone hnew
      fun hc => hrepair (congrArg Event.encoder (Subtype.ext hc))
    obtain ⟨u, hu⟩ := Encoder.call_returns (b := b) (g := g) hI.able he hgen
    exact ⟨{ s with encoder := u }, by rw [step, hu, ok_bind]⟩
  | decoder c =>
    have hwithstands : s.decoder.Withstands b g c.1 := by
      cases hcall : c.1 with
      | packet p => exact absurd hcall (c.2 p)
      | _ => trivial
    have hreturns : ∃ u, s.decoder.call clock b g c.1 = .ok u :=
      Decoder.call_returns hI.sound he hwithstands
    obtain ⟨u, hu⟩ := hreturns
    exact ⟨{ s with decoder := u }, by rw [step, hu, ok_bind]⟩
  | toDecoder k =>
    obtain ⟨p, hp, hids⟩ := hc.sent k rfl
    rw [positions_concat, List.pairwise_append] at hfifo
    have hwithstands := hI.followed.withstands hw hdone hb.sources hb hI.sound hI.faithful hI.sent
      (fun j hj => hfifo.2.2 j hj k (List.mem_singleton_self k)) hp hids fun q hq =>
        hc.spares q (by rw [incoming, hp, Option.bind_some, hq]; rfl)
    have hreturns : ∃ u, s.decoder.call clock b g (.packet p.bytes) = .ok u :=
      Decoder.call_returns hI.sound (Decoder.bytes_ne_nil p) hwithstands
    obtain ⟨u, hu⟩ := hreturns
    refine ⟨{ s with decoder := u }, ?_⟩
    simp only [step, hp, hu, ok_bind]
  | toEncoder k =>
    rw [step]
    split
    · exact ⟨s, rfl⟩
    · next a _ =>
      obtain ⟨u, hu⟩ := Encoder.call_returns (b := b) (g := g) (c := .packet (writeAck a.ack))
        hI.able
        (List.cons_ne_nil _ _) fun h => by cases h
      exact ⟨_, by rw [hu, ok_bind]⟩

/-- Over a channel that loses packets but keeps their order, nothing fails: whatever the run, the next
call of either user and the next packet of either end make no assertion fail, read nothing out of
place and leave no decoding halfway. The data must be sendable, the parameters positive, and a repair
requested only when the window is not empty. -/
theorem step_returns_fifo (hw : w ≠ .w32)
    (hD : ∀ x ∈ (l ++ [e]).flatMap Event.committed, Sendable w x)
    (hl : ∀ x ∈ l ++ [e], x.Admissible w) (hb : Bounded l s)
    (hfifo : (positions (l ++ [e])).Pairwise (· < ·))
    (h : Run (step clock b g) (Orderly b g) (initial clock inOrder) l s) (hc : s.Orderly b g e)
    (hrepair : e = .generateRepair → s.encoder.sources ≠ []) :
    ∃ s', s.step clock b g e = .ok s' := by
  have hdone : ∀ x ∈ l.flatMap Event.committed, Sendable w x := fun x hx =>
    hD x (by rw [committed_concat]; exact List.mem_append_left _ hx)
  have hready := ready_run hw hdone (fun x hx => hl x (List.mem_append_left _ hx)) hb h
  exact hready.returns hw hD (hl e (List.mem_append_right _ (List.mem_singleton_self e))) hb hfifo hc
    hrepair

/-- The first two sources are lost and a repair of both is stored; another repair was sent. -/
def pendingEvents : List Event :=
  [.data [1], .data [2], .generateRepair, .toDecoder 2, .data [3], .generateRepair]

theorem step_returns_fifo_pendingEvents : ∃ s s',
    runWhile (step (fun _ => 0) .checked gf16) (fun s e => s.orderly .checked e = true)
      (initial (fun _ => 0) true) pendingEvents = some s ∧
    s.decoder.decoder.repairs.size = 1 ∧
    s.step (fun _ => 0) .checked gf16 (.toDecoder 4) = .ok s' := by
  have hrun : (runWhile (step (fun _ => 0) .checked gf16) (fun s e => s.orderly .checked e = true)
      (initial (fun _ => 0) true) pendingEvents).any (fun s => decide (
        s.decoder.decoder.repairs.size = 1 ∧ s.orderly .checked (.toDecoder 4) = true ∧
        (Encoder.repairsOf s.encoder.sent).length < 2 ^ 32)) = true := by
    decide +kernel
  obtain ⟨s, hs, hd⟩ := (Option.any_eq_true _ _).mp hrun
  obtain ⟨hsize, hnext, hrepairs⟩ := of_decide_eq_true hd
  have horderly := (run_of_runWhile hs).mono (D := Orderly .checked gf16)
    fun u e hc => orderly_spec hc
  obtain ⟨s', hs'⟩ := step_returns_fifo (e := .toDecoder 4) (by decide) (by decide) (by decide)
    ⟨by decide, hrepairs, by decide⟩ (by decide) horderly (orderly_spec hnext) (by rintro ⟨⟩)
  exact ⟨s, s', hs, hsize, hs'⟩

end System

end Netcode
