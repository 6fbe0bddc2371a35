import Netcode.Passing.Proceeding

/-! Over a channel that keeps the order of packets, the data the user is given is data that was
committed, each at most once. -/
namespace Netcode

open Runs

variable {w : FieldSize} {b : Build} {g : GfComplete w} {clock : ℕ → ℤ}

namespace Decoder

variable {d d' : Decoder w} {c : Call} {held : List ℕ} {q : Detail.Incoming}

theorem data_maybeAckOf (d : Decoder w) : (d.maybeAckOf clock held).data = d.data := by
  rw [maybeAckOf]
  split
  · rfl
  · split
    · dsimp only
      split
      · rfl
      · rfl
    · rfl

theorem data_handleSources (l : List Detail.Callback) (d : Decoder w) :
    (l.foldl (handleSource clock) d).data = d.data ++ l.map Detail.Callback.source := by
  induction l generalizing d with
  | nil => exact (List.append_nil _).symm
  | cons c l ih =>
    rw [List.foldl_cons, ih, handleSource, data_maybeAckOf, List.map_cons]
    exact List.append_assoc d.data [c.source] _

/-- The user is given what the real decoder gives to the callback. -/
def Hands (d : Decoder w) : Prop := d.data = d.decoder.callbacks.map Detail.Callback.source

theorem hands_forward (hL : d.decoder.ListedStored) (hI : d.Hands)
    (h : d.forward clock b g q = .ok d') : d'.Hands := by
  simp only [forward, bind_ok_iff, Except.ok.injEq] at h
  obtain ⟨u, hu, rfl⟩ := h
  obtain ⟨cs, hcs, -⟩ := Detail.Decoder.calls_receive hL hu
  rw [Hands, data_handleSources, decoder_handleSources, hcs, List.drop_left, List.map_append]
  exact congrArg (· ++ cs.map Detail.Callback.source) hI

theorem hands_quiet (hc : ∀ p, c ≠ .packet p) (hI : d.Hands) (h : d.call clock b g c = .ok d') :
    d'.Hands := by
  cases c with
  | packet p => exact absurd rfl (hc p)
  | generateAck =>
    cases h
    exact hI
  | maybeAck =>
    cases h
    rw [Hands, maybeAck, data_maybeAckOf, decoder_maybeAckOf]
    exact hI
  | setAckFrequency f =>
    cases h
    exact hI
  | setAckNbPackets nb =>
    simp only [call, bind_ok_iff, Except.ok.injEq] at h
    obtain ⟨-, -, rfl⟩ := h
    exact hI

end Decoder

namespace System

variable {s s' : System w} {e : Event} {l : List Event} {inOrder : Bool}

theorem hands_step (hL : s.decoder.decoder.ListedStored) (hI : s.decoder.Hands)
    (h : s.step clock b g e = .ok s') : s'.decoder.Hands := by
  cases e with
  | encoder c =>
    simp only [step, bind_ok_iff, Except.ok.injEq] at h
    obtain ⟨u, -, rfl⟩ := h
    exact hI
  | decoder c =>
    simp only [step, bind_ok_iff, Except.ok.injEq] at h
    obtain ⟨u, hu, rfl⟩ := h
    exact Decoder.hands_quiet c.2 hI hu
  | toDecoder k =>
    rw [step] at h
    split at h
    · cases h
      exact hI
    · simp only [bind_ok_iff, Except.ok.injEq] at h
      obtain ⟨u, hu, rfl⟩ := h
      rcases Decoder.call_bytes hu with ⟨-, heq⟩ | ⟨q, v, -, hv, hf⟩
      · rw [Decoder.Hands, heq.data, heq.decoder]
        exact hI
      · refine Decoder.hands_forward (hv.decoder ▸ hL) ?_ hf
        rw [Decoder.Hands, hv.data, hv.decoder]
        exact hI
  | toEncoder k =>
    rw [step] at h
    split at h
    · cases h
      exact hI
    · simp only [bind_ok_iff, Except.ok.injEq] at h
      obtain ⟨u, -, rfl⟩ := h
      exact hI

/-- The encoder was called for what was committed. -/
theorem encoder_run (h : l.foldlM (step clock b g) (initial clock inOrder : System w) = .ok s) :
    ∃ cs, Encoder.run b g cs = .ok s.encoder ∧
      Encoder.committed cs = l.flatMap Event.committed := by
  refine foldlM_inputs (fun done u => ∃ cs, Encoder.run b g cs = .ok u.encoder ∧
    Encoder.committed cs = done.flatMap Event.committed) ?_ ⟨[], rfl, rfl⟩ h
  rintro done e - u v - - ⟨cs, hcs, hdata⟩ hv
  rw [committed_concat, ← hdata]
  rcases step_calls hv with ⟨henc, hc⟩ | ⟨-, c, hcall, hc⟩
  · exact ⟨cs, henc ▸ hcs, by rw [hc, List.append_nil]⟩
  · exact ⟨cs ++ [c], foldlM_concat hcs hcall, by rw [hc, Encoder.committed_append]⟩

theorem Followed.named (hI : s.Followed b g inOrder l) (hb : Bounded l s) {q : Detail.Incoming}
    {i : ℕ} (hq : q ∈ arrivals b s.encoder.sent (positions l)) (hi : i ∈ q.ids) :
    i < s.encoder.currentSourceId := by
  cases q with
  | repair q =>
    obtain ⟨k, -, r, hr, -, hids⟩ := hI.received hb hq
    refine hI.logged.committed _ (List.mem_of_getElem? hr) i ?_
    rw [WirePacket.ids, ← hids]
    exact hi
  | source q =>
    obtain ⟨k, -, p, hp, hread⟩ := WirePacket.mem_arrivals.mp hq
    have hmem := List.mem_of_getElem? hp
    cases p with
    | ack a => cases hread
    | repair r =>
      rw [WirePacket.incoming] at hread
      obtain ⟨x, -, hx⟩ := map_ok_iff.mp hread
      cases hx
    | source src =>
      obtain ⟨q', heq, hid⟩ := WirePacket.incoming_source
        (hI.fits hb hmem (List.mem_singleton_self _)) hread
      cases heq
      rw [List.mem_singleton.mp hi, hid]
      exact hI.logged.committed _ hmem src.id (List.mem_singleton_self _)

/-- What the encoder sent combines the data committed. -/
theorem sent_faithful (hw : w ≠ .w32) (hD : ∀ x ∈ l.flatMap Event.committed, Sendable w x)
    (hcount : (l.flatMap Event.committed).length < 2 ^ 32)
    (h : Run (step clock b g) (Orderly b g) (initial clock inOrder) l s) :
    ∀ p ∈ s.encoder.sent, p.Faithful g (Encoder.dataOf (l.flatMap Event.committed)) := by
  obtain ⟨cs, hcs, hcommitted⟩ := encoder_run (run_iff_foldlM.mp (h.mono fun _ _ _ => trivial))
  rw [← hcommitted] at hD hcount ⊢
  exact Encoder.faithful_run hw hD hcount hcs

/-- What the decoder holds and gives is the data committed. -/
theorem faithful_fifo (hw : w ≠ .w32) (hD : ∀ x ∈ l.flatMap Event.committed, Sendable w x)
    (hb : Bounded l s) (h : Run (step clock b g) (Orderly b g) (initial clock inOrder) l s) :
    s.decoder.decoder.Faithful g (Encoder.dataOf (l.flatMap Event.committed)) := by
  have hI := followed_run hb h
  have hcarry := arrivals_carry (b := b) hb.sources hD (sent_faithful hw hD hb.sources h)
    fun k hk p hp => by
      obtain ⟨p', hp', he⟩ := hI.sent k hk
      exact Option.some.inj (hp'.symm.trans hp) ▸ he
  exact Detail.Decoder.faithful_carried hw hD hcarry hI.run

/-- Fewer than 2^32 sources are committed, so that the last identifier is never named. -/
theorem Followed.notLast (hI : s.Followed b g inOrder l) (hb : Bounded l s)
    {q : Detail.Incoming} (hq : q ∈ arrivals b s.encoder.sent (positions l)) :
    Detail.Decoder.namesLast q = false := by
  rw [Detail.Decoder.namesLast, List.any_eq_false]
  intro i hi
  have hlt := hI.named hb hq hi
  have hnext := hI.accounted.ordered.window.next
  have hsources := hb.sources
  rw [decide_eq_true_eq]
  omega

/-- The user is given what the real decoder gives to the callback. -/
theorem hands_run (h : Run (step clock b g) (Orderly b g) (initial clock inOrder) l s) :
    s.decoder.Hands := by
  refine (h.invariant (fun u => u.decoder.decoder.ListedStored ∧ u.decoder.Hands) ?_
    ⟨Detail.Decoder.listedStored_initial inOrder, rfl⟩).2
  rintro u e v ⟨hL, hu⟩ - hv
  refine ⟨?_, hands_step hL hu hv⟩
  rcases step_incoming hv with ⟨-, heq⟩ | ⟨q, -, hreceive⟩
  · rw [heq]
    exact hL
  · exact Detail.Decoder.listedStored_receive hL hreceive

theorem hands_delivered (h : s.decoder.Hands) :
    s.decoder.data.map DecoderSource.id = s.decoder.decoder.delivered := by
  rw [h, List.map_map]
  rfl

/-- What the user is given is the data committed. -/
theorem intact_fifo (hw : w ≠ .w32) (hD : ∀ x ∈ l.flatMap Event.committed, Sendable w x)
    (hb : Bounded l s) (h : Run (step clock b g) (Orderly b g) (initial clock inOrder) l s) :
    ∀ src ∈ s.decoder.data, src.Intact (Encoder.dataOf (l.flatMap Event.committed)) := by
  intro src hsrc
  rw [hands_run h] at hsrc
  obtain ⟨c, hc, rfl⟩ := List.mem_map.mp hsrc
  exact ((faithful_fifo hw hD hb h).callbacks c hc).1

/-- The user is given each source at most once, and in increasing order by an in-order decoder. -/
theorem once_fifo (hb : Bounded l s)
    (h : Run (step clock b g) (Orderly b g) (initial clock inOrder) l s) :
    (s.decoder.data.map DecoderSource.id).Nodup ∧
    (inOrder = true → (s.decoder.data.map DecoderSource.id).Pairwise (· < ·)) := by
  have hI := followed_run hb h
  rw [hands_delivered (hands_run h)]
  exact Detail.Decoder.delivered_of_retains (fun _ hq => hI.notLast hb hq) hI.run

/-- Over a channel that loses packets but keeps their order, the user of the decoder is given the
data committed, each at most once, and in increasing order by an in-order decoder. So it is in every
run that evicts no source, reads what travels as it was written and whose failed full decodings only
drop redundant repairs. -/
theorem data_fifo (hw : w ≠ .w32) (hD : ∀ x ∈ l.flatMap Event.committed, Sendable w x)
    (hb : Bounded l s) (h : Run (step clock b g) (Orderly b g) (initial clock inOrder) l s) :
    (∀ src ∈ s.decoder.data, src.Intact (Encoder.dataOf (l.flatMap Event.committed))) ∧
    (s.decoder.data.map DecoderSource.id).Nodup ∧
    (inOrder = true → (s.decoder.data.map DecoderSource.id).Pairwise (· < ·)) :=
  ⟨intact_fifo hw hD hb h, once_fifo hb h⟩

theorem data_fifo_lossyEvents : ∃ s,
    runWhile (step (fun _ => 0) .release gf16) (fun s e => s.orderly .release e = true)
      (initial (fun _ => 0) true) lossyEvents = some s ∧
    s.decoder.data.map DecoderSource.id = [0, 1, 2, 3] ∧
    ∀ src ∈ s.decoder.data, src.Intact (Encoder.dataOf [[1], [2], [3], [4]]) := by
  have hrun : (runWhile (step (fun _ => 0) .release gf16) (fun s e => s.orderly .release e = true)
      (initial (fun _ => 0) true) lossyEvents).any (fun s => decide (
        s.decoder.data.map DecoderSource.id = [0, 1, 2, 3] ∧
        (Encoder.repairsOf s.encoder.sent).length < 2 ^ 32)) = true := by
    decide +kernel
  obtain ⟨s, hs, hd⟩ := (Option.any_eq_true _ _).mp hrun
  obtain ⟨hids, hrepairs⟩ := of_decide_eq_true hd
  have horderly := (run_of_runWhile hs).mono (D := Orderly .release gf16)
    fun u e hc => orderly_spec hc
  obtain ⟨hintact, -, -⟩ :=
    data_fifo (by decide) (by decide) ⟨by decide, hrepairs, by decide⟩ horderly
  exact ⟨s, hs, hids, hintact⟩

end System

end Netcode
