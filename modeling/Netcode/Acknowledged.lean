import Netcode.Acknowledged.Held

/-! What was acknowledged is not lost: the decoder still knows it, or its oldest identifier to keep
is past it. -/
namespace Netcode.System

open Containers Encodings Runs

variable {w : FieldSize} {b : Build} {g : GfComplete w} {clock : ℕ → ℤ}

variable {s s' : System w} {e : Event} {l : List Event} {D : List (List Byte)} {inOrder : Bool}
  {i : ℕ}

/-- What the real decoder receives. -/
def incoming (b : Build) (s : System w) : Event → Option Detail.Incoming
  | .toDecoder k => s.encoder.sent[k]?.bind fun p => (p.incoming b).toOption
  | _ => none

/-- Data is not committed to a full window. -/
def room (s : System w) : Event → Bool
  | .encoder c => (Encoder.committed [c.1]).isEmpty ||
      decide (s.encoder.sources.length ≠ s.encoder.windowSize)
  | _ => true

/-- No source is evicted, acknowledgements are read as they were written, and the oldest identifier
the decoder keeps does not move backwards. -/
structure Accounts (b : Build) (s : System w) (e : Event) : Prop where
  room : s.room e = true
  near : s.near e = true
  advances : ∀ q, s.incoming b e = some q → s.decoder.decoder.retreats q = false

/-- What an event brings the real decoder. -/
theorem step_incoming (h : s.step clock b g e = .ok s') :
    s.incoming b e = none ∧ s'.decoder.decoder = s.decoder.decoder ∨
      ∃ q, s.incoming b e = some q ∧
        s.decoder.decoder.receive b g q = .ok s'.decoder.decoder := by
  cases e with
  | encoder c =>
    simp only [step, bind_ok_iff, Except.ok.injEq] at h
    obtain ⟨u, -, rfl⟩ := h
    exact Or.inl ⟨rfl, rfl⟩
  | decoder c =>
    simp only [step, bind_ok_iff, Except.ok.injEq] at h
    obtain ⟨u, hu, rfl⟩ := h
    rcases Decoder.call_cases hu with heq | ⟨p, q, hc, -⟩
    · exact Or.inl ⟨rfl, heq⟩
    · exact absurd hc (c.2 p)
  | toDecoder k =>
    rw [step] at h
    cases hk : s.encoder.sent[k]? with
    | none =>
      rw [hk] at h
      cases h
      exact Or.inl ⟨by rw [incoming, hk]; rfl, rfl⟩
    | some p =>
      simp only [hk, bind_ok_iff, Except.ok.injEq] at h
      obtain ⟨u, hu, rfl⟩ := h
      rcases Decoder.call_bytes hu with ⟨hp, heq⟩ | ⟨q, v, hp, hv, hf⟩
      · exact Or.inl ⟨by rw [incoming, hk]; exact hp, heq.decoder⟩
      · refine Or.inr ⟨q, by rw [incoming, hk, Option.bind_some, hp]; rfl, ?_⟩
        simp only [Decoder.forward, bind_ok_iff, Except.ok.injEq] at hf
        obtain ⟨t, ht, rfl⟩ := hf
        rw [Decoder.decoder_handleSources]
        exact hv.decoder ▸ ht
  | toEncoder k =>
    rw [step] at h
    split at h
    · cases h
      exact Or.inl ⟨rfl, rfl⟩
    · simp only [bind_ok_iff, Except.ok.injEq] at h
      obtain ⟨u, -, rfl⟩ := h
      exact Or.inl ⟨rfl, rfl⟩

theorem held_step (hL : s.decoder.decoder.ListedStored) (hc : s.Accounts b e)
    (h : s.step clock b g e = .ok s') (hi : s.decoder.decoder.Held i) :
    s'.decoder.decoder.Held i := by
  rcases step_incoming h with ⟨-, heq⟩ | ⟨q, hq, hreceive⟩
  · rwa [heq]
  · exact Detail.Decoder.held_receive hL (hc.advances q hq) hreceive hi

theorem answers_step (hL : s.decoder.decoder.ListedStored) (hI : s.decoder.Answers)
    (hc : s.Accounts b e) (h : s.step clock b g e = .ok s') : s'.decoder.Answers := by
  cases e with
  | encoder c =>
    simp only [step, bind_ok_iff, Except.ok.injEq] at h
    obtain ⟨u, -, rfl⟩ := h
    exact hI
  | decoder c =>
    simp only [step, bind_ok_iff, Except.ok.injEq] at h
    obtain ⟨u, hu, rfl⟩ := h
    exact (Decoder.answers_quiet c.2 hI hu).2
  | toDecoder k =>
    rw [step] at h
    cases hk : s.encoder.sent[k]? with
    | none =>
      rw [hk] at h
      cases h
      exact hI
    | some p =>
      simp only [hk, bind_ok_iff, Except.ok.injEq] at h
      obtain ⟨u, hu, rfl⟩ := h
      rcases Decoder.call_bytes hu with ⟨-, heq⟩ | ⟨q, v, hp, hv, hf⟩
      · rw [Decoder.Answers, heq.decoder, heq.sent]
        exact hI
      · refine Decoder.answers_forward (hv.decoder ▸ hL) ?_ ?_ hf
        · rw [hv.decoder]
          exact hc.advances q (by rw [incoming, hk, Option.bind_some, hp]; rfl)
        · rw [Decoder.Answers, hv.decoder, hv.sent]
          exact hI
  | toEncoder k =>
    rw [step] at h
    split at h
    · cases h
      exact hI
    · simp only [bind_ok_iff, Except.ok.injEq] at h
      obtain ⟨u, -, rfl⟩ := h
      exact hI

/-- Every source committed is in the window or held by the decoder. -/
structure Accounted (D : List (List Byte)) (s : System w) : Prop where
  ordered : s.Ordered D
  safe : s.Safe
  answers : s.decoder.Answers
  sources : ∀ i < s.encoder.currentSourceId,
    i ∈ s.encoder.sources.map EncoderSource.id ∨ s.decoder.decoder.Held i

/-- What leaves the window is held. -/
theorem held_of_takesOut (hI : s.Accounted D) (hc : s.Accounts b e) (h : s.TakesOut i e) :
    s.decoder.decoder.Held i := by
  cases e with
  | encoder c =>
    obtain ⟨⟨x, hx⟩, hfull, -⟩ := h
    have hroom := hc.room
    rw [room, hx] at hroom
    simp [Encoder.committed, hfull] at hroom
  | decoder c => exact h.elim
  | toDecoder k => exact h.elim
  | toEncoder k =>
    obtain ⟨a, ha, hi, -⟩ := h
    obtain ⟨hids, hfit⟩ := hI.safe.acknowledging.sent a (List.mem_of_getElem? ha)
    have hnear := hc.near
    rw [near, ha, Option.all_some, List.all_eq_true] at hnear
    refine hI.answers a (List.mem_of_getElem? ha) i ?_
    rw [← hids, ← FlatSet.mem_iff]
    refine decodedIds_subset (fun j hj => hfit j (hids ▸ hj)) (fun x hx => ?_) hi
    exact of_decide_eq_true (hnear x (hids ▸ hx))

theorem accounted_step (hI : s.Accounted D) (hcount : (D ++ e.committed).length < 2 ^ 32)
    (hc : s.Accounts b e) (h : s.step clock b g e = .ok s') : s'.Accounted (D ++ e.committed) := by
  have hL := hI.ordered.listed
  refine ⟨ordered_step hI.ordered hcount h, safe_step hI.safe hc.near h,
    answers_step hL hI.answers hc h, fun i hi => ?_⟩
  rcases committed_or_new h hi with hi | hi
  · by_cases hin : i ∈ s'.encoder.sources.map EncoderSource.id
    · exact Or.inl hin
    · right
      refine held_step hL hc h ?_
      refine (hI.sources i hi).elim (fun hwindow => ?_) id
      exact held_of_takesOut hI hc (takesOut_of_gone h hwindow hin)
  · exact Or.inl hi

theorem accounted_initial (inOrder : Bool) :
    (initial clock inOrder : System w).Accounted [] := by
  refine ⟨⟨Encoder.window_initial, ?_, ?_, ?_⟩, ⟨Decoder.acknowledging_initial inOrder, ?_⟩, ?_, ?_⟩
  · exact fun r hr => absurd hr List.not_mem_nil
  · exact Detail.Decoder.listedStored_initial inOrder
  · exact fun k hk => by cases hk
  · exact fun p hp => by cases hp
  · exact fun a ha => by cases ha
  · exact fun i hi => absurd hi (Nat.not_lt_zero i)

theorem committed_concat (l : List Event) (e : Event) :
    (l ++ [e]).flatMap Event.committed = l.flatMap Event.committed ++ e.committed := by
  rw [List.flatMap_append, List.flatMap_singleton]

theorem accounted_run (hcount : (l.flatMap Event.committed).length < 2 ^ 32)
    (h : Run (step clock b g) (Accounts b) (initial clock inOrder) l s) :
    s.Accounted (l.flatMap Event.committed) := by
  have hstart : (([] : List Event).flatMap Event.committed).length < 2 ^ 32 →
      (initial clock inOrder : System w).Accounted (([] : List Event).flatMap Event.committed) :=
    fun _ => accounted_initial inOrder
  have hrun := h.inputs (fun done u => (done.flatMap Event.committed).length < 2 ^ 32 →
    u.Accounted (done.flatMap Event.committed)) ?_ hstart
  · exact hrun hcount
  · rintro done u e v hI hc hs hlen
    rw [committed_concat] at hlen ⊢
    refine accounted_step (hI ?_) hlen hc hs
    rw [List.length_append] at hlen
    omega

/-- Whatever is lost, repeated or reordered, no source is lost track of: in every run that evicts
none, reads acknowledgements as they were written and keeps the decoder from moving backwards, every
source committed is in the window, or known to the decoder, or older than all it keeps; so is every
source that it acknowledged. -/
theorem window_or_held (hcount : (l.flatMap Event.committed).length < 2 ^ 32)
    (h : Run (step clock b g) (Accounts b) (initial clock inOrder) l s) :
    (∀ i < s.encoder.currentSourceId,
      i ∈ s.encoder.sources.map EncoderSource.id ∨ s.decoder.decoder.Held i) ∧
    ∀ a ∈ s.decoder.sent, ∀ i ∈ a.held, s.decoder.decoder.Held i := by
  have hI := accounted_run hcount h
  exact ⟨hI.sources, hI.answers⟩

/-- Source 0 is acknowledged and leaves the window, then a repair of source 1 makes it outdated. -/
def forgettingEvents : List Event :=
  [.data [1], .toDecoder 0, .generateAck, .toEncoder 0, .data [2], .generateRepair, .toDecoder 2]

theorem window_or_held_forgettingEvents : ∃ s,
    runWhile (step (fun _ => 0) .release gf16) (fun s e => s.room e = true ∧ s.near e = true ∧
      (s.incoming .release e).all (fun q => !s.decoder.decoder.retreats q) = true)
      (initial (fun _ => 0) true) forgettingEvents = some s ∧
    s.encoder.currentSourceId = 2 ∧ s.encoder.sources.map EncoderSource.id = [1] ∧
    s.decoder.decoder.Held 0 := by
  have hrun : (runWhile (step (fun _ => 0) .release gf16) (fun s e => s.room e = true ∧
      s.near e = true ∧ (s.incoming .release e).all
        (fun q => !s.decoder.decoder.retreats q) = true) (initial (fun _ => 0) true)
      forgettingEvents).any (fun s => decide (s.encoder.currentSourceId = 2 ∧
        s.encoder.sources.map EncoderSource.id = [1])) = true := by
    decide +kernel
  obtain ⟨s, hs, hids⟩ := (Option.any_eq_true _ _).mp hrun
  obtain ⟨hnext, hwindow⟩ := of_decide_eq_true hids
  have haccounts := (run_of_runWhile hs).mono (D := Accounts .release) fun u e hc =>
    ⟨hc.1, hc.2.1, fun q hq => by simpa [hq] using hc.2.2⟩
  obtain ⟨hsources, -⟩ := window_or_held (by decide) haccounts
  refine ⟨s, hs, hnext, hwindow, (hsources 0 (by omega)).resolve_left ?_⟩
  rw [hwindow]
  decide

end Netcode.System
