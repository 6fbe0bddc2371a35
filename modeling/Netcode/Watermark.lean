import Netcode.Watermark.Calling

/-! The oldest identifier the decoder keeps is never past the front of the encoder's window: what is
outdated was acknowledged or evicted. -/
namespace Netcode

open Containers Encodings Runs

variable {w : FieldSize} {b : Build} {g : GfComplete w} {clock : ℕ → ℤ}

/-- The data an event commits. -/
def Event.committed : Event → List (List Byte)
  | .encoder c => Encoder.committed [c.1]
  | _ => []

namespace System

variable {s s' t : System w} {e : Event} {l l' : List Event} {D : List (List Byte)} {inOrder : Bool}
  {i : ℕ}

/-- An event takes a source out of the window: the oldest one of a full window when data is
committed, or one that the acknowledgement delivered names. -/
def TakesOut (s : System w) (i : ℕ) : Event → Prop
  | .encoder c => (∃ x, c.1 = .data x) ∧ s.encoder.sources.length = s.encoder.windowSize ∧
      (s.encoder.sources.map EncoderSource.id).head? = some i
  | .toEncoder k => ∃ a, s.decoder.sent[k]? = some a ∧ i ∈ decodedIds a.ack.sourceIds ∧
      i ∈ s.encoder.sources.map EncoderSource.id
  | _ => False

/-- During events, a source was acknowledged or evicted. -/
def TakenOut (clock : ℕ → ℤ) (b : Build) (g : GfComplete w) (inOrder : Bool) (l : List Event)
    (i : ℕ) : Prop :=
  ∃ l1 e l2 u, l = l1 ++ e :: l2 ∧
    l1.foldlM (step clock b g) (initial clock inOrder) = .ok u ∧ u.TakesOut i e

/-- What an event does to the encoder. -/
theorem step_called (h : s.step clock b g e = .ok s') : (s'.encoder = s.encoder ∧ e.committed = []) ∨
    ∃ c, Encoder.Called b g s.encoder c s'.encoder ∧ e.committed = Encoder.committed [c] ∧
      ((∃ c', e = .encoder c' ∧ c = c'.1) ∨ ∃ k a, e = .toEncoder k ∧
        s.decoder.sent[k]? = some a ∧ c = .packet (writeAck a.ack)) := by
  cases e with
  | encoder c =>
    simp only [step, bind_ok_iff, Except.ok.injEq] at h
    obtain ⟨u, hu, rfl⟩ := h
    exact Or.inr ⟨c.1, Encoder.call_called hu, rfl, Or.inl ⟨c, rfl, rfl⟩⟩
  | decoder c =>
    simp only [step, bind_ok_iff, Except.ok.injEq] at h
    obtain ⟨u, -, rfl⟩ := h
    exact Or.inl ⟨rfl, rfl⟩
  | toDecoder k =>
    rw [step] at h
    split at h
    · cases h
      exact Or.inl ⟨rfl, rfl⟩
    · simp only [bind_ok_iff, Except.ok.injEq] at h
      obtain ⟨u, -, rfl⟩ := h
      exact Or.inl ⟨rfl, rfl⟩
  | toEncoder k =>
    rw [step] at h
    split at h
    · cases h
      exact Or.inl ⟨rfl, rfl⟩
    · next a ha =>
      simp only [bind_ok_iff, Except.ok.injEq] at h
      obtain ⟨u, hu, rfl⟩ := h
      exact Or.inr ⟨_, Encoder.call_called hu, rfl, Or.inr ⟨k, a, rfl, ha, rfl⟩⟩

/-- What an event does to the decoder: at most one packet sent by the encoder is received. -/
theorem step_received (h : s.step clock b g e = .ok s') :
    s'.decoder.decoder = s.decoder.decoder ∨ ∃ k p q, e = .toDecoder k ∧ p ∈ s.encoder.sent ∧
      s'.encoder = s.encoder ∧ Decoder.Reads b p.bytes q ∧
      s.decoder.decoder.receive b g q = .ok s'.decoder.decoder := by
  cases e with
  | encoder c =>
    simp only [step, bind_ok_iff, Except.ok.injEq] at h
    obtain ⟨u, -, rfl⟩ := h
    exact Or.inl rfl
  | decoder c =>
    simp only [step, bind_ok_iff, Except.ok.injEq] at h
    obtain ⟨u, hu, rfl⟩ := h
    rcases Decoder.call_cases hu with heq | ⟨p, q, hc, -⟩
    · exact Or.inl heq
    · exact absurd hc (c.2 p)
  | toDecoder k =>
    rw [step] at h
    split at h
    · cases h
      exact Or.inl rfl
    · next p hp =>
      simp only [bind_ok_iff, Except.ok.injEq] at h
      obtain ⟨u, hu, rfl⟩ := h
      rcases Decoder.call_cases hu with heq | ⟨bytes, q, hc, hreads, hreceive⟩
      · exact Or.inl heq
      · cases hc
        exact Or.inr ⟨k, p, q, rfl, List.mem_of_getElem? hp, rfl, hreads, hreceive⟩
  | toEncoder k =>
    rw [step] at h
    split at h
    · cases h
      exact Or.inl rfl
    · simp only [bind_ok_iff, Except.ok.injEq] at h
      obtain ⟨u, -, rfl⟩ := h
      exact Or.inl rfl

/-- Repairs sent follow the window, and so does the oldest identifier to keep. -/
structure Ordered (D : List (List Byte)) (s : System w) : Prop where
  window : s.encoder.Window D
  repairs : ∀ r, .repair r ∈ s.encoder.sent → s.encoder.Follows r
  listed : s.decoder.decoder.ListedStored
  lastId : ∀ k, s.decoder.decoder.lastId = some k → s.encoder.StartsFrom k

/-- The first identifier read in a repair is not past the window. -/
theorem startsFrom_read {u : Encoder} {r : EncoderRepair} {q : DecoderRepair} (hr : u.Follows r)
    (hread : Decoder.Reads b (repairBytes r) (.repair q))
    (hq : Detail.Decoder.firstId q ∈ q.sourceIds) : u.StartsFrom (Detail.Decoder.firstId q) := by
  obtain ⟨-, n, hread⟩ := hread
  rw [readRepair_repairBytes b hr.length] at hread
  have hids : q.sourceIds = decodedIds r.sourceIds := by
    cases hread
    rfl
  rw [hids] at hq
  obtain ⟨k, hk⟩ : ∃ k, r.sourceIds.toList.head? = some k := by
    cases hl : r.sourceIds.toList with
    | nil =>
      rw [decodedIds, hl] at hq
      exact absurd hq FlatSet.not_mem_empty
    | cons k l => exact ⟨k, rfl⟩
  obtain ⟨h32, hstarts⟩ := hr.ids k hk
  have hle : Detail.Decoder.firstId q ≤ k :=
    Detail.Decoder.firstId_le (hids ▸ first_mem_decodedIds h32 hk hq)
  exact ⟨hle.trans hstarts.next, fun src hsrc => hle.trans (hstarts.window src hsrc)⟩

theorem ordered_step (hI : s.Ordered D) (hcount : (D ++ e.committed).length < 2 ^ 32)
    (h : s.step clock b g e = .ok s') : s'.Ordered (D ++ e.committed) := by
  have hkept : (∀ k, s.encoder.StartsFrom k → s'.encoder.StartsFrom k) ∧
      s'.encoder.Window (D ++ e.committed) ∧
      ∀ r, .repair r ∈ s'.encoder.sent → s'.encoder.Follows r := by
    rcases step_called h with ⟨henc, hc⟩ | ⟨c, hcalled, hc, -⟩
    · rw [henc, hc, List.append_nil]
      exact ⟨fun _ => id, hI.window, hI.repairs⟩
    · rw [hc] at hcount ⊢
      have hwindow := Encoder.window_called hI.window hcount hcalled
      refine ⟨fun k => Encoder.startsFrom_called hI.window hcount hcalled, hwindow, fun r hr => ?_⟩
      obtain ⟨sent, hsent, hsends⟩ := hcalled.sent
      rw [hsent] at hr
      rcases List.mem_append.mp hr with hr | hr
      · exact Encoder.follows_called hI.window hcount hcalled (hI.repairs r hr)
      · exact hsends.follows hwindow hcount hr
  obtain ⟨hstarts, hwindow, hrepairs⟩ := hkept
  rcases step_received h with heq | ⟨n, p, q, -, hp, henc, hreads, hreceive⟩
  · refine ⟨hwindow, hrepairs, heq ▸ hI.listed, fun k hk => hstarts k (hI.lastId k ?_)⟩
    rwa [heq] at hk
  · refine ⟨hwindow, hrepairs, Detail.Decoder.listedStored_receive hI.listed hreceive,
      fun k hk => ?_⟩
    rcases Detail.Decoder.receive_keeps hI.listed hreceive with hkeeps | ⟨r', rfl, hr', -, hlast, -⟩
    · exact hstarts k (hI.lastId k (hkeeps.lastId ▸ hk))
    · obtain rfl : Detail.Decoder.firstId r' = k := by
        rw [hlast] at hk
        exact Option.some.inj hk
      cases p with
      | ack a => simp [WirePacket.bytes, Decoder.Reads, writeAck, getPacketType] at hreads
      | source src =>
        simp [WirePacket.bytes, Decoder.Reads, writeSource, getPacketType, PacketType.code] at hreads
      | repair r => exact hstarts _ (startsFrom_read (hI.repairs r hp) hreads hr')

/-- A source leaves the window by an eviction or an acknowledgement. -/
theorem takesOut_of_gone (h : s.step clock b g e = .ok s')
    (hi : i ∈ s.encoder.sources.map EncoderSource.id)
    (hgone : i ∉ s'.encoder.sources.map EncoderSource.id) : s.TakesOut i e := by
  rcases step_called h with ⟨henc, -⟩ | ⟨c, hcalled, -, hevent⟩
  · exact absurd (henc ▸ hi) hgone
  · rcases hcalled.window with ⟨x, rfl, hs, -⟩ | ⟨-, -, hs | ⟨p, a, n, rfl, hread, hs⟩⟩
    · obtain ⟨c', rfl, hc'⟩ | ⟨k, a, -, -, hc'⟩ := hevent
      · rw [hs, List.map_append, List.mem_append, not_or, Encoder.kept] at hgone
        by_cases hfull : s.encoder.sources.length = s.encoder.windowSize
        · rw [if_pos hfull] at hgone
          refine ⟨⟨x, hc'.symm⟩, hfull, ?_⟩
          cases hl : s.encoder.sources with
          | nil => simp [hl] at hi
          | cons first rest =>
            rw [hl, List.map_cons, List.mem_cons] at hi
            rw [hl, List.tail_cons] at hgone
            rw [List.map_cons, List.head?_cons, hi.resolve_right hgone.1]
        · rw [if_neg hfull] at hgone
          exact absurd hi hgone.1
      · cases hc'
    · exact absurd (hs ▸ hi) hgone
    · obtain ⟨c', -, hc'⟩ | ⟨k, a', rfl, ha', hc'⟩ := hevent
      · exact absurd hc'.symm (c'.2 p)
      · cases hc'
        refine ⟨a', ha', ?_, hi⟩
        obtain ⟨src, hsrc, rfl⟩ := List.mem_map.mp hi
        have hids : a.sourceIds = decodedIds a'.ack.sourceIds := by
          rw [readAck_writeAck] at hread
          cases hread
          rfl
        rw [← hids, FlatSet.mem_iff]
        refine id_mem_of_erased hsrc fun hmem => hgone ?_
        rw [hs]
        exact List.mem_map_of_mem hmem

/-- A source committed is in the window afterwards. -/
theorem committed_or_new (h : s.step clock b g e = .ok s') (hi : i < s'.encoder.currentSourceId) :
    i < s.encoder.currentSourceId ∨ i ∈ s'.encoder.sources.map EncoderSource.id := by
  rcases step_called h with ⟨henc, -⟩ | ⟨c, hcalled, -, -⟩
  · exact Or.inl (henc ▸ hi)
  · rcases hcalled.window with ⟨x, rfl, hs, hn⟩ | ⟨-, hn, -⟩
    · rw [hn] at hi
      rcases Nat.lt_succ_iff_lt_or_eq.mp (hi.trans_le (Nat.mod_le _ _)) with hi | rfl
      · exact Or.inl hi
      · right
        rw [hs, List.map_append]
        exact List.mem_append_right _ (List.mem_singleton_self _)
    · exact Or.inl (hn ▸ hi)

theorem takenOut_append {l' : List Event} (h : TakenOut (w := w) clock b g inOrder l i) :
    TakenOut (w := w) clock b g inOrder (l ++ l') i := by
  obtain ⟨l1, e, l2, u, rfl, hu, he⟩ := h
  exact ⟨l1, e, l2 ++ l', u, by simp, hu, he⟩

/-- At the end of a run, every source committed is in the window, or was taken out of it. -/
theorem ordered_run (hcount : (l.flatMap Event.committed).length < 2 ^ 32)
    (h : l.foldlM (step clock b g) (initial clock inOrder) = .ok s) :
    s.Ordered (l.flatMap Event.committed) ∧ ∀ i < s.encoder.currentSourceId,
      i ∈ s.encoder.sources.map EncoderSource.id ∨ TakenOut (w := w) clock b g inOrder l i := by
  refine foldlM_inputs (fun done u => u.Ordered (done.flatMap Event.committed) ∧
    ∀ i < u.encoder.currentSourceId, i ∈ u.encoder.sources.map EncoderSource.id ∨
      TakenOut (w := w) clock b g inOrder done i) ?_ ?_ h
  · rintro done e rest u v hdone hu ⟨hordered, hout⟩ hv
    have hcommitted : (done ++ [e]).flatMap Event.committed =
        done.flatMap Event.committed ++ e.committed := by simp
    have hlen : (done.flatMap Event.committed ++ e.committed).length < 2 ^ 32 := by
      rw [hdone, List.flatMap_append, List.flatMap_cons, ← List.append_assoc, List.length_append]
        at hcount
      omega
    refine ⟨hcommitted ▸ ordered_step hordered hlen hv, fun i hi => ?_⟩
    by_cases hin : i ∈ v.encoder.sources.map EncoderSource.id
    · exact Or.inl hin
    · right
      have hold := (committed_or_new hv hi).resolve_right hin
      rcases hout i hold with hwindow | htaken
      · exact ⟨done, e, [], u, rfl, hu, takesOut_of_gone hv hwindow hin⟩
      · exact takenOut_append htaken
  · refine ⟨⟨Encoder.window_initial, ?_, ?_, ?_⟩, fun i hi => ?_⟩
    · exact fun r hr => absurd hr List.not_mem_nil
    · exact Detail.Decoder.listedStored_initial inOrder
    · exact fun k hk => by cases hk
    · exact absurd hi (Nat.not_lt_zero i)

theorem startsFrom_run (hI : s.Ordered D)
    (hcount : (D ++ l.flatMap Event.committed).length < 2 ^ 32)
    (h : l.foldlM (step clock b g) s = .ok t) {k : ℕ} (hk : s.encoder.StartsFrom k) :
    t.encoder.StartsFrom k := by
  induction l generalizing s D with
  | nil =>
    cases h
    exact hk
  | cons e l ih =>
    rw [List.foldlM_cons] at h
    obtain ⟨u, hu, h⟩ := bind_ok_iff.mp h
    rw [List.flatMap_cons, ← List.append_assoc] at hcount
    have hlen : (D ++ e.committed).length < 2 ^ 32 := by
      rw [List.length_append] at hcount
      omega
    refine ih (ordered_step hI hlen hu) hcount h ?_
    rcases step_called hu with ⟨henc, -⟩ | ⟨c, hcalled, hc, -⟩
    · rwa [henc]
    · exact Encoder.startsFrom_called hI.window (hc ▸ hlen) hcalled hk

/-- Whatever is lost, repeated or reordered: no source before the oldest identifier the decoder
keeps is in the encoder's window, now or later, and every source the decoder refuses as outdated, or
has forgotten as such, had been acknowledged or evicted. -/
theorem lastId_le_window (hcount : ((l ++ l').flatMap Event.committed).length < 2 ^ 32)
    (h : l.foldlM (step clock b g) (initial clock inOrder) = .ok s)
    (hlater : l'.foldlM (step clock b g) s = .ok t) :
    (∀ k, s.decoder.decoder.lastId = some k → ∀ src ∈ t.encoder.sources, k ≤ src.id) ∧
    (∀ i, s.decoder.decoder.outdated i = true → TakenOut (w := w) clock b g inOrder l i) ∧
    ∀ e s', s.step clock b g e = .ok s' → ∀ i, s.decoder.decoder.sources.contains i = true →
      s'.decoder.decoder.sources.contains i = false →
        TakenOut (w := w) clock b g inOrder l i := by
  rw [List.flatMap_append] at hcount
  obtain ⟨hordered, hout⟩ := ordered_run (by rw [List.length_append] at hcount; omega) h
  have htaken : ∀ k, s.encoder.StartsFrom k → ∀ i < k,
      TakenOut (w := w) clock b g inOrder l i := by
    intro k hk i hi
    refine (hout i (hi.trans_le hk.next)).resolve_left fun hmem => ?_
    obtain ⟨src, hsrc, rfl⟩ := List.mem_map.mp hmem
    exact (hk.window src hsrc).not_gt hi
  refine ⟨fun k hk => ?_, fun i hi => ?_, fun e s' hs i hi hgone => ?_⟩
  · exact (startsFrom_run hordered hcount hlater (hordered.lastId k hk)).window
  · obtain ⟨k, hk, hlt⟩ := Detail.Decoder.outdated_iff.mp hi
    exact htaken k (hordered.lastId k hk) i hlt
  · rcases step_received hs with heq | ⟨n, p, q, rfl, -, henc, -, hreceive⟩
    · rw [heq, hi] at hgone
      cases hgone
    · obtain ⟨k, hk, hlt⟩ := Detail.Decoder.outdated_iff.mp
        (Detail.Decoder.outdated_of_forgotten hordered.listed hreceive hi hgone)
      have hlen : (l.flatMap Event.committed ++ Event.committed (.toDecoder n)).length < 2 ^ 32 := by
        rw [show Event.committed (.toDecoder n) = [] from rfl, List.append_nil]
        rw [List.length_append] at hcount
        omega
      exact htaken k (henc ▸ (ordered_step hordered hlen hs).lastId k hk) i hlt

/-- A repair of sources 1 and 2 is delivered after source 0 was evicted. -/
def slidingEvents : List Event :=
  [.data [1], .data [2], .setWindowSize 2, .data [3], .generateRepair, .toDecoder 3]

theorem lastId_le_window_slidingEvents : ∃ s t,
    slidingEvents.foldlM (step (fun _ => 0) .debug gf16) (initial (fun _ => 0) true) = .ok s ∧
    [dataEvent].foldlM (step (fun _ => 0) .debug gf16) s = .ok t ∧
    s.decoder.decoder.lastId = some 1 ∧ (∀ src ∈ t.encoder.sources, 1 ≤ src.id) ∧
    TakenOut (fun _ => 0) .debug gf16 true slidingEvents 0 := by
  have hrun : (do
      let s ← slidingEvents.foldlM (step (fun _ => 0) .debug gf16) (initial (fun _ => 0) true)
      let t ← [dataEvent].foldlM (step (fun _ => 0) .debug gf16) s
      .ok (s, t) : Except Fault (System .w4 × System .w4)).toOption.any
        (fun st => decide (st.1.decoder.decoder.lastId = some 1)) = true := by
    decide +kernel
  obtain ⟨⟨s, t⟩, hst, hlast⟩ := exists_ok_of_any hrun
  simp only [bind_ok_iff, Except.ok.injEq, Prod.mk.injEq] at hst
  obtain ⟨s', hs, t', ht, rfl, rfl⟩ := hst
  have hlast := of_decide_eq_true hlast
  obtain ⟨hwindow, hout, -⟩ := lastId_le_window (by decide) hs ht
  refine ⟨s', t', hs, ht, hlast, hwindow 1 hlast, hout 0 ?_⟩
  rw [Detail.Decoder.outdated_some hlast]
  rfl

end System

end Netcode
