import Netcode.Streaming.Scattered

/-! Over a channel that keeps the order of packets, nothing the decoder held is left out: in order,
the user is given a prefix of the data, up to the first source the decoder does not hold. -/
namespace Netcode.System

open Containers Runs

variable {w : FieldSize} {b : Build} {g : GfComplete w} {clock : ℕ → ℤ}

variable {s s' : System w} {e : Event} {l : List Event} {inOrder : Bool} {i k : ℕ}
  {q : Detail.Incoming}

/-- What a repair makes outdated has left the window, hence is held. -/
theorem Followed.spares (hI : s.Followed b g inOrder l) (hb : Bounded l s) {p : WirePacket}
    (hp : p ∈ s.encoder.sent) (he : p.EncodableIds) (hq : p.incoming b = .ok q) :
    s.decoder.decoder.Spares q := by
  cases q with
  | source src => trivial
  | repair r =>
    obtain ⟨r0, rfl⟩ := WirePacket.eq_repair hq
    have hfollows := hI.accounted.ordered.repairs r0 hp
    obtain ⟨q', heq, -, hids⟩ := WirePacket.incoming_repair hfollows.length
      (fun i hi => hI.fits hb hp hi) he hq
    cases heq
    have hmem : Detail.Decoder.firstId r ∈ r.sourceIds :=
      Detail.Decoder.firstId_mem (hids ▸ hI.logged.nonempty r0 hp)
    have hhead := Detail.Decoder.head_eq_firstId hmem
    rw [hids] at hhead
    obtain ⟨-, hstarts⟩ := hfollows.ids _ hhead
    intro i hi
    refine (hI.accounted.sources i (hi.trans_le hstarts.next)).resolve_left fun hw => ?_
    obtain ⟨src, hsrc, rfl⟩ := List.mem_map.mp hw
    exact absurd (hstarts.window src hsrc) hi.not_ge

theorem continues_step (hI : s.Followed b g inOrder l) (hb : Bounded (l ++ [e]) s')
    (hc : s.Orderly b g e) (h : s.step clock b g e = .ok s') (hq : s.incoming b e = some q)
    (hlast : Detail.Decoder.namesLast q = false) : s.decoder.decoder.Continues g q := by
  obtain ⟨later, hlater⟩ := sent_step h
  have hbefore := hb.before hlater
  have hretained := Detail.Decoder.retained_run (hI.consistent hbefore) hI.run
  have hfollows := hI.follows hb hc h hq
  obtain ⟨k, p, hk, hp, hpq⟩ := incoming_some hq
  obtain ⟨p', hp', he⟩ := hc.sent k hk
  obtain rfl : p = p' := Option.some.inj (hp.symm.trans hp')
  exact ⟨hretained.balanced.linked, hI.peeled, hI.retains hbefore hfollows (hc.spares q hq),
    hfollows, hI.spares hbefore (List.mem_of_getElem? hp) he hpq, hlast⟩

/-- The packets received over a channel that keeps their order continue what was received. -/
theorem continues_run (hb : Bounded l s)
    (h : Run (step clock b g) (Orderly b g) (initial clock inOrder) l s) :
    Run (Detail.Decoder.receive b g) (fun d p => d.Continues g p)
      (Detail.Decoder.initial inOrder) (arrivals b s.encoder.sent (positions l))
      s.decoder.decoder := by
  have hstart : Bounded [] (initial clock inOrder : System w) →
      (initial clock inOrder : System w).Followed b g inOrder [] ∧
      Run (Detail.Decoder.receive b g)
        (fun d p => Detail.Decoder.namesLast p = false → d.Continues g p)
        (Detail.Decoder.initial inOrder) [] (Detail.Decoder.initial inOrder) :=
    fun _ => ⟨followed_initial inOrder, .nil⟩
  have hrun := h.inputs (fun done u => Bounded done u → u.Followed b g inOrder done ∧
    Run (Detail.Decoder.receive b g)
      (fun d p => Detail.Decoder.namesLast p = false → d.Continues g p)
      (Detail.Decoder.initial inOrder) (arrivals b u.encoder.sent (positions done))
      u.decoder.decoder) ?_ hstart
  · exact (hrun hb).2.of_forall fun q hq d hc => hc ((hrun hb).1.notLast hb hq)
  · rintro done u e v hI hc hs hb'
    obtain ⟨later, hlater⟩ := sent_step hs
    obtain ⟨hfollowed, hdone⟩ := hI (hb'.before hlater)
    refine ⟨followed_step hfollowed hb' hc hs, ?_⟩
    have hlen : ∀ k ∈ positions done, k < u.encoder.sent.length := by
      intro k hk
      obtain ⟨p, hp, -⟩ := hfollowed.sent k hk
      exact (List.getElem?_eq_some_iff.mp hp).1
    rw [arrivals_step hlen hs]
    rcases step_incoming hs with ⟨hnone, heq⟩ | ⟨q, hq, hreceive⟩
    · rw [hnone, Option.toList_none, List.append_nil, heq]
      exact hdone
    · rw [hq, Option.toList_some]
      exact hdone.concat (fun hlast => continues_step hfollowed hb' hc hs hq hlast) hreceive

/-- Elements numbered from 0 on are the first ones of the list they come from. -/
theorem map_eq_take {α β : Type} {f : α → β} {id : α → ℕ} {L : List α} {D : List β} {n : ℕ}
    (hids : L.map id = List.range n) (h : ∀ a ∈ L, D[id a]? = some (f a)) :
    L.map f = D.take L.length := by
  apply List.ext_getElem?
  intro i
  rcases lt_or_ge i L.length with hi | hi
  · have hid : id L[i] = i := by
      have hn : i < n := by
        have hlen := congrArg List.length hids
        rw [List.length_map, List.length_range] at hlen
        omega
      have hget : (L.map id)[i]? = some i := by rw [hids, List.getElem?_range hn]
      rw [List.getElem?_map, List.getElem?_eq_getElem hi, Option.map_some] at hget
      exact Option.some.inj hget
    have hmem := h L[i] (List.getElem_mem hi)
    rw [hid] at hmem
    rw [List.getElem?_map, List.getElem?_eq_getElem hi, Option.map_some,
      List.getElem?_take_of_lt hi, hmem]
  · rw [List.getElem?_eq_none (by rwa [List.length_map]),
      List.getElem?_eq_none ((List.length_take_le _ _).trans hi)]

/-- The user of an in-order decoder is given the sources up to the first one it does not hold. -/
theorem ranged_fifo (hb : Bounded l s)
    (h : Run (step clock b g) (Orderly b g) (initial clock true) l s) :
    s.decoder.data.map DecoderSource.id = List.range s.decoder.data.length ∧
    ¬ s.decoder.decoder.Held s.decoder.data.length := by
  have hdelivered := hands_delivered (hands_run h)
  obtain ⟨hrange, hno⟩ := (Detail.Decoder.streamed_run (continues_run hb h)).delivered_eq
  rw [hrange] at hdelivered
  have hlen : s.decoder.data.length = s.decoder.decoder.firstMissingSourceInOrder := by
    have := congrArg List.length hdelivered
    rwa [List.length_map, List.length_range] at this
  rw [hlen]
  exact ⟨hdelivered, hno⟩

theorem prefix_fifo (hw : w ≠ .w32) (hD : ∀ x ∈ l.flatMap Event.committed, Sendable w x)
    (hb : Bounded l s) (h : Run (step clock b g) (Orderly b g) (initial clock true) l s) :
    s.decoder.data.map (fun src => src.symbol.take src.symbolSize) =
      (l.flatMap Event.committed).take s.decoder.data.length := by
  refine map_eq_take (ranged_fifo hb h).1 fun src hsrc => ?_
  obtain ⟨x, hx, -, htake⟩ := intact_fifo hw hD hb h src hsrc
  rw [htake]
  exact hx

/-- Over a channel that loses packets but keeps their order, the user of an in-order decoder is given
a prefix of the data committed: all of it up to the first source the decoder does not hold. -/
theorem data_prefix_fifo (hw : w ≠ .w32) (hD : ∀ x ∈ l.flatMap Event.committed, Sendable w x)
    (hb : Bounded l s) (h : Run (step clock b g) (Orderly b g) (initial clock true) l s) :
    s.decoder.data.map (fun src => src.symbol.take src.symbolSize) =
      (l.flatMap Event.committed).take s.decoder.data.length ∧
    ¬ s.decoder.decoder.Held s.decoder.data.length :=
  ⟨prefix_fifo hw hD hb h, (ranged_fifo hb h).2⟩

/-- Source 1 is lost, so that source 2 waits. -/
def gapEvents : List Event :=
  [.data [1], .toDecoder 0, .generateAck, .toEncoder 0, .data [2], .data [3], .toDecoder 2]

theorem data_prefix_fifo_gapEvents : ∃ s,
    runWhile (step (fun _ => 0) .release gf16) (fun s e => s.orderly .release e = true)
      (initial (fun _ => 0) true) gapEvents = some s ∧
    s.decoder.data.map (fun src => src.symbol.take src.symbolSize) = [[1]] ∧
    s.decoder.decoder.Held 2 ∧ ¬ s.decoder.decoder.Held 1 := by
  have hrun : (runWhile (step (fun _ => 0) .release gf16) (fun s e => s.orderly .release e = true)
      (initial (fun _ => 0) true) gapEvents).any (fun s => decide (
        s.decoder.data.length = 1 ∧ s.decoder.decoder.sources.contains 2 = true ∧
        (Encoder.repairsOf s.encoder.sent).length < 2 ^ 32)) = true := by
    decide +kernel
  obtain ⟨s, hs, hd⟩ := (Option.any_eq_true _ _).mp hrun
  obtain ⟨hlen, hheld, hrepairs⟩ := of_decide_eq_true hd
  have horderly := (run_of_runWhile hs).mono (D := Orderly .release gf16)
    fun u e hc => orderly_spec hc
  obtain ⟨hstream, hno⟩ :=
    data_prefix_fifo (by decide) (by decide) ⟨by decide, hrepairs, by decide⟩ horderly
  rw [hlen] at hstream hno
  exact ⟨s, hs, hstream, Or.inr hheld, hno⟩

/-- What an out-of-order decoder holds is what its user was given. -/
theorem held_iff_given (hb : Bounded l s)
    (h : Run (step clock b g) (Orderly b g) (initial clock false) l s) (i : ℕ) :
    s.decoder.decoder.Held i ↔ ∃ src ∈ s.decoder.data, src.id = i := by
  rw [← (Detail.Decoder.scattered_run (continues_run hb h)).mem_delivered,
    ← hands_delivered (hands_run h), List.mem_map]

/-- Over a channel that loses packets but keeps their order, the user of an out-of-order decoder is
given every source the decoder holds, once, and no other. -/
theorem data_held_fifo (hw : w ≠ .w32) (hD : ∀ x ∈ l.flatMap Event.committed, Sendable w x)
    (hb : Bounded l s) (h : Run (step clock b g) (Orderly b g) (initial clock false) l s) :
    (s.decoder.data.map DecoderSource.id).Nodup ∧
    ∀ i, s.decoder.decoder.Held i ↔ ∃ src ∈ s.decoder.data, src.id = i ∧
      (l.flatMap Event.committed)[i]? = some (src.symbol.take src.symbolSize) := by
  refine ⟨(once_fifo hb h).1, fun i => ?_⟩
  rw [held_iff_given hb h]
  constructor
  · rintro ⟨src, hsrc, rfl⟩
    obtain ⟨x, hx, -, htake⟩ := intact_fifo hw hD hb h src hsrc
    exact ⟨src, hsrc, rfl, by rw [htake]; exact hx⟩
  · rintro ⟨src, hsrc, hid, -⟩
    exact ⟨src, hsrc, hid⟩

theorem data_held_fifo_lossyEvents : ∃ s,
    runWhile (step (fun _ => 0) .release gf16) (fun s e => s.orderly .release e = true)
      (initial (fun _ => 0) false) lossyEvents = some s ∧
    s.decoder.data.map DecoderSource.id = [0, 2, 1, 3] ∧
    ∀ i, s.decoder.decoder.Held i → i ∈ [0, 2, 1, 3] := by
  have hrun : (runWhile (step (fun _ => 0) .release gf16) (fun s e => s.orderly .release e = true)
      (initial (fun _ => 0) false) lossyEvents).any (fun s => decide (
        s.decoder.data.map DecoderSource.id = [0, 2, 1, 3] ∧
        (Encoder.repairsOf s.encoder.sent).length < 2 ^ 32)) = true := by
    decide +kernel
  obtain ⟨s, hs, hd⟩ := (Option.any_eq_true _ _).mp hrun
  obtain ⟨hids, hrepairs⟩ := of_decide_eq_true hd
  have horderly := (run_of_runWhile hs).mono (D := Orderly .release gf16)
    fun u e hc => orderly_spec hc
  obtain ⟨-, hheld⟩ :=
    data_held_fifo (by decide) (by decide) ⟨by decide, hrepairs, by decide⟩ horderly
  refine ⟨s, hs, hids, fun i hi => ?_⟩
  obtain ⟨src, hsrc, hid, -⟩ := (hheld i).mp hi
  rw [← hids]
  exact List.mem_map.mpr ⟨src, hsrc, hid⟩

/-- When what arrived determines all it names, a repair of the whole window included, the user of an
in-order decoder has been given all the data. -/
theorem all_delivered_fifo (hw : w ≠ .w32) (hD : ∀ x ∈ l.flatMap Event.committed, Sendable w x)
    (hb : Bounded l s) (h : Run (step clock b g) (Orderly b g) (initial clock true) l s)
    {r : DecoderRepair} (hr : .repair r ∈ arrivals b s.encoder.sent (positions l))
    (hwindow : ∀ src ∈ s.encoder.sources, src.id ∈ r.sourceIds)
    (hdet : Detail.Decoder.Determined g (arrivals b s.encoder.sent (positions l))
      s.decoder.decoder) :
    s.decoder.data.map (fun src => src.symbol.take src.symbolSize) =
      l.flatMap Event.committed := by
  have hI := followed_run hb h
  have hcomplete := (retained_fifo hb h).complete_iff.mpr hdet
  have hheld : ∀ i < (l.flatMap Event.committed).length, s.decoder.decoder.Held i := by
    intro i hi
    rw [← hI.accounted.ordered.window.next] at hi
    rcases hI.accounted.sources i hi with hin | hheld
    · obtain ⟨src, hsrc, rfl⟩ := List.mem_map.mp hin
      exact hcomplete _ hr _ (FlatSet.mem_iff.mp (hwindow src hsrc))
    · exact hheld
  rw [prefix_fifo hw hD hb h]
  exact List.take_of_length_le (not_lt.mp fun hlt => (ranged_fifo hb h).2 (hheld _ hlt))

/-- The last repair lists sources 1 to 3, of which source 1 is lost. -/
theorem all_delivered_fifo_lossyEvents : ∃ s,
    runWhile (step (fun _ => 0) .release gf16) (fun s e => s.orderly .release e = true)
      (initial (fun _ => 0) true) lossyEvents = some s ∧
    s.encoder.sources.map EncoderSource.id = [1, 2, 3] ∧
    s.decoder.data.map (fun src => src.symbol.take src.symbolSize) = [[1], [2], [3], [4]] := by
  have hrun : (runWhile (step (fun _ => 0) .release gf16) (fun s e => s.orderly .release e = true)
      (initial (fun _ => 0) true) lossyEvents).any (fun s => decide (
        s.encoder.sources.map EncoderSource.id = [1, 2, 3] ∧
        ((arrivals .release s.encoder.sent (positions lossyEvents)).any fun p =>
          decide (p.ids = [1, 2, 3])) = true ∧
        s.decoder.decoder.Complete (arrivals .release s.encoder.sent (positions lossyEvents)) ∧
        (Encoder.repairsOf s.encoder.sent).length < 2 ^ 32)) = true := by
    decide +kernel
  obtain ⟨s, hs, hd⟩ := (Option.any_eq_true _ _).mp hrun
  obtain ⟨hwindow, hany, hcomplete, hrepairs⟩ := of_decide_eq_true hd
  have horderly := (run_of_runWhile hs).mono (D := Orderly .release gf16)
    fun u e hc => orderly_spec hc
  have hbounded : Bounded lossyEvents s := ⟨by decide, hrepairs, by decide⟩
  obtain ⟨p, hp, hany⟩ := List.any_eq_true.mp hany
  have hids : p.ids = [1, 2, 3] := of_decide_eq_true hany
  cases p with
  | source src => simp [Detail.Incoming.ids] at hids
  | repair r =>
    have hlist : r.sourceIds.toList = [1, 2, 3] := hids
    refine ⟨s, hs, hwindow, all_delivered_fifo (by decide) (by decide) hbounded horderly hp ?_
      ((retained_fifo hbounded horderly).complete_iff.mp hcomplete)⟩
    intro src hsrc
    rw [FlatSet.mem_iff, hlist, ← hwindow]
    exact List.mem_map.mpr ⟨src, hsrc, rfl⟩

/-- An acknowledgement generated and delivered at once leaves in the window exactly the sources the
decoder does not hold. -/
theorem window_after_ack {u : System w} (hcount : (l.flatMap Event.committed).length < 2 ^ 32)
    (h : Run (step clock b g) (Accounts b) (initial clock inOrder) l s)
    (hids : Encodable (idsOfList s.decoder.decoder.sources.keys))
    (hu : s.step clock b g .generateAck = .ok u)
    (hs' : u.step clock b g (.toEncoder s.decoder.sent.length) = .ok s') (src : EncoderSource) :
    src ∈ s'.encoder.sources ↔ src ∈ s.encoder.sources ∧ ¬ s.decoder.decoder.Held src.id := by
  have hI := accounted_run hcount h
  have hpending := hI.safe.acknowledging.pending
  obtain rfl : u = { s with decoder := s.decoder.generateAck } := by
    cases hu
    rfl
  have hsent : s.decoder.generateAck.sent[s.decoder.sent.length]? =
      some ⟨{ s.decoder.ack with sourceIds := idsOfList s.decoder.decoder.sources.keys },
        s.decoder.decoder.sources.keys⟩ := by
    rw [Decoder.generateAck, Decoder.generateAckOf, hpending]
    exact List.getElem?_concat_length
  simp only [step, hsent, Encoder.call, notify_writeAck, Except.map, ok_bind, Except.ok.injEq]
    at hs'
  subst hs'
  have hkeys : (idsOfList s.decoder.decoder.sources.keys).toList = s.decoder.decoder.sources.keys :=
    Decoder.idsOfList_sorted s.decoder.decoder.sources.keys_sorted
  have h32 : ∀ i ∈ idsOfList s.decoder.decoder.sources.keys, i < 2 ^ 32 := by
    intro i hi
    rw [FlatSet.mem_iff, hkeys] at hi
    exact Decoder.fits_of_known hI.safe.acknowledging.fitting.known i hi
  have hdecoded : decodedIds (idsOfList s.decoder.decoder.sources.keys) =
      idsOfList s.decoder.decoder.sources.keys := decodedIds_of_encodable h32 hids
  show src ∈ eraseSources s.encoder.sources
    (decodedIds (idsOfList s.decoder.decoder.sources.keys)).toList ↔ _
  rw [hdecoded, hkeys, eraseSources_eq_filter hI.ordered.window.sorted
    s.decoder.decoder.sources.keys_sorted, List.mem_filter, decide_eq_true_eq]
  refine and_congr_right fun hsrc => not_congr ?_
  rw [← OrdMap.contains_iff_mem_keys]
  refine ⟨Or.inr, fun hheld => hheld.resolve_left fun ho => ?_⟩
  -- The window has moved past no source that it still holds.
  obtain ⟨k, hk, hlt⟩ := Detail.Decoder.outdated_iff.mp ho
  exact absurd ((hI.ordered.lastId k hk).window src hsrc) hlt.not_ge

/-- Source 0 was acknowledged before, and source 2 is now. -/
theorem window_after_ack_gapEvents : ∃ s u s',
    runWhile (step (fun _ => 0) .release gf16) (fun s e => s.room e = true ∧ s.near e = true ∧
      (s.incoming .release e).all (fun q => !s.decoder.decoder.retreats q) = true)
      (initial (fun _ => 0) true) gapEvents = some s ∧
    s.step (fun _ => 0) .release gf16 .generateAck = .ok u ∧
    u.step (fun _ => 0) .release gf16 (.toEncoder s.decoder.sent.length) = .ok s' ∧
    s.encoder.sources.map EncoderSource.id = [1, 2] ∧
    s'.encoder.sources.map EncoderSource.id = [1] ∧
    ∀ src ∈ s'.encoder.sources, ¬ s.decoder.decoder.Held src.id := by
  have hrun : (runWhile (step (fun _ => 0) .release gf16)
      (fun s e => s.room e = true ∧ s.near e = true ∧
        (s.incoming .release e).all (fun q => !s.decoder.decoder.retreats q) = true)
      (initial (fun _ => 0) true) gapEvents).any (fun s => decide (
        s.encoder.sources.map EncoderSource.id = [1, 2] ∧
        Encodable (idsOfList s.decoder.decoder.sources.keys)) &&
        (s.step (fun _ => 0) .release gf16 .generateAck).toOption.any fun u =>
          (u.step (fun _ => 0) .release gf16 (.toEncoder s.decoder.sent.length)).toOption.any
            fun s' => decide (s'.encoder.sources.map EncoderSource.id = [1])) = true := by
    decide +kernel
  obtain ⟨s, hs, hd⟩ := (Option.any_eq_true _ _).mp hrun
  rw [Bool.and_eq_true, decide_eq_true_eq] at hd
  obtain ⟨⟨hwindow, hids⟩, hsteps⟩ := hd
  obtain ⟨u, hu, hnext⟩ := exists_ok_of_any hsteps
  obtain ⟨s', hs', hleft⟩ := exists_ok_of_any hnext
  have haccounts := (run_of_runWhile hs).mono (D := Accounts .release)
    fun u e hc => ⟨hc.1, hc.2.1, fun q hq => by
      have hall := hc.2.2
      rw [hq, Option.all_some, Bool.not_eq_true'] at hall
      exact hall⟩
  exact ⟨s, u, s', hs, hu, hs', hwindow, of_decide_eq_true hleft, fun src hsrc =>
    ((window_after_ack (by decide) haccounts hids hu hs' src).mp hsrc).2⟩

end Netcode.System
