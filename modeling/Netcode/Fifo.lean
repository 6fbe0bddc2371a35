import Netcode.Fifo.Followed

/-! A channel that loses packets but keeps their order, and a window that is never full: every repair
that arrives encodes all the sources that the stored ones are missing, so that the decoder retains
all it receives. -/
namespace Netcode

open Encodings Incidence Runs

variable {w : FieldSize} {b : Build} {g : GfComplete w} {clock : ℕ → ℤ}

namespace System

variable {s s' : System w} {e : Event} {l : List Event} {D : List (List Byte)} {inOrder : Bool}
  {i k : ℕ} {q : Detail.Incoming}

theorem positions_concat (l : List Event) (e : Event) :
    positions (l ++ [e]) = positions l ++ e.position.toList := by
  rw [positions, List.filterMap_append]
  cases h : e.position with
  | none => simp [positions, h]
  | some k => simp [positions, h]

/-- Before the last event, all was bounded too. -/
theorem Bounded.before (hb : Bounded (l ++ [e]) s') {later : List WirePacket}
    (h : s'.encoder.sent = s.encoder.sent ++ later) : Bounded l s := by
  refine ⟨?_, ?_, ?_⟩
  · have hsources := hb.sources
    rw [committed_concat, List.length_append] at hsources
    omega
  · have hrepairs := hb.repairs
    rw [h, Encoder.repairsOf, List.filterMap_append, List.length_append] at hrepairs
    exact Nat.lt_of_le_of_lt (Nat.le_add_right _ _) hrepairs
  · have hfifo := hb.fifo
    rw [positions_concat] at hfifo
    exact (List.pairwise_append.mp hfifo).1

/-- An event leaves the encoder alone or calls it. -/
theorem step_calls (h : s.step clock b g e = .ok s') :
    s'.encoder = s.encoder ∧ e.committed = [] ∨ e.position = none ∧
      ∃ c, s.encoder.call b g c = .ok s'.encoder ∧ e.committed = Encoder.committed [c] := by
  cases e with
  | encoder c =>
    simp only [step, bind_ok_iff, Except.ok.injEq] at h
    obtain ⟨u, hu, rfl⟩ := h
    exact Or.inr ⟨rfl, c.1, hu, rfl⟩
  | decoder c =>
    simp only [step, bind_ok_iff, Except.ok.injEq] at h
    obtain ⟨u, -, rfl⟩ := h
    exact Or.inl ⟨rfl, rfl⟩
  | toDecoder k =>
    rw [step] at h
    split at h
    · cases h
      exact Or.inl ⟨rfl, rfl⟩
    · simp only [bind_ok_iff, Except.ok.injEq] at h
      obtain ⟨u, -, rfl⟩ := h
      exact Or.inl ⟨rfl, rfl⟩
  | toEncoder k =>
    rw [step] at h
    split at h
    · cases h
      exact Or.inl ⟨rfl, rfl⟩
    · simp only [bind_ok_iff, Except.ok.injEq] at h
      obtain ⟨u, hu, rfl⟩ := h
      exact Or.inr ⟨rfl, _, hu, rfl⟩

theorem sent_step (h : s.step clock b g e = .ok s') :
    ∃ later, s'.encoder.sent = s.encoder.sent ++ later := by
  rcases step_calls h with ⟨henc, -⟩ | ⟨-, c, hcall, -⟩
  · exact ⟨[], by rw [henc, List.append_nil]⟩
  · obtain ⟨sent, hsent, -⟩ := (Encoder.call_called hcall).sent
    exact ⟨sent, hsent⟩

theorem incoming_some (h : s.incoming b e = some q) : ∃ k p, e.position = some k ∧
    s.encoder.sent[k]? = some p ∧ p.incoming b = .ok q := by
  cases e with
  | encoder c => cases h
  | decoder c => cases h
  | toEncoder k => cases h
  | toDecoder k =>
    obtain ⟨p, hp, hq⟩ := Option.bind_eq_some_iff.mp h
    refine ⟨k, p, rfl, hp, ?_⟩
    cases hread : p.incoming b with
    | error x => simp [hread, Except.toOption] at hq
    | ok q' => simpa [hread, Except.toOption] using hq

/-- What was received by the end of an event is what was before, and what it brings. -/
theorem arrivals_step (hsent : ∀ k ∈ positions l, k < s.encoder.sent.length)
    (h : s.step clock b g e = .ok s') : arrivals b s'.encoder.sent (positions (l ++ [e])) =
      arrivals b s.encoder.sent (positions l) ++ (s.incoming b e).toList := by
  obtain ⟨later, hlater⟩ := sent_step h
  have hold : arrivals b s'.encoder.sent (positions l) = arrivals b s.encoder.sent (positions l) := by
    rw [hlater]
    exact WirePacket.arrivals_append hsent
  have hsplit : arrivals b s'.encoder.sent (positions (l ++ [e])) =
      arrivals b s'.encoder.sent (positions l) ++ arrivals b s'.encoder.sent e.position.toList := by
    rw [positions_concat, arrivals, List.filterMap_append]
    rfl
  rw [hsplit, hold]
  refine congrArg (arrivals b s.encoder.sent (positions l) ++ ·) ?_
  cases e with
  | encoder c => rfl
  | decoder c => rfl
  | toEncoder k => rfl
  | toDecoder k =>
    rcases step_calls h with ⟨henc, -⟩ | ⟨hnone, -⟩
    · rw [henc, incoming, Event.position, Option.toList_some, arrivals, List.filterMap_cons]
      cases s.encoder.sent[k]?.bind fun p => (p.incoming b).toOption <;> rfl
    · cases hnone

/-- What an event brings follows what is stored. -/
theorem Followed.follows (hI : s.Followed b g inOrder l) (hb : Bounded (l ++ [e]) s')
    (hc : s.Orderly b g e) (h : s.step clock b g e = .ok s') (hq : s.incoming b e = some q) :
    s.decoder.decoder.FollowsStored q := by
  obtain ⟨later, hlater⟩ := sent_step h
  obtain ⟨k, p, hk, hp, hpq⟩ := incoming_some hq
  obtain ⟨p', hp', he⟩ := hc.sent k hk
  obtain rfl : p = p' := Option.some.inj (hp.symm.trans hp')
  have hfifo := hb.fifo
  rw [positions_concat, hk, List.pairwise_append] at hfifo
  refine hI.followsStored (hb.before hlater) (fun j hj => hfifo.2.2 j hj k (by simp)) hp he hpq ?_
  rintro r rfl
  rcases step_incoming h with ⟨hnone, -⟩ | ⟨q', hq', hreceive⟩
  · rw [hq] at hnone
    cases hnone
  · rw [hq] at hq'
    cases hq'
    exact (Detail.Decoder.receiveRepair_cases hreceive).1

theorem Followed.accounts (hI : s.Followed b g inOrder l) (hb : Bounded (l ++ [e]) s')
    (hc : s.Orderly b g e) (h : s.step clock b g e = .ok s') : s.Accounts b e :=
  ⟨hc.room, hc.near, fun _ hq => Detail.Decoder.not_retreats
    (Detail.Decoder.remembers_of_follows (hI.follows hb hc h hq))⟩

theorem latest_step (hI : s.Followed b g inOrder l) (hb : Bounded (l ++ [e]) s')
    (hc : s.Orderly b g e) (h : s.step clock b g e = .ok s') :
    ∀ i, s'.decoder.decoder.lastId = some i → ∃ k ∈ positions (l ++ [e]), ∃ r,
      s'.encoder.sent[k]? = some (.repair r) ∧ r.sourceIds.toList.head? = some i := by
  obtain ⟨later, hlater⟩ := sent_step h
  have hkept : ∀ (k : ℕ) (p : WirePacket), s.encoder.sent[k]? = some p →
      s'.encoder.sent[k]? = some p := by
    intro k p hp
    rw [hlater, List.getElem?_append_left (List.getElem?_eq_some_iff.mp hp).1]
    exact hp
  have hold : ∀ i, s.decoder.decoder.lastId = some i → ∃ k ∈ positions (l ++ [e]), ∃ r,
      s'.encoder.sent[k]? = some (.repair r) ∧ r.sourceIds.toList.head? = some i := by
    intro i hi
    obtain ⟨k, hk, r, hr, hhead⟩ := hI.latest i hi
    refine ⟨k, ?_, r, hkept k _ hr, hhead⟩
    rw [positions_concat]
    exact List.mem_append_left _ hk
  rcases step_incoming h with ⟨-, heq⟩ | ⟨q, hq, hreceive⟩
  · exact heq ▸ hold
  · rcases Detail.Decoder.receive_keeps hI.accounted.ordered.listed hreceive with
      hkeeps | ⟨r, rfl, hfirst, -, hlast, -⟩
    · exact hkeeps.lastId ▸ hold
    · obtain ⟨k, p, hk, hp, hpq⟩ := incoming_some hq
      obtain ⟨p', hp', he⟩ := hc.sent k hk
      obtain rfl : p = p' := Option.some.inj (hp.symm.trans hp')
      obtain ⟨r0, rfl⟩ := WirePacket.eq_repair hpq
      have hmem := List.mem_of_getElem? hp
      obtain ⟨q', heq, -, hids⟩ := WirePacket.incoming_repair
        (hI.accounted.ordered.repairs r0 hmem).length
        (fun i hi => hI.fits (hb.before hlater) hmem hi) he hpq
      cases heq
      intro i hi
      refine ⟨k, ?_, r0, hkept k _ hp, ?_⟩
      · rw [positions_concat, hk]
        exact List.mem_append_right _ (Option.mem_toList.mpr rfl)
      · rw [← hids, ← hi, hlast]
        exact Detail.Decoder.head_eq_firstId hfirst

theorem followed_step (hI : s.Followed b g inOrder l) (hb : Bounded (l ++ [e]) s')
    (hc : s.Orderly b g e) (h : s.step clock b g e = .ok s') :
    s'.Followed b g inOrder (l ++ [e]) := by
  obtain ⟨later, hlater⟩ := sent_step h
  have hbefore : Bounded l s := hb.before hlater
  have haccounts := hI.accounts hb hc h
  have hcount := hb.sources
  rw [committed_concat] at hcount
  have haccounted := accounted_step hI.accounted hcount haccounts h
  have hheld : ∀ i, s.decoder.decoder.Held i → s'.decoder.decoder.Held i :=
    fun i => held_step hI.accounted.ordered.listed haccounts h
  have hlen : ∀ k ∈ positions l, k < s.encoder.sent.length := by
    intro k hk
    obtain ⟨p, hp, -⟩ := hI.sent k hk
    exact (List.getElem?_eq_some_iff.mp hp).1
  refine ⟨committed_concat l e ▸ haccounted, ?_, ?_, ?_, ?_, fun k hk => ?_, latest_step hI hb hc h⟩
  · rcases step_calls h with ⟨henc, -⟩ | ⟨-, c, hcall, -⟩
    · exact logged_sent hI.logged hheld henc
    · refine logged_called hI.logged haccounted hheld ?_ hcall
      rw [hI.accounted.ordered.window.next, haccounted.ordered.window.next, List.length_append]
      exact Nat.le_add_right _ _
  · rcases step_calls h with ⟨henc, -⟩ | ⟨-, c, hcall, -⟩
    · exact henc ▸ hI.numbered
    · exact Encoder.numbered_called hI.numbered (Encoder.call_called hcall)
  · rw [arrivals_step hlen h]
    rcases step_incoming h with ⟨hnone, heq⟩ | ⟨q, hq, hreceive⟩
    · rw [hnone, Option.toList_none, List.append_nil, heq]
      exact hI.run
    · rw [hq, Option.toList_some]
      exact hI.run.concat (hI.retains hbefore (hI.follows hb hc h hq) (hc.spares q hq)) hreceive
  · rcases step_incoming h with ⟨-, heq⟩ | ⟨q, hq, hreceive⟩
    · exact heq ▸ hI.peeled
    · have hretained := Detail.Decoder.retained_run (hI.consistent hbefore) hI.run
      exact Detail.Decoder.peeled_of_follows hretained.balanced hI.peeled (hI.follows hb hc h hq)
        hreceive
  · rw [positions_concat, List.mem_append] at hk
    have hkept : ∀ p, s.encoder.sent[k]? = some p → s'.encoder.sent[k]? = some p := by
      intro p hp
      rw [hlater, List.getElem?_append_left (List.getElem?_eq_some_iff.mp hp).1]
      exact hp
    rcases hk with hk | hk
    · obtain ⟨p, hp, he⟩ := hI.sent k hk
      exact ⟨p, hkept p hp, he⟩
    · obtain ⟨p, hp, he⟩ := hc.sent k (Option.mem_toList.mp hk)
      exact ⟨p, hkept p hp, he⟩

theorem followed_initial (inOrder : Bool) :
    (initial clock inOrder : System w).Followed b g inOrder [] := by
  refine ⟨accounted_initial inOrder, ⟨List.Pairwise.nil, ?_, ?_⟩, Encoder.numbered_initial, .nil,
    Detail.Decoder.peeled_initial inOrder, ?_, ?_⟩
  · exact fun r hr => absurd hr List.not_mem_nil
  · exact fun p hp => absurd hp List.not_mem_nil
  · exact fun k hk => absurd hk List.not_mem_nil
  · exact fun i hi => by cases hi

theorem followed_run (hb : Bounded l s)
    (h : Run (step clock b g) (Orderly b g) (initial clock inOrder) l s) :
    s.Followed b g inOrder l := by
  have hstart : Bounded [] (initial clock inOrder : System w) →
      (initial clock inOrder : System w).Followed b g inOrder [] :=
    fun _ => followed_initial inOrder
  have hrun := h.inputs (fun done u => Bounded done u → u.Followed b g inOrder done) ?_ hstart
  · exact hrun hb
  · rintro done u e v hI hc hs hb'
    obtain ⟨later, hlater⟩ := sent_step hs
    exact followed_step (hI (hb'.before hlater)) hb' hc hs

/-- Nothing that was received is lost. -/
theorem retained_fifo (hb : Bounded l s)
    (h : Run (step clock b g) (Orderly b g) (initial clock inOrder) l s) :
    s.decoder.decoder.Retained g (arrivals b s.encoder.sent (positions l)) := by
  have hI := followed_run hb h
  exact Detail.Decoder.retained_run (hI.consistent hb) hI.run

/-- Over a channel that loses packets but keeps their order, the decoder is optimal. In every run
that evicts no source, reads what travels as it was written and whose failed full decodings only drop
redundant repairs, contents are the same to the decoder if and only if all packets received are, and
they agree on what it forgot; and every source named is known or forgotten if and only if what was
received determines it. -/
theorem complete_iff_determined_fifo (hb : Bounded l s)
    (h : Run (step clock b g) (Orderly b g) (initial clock inOrder) l s) :
    (∀ v : ℕ → Gf g, s.decoder.decoder.SolvedBy v ↔
      (∀ i, s.decoder.decoder.outdated i = true → v i = 0) ∧
        ∀ p ∈ arrivals b s.encoder.sent (positions l), p.SolvedBy v) ∧
    (s.decoder.decoder.Complete (arrivals b s.encoder.sent (positions l)) ↔
      Detail.Decoder.Determined g (arrivals b s.encoder.sent (positions l))
        s.decoder.decoder) := by
  have hretained := retained_fifo hb h
  exact ⟨hretained.exact, hretained.complete_iff⟩

/-- A step is orderly, and full decoding succeeds if it is attempted. -/
def orderly (b : Build) (s : System w) (e : Event) : Bool :=
  s.room e && s.near e &&
    e.position.all (fun k => s.encoder.sent[k]?.any fun p => decide p.EncodableIds) &&
    (s.incoming b e).all fun q => decide ((s.decoder.decoder.linksWith q).size = 0 ∨
      (s.decoder.decoder.linksWith q).size < (listed (s.decoder.decoder.linksWith q)).card)

theorem orderly_spec (h : s.orderly b e = true) : s.Orderly b g e := by
  simp only [orderly, Bool.and_eq_true] at h
  obtain ⟨⟨⟨hroom, hnear⟩, hsent⟩, hspares⟩ := h
  refine ⟨hroom, hnear, fun k hk => ?_, fun q hq => Detail.Decoder.spares_of_lt ?_⟩
  · rw [hk, Option.all_some, Option.any_eq_true] at hsent
    obtain ⟨p, hp, he⟩ := hsent
    exact ⟨p, hp, of_decide_eq_true he⟩
  · rw [hq, Option.all_some] at hspares
    exact of_decide_eq_true hspares

/-- Of sources 0 to 3, source 0 is acknowledged, and sources 1 and 3 are lost, then decoded. -/
def lossyEvents : List Event :=
  [.data [1], .toDecoder 0, .generateAck, .toEncoder 0, .data [2], .data [3], .generateRepair,
    .toDecoder 2, .toDecoder 3, .data [4], .generateRepair, .toDecoder 5]

theorem complete_iff_determined_lossyEvents : ∃ s,
    runWhile (step (fun _ => 0) .release gf16) (fun s e => s.orderly .release e = true)
      (initial (fun _ => 0) false) lossyEvents = some s ∧
    s.decoder.decoder.delivered = [0, 2, 1, 3] ∧
    Detail.Decoder.Determined gf16 (arrivals .release s.encoder.sent (positions lossyEvents))
      s.decoder.decoder := by
  have hrun : (runWhile (step (fun _ => 0) .release gf16) (fun s e => s.orderly .release e = true)
      (initial (fun _ => 0) false) lossyEvents).any (fun s => decide (
        s.decoder.decoder.delivered = [0, 2, 1, 3] ∧
        (Encoder.repairsOf s.encoder.sent).length < 2 ^ 32 ∧
        s.decoder.decoder.Complete (arrivals .release s.encoder.sent (positions lossyEvents)))) =
      true := by
    decide +kernel
  obtain ⟨s, hs, hd⟩ := (Option.any_eq_true _ _).mp hrun
  obtain ⟨hdelivered, hrepairs, hcomplete⟩ := of_decide_eq_true hd
  have horderly := (run_of_runWhile hs).mono (D := Orderly .release gf16)
    fun u e hc => orderly_spec hc
  obtain ⟨-, hiff⟩ := complete_iff_determined_fifo ⟨by decide, hrepairs, by decide⟩ horderly
  exact ⟨s, hs, hdelivered, hiff.mp hcomplete⟩

end System

end Netcode
