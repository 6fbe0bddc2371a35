import Netcode.Fifo.Logged

/-! Packets received in the order they were sent in: a repair lists all that the stored ones do, so
that the decoder retains it. -/
namespace Netcode

open Containers Equations Runs

variable {w : FieldSize} {b : Build} {g : GfComplete w}

namespace Detail.Decoder

variable {d d' : Decoder w} {r q : DecoderRepair} {p : Incoming} {i k ρ : ℕ}

/-- A source that no stored repair lists, or a repair of no forgotten source which lists all that
the stored ones do. -/
def FollowsStored (d : Decoder w) : Incoming → Prop
  | .source src => ∀ ρ q, d.repairs.find? ρ = some q → src.id ∉ q.sourceIds
  | .repair r => d.outdated (firstId r) = false ∧
      ∀ ρ q, d.repairs.find? ρ = some q → ∀ i ∈ q.sourceIds, i ∈ r.sourceIds

theorem unknown_of_stored (hI : d.Linked) (hf : d.FollowsStored (.repair r))
    (hq : d.repairs.find? ρ = some q) (hi : i ∈ q.sourceIds) : i ∈ d.unknown r := by
  have hknown := hI.disjoint i (references_contains (hI.stored i ρ ⟨q, hq, hi⟩))
  exact FlatSet.mem_filter.mpr ⟨hf.2 ρ q hq i hi, by rw [hknown]; rfl⟩

theorem firstId_mem (hne : r.sourceIds.toList ≠ []) : firstId r ∈ r.sourceIds := by
  rw [FlatSet.mem_iff, firstId]
  cases hids : r.sourceIds.toList with
  | nil => exact absurd hids hne
  | cons i l => exact List.mem_cons_self

theorem head_eq_firstId (h : i ∈ r.sourceIds) : r.sourceIds.toList.head? = some (firstId r) := by
  rw [FlatSet.mem_iff] at h
  rw [firstId]
  cases hids : r.sourceIds.toList with
  | nil => exact absurd (hids ▸ h) List.not_mem_nil
  | cons j l => rfl

/-- A repair that follows has several unknown sources, as the stored ones do. -/
theorem unshared_of_follows (hI : d.Linked) (hp : d.Peeled) (hf : d.FollowsStored p) :
    d.rebuildsShared p = false := by
  cases p with
  | source src => rfl
  | repair r =>
    rw [← Bool.not_eq_true]
    intro h
    have hacc : d.accepts r = true := by
      simp only [rebuildsShared, Bool.and_eq_true] at h
      exact h.1
    cases hids : (d.unknown r).toList with
    | nil => simp [rebuildsShared, hids] at h
    | cons i l =>
      cases l with
      | cons j l => simp [rebuildsShared, hids] at h
      | nil =>
        obtain ⟨ρ, q, hq, -, -⟩ := (rebuildsShared_of_only hacc hids).mp h
        have hone : ∀ j ∈ q.sourceIds, j = i := by
          intro j hj
          have hmem := unknown_of_stored hI hf hq hj
          rwa [FlatSet.mem_iff, hids, List.mem_singleton] at hmem
        obtain ⟨j, hj⟩ := FlatSet.size_pos_iff.mp (Nat.zero_lt_of_lt (hp ρ q hq))
        have hsize : q.sourceIds.size = 1 := by
          refine FlatSet.size_eq_one_iff.mpr ⟨i, FlatSet.toList_eq_singleton_iff.mpr fun k => ?_⟩
          exact ⟨hone k, fun hk => by rw [hk, ← hone j hj]; exact hj⟩
        have := hp ρ q hq
        omega

theorem remembers_of_follows (hf : d.FollowsStored p) : d.forgets p = false := by
  cases p with
  | source src => rfl
  | repair r =>
    rw [forgets, hf.1, Bool.false_or, Bool.and_eq_false_iff, List.any_eq_false]
    refine Or.inr fun e he => ?_
    rw [decide_eq_true_eq]
    rintro ⟨i, hi, hlt⟩
    have hmem := hf.2 e.1 e.2 (OrdMap.mem_entries_iff.mp he) i hi
    exact absurd hlt (not_lt.mpr (firstId_le hmem))

/-- What follows what is stored is retained, if full decoding loses nothing. -/
theorem retains_of_follows (hI : d.Linked) (hp : d.Peeled) (hf : d.FollowsStored p)
    (hs : SparesEquation (coef g) (d.linksWith p)) : d.Retains g p :=
  ⟨unshared_of_follows hI hp hf, remembers_of_follows hf, hs⟩

/-- No repair is left with one source. -/
theorem peeled_of_follows (hI : d.Balanced) (hp : d.Peeled) (hf : d.FollowsStored p)
    (h : d.receive b g p = .ok d') : d'.Peeled := by
  refine peeled_receive hI.linked.listed hp ?_ h
  cases p with
  | repair r => rfl
  | source src =>
    have hmissing : d.missingSources.contains src.id = false := by
      rw [← Bool.not_eq_true, missing_iff_listed hI.linked hI.referenced, mem_listed_links]
      rintro ⟨ρ, q, hq, hi⟩
      exact hf ρ q hq hi
    rw [peels, peelsWithout_of_not_missing hp hmissing, Bool.or_true]

end Detail.Decoder

/-- The position of the packet that reaches the decoder, if one does. -/
def Event.position : Event → Option ℕ
  | .toDecoder k => some k
  | _ => none

/-- The positions of the packets that reach the decoder. -/
def positions (l : List Event) : List ℕ := l.filterMap Event.position

namespace System

variable {s : System w} {e : Event} {l : List Event} {inOrder : Bool} {i k : ℕ}
  {q : Detail.Incoming}

/-- Data is not committed to a full window, acknowledgements and packets are read as they were
written, and no failed full decoding drops a repair that is needed. -/
structure Orderly (b : Build) (g : GfComplete w) (s : System w) (e : Event) : Prop where
  room : s.room e = true
  near : s.near e = true
  sent : ∀ k, e.position = some k → ∃ p, s.encoder.sent[k]? = some p ∧ p.EncodableIds
  spares : ∀ q, s.incoming b e = some q →
    SparesEquation (coef g) (s.decoder.decoder.linksWith q)

/-- Once packets were received in the order they were sent in. -/
structure Followed (b : Build) (g : GfComplete w) (inOrder : Bool) (l : List Event)
    (s : System w) : Prop where
  accounted : s.Accounted (l.flatMap Event.committed)
  logged : s.Logged
  numbered : s.encoder.Numbered
  run : Run (Detail.Decoder.receive b g) (fun d p => d.Retains g p) (Detail.Decoder.initial inOrder)
    (arrivals b s.encoder.sent (positions l)) s.decoder.decoder
  peeled : s.decoder.decoder.Peeled
  sent : ∀ k ∈ positions l, ∃ p, s.encoder.sent[k]? = some p ∧ p.EncodableIds
  latest : ∀ i, s.decoder.decoder.lastId = some i → ∃ k ∈ positions l, ∃ r,
    s.encoder.sent[k]? = some (.repair r) ∧ r.sourceIds.toList.head? = some i

/-- Fewer than 2^32 sources and repairs, and packets are received in the order they were sent in. -/
structure Bounded (l : List Event) (s : System w) : Prop where
  sources : (l.flatMap Event.committed).length < 2 ^ 32
  repairs : (Encoder.repairsOf s.encoder.sent).length < 2 ^ 32
  fifo : (positions l).Pairwise (· < ·)

theorem repairs_injective {r r' : EncoderRepair} (hI : s.encoder.Numbered)
    (hrepairs : (Encoder.repairsOf s.encoder.sent).length < 2 ^ 32)
    (hr : .repair r ∈ s.encoder.sent) (hr' : .repair r' ∈ s.encoder.sent)
    (hid : r.id % 2 ^ 32 = r'.id % 2 ^ 32) : r = r' := by
  have hids := hI.2
  have hsmall : ∀ q, .repair q ∈ s.encoder.sent → q ∈ Encoder.repairsOf s.encoder.sent ∧
      q.id < 2 ^ 32 := by
    intro q hq
    have hmem : q ∈ Encoder.repairsOf s.encoder.sent := List.mem_filterMap.mpr ⟨_, hq, rfl⟩
    have hid := hids ▸ List.mem_map_of_mem hmem
    obtain ⟨n, -, hn⟩ := List.mem_map.mp hid
    exact ⟨hmem, hn ▸ Nat.mod_lt _ (by decide)⟩
  have hnodup : ((Encoder.repairsOf s.encoder.sent).map EncoderRepair.id).Nodup := by
    rw [hids]
    refine List.nodup_range.map_on fun n hn m hm h => ?_
    rw [List.mem_range] at hn hm
    rwa [Nat.mod_eq_of_lt (hn.trans hrepairs), Nat.mod_eq_of_lt (hm.trans hrepairs)] at h
  obtain ⟨hr, hlt⟩ := hsmall r hr
  obtain ⟨hr', hlt'⟩ := hsmall r' hr'
  rw [Nat.mod_eq_of_lt hlt, Nat.mod_eq_of_lt hlt'] at hid
  exact List.inj_on_of_nodup_map hnodup hr hr' hid

theorem Followed.fits (hI : s.Followed b g inOrder l) (hb : Bounded l s) {p : WirePacket}
    (hp : p ∈ s.encoder.sent) (hi : i ∈ p.ids) : i < 2 ^ 32 := by
  refine (hI.logged.committed p hp i hi).trans ?_
  rw [hI.accounted.ordered.window.next]
  exact hb.sources

/-- A repair that was received is one that was sent. -/
theorem Followed.received (hI : s.Followed b g inOrder l) (hb : Bounded l s) {q : DecoderRepair}
    (hq : .repair q ∈ arrivals b s.encoder.sent (positions l)) : ∃ k ∈ positions l, ∃ r,
      s.encoder.sent[k]? = some (.repair r) ∧ q.id = r.id % 256 ^ 4 ∧
        q.sourceIds = r.sourceIds := by
  obtain ⟨k, hk, p, hp, hq⟩ := WirePacket.mem_arrivals.mp hq
  obtain ⟨r, rfl⟩ := WirePacket.eq_repair hq
  have hmem := List.mem_of_getElem? hp
  obtain ⟨p', hp', he⟩ := hI.sent k hk
  obtain rfl : WirePacket.repair r = p' := Option.some.inj (hp.symm.trans hp')
  obtain ⟨q', heq, hid, hids⟩ := WirePacket.incoming_repair
    (hI.accounted.ordered.repairs r hmem).length (fun i hi => hI.fits hb hmem hi) he hq
  cases heq
  exact ⟨k, hk, r, hp, hid, hids⟩

theorem Followed.consistent (hI : s.Followed b g inOrder l) (hb : Bounded l s) :
    Detail.Decoder.Consistent (arrivals b s.encoder.sent (positions l)) := by
  intro q q' hq hq' hid
  obtain ⟨k, -, r, hr, hqr, hids⟩ := hI.received hb hq
  obtain ⟨k', -, r', hr', hqr', hids'⟩ := hI.received hb hq'
  rw [hqr, hqr'] at hid
  rw [hids, hids', repairs_injective hI.numbered hb.repairs (List.mem_of_getElem? hr)
    (List.mem_of_getElem? hr') hid]

/-- A packet received after all those before it follows what is stored. -/
theorem Followed.followsStored (hI : s.Followed b g inOrder l) (hb : Bounded l s)
    (hnew : ∀ j ∈ positions l, j < k) {p : WirePacket} (hp : s.encoder.sent[k]? = some p)
    (he : p.EncodableIds) (hq : p.incoming b = .ok q)
    (hne : ∀ r, q = .repair r → r.sourceIds.toList ≠ []) : s.decoder.decoder.FollowsStored q := by
  have hretained := Detail.Decoder.retained_run (hI.consistent hb) hI.run
  have hmem := List.mem_of_getElem? hp
  have hbefore : ∀ j ∈ positions l, ∀ p', s.encoder.sent[j]? = some p' →
      p'.Precedes s.decoder.decoder.Held p := by
    intro j hj p' hp'
    obtain ⟨hjlen, rfl⟩ := List.getElem?_eq_some_iff.mp hp'
    obtain ⟨hklen, rfl⟩ := List.getElem?_eq_some_iff.mp hp
    exact List.pairwise_iff_getElem.mp hI.logged.follow j k hjlen hklen (hnew j hj)
  have hstored : ∀ ρ q0, s.decoder.decoder.repairs.find? ρ = some q0 → ∃ r0,
      (WirePacket.repair r0).Precedes s.decoder.decoder.Held p ∧
        ∀ i ∈ q0.sourceIds, i ∈ r0.sourceIds := by
    intro ρ q0 hq0
    obtain ⟨-, r, hr, -, hsub⟩ := hretained.contents.repairs ρ q0 hq0
    obtain ⟨j, hj, r0, hr0, -, hids⟩ := hI.received hb hr
    exact ⟨r0, hbefore j hj _ hr0, fun i hi => hids ▸ hsub i hi⟩
  cases p with
  | ack a => cases hq
  | source src =>
    obtain ⟨q', rfl, hid⟩ := WirePacket.incoming_source
      (hI.fits hb hmem (List.mem_singleton_self _)) hq
    intro ρ q0 hq0 hi
    obtain ⟨r0, hprec, hsub⟩ := hstored ρ q0 hq0
    exact absurd (hprec _ (hsub _ hi)) (by omega)
  | repair r =>
    obtain ⟨q', rfl, -, hids⟩ := WirePacket.incoming_repair
      (hI.accounted.ordered.repairs r hmem).length (fun i hi => hI.fits hb hmem hi) he hq
    refine ⟨?_, fun ρ q0 hq0 i hi => ?_⟩
    · rw [← Bool.not_eq_true, Detail.Decoder.outdated_iff]
      rintro ⟨n, hn, hlt⟩
      obtain ⟨j, hj, r0, hr0, hhead⟩ := hI.latest n hn
      refine absurd ((hbefore j hj _ hr0).2 n hhead _ ?_) (not_le.mpr hlt)
      rw [← hids]
      exact Detail.Decoder.firstId_mem (hne q' rfl)
    · obtain ⟨r0, hprec, hsub⟩ := hstored ρ q0 hq0
      have hlinked := hretained.balanced.linked
      have hmissing := Detail.Decoder.references_contains (hlinked.stored i ρ ⟨q0, hq0, hi⟩)
      rw [hids]
      refine (hprec.1 i (hsub i hi)).resolve_right ?_
      rintro (ho | hknown)
      · rw [hretained.fresh i hmissing] at ho
        cases ho
      · rw [hlinked.disjoint i hmissing] at hknown
        cases hknown

/-- Receiving the next packet retains all that was received. -/
theorem Followed.retains (hI : s.Followed b g inOrder l) (hb : Bounded l s)
    (hf : s.decoder.decoder.FollowsStored q)
    (hs : SparesEquation (coef g) (s.decoder.decoder.linksWith q)) :
    s.decoder.decoder.Retains g q := by
  have hretained := Detail.Decoder.retained_run (hI.consistent hb) hI.run
  exact Detail.Decoder.retains_of_follows hretained.balanced.linked hI.peeled hf hs

end System

end Netcode
