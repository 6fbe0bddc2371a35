import Netcode.Contents
import Netcode.Window
import Netcode.PacketFormat
import Netcode.Decoder

/-! An acknowledgement lists the sources that are known when it is generated, and an encoder erases
the sources it reads. -/
namespace Netcode

open Containers Encodings Runs

variable {w : FieldSize} {b : Build} {g : GfComplete w} {clock : ℕ → ℤ}

section Reading

variable {r r' : Reader} {n v i : ℕ} {ids : SourceIdList} {p : List Byte}

theorem Reader.read_lt (h : r.read n = .ok (v, r')) : v < 256 ^ n := by
  rw [Reader.read] at h
  split at h
  · cases h
  · split at h
    · cases h
    · next hlen =>
      cases h
      have hlt := ofBigEndian_lt (r.data.take n)
      rwa [List.length_take, min_eq_left (not_lt.mp hlen)] at hlt

theorem readIds_lt (h : readIds r = .ok (ids, r')) (hi : i ∈ ids) : i < 2 ^ 32 := by
  simp only [readIds, bind_ok_iff, Prod.exists] at h
  obtain ⟨nb, r1, -, h⟩ := h
  split at h
  · cases h
    exact absurd hi FlatSet.not_mem_empty
  · simp only [bind_ok_iff, Prod.exists] at h
    obtain ⟨first, r2, hfirst, ds, r3, -, h⟩ := h
    cases h
    rcases List.mem_cons.mp (mem_idsOfList.mp hi) with rfl | hi
    · exact Reader.read_lt hfirst
    · exact sumsFrom_lt (by decide) hi

/-- An identifier fits 32 bits. -/
def Fits (i : ℕ) : Prop := i < 2 ^ 32

theorem readSource_fits {q : Detail.Incoming}
    (h : (readSource b p).map (fun s => (Detail.Incoming.source s.1, s.2)) = .ok (q, n)) :
    ∀ i ∈ q.ids, Fits i := by
  obtain ⟨sn, hs, heq⟩ := map_ok_iff.mp h
  obtain ⟨rfl, -⟩ := Prod.mk.inj heq
  simp only [readSource, bind_ok_iff, Prod.exists] at hs
  obtain ⟨-, -, -, r1, -, id, r2, hid, size, r3, -, r4, -, hs⟩ := hs
  cases hs
  intro i hi
  rw [List.mem_singleton.mp hi]
  exact Reader.read_lt hid

theorem readRepair_fits {q : Detail.Incoming}
    (h : (readRepair b p).map (fun r => (Detail.Incoming.repair r.1, r.2)) = .ok (q, n)) :
    ∀ i ∈ q.ids, Fits i := by
  obtain ⟨rn, hr, heq⟩ := map_ok_iff.mp h
  obtain ⟨rfl, -⟩ := Prod.mk.inj heq
  simp only [readRepair, bind_ok_iff, Prod.exists] at hr
  obtain ⟨-, -, -, r1, -, id, r2, -, size, r3, -, r4, -, ids, r5, hids, enc, r6, -, hr⟩ := hr
  cases hr
  exact fun i hi => readIds_lt hids hi

end Reading

namespace Detail.Decoder

variable {d : Decoder w}

/-- All identifiers of a decoder fit 32 bits. -/
abbrev Fitting (d : Decoder w) : Prop := Naming Fits d []

end Detail.Decoder

/-- An acknowledgement lists exactly the sources that were held when it was generated. -/
def SentAck.Exact (a : SentAck) : Prop := a.ack.sourceIds.toList = a.held ∧ ∀ i ∈ a.held, Fits i

namespace Decoder

variable {d d' : Decoder w} {held : List ℕ}

/-- Sources are identified on 32 bits, and acknowledgements are exact. -/
structure Acknowledging (d : Decoder w) : Prop where
  listed : d.decoder.ListedStored
  fitting : d.decoder.Fitting
  pending : d.ack.sourceIds = FlatSet.empty
  sent : ∀ a ∈ d.sent, a.Exact

theorem idsOfList_sorted (hs : held.Pairwise (· < ·)) : (idsOfList held).toList = held :=
  congrArg FlatSet.toList (FlatSet.ext_mem (t := ⟨held, hs⟩) fun _ => mem_idsOfList)

theorem acknowledging_congr (hd : d'.decoder = d.decoder) (ha : d'.ack.sourceIds = d.ack.sourceIds)
    (hs : d'.sent = d.sent) (hI : d.Acknowledging) : d'.Acknowledging :=
  ⟨hd ▸ hI.listed, hd ▸ hI.fitting, ha.trans hI.pending, hs ▸ hI.sent⟩

theorem acknowledging_generateAckOf (hI : d.Acknowledging) (hs : held.Pairwise (· < ·))
    (hfit : ∀ i ∈ held, Fits i) : (d.generateAckOf held).Acknowledging := by
  refine ⟨hI.listed, hI.fitting, rfl, fun a ha => ?_⟩
  rcases List.mem_append.mp ha with ha | ha
  · exact hI.sent a ha
  · rw [List.mem_singleton.mp ha, SentAck.Exact, hI.pending]
    exact ⟨idsOfList_sorted hs, hfit⟩

theorem acknowledging_maybeAckOf (hI : d.Acknowledging) (hs : held.Pairwise (· < ·))
    (hfit : ∀ i ∈ held, Fits i) : (d.maybeAckOf clock held).Acknowledging := by
  rw [maybeAckOf]
  split
  · exact acknowledging_congr (d := d.generateAckOf held) rfl rfl rfl
      (acknowledging_generateAckOf hI hs hfit)
  · split
    · dsimp only
      split
      · exact acknowledging_congr (d := d.generateAckOf held) rfl rfl rfl
          (acknowledging_generateAckOf hI hs hfit)
      · exact acknowledging_congr (d := d) rfl rfl rfl hI
    · exact hI

theorem fits_of_known (h : Detail.Decoder.Known (fun src => Fits src.id) held) :
    ∀ i ∈ held, Fits i := by
  intro i hi
  obtain ⟨src, hsrc, rfl⟩ := h.2 i hi
  exact hsrc

theorem acknowledging_handleSource {c : Detail.Callback} (hI : d.Acknowledging)
    (hc : Detail.Decoder.Known (fun src => Fits src.id) c.known) :
    (d.handleSource clock c).Acknowledging := by
  refine acknowledging_maybeAckOf ?_ hc.1 (fits_of_known hc)
  exact acknowledging_congr (d := d) rfl rfl rfl hI

theorem acknowledging_forward {p : Detail.Incoming} (hI : d.Acknowledging)
    (hp : ∀ i ∈ p.ids, Fits i) (h : d.forward clock b g p = .ok d') : d'.Acknowledging := by
  simp only [forward, bind_ok_iff, Except.ok.injEq] at h
  obtain ⟨u, hu, rfl⟩ := h
  have hfit := Detail.Decoder.naming_receive hI.listed hI.fitting hp hu
  have hknown : ∀ c ∈ u.callbacks.drop d.decoder.callbacks.length,
      Detail.Decoder.Known (fun src => Fits src.id) c.known := fun c hc =>
    (hfit.callbacks c (List.mem_of_mem_drop hc)).2
  have hI1 : ({ d with decoder := u } : Decoder w).Acknowledging :=
    ⟨Detail.Decoder.listedStored_receive hI.listed hu, hfit, hI.pending, hI.sent⟩
  generalize u.callbacks.drop d.decoder.callbacks.length = l at hknown
  generalize ({ d with decoder := u } : Decoder w) = v at hI1
  induction l generalizing v with
  | nil => exact hI1
  | cons c l ih =>
    exact ih (fun c' hc' => hknown c' (List.mem_cons_of_mem c hc')) _
      (acknowledging_handleSource hI1 (hknown c List.mem_cons_self))

theorem acknowledging_handle {x : Except Stop (Detail.Incoming × ℕ)} {y : Except Exception ℕ}
    (hI : d.Acknowledging) (hx : ∀ p n, x = .ok (p, n) → ∀ i ∈ p.ids, Fits i)
    (h : d.handle clock b g x = .ok (d', y)) : d'.Acknowledging := by
  cases x with
  | error e =>
    cases e with
    | fault f => cases h
    | thrown e =>
      cases h
      exact hI
  | ok q =>
    obtain ⟨p, n⟩ := q
    simp only [handle, bind_ok_iff, Except.ok.injEq, Prod.mk.injEq] at h
    obtain ⟨u, hu, rfl, -⟩ := h
    exact acknowledging_forward hI (hx p n rfl) hu

theorem acknowledging_notify {p : List Byte} {y : Except Exception ℕ} (hI : d.Acknowledging)
    (h : d.notify clock b g p = .ok (d', y)) : d'.Acknowledging := by
  simp only [notify, bind_ok_iff] at h
  obtain ⟨-, -, h⟩ := h
  cases hty : getPacketType p with
  | error e =>
    cases e with
    | fault f => simp [hty] at h
    | thrown e =>
      simp only [hty, Except.ok.injEq, Prod.mk.injEq] at h
      rw [← h.1]
      exact hI
  | ok ty =>
    cases ty with
    | ack =>
      simp only [hty, Except.ok.injEq, Prod.mk.injEq] at h
      rw [← h.1]
      exact hI
    | repair =>
      simp only [hty] at h
      refine acknowledging_handle ?_ (fun _ _ hq => readRepair_fits hq) h
      exact acknowledging_congr (d := d) rfl rfl rfl hI
    | source =>
      simp only [hty] at h
      refine acknowledging_handle ?_ (fun _ _ hq => readSource_fits hq) h
      exact acknowledging_congr (d := d) rfl rfl rfl hI

theorem acknowledging_call {c : Call} (hI : d.Acknowledging)
    (h : d.call clock b g c = .ok d') : d'.Acknowledging := by
  cases c with
  | packet p =>
    obtain ⟨q, hn, rfl⟩ := map_ok_iff.mp h
    exact acknowledging_notify (y := q.2) hI hn
  | generateAck =>
    cases h
    exact acknowledging_generateAckOf hI d.decoder.sources.keys_sorted
      (fits_of_known hI.fitting.known)
  | maybeAck =>
    cases h
    exact acknowledging_maybeAckOf hI d.decoder.sources.keys_sorted
      (fits_of_known hI.fitting.known)
  | setAckFrequency f =>
    cases h
    exact acknowledging_congr (d := d) rfl rfl rfl hI
  | setAckNbPackets nb =>
    simp only [call, bind_ok_iff, Except.ok.injEq] at h
    obtain ⟨-, -, rfl⟩ := h
    exact acknowledging_congr (d := d) rfl rfl rfl hI

theorem acknowledging_initial (inOrder : Bool) :
    (initial clock inOrder : Decoder w).Acknowledging :=
  ⟨Detail.Decoder.listedStored_initial inOrder, Detail.Decoder.contents_initial inOrder, rfl,
    fun _ ha => by cases ha⟩

end Decoder

theorem id_mem_of_erased {sources : List EncoderSource} {ids : List ℕ} {src : EncoderSource}
    (hsrc : src ∈ sources) (h : src ∉ eraseSources sources ids) : src.id ∈ ids := by
  fun_induction eraseSources sources ids with
  | case1 ids => cases hsrc
  | case2 sources => exact absurd hsrc h
  | case3 s sources ids ih =>
    rcases List.mem_cons.mp hsrc with rfl | hsrc
    · exact List.mem_cons_self
    · exact List.mem_cons_of_mem _ (ih hsrc h)
  | case4 s sources id ids hne hlt ih => exact List.mem_cons_of_mem id (ih hsrc h)
  | case5 s sources id ids hne hge ih =>
    rw [List.mem_cons, not_or] at h
    exact ih ((List.mem_cons.mp hsrc).resolve_left h.1) h.2

/-- An acknowledgement is read from its own bytes, up to its identifiers. -/
theorem notify_writeAck (a : Ack) (e : Encoder) : e.notify b (writeAck a) =
    .ok ({ e with nbAcks := e.nbAcks + 1 }.notifyAck
        ⟨decodedIds a.sourceIds, a.nbPackets % 256 ^ 2⟩,
      .ok ((writeAck a).length - (leftIds a.sourceIds).length)) :=
  Encoder.notify_acknowledged rfl (readAck_writeAck b a) e

/-- An acknowledgement whose differences fit 16 bits removes only sources that were held. -/
theorem removed_held {a : SentAck} {e e' : Encoder} {src : EncoderSource} (ha : a.Exact)
    (hgaps : ∀ x ∈ gaps a.held, x ≤ 65535)
    (h : e.call b g (.packet (writeAck a.ack)) = .ok e') (hsrc : src ∈ e.sources)
    (hgone : src ∉ e'.sources) : src.id ∈ a.held := by
  obtain ⟨hids, hfit⟩ := ha
  rw [Encoder.call, notify_writeAck] at h
  cases h
  have hmem := id_mem_of_erased hsrc hgone
  rw [← hids]
  refine decodedIds_subset (fun i (hi : i ∈ a.ack.sourceIds) => ?_) (by rwa [hids]) hmem
  exact hfit i (hids ▸ hi)

end Netcode
