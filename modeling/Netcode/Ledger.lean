import Netcode.Ledger.Given

/-! The statistics of a decoder add up: every repair received is spent at most once, and every
source the user is given was received or decoded. -/
namespace Netcode.Decoder

open Containers Runs

variable {w : FieldSize} {b : Build} {g : GfComplete w}

variable {clock : ℕ → ℤ} {d d' : Decoder w} {q : Detail.Incoming} {c : Call} {calls : List Call}
  {inOrder : Bool}

/-- The counters of received packets are the same. -/
def SameCounters (d d' : Decoder w) : Prop :=
  d'.nbReceivedRepairs = d.nbReceivedRepairs ∧ d'.nbReceivedSources = d.nbReceivedSources

theorem counters_maybeAckOf (clock : ℕ → ℤ) (held : List ℕ) (d : Decoder w) :
    d.SameCounters (d.maybeAckOf clock held) := by
  rw [maybeAckOf]
  split
  · exact ⟨rfl, rfl⟩
  · split
    · dsimp only
      split
      · exact ⟨rfl, rfl⟩
      · exact ⟨rfl, rfl⟩
    · exact ⟨rfl, rfl⟩

theorem counters_handleSources (l : List Detail.Callback) (d : Decoder w) :
    d.SameCounters (l.foldl (handleSource clock) d) := by
  induction l generalizing d with
  | nil => exact ⟨rfl, rfl⟩
  | cons c l ih =>
    obtain ⟨hr, hs⟩ := ih (d.handleSource clock c)
    obtain ⟨hr', hs'⟩ := counters_maybeAckOf clock c.known { d with data := d.data ++ [c.source] }
    exact ⟨hr.trans hr', hs.trans hs'⟩

theorem counters_forward (h : d.forward clock b g q = .ok d') : d.SameCounters d' := by
  simp only [forward, bind_ok_iff, Except.ok.injEq] at h
  obtain ⟨u, -, rfl⟩ := h
  exact counters_handleSources _ { d with decoder := u }

/-- A call leaves the real decoder alone, or gives it what was read in a packet, which was counted. -/
theorem call_counts (h : d.call clock b g c = .ok d') :
    (d'.decoder = d.decoder ∧ d'.data = d.data ∧ d.nbReceivedRepairs ≤ d'.nbReceivedRepairs ∧
      d.nbReceivedSources ≤ d'.nbReceivedSources) ∨
    ∃ p q, ∃ u : Decoder w, c = .packet p ∧ Reads b p q ∧ u.decoder = d.decoder ∧
      u.data = d.data ∧ u.forward clock b g q = .ok d' ∧
      d'.nbReceivedRepairs = d.nbReceivedRepairs + q.repairs ∧
      d'.nbReceivedSources = d.nbReceivedSources + q.sources := by
  cases c with
  | packet p =>
    obtain ⟨⟨d', y⟩, hn, rfl⟩ := map_ok_iff.mp h
    simp only [notify, bind_ok_iff] at hn
    obtain ⟨-, -, hn⟩ := hn
    split at hn
    · cases hn
    · cases hn
      exact Or.inl ⟨rfl, rfl, le_rfl, le_rfl⟩
    · next htype =>
      rcases handle_forwards hn with ⟨-, rfl⟩ | ⟨q, n, hread, hf⟩
      · exact Or.inl ⟨rfl, rfl, Nat.le_succ _, le_rfl⟩
      · have hreads := reads_repair htype hread
        obtain ⟨r, -, heq⟩ := map_ok_iff.mp hread
        obtain ⟨rfl, -⟩ := Prod.mk.inj heq
        obtain ⟨hr, hs⟩ := counters_forward hf
        exact Or.inr ⟨p, _, { d with nbReceivedRepairs := d.nbReceivedRepairs + 1 }.countPacket,
          rfl, hreads, rfl, rfl, hf, hr, hs⟩
    · next htype =>
      rcases handle_forwards hn with ⟨-, rfl⟩ | ⟨q, n, hread, hf⟩
      · exact Or.inl ⟨rfl, rfl, le_rfl, Nat.le_succ _⟩
      · have hreads := reads_source htype hread
        obtain ⟨r, -, heq⟩ := map_ok_iff.mp hread
        obtain ⟨rfl, -⟩ := Prod.mk.inj heq
        obtain ⟨hr, hs⟩ := counters_forward hf
        exact Or.inr ⟨p, _, { d with nbReceivedSources := d.nbReceivedSources + 1 }.countPacket,
          rfl, hreads, rfl, rfl, hf, hr, hs⟩
    · cases hn
      exact Or.inl ⟨rfl, rfl, le_rfl, le_rfl⟩
  | generateAck =>
    cases h
    exact Or.inl ⟨rfl, rfl, le_rfl, le_rfl⟩
  | maybeAck =>
    cases h
    obtain ⟨hr, hs⟩ := counters_maybeAckOf clock d.decoder.sources.keys d
    exact Or.inl ⟨decoder_maybeAckOf d, data_maybeAckOf d, hr.ge, hs.ge⟩
  | setAckFrequency f =>
    cases h
    exact Or.inl ⟨rfl, rfl, le_rfl, le_rfl⟩
  | setAckNbPackets nb =>
    simp only [call, bind_ok_iff, Except.ok.injEq] at h
    obtain ⟨-, -, rfl⟩ := h
    exact Or.inl ⟨rfl, rfl, le_rfl, le_rfl⟩

theorem receive_of_forward (h : d.forward clock b g q = .ok d') :
    d.decoder.receive b g q = .ok d'.decoder := by
  simp only [forward, bind_ok_iff, Except.ok.injEq] at h
  obtain ⟨u, hu, rfl⟩ := h
  rw [decoder_handleSources]
  exact hu

/-- Whatever a decoder is given, each repair it received is spent at most once: it was useless,
dropped by a failed full decoding, is still stored, or some source was decoded for it. -/
theorem repairs_spent_once (h : calls.foldlM (call clock b g) (initial clock inOrder) = .ok d) :
    d.decoder.nbDecoded + d.decoder.nbUselessRepairs + d.decoder.nbFailedFullDecodings +
      d.decoder.repairs.size ≤ d.nbReceivedRepairs := by
  refine (foldlM_invariant (fun u => u.decoder.ListedStored ∧
    u.decoder.spent ≤ u.nbReceivedRepairs) ?_ ⟨Detail.Decoder.listedStored_initial inOrder,
    le_rfl⟩ h).2
  rintro c - u v ⟨hL, hu⟩ hv
  rcases call_counts hv with ⟨hd, -, hr, -⟩ | ⟨p, q, t, -, -, ht, -, hf, hr, -⟩
  · rw [hd]
    exact ⟨hL, hu.trans hr⟩
  · have hreceive := receive_of_forward hf
    rw [ht] at hreceive
    refine ⟨Detail.Decoder.listedStored_receive hL hreceive, ?_⟩
    have hspent := Detail.Decoder.spent_receive hL hreceive
    omega

/-- Packets of one encoder, as the calls that give them to the decoder. -/
def deliveries (ps : List WirePacket) (order : List ℕ) : List Call :=
  order.filterMap fun k => ps[k]?.map fun p => .packet p.bytes

/-- Both repairs decode a source: sources 1 and 3 are lost. -/
theorem repairs_spent_once_nestedCalls : ∃ d,
    (deliveries (packets .release gf16 nestedCalls) [2, 0, 5, 3]).foldlM
      (call (fun _ => 0) .release gf16) (initial (fun _ => 0) true) = .ok d ∧
    d.decoder.nbDecoded = 2 ∧ d.nbReceivedRepairs = 2 ∧
    d.decoder.nbDecoded + d.decoder.nbUselessRepairs + d.decoder.nbFailedFullDecodings +
      d.decoder.repairs.size ≤ d.nbReceivedRepairs := by
  have hrun : ((deliveries (packets .release gf16 nestedCalls) [2, 0, 5, 3]).foldlM
      (call (fun _ => 0) .release gf16) (initial (fun _ => 0) true)).toOption.any (fun d =>
        decide (d.decoder.nbDecoded = 2 ∧ d.nbReceivedRepairs = 2)) = true := by
    decide +kernel
  obtain ⟨d, hd, hcheck⟩ := exists_ok_of_any hrun
  obtain ⟨hdecoded, hreceived⟩ := of_decide_eq_true hcheck
  exact ⟨d, hd, hdecoded, hreceived, repairs_spent_once hd⟩

/-- Whatever a decoder is given, the user is given no more data than it received and decoded
sources, those that wait included. In order, no packet may name the last identifier of all. -/
theorem data_accounted (h : calls.foldlM (call clock b g) (initial clock inOrder) = .ok d)
    (hlast : inOrder = true → ∀ p q, .packet p ∈ calls → Reads b p q →
      Detail.Decoder.namesLast q = false) :
    d.data.length + d.decoder.orderedSources.size ≤
      d.nbReceivedSources + d.decoder.nbDecoded := by
  have hfinal := foldlM_invariant (fun u => u.decoder.ListedStored ∧ u.Hands ∧
    u.decoder.Ahead inOrder [] ∧ u.decoder.given ≤ u.nbReceivedSources + u.decoder.nbDecoded) ?_
    ⟨Detail.Decoder.listedStored_initial inOrder, rfl, ⟨rfl, Detail.Decoder.contents_initial inOrder,
      fun k hk => absurd hk FlatSet.not_mem_empty⟩, le_rfl⟩ h
  · obtain ⟨-, hhands, -, hgiven⟩ := hfinal
    rw [hhands, List.length_map]
    exact hgiven
  · rintro c hc u v ⟨hL, hhands, hI, hu⟩ hv
    rcases call_counts hv with ⟨hd, hdata, -, hs⟩ | ⟨p, q, t, rfl, hq, ht, hdata, hf, -, hs⟩
    · rw [Hands, hd, hdata]
      exact ⟨hL, hhands, hI, by omega⟩
    · have hreceive := receive_of_forward hf
      rw [ht] at hreceive
      have hids : ∀ i ∈ q.ids, Detail.Decoder.Before inOrder i := fun i hi hio =>
        Detail.Decoder.bounded_of_namesLast (hlast hio p q hc hq) hi
      obtain ⟨hI', hgiven⟩ := Detail.Decoder.due_receive hL hI hu hids hreceive
      refine ⟨Detail.Decoder.listedStored_receive hL hreceive, ?_, hI', by rw [hs]; exact hgiven⟩
      refine hands_forward (ht ▸ hL) ?_ hf
      rw [Hands, hdata, ht]
      exact hhands

/-- Sources 0 and 2 are received, and sources 1 and 3 decoded. -/
theorem data_accounted_nestedCalls : ∃ d,
    (deliveries (packets .release gf16 nestedCalls) [2, 0, 5, 3]).foldlM
      (call (fun _ => 0) .release gf16) (initial (fun _ => 0) true) = .ok d ∧
    d.data.length = 4 ∧ d.nbReceivedSources = 2 ∧
    d.data.length + d.decoder.orderedSources.size ≤
      d.nbReceivedSources + d.decoder.nbDecoded := by
  have hrun : ((deliveries (packets .release gf16 nestedCalls) [2, 0, 5, 3]).foldlM
      (call (fun _ => 0) .release gf16) (initial (fun _ => 0) true)).toOption.any (fun d =>
        decide (d.data.length = 4 ∧ d.nbReceivedSources = 2)) = true := by
    decide +kernel
  obtain ⟨d, hd, hcheck⟩ := exists_ok_of_any hrun
  obtain ⟨hdata, hreceived⟩ := of_decide_eq_true hcheck
  have hall : ∀ p ∈ packets .release gf16 nestedCalls,
      (p.incoming .release).toOption.all (fun q => !Detail.Decoder.namesLast q) = true := by
    decide +kernel
  refine ⟨d, hd, hdata, hreceived, data_accounted hd fun _ p q hp hq => ?_⟩
  obtain ⟨k, -, hk⟩ := List.mem_filterMap.mp hp
  obtain ⟨p', hp', heq⟩ := Option.map_eq_some_iff.mp hk
  obtain rfl := Call.packet.inj heq
  have hlast := hall p' (List.mem_of_getElem? hp')
  rw [incoming_of_reads hq] at hlast
  have hnot : (!Detail.Decoder.namesLast q) = true := hlast
  rwa [Bool.not_eq_true'] at hnot

end Netcode.Decoder
