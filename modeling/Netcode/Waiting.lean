import Netcode.Channel
import Netcode.Sound
import Netcode.Watermark

/-! The sources that wait for the callback: they are known for as long as they wait, and given to it
before they are dropped. -/
namespace Netcode.Detail.Decoder

open Containers Runs

variable {w : FieldSize} {b : Build} {g : GfComplete w} {d d' : Decoder w} {r : DecoderRepair}
  {p : Incoming} {ps : List Incoming} {id n : ℕ}

theorem handed_sorted (d : Decoder w) (id n : ℕ) : (d.handed id n).Pairwise (· < ·) := by
  refine List.pairwise_append.mpr ⟨d.orderedSources.sorted.filter _, List.pairwise_lt_range', ?_⟩
  intro i hi j hj
  have hlt := of_decide_eq_true (List.mem_filter.mp hi).2
  exact hlt.trans_le ((le_max_right _ _).trans (List.mem_range'_1.mp hj).1)

/-- What dropping the sources before `id` does, in order: the sources waiting before `id` are given
to the callback in increasing order, then those waiting in sequence from the first missing one on,
while all sources are still there. None of those erased then still waits. -/
structure HandsOver (id n : ℕ) (d d' : Decoder w) : Prop where
  contiguous : Contiguous d (max d.firstMissingSourceInOrder id) n
  increasing : (d.handed id n).Pairwise (· < ·)
  calls : ∃ cs, d'.callbacks = d.callbacks ++ cs ∧
    cs.map (fun c => some c.source) = (d.handed id n).map d.sources.find? ∧
    ∀ c ∈ cs, c.known = d.sources.keys
  sources : d'.sources = d.sources.eraseBelow id
  waiting : ∀ k, k ∈ d'.orderedSources ↔ k ∈ d.orderedSources ∧ k ∉ d.handed id n
  kept : ∀ k ∈ d'.orderedSources, id ≤ k

theorem dropOutdated_handsOver (hq : d.Queued) (hio : d.inOrder = true)
    (h : d.dropOutdated b id = .ok d') : ∃ n, HandsOver id n d d' := by
  obtain ⟨d1, d2, heq, h2, rfl, hdrops⟩ := dropOutdated_cases h
  have hsame : d1.orderedSources = d.orderedSources ∧ d1.sources = d.sources ∧
      d1.callbacks = d.callbacks ∧ d1.firstMissingSourceInOrder = d.firstMissingSourceInOrder ∧
      d1.inOrder = d.inOrder := by
    rw [heq]
    exact ⟨rfl, rfl, rfl, rfl, rfl⟩
  obtain ⟨ho, hs, hc, hf, hio1⟩ := hsame
  obtain ⟨n, hcont, hhands, -⟩ := dropOrdered_hands
    (fun k hk => (hq.pointed k (ho ▸ hk)).2) (hio1.trans hio) h2
  have hhanded : d1.handed id n = d.handed id n := by rw [handed, handed, ho, hf]
  rw [hhanded] at hhands
  obtain ⟨cs, hcs, hmap, hknown⟩ := hhands.calls
  have hwait : ∀ k, k ∈ d2.orderedSources ↔ k ∈ d.orderedSources ∧ k ∉ d.handed id n :=
    fun k => ho ▸ hhands.waiting k
  refine ⟨n, ⟨fun j hj => ?_, ?_⟩, handed_sorted d id n, ⟨cs, ?_, ?_, ?_⟩, hdrops.sources, hwait,
    fun k hk => ?_⟩
  · exact ho ▸ hcont.waits j (hf.symm ▸ hj)
  · exact fun hin => hcont.stops (hf.symm ▸ ho.symm ▸ hin)
  · exact hc ▸ hcs
  · exact hs ▸ hmap
  · exact hs ▸ hknown
  · obtain ⟨hin, hnot⟩ := (hwait k).mp hk
    by_contra hlt
    refine hnot (List.mem_append_left _ (List.mem_filter.mpr ⟨FlatSet.mem_iff.mp hin, ?_⟩))
    exact decide_eq_true (not_le.mp hlt)

/-- What holds of a decoder that received identifiers of 32 bits. -/
structure Holding (d : Decoder w) : Prop where
  listed : d.ListedStored
  fitting : d.Fitting
  queued : d.Queued

theorem holding_receive (hI : d.Holding) (hp : ∀ i ∈ p.ids, Fits i)
    (h : d.receive b g p = .ok d') : d'.Holding := by
  have hcarries : Carries (fun src => Fits src.id) (fun r => ∀ i ∈ r.sourceIds, Fits i) p := by
    cases p with
    | source src => exact hp src.id (List.mem_singleton_self _)
    | repair r => exact hp
  exact ⟨listedStored_receive hI.listed h, naming_receive hI.listed hI.fitting hp h,
    queued_receive (closed_naming Fits) (fun _ hs => hs) hI.listed hI.fitting hI.queued hcarries h⟩

theorem holding_run {inOrder : Bool} (hps : ∀ p ∈ ps, ∀ i ∈ p.ids, Fits i)
    (h : ps.foldlM (receive b g) (initial inOrder) = .ok d) :
    d.Holding ∧ d.inOrder = inOrder :=
  foldlM_invariant (fun u => u.Holding ∧ u.inOrder = inOrder)
    (fun p hp _ _ hI h => ⟨holding_receive hI.1 (hps p hp) h,
      (inOrder_receive hI.1.listed h).trans hI.2⟩)
    ⟨⟨listedStored_initial inOrder, contents_initial inOrder, queued_initial inOrder⟩, rfl⟩ h

/-- In every run of an in-order decoder, each source that waits is known, between the calls and
whenever the callback is called, and remains the same unless a repair drops it; and whatever is
dropped is handed over before. -/
theorem waiting_run (hps : ∀ p ∈ ps, ∀ i ∈ p.ids, i < 2 ^ 32)
    (h : ps.foldlM (receive b g) (initial true) = .ok d) :
    (∀ i ∈ d.orderedSources, d.sources.contains i = true) ∧
    (∀ c ∈ d.callbacks, ∀ i ∈ c.waiting, i ∈ c.known) ∧
    (∀ p d', d.receive b g p = .ok d' → ∀ i ∈ d.orderedSources,
      d'.sources.find? i = d.sources.find? i ∨ ∃ r, p = .repair r ∧ i < firstId r) ∧
    ∀ id d', d.dropOutdated b id = .ok d' → ∃ n, HandsOver id n d d' := by
  obtain ⟨hI, hio⟩ := holding_run hps h
  refine ⟨fun i hi => (hI.queued.pointed i hi).1, hI.queued.called, fun p d' hd' i hi => ?_,
    fun id d' hd' => dropOutdated_handsOver hI.queued hio hd'⟩
  obtain ⟨src, hsrc⟩ := OrdMap.contains_iff.mp (hI.queued.pointed i hi).1
  rcases receive_keeps hI.listed hd' with hkeeps | ⟨r, rfl, -, -, -, hkept⟩
  · exact Or.inl ((hkeeps.sources i src hsrc).trans hsrc.symm)
  · by_cases hlt : i < firstId r
    · exact Or.inr ⟨r, rfl, hlt⟩
    · exact Or.inl ((hkept i src (not_lt.mp hlt) hsrc).trans hsrc.symm)

/-- Sources 2 and 1 wait for source 0. -/
theorem waiting_run_slidingCalls : ∃ d,
    (arrivals .debug (packets .debug gf16 slidingCalls) [3, 1]).foldlM (receive .debug gf16)
      (initial true) = .ok d ∧ d.orderedSources.toList = [1, 2] ∧
    (∀ i ∈ d.orderedSources, d.sources.contains i = true) ∧
    ∃ d' n, d.dropOutdated .debug 2 = .ok d' ∧ HandsOver 2 n d d' := by
  obtain ⟨d, hd, hp⟩ := exists_ok_of_any
    (x := (arrivals .debug (packets .debug gf16 slidingCalls) [3, 1]).foldlM (receive .debug gf16)
      (initial true))
    (p := fun d => decide (d.orderedSources.toList = [1, 2] ∧
      (d.dropOutdated .debug 2).toOption.isSome)) (by decide +kernel)
  obtain ⟨ho, hsome⟩ := of_decide_eq_true hp
  obtain ⟨hwaits, -, -, hdrop⟩ := waiting_run (by decide +kernel) hd
  obtain ⟨d', hd', -⟩ := exists_ok_of_any (p := fun _ => true) (by simpa using hsome)
  obtain ⟨n, hn⟩ := hdrop 2 d' hd'
  exact ⟨d, hd, ho, hwaits, d', n, hd', hn⟩

end Netcode.Detail.Decoder
