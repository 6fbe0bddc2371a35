import Netcode.LinkInvariant

/-! The sources an in-order decoder gave to the callback, and those it makes wait: giving one and
what can be decoded with it. -/
namespace Netcode.Detail.Decoder

open Containers Runs

variable {w : FieldSize} {b : Build} {g : GfComplete w} {d d' d1 d2 : Decoder w}
  {src : DecoderSource} {pending : List DecoderSource} {f i j k n ρ : ℕ}

/-- The sources given so far, and those that wait for the first missing one. -/
structure Sequenced (d : Decoder w) : Prop where
  inOrder : d.inOrder = true
  keyed : d.Keyed
  known : ∀ k ∈ d.orderedSources, d.sources.contains k = true
  bounded : ∀ k ∈ d.orderedSources, k < 2 ^ 32
  waits : ∀ k ∈ d.orderedSources, d.firstMissingSourceInOrder < k
  sorted : d.delivered.Pairwise (· < ·)
  before : ∀ i ∈ d.delivered, i < d.firstMissingSourceInOrder

/-- A source that comes later does not become known, so that the counter does not wrap around. -/
structure Lacks (d : Decoder w) (pending : List DecoderSource) (j : ℕ) : Prop where
  ahead : d.firstMissingSourceInOrder ≤ j
  bounded : j < 2 ^ 32
  unknown : d.sources.contains j = false
  notMissing : d.missingSources.contains j = false
  notPending : ∀ x ∈ pending, x.id ≠ j

/-- The missing sources from `f` on are not passed over, nor is `j`, which is lacking. -/
structure SequencedWhile (d : Decoder w) (f j : ℕ) (pending : List DecoderSource) : Prop where
  sequenced : d.Sequenced
  linked : d.LinkedWhile pending
  frontier : ∀ i, d.missingSources.contains i = true → f ≤ i → d.firstMissingSourceInOrder ≤ i
  bounded : ∀ i, d.missingSources.contains i = true → i < 2 ^ 32
  pendingBounded : ∀ x ∈ pending, x.id < 2 ^ 32
  lacks : d.Lacks pending j

/-- What holds between operations. -/
structure InSequence (d : Decoder w) : Prop where
  sequenced : d.Sequenced
  linked : d.LinkedWhile []
  bounded : ∀ i, d.missingSources.contains i = true → i < 2 ^ 32
  first : d.firstMissingSourceInOrder < 2 ^ 32

theorem InSequence.start (hI : d.InSequence) (hj : d.Lacks [] j) :
    d.SequencedWhile d.firstMissingSourceInOrder j [] :=
  ⟨hI.sequenced, hI.linked, fun _ _ hle => hle, hI.bounded, fun _ hx => absurd hx List.not_mem_nil,
    hj⟩

theorem SequencedWhile.finish (hI : d.SequencedWhile f j []) : d.InSequence :=
  ⟨hI.sequenced, hI.linked, hI.bounded, hI.lacks.ahead.trans_lt hI.lacks.bounded⟩

theorem not_mem_ordered (hs : d.Sequenced) (hi : d.sources.contains i = false) :
    i ∉ d.orderedSources := by
  intro hmem
  rw [hs.known i hmem] at hi
  cases hi

theorem keyed_insert (h : d.Keyed) (hid : src.id = k) :
    ({ d with sources := d.sources.insert k src } : Decoder w).Keyed := by
  intro j s hj
  by_cases hjk : j = k
  · subst hjk
    rw [show _ = some src from OrdMap.find?_insert_self] at hj
    cases hj
    exact hid
  · exact h j s ((OrdMap.find?_insert_ne hjk).symm.trans hj)

theorem keyed_store (hk : d.Keyed) (h : d.store b src = .ok d') : d'.Keyed := by
  rw [(store_spec h).2]
  intro j s hj
  dsimp only at hj
  split at hj
  · exact hk j s hj
  · exact keyed_insert hk rfl j s hj

theorem keyed_eraseBelow (h : d.Keyed) (hs : d'.sources = d.sources.eraseBelow k) : d'.Keyed := by
  intro j s hj
  rw [hs, OrdMap.find?_eraseBelow] at hj
  split at hj
  · exact h j s hj
  · cases hj

theorem sorted_append_range {l : List ℕ} {m : ℕ} (hs : l.Pairwise (· < ·)) (hb : ∀ i ∈ l, i < m)
    (n : ℕ) : (l ++ List.range' m n).Pairwise (· < ·) := by
  refine List.pairwise_append.mpr ⟨hs, List.pairwise_lt_range', fun i hi j hj => ?_⟩
  exact (hb i hi).trans_le (List.mem_range'_1.mp hj).1

theorem sequenced_gives (hI : d.Sequenced) (h : Gives n d d') : d'.Sequenced := by
  have hwait : ∀ k ∈ d'.orderedSources, k ∈ d.orderedSources ∧
      d.firstMissingSourceInOrder + 1 + n < k := by
    intro k hk
    obtain ⟨hk, hrange⟩ := (h.waiting k).mp hk
    have hlt := hI.waits k hk
    have hne : k ≠ d.firstMissingSourceInOrder + 1 + n := by
      rintro rfl
      exact h.stops hk
    rw [List.mem_range'_1] at hrange
    exact ⟨hk, by omega⟩
  refine ⟨(inOrder_delivers h.frame).trans hI.inOrder, keyed_delivers h.frame hI.keyed,
    fun k hk => ?_, fun k hk => hI.bounded k (hwait k hk).1, fun k hk => ?_, ?_, fun i hi => ?_⟩
  · rw [sources_delivers h.frame]
    exact hI.known k (hwait k hk).1
  · rw [h.first]
    exact (hwait k hk).2
  · rw [h.delivered]
    exact sorted_append_range hI.sorted hI.before _
  · rw [h.delivered] at hi
    rw [h.first]
    rcases List.mem_append.mp hi with hi | hi
    · have := hI.before i hi
      omega
    · have := (List.mem_range'_1.mp hi).2
      omega

/-- An unknown source is not passed over, unless it is the one that is given first. -/
theorem Gives.first_le (h : Gives n d d') (hknown : ∀ k ∈ d.orderedSources,
    d.sources.contains k = true) (hi : d.sources.contains i = false)
    (hlt : d.firstMissingSourceInOrder < i) : d'.firstMissingSourceInOrder ≤ i := by
  rw [h.first]
  by_contra hle
  have hmem := hknown i (h.given i (List.mem_range'_1.mpr ⟨hlt, by omega⟩))
  rw [hi] at hmem
  cases hmem

theorem sequenced_congr (hio : d'.inOrder = d.inOrder) (hs : d'.sources = d.sources)
    (ho : d'.orderedSources = d.orderedSources) (hc : d'.callbacks = d.callbacks)
    (hf : d'.firstMissingSourceInOrder = d.firstMissingSourceInOrder) (hI : d.Sequenced) :
    d'.Sequenced := by
  refine ⟨hio.trans hI.inOrder, ?_, ?_, ?_, ?_, ?_, ?_⟩
  · rw [Keyed, hs]
    exact hI.keyed
  · rw [ho, hs]
    exact hI.known
  · rw [ho]
    exact hI.bounded
  · rw [ho, hf]
    exact hI.waits
  · rw [delivered, hc]
    exact hI.sorted
  · rw [delivered, hc, hf]
    exact hI.before

theorem sequencedWhile_congr (hio : d'.inOrder = d.inOrder) (hs : d'.sources = d.sources)
    (ho : d'.orderedSources = d.orderedSources) (hc : d'.callbacks = d.callbacks)
    (hf : d'.firstMissingSourceInOrder = d.firstMissingSourceInOrder)
    (hm : d'.missingSources = d.missingSources) (hr : d'.repairs = d.repairs)
    (hI : d.SequencedWhile f j pending) : d'.SequencedWhile f j pending := by
  refine ⟨sequenced_congr hio hs ho hc hf hI.sequenced, linkedWhile_congr hr hm hs hI.linked, ?_, ?_,
    hI.pendingBounded, ⟨?_, hI.lacks.bounded, ?_, ?_, hI.lacks.notPending⟩⟩
  · rw [hm, hf]
    exact hI.frontier
  · rw [hm]
    exact hI.bounded
  · rw [hf]
    exact hI.lacks.ahead
  · rw [hs]
    exact hI.lacks.unknown
  · rw [hm]
    exact hI.lacks.notMissing

theorem contains_erase_false {s : OrdMap ℕ (FlatSet ℕ)} (h : s.contains j = false) :
    (s.erase k).contains j = false := by
  rw [OrdMap.contains_erase, h, Bool.and_false]

theorem sequenced_offer (hI : d.SequencedWhile f j pending) (hsrc : src.id < 2 ^ 32)
    (hne : src.id ≠ j) (ho : d.offer b src = .ok d1) (hs : d1.stripFromRepairs b g src = .ok d2) :
    d2.SequencedWhile f j (src :: pending) := by
  have hdel := offer_delivers ho
  have heq := (stripFromRepairs_spec hs).1
  have hlinked : d1.LinkedWhile pending := linkedWhile_congr (repairs_delivers hdel)
    (missing_delivers hdel) (sources_delivers hdel) hI.linked
  have hseq : d1.Sequenced ∧ ∀ i, i ≠ src.id → d.sources.contains i = false →
      d.firstMissingSourceInOrder ≤ i → d1.firstMissingSourceInOrder ≤ i := by
    obtain ⟨hio, -⟩ | ⟨-, ⟨hid, hflush⟩ | ⟨-, rfl⟩⟩ := offer_cases ho
    · rw [hI.sequenced.inOrder] at hio
      cases hio
    · obtain ⟨n, hg⟩ := callback_gives hI.sequenced.keyed hI.sequenced.bounded hid
        (lt_of_le_of_ne hI.lacks.ahead (hid ▸ hne)) hI.lacks.bounded
        (not_mem_ordered hI.sequenced hI.lacks.unknown) hflush
      exact ⟨sequenced_gives hI.sequenced hg, fun i hi hunknown hle =>
        hg.first_le hI.sequenced.known hunknown (lt_of_le_of_ne hle (hid ▸ hi.symm))⟩
    · exact ⟨hI.sequenced, fun i _ _ hle => hle⟩
  have hm : d2.missingSources = d.missingSources.erase src.id := by
    rw [heq, ← missing_delivers hdel]
  have hf : d2.firstMissingSourceInOrder = d1.firstMissingSourceInOrder := by rw [heq]
  have hks : d2.sources = d.sources := by rw [heq, ← sources_delivers hdel]
  refine ⟨?_, linkedWhile_strip hlinked hs, fun i hi hfi => ?_, fun i hi => ?_, fun x hx => ?_,
    ⟨?_, hI.lacks.bounded, ?_, ?_, fun x hx => ?_⟩⟩
  · rw [heq]
    exact sequenced_congr (d := d1) rfl rfl rfl rfl rfl hseq.1
  · rw [hm, OrdMap.contains_erase, Bool.and_eq_true, decide_eq_true_eq] at hi
    rw [hf]
    exact hseq.2 i hi.1 (hI.linked.disjoint i hi.2) (hI.frontier i hi.2 hfi)
  · rw [hm] at hi
    exact hI.bounded i (contains_of_erase hi)
  · rcases List.mem_cons.mp hx with rfl | hx
    exacts [hsrc, hI.pendingBounded x hx]
  · rw [hf]
    exact hseq.2 j hne.symm hI.lacks.unknown hI.lacks.ahead
  · rw [hks]
    exact hI.lacks.unknown
  · rw [hm]
    exact contains_erase_false hI.lacks.notMissing
  · rcases List.mem_cons.mp hx with rfl | hx
    exacts [hne, hI.lacks.notPending x hx]

theorem sequenced_store (hI : d.SequencedWhile f j (src :: pending)) (h : d.store b src = .ok d') :
    d'.SequencedWhile f j pending := by
  have hlinked := linkedWhile_store hI.linked h
  have hkeyed := keyed_store hI.sequenced.keyed h
  have hknown := contains_store h
  have hwait := waiting_store h hI.sequenced.inOrder
  have hsrc := hI.pendingBounded src List.mem_cons_self
  have hne := hI.lacks.notPending src List.mem_cons_self
  have hunknown : d'.sources.contains j = false := by
    rw [← Bool.not_eq_true, hknown, not_or, Bool.not_eq_true]
    exact ⟨hne.symm, hI.lacks.unknown⟩
  obtain rfl := (store_spec h).2
  refine ⟨⟨hI.sequenced.inOrder, hkeyed, fun k hk => ?_, fun k hk => ?_, fun k hk => ?_,
    hI.sequenced.sorted, hI.sequenced.before⟩, hlinked, hI.frontier, hI.bounded,
    fun x hx => hI.pendingBounded x (List.mem_cons_of_mem src hx), hI.lacks.ahead,
    hI.lacks.bounded, hunknown, hI.lacks.notMissing,
    fun x hx => hI.lacks.notPending x (List.mem_cons_of_mem src hx)⟩
  · refine (hknown k).mpr ?_
    rcases (hwait k).mp hk with hk | ⟨rfl, -⟩
    exacts [Or.inr (hI.sequenced.known k hk), Or.inl rfl]
  · rcases (hwait k).mp hk with hk | ⟨rfl, -⟩
    exacts [hI.sequenced.bounded k hk, hsrc]
  · rcases (hwait k).mp hk with hk | ⟨rfl, hlt⟩
    exacts [hI.sequenced.waits k hk, hlt]

theorem sequenced_removeDecoded (hI : d.SequencedWhile f j pending)
    (hlinked : (d.removeDecoded k ρ).LinkedWhile pending) :
    (d.removeDecoded k ρ).SequencedWhile f j pending :=
  ⟨sequenced_congr (d := d) rfl rfl rfl rfl rfl hI.sequenced, hlinked,
    fun i hi => hI.frontier i (contains_of_erase hi), fun i hi => hI.bounded i (contains_of_erase hi),
    hI.pendingBounded, hI.lacks.ahead, hI.lacks.bounded, hI.lacks.unknown,
    contains_erase_false hI.lacks.notMissing, hI.lacks.notPending⟩

theorem sequenced_rule : PeelRule b g
    (fun pending src (d : Decoder w) => d.SequencedWhile f j pending ∧ src.id < 2 ^ 32 ∧ src.id ≠ j)
    (fun pending d => d.SequencedWhile f j pending) where
  add hP _ ho hs := sequenced_offer hP.1 hP.2.1 hP.2.2 ho hs
  decode := by
    rintro pending src d k ρ r y hI hL hk hmin hids hd rfl
    have hmissing := references_contains (references_of_readyAt hk)
    refine ⟨sequenced_removeDecoded hI (linkedWhile_rule.decode hI.linked hL hk hmin hids hd rfl),
      hI.bounded y.id hmissing, ?_⟩
    rintro rfl
    rw [hI.lacks.notMissing] at hmissing
    cases hmissing
  store hI h := sequenced_store hI h

end Netcode.Detail.Decoder
