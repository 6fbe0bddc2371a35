import Netcode.AtMostOnce
import Netcode.InOrder.Decoding

/-! In order, sources are given to the callback by increasing identifiers, as long as no full decoding
rebuilds a lost source that was already passed over. -/
namespace Netcode.Detail.Decoder

open Containers Runs

variable {w : FieldSize} {b : Build} {g : GfComplete w} {d d' d1 d2 : Decoder w}
  {src : DecoderSource} {r r2 : DecoderRepair} {p : Incoming} {ps : List Incoming} {f i j : ℕ}

/-- A full decoding decodes sources older than `f`. -/
def DecodesBelow (g : GfComplete w) (f : ℕ) (d : Decoder w) : Prop :=
  d.DecodesAll g ∧ ∃ i < f, d.missingSources.contains i = true

/-- The full decoding that follows decodes sources that were passed over. -/
def Rewinds (g : GfComplete w) (d : Decoder w) : Incoming → Prop
  | .source src => d.outdated src.id = false ∧ d.sources.contains src.id = false ∧
      (d.withoutSource g src).settled.DecodesBelow g d.firstMissingSourceInOrder
  | .repair r => d.accepts r = true ∧ (d.keeping (firstId r)).useless r = false ∧
      ((d.keeping (firstId r)).unknown r).size ≠ 1 ∧
      ((d.keeping (firstId r)).linking g r).DecodesBelow g d.firstMissingSourceInOrder

/-- All identifiers from `f` on are known, missing or in a list. -/
def spans (d : Decoder w) (f : ℕ) (ids : List ℕ) : Bool :=
  (List.range' f (2 ^ 32 - f)).all fun i =>
    d.sources.contains i || d.missingSources.contains i || ids.contains i

/-- No source is lacking: the one of the greatest identifier may be given, after which identifiers
start again from 0. -/
def mayWrap (d : Decoder w) : Incoming → Bool
  | .source src => !d.outdated src.id && !d.sources.contains src.id &&
      d.spans d.firstMissingSourceInOrder [src.id]
  | .repair r => d.accepts r &&
      d.spans (max d.firstMissingSourceInOrder (firstId r)) r.sourceIds.toList

/-- What every step of an in-order run must meet. -/
structure KeepsSequence (g : GfComplete w) (d : Decoder w) (p : Incoming) : Prop where
  unshared : d.rebuildsShared p = false
  forward : ¬ d.Rewinds g p
  bounded : d.mayWrap p = false

theorem spans_eq_false {ids : List ℕ} : d.spans f ids = false ↔ ∃ j, f ≤ j ∧ j < 2 ^ 32 ∧
    d.sources.contains j = false ∧ d.missingSources.contains j = false ∧ j ∉ ids := by
  rw [spans, List.all_eq_false]
  refine exists_congr fun j => ?_
  rw [List.mem_range'_1, Bool.not_eq_true, Bool.or_eq_false_iff, Bool.or_eq_false_iff,
    ← Bool.not_eq_true (ids.contains j), List.contains_iff_mem]
  constructor
  · rintro ⟨⟨hle, hlt⟩, ⟨hs, hm⟩, hids⟩
    exact ⟨hle, by omega, hs, hm, hids⟩
  · rintro ⟨hle, hlt, hs, hm, hids⟩
    exact ⟨⟨hle, by omega⟩, ⟨hs, hm⟩, hids⟩

theorem lacks_source (ho : d.outdated src.id = false) (hs : d.sources.contains src.id = false)
    (h : d.mayWrap (.source src) = false) : ∃ j, d.Lacks [] j ∧ src.id ≠ j := by
  simp only [mayWrap, ho, hs, Bool.not_false, Bool.true_and] at h
  obtain ⟨j, hle, hlt, hunknown, hmissing, hne⟩ := spans_eq_false.mp h
  exact ⟨j, ⟨hle, hlt, hunknown, hmissing, fun x hx => absurd hx List.not_mem_nil⟩,
    fun heq => hne (List.mem_singleton.mpr heq.symm)⟩

theorem lacks_repair (hacc : d.accepts r = true) (h : d.mayWrap (.repair r) = false) :
    ∃ j, d.Lacks [] j ∧ firstId r ≤ j ∧ j ∉ r.sourceIds := by
  rw [mayWrap, hacc, Bool.true_and] at h
  obtain ⟨j, hle, hlt, hunknown, hmissing, hne⟩ := spans_eq_false.mp h
  exact ⟨j, ⟨(le_max_left _ _).trans hle, hlt, hunknown, hmissing,
    fun x hx => absurd hx List.not_mem_nil⟩, (le_max_right _ _).trans hle, hne⟩

theorem ahead_source (hL : d.ListedStored) (ho : d.outdated src.id = false)
    (hs : d.sources.contains src.id = false) (hforward : ¬ d.Rewinds g (.source src))
    (h : d.addSourceRecursive b g src = .ok d1) (hd : d1.DecodesAll g) (i : ℕ)
    (hi : d1.missingSources.contains i = true) : d.firstMissingSourceInOrder ≤ i := by
  have hout := addSource_outline hL h
  rw [(outline_eq_iff.mp hout).1] at hi
  by_contra hlt
  exact hforward ⟨ho, hs, decodesAll_outline hout.symm hd, i, not_le.mp hlt, hi⟩

theorem ahead_repair (hL : d.ListedStored) (hacc : d.accepts r = true)
    (ha : Accepts b g r (firstId r) d d1 d2 r2) (hmany : r2.sourceIds.size ≠ 1)
    (hforward : ¬ d.Rewinds g (.repair r)) (hd : d2.DecodesAll g) (i : ℕ)
    (hi : d2.missingSources.contains i = true) : d.firstMissingSourceInOrder ≤ i := by
  have hnew := contains_of_accepts hacc
  obtain ⟨hout, hids⟩ := ha.outline_linking hL hnew
  have huseful := (useless_keeping (ha.accepted hnew).drops).symm.trans ha.useful
  rw [(outline_eq_iff.mp hout).1] at hi
  by_contra hlt
  exact hforward ⟨hacc, huseful, hids ▸ hmany, decodesAll_outline hout.symm hd, i, not_le.mp hlt, hi⟩

theorem sequenced_accepted (hL : d.ListedStored) (hI : d1.SequencedWhile f j [])
    (hA : Accepted r (firstId r) d d1 d2 r2) (hj : j ∉ r.sourceIds)
    (hnew : ∀ i ∈ r2.sourceIds, (f ≤ i → d1.firstMissingSourceInOrder ≤ i) ∧ i < 2 ^ 32) :
    d2.SequencedWhile f j [] := by
  have hlinked := linked_accepted
    (linked_iff_linkedWhile.mpr ⟨listedStored_drops hL hA.drops, hI.linked⟩) hL hA
  have hfirst : d2.firstMissingSourceInOrder = d1.firstMissingSourceInOrder := by rw [hA.frame]
  refine ⟨?_, (linked_iff_linkedWhile.mp hlinked).2, fun i hi hfi => ?_, fun i hi => ?_,
    hI.pendingBounded, ?_, hI.lacks.bounded, ?_, ?_, hI.lacks.notPending⟩
  · rw [hA.frame]
    exact sequenced_congr (d := d1) rfl rfl rfl rfl rfl hI.sequenced
  · rw [hfirst]
    rcases (hA.missing i).mp hi with hi | hi
    exacts [hI.frontier i hi hfi, (hnew i hi).1 hfi]
  · rcases (hA.missing i).mp hi with hi | hi
    exacts [hI.bounded i hi, (hnew i hi).2]
  · rw [hfirst]
    exact hI.lacks.ahead
  · rw [hA.frame]
    exact hI.lacks.unknown
  · rw [← Bool.not_eq_true, hA.missing, hI.lacks.notMissing, hA.ids]
    rintro (hmissing | hids)
    exacts [Bool.false_ne_true hmissing, hj hids.1]

/-- Linking an incoming repair moves no missing source before those that were passed over. -/
theorem sequenced_link (hL : d.ListedStored)
    (hI : d.SequencedWhile d.firstMissingSourceInOrder j []) (hacc : d.accepts r = true)
    (hr : ∀ i ∈ r.sourceIds, i < 2 ^ 32) (hrj : firstId r ≤ j) (hj : j ∉ r.sourceIds)
    (ha : Accepts b g r (firstId r) d d1 d2 r2) :
    d2.SequencedWhile d.firstMissingSourceInOrder j [] := by
  have hA := ha.accepted (contains_of_accepts hacc)
  obtain ⟨hI1, hle⟩ := sequenced_dropOutdated hL hI hrj ha.drop
  refine sequenced_accepted hL hI1 hA hj fun i hi => ?_
  have hir := ((hA.ids i).mp hi).1
  rw [hA.sourceIds_eq] at hi
  have hunknown := (FlatSet.mem_filter.mp hi).2
  rw [Bool.not_eq_true'] at hunknown
  exact ⟨fun hfi => hle i hfi (firstId_le hir) hunknown, hr i hir⟩

theorem sequenced_receive (hL : d.ListedStored) (hI : d.InSequence)
    (hp : ∀ i ∈ p.ids, i < 2 ^ 32) (hc : d.KeepsSequence g p) (h : d.receive b g p = .ok d') :
    d'.InSequence := by
  cases p with
  | source src =>
    rcases receiveSource_cases h with ⟨rfl, -⟩ | ⟨ho, hs, d1, h1, h2⟩
    · exact hI
    · obtain ⟨j, hj, hne⟩ := lacks_source ho hs hc.bounded
      have hadded := sequenced_rule.addSource hL
        ⟨hI.start hj, hp src.id (List.mem_singleton_self _), hne⟩ h1
      exact (sequenced_attemptFullDecoding (settled_addSource hL h1).listed hadded
        (ahead_source hL ho hs hc.forward h1) h2).finish
  | repair r =>
    obtain ⟨-, ⟨rfl, -⟩ | ⟨hacc, hcases⟩⟩ := receiveRepair_cases h
    · exact hI
    obtain ⟨j, hj, hrj, hjr⟩ := lacks_repair hacc hc.bounded
    rcases hcases with ⟨d1, h1, -, rfl⟩ | ⟨d1, d2, r2, ha, h2⟩
    · obtain ⟨hI1, -⟩ := sequenced_dropOutdated hL (hI.start hj) hrj h1
      exact ⟨sequenced_congr (d := d1) rfl rfl rfl rfl rfl hI1.sequenced,
        linkedWhile_congr (d := d1) rfl rfl rfl hI1.linked, hI1.bounded, hI1.finish.first⟩
    · have hA := ha.accepted (contains_of_accepts hacc)
      have hI2 := sequenced_link hL (hI.start hj) hacc hp hrj hjr ha
      have hL2 := hA.listedStored hL
      rcases h2 with ⟨hone, src, hc', hadd⟩ | ⟨hmany, hfull⟩
      · have hids := createSourceFromRepair_only hc' hone
        have hmem := ((hA.ids src.id).mp (by simp [FlatSet.mem_iff, hids])).1
        refine (sequenced_rule.addSource (listedStored_removeDecoded hL2 hA.stored hids)
          ⟨sequenced_removeDecoded hI2
            (hA.linkedWhile_removeDecoded hI2.linked hacc hids hc.unshared), hp _ hmem, ?_⟩
          hadd).finish
        rintro rfl
        exact hjr hmem
      · exact (sequenced_attemptFullDecoding hL2 hI2
          (ahead_repair hL hacc ha hmany hc.forward) hfull).finish

theorem inSequence_initial : (initial true : Decoder w).InSequence :=
  ⟨⟨rfl, fun _ _ h => (by cases h), fun _ h => absurd h FlatSet.not_mem_empty,
      fun _ h => absurd h FlatSet.not_mem_empty, fun _ h => absurd h FlatSet.not_mem_empty,
      List.Pairwise.nil, fun _ h => absurd h List.not_mem_nil⟩,
    (linked_iff_linkedWhile.mp (linked_initial true)).2, fun _ h => absurd h Bool.false_ne_true,
    Nat.two_pow_pos 32⟩

/-- No missing source was passed over. -/
def Frontier (d : Decoder w) : Prop :=
  ∀ i, d.missingSources.contains i = true → d.firstMissingSourceInOrder ≤ i

/-- A repair lists an unknown source that was passed over. -/
def namesPassed (d : Decoder w) : Incoming → Bool
  | .source _ => false
  | .repair r => d.accepts r &&
      (d.unknown r).toList.any fun i => decide (i < d.firstMissingSourceInOrder)

theorem contains_withoutSource (i : ℕ)
    (h : (d.withoutSource g src).settled.missingSources.contains i = true) :
    d.missingSources.contains i = true := by
  rw [settled, OrdMap.contains, OrdMap.find?_filter_key] at h
  split at h
  · exact contains_of_erase h
  · cases h

/-- What an accepted repair lists and leaves missing was not passed over. -/
theorem le_of_namesPassed (hacc : d.accepts r = true) (h : d.namesPassed (.repair r) = false)
    (hi : i ∈ (d.keeping (firstId r)).unknown r) : d.firstMissingSourceInOrder ≤ i := by
  rw [namesPassed, hacc, Bool.true_and, List.any_eq_false] at h
  obtain ⟨hir, hunknown⟩ := FlatSet.mem_filter.mp hi
  have hmem : i ∈ d.unknown r := by
    refine FlatSet.mem_filter.mpr ⟨hir, ?_⟩
    rw [keeping, OrdMap.contains_eraseBelow, decide_eq_true (firstId_le hir)] at hunknown
    simpa using hunknown
  simpa using h i (FlatSet.mem_iff.mp hmem)

theorem le_of_linking (hF : d.Frontier) (hacc : d.accepts r = true)
    (hn : d.namesPassed (.repair r) = false)
    (hi : ((d.keeping (firstId r)).linking g r).missingSources.contains i = true) :
    d.firstMissingSourceInOrder ≤ i := by
  rcases (contains_linking i).mp hi with hmissing | hunknown
  · exact hF i ((contains_keeping i).mp hmissing).2
  · exact le_of_namesPassed hacc hn hunknown

theorem not_rewinds (hF : d.Frontier) (hn : d.namesPassed p = false) : ¬ d.Rewinds g p := by
  cases p with
  | source src =>
    rintro ⟨-, -, -, i, hi, hmissing⟩
    exact absurd (hF i (contains_withoutSource i hmissing)) hi.not_ge
  | repair r =>
    rintro ⟨hacc, -, -, -, i, hi, hmissing⟩
    exact absurd (le_of_linking hF hacc hn hmissing) hi.not_ge

/-- What needs no prediction: nothing that is missing or named was passed over. -/
def keepsSequence (d : Decoder w) (p : Incoming) : Bool :=
  !d.rebuildsShared p && !d.namesPassed p && !d.mayWrap p &&
    d.missingSources.keys.all fun i => decide (d.firstMissingSourceInOrder ≤ i)

theorem keepsSequence_spec (h : d.keepsSequence p = true) :
    d.KeepsSequence g p ∧ d.Frontier ∧ d.namesPassed p = false := by
  simp only [keepsSequence, Bool.and_eq_true, Bool.not_eq_true', List.all_eq_true,
    decide_eq_true_eq] at h
  obtain ⟨⟨⟨hunshared, hnamed⟩, hwrap⟩, hall⟩ := h
  have hF : d.Frontier := fun i hi => hall i (OrdMap.contains_iff_mem_keys.mp hi)
  exact ⟨⟨hunshared, not_rewinds hF hnamed, hwrap⟩, hF, hnamed⟩

end Netcode.Detail.Decoder
