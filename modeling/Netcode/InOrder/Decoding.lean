import Netcode.InOrder.Sequence
import Netcode.Outline

/-! In order, a full decoding passes over no source that it does not decode, nor does dropping what
is outdated, but for the sources that are. -/
namespace Netcode.Detail.Decoder

open Containers Runs

variable {w : FieldSize} {b : Build} {g : GfComplete w} {d d' : Decoder w} {src : DecoderSource}
  {l : List ℕ} {f i j k n ρ : ℕ}

/-- What holds while the missing sources of a list are still to be decoded. -/
structure SequencedDecoding (d : Decoder w) (j : ℕ) (l : List ℕ) : Prop where
  sequenced : d.Sequenced
  distinct : l.Nodup
  ahead : ∀ i ∈ l, d.sources.contains i = false ∧ d.firstMissingSourceInOrder ≤ i ∧ i < 2 ^ 32
  lacks : d.sources.contains j = false ∧ d.firstMissingSourceInOrder ≤ j ∧ j < 2 ^ 32
  left : j ∉ l

theorem sequenced_insertSource (hI : d.Sequenced) (src : DecoderSource) :
    ({ d with sources := d.sources.insert src.id src } : Decoder w).Sequenced := by
  refine ⟨hI.inOrder, keyed_insert hI.keyed rfl, fun k hk => ?_, hI.bounded, hI.waits, hI.sorted,
    hI.before⟩
  show (d.sources.insert src.id src).contains k = true
  rw [OrdMap.contains_insert, hI.known k hk, Bool.or_true]

theorem sequenced_insertDecoded (hI : d.SequencedDecoding j (src.id :: l))
    (h : d.insertDecoded b src = .ok d') : d'.SequencedDecoding j l := by
  obtain ⟨hunknown, hfirst, hsrc⟩ := hI.ahead src.id List.mem_cons_self
  obtain ⟨hnot, hnd⟩ := List.nodup_cons.mp hI.distinct
  obtain ⟨hne, hleft⟩ := not_or.mp (mt List.mem_cons.mpr hI.left)
  obtain ⟨inserted, d1, hins, hd1, hcases⟩ := insertDecoded_cases h
  rw [OrdMap.contains_eq_false_iff.mp hunknown, Option.getD_none] at hins
  subst hins
  have hseq : d1.Sequenced := hd1 ▸ sequenced_insertSource hI.sequenced inserted
  have hother : ∀ i, i ≠ inserted.id → d.sources.contains i = false →
      d1.sources.contains i = false := by
    intro i hi hunknown
    subst hd1
    show (d.sources.insert inserted.id inserted).contains i = false
    rw [OrdMap.contains_insert, hunknown, decide_eq_false hi, Bool.or_false]
  have hahead : ∀ i ∈ l, d1.sources.contains i = false ∧
      d.firstMissingSourceInOrder ≤ i ∧ i ≠ inserted.id ∧ i < 2 ^ 32 := by
    intro i hi
    obtain ⟨hs, hle, hb⟩ := hI.ahead i (List.mem_cons_of_mem _ hi)
    have hi : i ≠ inserted.id := by
      rintro rfl
      exact hnot hi
    exact ⟨hother i hi hs, hle, hi, hb⟩
  have hlacks := hother j hne hI.lacks.1
  have hfirst1 : d1.firstMissingSourceInOrder = d.firstMissingSourceInOrder := by rw [hd1]
  rcases hcases with ⟨hio, -⟩ | ⟨-, hid, hflush⟩ | ⟨-, hid, rfl⟩
  · rw [hI.sequenced.inOrder] at hio
    cases hio
  · have hlt : d1.firstMissingSourceInOrder < j := by
      rw [hfirst1]
      exact lt_of_le_of_ne hI.lacks.2.1 (hid ▸ Ne.symm hne)
    obtain ⟨n, hg⟩ := callback_gives hseq.keyed hseq.bounded (hid.trans hfirst1.symm) hlt
      hI.lacks.2.2 (not_mem_ordered hseq hlacks) hflush
    refine ⟨sequenced_gives hseq hg, hnd, fun i hi => ?_, ?_, hleft⟩
    · obtain ⟨hs, hle, hne, hb⟩ := hahead i hi
      rw [sources_delivers hg.frame]
      exact ⟨hs, hg.first_le hseq.known hs (by omega), hb⟩
    · rw [sources_delivers hg.frame]
      exact ⟨hlacks, hg.first_le hseq.known hlacks hlt, hI.lacks.2.2⟩
  · subst hd1
    refine ⟨⟨hseq.inOrder, hseq.keyed, fun k hk => ?_, fun k hk => ?_, fun k hk => ?_, hseq.sorted,
      hseq.before⟩, hnd, fun i hi => ?_, ⟨hlacks, hI.lacks.2⟩, hleft⟩
    · rcases FlatSet.mem_insert.mp hk with rfl | hk
      · simp [OrdMap.contains_insert]
      · exact hseq.known k hk
    · rcases FlatSet.mem_insert.mp hk with rfl | hk
      exacts [hsrc, hseq.bounded k hk]
    · rcases FlatSet.mem_insert.mp hk with rfl | hk
      exacts [lt_of_le_of_ne hfirst (Ne.symm hid), hseq.waits k hk]
    · obtain ⟨hs, hle, -, hb⟩ := hahead i hi
      exact ⟨hs, hle, hb⟩

/-- Before a full decoding that passes over no missing source. -/
theorem SequencedWhile.decoding (hI : d.SequencedWhile f j [])
    (hahead : ∀ i, d.missingSources.contains i = true → f ≤ i) :
    d.SequencedDecoding j d.missingSources.keys := by
  refine ⟨hI.sequenced, d.missingSources.keys_nodup, fun i hi => ?_,
    ⟨hI.lacks.unknown, hI.lacks.ahead, hI.lacks.bounded⟩, fun hj => ?_⟩
  · rw [← OrdMap.contains_iff_mem_keys] at hi
    exact ⟨hI.linked.disjoint i hi, hI.frontier i hi (hahead i hi), hI.bounded i hi⟩
  · rw [← OrdMap.contains_iff_mem_keys, hI.lacks.notMissing] at hj
    cases hj

theorem sequenced_decodeAll (hI : d.SequencedWhile f j [])
    (hahead : ∀ i, d.missingSources.contains i = true → f ≤ i)
    (h : d.decodeAll b g = .ok d') : d'.SequencedWhile f j [] := by
  obtain ⟨d1, h1, rfl⟩ := decodeAll_cases h
  have hkeys : d.missingSources.keys.zipIdx.map Prod.fst = d.missingSources.keys := by simp
  have hloop := foldlM_induction (f := decodeColumn b g (d.repairs.entries.map Prod.snd))
    (fun l u => SequencedDecoding u j (l.map Prod.fst)) ?_ ?_ h1
  · refine ⟨sequenced_congr (d := d1) rfl rfl rfl rfl rfl hloop.sequenced, ⟨?_, ?_, ?_⟩, ?_, ?_, ?_,
      hloop.lacks.2.1, hloop.lacks.2.2, hloop.lacks.1, rfl, ?_⟩
    · rintro i ρ ⟨r, hr, -⟩
      cases hr
    · intro i hi
      cases hi
    · intro x hx
      cases hx
    · intro i hi
      cases hi
    · intro i hi
      cases hi
    · intro x hx
      cases hx
    · intro x hx
      cases hx
  · intro miss l u v hu hv
    obtain ⟨rows, symbol, -, -, hins⟩ := decodeColumn_cases hv
    exact sequenced_insertDecoded hu hins
  · rw [hkeys]
    exact hI.decoding hahead

theorem sequenced_dropFaulty (hL : d.ListedStored) (hI : d.SequencedWhile f j [])
    (h : d.dropFaulty k = .ok d') : d'.SequencedWhile f j [] := by
  have hlinked := linked_dropFaulty (linked_iff_linkedWhile.mpr ⟨hL, hI.linked⟩) h
  obtain ⟨ρ, r, hr, heq, hm, -⟩ := dropFaulty_spec h
  have hmissing : ∀ i, d'.missingSources.contains i = true → d.missingSources.contains i = true :=
    fun i hi => ((hm i).mp hi).elim (fun h => h) fun hir =>
      references_contains (hI.linked.stored i ρ ⟨r, hr, hir⟩)
  refine ⟨?_, (linked_iff_linkedWhile.mp hlinked).2, fun i hi hfi => ?_,
    fun i hi => hI.bounded i (hmissing i hi), hI.pendingBounded, ?_, hI.lacks.bounded, ?_, ?_,
    hI.lacks.notPending⟩
  · rw [heq]
    exact sequenced_congr (d := d) rfl rfl rfl rfl rfl hI.sequenced
  · have hle := hI.frontier i (hmissing i hi) hfi
    rw [heq]
    exact hle
  · rw [heq]
    exact hI.lacks.ahead
  · rw [heq]
    exact hI.lacks.unknown
  · rw [← Bool.not_eq_true]
    intro hi
    have hj := hmissing j hi
    rw [hI.lacks.notMissing] at hj
    cases hj

/-- A full decoding decodes all missing sources: the matrix can be inverted if it is square. -/
structure DecodesAll (g : GfComplete w) (d : Decoder w) : Prop where
  enough : d.enoughRepairs = true
  unit : 1 < d.missingSources.size → d.repairs.size = d.missingSources.size →
    IsUnit (coefficientMatrix g d)

theorem decodesAll_outline (h : d'.outline = d.outline) (hd : d.DecodesAll g) : d'.DecodesAll g := by
  have hm := (outline_eq_iff.mp h).1
  refine ⟨(enoughRepairs_outline h).trans hd.enough, fun hseveral hsquare => ?_⟩
  rw [hm] at hseveral hsquare
  exact isUnit_outline h (hd.unit hseveral ((size_outline h).symm.trans hsquare))

theorem attemptFullDecoding_decodes (h : d.attemptFullDecoding b g = .ok d') : d' = d ∨
    ∃ m : Matrices w,
      (∃ k, dropFaulty k { d with coefficients := m.mat, inv := m.inv } = .ok d') ∨
      d.DecodesAll g ∧ decodeAll b g { d with coefficients := m.mat, inv := m.inv } = .ok d' := by
  rcases attemptFullDecoding_cases h with ⟨rfl, -⟩ | ⟨henough, _, _, m, -, -, hcases⟩
  · exact Or.inl rfl
  by_cases hsquare : 1 < d.missingSources.size ∧ d.repairs.size = d.missingSources.size
  · obtain ⟨blamed, m, heq, -, -, hunit, -⟩ :=
      attemptFullDecoding_eq (b := b) (g := g) hsquare.1 hsquare.2
    rw [heq] at h
    cases blamed with
    | some k => exact Or.inr ⟨m, Or.inl ⟨k, h⟩⟩
    | none => exact Or.inr ⟨m, Or.inr ⟨⟨henough, fun _ _ => hunit.mp rfl⟩, h⟩⟩
  · rcases hcases with ⟨k, -, hf⟩ | ⟨-, ha⟩
    · exact Or.inr ⟨m, Or.inl ⟨k, hf⟩⟩
    · exact Or.inr ⟨m, Or.inr ⟨⟨henough, fun h1 h2 => absurd ⟨h1, h2⟩ hsquare⟩, ha⟩⟩

theorem sequenced_attemptFullDecoding (hL : d.ListedStored) (hI : d.SequencedWhile f j [])
    (hahead : d.DecodesAll g → ∀ i, d.missingSources.contains i = true → f ≤ i)
    (h : d.attemptFullDecoding b g = .ok d') : d'.SequencedWhile f j [] := by
  rcases attemptFullDecoding_decodes h with rfl | ⟨m, hcases⟩
  · exact hI
  · have hI1 : ({ d with coefficients := m.mat, inv := m.inv } : Decoder w).SequencedWhile f j [] :=
      sequencedWhile_congr (d := d) rfl rfl rfl rfl rfl rfl rfl hI
    rcases hcases with ⟨k, hf⟩ | ⟨hdecodes, ha⟩
    · have hL1 : ({ d with coefficients := m.mat, inv := m.inv } : Decoder w).ListedStored :=
        listedStored_congr (d := d) rfl rfl hL
      exact sequenced_dropFaulty hL1 hI1 hf
    · exact sequenced_decodeAll hI1 (hahead hdecodes) ha

/-- The sources that wait before `k` are given, then those that follow in sequence; no source before
`k` is known any more. -/
structure Sweeps (k n : ℕ) (d d' : Decoder w) : Prop where
  inOrder : d'.inOrder = d.inOrder
  sources : d'.sources = d.sources.eraseBelow k
  first : d'.firstMissingSourceInOrder = max d.firstMissingSourceInOrder k + n
  delivered : d'.delivered = d.delivered ++ d.handed k n
  waiting : ∀ i, i ∈ d'.orderedSources ↔ i ∈ d.orderedSources ∧ k ≤ i ∧
    i ∉ List.range' (max d.firstMissingSourceInOrder k) n
  contiguous : Contiguous d (max d.firstMissingSourceInOrder k) n

theorem dropOutdated_sweeps (hs : d.Sequenced) (hj : d.Lacks [] j) (hkj : k ≤ j)
    (h : d.dropOutdated b k = .ok d') : ∃ n, Sweeps k n d d' := by
  obtain ⟨d1, d2, heq, h2, rfl, hdrops⟩ := dropOutdated_cases h
  have hsame : d1.orderedSources = d.orderedSources ∧ d1.sources = d.sources ∧
      d1.delivered = d.delivered ∧ d1.firstMissingSourceInOrder = d.firstMissingSourceInOrder ∧
      d1.inOrder = d.inOrder := by
    rw [heq]
    exact ⟨rfl, rfl, rfl, rfl, rfl⟩
  obtain ⟨ho, hsources, hdelivered, hf, hio⟩ := hsame
  have hkeyed : d1.Keyed := by
    rw [Keyed, hsources]
    exact hs.keyed
  obtain ⟨n, hcont, hhands, hlast⟩ :=
    dropOrdered_hands (fun i hi => hs.bounded i (ho ▸ hi)) (hio.trans hs.inOrder) h2
  rw [hf] at hcont hlast
  have hcont' : Contiguous d (max d.firstMissingSourceInOrder k) n :=
    ⟨fun i hi => ho ▸ hcont.waits i hi, fun hin => hcont.stops (ho.symm ▸ hin)⟩
  have hend := hcont'.le_of_not_waiting (max_le hj.ahead hkj) (not_mem_ordered hs hj.unknown)
  have hhanded : d1.handed k n = d.handed k n := by rw [handed, handed, ho, hf]
  refine ⟨n, (inOrder_delivers hhands.frame).trans hio, hdrops.sources, hlast fun i hi => ?_, ?_,
    fun i => ?_, hcont'⟩
  · have hi := (List.mem_range'_1.mp hi).2
    have hj32 := hj.bounded
    omega
  · have hgiven := hhands.delivered hkeyed
    rw [hhanded, hdelivered] at hgiven
    exact hgiven
  · have hwait := hhands.waiting i
    rw [hhanded, ho, handed, List.mem_append, not_or, List.mem_filter, decide_eq_true_eq,
      ← FlatSet.mem_iff] at hwait
    refine hwait.trans (and_congr_right fun hi => ?_)
    rw [not_and, imp_iff_right hi, not_lt]

theorem sequenced_sweeps (hI : d.Sequenced) (h : Sweeps k n d d') : d'.Sequenced := by
  have hwait : ∀ i ∈ d'.orderedSources, i ∈ d.orderedSources ∧ k ≤ i ∧
      max d.firstMissingSourceInOrder k + n < i := by
    intro i hi
    obtain ⟨hi, hki, hrange⟩ := (h.waiting i).mp hi
    have hlt := hI.waits i hi
    have hne : i ≠ max d.firstMissingSourceInOrder k + n := by
      rintro rfl
      exact h.contiguous.stops hi
    rw [List.mem_range'_1] at hrange
    exact ⟨hi, hki, by omega⟩
  have hswept : ∀ i ∈ d.orderedSources.toList.filter (fun i => decide (i < k)),
      d.firstMissingSourceInOrder < i ∧ i < k := by
    intro i hi
    rw [List.mem_filter, decide_eq_true_eq] at hi
    exact ⟨hI.waits i hi.1, hi.2⟩
  have hsorted : (d.delivered ++ d.orderedSources.toList.filter (fun i => decide (i < k))).Pairwise
      (· < ·) := by
    refine List.pairwise_append.mpr ⟨hI.sorted, d.orderedSources.sorted.filter _, ?_⟩
    exact fun i hi j hj => (hI.before i hi).trans (hswept j hj).1
  have hbefore : ∀ i ∈ d.delivered ++ d.orderedSources.toList.filter (fun i => decide (i < k)),
      i < max d.firstMissingSourceInOrder k := by
    intro i hi
    rcases List.mem_append.mp hi with hi | hi
    · exact (hI.before i hi).trans_le (le_max_left _ _)
    · exact (hswept i hi).2.trans_le (le_max_right _ _)
  refine ⟨h.inOrder.trans hI.inOrder, keyed_eraseBelow hI.keyed h.sources, fun i hi => ?_,
    fun i hi => hI.bounded i (hwait i hi).1, fun i hi => ?_, ?_, fun i hi => ?_⟩
  · obtain ⟨hi, hki, -⟩ := hwait i hi
    rw [h.sources, OrdMap.contains_eraseBelow, hI.known i hi, decide_eq_true hki, Bool.and_true]
  · rw [h.first]
    exact (hwait i hi).2.2
  · rw [h.delivered, handed, ← List.append_assoc]
    exact sorted_append_range hsorted hbefore n
  · rw [h.delivered, handed, ← List.append_assoc] at hi
    rw [h.first]
    rcases List.mem_append.mp hi with hi | hi
    · exact (hbefore i hi).trans_le (Nat.le_add_right _ _)
    · exact (List.mem_range'_1.mp hi).2

/-- Dropping outdated sources passes over no unknown source but outdated ones. -/
theorem sequenced_dropOutdated (hL : d.ListedStored) (hI : d.SequencedWhile f j []) (hkj : k ≤ j)
    (h : d.dropOutdated b k = .ok d') : d'.SequencedWhile f j [] ∧ ∀ i,
      d.firstMissingSourceInOrder ≤ i → k ≤ i → d.sources.contains i = false →
        d'.firstMissingSourceInOrder ≤ i := by
  obtain ⟨n, hsweeps⟩ := dropOutdated_sweeps hI.sequenced hI.lacks hkj h
  obtain ⟨-, -, -, -, -, hdrops⟩ := dropOutdated_cases h
  have hle : ∀ i, d.firstMissingSourceInOrder ≤ i → k ≤ i → d.sources.contains i = false →
      d'.firstMissingSourceInOrder ≤ i := by
    intro i hfi hki hi
    rw [hsweeps.first]
    exact hsweeps.contiguous.le_of_not_waiting (max_le hfi hki) (not_mem_ordered hI.sequenced hi)
  have hlinked := linked_drops (linked_iff_linkedWhile.mpr ⟨hL, hI.linked⟩) hdrops
  refine ⟨⟨sequenced_sweeps hI.sequenced hsweeps, (linked_iff_linkedWhile.mp hlinked).2,
    fun i hi hfi => ?_, fun i hi => hI.bounded i ((hdrops.missing i).mp hi).2, hI.pendingBounded,
    hle j hI.lacks.ahead hkj hI.lacks.unknown, hI.lacks.bounded, ?_, ?_, hI.lacks.notPending⟩, hle⟩
  · obtain ⟨hki, hi⟩ := (hdrops.missing i).mp hi
    exact hle i (hI.frontier i hi hfi) hki (hI.linked.disjoint i hi)
  · rw [hdrops.sources, OrdMap.contains_eraseBelow, hI.lacks.unknown, Bool.and_false]
  · rw [← Bool.not_eq_true, hdrops.missing, hI.lacks.notMissing]
    exact fun hj => absurd hj.2 Bool.false_ne_true

end Netcode.Detail.Decoder
