import Netcode.InOrder.Decoding

/-! In order, known sources are given to the callback or wait for an older one, also while some are
still to be stored. -/
namespace Netcode.Detail.Decoder

open Containers Runs

variable {w : FieldSize} {b : Build} {g : GfComplete w} {d d' d1 d2 : Decoder w}
  {src y x : DecoderSource} {r : DecoderRepair} {pending : List DecoderSource} {l : List ℕ}
  {f i j k m n ρ : ℕ}

/-- Every known source was given, or waits. -/
def Kept (d : Decoder w) : Prop := ∀ k, d.sources.contains k = true →
  k ∈ d.delivered ∨ k ∈ d.orderedSources

/-- An unknown source that cannot be decoded yet keeps later ones from being given. -/
structure Blocks (d : Decoder w) (ready : ℕ → Bool) (pending : List DecoderSource) (j : ℕ) :
    Prop where
  ahead : d.firstMissingSourceInOrder ≤ j
  unknown : d.sources.contains j = false
  notReady : ready j = false
  notPending : ∀ x ∈ pending, x.id ≠ j

/-- A source still to be stored was given, or waits for another one. -/
def Waits (d : Decoder w) (ready : ℕ → Bool) (pending : List DecoderSource) (i : ℕ) : Prop :=
  i ∈ d.delivered ∨ ∃ j < i, d.Blocks ready pending j

/-- No source is passed over, while some are still to be stored. -/
structure KeptWhile (d : Decoder w) (f m : ℕ) (pending : List DecoderSource) : Prop where
  sequenced : d.SequencedWhile f m pending
  kept : d.Kept
  ready : ∀ i, (d.readyAt i).isSome = true → f ≤ i
  waits : ∀ x ∈ pending, d.Waits (fun k => (d.readyAt k).isSome) pending x.id

theorem kept_congr (hs : d'.sources = d.sources) (ho : d'.orderedSources = d.orderedSources)
    (hc : d'.callbacks = d.callbacks) (h : d.Kept) : d'.Kept := by
  rw [Kept, hs, ho, delivered, hc]
  exact h

/-- The first missing source is unknown. -/
theorem first_unknown (hs : d.Sequenced) (hk : d.Kept) :
    d.sources.contains d.firstMissingSourceInOrder = false := by
  rw [← Bool.not_eq_true]
  intro h
  rcases hk _ h with h | h
  · exact absurd (hs.before _ h) (lt_irrefl _)
  · exact absurd (hs.waits _ h) (lt_irrefl _)

theorem kept_gives (hk : d.Kept) (h : Gives n d d') : d'.Kept := by
  intro k hks
  rw [sources_delivers h.frame] at hks
  rw [h.delivered, List.mem_append, h.waiting]
  rcases hk k hks with hk | hk
  · exact Or.inl (Or.inl hk)
  · by_cases hrange : k ∈ List.range' (d.firstMissingSourceInOrder + 1) n
    · rw [List.range'_succ]
      exact Or.inl (Or.inr (List.mem_cons_of_mem _ hrange))
    · exact Or.inr ⟨hk, hrange⟩

theorem Gives.mem_delivered (h : Gives n d d') : d.firstMissingSourceInOrder ∈ d'.delivered := by
  rw [h.delivered, List.range'_succ]
  exact List.mem_append_right _ List.mem_cons_self

/-- Giving the first missing source does not pass over a source that blocks. -/
theorem Gives.blocks {ready : ℕ → Bool} (h : Gives n d d') (hs : d.Sequenced)
    (hb : d.Blocks ready pending j) (hj : d.firstMissingSourceInOrder ≠ j) :
    d'.Blocks ready pending j :=
  ⟨h.first_le hs.known hb.unknown (lt_of_le_of_ne hb.ahead hj),
    sources_delivers h.frame ▸ hb.unknown, hb.notReady, hb.notPending⟩

theorem Gives.waits {ready : ℕ → Bool} (h : Gives n d d') (hs : d.Sequenced)
    (hx : x ∈ pending) (hid : x.id = d.firstMissingSourceInOrder)
    (hw : d.Waits ready pending i) : d'.Waits ready pending i := by
  rcases hw with hi | ⟨j, hji, hb⟩
  · refine Or.inl ?_
    rw [h.delivered]
    exact List.mem_append_left _ hi
  · exact Or.inr ⟨j, hji, h.blocks hs hb (hid ▸ hb.notPending x hx)⟩

/-- What holds when a source is about to be added. -/
structure Joins (d : Decoder w) (f m : ℕ) (pending : List DecoderSource) (src : DecoderSource) :
    Prop where
  sequenced : d.SequencedWhile f m pending
  bounded : src.id < 2 ^ 32
  apart : src.id ≠ m
  kept : d.Kept
  ready : ∀ i, d.readyWithout src.id i = true → f ≤ i
  waits : ∀ x ∈ pending, d.Waits (d.readyWithout src.id) (src :: pending) x.id
  first : src.id = d.firstMissingSourceInOrder ∨
    d.Waits (d.readyWithout src.id) (src :: pending) src.id

theorem readyWithout_delivers (h : d.Delivers d') (x : ℕ) :
    d'.readyWithout x = d.readyWithout x := by
  obtain ⟨c, f, o, rfl⟩ := h
  rfl

theorem waits_strip (h : d.stripFromRepairs b g src = .ok d')
    (hw : d.Waits (d.readyWithout src.id) pending i) :
    d'.Waits (fun k => (d'.readyAt k).isSome) pending i := by
  have heq := (stripFromRepairs_spec h).1
  refine hw.imp (fun hi => ?_) fun ⟨j, hji, hb⟩ => ⟨j, hji, ?_, ?_, ?_, hb.notPending⟩
  · rw [heq]
    exact hi
  · rw [heq]
    exact hb.ahead
  · rw [heq]
    exact hb.unknown
  · rw [readyAt_strip h]
    exact hb.notReady

theorem kept_offer (hI : d.Joins f m pending src) (ho : d.offer b src = .ok d1)
    (hs : d1.stripFromRepairs b g src = .ok d2) : d2.KeptWhile f m (src :: pending) := by
  have hseq := sequenced_offer hI.sequenced hI.bounded hI.apart ho hs
  have hdel := offer_delivers ho
  have heq := (stripFromRepairs_spec hs).1
  have hready := readyWithout_delivers hdel src.id
  have hmid : d1.Kept ∧ ∀ x ∈ src :: pending,
      d1.Waits (d1.readyWithout src.id) (src :: pending) x.id := by
    rw [hready]
    obtain ⟨hio, -⟩ | ⟨-, ⟨hid, hflush⟩ | ⟨hid, rfl⟩⟩ := offer_cases ho
    · rw [hI.sequenced.sequenced.inOrder] at hio
      cases hio
    · have hs0 := hI.sequenced.sequenced
      have hlacks := hI.sequenced.lacks
      obtain ⟨n, hg⟩ := callback_gives hs0.keyed hs0.bounded hid
        (lt_of_le_of_ne hlacks.ahead (hid ▸ hI.apart)) hlacks.bounded
        (not_mem_ordered hs0 hlacks.unknown) hflush
      refine ⟨kept_gives hI.kept hg, fun x hx => ?_⟩
      rcases List.mem_cons.mp hx with rfl | hx
      · exact Or.inl (hid ▸ hg.mem_delivered)
      · exact hg.waits hI.sequenced.sequenced List.mem_cons_self hid (hI.waits x hx)
    · refine ⟨hI.kept, fun x hx => ?_⟩
      rcases List.mem_cons.mp hx with rfl | hx
      exacts [hI.first.resolve_left hid, hI.waits x hx]
  refine ⟨hseq, ?_, fun i hi => ?_, fun x hx => waits_strip hs (hmid.2 x hx)⟩
  · rw [heq]
    exact kept_congr (d := d1) rfl rfl rfl hmid.1
  · rw [readyAt_strip hs, hready] at hi
    exact hI.ready i hi

/-- A source that waits while `k` can be decoded still does once `k` is being decoded. -/
theorem waits_removeDecoded (hL : d.ListedStored) (hk : d.readyAt k = some (ρ, r))
    (hw : d.Waits (fun j => (d.readyAt j).isSome) pending i) (hid : y.id = k) :
    (d.removeDecoded k ρ).Waits ((d.removeDecoded k ρ).readyWithout y.id) (y :: pending) i := by
  refine hw.imp (fun hi => hi) fun ⟨j, hji, hb⟩ => ⟨j, hji, hb.ahead, hb.unknown, ?_, ?_⟩
  all_goals
    have hjk : j ≠ k := by
      rintro rfl
      have := hb.notReady
      simp [hk] at this
  · rw [hid, readyWithout_not_missing (not_missing_removeDecoded k ρ d),
      readyAt_removeDecoded hL hk hjk]
    exact hb.notReady
  · intro x hx
    rcases List.mem_cons.mp hx with rfl | hx
    exacts [fun h => hjk (h.symm.trans hid), hb.notPending x hx]

/-- The first missing source blocks when it cannot be decoded. -/
theorem KeptWhile.blocks_first (hI : d.KeptWhile f m pending)
    (hr : d.readyAt d.firstMissingSourceInOrder = none) :
    d.Blocks (fun j => (d.readyAt j).isSome) pending d.firstMissingSourceInOrder := by
  refine ⟨le_rfl, first_unknown hI.sequenced.sequenced hI.kept, by simp [hr], fun x hx hid => ?_⟩
  rcases hI.waits x hx with hi | ⟨j, hji, hb⟩
  · exact absurd (hI.sequenced.sequenced.before _ hi) (by omega)
  · have := hb.ahead
    omega

theorem kept_decode (hI : d.KeptWhile f m pending) (hL : d.ListedStored)
    (hk : d.readyAt y.id = some (ρ, r)) (hmin : ∀ j < y.id, d.readyAt j = none)
    (hjoins : (d.removeDecoded y.id ρ).SequencedWhile f m pending ∧ y.id < 2 ^ 32 ∧ y.id ≠ m) :
    (d.removeDecoded y.id ρ).Joins f m pending y := by
  have hfk := hI.sequenced.frontier y.id (references_contains (references_of_readyAt hk))
    (hI.ready y.id (Option.isSome_of_eq_some hk))
  refine ⟨hjoins.1, hjoins.2.1, hjoins.2.2, kept_congr (d := d) rfl rfl rfl hI.kept,
    fun i hi => ?_, fun x hx => waits_removeDecoded hL hk (hI.waits x hx) rfl, ?_⟩
  · rw [readyWithout_not_missing (not_missing_removeDecoded y.id ρ d)] at hi
    by_cases hik : i = y.id
    · exact hik ▸ hI.ready y.id (Option.isSome_of_eq_some hk)
    · exact hI.ready i (readyAt_removeDecoded hL hk hik ▸ hi)
  · rcases Nat.eq_or_lt_of_le hfk with heq | hlt
    · exact Or.inl heq.symm
    · exact Or.inr (waits_removeDecoded hL hk
        (Or.inr ⟨_, hlt, hI.blocks_first (hmin _ hlt)⟩) rfl)

theorem kept_store (hI : d.KeptWhile f m (src :: pending)) (h : d.store b src = .ok d') :
    d'.KeptWhile f m pending := by
  have hseq := sequenced_store hI.sequenced h
  have hknown := contains_store h
  have hwait := waiting_store h hI.sequenced.sequenced.inOrder
  have heq := (store_spec h).2
  have hdelivered : d'.delivered = d.delivered := by
    rw [heq]
    rfl
  have hready : ∀ j, d'.readyAt j = d.readyAt j := fun j =>
    readyAt_congr (by rw [heq]) (by rw [heq]) j
  refine ⟨hseq, fun k hk => ?_, fun i hi => hI.ready i (hready i ▸ hi), fun x hx => ?_⟩
  · rw [hdelivered, hwait]
    rcases (hknown k).mp hk with rfl | hk
    · refine (hI.waits src List.mem_cons_self).imp_right fun ⟨j, hji, hb⟩ => Or.inr ⟨rfl, ?_⟩
      exact lt_of_le_of_lt hb.ahead hji
    · exact (hI.kept k hk).imp_right Or.inl
  · refine (hI.waits x (List.mem_cons_of_mem src hx)).imp (fun hi => hdelivered ▸ hi) ?_
    rintro ⟨j, hji, hb⟩
    refine ⟨j, hji, ?_, ?_, ?_, fun z hz => hb.notPending z (List.mem_cons_of_mem src hz)⟩
    · rw [heq]
      exact hb.ahead
    · rw [← Bool.not_eq_true, hknown, not_or, Bool.not_eq_true]
      exact ⟨(hb.notPending src List.mem_cons_self).symm, hb.unknown⟩
    · rw [hready]
      exact hb.notReady

theorem kept_rule : PeelRule b g (fun pending src (d : Decoder w) => d.Joins f m pending src)
    (fun pending d => d.KeptWhile f m pending) where
  add hP _ ho hs := kept_offer hP ho hs
  decode := by
    rintro pending src d k ρ r y hI hL hk hmin hids hd rfl
    exact kept_decode hI hL hk hmin (sequenced_rule.decode hI.sequenced hL hk hmin hids hd rfl)
  store hI h := kept_store hI h

theorem kept_insertDecoded (hI : d.SequencedDecoding m (src.id :: l)) (hk : d.Kept)
    (h : d.insertDecoded b src = .ok d') : d'.Kept := by
  obtain ⟨hunknown, -, hsrc⟩ := hI.ahead src.id List.mem_cons_self
  have hne : m ≠ src.id := fun heq => hI.left (heq ▸ List.mem_cons_self)
  obtain ⟨inserted, d1, hins, hd1, hcases⟩ := insertDecoded_cases h
  rw [OrdMap.contains_eq_false_iff.mp hunknown, Option.getD_none] at hins
  subst hins
  have hseq : d1.Sequenced := hd1 ▸ sequenced_insertSource hI.sequenced inserted
  have hfirst1 : d1.firstMissingSourceInOrder = d.firstMissingSourceInOrder := by rw [hd1]
  have hknown : ∀ k, d1.sources.contains k = true →
      k = inserted.id ∨ k ∈ d1.delivered ∨ k ∈ d1.orderedSources := by
    intro k hks
    rw [hd1] at hks ⊢
    rw [OrdMap.contains_insert, Bool.or_eq_true, decide_eq_true_eq] at hks
    exact hks.imp_right (hk k)
  rcases hcases with ⟨hio, -⟩ | ⟨-, hid, hflush⟩ | ⟨-, -, rfl⟩
  · rw [hI.sequenced.inOrder] at hio
    cases hio
  · have hlacks : d1.sources.contains m = false := by
      rw [hd1]
      show (d.sources.insert inserted.id inserted).contains m = false
      rw [OrdMap.contains_insert, hI.lacks.1, decide_eq_false hne, Bool.or_false]
    have hlt : d1.firstMissingSourceInOrder < m := by
      rw [hfirst1]
      exact lt_of_le_of_ne hI.lacks.2.1 (hid ▸ Ne.symm hne)
    obtain ⟨n, hg⟩ := callback_gives hseq.keyed hseq.bounded (hid.trans hfirst1.symm) hlt
      hI.lacks.2.2 (not_mem_ordered hseq hlacks) hflush
    intro k hks
    rw [sources_delivers hg.frame] at hks
    rcases hknown k hks with rfl | hks
    · exact Or.inl (hid.trans hfirst1.symm ▸ hg.mem_delivered)
    · rw [hg.delivered, List.mem_append, hg.waiting]
      by_cases hrange : k ∈ List.range' (d1.firstMissingSourceInOrder + 1) n
      · rw [List.range'_succ]
        exact Or.inl (Or.inr (List.mem_cons_of_mem _ hrange))
      · exact hks.imp Or.inl fun hks => ⟨hks, hrange⟩
  · subst hd1
    intro k hks
    show k ∈ d.delivered ∨ k ∈ d.orderedSources.insert inserted.id
    rw [FlatSet.mem_insert]
    rcases hknown k hks with rfl | hks
    exacts [Or.inr (Or.inl rfl), hks.imp_right Or.inr]

theorem kept_decodeAll (hI : d.SequencedDecoding m d.missingSources.keys) (hk : d.Kept)
    (h : d.decodeAll b g = .ok d') : d'.Kept := by
  obtain ⟨d1, h1, rfl⟩ := decodeAll_cases h
  have hkeys : d.missingSources.keys.zipIdx.map Prod.fst = d.missingSources.keys := by simp
  have hloop := foldlM_induction (f := decodeColumn b g (d.repairs.entries.map Prod.snd))
    (fun l u => SequencedDecoding u m (l.map Prod.fst) ∧ u.Kept) ?_ (hkeys.symm ▸ ⟨hI, hk⟩) h1
  · exact kept_congr (d := d1) rfl rfl rfl hloop.2
  · intro miss l u v hu hv
    obtain ⟨rows, symbol, -, -, hins⟩ := decodeColumn_cases hv
    exact ⟨sequenced_insertDecoded hu.1 hins, kept_insertDecoded hu.1 hu.2 hins⟩

theorem kept_attemptFullDecoding (hI : d.SequencedWhile f m []) (hk : d.Kept)
    (hahead : d.DecodesAll g → ∀ i, d.missingSources.contains i = true → f ≤ i)
    (h : d.attemptFullDecoding b g = .ok d') : d'.Kept := by
  rcases attemptFullDecoding_decodes h with rfl | ⟨inverted, ⟨k, hf⟩ | ⟨hdecodes, ha⟩⟩
  · exact hk
  · obtain ⟨ρ, r, -, heq, -, -⟩ := dropFaulty_spec hf
    rw [heq]
    exact kept_congr (d := d) rfl rfl rfl hk
  · have hI1 : ({ d with coefficients := inverted.mat, inv := inverted.inv } :
        Decoder w).SequencedWhile f m [] :=
      sequencedWhile_congr (d := d) rfl rfl rfl rfl rfl rfl rfl hI
    exact kept_decodeAll (hI1.decoding (hahead hdecodes)) (kept_congr (d := d) rfl rfl rfl hk) ha

theorem kept_sweeps (hk : d.Kept) (h : Sweeps k n d d') : d'.Kept := by
  intro i hi
  rw [h.sources, OrdMap.contains_eraseBelow, Bool.and_eq_true, decide_eq_true_eq] at hi
  rw [h.delivered, h.waiting, handed, List.mem_append, List.mem_append]
  rcases hk i hi.2 with hi' | hi'
  · exact Or.inl (Or.inl hi')
  · by_cases hrange : i ∈ List.range' (max d.firstMissingSourceInOrder k) n
    exacts [Or.inl (Or.inr (Or.inr hrange)), Or.inr ⟨hi', hi.1, hrange⟩]

/-- All sources from the first missing one up to an unknown one are given, when all are known. -/
theorem first_eq_of_sweeps (hs : d.Sequenced) (hk : d.Kept) (h : Sweeps k n d d')
    (hle : max d.firstMissingSourceInOrder k ≤ i) (hi : d.sources.contains i = false)
    (hall : ∀ j, max d.firstMissingSourceInOrder k ≤ j → j < i → d.sources.contains j = true) :
    d'.firstMissingSourceInOrder = i := by
  rw [h.first]
  refine le_antisymm (h.contiguous.le_of_not_waiting hle (not_mem_ordered hs hi)) ?_
  by_contra hlt
  have hknown := hall _ (Nat.le_add_right _ n) (not_le.mp hlt)
  rcases hk _ hknown with hd | ho
  · have := hs.before _ hd
    have := le_max_left d.firstMissingSourceInOrder k
    omega
  · exact h.contiguous.stops ho

end Netcode.Detail.Decoder
