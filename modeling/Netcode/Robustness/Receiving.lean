import Netcode.Robustness.Decoding

/-! A source or a repair received makes the decoder return, when it fits what is stored. -/
namespace Netcode.Detail.Decoder

open Containers Runs

variable {w : FieldSize} {b : Build} {g : GfComplete w} {d d' d1 d2 : Decoder w}
  {src : DecoderSource} {r r2 : DecoderRepair} {p : Incoming} {k ρ first : ℕ}

theorem unlinkLoop_returns {l : List ℕ} (h : ∀ i ∈ l, d.missingSources.contains i = true) :
    ∃ d', l.foldlM (unlink ρ) d = .ok d' := by
  have hrun := foldlM_ok (f := unlink (w := w) ρ) (l := l) (s := d)
    (fun u => ∀ i ∈ l, u.missingSources.contains i = true) (fun i hi u hu => ?_) h
  · obtain ⟨u, hu, -⟩ := hrun
    exact ⟨u, hu⟩
  · obtain ⟨cits, hc⟩ := OrdMap.contains_iff.mp (hu i hi)
    refine ⟨{ u with missingSources := u.missingSources.insert i (cits.erase ρ) },
      by rw [unlink, hc], fun j hj => ?_⟩
    rw [contains_of_references hc]
    exact hu j hj

theorem dropRepair_returns (hne : r.sourceIds.toList ≠ [])
    (hlinked : Old first r → ∀ i ∈ r.sourceIds, d.missingSources.contains i = true) :
    ∃ d', dropRepair b first d (ρ, r) = .ok d' := by
  cases hl : r.sourceIds.toList with
  | nil => exact absurd hl hne
  | cons i l =>
    have hempty : b.assert .emptyStoredRepair (!r.sourceIds.isEmpty) = .ok () :=
      Build.assert_eq_ok (by rw [FlatSet.isEmpty, hl]; rfl)
    simp only [dropRepair, hempty, ok_bind, hl]
    split
    · next hlt =>
      have hold := hlinked ((old_iff_first_lt hl).mpr hlt)
      obtain ⟨u, hu⟩ := unlinkLoop_returns (d := d) (ρ := ρ) (l := i :: l) fun j hj =>
        hold j (by rw [FlatSet.mem_iff, hl]; exact hj)
      exact ⟨_, by rw [hu, ok_bind]⟩
    · exact ⟨d, rfl⟩

theorem dropOrdered_returns (hq : d.Queued) (k : ℕ) : ∃ d', d.dropOrdered b k = .ok d' := by
  rw [dropOrdered]
  split
  · have hrun := foldlM_ok_induction (f := sweep)
      (l := d.orderedSources.toList.filter fun cit => decide (cit < k)) (s := d)
      (fun l u => u.Queued ∧ l.Nodup ∧ ∀ a ∈ l, a ∈ u.orderedSources) ?_
      ⟨hq, d.orderedSources.nodup.filter _, fun a ha => (List.mem_filter.mp ha).1⟩
    · obtain ⟨u, hu, hqu, -⟩ := hrun
      obtain ⟨v, hv⟩ := flushOrderedSources_returns (b := b)
        (d := { u with firstMissingSourceInOrder := max u.firstMissingSourceInOrder k })
        fun j hj => hqu.pointed j hj
      exact ⟨v, by rw [hu, ok_bind, hv]⟩
    · rintro a l u ⟨hqu, hnd, hmem⟩
      obtain ⟨hal, hnd⟩ := List.nodup_cons.mp hnd
      obtain ⟨v, hv⟩ := sweep_returns hqu.pointed (hmem a List.mem_cons_self)
      refine ⟨v, hv, queued_sweep hqu hv, hnd, fun j hj => ?_⟩
      obtain ⟨src, -, rfl⟩ := sweep_ok_iff.mp hv
      refine FlatSet.mem_erase.mpr ⟨hmem j (List.mem_cons_of_mem a hj), ?_⟩
      rintro rfl
      exact hal hj
  · exact ⟨d, rfl⟩

theorem dropOutdated_returns (hq : d.Queued) (hfit : d.DropFits first) :
    ∃ d', d.dropOutdated b first = .ok d' := by
  have hrun := foldlM_ok (f := dropRepair (w := w) b first) (l := d.repairs.entries)
    (s := { d with lastId := some first })
    (fun u => u.Queued ∧ ∀ i, u.missingSources.contains i = d.missingSources.contains i) ?_
    ⟨queued_congr (d := d) rfl rfl rfl rfl hq, fun _ => rfl⟩
  · obtain ⟨u, hu, hqu, -⟩ := hrun
    obtain ⟨v, hv⟩ := dropOrdered_returns (b := b) hqu first
    exact ⟨_, by rw [dropOutdated, hu, ok_bind, hv, ok_bind]⟩
  · rintro ⟨ρ, r⟩ hmem u ⟨hqu, hc⟩
    obtain ⟨hne, hlinked⟩ := hfit ρ r (OrdMap.mem_entries_iff.mp hmem)
    obtain ⟨v, hv⟩ := dropRepair_returns (b := b) (d := u) (ρ := ρ) hne fun ho i hi => by
      rw [hc]
      exact hlinked ho i hi
    obtain ⟨-, heq, hcv, -⟩ := dropRepair_spec hv
    exact ⟨v, hv, queued_congr (by rw [heq]) (by rw [heq]) (by rw [heq]) (by rw [heq]) hqu, fun i =>
      (hcv i).trans (hc i)⟩

/-- Processing the identifiers of a repair that is not useless returns when the known sources can be
removed from it. -/
theorem linkLoop_returns (hb : d.Buffered []) (hr : d.repairs.find? r.id = some r)
    (huseful : d.useless r = false)
    (hfit : ∀ i ∈ r.sourceIds, ∀ src, d.sources.find? i = some src → FitsIn w src.symbolSize r) :
    ∃ d', r.sourceIds.toList.reverse.foldlM (link b g r.id) d = .ok d' := by
  have hrun := foldlM_ok_induction (f := link b g r.id) (l := r.sourceIds.toList.reverse) (s := d)
    (fun l u => (l.Nodup ∧ ∀ i ∈ l, i ∈ r.sourceIds) ∧ Linking r.id r d l u ∧
      ∃ q, u.repairs.find? r.id = some q ∧ q.symbolSize = r.symbolSize ∧
        q.symbolSize ≤ q.symbol.length) ?_
    ⟨⟨List.nodup_reverse.mpr r.sourceIds.nodup, fun i hi => List.mem_reverse.mp hi⟩,
      linking_start hr, r, hr, rfl, (hb.repairs _ r hr).2.2⟩
  · obtain ⟨u, hu, -⟩ := hrun
    exact ⟨u, hu⟩
  · rintro a l u ⟨⟨hnd, hsub⟩, hu, q, hq, hsize, hstored⟩
    rw [List.nodup_cons] at hnd
    have ha := hsub a List.mem_cons_self
    have hsub' : ∀ i ∈ l, i ∈ r.sourceIds := fun i hi => hsub i (List.mem_cons_of_mem a hi)
    have hsources : u.sources = d.sources := by rw [hu.frame]
    cases hs : u.sources.find? a with
    | none =>
      have hv := (link_unknown (b := b) (g := g) (ρ := r.id) hs).mpr rfl
      exact ⟨_, hv, ⟨hnd.2, hsub'⟩, linking_link ha hnd.1 hu hv, q, hq, hsize, hstored⟩
    | some src =>
      rw [hsources] at hs
      have hone := hu.several ha (OrdMap.contains_of_find? hs) huseful hq
      have hfits := hfit a ha src hs
      obtain ⟨q', hq'⟩ := removeSourceDataFromRepair_returns (b := b) (g := g) hone
        (hfits.1.trans_eq hsize.symm) hfits.2 (hb.sources a src hs).2.2 hstored
      have hv := (link_known (b := b) (g := g) (hsources ▸ hs)).mpr ⟨q, q', hq, hq', rfl⟩
      refine ⟨_, hv, ⟨hnd.2, hsub'⟩, linking_link ha hnd.1 hu hv, _, OrdMap.find?_insert_self, ?_, ?_⟩
      · rw [removeSourceDataFromRepair_eq hq']
        exact hsize
      · have hstored' := removeSourceDataFromRepair_stored hstored hq'
        exact hstored'

theorem receiveSource_returns (hI : d.Sound) (hsrc : src.Buffered)
    (hfit : d.Withstands g (.source src)) : ∃ d', d.receiveSource b g src = .ok d' := by
  rw [receiveSource]
  split
  · exact ⟨d, rfl⟩
  · next hrecent =>
    split
    · exact ⟨d, rfl⟩
    · next hnew =>
      rw [Bool.not_eq_true] at hrecent hnew
      obtain ⟨hstrip, hcascade, hattempt⟩ := hfit hrecent hnew
      obtain ⟨d1, h1, hout, hunknown⟩ := addSource_returns (b := b) hI.listed hI.buffered hI.queued
        hsrc hnew hstrip hcascade
      obtain ⟨hb1, hq1⟩ := (queued_rule closed_buffered fun _ hs => hs.1).addSource hI.listed
        ⟨⟨hI.buffered, hsrc⟩, hI.queued⟩ h1
      obtain ⟨d2, h2⟩ := attemptFullDecoding_returns (b := b) hb1 hq1 fun henough => by
        rw [enoughRepairs_outline hout] at henough
        refine attemptFits_outline hout (hattempt henough) fun i hi hno => ?_
        rw [← (outline_eq_iff.mp hout).1] at hi
        exact hunknown i hi hno
      exact ⟨d2, by rw [h1, ok_bind, h2]⟩

/-- Using an incoming repair returns when what is left of it can be used. -/
theorem useRepair_returns {e : Decoder w} (hL : d2.ListedStored) (hb : d2.Buffered [])
    (hq : d2.Queued) (hr2 : d2.repairs.find? r.id = some r2)
    (hids : r2.sourceIds = e.unknown r) (huseful : e.useless r = false)
    (hout : d2.outline = (e.linking g r).outline) (hout2 : r2.outline = (e.announced g r).outline)
    (hs : d2.sources = e.sources) (hl : d2.lastId = e.lastId) (hfit : e.LinkFits g r) :
    ∃ d', d2.useRepair b g r.id = .ok d' := by
  have hsome : r2.sourceIds.isEmpty = false := by
    obtain ⟨i, hi, hunknown⟩ := exists_unknown huseful
    refine FlatSet.isEmpty_eq_false_iff.mpr ⟨i, ?_⟩
    rw [hids, unknown, FlatSet.mem_filter, hunknown]
    exact ⟨hi, rfl⟩
  have hassert : b.assert .allSourcesKnown (!r2.sourceIds.isEmpty) = .ok () :=
    Build.assert_eq_ok (by rw [hsome]; rfl)
  simp only [useRepair, hr2, hassert, ok_bind]
  split
  · next hone =>
    obtain ⟨k, hk⟩ := FlatSet.size_eq_one_iff.mp hone
    obtain ⟨hsize, hcascade⟩ := hfit.rebuilt k (hids ▸ hk)
    have hrbuf := (hb.repairs r.id r2 hr2).2
    have hsize2 : FitsIn w (decodedSize g r2 k) r2 := by
      rw [FitsIn, decodedSize_outline hout2, DecoderRepair.symbolSize_outline hout2]
      exact hsize
    obtain ⟨src, hsrc, rfl⟩ := createSourceFromRepair_returns (b := b) hrbuf hk hsize2
    have hno := not_missing_removeDecoded src.id r.id d2
    have hnew : d2.sources.contains src.id = false := by
      have hmem : src.id ∈ e.unknown r := by
        rw [← hids, FlatSet.mem_iff, hk]
        exact List.mem_singleton_self _
      rw [hs]
      simpa using (FlatSet.mem_filter.mp hmem).2
    have hcascade2 : ((d2.removeDecoded src.id r.id).withoutSource g src).CascadeFits g :=
      cascadeFits_outline ((outline_withoutSource_not_missing hno).trans (outline_removeDecoded hout))
        hs hl hcascade
    obtain ⟨d', hd', -⟩ := addSource_returns (b := b) (listedStored_removeDecoded hL hr2 hk)
      (contents_removeDecoded hb) (queued_congr (d := d2) rfl rfl rfl rfl hq)
      (closed_buffered.create hrbuf hk hsrc) hnew (fun ρ q href _ => by
        rw [references_contains href] at hno
        cases hno) hcascade2
    exact ⟨d', by rw [hsrc, ok_bind, hd']⟩
  · next hmany =>
    refine attemptFullDecoding_returns hb hq fun henough => ?_
    rw [enoughRepairs_outline hout] at henough
    refine attemptFits_outline hout (hfit.linked (hids ▸ hmany) henough) fun i _ hno => ?_
    rw [hs]
    exact hno

/-- Adding a repair that is not useless returns, once what is outdated was dropped. -/
theorem addRepair_returns (hI : d.Sound) (hr : r.Buffered)
    (hnew : d.repairs.contains r.id = false) (h1 : d.dropOutdated b first = .ok d1)
    (huseful : d1.useless r = false) (hfit : (d.keeping first).LinkFits g r) :
    ∃ d', d1.addRepair b g r = .ok d' := by
  obtain ⟨-, -, -, -, -, hdrops⟩ := dropOutdated_cases h1
  obtain ⟨hrepairs, hmissing⟩ := drops_keeping hI.listed hdrops
  have hb1 := contents_insertRepair (contents_dropOutdated hI.buffered h1) hr
  obtain ⟨d2, h2⟩ := linkLoop_returns (b := b) (g := g) hb1 OrdMap.find?_insert_self huseful
    fun j hj src hsrc => hfit.known j hj src (by
      rw [← hsrc]
      exact congrArg (OrdMap.find? · j) hdrops.sources.symm)
  obtain ⟨r2, hr2, -⟩ := (linkLoop_spec OrdMap.find?_insert_self h2).repair
  have ha : Accepts b g r first d d1 d2 r2 := ⟨h1, huseful, h2, hr2⟩
  have hA := ha.accepted hnew
  obtain ⟨hout, hout2⟩ := outline_accepts ha hnew
  have hannounced : d1.announced g r = (d.keeping first).announced g r := by
    simp only [announced, knownOf, unknown, hdrops.sources]
    rfl
  rw [hannounced] at hout2
  have hs2 : d2.sources = d1.sources := by rw [hA.frame]
  have hl2 : d2.lastId = d1.lastId := by rw [hA.frame]
  have hq2 : d2.Queued := queued_congr (by rw [hA.frame]) (by rw [hA.frame]) (by rw [hA.frame])
    (by rw [hA.frame]) (queued_dropOutdated hI.queued h1)
  obtain ⟨d', h'⟩ := useRepair_returns (b := b) (hA.listedStored hI.listed)
    (contents_accepts closed_buffered hI.buffered hr ha) hq2 hr2
    (DecoderRepair.sourceIds_outline hout2) (useless_keeping hdrops ▸ huseful)
    (hout.trans (outline_linking hrepairs hmissing hdrops.sources)) hout2
    (hs2.trans hdrops.sources) (hl2.trans hdrops.lastId) hfit
  have hnew1 := new_of_drops hdrops hnew
  exact ⟨d', by simp only [addRepair, hnew1, Bool.not_false, Build.assert_true, ok_bind, h2, h']⟩

theorem receiveRepair_returns (hI : d.Sound) (hr : r.Buffered)
    (hfit : d.Withstands g (.repair r)) : ∃ d', d.receiveRepair b g r = .ok d' := by
  obtain ⟨hne, hfit⟩ := hfit
  obtain ⟨i, l, hl⟩ := List.exists_cons_of_ne_nil hne
  have hassert : b.assert .emptyRepair (!r.sourceIds.isEmpty) = .ok () :=
    Build.assert_eq_ok (by rw [FlatSet.isEmpty, hl]; rfl)
  have hlast : r.sourceIds.toList.getLastD 0 = (i :: l).getLast (List.cons_ne_nil _ _) := by
    rw [hl, List.getLastD_cons, List.getLast_eq_getLastD]
  have hfirst : firstId r = i := by rw [firstId, hl, List.headD_cons]
  rw [accepts, hlast, hfirst, Bool.and_eq_true, Bool.not_eq_true', Bool.not_eq_true'] at hfit
  simp only [receiveRepair, hassert, ok_bind, hl]
  split
  · exact ⟨d, rfl⟩
  · next hrecent =>
    split
    · exact ⟨d, rfl⟩
    · next hnew =>
      rw [Bool.not_eq_true] at hrecent hnew
      obtain ⟨hdrop, hlink⟩ := hfit ⟨hrecent, hnew⟩
      obtain ⟨d1, h1⟩ := dropOutdated_returns (b := b) hI.queued hdrop
      obtain ⟨-, -, -, -, -, hdrops⟩ := dropOutdated_cases h1
      rw [h1, ok_bind]
      split
      · exact ⟨_, rfl⟩
      · next huseful =>
        rw [Bool.not_eq_true] at huseful
        exact addRepair_returns hI hr hnew h1 huseful (hlink (useless_keeping hdrops ▸ huseful))

theorem receive_returns (hI : d.Sound) (hp : Incoming.Buffered p) (hfit : d.Withstands g p) :
    ∃ d', d.receive b g p = .ok d' := by
  cases p with
  | source src => exact receiveSource_returns hI hp hfit
  | repair r => exact receiveRepair_returns hI hp hfit

theorem cascadeFits_of_not_missing (hm : ∀ k, d.missingSources.find? k = none) :
    d.CascadeFits g := by
  have hno : ∀ k, d.readyAt k = none := fun k => by rw [readyAt, hm]
  exact ⟨fun k c hk => absurd (hno k) hk, fun k _ _ hk => by simp [hno] at hk,
    fun k _ _ hk => by simp [hno] at hk, fun k _ _ hk => by simp [hno] at hk⟩

/-- Any source can be received when no source is missing. -/
theorem withstands_source (hm : ∀ k, d.missingSources.find? k = none) :
    d.Withstands g (.source src) := by
  intro _ _
  have hm' : ∀ k, (d.withoutSource g src).missingSources.find? k = none := fun k => by
    rw [withoutSource, OrdMap.find?_erase, hm, ite_self]
  refine ⟨fun ρ r href => ?_, cascadeFits_of_not_missing hm', fun henough => ?_⟩
  · obtain ⟨cits, hc, -⟩ := href
    rw [hm] at hc
    cases hc
  · have hempty : (d.withoutSource g src).settled.missingSources.isEmpty = true := by
      refine OrdMap.isEmpty_iff.mpr fun k => ?_
      rw [settled, OrdMap.find?_filter_key, hm', ite_self]
    simp [enoughRepairs, hempty] at henough

/-- When no source is missing nor repair stored, a repair of one source that is not known can be
received if the known sources it encodes can be removed from it, and that one rebuilt. -/
theorem withstands_repair (hm : ∀ k, d.missingSources.find? k = none)
    (hr : ∀ ρ, d.repairs.find? ρ = none)
    (hone : ((d.keeping (firstId r)).unknown r).toList = [k])
    (hknown : ∀ i ∈ r.sourceIds, ∀ src, d.sources.find? i = some src → FitsIn w src.symbolSize r)
    (hfits : FitsIn w (decodedSize g ((d.keeping (firstId r)).announced g r) k) r) :
    d.Withstands g (.repair r) := by
  have hk : k ∈ r.sourceIds := by
    have hmem : k ∈ (d.keeping (firstId r)).unknown r := by
      rw [FlatSet.mem_iff, hone]
      exact List.mem_singleton_self k
    exact (FlatSet.mem_filter.mp hmem).1
  refine ⟨List.ne_nil_of_mem hk, fun _ => ⟨fun ρ q hq => ?_, fun _ => ⟨fun i hi src hsrc => ?_,
    fun j hj => ?_, fun hmany _ => ?_⟩⟩⟩
  · rw [hr] at hq
    cases hq
  · refine hknown i hi src ?_
    rw [keeping, OrdMap.find?_eraseBelow] at hsrc
    split at hsrc
    · exact hsrc
    · cases hsrc
  · obtain rfl : k = j := by
      rw [hone] at hj
      exact List.head_eq_of_cons_eq hj
    refine ⟨hfits, cascadeFits_of_not_missing fun c => ?_⟩
    have hmissing : (d.keeping (firstId r)).missingSources.find? c = none := by
      rw [keeping, OrdMap.find?_eraseBelow, OrdMap.find?_map, hm]
      exact ite_self none
    rw [removeDecoded, OrdMap.find?_erase, find?_linking, hmissing]
    split
    · rfl
    · next hc => exact if_neg (mt (FlatSet.toList_eq_singleton_iff.mp hone c).mp hc)
  · rw [FlatSet.size, hone] at hmany
    exact absurd rfl hmany

end Netcode.Detail.Decoder
