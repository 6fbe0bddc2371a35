import Netcode.Outline

/-! Sources added and full decodings return, when what is stored fits what they are combined with. -/
namespace Netcode.Detail.Decoder

open Containers Runs

variable {w : FieldSize} {b : Build} {g : GfComplete w} {d d' d1 d2 : Decoder w}
  {src : DecoderSource} {r : DecoderRepair} {p : Incoming} {pending : List DecoderSource}
  {k ρ n : ℕ}

theorem createSourceFromRepair_returns (hr : r.Buffered) (hids : r.sourceIds.toList = [k])
    (hfit : FitsIn w (decodedSize g r k) r) :
    ∃ src, createSourceFromRepair b g r = .ok src ∧ src.id = k := by
  obtain ⟨s, hs⟩ : ∃ s, multiply g r.symbol (List.replicate (decodedSize g r k + 9) 0#8)
      (decodedSize g r k) (g.divide 1#w.bits (coefficient w r.id k)) = .ok s :=
    ⟨_, multiply_ok_iff.mpr ⟨hfit.2, hfit.1.trans hr.2, by
      rw [List.length_replicate]
      exact Nat.le_add_right _ 9, rfl⟩⟩
  have hwithin : b.within (decodedSize g r k) r.symbolSize = .ok () := Build.within_eq_ok hfit.1
  rw [decodedSize] at hs hwithin
  refine ⟨⟨k, s, decodedSize g r k⟩, ?_, rfl⟩
  rw [createSourceFromRepair, Build.assert_eq_ok (decide_eq_true (FlatSet.size_eq_one_iff.mpr
    ⟨k, hids⟩)), ok_bind, hids]
  simp only [invertCoefficient_eq b g (coefficient_ne_zero r.id k), ok_bind, hwithin, hs]
  rfl

theorem offer_returns (hq : d.Queued) (src : DecoderSource) : ∃ d', d.offer b src = .ok d' := by
  rw [offer]
  split
  · exact ⟨_, rfl⟩
  · split
    · refine flushOrderedSources_returns (d := (d.callback src).advance) ?_
      exact fun j hj => hq.pointed j hj
    · exact ⟨d, rfl⟩

theorem store_returns (h : d.sources.contains src.id = false) : ∃ d', d.store b src = .ok d' := by
  simp only [store, h, Bool.not_false, Build.assert_true, ok_bind, Bool.false_eq_true, if_false]
  split
  · exact ⟨_, rfl⟩
  · exact ⟨_, rfl⟩

/-- Removing a source from the repairs its entry references returns. -/
theorem strip_returns (hL : d.ListedStored) (hb : d.Buffered pending) (hsrc : src.Buffered)
    (hfit : d.StripFits src) : ∃ d', d.stripFromRepairs b g src = .ok d' := by
  rw [stripFromRepairs]
  cases hm : d.missingSources.find? src.id with
  | none => exact ⟨d, rfl⟩
  | some cits =>
    -- The repairs still to visit are as they were stored.
    have hloop := foldlM_ok_induction (f := stripRepair b g src) (l := cits.toList) (s := d)
      (fun l u => l.Nodup ∧ (∀ ρ ∈ l, ρ ∈ cits) ∧
        ∀ ρ ∈ l, u.repairs.find? ρ = d.repairs.find? ρ) ?_ ⟨cits.nodup, fun _ h => h, fun _ _ => rfl⟩
    · obtain ⟨u, hu, -⟩ := hloop
      exact ⟨{ u with missingSources := u.missingSources.erase src.id }, by simp only [hu, ok_bind]⟩
    · rintro a l u ⟨hnd, hsub, hsame⟩
      obtain ⟨hal, hnd⟩ := List.nodup_cons.mp hnd
      have href : d.References src.id a := ⟨cits, hm, hsub a List.mem_cons_self⟩
      obtain ⟨r, hr, hmem⟩ := hL src.id a href
      obtain ⟨hone, hsize⟩ := hfit a r href hr
      obtain ⟨r', hr'⟩ := removeSourceDataFromRepair_returns (b := b) (g := g) hone hsize.1 hsize.2
        hsrc.2 (hb.repairs a r hr).2.2
      have hremove := removeSourceFromRepair_ok_iff.mpr ⟨hmem, r', hr', rfl⟩
      refine ⟨_, stripRepair_ok_iff.mpr
        ⟨r, _, (hsame a List.mem_cons_self).trans hr, hremove, rfl⟩, hnd,
        fun ρ hρ => hsub ρ (List.mem_cons_of_mem a hρ), fun ρ hρ => ?_⟩
      have hne : ρ ≠ a := by
        rintro rfl
        exact hal hρ
      exact (OrdMap.find?_insert_ne hne).trans (hsame ρ (List.mem_cons_of_mem a hρ))

theorem decodeMissing_returns (hL : d.ListedStored) (hb : d.Buffered pending)
    (hfit : d.CascadeFits g) (hk : d.readyAt k = some (ρ, r)) :
    ∃ y, decodeMissing b g k ρ r d = .ok (y, d.removeDecoded k ρ) ∧ y.id = k ∧
      y.Buffered := by
  have hids := toList_of_readyAt hL hk
  have hr := (hb.repairs ρ r (readyAt_eq_some.mp hk).2.1).2
  obtain ⟨y, hy, rfl⟩ := createSourceFromRepair_returns (b := b) hr hids (hfit.fits k ρ r hk)
  refine ⟨y, ?_, rfl, closed_buffered.create hr hids hy⟩
  have hrecent : b.assert .outdatedDecoded (!d.outdated y.id) = .ok () :=
    Build.assert_eq_ok (by rw [hfit.recent _ ρ r hk]; rfl)
  have hunknown : b.assert .knownDecoded (!d.sources.contains y.id) = .ok () :=
    Build.assert_eq_ok (by rw [hfit.unknown _ ρ r hk]; rfl)
  rw [decodeMissing, hids]
  simp only [hrecent, hunknown, ok_bind, hy]

/-- What the other missing sources are decoded from stays as it was. -/
theorem cascadeFits_decoded (hL : d.ListedStored) (hfit : d.CascadeFits g)
    (hk : d.readyAt k = some (ρ, r)) (hmin : ∀ j < k, d.readyAt j = none)
    (hdel : (d.removeDecoded k ρ).Delivers d1) : d1.CascadeFits g := by
  obtain ⟨hgone, hother⟩ := readyAt_decoded hL hk hdel
  have hready : ∀ c q, d1.readyAt c = some q → d.readyAt c = some q := by
    intro c q hc
    have hne : c ≠ k := by
      rintro rfl
      rw [hgone] at hc
      cases hc
    exact (hother c hne).symm.trans hc
  refine ⟨?_, fun c ρ' r' hc => ?_, fun c ρ' r' hc => ?_, fun c ρ' r' hc => ?_⟩
  · rw [spaced_congr (repairs_delivers hdel) (missing_delivers hdel)]
    exact ((spaced_iff_removeDecoded hL hk hmin).mp hfit.spaced).2
  · have hrecent := hfit.recent c ρ' r' (hready c _ hc)
    rwa [outdated_congr (lastId_delivers hdel)]
  · rw [sources_delivers hdel]
    exact hfit.unknown c ρ' r' (hready c _ hc)
  · exact hfit.fits c ρ' r' (hready c _ hc)

/-- The cascade returns. -/
theorem decodeLeast_returns (hL : d.ListedStored) (hb : d.Buffered pending) (hq : d.Queued)
    (hfit : d.CascadeFits g) (hn : d.repairs.size ≤ n) :
    ∃ d', d.decodeLeast b g (peel b g n) = .ok d' := by
  induction n generalizing d pending with
  | zero =>
    refine ⟨d, ?_⟩
    rw [decodeLeast]
    cases hr : d.leastReady with
    | none => rfl
    | some p =>
      obtain ⟨k, ρ, r⟩ := p
      have := OrdMap.size_erase (readyAt_eq_some.mp (leastReady_eq_some hr).1).2.1
      omega
  | succ n ih =>
    rw [decodeLeast]
    cases hr : d.leastReady with
    | none => exact ⟨d, rfl⟩
    | some p =>
      obtain ⟨k, ρ, r⟩ := p
      obtain ⟨hk, hmin⟩ := leastReady_eq_some hr
      have hstored := (readyAt_eq_some.mp hk).2.1
      obtain ⟨y, hy, rfl, hybuf⟩ := decodeMissing_returns (b := b) hL hb hfit hk
      have hL0 := listedStored_removeDecoded hL hstored (toList_of_readyAt hL hk)
      have hb0 : (d.removeDecoded y.id ρ).Buffered pending := contents_removeDecoded hb
      have hq0 : (d.removeDecoded y.id ρ).Queued := queued_congr (d := d) rfl rfl rfl rfl hq
      obtain ⟨d1, h1⟩ := offer_returns (b := b) hq0 y
      have hdel := offer_delivers h1
      have hL1 := listedStored_delivers hdel hL0
      obtain ⟨d2, h2⟩ := ih hL1 (contents_offer hb0 hybuf h1) (queued_offer hq0 h1)
        (cascadeFits_decoded hL hfit hk hmin hdel) (by
          have hsize := OrdMap.size_erase hstored
          rw [repairs_delivers hdel]
          show (d.repairs.erase ρ).size ≤ n
          omega)
      -- The nested call makes the other decoded sources known, and then its own.
      have hunknown : d2.sources.contains y.id = false := by
        rw [← Bool.not_eq_true, decodeLeast_sources hL1 h2, not_or, not_not, Bool.not_eq_true,
          sources_delivers hdel]
        exact ⟨(readyAt_decoded hL hk hdel).1, hfit.unknown y.id ρ r hk⟩
      obtain ⟨d3, h3⟩ := store_returns (b := b) hunknown
      have hstrip : d1.stripFromRepairs b g y = .ok d1 := stripFromRepairs_not_missing
        (by rw [missing_delivers hdel, not_missing_removeDecoded])
      have hcursor : d3.checkCursor (d.missingSources.nextKey? y.id) = .ok () :=
        (checkCursor_iff hL1 hdel hL hk h2 (by rw [(store_spec h3).2])).mpr fun c hc =>
          hfit.spaced y.id c (by simp [hk]) hc
      refine ⟨d3, ?_⟩
      simp only [hy, ok_bind, peel, h1, hstrip, h2, h3, hcursor]

/-- What adding a source leaves: it and those decoded with it are known. -/
theorem addSource_returns (hL : d.ListedStored) (hb : d.Buffered []) (hq : d.Queued)
    (hsrc : src.Buffered) (hnew : d.sources.contains src.id = false) (hstrip : d.StripFits src)
    (hfit : (d.withoutSource g src).CascadeFits g) : ∃ d', d.addSourceRecursive b g src = .ok d' ∧
      d'.outline = (d.withoutSource g src).settled.outline ∧
      ∀ i, d'.missingSources.contains i = true → d.sources.contains i = false →
        d'.sources.contains i = false := by
  rw [addSourceRecursive_eq_peel hL]
  obtain ⟨d1, h1⟩ := offer_returns (b := b) hq src
  have hdel := offer_delivers h1
  have hL1 := listedStored_delivers hdel hL
  obtain ⟨d2, h2⟩ := strip_returns (b := b) (g := g) hL1 (contents_offer hb hsrc h1) hsrc (by
    intro ρ r href hr
    rw [repairs_delivers hdel] at hr
    rw [References, missing_delivers hdel] at href
    exact hstrip ρ r href hr)
  have hheq := (stripFromRepairs_spec h2).1
  have hout : d2.outline = (d.withoutSource g src).outline := by
    rw [outline_strip h2]
    exact outline_withoutSource (repairs_delivers hdel) (missing_delivers hdel)
  have hsources : d2.sources = d.sources := by rw [hheq, sources_delivers hdel]
  have hL2 := listedStored_strip hL1 h2
  obtain ⟨hb2, hq2⟩ :=
    (queued_rule (g := g) closed_buffered fun _ hs => hs.1).add ⟨⟨hb, hsrc⟩, hq⟩ hL h1 h2
  obtain ⟨d3, h3⟩ := decodeLeast_returns (b := b) hL2 hb2 hq2
    (cascadeFits_outline hout hsources (by rw [hheq, lastId_delivers hdel]; rfl) hfit)
    (by rw [size_strip h2, repairs_delivers hdel])
  have hidle : d2.readyAt src.id = none := by
    rw [readyAt, hheq, OrdMap.find?_erase_self]
  have hunknown : d3.sources.contains src.id = false := by
    rw [← Bool.not_eq_true, decodeLeast_sources hL2 h3, not_or, not_not, Bool.not_eq_true, hsources]
    exact ⟨hidle, hnew⟩
  obtain ⟨d4, h4⟩ := store_returns (b := b) hunknown
  have hm : d4.missingSources = d3.missingSources := by rw [(store_spec h4).2]
  refine ⟨d4, by simp only [peel, h1, ok_bind, h2, h3, h4], ?_, fun i hi hno => ?_⟩
  · rw [outline_congr hm (by rw [(store_spec h4).2]), outline_decodeLeast hL2 h3,
      outline_settled hout]
  · rw [hm, decodeLeast_missing hL2 h3] at hi
    rw [← Bool.not_eq_true, contains_store h4, decodeLeast_sources hL2 h3, hsources]
    rintro (rfl | hready | hknown)
    · rw [hheq, OrdMap.contains_erase] at hi
      simp at hi
    · exact hready hi.2
    · rw [hno] at hknown
      cases hknown

/-- Decoding all missing sources returns when their coefficients recover them. -/
theorem decodeAll_returns {inv : SquareMatrix w} (hb : d.Buffered []) (hq : d.Queued)
    (hinv : d.inv = inv) (hfilled : inv.Filled d.repairs.size)
    (hle : d.missingSources.size ≤ d.repairs.size)
    (hunknown : ∀ i, d.missingSources.contains i = true → d.sources.contains i = false)
    (hrecovers : ∀ x i, d.missingSources.keys[x]? = some i →
      Recovers g d.missingSources.keys i (d.inverseRows g inv x))
    (haligned : ∀ x i, d.missingSources.keys[x]? = some i → ∀ row ∈ d.inverseRows g inv x,
      row.1 ≠ 0#w.bits →
        w.wordBytes ∣ min (decodeSize g (d.inverseRows g inv x)).toNat row.2.symbolSize) :
    ∃ d', d.decodeAll b g = .ok d' := by
  have hnodup : (d.missingSources.keys.zipIdx.map Prod.fst).Nodup := by
    rw [List.zipIdx_map_fst]
    exact d.missingSources.keys_nodup
  have hrun := foldlM_ok_induction (l := d.missingSources.keys.zipIdx) (s := d)
    (f := decodeColumn b g (d.repairs.entries.map Prod.snd))
    (fun l u => u.inv = inv ∧ u.Pointed ∧ (∀ miss ∈ l, miss ∈ d.missingSources.keys.zipIdx) ∧
      (l.map Prod.fst).Nodup ∧ ∀ miss ∈ l, u.sources.contains miss.1 = false) ?_
    ⟨hinv, hq.pointed, fun _ h => h, hnodup, ?_⟩
  · obtain ⟨u, hu, -⟩ := hrun
    exact ⟨{ u with
      nbDecoded := u.nbDecoded + d.missingSources.size
      repairs := OrdMap.empty
      missingSources := OrdMap.empty }, by rw [decodeAll, hu, ok_bind]⟩
  · rintro ⟨i, x⟩ l u ⟨huinv, hup, hsub, hnd, hnew⟩
    rw [List.map_cons, List.nodup_cons] at hnd
    have hx : d.missingSources.keys[x]? = some i :=
      List.mem_zipIdx_iff_getElem?.mp (hsub (i, x) List.mem_cons_self)
    obtain ⟨hxlt, hxi⟩ := List.getElem?_eq_some_iff.mp hx
    have hi : i ∈ d.missingSources.keys := hxi ▸ List.getElem_mem hxlt
    have hxsize : x < d.repairs.size := by
      have hlen : d.missingSources.keys.length = d.missingSources.size := List.length_map _
      omega
    have hreadable : ∀ row ∈ d.inverseRows g inv x, row.1 ≠ 0#w.bits →
        Readable w (decodeSize g (d.inverseRows g inv x)).toNat row.2 := by
      intro row hrow hne
      obtain ⟨ρ, hρ⟩ := inverseRows_stored hrow
      exact ⟨haligned x i hx row hrow hne, (hb.repairs ρ row.2 hρ).2.2⟩
    obtain ⟨row, hrow, -, hne⟩ := (hrecovers x i hx).exists_row hi
    obtain ⟨symbol, hsymbol, -⟩ := decodeSymbol_spec (b := b) (g := g) hreadable ⟨row, hrow, hne⟩
    have h32 : i < 2 ^ 32 := hb.missing i (OrdMap.contains_iff_mem_keys.mpr hi)
    obtain ⟨v, hv, hvinv, hvp, hsources⟩ := decodeColumn_ok huinv hfilled hxsize hup h32
      (hnew (i, x) List.mem_cons_self) hsymbol
    refine ⟨v, hv, hvinv, hvp, fun m hm => hsub m (List.mem_cons_of_mem _ hm), hnd.2,
      fun miss hmiss => ?_⟩
    have hmi : miss.1 ≠ i := by
      rintro rfl
      exact hnd.1 (List.mem_map.mpr ⟨miss, hmiss, rfl⟩)
    rw [hsources, OrdMap.contains_insert, hnew miss (List.mem_cons_of_mem _ hmiss),
      decide_eq_false hmi]
    rfl
  · intro miss hmiss
    have hkey := List.mem_zipIdx' hmiss
    exact hunknown miss.1 (OrdMap.contains_iff_mem_keys.mpr (hkey.2 ▸ List.getElem_mem hkey.1))

theorem attemptFullDecoding_returns (hb : d.Buffered []) (hq : d.Queued)
    (hfit : d.enoughRepairs = true → d.AttemptFits g) :
    ∃ d', d.attemptFullDecoding b g = .ok d' := by
  cases henough : d.enoughRepairs with
  | false => exact ⟨d, by rw [attemptFullDecoding, henough]; rfl⟩
  | true =>
    have hfit := hfit henough
    obtain ⟨blamed, m, heq, hm, hblamed, -, hrecovers⟩ :=
      attemptFullDecoding_eq (b := b) (g := g) hfit.several hfit.square
    rw [heq]
    rcases hblamed with rfl | rfl
    · have hrecovers := hrecovers rfl fun ρ r hr => (hb.repairs ρ r hr).1
      have hsolvable : d.Solvable g := by
        intro i hi
        obtain ⟨x, hx, hxi⟩ := List.mem_iff_getElem.mp hi
        exact ⟨_, by rw [List.length_map, List.length_range, hm.dimension],
          hrecovers x i (List.getElem?_eq_some_iff.mpr ⟨hx, hxi⟩)⟩
      refine decodeAll_returns (d := { d with coefficients := m.mat, inv := m.inv })
        (contents_congr (d := d) rfl rfl rfl rfl hb) (queued_congr (d := d) rfl rfl rfl rfl hq) rfl hm
        hfit.square.ge (hfit.unknown hsolvable) hrecovers fun x i hx => ?_
      obtain ⟨hxlt, hxi⟩ := List.getElem?_eq_some_iff.mp hx
      exact hfit.aligned hsolvable i (hxi ▸ List.getElem_mem hxlt) _
        (by rw [List.length_map, List.length_range, hm.dimension]) (hrecovers x i hx)
    · have hpos : d.repairs.size - 1 < d.repairs.entries.length := by
        have hsquare := hfit.square
        have hseveral := hfit.several
        rw [← OrdMap.size]
        omega
      simp only [dropFaulty, List.getElem?_eq_getElem hpos]
      exact ⟨_, rfl⟩

end Netcode.Detail.Decoder
