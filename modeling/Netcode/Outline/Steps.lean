import Netcode.Cascade
import Netcode.Sound

/-! What each operation makes of the identifiers repairs list and of the sizes they announce. -/
namespace Netcode

open Containers Runs

variable {w : FieldSize} {b : Build} {g : GfComplete w}

namespace DecoderRepair

variable {src : DecoderSource} {r r' : DecoderRepair}

/-- A repair without its symbol. -/
def outline (r : DecoderRepair) : DecoderRepair := { r with symbol := [] }

/-- What a repair announces once a source is removed from it. -/
def without (g : GfComplete w) (src : DecoderSource) (r : DecoderRepair) : DecoderRepair :=
  { r with
    sourceIds := r.sourceIds.erase src.id
    encodedSize := multiplySize g (BitVec.ofNat 16 src.symbolSize) (coefficient w r.id src.id) ^^^
      r.encodedSize }

theorem outline_remove (h : Detail.Decoder.removeSourceDataFromRepair b g src r = .ok r') :
    ({ r' with sourceIds := r.sourceIds.erase src.id } : DecoderRepair).outline =
      (r.without g src).outline := by
  simp only [Detail.Decoder.removeSourceDataFromRepair, bind_ok_iff, Except.ok.injEq] at h
  obtain ⟨-, -, -, -, -, -, s, -, rfl⟩ := h
  rfl

theorem sourceIds_outline (h : r'.outline = r.outline) : r'.sourceIds = r.sourceIds := by
  show r'.outline.sourceIds = r.outline.sourceIds
  rw [h]

theorem symbolSize_outline (h : r'.outline = r.outline) : r'.symbolSize = r.symbolSize := by
  show r'.outline.symbolSize = r.outline.symbolSize
  rw [h]

end DecoderRepair

namespace Detail.Decoder

variable {d d' d1 d2 : Decoder w} {src : DecoderSource} {r r' : DecoderRepair} {k ρ n first : ℕ}

/-- The missing sources and what the stored repairs announce. -/
def outline (d : Decoder w) : OrdMap ℕ (FlatSet ℕ) × OrdMap ℕ DecoderRepair :=
  (d.missingSources, d.repairs.map fun _ => DecoderRepair.outline)

theorem outline_congr (hm : d'.missingSources = d.missingSources) (hr : d'.repairs = d.repairs) :
    d'.outline = d.outline := by
  rw [outline, outline, hm, hr]

theorem outline_eq_iff : d'.outline = d.outline ↔ d'.missingSources = d.missingSources ∧
    ∀ ρ, (d'.repairs.find? ρ).map DecoderRepair.outline =
      (d.repairs.find? ρ).map DecoderRepair.outline := by
  simp only [outline, Prod.mk.injEq]
  refine and_congr_right fun _ => ⟨fun h ρ => ?_, fun h => OrdMap.ext_find? fun ρ => ?_⟩
  · rw [← OrdMap.find?_map (f := fun _ => DecoderRepair.outline), h, OrdMap.find?_map]
  · rw [OrdMap.find?_map, OrdMap.find?_map, h]

/-- A stored repair has a counterpart. -/
theorem find?_outline (h : d'.outline = d.outline) (hr : d.repairs.find? ρ = some r) :
    ∃ r', d'.repairs.find? ρ = some r' ∧ r'.outline = r.outline := by
  have hρ := (outline_eq_iff.mp h).2 ρ
  rw [hr, Option.map_some, Option.map_eq_some_iff] at hρ
  exact hρ

theorem readyAt_outline (h : d'.outline = d.outline) (hk : d.readyAt k = some (ρ, r)) :
    ∃ r', d'.readyAt k = some (ρ, r') ∧ r'.outline = r.outline := by
  obtain ⟨hm, hr, hone⟩ := readyAt_eq_some.mp hk
  obtain ⟨r', hr', hout⟩ := find?_outline h hr
  refine ⟨r', readyAt_eq_some.mpr ⟨?_, hr', ?_⟩, hout⟩
  · rw [(outline_eq_iff.mp h).1]
    exact hm
  · rw [DecoderRepair.sourceIds_outline hout]
    exact hone

theorem readyAt_none_outline (h : d'.outline = d.outline) :
    d'.readyAt k = none ↔ d.readyAt k = none := by
  have hsome : ∀ {d d' : Decoder w}, d'.outline = d.outline → d'.readyAt k = none →
      d.readyAt k = none := by
    intro d d' h hno
    cases hk : d.readyAt k with
    | none => rfl
    | some p =>
      obtain ⟨r', hk', -⟩ := readyAt_outline (r := p.2) h hk
      rw [hno] at hk'
      cases hk'
  exact ⟨hsome h, hsome h.symm⟩

theorem spaced_outline (h : d'.outline = d.outline) : d'.Spaced ↔ d.Spaced := by
  simp only [Spaced, readyAt_none_outline h, ne_eq, (outline_eq_iff.mp h).1]

/-- A source is no longer missing, and is removed from the repairs its entry references. -/
def withoutSource (g : GfComplete w) (src : DecoderSource) (d : Decoder w) : Decoder w :=
  { d with
    repairs := d.repairs.map fun ρ r =>
      if (d.missingSources.find? src.id).any (fun cits => decide (ρ ∈ cits)) then r.without g src
      else r
    missingSources := d.missingSources.erase src.id }

theorem outline_strip (h : d.stripFromRepairs b g src = .ok d') :
    d'.outline = (d.withoutSource g src).outline := by
  obtain ⟨heq, hs⟩ := stripFromRepairs_spec h
  refine outline_eq_iff.mpr ⟨by rw [heq]; rfl, fun ρ => ?_⟩
  rw [withoutSource, OrdMap.find?_map]
  by_cases href : d.References src.id ρ
  · obtain ⟨r, r', hr, hrm, hf⟩ := (hs ρ).1 href
    obtain ⟨-, r1, h1, rfl⟩ := removeSourceFromRepair_ok_iff.mp hrm
    rw [hf, hr]
    simp only [Option.map_some, if_pos (references_iff_any.mpr href)]
    exact congrArg some (DecoderRepair.outline_remove h1)
  · rw [(hs ρ).2 href]
    simp only [if_neg (mt references_iff_any.mp href), Option.map_id']

theorem outline_withoutSource (hr : d'.repairs = d.repairs)
    (hm : d'.missingSources = d.missingSources) :
    (d'.withoutSource g src).outline = (d.withoutSource g src).outline := by
  simp only [outline, withoutSource, hr, hm]

/-- A source that is not missing is in no repair's entry. -/
theorem outline_withoutSource_not_missing (h : d.missingSources.contains src.id = false) :
    (d.withoutSource g src).outline = d.outline := by
  have hnone := OrdMap.contains_eq_false_iff.mp h
  refine outline_congr (OrdMap.erase_of_find?_none hnone) (OrdMap.ext_find? fun ρ => ?_)
  rw [withoutSource, OrdMap.find?_map, hnone]
  simp

theorem outline_removeDecoded (h : d'.outline = d.outline) :
    (d'.removeDecoded k ρ).outline = (d.removeDecoded k ρ).outline := by
  obtain ⟨hm, hr⟩ := outline_eq_iff.mp h
  refine outline_eq_iff.mpr ⟨by rw [removeDecoded, removeDecoded, hm], fun ρ' => ?_⟩
  rw [removeDecoded, removeDecoded, OrdMap.find?_erase, OrdMap.find?_erase]
  split
  · rfl
  · exact hr ρ'

/-- Some missing source can be decoded from a repair. -/
def decodable (d : Decoder w) (ρ : ℕ) : Bool :=
  d.missingSources.keys.any fun k => (d.readyAt k).any fun p => decide (p.1 = ρ)

/-- The missing sources that can be decoded are, from repairs that are erased. -/
def settled (d : Decoder w) : Decoder w :=
  { d with
    repairs := d.repairs.filter fun ρ _ => !d.decodable ρ
    missingSources := d.missingSources.filter fun k _ => (d.readyAt k).isNone }

theorem decodable_iff : d.decodable ρ = true ↔ ∃ k r, d.readyAt k = some (ρ, r) := by
  simp only [decodable, List.any_eq_true, Option.any_eq_true, decide_eq_true_eq]
  constructor
  · rintro ⟨k, -, ⟨ρ', r⟩, hk, rfl⟩
    exact ⟨k, r, hk⟩
  · rintro ⟨k, r, hk⟩
    obtain ⟨⟨cits, hm, -⟩, -⟩ := readyAt_eq_some.mp hk
    exact ⟨k, OrdMap.mem_keys_iff.mpr ⟨cits, hm⟩, (ρ, r), hk, rfl⟩

theorem decodable_outline (h : d'.outline = d.outline) : d'.decodable = d.decodable := by
  have hmono : ∀ {d d' : Decoder w} {ρ}, d'.outline = d.outline → d.decodable ρ = true →
      d'.decodable ρ = true := by
    intro d d' ρ h hd
    obtain ⟨k, r, hk⟩ := decodable_iff.mp hd
    obtain ⟨r', hk', -⟩ := readyAt_outline h hk
    exact decodable_iff.mpr ⟨k, r', hk'⟩
  funext ρ
  exact Bool.eq_iff_iff.mpr ⟨hmono h.symm, hmono h⟩

theorem find?_settled : d.settled.repairs.find? ρ = some r ↔
    d.repairs.find? ρ = some r ∧ ∀ k, d.readyAt k ≠ some (ρ, r) := by
  rw [settled, OrdMap.find?_eq_some_filter, Bool.not_eq_true', ← Bool.not_eq_true, decodable_iff]
  refine and_congr_right fun hr => ⟨fun hno k hk => hno ⟨k, r, hk⟩, ?_⟩
  rintro hno ⟨k, q, hk⟩
  obtain ⟨-, hq, -⟩ := readyAt_eq_some.mp hk
  rw [hr] at hq
  cases hq
  exact hno k hk

theorem outline_settled (h : d'.outline = d.outline) : d'.settled.outline = d.settled.outline := by
  obtain ⟨hm, hr⟩ := outline_eq_iff.mp h
  have hready : ∀ k, (d'.readyAt k).isNone = (d.readyAt k).isNone := fun k => by
    rw [Bool.eq_iff_iff, Option.isNone_iff_eq_none, Option.isNone_iff_eq_none,
      readyAt_none_outline h]
  refine outline_eq_iff.mpr ⟨?_, fun ρ => ?_⟩
  · rw [settled, settled]
    simp only [hready, hm]
  · rw [settled, settled, OrdMap.find?_filter_key, OrdMap.find?_filter_key, decodable_outline h]
    split
    · exact hr ρ
    · rfl

/-- What the cascade leaves. -/
theorem outline_decodeLeast (hL : d.ListedStored)
    (h : d.decodeLeast b g (peel b g n) = .ok d') : d'.outline = d.settled.outline := by
  have hmissing : d'.missingSources = d.settled.missingSources := by
    apply OrdMap.ext_find?
    intro c
    rw [decodeLeast_entries hL h, settled, OrdMap.find?_filter_key]
    simp only [Option.isNone_iff_eq_none]
  refine outline_congr hmissing (OrdMap.ext_find? fun ρ => Option.ext fun r => ?_)
  rw [decodeLeast_repairs hL h, find?_settled]

/-- Two decoders with the same missing sources and links have the same entries. -/
theorem missingSources_ext
    (hc : ∀ i, d'.missingSources.contains i = true ↔ d.missingSources.contains i = true)
    (href : ∀ i ρ, d'.References i ρ ↔ d.References i ρ) :
    d'.missingSources = d.missingSources := by
  apply OrdMap.ext_find?
  intro i
  have hci := hc i
  have hri := href i
  simp only [References, OrdMap.contains] at hci hri
  cases hd : d.missingSources.find? i with
  | none =>
    rw [hd] at hci
    cases hd' : d'.missingSources.find? i with
    | none => rfl
    | some cits => simp [hd'] at hci
  | some cits =>
    rw [hd] at hci hri
    cases hd' : d'.missingSources.find? i with
    | none => simp [hd'] at hci
    | some cits' =>
      refine congrArg some (FlatSet.ext_mem fun ρ => ?_)
      have hρ := hri ρ
      rw [hd'] at hρ
      simpa using hρ

/-- What adding a source leaves. -/
theorem addSource_outline (hL : d.ListedStored) (h : d.addSourceRecursive b g src = .ok d') :
    d'.outline = (d.withoutSource g src).settled.outline := by
  rw [addSourceRecursive_eq_peel hL] at h
  simp only [peel, bind_ok_iff] at h
  obtain ⟨d1, ho, d2, hs, d3, h3, h4⟩ := h
  have hdel := offer_delivers ho
  have hL2 := listedStored_strip (listedStored_delivers hdel hL) hs
  have hout : d2.outline = (d.withoutSource g src).outline :=
    (outline_strip hs).trans (outline_withoutSource (repairs_delivers hdel) (missing_delivers hdel))
  rw [outline_congr (d := d3) (by rw [(store_spec h4).2]) (by rw [(store_spec h4).2]),
    outline_decodeLeast hL2 h3, outline_settled hout]

/-- The sources and repairs that are not outdated are kept. -/
def keeping (first : ℕ) (d : Decoder w) : Decoder w :=
  { d with
    lastId := some first
    sources := d.sources.eraseBelow first
    repairs := d.repairs.filter fun _ r => !decide (Old first r)
    missingSources := (d.missingSources.map fun _ cits => cits.filter fun ρ =>
      !(d.repairs.find? ρ).any fun r => decide (Old first r)).eraseBelow first }

theorem contains_keeping (i : ℕ) : (d.keeping first).missingSources.contains i = true ↔
    first ≤ i ∧ d.missingSources.contains i = true := by
  rw [keeping, OrdMap.contains_eraseBelow, OrdMap.contains, OrdMap.find?_map]
  simp [OrdMap.contains]

theorem references_keeping (i ρ : ℕ) : (d.keeping first).References i ρ ↔
    first ≤ i ∧ d.References i ρ ∧ ∀ r, d.repairs.find? ρ = some r → ¬ Old first r := by
  rw [References, keeping, References, OrdMap.find?_eraseBelow, OrdMap.find?_map]
  by_cases hi : first ≤ i
  · cases d.missingSources.find? i with
    | none => simp [hi]
    | some cits =>
      have hany : (d.repairs.find? ρ).any (fun r => decide (Old first r)) = false ↔
          ∀ r, d.repairs.find? ρ = some r → ¬ Old first r := by
        simp [Option.any_eq_false]
      simp [hi, hany]
  · simp [hi]

/-- What dropping outdated sources and repairs leaves. -/
theorem drops_keeping (hL : d.ListedStored) (h : Drops first d d') :
    d'.repairs = (d.keeping first).repairs ∧
      d'.missingSources = (d.keeping first).missingSources := by
  constructor
  · refine OrdMap.ext_find? fun ρ => Option.ext fun r => ?_
    rw [h.repairs, keeping, OrdMap.find?_eq_some_filter]
    simp
  · refine missingSources_ext (fun i => ?_) fun i ρ => ?_
    · rw [h.missing, contains_keeping]
    · rw [h.references, references_keeping]
      refine and_congr_right fun _ => and_congr_right fun href => ?_
      obtain ⟨r, hr, hi⟩ := hL i ρ href
      simp [hr, hi]

theorem useless_keeping (h : Drops first d d1) : d1.useless r = (d.keeping first).useless r := by
  rw [useless, useless, h.sources]
  rfl

/-- The known sources a repair encodes, the last one first. -/
def knownOf (r : DecoderRepair) (d : Decoder w) : List DecoderSource :=
  r.sourceIds.toList.reverse.filterMap d.sources.find?

/-- The encoded size a repair announces once sources are removed from it. -/
def sizeWithout (g : GfComplete w) (id : ℕ) (srcs : List DecoderSource) (z : BitVec 16) : BitVec 16 :=
  srcs.foldl (fun z src => multiplySize g (BitVec.ofNat 16 src.symbolSize)
    (coefficient w id src.id) ^^^ z) z

/-- What a repair announces once the known sources are removed from it. -/
def announced (g : GfComplete w) (r : DecoderRepair) (d : Decoder w) : DecoderRepair :=
  { r with
    sourceIds := d.unknown r
    encodedSize := sizeWithout g r.id (d.knownOf r) r.encodedSize }

/-- An incoming repair is stored, linked to the missing sources it encodes. -/
def linking (g : GfComplete w) (r : DecoderRepair) (d : Decoder w) : Decoder w :=
  { d with
    repairs := d.repairs.insert r.id (d.announced g r)
    missingSources := (d.unknown r).toList.foldl (fun m i =>
      m.insert i (((m.find? i).getD FlatSet.empty).insert r.id)) d.missingSources }

theorem find?_linking (i : ℕ) : (d.linking g r).missingSources.find? i =
    if i ∈ d.unknown r then some (((d.missingSources.find? i).getD FlatSet.empty).insert r.id)
    else d.missingSources.find? i :=
  OrdMap.find?_updateEach (f := fun s => FlatSet.insert s r.id) (fun s => s.insert_insert r.id) _ _

theorem contains_linking (i : ℕ) : (d.linking g r).missingSources.contains i = true ↔
    d.missingSources.contains i = true ∨ i ∈ d.unknown r := by
  rw [OrdMap.contains, find?_linking]
  by_cases hi : i ∈ d.unknown r <;> simp [hi, OrdMap.contains]

theorem references_linking (i ρ : ℕ) : (d.linking g r).References i ρ ↔
    d.References i ρ ∨ ρ = r.id ∧ i ∈ d.unknown r := by
  rw [References, find?_linking, References]
  by_cases hi : i ∈ d.unknown r
  · cases d.missingSources.find? i <;> simp [hi, or_comm]
  · simp [hi]

theorem outline_linking (hr : d'.repairs = d.repairs) (hm : d'.missingSources = d.missingSources)
    (hs : d'.sources = d.sources) : (d'.linking g r).outline = (d.linking g r).outline := by
  simp only [outline, linking, announced, knownOf, unknown, hr, hm, hs]

/-- What an incoming repair announces once its identifiers were processed. -/
theorem linkLoop_announces {l : List ℕ} (hr : d.repairs.find? ρ = some r)
    (h : l.foldlM (link b g ρ) d = .ok d') : ∃ r', d'.repairs.find? ρ = some r' ∧ r'.id = r.id ∧
      r'.symbolSize = r.symbolSize ∧
      r'.encodedSize = sizeWithout g r.id (l.filterMap d.sources.find?) r.encodedSize := by
  induction l generalizing d r with
  | nil =>
    cases h
    exact ⟨r, hr, rfl, rfl, rfl⟩
  | cons a l ih =>
    rw [List.foldlM_cons] at h
    obtain ⟨d1, h1, h2⟩ := bind_ok_iff.mp h
    cases hs : d.sources.find? a with
    | none =>
      rw [link_unknown hs] at h1
      obtain ⟨r', hr', hid, hsize, henc⟩ := ih (by rw [h1]; exact hr) h2
      exact ⟨r', hr', hid, hsize, by rw [henc, h1, List.filterMap_cons_none hs]⟩
    | some src =>
      obtain ⟨q, q', hq, hrm, rfl⟩ := (link_known hs).mp h1
      rw [hr] at hq
      cases hq
      obtain ⟨r', hr', hid, hsize, henc⟩ := ih OrdMap.find?_insert_self h2
      simp only [removeSourceDataFromRepair, bind_ok_iff, Except.ok.injEq] at hrm
      obtain ⟨-, -, -, -, -, -, symbol, -, rfl⟩ := hrm
      exact ⟨r', hr', hid, hsize, by rw [henc, List.filterMap_cons_some hs]; rfl⟩

/-- What linking an incoming repair leaves. -/
theorem outline_accepts {r2 : DecoderRepair} (ha : Accepts b g r first d d1 d2 r2)
    (hnew : d.repairs.contains r.id = false) : d2.outline = (d1.linking g r).outline ∧
      r2.outline = (d1.announced g r).outline := by
  have hA := ha.accepted hnew
  have hids : r2.sourceIds = d1.unknown r := by
    apply FlatSet.ext_mem
    intro i
    rw [hA.ids, unknown, FlatSet.mem_filter, Bool.not_eq_true']
  have hannounced : r2.outline = (d1.announced g r).outline := by
    obtain ⟨r', hr', hid, hsize, henc⟩ := linkLoop_announces
      (d := { d1 with repairs := d1.repairs.insert r.id r }) OrdMap.find?_insert_self ha.link
    rw [hA.stored] at hr'
    cases hr'
    rw [DecoderRepair.outline, DecoderRepair.outline, hid, hsize, henc, hids]
    rfl
  refine ⟨outline_eq_iff.mpr ⟨missingSources_ext (fun i => ?_) fun i ρ => ?_, fun ρ => ?_⟩,
    hannounced⟩
  · rw [hA.missing, contains_linking, hids]
  · rw [hA.references, references_linking, hids]
  · rw [linking, OrdMap.find?_insert]
    by_cases hρ : ρ = r.id
    · rw [if_pos hρ, hρ, hA.stored]
      exact congrArg some hannounced
    · rw [if_neg hρ, hA.repairs ρ hρ]

/-- What accepting a repair leaves, and what is left of it. -/
theorem Accepts.outline_linking {r2 : DecoderRepair} (ha : Accepts b g r (firstId r) d d1 d2 r2)
    (hL : d.ListedStored) (hnew : d.repairs.contains r.id = false) :
    d2.outline = ((d.keeping (firstId r)).linking g r).outline ∧
      r2.sourceIds = (d.keeping (firstId r)).unknown r := by
  have hA := ha.accepted hnew
  obtain ⟨hrepairs, hmissing⟩ := drops_keeping hL hA.drops
  obtain ⟨hout1, hout2⟩ := outline_accepts ha hnew
  refine ⟨hout1.trans (Decoder.outline_linking hrepairs hmissing hA.drops.sources),
    (DecoderRepair.sourceIds_outline hout2).trans ?_⟩
  show d1.unknown r = _
  rw [unknown, hA.drops.sources]
  rfl

end Detail.Decoder

end Netcode
