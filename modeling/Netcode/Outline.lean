import Netcode.Outline.Steps

/-! What a decoder becomes, symbols apart: the identifiers repairs list and the sizes they announce
decide alone what is decoded and when. -/
namespace Netcode.Detail.Decoder

open Containers

variable {w : FieldSize} {g : GfComplete w}

variable {d d' : Decoder w} {src : DecoderSource} {r r' : DecoderRepair} {k ρ first : ℕ}

/-- The first bytes of a repair's symbol, as many as a source has, are whole words of it. -/
def FitsIn (w : FieldSize) (size : ℕ) (r : DecoderRepair) : Prop :=
  size ≤ r.symbolSize ∧ w.wordBytes ∣ size

instance {size : ℕ} : Decidable (FitsIn w size r) :=
  inferInstanceAs (Decidable (size ≤ r.symbolSize ∧ w.wordBytes ∣ size))

/-- The size of the source decoded from a repair that encodes only it. -/
def decodedSize (g : GfComplete w) (r : DecoderRepair) (i : ℕ) : ℕ :=
  (multiplySize g r.encodedSize (g.divide 1#w.bits (coefficient w r.id i))).toNat

/-- A source can be removed from the repairs its entry references. -/
def StripFits (src : DecoderSource) (d : Decoder w) : Prop := ∀ ρ r, d.References src.id ρ →
  d.repairs.find? ρ = some r → 1 < r.sourceIds.size ∧ FitsIn w src.symbolSize r

/-- The missing sources that can be decoded are no neighbours, new, and no longer than their
repairs. -/
structure CascadeFits (g : GfComplete w) (d : Decoder w) : Prop where
  spaced : d.Spaced
  recent : ∀ k ρ r, d.readyAt k = some (ρ, r) → d.outdated k = false
  unknown : ∀ k ρ r, d.readyAt k = some (ρ, r) → d.sources.contains k = false
  fits : ∀ k ρ r, d.readyAt k = some (ρ, r) → FitsIn w (decodedSize g r k) r

/-- The stored repairs, each with a coefficient. -/
def rowsOf (coeffs : List (BitVec w.bits)) (d : Decoder w) :
    List (BitVec w.bits × DecoderRepair) := coeffs.zip (d.repairs.entries.map Prod.snd)

/-- All missing sources can be recovered. -/
def Solvable (g : GfComplete w) (d : Decoder w) : Prop :=
  ∀ i ∈ d.missingSources.keys, ∃ coeffs : List (BitVec w.bits), coeffs.length = d.repairs.size ∧
    Recovers g d.missingSources.keys i (d.rowsOf coeffs)

/-- There are as many repairs as missing sources, several of both. If all missing sources can be
recovered, they are new, and whole words of the repairs are combined. -/
structure AttemptFits (g : GfComplete w) (d : Decoder w) : Prop where
  square : d.repairs.size = d.missingSources.size
  several : 1 < d.missingSources.size
  unknown : d.Solvable g → ∀ i, d.missingSources.contains i = true → d.sources.contains i = false
  aligned : d.Solvable g → ∀ i ∈ d.missingSources.keys, ∀ coeffs : List (BitVec w.bits),
    coeffs.length = d.repairs.size → Recovers g d.missingSources.keys i (d.rowsOf coeffs) →
    ∀ row ∈ d.rowsOf coeffs, row.1 ≠ 0#w.bits →
      w.wordBytes ∣ min (decodeSize g (d.rowsOf coeffs)).toNat row.2.symbolSize

/-- No stored repair lists nothing, and the repairs to drop are linked. -/
def DropFits (first : ℕ) (d : Decoder w) : Prop := ∀ ρ r, d.repairs.find? ρ = some r →
  r.sourceIds.toList ≠ [] ∧
    (Old first r → ∀ i ∈ r.sourceIds, d.missingSources.contains i = true)

/-- The known sources can be removed from an incoming repair, and what is left of it can be used. -/
structure LinkFits (g : GfComplete w) (r : DecoderRepair) (d : Decoder w) : Prop where
  known : ∀ i ∈ r.sourceIds, ∀ src, d.sources.find? i = some src → FitsIn w src.symbolSize r
  rebuilt : ∀ k, (d.unknown r).toList = [k] → FitsIn w (decodedSize g (d.announced g r) k) r ∧
    ((d.linking g r).removeDecoded k r.id).CascadeFits g
  linked : (d.unknown r).size ≠ 1 → (d.linking g r).enoughRepairs = true →
    (d.linking g r).AttemptFits g

/-- What is received is consistent with what is stored. -/
def Withstands (g : GfComplete w) (d : Decoder w) : Incoming → Prop
  | .source src => d.outdated src.id = false → d.sources.contains src.id = false →
      d.StripFits src ∧ (d.withoutSource g src).CascadeFits g ∧
        ((d.withoutSource g src).settled.enoughRepairs = true →
          (d.withoutSource g src).settled.AttemptFits g)
  | .repair r => r.sourceIds.toList ≠ [] ∧ (d.accepts r = true → d.DropFits (firstId r) ∧
      ((d.keeping (firstId r)).useless r = false → (d.keeping (firstId r)).LinkFits g r))

theorem decodedSize_outline (h : r'.outline = r.outline) :
    decodedSize g r' k = decodedSize g r k := by
  show decodedSize g r'.outline k = decodedSize g r.outline k
  rw [h]

theorem size_outline (h : d'.outline = d.outline) : d'.repairs.size = d.repairs.size := by
  have hsize := congrArg (fun o => o.2.size) h
  simpa only [outline, OrdMap.size_map] using hsize

theorem coefficientAt_outline (h : d'.outline = d.outline) (row col : ℕ) :
    d'.coefficientAt row col = d.coefficientAt row col := by
  have hentries := congrArg (fun o => (o.2.entries[col]?).map fun e => (e.1, e.2.sourceIds)) h
  simp only [outline, OrdMap.map, List.getElem?_map, Option.map_map] at hentries
  rw [coefficientAt, coefficientAt, (outline_eq_iff.mp h).1]
  cases d.missingSources.keys[row]? with
  | none => rfl
  | some missing =>
    cases hd : d.repairs.entries[col]? with
    | none =>
      rw [hd, Option.map_none, Option.map_eq_none_iff] at hentries
      rw [hentries]
    | some r =>
      rw [hd, Option.map_some, Option.map_eq_some_iff] at hentries
      obtain ⟨r', hr', heq⟩ := hentries
      obtain ⟨hid, hids⟩ := Prod.mk.inj heq
      rw [hr']
      dsimp only [Function.comp_apply, DecoderRepair.outline] at hid hids ⊢
      rw [hid, hids]

/-- Symbols do not tell whether the matrix of coefficients can be inverted. -/
theorem isUnit_outline (h : d'.outline = d.outline) (hd : IsUnit (coefficientMatrix g d)) :
    IsUnit (coefficientMatrix g d') := by
  have hmatrix : coefficientMatrix g d' = (coefficientMatrix g d).submatrix
      (finCongr (size_outline h)) (finCongr (size_outline h)) :=
    Matrix.ext fun row col => congrArg Gf.mk (coefficientAt_outline h row col)
  rw [hmatrix, Matrix.isUnit_submatrix_equiv]
  exact hd

theorem enoughRepairs_outline (h : d'.outline = d.outline) :
    d'.enoughRepairs = d.enoughRepairs := by
  have hempty : ∀ m : OrdMap ℕ DecoderRepair, m.isEmpty = decide (m.size = 0) := fun m => by
    rw [OrdMap.isEmpty, OrdMap.size]
    cases m.entries <;> rfl
  rw [enoughRepairs, enoughRepairs, hempty, hempty, size_outline h, (outline_eq_iff.mp h).1]

theorem rowsOf_outline (h : d'.outline = d.outline) (coeffs : List (BitVec w.bits)) :
    (d'.rowsOf coeffs).map (Prod.map id DecoderRepair.outline) =
      (d.rowsOf coeffs).map (Prod.map id DecoderRepair.outline) := by
  have hentries := congrArg (fun o => o.2.entries.map Prod.snd) h
  simp only [outline, OrdMap.map, List.map_map] at hentries
  rw [rowsOf, rowsOf, ← List.zip_map_right, ← List.zip_map_right, List.map_map, List.map_map]
  exact congrArg _ hentries

theorem recovers_outline {i : ℕ} {coeffs : List (BitVec w.bits)} (h : d'.outline = d.outline)
    (hr : Recovers g d.missingSources.keys i (d.rowsOf coeffs)) :
    Recovers g d'.missingSources.keys i (d'.rowsOf coeffs) := by
  intro y hy
  rw [(outline_eq_iff.mp h).1] at hy
  have hrows := congrArg (List.map fun row => coefficientOf g row.2 y * (⟨row.1⟩ : Gf g))
    (rowsOf_outline h coeffs)
  rw [List.map_map, List.map_map] at hrows
  exact (congrArg List.sum hrows).trans (hr y hy)

theorem decodeSize_outline (h : d'.outline = d.outline) (coeffs : List (BitVec w.bits)) :
    decodeSize g (d'.rowsOf coeffs) = decodeSize g (d.rowsOf coeffs) := by
  have hmap : ∀ rows : List (BitVec w.bits × DecoderRepair),
      decodeSize g (rows.map (Prod.map id DecoderRepair.outline)) = decodeSize g rows := fun rows =>
    List.foldl_map
  rw [← hmap, rowsOf_outline h, hmap]

theorem solvable_outline (h : d'.outline = d.outline) (hs : d.Solvable g) : d'.Solvable g := by
  intro i hi
  rw [(outline_eq_iff.mp h).1] at hi
  obtain ⟨coeffs, hlen, hc⟩ := hs i hi
  exact ⟨coeffs, by rw [hlen, size_outline h], recovers_outline h hc⟩

/-- What a full decoding relies on does not depend on symbols. -/
theorem attemptFits_outline (h : d'.outline = d.outline) (hf : d.AttemptFits g)
    (hnew : ∀ i, d.missingSources.contains i = true → d.sources.contains i = false →
      d'.sources.contains i = false) : d'.AttemptFits g := by
  have hm := (outline_eq_iff.mp h).1
  refine ⟨by rw [size_outline h, hm, hf.square], hm ▸ hf.several, fun hs i hi => ?_,
    fun hs i hi coeffs hlen hc row hrow hne => ?_⟩
  · rw [hm] at hi
    exact hnew i hi (hf.unknown (solvable_outline h.symm hs) i hi)
  · have hmem := List.mem_map_of_mem (f := Prod.map id DecoderRepair.outline) hrow
    rw [rowsOf_outline h] at hmem
    obtain ⟨row', hrow', heq⟩ := List.mem_map.mp hmem
    obtain ⟨hcoef, hout⟩ := Prod.mk.inj heq
    have hcoef : row'.1 = row.1 := hcoef
    rw [decodeSize_outline h, ← DecoderRepair.symbolSize_outline hout]
    exact hf.aligned (solvable_outline h.symm hs) i (hm ▸ hi) coeffs
      (by rw [hlen, size_outline h]) (recovers_outline h.symm hc) row' hrow' (by rwa [hcoef])

/-- What the cascade relies on does not depend on symbols. -/
theorem cascadeFits_outline (h : d'.outline = d.outline) (hs : d'.sources = d.sources)
    (hl : d'.lastId = d.lastId) (hf : d.CascadeFits g) : d'.CascadeFits g := by
  have hready : ∀ k ρ r', d'.readyAt k = some (ρ, r') → ∃ r, d.readyAt k = some (ρ, r) ∧
      r.outline = r'.outline := fun k ρ r' hk => readyAt_outline h.symm hk
  refine ⟨(spaced_outline h).mpr hf.spaced, fun k ρ r' hk => ?_, fun k ρ r' hk => ?_,
    fun k ρ r' hk => ?_⟩
  · obtain ⟨r, hk, -⟩ := hready k ρ r' hk
    rw [outdated_congr hl]
    exact hf.recent k ρ r hk
  · obtain ⟨r, hk, -⟩ := hready k ρ r' hk
    rw [hs]
    exact hf.unknown k ρ r hk
  · obtain ⟨r, hk, hout⟩ := hready k ρ r' hk
    have hfits := hf.fits k ρ r hk
    rw [FitsIn, DecoderRepair.symbolSize_outline hout] at hfits
    rwa [FitsIn, ← decodedSize_outline hout]

end Netcode.Detail.Decoder
