import Netcode.FullDecoding

/-! The repair a failed full decoding erases. -/
namespace Netcode.Detail.Decoder

open Containers Combinations Runs SquareMatrix

variable {w : FieldSize} {b : Build} {g : GfComplete w} {d d' : Decoder w}

/-- The coefficients of a repair for the missing sources. -/
def missingVector (g : GfComplete w) (d : Decoder w) (r : DecoderRepair) (i : ℕ) : Gf g :=
  if d.missingSources.contains i = true then coefficientOf g r i else 0

/-- The coefficients of the repairs a decoder keeps for the missing sources of another one. -/
def keptVectors (g : GfComplete w) (d d' : Decoder w) : Set (ℕ → Gf g) :=
  {v | ∃ ρ r, d'.repairs.find? ρ = some r ∧ v = d.missingVector g r}

/-- The stored repair of a column. -/
def repairAt (d : Decoder w) (col : Fin d.repairs.size) : DecoderRepair := d.repairs.entries[col].2

theorem repairAt_find (col : Fin d.repairs.size) :
    d.repairs.find? d.repairs.entries[col].1 = some (d.repairAt col) :=
  OrdMap.mem_entries_iff.mp (List.getElem_mem col.isLt)

/-- A combination of the columns is, row by row, that of the repairs' vectors. -/
theorem mulVec_apply (hids : ∀ ρ r, d.repairs.find? ρ = some r → r.id = ρ)
    (v : Fin d.repairs.size → Gf g) {row : Fin d.repairs.size} {i : ℕ}
    (hi : d.missingSources.keys[row.val]? = some i) : (coefficientMatrix g d).mulVec v row =
      (∑ col, v col • d.missingVector g (d.repairAt col)) i := by
  have hmem : d.missingSources.contains i = true :=
    OrdMap.contains_iff_mem_keys.mpr (List.mem_of_getElem? hi)
  rw [Matrix.mulVec, dotProduct, Finset.sum_apply]
  refine Finset.sum_congr rfl fun col _ => ?_
  have hentry : coefficientMatrix g d row col = d.missingVector g (d.repairAt col) i := by
    rw [missingVector, if_pos hmem]
    exact coefficientAt_eq hi (List.getElem?_eq_getElem col.isLt) (hids _ _ (repairAt_find col))
  exact (congrArg (· * v col) hentry).trans (mul_comm _ _)

/-- A combination of the columns vanishes with that of the repairs' vectors. -/
theorem mulVec_eq_zero_iff (hsize : d.repairs.size = d.missingSources.size)
    (hids : ∀ ρ r, d.repairs.find? ρ = some r → r.id = ρ) (v : Fin d.repairs.size → Gf g) :
    (coefficientMatrix g d).mulVec v = 0 ↔
      ∑ col, v col • d.missingVector g (d.repairAt col) = 0 := by
  have hkeys : d.missingSources.keys.length = d.missingSources.size := List.length_map _
  constructor
  · intro h
    funext i
    by_cases hi : d.missingSources.contains i = true
    · obtain ⟨row, hrow, hkey⟩ := List.mem_iff_getElem.mp (OrdMap.contains_iff_mem_keys.mp hi)
      have hrow' : row < d.repairs.size := by omega
      have hat : d.missingSources.keys[(⟨row, hrow'⟩ : Fin d.repairs.size).val]? = some i :=
        List.getElem?_eq_some_iff.mpr ⟨hrow, hkey⟩
      rw [← mulVec_apply hids v hat, h]
      rfl
    · rw [Finset.sum_apply]
      refine Finset.sum_eq_zero fun col _ => ?_
      rw [Pi.smul_apply, missingVector, if_neg hi, smul_zero]
  · intro h
    funext row
    have hrow : row.val < d.missingSources.keys.length := by
      have := row.isLt
      omega
    rw [mulVec_apply hids v (List.getElem?_eq_getElem hrow), h]
    rfl

/-- The last column. -/
def lastColumn (d : Decoder w) (hn : 0 < d.repairs.size) : Fin d.repairs.size :=
  ⟨d.repairs.size - 1, Nat.sub_lt hn Nat.one_pos⟩

/-- A failed full decoding erases the last repair, whichever made the inversion fail. -/
theorem attemptFullDecoding_drops_last (hn : 2 ≤ d.missingSources.size)
    (hsize : d.repairs.size = d.missingSources.size)
    (hsingular : ¬ IsUnit (coefficientMatrix g d)) (hpos : 0 < d.repairs.size) :
    ∃ d', d.attemptFullDecoding b g = .ok d' ∧
      d'.repairs = d.repairs.erase d.repairs.entries[d.lastColumn hpos].1 := by
  obtain ⟨blamed, m, heq, -, hblamed, hiff, -⟩ := attemptFullDecoding_eq (b := b) (g := g) hn hsize
  obtain rfl := hblamed.resolve_left (mt hiff.mp hsingular)
  have hlast : d.repairs.entries[d.repairs.size - 1]? =
      some d.repairs.entries[d.lastColumn hpos] :=
    List.getElem?_eq_getElem (Nat.sub_lt hpos Nat.one_pos)
  rw [heq]
  simp only [dropFaulty, hlast]
  exact ⟨_, rfl, rfl⟩

/-- The vectors kept when the last repair is erased are those of the other columns. -/
theorem keptVectors_eq (hpos : 0 < d.repairs.size)
    (h : d'.repairs = d.repairs.erase d.repairs.entries[d.lastColumn hpos].1) :
    keptVectors g d d' = (fun col => d.missingVector g (d.repairAt col)) ''
      {col | col ≠ d.lastColumn hpos} := by
  have hkey : ∀ col col' : Fin d.repairs.size,
      d.repairs.entries[col].1 = d.repairs.entries[col'].1 ↔ col = col' := by
    intro col col'
    have hcol : col.val < d.repairs.keys.length := (List.length_map _).symm ▸ col.isLt
    have hcol' : col'.val < d.repairs.keys.length := (List.length_map _).symm ▸ col'.isLt
    have hinj : d.repairs.keys[col.val] = d.repairs.keys[col'.val] ↔ col.val = col'.val :=
      d.repairs.keys_nodup.getElem_inj_iff
    rw [Fin.ext_iff, ← hinj]
    simp only [OrdMap.keys, List.getElem_map]
    rfl
  ext v
  constructor
  · rintro ⟨ρ, r, hr, rfl⟩
    rw [h, OrdMap.find?_erase] at hr
    split at hr
    · cases hr
    · next hne =>
      obtain ⟨k, hk, heq⟩ := List.mem_iff_getElem.mp (OrdMap.mem_entries_iff.mpr hr)
      refine ⟨⟨k, hk⟩, fun hlast => hne ?_, ?_⟩
      · rw [← hlast]
        exact (congrArg Prod.fst heq).symm
      · exact congrArg (fun e : ℕ × DecoderRepair => d.missingVector g e.2) heq
  · rintro ⟨col, hcol, rfl⟩
    refine ⟨d.repairs.entries[col].1, d.repairAt col, ?_, rfl⟩
    rw [h, OrdMap.find?_erase_ne (mt (hkey col _).mp hcol)]
    exact repairAt_find col

/-- A failed full decoding loses no information if and only if some combination of the columns that
vanishes has a coefficient for the last repair, the one it erases: otherwise this repair is no
combination of those kept. -/
theorem attemptFullDecoding_redundant_iff (hn : 2 ≤ d.missingSources.size)
    (hsize : d.repairs.size = d.missingSources.size)
    (hids : ∀ ρ r, d.repairs.find? ρ = some r → r.id = ρ)
    (hsingular : ¬ IsUnit (coefficientMatrix g d)) (hpos : 0 < d.repairs.size) :
    ∃ d' ρ r, d.attemptFullDecoding b g = .ok d' ∧ d.repairs.find? ρ = some r ∧
      d'.repairs = d.repairs.erase ρ ∧
      (d.missingVector g r ∈ Submodule.span (Gf g) (keptVectors g d d') ↔
        ∃ v, (coefficientMatrix g d).mulVec v = 0 ∧ v (d.lastColumn hpos) ≠ 0) := by
  obtain ⟨d', hd', hrepairs⟩ := attemptFullDecoding_drops_last (b := b) hn hsize hsingular hpos
  refine ⟨d', _, d.repairAt (d.lastColumn hpos), hd', repairAt_find _, hrepairs, ?_⟩
  rw [keptVectors_eq hpos hrepairs, mem_span_others_iff
    (fun col => d.missingVector g (d.repairAt col)) (d.lastColumn hpos)]
  exact exists_congr fun v => and_congr_left fun _ => (mulVec_eq_zero_iff hsize hids v).symm

/-- A repair of three sources of one zero byte. -/
def zerosRepair (id : ℕ) (encodedSize : BitVec 16) : DecoderRepair :=
  ⟨id, ⟨[0, 1, 2], by decide⟩, encodedSize, [0], 1⟩

/-- A decoder with three repairs of three missing sources, of which the first two have the same
coefficients. -/
def faultyDecoder : Decoder .w4 := { initial false with
  repairs := ((OrdMap.empty.insert 0 (zerosRepair 0 2#16)).insert 15 (zerosRepair 15 2#16)).insert 16
    (zerosRepair 16 5#16)
  missingSources := ((OrdMap.empty.insert 0 ⟨[0, 15, 16], by decide⟩).insert 1
    ⟨[0, 15, 16], by decide⟩).insert 2 ⟨[0, 15, 16], by decide⟩ }

theorem faultyDecoder_repairs {ρ : ℕ} {r : DecoderRepair}
    (h : faultyDecoder.repairs.find? ρ = some r) :
    ρ = 0 ∧ r = zerosRepair 0 2#16 ∨ ρ = 15 ∧ r = zerosRepair 15 2#16 ∨
      ρ = 16 ∧ r = zerosRepair 16 5#16 := by
  simp only [faultyDecoder, OrdMap.find?_insert, OrdMap.find?_empty] at h
  split_ifs at h with h16 h15 h0
  · exact Or.inr (Or.inr ⟨h16, (Option.some.inj h).symm⟩)
  · exact Or.inr (Or.inl ⟨h15, (Option.some.inj h).symm⟩)
  · exact Or.inl ⟨h0, (Option.some.inj h).symm⟩

theorem faultyDecoder_missing {i : ℕ} {cits : FlatSet ℕ}
    (h : faultyDecoder.missingSources.find? i = some cits) :
    (i = 0 ∨ i = 1 ∨ i = 2) ∧ cits = ⟨[0, 15, 16], by decide⟩ := by
  simp only [faultyDecoder, OrdMap.find?_insert, OrdMap.find?_empty] at h
  split_ifs at h with h2 h1 h0
  · exact ⟨Or.inr (Or.inr h2), (Option.some.inj h).symm⟩
  · exact ⟨Or.inr (Or.inl h1), (Option.some.inj h).symm⟩
  · exact ⟨Or.inl h0, (Option.some.inj h).symm⟩

theorem faultyDecoder_ids (ρ : ℕ) (r : DecoderRepair)
    (h : faultyDecoder.repairs.find? ρ = some r) : r.id = ρ := by
  rcases faultyDecoder_repairs h with ⟨rfl, rfl⟩ | ⟨rfl, rfl⟩ | ⟨rfl, rfl⟩ <;> rfl

theorem linked_faultyDecoder : faultyDecoder.Linked := by
  refine ⟨?_, ?_, fun i _ => rfl⟩
  · rintro i ρ ⟨r, hr, hi⟩
    have hmem : i ∈ [0, 1, 2] := by
      rcases faultyDecoder_repairs hr with ⟨-, rfl⟩ | ⟨-, rfl⟩ | ⟨-, rfl⟩ <;> exact hi
    have hρ : ρ ∈ [0, 15, 16] := by
      rcases faultyDecoder_repairs hr with ⟨rfl, -⟩ | ⟨rfl, -⟩ | ⟨rfl, -⟩ <;> decide
    simp only [List.mem_cons, List.not_mem_nil, or_false] at hmem
    rcases hmem with rfl | rfl | rfl <;> exact ⟨_, rfl, hρ⟩
  · rintro i ρ ⟨cits, hc, hρ⟩
    obtain ⟨hi, rfl⟩ := faultyDecoder_missing hc
    have hmem : i ∈ [0, 1, 2] := by rcases hi with rfl | rfl | rfl <;> decide
    have hρ' : ρ ∈ [0, 15, 16] := hρ
    simp only [List.mem_cons, List.not_mem_nil, or_false] at hρ'
    rcases hρ' with rfl | rfl | rfl <;> exact ⟨_, rfl, hmem⟩

/-- Two of its columns are the same. -/
theorem faultyDecoder_singular : ¬ IsUnit (coefficientMatrix gf16 faultyDecoder) := by
  rw [Matrix.isUnit_iff_isUnit_det, isUnit_iff_ne_zero, not_not]
  refine Matrix.det_zero_of_column_eq (i := ⟨0, by decide⟩) (j := ⟨1, by decide⟩) (by decide) ?_
  have hsame : ∀ row < 3, faultyDecoder.coefficientAt row 0 = faultyDecoder.coefficientAt row 1 := by
    decide +kernel
  exact fun row => Gf.ext (hsame row.val row.isLt)

theorem attemptFullDecoding_redundant_iff_faulty : ∃ d' ρ r,
    faultyDecoder.attemptFullDecoding .debug gf16 = .ok d' ∧
    faultyDecoder.repairs.find? ρ = some r ∧ d'.repairs = faultyDecoder.repairs.erase ρ ∧
    (faultyDecoder.missingVector gf16 r ∈
        Submodule.span (Gf gf16) (keptVectors gf16 faultyDecoder d') ↔
      ∃ v, (coefficientMatrix gf16 faultyDecoder).mulVec v = 0 ∧
        v (faultyDecoder.lastColumn (by decide)) ≠ 0) :=
  attemptFullDecoding_redundant_iff (by decide) (by decide) faultyDecoder_ids faultyDecoder_singular
    (by decide)

/-- A combination of two coefficients that vanishes for the repairs 0 and 15 only. -/
noncomputable def separator : (ℕ → Gf gf16) →ₗ[Gf gf16] Gf gf16 :=
  (⟨4#4⟩ : Gf gf16) • LinearMap.proj 0 + (⟨3#4⟩ : Gf gf16) • LinearMap.proj 1

/-- The repair erased is no combination of those kept. -/
theorem faultyDecoder_loses : faultyDecoder.Linked ∧
    faultyDecoder.repairs.size = faultyDecoder.missingSources.size ∧
    2 ≤ faultyDecoder.missingSources.size ∧ ¬ IsUnit (coefficientMatrix gf16 faultyDecoder) ∧
    ∃ d', faultyDecoder.attemptFullDecoding .release gf16 = .ok d' ∧
      d'.repairs = faultyDecoder.repairs.erase 16 ∧
      faultyDecoder.missingVector gf16 (zerosRepair 16 5#16) ∉
        Submodule.span (Gf gf16) (keptVectors gf16 faultyDecoder d') := by
  obtain ⟨d', hd', hrepairs⟩ := attemptFullDecoding_drops_last (b := .release) (by decide) (by decide)
    faultyDecoder_singular (by decide)
  refine ⟨linked_faultyDecoder, by decide, by decide, faultyDecoder_singular, d', hd', hrepairs, ?_⟩
  have hkept : Submodule.span (Gf gf16) (keptVectors gf16 faultyDecoder d') ≤
      LinearMap.ker separator := by
    rw [Submodule.span_le]
    rintro v ⟨ρ, r, hr, rfl⟩
    rw [hrepairs, OrdMap.find?_erase] at hr
    split at hr
    · cases hr
    · next hne =>
      rw [SetLike.mem_coe, LinearMap.mem_ker]
      rcases faultyDecoder_repairs hr with ⟨-, rfl⟩ | ⟨-, rfl⟩ | ⟨hρ, -⟩
      · exact Gf.ext (by decide +kernel)
      · exact Gf.ext (by decide +kernel)
      · exact absurd hρ hne
  intro hmem
  have hzero := congrArg Gf.word (LinearMap.mem_ker.mp (hkept hmem))
  revert hzero
  decide +kernel

end Netcode.Detail.Decoder
