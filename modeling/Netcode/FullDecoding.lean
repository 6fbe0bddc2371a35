import Netcode.FullDecoding.Coefficients
import Netcode.FullDecoding.Flushing

/-! A full decoding decodes all missing sources, each right, from the inverse of the matrix. -/
namespace Netcode.Detail.Decoder

open Containers Encodings Runs

variable {w : FieldSize} {b : Build} {g : GfComplete w} {d d' : Decoder w} {inv : SquareMatrix w}
  {D : ℕ → Option (List Byte)}

/-- All stored repairs are right, under their identifiers. -/
def AllRight (g : GfComplete w) (D : ℕ → Option (List Byte)) (d : Decoder w) : Prop :=
  ∀ ρ r, d.repairs.find? ρ = some r → r.id = ρ ∧ r.Right g D

/-- What a full decoding that succeeds makes of the sources: those of `ids` are known and intact,
the other ones are kept. -/
def Restores (D : ℕ → Option (List Byte)) (ids : List ℕ) (d d' : Decoder w) : Prop :=
  ∀ k, (k ∈ ids → ∃ src, d'.sources.find? k = some src ∧ src.id = k ∧ src.Intact D) ∧
    (k ∉ ids → d'.sources.find? k = d.sources.find? k)

theorem Restores.insert {ids : List ℕ} {src : DecoderSource} {u v : Decoder w}
    (hu : Restores D ids d u) (hsources : v.sources = u.sources.insert src.id src)
    (hintact : src.Intact D) : Restores D (ids ++ [src.id]) d v := by
  intro k
  rw [hsources, OrdMap.find?_insert, List.mem_append, List.mem_singleton]
  split
  · next hk => exact ⟨fun _ => ⟨src, rfl, hk.symm, hintact⟩, fun h => absurd (Or.inr hk) h⟩
  · next hk =>
    exact ⟨fun h => (hu k).1 (h.resolve_right hk), fun h => (hu k).2 fun hmem => h (Or.inl hmem)⟩

/-- A missing source whose symbol can be decoded becomes known. -/
theorem decodeColumn_ok {u : Decoder w} {i x : ℕ} {symbol : List Byte} (huinv : u.inv = inv)
    (hfilled : inv.Filled d.repairs.size) (hxsize : x < d.repairs.size) (hup : u.Pointed)
    (h32 : i < 2 ^ 32) (hunknown : u.sources.contains i = false)
    (hsymbol : decodeSymbol b g (decodeSize g (d.inverseRows g inv x)).toNat
      (d.inverseRows g inv x) = .ok symbol) :
    ∃ v, decodeColumn b g (d.repairs.entries.map Prod.snd) u (i, x) = .ok v ∧ v.inv = inv ∧
      v.Pointed ∧ v.sources = u.sources.insert i
        ⟨i, symbol, (decodeSize g (d.inverseRows g inv x)).toNat⟩ := by
  obtain ⟨v, hv, hvp, hsources⟩ : ∃ v, u.insertDecoded b
        ⟨i, symbol, (decodeSize g (d.inverseRows g inv x)).toNat⟩ = .ok v ∧ v.Pointed ∧
      v.sources = u.sources.insert i ⟨i, symbol, (decodeSize g (d.inverseRows g inv x)).toNat⟩ :=
    insertDecoded_returns hup h32 hunknown
  refine ⟨v, ?_, ?_, hvp, hsources⟩
  · rw [decodeColumn, decodingRows_ok (g := g) huinv hfilled hxsize, ok_bind]
    simp only [hsymbol, ok_bind, hv]
  · obtain ⟨⟨c, f, o, s, rfl⟩, -⟩ := insertDecoded_decoding hv
    exact huinv

/-- Decoding all missing sources with coefficients that solve the repairs is exact. -/
theorem decodeAll_exact (hw : w ≠ .w32) (hD : ∀ i x, D i = some x → Sendable w x)
    (hright : d.AllRight g D) (hinv : d.inv = inv) (hfilled : inv.Filled d.repairs.size)
    (hle : d.missingSources.size ≤ d.repairs.size) (hp : d.Pointed)
    (h32 : ∀ k, d.missingSources.contains k = true → k < 2 ^ 32)
    (hnew : ∀ k, d.missingSources.contains k = true → d.sources.contains k = false)
    (hsolve : ∀ x i, d.missingSources.keys[x]? = some i →
      Solves g d.missingSources.keys i (d.inverseRows g inv x)) :
    ∃ d', d.decodeAll b g = .ok d' ∧ d'.repairs = OrdMap.empty ∧
      d'.missingSources = OrdMap.empty ∧ Restores D d.missingSources.keys d d' := by
  have hkeys : d.missingSources.keys.zipIdx.map Prod.fst = d.missingSources.keys := by simp
  have hrun := foldlM_ok_induction (l := d.missingSources.keys.zipIdx) (s := d)
    (f := decodeColumn b g (d.repairs.entries.map Prod.snd))
    (fun l u => u.inv = inv ∧ u.Pointed ∧ ∃ done, d.missingSources.keys.zipIdx = done ++ l ∧
      Restores D (done.map Prod.fst) d u) ?_ ⟨hinv, hp, [], rfl, fun k => ⟨?_, fun _ => rfl⟩⟩
  · obtain ⟨u, hu, -, -, done, hdone, hrestores⟩ := hrun
    rw [List.append_nil] at hdone
    rw [← hdone, hkeys] at hrestores
    exact ⟨{ u with
      nbDecoded := u.nbDecoded + d.missingSources.size
      repairs := OrdMap.empty
      missingSources := OrdMap.empty }, by rw [decodeAll, hu, ok_bind], rfl, rfl, hrestores⟩
  · rintro ⟨i, x⟩ l u ⟨huinv, hup, done, hdone, hrestores⟩
    have hmem : (i, x) ∈ d.missingSources.keys.zipIdx := by
      rw [hdone]
      exact List.mem_append_right _ List.mem_cons_self
    have hx : d.missingSources.keys[x]? = some i := List.mem_zipIdx_iff_getElem?.mp hmem
    obtain ⟨hxlt, hxi⟩ := List.getElem?_eq_some_iff.mp hx
    have hmissing : d.missingSources.contains i = true :=
      OrdMap.contains_iff_mem_keys.mpr (hxi ▸ List.getElem_mem hxlt)
    have hidone : i ∉ done.map Prod.fst := by
      intro hmem
      have hnd := d.missingSources.keys_nodup
      rw [← hkeys, hdone, List.map_append, List.map_cons] at hnd
      exact List.disjoint_of_nodup_append hnd hmem List.mem_cons_self
    have hxsize : x < d.repairs.size := by
      have hlen : d.missingSources.keys.length = d.missingSources.size := List.length_map _
      omega
    have hrows : ∀ row ∈ d.inverseRows g inv x, row.2.Right g D := by
      intro row hrow
      obtain ⟨ρ, hρ⟩ := inverseRows_stored hrow
      exact (hright ρ _ hρ).2
    have hunknown : u.sources.contains i = false := by
      rw [OrdMap.contains_eq_false_iff, (hrestores i).2 hidone]
      exact OrdMap.contains_eq_false_iff.mp (hnew i hmissing)
    obtain ⟨symbol, hsymbol, hintact⟩ := (hsolve x i hx).decode (b := b) hw hD hrows
    obtain ⟨v, hv, hvinv, hvp, hsources⟩ := decodeColumn_ok (b := b) huinv hfilled hxsize hup
      (h32 i hmissing) hunknown hsymbol
    refine ⟨v, hv, hvinv, hvp, done ++ [(i, x)], by rw [hdone, List.append_assoc]; rfl, ?_⟩
    rw [List.map_append]
    exact Restores.insert hrestores hsources hintact
  · exact fun hk => absurd hk List.not_mem_nil

/-- With assertions, full decoding is attempted with as many repairs as missing sources, at least
two. -/
theorem square_of_asserts (hb : b.asserts = true) (henough : d.enoughRepairs = true)
    (h : d.attemptFullDecoding b g = .ok d') :
    2 ≤ d.missingSources.size ∧ d.repairs.size = d.missingSources.size := by
  simp only [attemptFullDecoding, henough, Bool.not_true, Bool.false_eq_true, if_false,
    bind_ok_iff, Build.assert_ok_iff, hb, forall_const, decide_eq_true_eq] at h
  obtain ⟨-, hsize, -, hn, -⟩ := h
  exact ⟨hn, hsize.symm⟩

/-- What a full decoding does once the matrix is inverted. -/
theorem attemptFullDecoding_eq (hn : 2 ≤ d.missingSources.size)
    (hsize : d.repairs.size = d.missingSources.size) : ∃ (blamed : Option ℕ) (m : Matrices w),
      d.attemptFullDecoding b g = (match blamed with
        | some k => dropFaulty k { d with coefficients := m.mat, inv := m.inv }
        | none => decodeAll b g { d with coefficients := m.mat, inv := m.inv }) ∧
      m.inv.Filled d.repairs.size ∧ (blamed = none ∨ blamed = some (d.repairs.size - 1)) ∧
      (blamed = none ↔ IsUnit (coefficientMatrix g d)) ∧
      (blamed = none → (∀ ρ r, d.repairs.find? ρ = some r → r.id = ρ) → ∀ x i,
        d.missingSources.keys[x]? = some i →
          Recovers g d.missingSources.keys i (d.inverseRows g m.inv x)) := by
  obtain ⟨coefficients, hfill, hfilled, hmatrix⟩ := fillCoefficients_filled (g := g) hsize
  have hdim : (d.inv.resize coefficients.dimension).dimension = d.repairs.size := hfilled.dimension
  obtain ⟨blamed, m, hinv, hm, hblamed, hunit, -⟩ := invert_spec (b := b) (g := g)
    (by omega) hfilled hdim (by rw [length_resize, hfilled.dimension])
  have hnonempty : d.repairs.isEmpty = false ∧ d.missingSources.isEmpty = false := by
    have hpos : 0 < d.missingSources.entries.length := by
      rw [OrdMap.size] at hn
      omega
    have hpos' : 0 < d.repairs.entries.length := by
      rw [OrdMap.size] at hsize
      omega
    exact ⟨by simpa [OrdMap.isEmpty] using List.ne_nil_of_length_pos hpos',
      by simpa [OrdMap.isEmpty] using List.ne_nil_of_length_pos hpos⟩
  have henough : d.enoughRepairs = true := by
    rw [enoughRepairs, hnonempty.1, hnonempty.2, decide_eq_true hsize.ge]
    rfl
  refine ⟨blamed, m, ?_, hm, hblamed, hmatrix ▸ hunit, ?_⟩
  · rw [attemptFullDecoding, henough, Build.assert_eq_ok (decide_eq_true hsize.symm),
      Build.assert_eq_ok (decide_eq_true (show 1 < d.missingSources.size by omega))]
    simp only [Bool.not_true, Bool.false_eq_true, if_false, ok_bind, hfill]
    rw [hinv]
    cases blamed <;> rfl
  · rintro rfl hids x i hx
    exact recovers_of_invert hsize.ge hids hfill hinv hx

/-- A full decoding is exact, whatever the relative lengths of the sources and of the repairs'
symbols: when the coefficient matrix is invertible, all missing sources and no others become known,
each with its original size and bytes, and no repair or missing source is left. -/
theorem attemptFullDecoding_exact (hw : w ≠ .w32) (hD : ∀ i x, D i = some x → Sendable w x)
    (hn : 2 ≤ d.missingSources.size) (hsize : d.repairs.size = d.missingSources.size)
    (hlinked : d.Linked) (hright : d.AllRight g D) (hp : d.Pointed)
    (h32 : ∀ k, d.missingSources.contains k = true → k < 2 ^ 32)
    (hunit : IsUnit (coefficientMatrix g d)) :
    ∃ d', d.attemptFullDecoding b g = .ok d' ∧ d'.repairs = OrdMap.empty ∧
      d'.missingSources = OrdMap.empty ∧ Restores D d.missingSources.keys d d' := by
  obtain ⟨blamed, m, heq, hm, -, hiff, hsolve⟩ := attemptFullDecoding_eq (b := b) (g := g) hn hsize
  obtain rfl := hiff.mpr hunit
  rw [heq]
  have hids := fun ρ r hr => (hright ρ r hr).1
  exact decodeAll_exact (d := { d with coefficients := m.mat, inv := m.inv }) hw hD hright rfl hm
    hsize.ge hp h32 hlinked.disjoint fun x i hx => (hsolve rfl hids x i hx).solves hlinked hx

/-- Two sources of different lengths. -/
def lostPair : List EncoderSource := [⟨0, [1]⟩, ⟨1, [2, 3]⟩]

theorem lostPair_sendable : ∀ s ∈ lostPair, Sendable .w4 s.symbol := by decide

/-- The repair of both with an identifier, its encoded size and its symbol. -/
def pairRepair (id : ℕ) (encodedSize : BitVec 16) (symbol : List Byte) : EncoderRepair :=
  ⟨id, ⟨[0, 1], by decide⟩, encodedSize, symbol⟩

/-- A decoder with two repairs of two missing sources. -/
def pairDecoder : Decoder .w4 := { initial true with
  repairs := (OrdMap.empty.insert 0 ((pairRepair 0 11#16 [11, 12]).received [])).insert 1
    ((pairRepair 1 6#16 [6, 8]).received [7])
  missingSources := (OrdMap.empty.insert 0 ⟨[0, 1], by decide⟩).insert 1 ⟨[0, 1], by decide⟩ }

theorem pairDecoder_repairs {ρ : ℕ} {r : DecoderRepair} (h : pairDecoder.repairs.find? ρ = some r) :
    ρ = 0 ∧ r = (pairRepair 0 11#16 [11, 12]).received [] ∨
      ρ = 1 ∧ r = (pairRepair 1 6#16 [6, 8]).received [7] := by
  simp only [pairDecoder, OrdMap.find?_insert, OrdMap.find?_empty] at h
  split_ifs at h with h1 h0
  · exact Or.inr ⟨h1, (Option.some.inj h).symm⟩
  · exact Or.inl ⟨h0, (Option.some.inj h).symm⟩

theorem pairDecoder_missing {i : ℕ} {cits : FlatSet ℕ}
    (h : pairDecoder.missingSources.find? i = some cits) :
    (i = 0 ∨ i = 1) ∧ cits = ⟨[0, 1], by decide⟩ := by
  simp only [pairDecoder, OrdMap.find?_insert, OrdMap.find?_empty] at h
  split_ifs at h with h1 h0
  · exact ⟨Or.inr h1, (Option.some.inj h).symm⟩
  · exact ⟨Or.inl h0, (Option.some.inj h).symm⟩

theorem linked_pairDecoder : pairDecoder.Linked := by
  refine ⟨?_, ?_, fun i _ => rfl⟩
  · rintro i ρ ⟨r, hr, hi⟩
    have hmem : i ∈ [0, 1] := by rcases pairDecoder_repairs hr with ⟨-, rfl⟩ | ⟨-, rfl⟩ <;> exact hi
    have hρ : ρ ∈ [0, 1] := by
      rcases pairDecoder_repairs hr with ⟨rfl, -⟩ | ⟨rfl, -⟩ <;> decide
    simp only [List.mem_cons, List.not_mem_nil, or_false] at hmem
    rcases hmem with rfl | rfl <;> exact ⟨_, rfl, hρ⟩
  · rintro i ρ ⟨cits, hc, hρ⟩
    obtain ⟨hi, rfl⟩ := pairDecoder_missing hc
    have hmem : i ∈ [0, 1] := by rcases hi with rfl | rfl <;> decide
    have hρ' : ρ ∈ [0, 1] := hρ
    simp only [List.mem_cons, List.not_mem_nil, or_false] at hρ'
    rcases hρ' with rfl | rfl <;> exact ⟨_, rfl, hmem⟩

theorem combines_pairRepair {id : ℕ} {z : BitVec 16} {symbol : List Byte}
    (h : Encoder.encode .debug gf16 ⟨id, FlatSet.empty, 0#16, []⟩ lostPair =
      .ok (pairRepair id z symbol)) (rest : List Byte) :
    ((pairRepair id z symbol).received rest).Right gf16 (dataOfSources lostPair) := by
  have hdistinct : (lostPair.map EncoderSource.id).Nodup := by decide
  obtain ⟨r, hr, hencodes⟩ := Encoder.encode_encodes (b := .debug) (g := gf16)
    (by decide : lostPair ≠ []) lostPair_sendable
    (rfl : EncoderRepair.id ⟨id, FlatSet.empty, 0#16, []⟩ = id) rfl
  rw [h] at hr
  cases hr
  exact EncoderRepair.received_right
    (hencodes.combines (by decide) lostPair_sendable (fun s => dataOfSources_mem hdistinct)
      hdistinct) rest

theorem isUnit_pairDecoder : IsUnit (coefficientMatrix gf16 pairDecoder) := by
  rw [Matrix.isUnit_iff_isUnit_det, isUnit_iff_ne_zero]
  intro h
  have hdet := congrArg Gf.word ((Matrix.det_fin_two (R := Gf gf16) _).symm.trans h)
  revert hdet
  decide +kernel

/-- Two sources of different lengths are decoded from two repairs of both. -/
theorem attemptFullDecoding_exact_pair : ∃ d',
    pairDecoder.attemptFullDecoding .checked gf16 = .ok d' ∧ d'.repairs = OrdMap.empty ∧
      d'.missingSources = OrdMap.empty ∧
      Restores (dataOfSources lostPair) pairDecoder.missingSources.keys pairDecoder d' := by
  refine attemptFullDecoding_exact (by decide) (fun i x hx => ?_) (by decide) rfl
    linked_pairDecoder (fun ρ r hr => ?_) (fun k hk => by cases hk) (fun k hk => ?_)
    isUnit_pairDecoder
  · obtain ⟨s, hs, -, rfl⟩ := dataOfSources_some hx
    exact lostPair_sendable s hs
  · rcases pairDecoder_repairs hr with ⟨rfl, rfl⟩ | ⟨rfl, rfl⟩
    · exact ⟨rfl, combines_pairRepair (by decide +kernel) []⟩
    · exact ⟨rfl, combines_pairRepair (by decide +kernel) [7]⟩
  · obtain ⟨cits, hc⟩ := OrdMap.contains_iff.mp hk
    obtain ⟨rfl | rfl, -⟩ := pairDecoder_missing hc <;> decide

end Netcode.Detail.Decoder
