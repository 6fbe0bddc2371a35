import Netcode.Peeling

/-! What receiving a source or a repair can do, case by case. -/
namespace Netcode.Detail.Decoder

open Containers Runs

variable {w : FieldSize} {b : Build} {g : GfComplete w} {d d' : Decoder w}
  {src : DecoderSource} {r : DecoderRepair} {p : Incoming} {i k ρ : ℕ}

/-- The sources decoded by full decoding, the links to be cleared once they all are. -/
def Decoding (d d' : Decoder w) : Prop := ∃ c f o s, d' = { d with
  callbacks := c, firstMissingSourceInOrder := f, orderedSources := o, sources := s }

theorem Decoding.refl (d : Decoder w) : Decoding d d := ⟨_, _, _, _, rfl⟩

theorem Decoding.trans {d1 d2 : Decoder w} (h : Decoding d d1) (h' : Decoding d1 d2) :
    Decoding d d2 := by
  obtain ⟨c, f, o, s, rfl⟩ := h
  obtain ⟨c', f', o', s', rfl⟩ := h'
  exact ⟨c', f', o', s', rfl⟩

theorem Decoding.of_delivers {d1 d2 : Decoder w} (h : Decoding d d1) (h' : d1.Delivers d2) :
    Decoding d d2 := by
  obtain ⟨c, f, o, rfl⟩ := h'
  exact h.trans ⟨c, f, o, _, rfl⟩

/-- A source decoded by full decoding is known, then given to callback or made to wait. -/
theorem insertDecoded_cases (h : d.insertDecoded b src = .ok d') :
    ∃ inserted d1, inserted = (d.sources.find? src.id).getD src ∧
      d1 = { d with sources := d.sources.insert src.id inserted } ∧
      (d.inOrder = false ∧ d' = d1.callback inserted ∨
        d.inOrder = true ∧ src.id = d.firstMissingSourceInOrder ∧
          (d1.callback inserted).advance.flushOrderedSources b = .ok d' ∨
        d.inOrder = true ∧ src.id ≠ d.firstMissingSourceInOrder ∧
          d' = { d1 with orderedSources := d.orderedSources.insert src.id }) := by
  simp only [insertDecoded, bind_ok_iff] at h
  obtain ⟨-, -, h⟩ := h
  refine ⟨_, _, rfl, rfl, ?_⟩
  cases hio : d.inOrder with
  | false =>
    simp only [hio] at h
    cases h
    exact Or.inl ⟨rfl, rfl⟩
  | true =>
    right
    simp only [hio, Bool.not_true, Bool.false_eq_true, if_false] at h
    split at h
    · next hid => exact Or.inl ⟨rfl, hid, h⟩
    · next hid =>
      cases h
      exact Or.inr ⟨rfl, hid, rfl⟩

theorem insertDecoded_decoding (h : d.insertDecoded b src = .ok d') :
    Decoding d d' ∧ ∀ i, d'.sources.contains i = true ↔ i = src.id ∨ d.sources.contains i = true := by
  obtain ⟨inserted, d1, -, rfl, hcases⟩ := insertDecoded_cases h
  have hins : ∀ i, (d.sources.insert src.id inserted).contains i = true ↔
      i = src.id ∨ d.sources.contains i = true := by
    intro i
    simp [OrdMap.contains_insert]
  rcases hcases with ⟨-, rfl⟩ | ⟨-, -, hf⟩ | ⟨-, -, rfl⟩
  · exact ⟨⟨_, _, _, _, rfl⟩, hins⟩
  · have hdel := flushOrderedSources_delivers hf
    refine ⟨Decoding.of_delivers ⟨_, _, _, _, rfl⟩ hdel, fun i => ?_⟩
    rw [sources_delivers hdel]
    exact hins i
  · exact ⟨⟨_, _, _, _, rfl⟩, hins⟩

theorem decodeColumn_cases {index : List DecoderRepair} {miss : ℕ × ℕ}
    (h : decodeColumn b g index d miss = .ok d') : ∃ rows symbol,
      d.decodingRows index miss.2 = .ok rows ∧
      decodeSymbol b g (decodeSize g rows).toNat rows = .ok symbol ∧
      d.insertDecoded b ⟨miss.1, symbol, (decodeSize g rows).toNat⟩ = .ok d' := by
  simp only [decodeColumn, bind_ok_iff] at h
  obtain ⟨rows, hrows, symbol, hsymbol, h⟩ := h
  exact ⟨rows, symbol, hrows, hsymbol, h⟩

/-- All missing sources become known, and there are no more repairs. -/
theorem decodeAll_cases (h : d.decodeAll b g = .ok d') : ∃ d1 : Decoder w,
    d.missingSources.keys.zipIdx.foldlM (decodeColumn b g (d.repairs.entries.map Prod.snd)) d
      = .ok d1 ∧
    d' = { d1 with
      nbDecoded := d1.nbDecoded + d.missingSources.size
      repairs := OrdMap.empty
      missingSources := OrdMap.empty } := by
  simp only [decodeAll, bind_ok_iff, Except.ok.injEq] at h
  obtain ⟨d1, h1, h2⟩ := h
  exact ⟨d1, h1, h2.symm⟩

theorem decodeLoop_decoding {index : List DecoderRepair} {l : List (ℕ × ℕ)}
    (h : l.foldlM (decodeColumn b g index) d = .ok d') : Decoding d d' ∧
      ∀ i, d'.sources.contains i = true ↔ i ∈ l.map Prod.fst ∨ d.sources.contains i = true := by
  induction l generalizing d with
  | nil =>
    cases h
    exact ⟨Decoding.refl _, fun i => by simp⟩
  | cons a l ih =>
    rw [List.foldlM_cons] at h
    obtain ⟨d1, h1, h2⟩ := bind_ok_iff.mp h
    obtain ⟨rows, symbol, -, -, hins⟩ := decodeColumn_cases h1
    obtain ⟨hd1, hs1⟩ := insertDecoded_decoding hins
    obtain ⟨hd2, hs2⟩ := ih h2
    refine ⟨hd1.trans hd2, fun i => ?_⟩
    rw [hs2, hs1, List.map_cons, List.mem_cons]
    tauto

theorem decodeAll_decoding (h : d.decodeAll b g = .ok d') : ∃ c f o s n, d' = { d with
      callbacks := c, firstMissingSourceInOrder := f, orderedSources := o, sources := s
      nbDecoded := n, repairs := OrdMap.empty, missingSources := OrdMap.empty } ∧
    ∀ i, d'.sources.contains i = true ↔
      d.missingSources.contains i = true ∨ d.sources.contains i = true := by
  obtain ⟨d1, h1, rfl⟩ := decodeAll_cases h
  obtain ⟨⟨c, f, o, s, rfl⟩, hs⟩ := decodeLoop_decoding h1
  refine ⟨c, f, o, s, _, rfl, fun i => ?_⟩
  rw [OrdMap.contains_iff_mem_keys (m := d.missingSources)]
  have hkeys : d.missingSources.keys.zipIdx.map Prod.fst = d.missingSources.keys := by
    simp
  rw [← hkeys]
  exact hs i

/-- A full decoding is not attempted, fails and drops a repair, or decodes all missing sources. -/
theorem attemptFullDecoding_cases (h : d.attemptFullDecoding b g = .ok d') :
    d' = d ∧ d.enoughRepairs = false ∨
    d.enoughRepairs = true ∧ ∃ coefficients rCol m, d.fillCoefficients = .ok coefficients ∧
      invert b g coefficients (d.inv.resize coefficients.dimension) = .ok (rCol, m) ∧
      ((∃ k, rCol = some k ∧
          dropFaulty k { d with coefficients := m.mat, inv := m.inv } = .ok d') ∨
        rCol = none ∧ decodeAll b g { d with coefficients := m.mat, inv := m.inv } = .ok d') := by
  rw [attemptFullDecoding] at h
  cases he : d.enoughRepairs with
  | false =>
    simp only [he, Bool.not_false, if_true, Except.ok.injEq] at h
    exact Or.inl ⟨h.symm, rfl⟩
  | true =>
    simp only [he, Bool.not_true, Bool.false_eq_true, if_false, bind_ok_iff] at h
    obtain ⟨-, -, -, -, coefficients, hc, ⟨rCol, m⟩, hinv, h⟩ := h
    refine Or.inr ⟨rfl, coefficients, rCol, m, hc, hinv, ?_⟩
    cases rCol with
    | some k => exact Or.inl ⟨k, rfl, h⟩
    | none => exact Or.inr ⟨rfl, h⟩

theorem receiveSource_cases (h : d.receiveSource b g src = .ok d') :
    d' = d ∧ (d.outdated src.id = true ∨ d.sources.contains src.id = true) ∨
    d.outdated src.id = false ∧ d.sources.contains src.id = false ∧
      ∃ d1, d.addSourceRecursive b g src = .ok d1 ∧ d1.attemptFullDecoding b g = .ok d' := by
  rw [receiveSource] at h
  cases ho : d.outdated src.id with
  | true =>
    simp only [ho, if_true, Except.ok.injEq] at h
    exact Or.inl ⟨h.symm, Or.inl rfl⟩
  | false =>
    cases hs : d.sources.contains src.id with
    | true =>
      simp only [ho, hs, Bool.false_eq_true, if_false, if_true, Except.ok.injEq] at h
      exact Or.inl ⟨h.symm, Or.inr rfl⟩
    | false =>
      simp only [ho, hs, Bool.false_eq_true, if_false, bind_ok_iff] at h
      exact Or.inr ⟨rfl, rfl, h⟩

/-- The identifier of the oldest source a repair encodes. -/
def firstId (r : DecoderRepair) : ℕ := r.sourceIds.toList.headD 0

/-- A repair is neither outdated nor a duplicate. -/
def accepts (d : Decoder w) (r : DecoderRepair) : Bool :=
  !d.outdated (r.sourceIds.toList.getLastD 0) && !d.repairs.contains r.id

/-- The identifiers of the missing sources a repair references. -/
def unknown (d : Decoder w) (r : DecoderRepair) : FlatSet ℕ :=
  r.sourceIds.filter fun i => !d.sources.contains i

/-- What is done with a repair that is neither outdated nor a duplicate: outdated sources and
repairs are dropped, then it is useless, or linked and used. -/
structure Accepts (b : Build) (g : GfComplete w) (r : DecoderRepair) (first : ℕ)
    (d d1 d2 : Decoder w) (r2 : DecoderRepair) : Prop where
  drop : d.dropOutdated b first = .ok d1
  useful : d1.useless r = false
  link : r.sourceIds.toList.reverse.foldlM (Decoder.link b g r.id)
    { d1 with repairs := d1.repairs.insert r.id r } = .ok d2
  linked : d2.repairs.find? r.id = some r2

theorem receiveRepair_cases (h : d.receiveRepair b g r = .ok d') : r.sourceIds.toList ≠ [] ∧
    (d' = d ∧ d.accepts r = false ∨ d.accepts r = true ∧
      ((∃ d1, d.dropOutdated b (firstId r) = .ok d1 ∧ d1.useless r = true ∧
          d' = { d1 with nbUselessRepairs := d1.nbUselessRepairs + 1 }) ∨
        ∃ d1 d2 r2, Accepts b g r (firstId r) d d1 d2 r2 ∧
          (r2.sourceIds.size = 1 ∧ (∃ src, createSourceFromRepair b g r2 = .ok src ∧
              (d2.removeDecoded src.id r.id).addSourceRecursive b g src = .ok d') ∨
            r2.sourceIds.size ≠ 1 ∧ d2.attemptFullDecoding b g = .ok d'))) := by
  simp only [receiveRepair, bind_ok_iff] at h
  obtain ⟨-, -, h⟩ := h
  cases hl : r.sourceIds.toList with
  | nil => simp [hl] at h
  | cons first rest =>
    refine ⟨List.cons_ne_nil _ _, ?_⟩
    have hfirst : firstId r = first := by rw [firstId, hl, List.headD_cons]
    have hlast : r.sourceIds.toList.getLastD 0 =
        (first :: rest).getLast (List.cons_ne_nil _ _) := by
      rw [hl, List.getLastD_cons, List.getLast_eq_getLastD]
    simp only [hl] at h
    rw [accepts, hlast, hfirst]
    cases ho : d.outdated ((first :: rest).getLast (List.cons_ne_nil _ _)) with
    | true =>
      rw [ho, if_pos rfl] at h
      cases h
      exact Or.inl ⟨rfl, rfl⟩
    | false =>
      rw [ho, if_neg Bool.false_ne_true] at h
      cases hc : d.repairs.contains r.id with
      | true =>
        rw [hc, if_pos rfl] at h
        cases h
        exact Or.inl ⟨rfl, rfl⟩
      | false =>
        rw [hc, if_neg Bool.false_ne_true] at h
        obtain ⟨d1, h1, h⟩ := bind_ok_iff.mp h
        refine Or.inr ⟨rfl, ?_⟩
        cases hu : d1.useless r with
        | true =>
          rw [hu, if_pos rfl] at h
          cases h
          exact Or.inl ⟨d1, h1, hu, rfl⟩
        | false =>
          rw [hu, if_neg Bool.false_ne_true] at h
          simp only [addRepair, bind_ok_iff] at h
          obtain ⟨-, -, d2, h2, h⟩ := h
          rw [useRepair] at h
          cases hf : d2.repairs.find? r.id with
          | none => simp [hf] at h
          | some r2 =>
            simp only [hf, bind_ok_iff] at h
            obtain ⟨-, -, h⟩ := h
            refine Or.inr ⟨d1, d2, r2, ⟨h1, hu, hl ▸ h2, hf⟩, ?_⟩
            split at h
            · next hone => exact Or.inl ⟨hone, bind_ok_iff.mp h⟩
            · next hone => exact Or.inr ⟨hone, h⟩

theorem contains_of_accepts (h : d.accepts r = true) : d.repairs.contains r.id = false := by
  rw [accepts, Bool.and_eq_true, Bool.not_eq_true', Bool.not_eq_true'] at h
  exact h.2

/-- A repair that is not useless keeps at least one source. -/
theorem exists_unknown (h : d.useless r = false) :
    ∃ i, i ∈ r.sourceIds ∧ d.sources.contains i = false := by
  rw [useless, List.all_eq_false] at h
  obtain ⟨i, hi, hunknown⟩ := h
  exact ⟨i, hi, by simpa using hunknown⟩

/-- While a known source is still to be removed from it, an incoming repair lists several. -/
theorem Linking.several {u : Decoder w} {q : DecoderRepair} {l : List ℕ} {a ρ : ℕ}
    (hu : Linking ρ r d (a :: l) u) (ha : a ∈ r.sourceIds) (hknown : d.sources.contains a = true)
    (huseful : d.useless r = false) (hq : u.repairs.find? ρ = some q) : 1 < q.sourceIds.size := by
  obtain ⟨q', hq', hids⟩ := hu.repair
  rw [hq] at hq'
  cases hq'
  obtain ⟨i, hi, hunknown⟩ := exists_unknown huseful
  refine FlatSet.one_lt_size ((hids a).mpr ⟨ha, Or.inl List.mem_cons_self⟩)
    ((hids i).mpr ⟨hi, Or.inr hunknown⟩) ?_
  rintro rfl
  rw [hknown] at hunknown
  cases hunknown

end Netcode.Detail.Decoder
