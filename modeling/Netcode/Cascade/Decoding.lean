import Netcode.LinkInvariant
import Netcode.Failures

/-! What decoding the first missing source that can be makes of the repairs and of the sources. -/
namespace Netcode.Detail.Decoder

open Containers Runs

variable {w : FieldSize} {b : Build} {g : GfComplete w}

variable {d d' d1 d2 : Decoder w} {src y : DecoderSource} {r : DecoderRepair} {k c ρ n : ℕ}

theorem stripFromRepairs_not_missing (h : d.missingSources.contains src.id = false) :
    d.stripFromRepairs b g src = .ok d := by
  rw [stripFromRepairs, OrdMap.contains_eq_false_iff.mp h]

/-- Decoding one missing source leaves alone the repairs of the others. -/
theorem readyAt_removeDecoded (hL : d.ListedStored) (hk : d.readyAt k = some (ρ, r))
    (hc : c ≠ k) : (d.removeDecoded k ρ).readyAt c = d.readyAt c := by
  have hne : ∀ cits, d.missingSources.find? c = some cits → ∀ ρ' ∈ cits, r.sourceIds.size = 1 →
      ρ' ≠ ρ := by
    rintro cits hm ρ' hmem hone rfl
    obtain ⟨⟨cits', hm', hc'⟩, hr, -⟩ := readyAt_eq_some.mp hk
    obtain ⟨q, hq, hcq⟩ := hL c ρ' ⟨cits, hm, hmem⟩
    obtain ⟨q', hq', hkq⟩ := hL k ρ' ⟨cits', hm', by simp [FlatSet.mem_iff, hc']⟩
    rw [hr] at hq hq'
    cases hq
    cases hq'
    obtain ⟨a, ha⟩ := FlatSet.size_eq_one_iff.mp hone
    rw [FlatSet.mem_iff, ha, List.mem_singleton] at hcq hkq
    exact hc (hcq.trans hkq.symm)
  have hone := (readyAt_eq_some.mp hk).2.2
  simp only [readyAt, removeDecoded, OrdMap.find?_erase_ne hc]
  cases hm : d.missingSources.find? c with
  | none => rfl
  | some cits =>
    dsimp only
    split
    · next ρ' hcits =>
      rw [OrdMap.find?_erase_ne (hne cits hm ρ' (by simp [FlatSet.mem_iff, hcits]) hone)]
    · rfl

/-- A nested call finds no link to the source it adds, and decodes in its turn. -/
theorem peel_nested (hk : d.missingSources.contains y.id = false)
    (h : peel b g (n + 1) y d = .ok d') : ∃ d1 d2, d.offer b y = .ok d1 ∧
      d1.decodeLeast b g (peel b g n) = .ok d2 ∧ d2.store b y = .ok d' := by
  simp only [peel, bind_ok_iff] at h
  obtain ⟨d1, ho, d1', hs, d2, h2, h3⟩ := h
  have hdel := offer_delivers ho
  rw [stripFromRepairs_not_missing (by rwa [missing_delivers hdel])] at hs
  cases hs
  exact ⟨d1, d2, ho, h2, h3⟩

theorem not_missing_removeDecoded (k ρ : ℕ) (d : Decoder w) :
    (d.removeDecoded k ρ).missingSources.contains k = false := by
  simp [removeDecoded, OrdMap.contains_erase]

/-- Nothing can be decoded, or the first missing source that can be is, then the others by the nested
call for it. -/
theorem decodeLeast_cases (hL : d.ListedStored) (h : d.decodeLeast b g (peel b g n) = .ok d') :
    d' = d ∧ (∀ k, d.readyAt k = none) ∨
    ∃ m y ρ r d1 d2, n = m + 1 ∧ d.readyAt y.id = some (ρ, r) ∧
      (∀ j < y.id, d.readyAt j = none) ∧ (d.removeDecoded y.id ρ).offer b y = .ok d1 ∧
      d1.ListedStored ∧ d1.decodeLeast b g (peel b g m) = .ok d2 ∧ d2.store b y = .ok d' := by
  obtain ⟨rfl, hno⟩ | ⟨y, ρ, r, hk, hmin, -, -, hL1, hp⟩ := decodeLeast_step hL h
  · exact Or.inl ⟨rfl, hno⟩
  · cases n with
    | zero => cases hp
    | succ m =>
      obtain ⟨d3, d4, ho, h3, h4⟩ := peel_nested (not_missing_removeDecoded _ _ _) hp
      exact Or.inr ⟨m, y, ρ, r, d3, d4, rfl, hk, hmin, ho,
        listedStored_delivers (offer_delivers ho) hL1, h3, h4⟩

/-- What could be decoded before a missing source was, it aside, still can be. -/
theorem readyAt_decoded (hL : d.ListedStored) (hk : d.readyAt k = some (ρ, r))
    (hdel : (d.removeDecoded k ρ).Delivers d1) :
    d1.readyAt k = none ∧ ∀ c ≠ k, d1.readyAt c = d.readyAt c := by
  have hcongr := readyAt_congr (repairs_delivers hdel) (missing_delivers hdel)
  refine ⟨?_, fun c hc => (hcongr c).trans (readyAt_removeDecoded hL hk hc)⟩
  rw [hcongr, readyAt, OrdMap.contains_eq_false_iff.mp (not_missing_removeDecoded _ _ _)]

/-- The entries of the missing sources that can be decoded are erased, and no others. -/
theorem decodeLeast_entries (hL : d.ListedStored) (h : d.decodeLeast b g (peel b g n) = .ok d')
    (c : ℕ) : d'.missingSources.find? c =
      if d.readyAt c = none then d.missingSources.find? c else none := by
  induction n generalizing d d' with
  | zero =>
    obtain ⟨rfl, hno⟩ | ⟨m, y, ρ, r, d1, d2, hm, -⟩ := decodeLeast_cases hL h
    · rw [if_pos (hno c)]
    · cases hm
  | succ n ih =>
    obtain ⟨rfl, hno⟩ | ⟨m, y, ρ, r, d1, d2, hm, hk, -, ho, hL1, h1, h2⟩ := decodeLeast_cases hL h
    · rw [if_pos (hno c)]
    · cases hm
      have hdel := offer_delivers ho
      obtain ⟨hgone, hother⟩ := readyAt_decoded hL hk hdel
      rw [(store_spec h2).2, ih hL1 h1, missing_delivers hdel, removeDecoded, OrdMap.find?_erase]
      by_cases hc : c = y.id
      · simp [hc, hgone, hk]
      · simp [hother c hc, hc]

/-- The missing sources that can be decoded are, and no others. -/
theorem decodeLeast_missing (hL : d.ListedStored)
    (h : d.decodeLeast b g (peel b g n) = .ok d') (c : ℕ) : d'.missingSources.contains c = true ↔
      d.missingSources.contains c = true ∧ d.readyAt c = none := by
  rw [OrdMap.contains, OrdMap.contains, decodeLeast_entries hL h]
  by_cases hc : d.readyAt c = none <;> simp [hc]

/-- The repairs of the missing sources that can be decoded are erased, and no others. -/
theorem decodeLeast_repairs (hL : d.ListedStored)
    (h : d.decodeLeast b g (peel b g n) = .ok d') : ∀ ρ r, d'.repairs.find? ρ = some r ↔
      d.repairs.find? ρ = some r ∧ ∀ k, d.readyAt k ≠ some (ρ, r) := by
  induction n generalizing d d' with
  | zero =>
    obtain ⟨rfl, hno⟩ | ⟨m, y, ρ, r, d1, d2, hm, -⟩ := decodeLeast_cases hL h
    · simp [hno]
    · cases hm
  | succ n ih =>
    obtain ⟨rfl, hno⟩ | ⟨m, y, ρ, r, d1, d2, hm, hk, -, ho, hL1, h1, h2⟩ := decodeLeast_cases hL h
    · simp [hno]
    · cases hm
      have hdel := offer_delivers ho
      obtain ⟨hgone, hother⟩ := readyAt_decoded hL hk hdel
      intro ρ' r'
      rw [(store_spec h2).2, ih hL1 h1, repairs_delivers hdel, removeDecoded, OrdMap.find?_erase]
      by_cases hρ : ρ' = ρ
      · -- The repair of the source decoded first.
        simp only [hρ, if_true, reduceCtorEq, false_and, false_iff, not_and]
        intro hf hno
        rw [(readyAt_eq_some.mp hk).2.1] at hf
        cases hf
        exact hno y.id hk
      · simp only [hρ, if_false]
        refine and_congr_right fun _ => ⟨fun hno c => ?_, fun hno c => ?_⟩
        · by_cases hc : c = y.id
          · rw [hc, hk]
            simp [Ne.symm hρ]
          · rw [← hother c hc]
            exact hno c
        · by_cases hc : c = y.id
          · rw [hc, hgone]
            simp
          · rw [hother c hc]
            exact hno c

/-- The sources decoded become known, and no others. -/
theorem decodeLeast_sources (hL : d.ListedStored) (h : d.decodeLeast b g (peel b g n) = .ok d')
    (c : ℕ) : d'.sources.contains c = true ↔
      d.readyAt c ≠ none ∨ d.sources.contains c = true := by
  induction n generalizing d d' with
  | zero =>
    obtain ⟨rfl, hno⟩ | ⟨m, y, ρ, r, d1, d2, hm, -⟩ := decodeLeast_cases hL h
    · simp [hno]
    · cases hm
  | succ n ih =>
    obtain ⟨rfl, hno⟩ | ⟨m, y, ρ, r, d1, d2, hm, hk, -, ho, hL1, h1, h2⟩ := decodeLeast_cases hL h
    · simp [hno]
    · cases hm
      have hdel := offer_delivers ho
      obtain ⟨hgone, hother⟩ := readyAt_decoded hL hk hdel
      rw [contains_store h2, ih hL1 h1, sources_delivers hdel]
      by_cases hc : c = y.id
      · simp [hc, hk]
      · simp [hother c hc, hc, removeDecoded]

end Netcode.Detail.Decoder
