import Netcode.Robustness.Receiving

/-! When adding a source or a full decoding gives a source to the callback. -/
namespace Netcode.Detail.Decoder

open Containers Runs

variable {w : FieldSize} {b : Build} {g : GfComplete w} {d d' d1 d2 : Decoder w}
  {src : DecoderSource} {r : DecoderRepair} {k m n ρ first : ℕ}

/-- A source was given to the callback. -/
def Gave (d d' : Decoder w) : Prop := d.callbacks.length < d'.callbacks.length

/-- A source was given to the callback, or the first missing source is the same. -/
def Advances (d d' : Decoder w) : Prop := Gave d d' ∨ d'.callbacks = d.callbacks ∧
  d'.firstMissingSourceInOrder = d.firstMissingSourceInOrder

theorem Advances.refl (d : Decoder w) : Advances d d := Or.inr ⟨rfl, rfl⟩

theorem Advances.le (h : Advances d d') : d.callbacks.length ≤ d'.callbacks.length :=
  h.elim le_of_lt fun h => (congrArg List.length h.1).ge

theorem Advances.trans (h : Advances d d1) (h' : Advances d1 d') : Advances d d' := by
  rcases h with h | ⟨hc, hf⟩
  · exact Or.inl (lt_of_lt_of_le h h'.le)
  · rcases h' with h' | ⟨hc', hf'⟩
    · exact Or.inl (lt_of_eq_of_lt (congrArg List.length hc).symm h')
    · exact Or.inr ⟨hc'.trans hc, hf'.trans hf⟩

theorem Gave.trans_advances (h : Gave d d1) (h' : Advances d1 d') : Gave d d' :=
  lt_of_lt_of_le h h'.le

theorem Advances.trans_gave (h : Advances d d1) (h' : Gave d1 d') : Gave d d' :=
  lt_of_le_of_lt h.le h'

theorem gave_callback (src : DecoderSource) (d : Decoder w) : Gave d (d.callback src) := by
  rw [Gave, callback, List.length_append]
  exact Nat.lt_succ_self _

theorem length_flush (h : d.flushOrderedSources b = .ok d') :
    d.callbacks.length ≤ d'.callbacks.length := by
  refine flushOrderedSources_rule (fun u => d.callbacks.length ≤ u.callbacks.length)
    (fun u v hu _ hv => ?_) le_rfl h
  obtain ⟨src, -, rfl⟩ := sweep_ok_iff.mp hv
  exact hu.trans (gave_callback src u).le

theorem gave_give (h : (d.callback src).advance.flushOrderedSources b = .ok d') : Gave d d' :=
  lt_of_lt_of_le (gave_callback src d) (length_flush (d := (d.callback src).advance) h)

theorem offer_advances (h : d.offer b src = .ok d') : Advances d d' := by
  rcases offer_cases h with ⟨-, rfl⟩ | ⟨-, ⟨-, hf⟩ | ⟨-, rfl⟩⟩
  · exact Or.inl (gave_callback src d)
  · exact Or.inl (gave_give hf)
  · exact Advances.refl d'

theorem store_advances (h : d.store b src = .ok d') : Advances d d' := by
  rw [(store_spec h).2]
  exact Or.inr ⟨rfl, rfl⟩

theorem strip_advances (h : d.stripFromRepairs b g src = .ok d') : Advances d d' := by
  rw [(stripFromRepairs_spec h).1]
  exact Or.inr ⟨rfl, rfl⟩

theorem advances_rule (d0 : Decoder w) :
    PeelRule b g (fun _ _ d => Advances d0 d) (fun _ d => Advances d0 d) where
  add hP _ ho hs := (hP.trans (offer_advances ho)).trans (strip_advances hs)
  decode hI _ _ _ _ _ _ := hI.trans (Or.inr ⟨rfl, rfl⟩)
  store hI h := hI.trans (store_advances h)

theorem decodeLeast_advances (hL : d.ListedStored)
    (h : d.decodeLeast b g (peel b g n) = .ok d') : Advances d d' := by
  obtain ⟨rfl, -⟩ | ⟨y, ρ, r, -, -, -, -, hL1, hp⟩ := decodeLeast_step hL h
  · exact Advances.refl d'
  · exact @PeelRule.peel w b g _ d' y n _ _ [] (advances_rule d) hL1 (Or.inr ⟨rfl, rfl⟩) hp

/-- The first missing source is given when it can be decoded. -/
theorem decodeLeast_gives (hL : d.ListedStored)
    (hready : d.readyAt d.firstMissingSourceInOrder ≠ none)
    (h : d.decodeLeast b g (peel b g n) = .ok d') : Gave d d' := by
  induction n generalizing d d' with
  | zero =>
    obtain ⟨rfl, hno⟩ | ⟨m, y, ρ, r, d1, d2, hm, -⟩ := decodeLeast_cases hL h
    · exact absurd (hno _) hready
    · cases hm
  | succ n ih =>
    obtain ⟨rfl, hno⟩ | ⟨m, y, ρ, r, d1, d2, hm, hk, -, ho, hL1, h1, h2⟩ := decodeLeast_cases hL h
    · exact absurd (hno _) hready
    cases hm
    have hrest : Advances d1 d' := (decodeLeast_advances hL1 h1).trans (store_advances h2)
    rcases offer_cases ho with ⟨-, rfl⟩ | ⟨-, ⟨-, hf⟩ | ⟨hne, rfl⟩⟩
    · exact (gave_callback (d := d.removeDecoded y.id ρ) y).trans_advances hrest
    · exact (gave_give (d := d.removeDecoded y.id ρ) hf).trans_advances hrest
    · -- Another one is decoded before, and leaves it as it is.
      obtain ⟨-, hother⟩ := readyAt_decoded hL hk (offer_delivers ho)
      have hgave := ih hL1 (by rw [hother _ hne.symm]; exact hready) h1
      exact Gave.trans_advances (d := d) hgave (store_advances h2)

/-- What adding a source gives. -/
theorem addSource_gives (hL : d.ListedStored) (h : d.addSourceRecursive b g src = .ok d') :
    Advances d d' ∧
    ((d.inOrder = true → src.id = d.firstMissingSourceInOrder ∨
      (d.withoutSource g src).readyAt d.firstMissingSourceInOrder ≠ none) → Gave d d') := by
  have hadvances := (advances_rule d).addSource hL (Advances.refl d) h
  rw [addSourceRecursive_eq_peel hL] at h
  simp only [peel, bind_ok_iff] at h
  obtain ⟨d1, ho, d2, hs, d3, h3, h4⟩ := h
  have hdel := offer_delivers ho
  have hL1 := listedStored_delivers hdel hL
  have hL2 := listedStored_strip hL1 hs
  have hout : d2.outline = (d.withoutSource g src).outline :=
    (outline_strip hs).trans (outline_withoutSource (repairs_delivers hdel) (missing_delivers hdel))
  refine ⟨hadvances, fun hgive => ?_⟩
  have hstripped := strip_advances hs
  have hrest : Advances d2 d' := (decodeLeast_advances hL2 h3).trans (store_advances h4)
  rcases offer_cases ho with ⟨-, rfl⟩ | ⟨hio, ⟨-, hf⟩ | ⟨hne, rfl⟩⟩
  · exact (gave_callback src d).trans_advances (hstripped.trans hrest)
  · exact (gave_give hf).trans_advances (hstripped.trans hrest)
  · have hready := (hgive hio).resolve_left hne
    have hfirst : d2.firstMissingSourceInOrder = d1.firstMissingSourceInOrder := by
      rw [(stripFromRepairs_spec hs).1]
    have hgave : Gave d2 d3 := decodeLeast_gives hL2 (by
      rw [hfirst, Ne, readyAt_none_outline hout]
      exact hready) h3
    exact hstripped.trans_gave (hgave.trans_advances (store_advances h4))

theorem insertDecoded_advances (h : d.insertDecoded b src = .ok d') : Advances d d' := by
  obtain ⟨inserted, d1, -, rfl, ⟨-, rfl⟩ | ⟨-, -, hf⟩ | ⟨-, -, rfl⟩⟩ := insertDecoded_cases h
  · exact Or.inl (gave_callback (d := { d with sources := d.sources.insert src.id inserted }) inserted)
  · exact Or.inl (gave_give (d := { d with sources := d.sources.insert src.id inserted }) hf)
  · exact Or.inr ⟨rfl, rfl⟩

theorem insertDecoded_gives (hgive : d.inOrder = true → src.id = d.firstMissingSourceInOrder)
    (h : d.insertDecoded b src = .ok d') : Gave d d' := by
  obtain ⟨inserted, d1, -, rfl, ⟨-, rfl⟩ | ⟨-, -, hf⟩ | ⟨hio, hne, -⟩⟩ := insertDecoded_cases h
  · exact gave_callback (d := { d with sources := d.sources.insert src.id inserted }) inserted
  · exact gave_give (d := { d with sources := d.sources.insert src.id inserted }) hf
  · exact absurd (hgive hio) hne

/-- The first missing source is given when it is one of those decoded. -/
theorem decodeLoop_gives {index : List DecoderRepair} {l : List (ℕ × ℕ)} (hne : l ≠ [])
    (hgive : d.inOrder = true → ∃ x ∈ l, x.1 = d.firstMissingSourceInOrder)
    (h : l.foldlM (decodeColumn b g index) d = .ok d') : Gave d d' := by
  induction l generalizing d with
  | nil => exact absurd rfl hne
  | cons a l ih =>
    rw [List.foldlM_cons] at h
    obtain ⟨d1, h1, h2⟩ := bind_ok_iff.mp h
    obtain ⟨rows, symbol, -, -, hins⟩ := decodeColumn_cases h1
    have hrest : Advances d1 d' := by
      refine foldlM_invariant (fun u => Advances d1 u) (fun x _ u v hu hv => ?_)
        (Advances.refl d1) h2
      obtain ⟨_, _, -, -, hv⟩ := decodeColumn_cases hv
      exact hu.trans (insertDecoded_advances hv)
    by_cases ha : d.inOrder = true → a.1 = d.firstMissingSourceInOrder
    · exact (insertDecoded_gives ha hins).trans_advances hrest
    · push Not at ha
      obtain ⟨hio, hne⟩ := ha
      rcases insertDecoded_advances hins with hgave | ⟨hc, hf⟩
      · exact hgave.trans_advances hrest
      · obtain ⟨x, hx, hfirst⟩ := hgive hio
        have hxl : x ∈ l := (List.mem_cons.mp hx).resolve_left fun heq => hne (heq ▸ hfirst)
        refine Advances.trans_gave (Or.inr ⟨hc, hf⟩) (ih (List.ne_nil_of_mem hxl) (fun _ => ?_) h2)
        exact ⟨x, hxl, hfirst.trans hf.symm⟩

/-- All missing sources can be decoded together: there are as many repairs, several of both, and
the matrix of their coefficients can be inverted. -/
structure Completes (g : GfComplete w) (d : Decoder w) : Prop where
  square : d.repairs.size = d.missingSources.size
  several : 1 < d.missingSources.size
  unit : IsUnit (coefficientMatrix g d)

/-- Symbols do not tell whether all missing sources can be decoded together. -/
theorem completes_outline (h : d'.outline = d.outline) (hd : d.Completes g) : d'.Completes g := by
  have hm := (outline_eq_iff.mp h).1
  exact ⟨by rw [size_outline h, hm, hd.square], by rw [hm]; exact hd.several,
    isUnit_outline h hd.unit⟩

theorem attemptFullDecoding_advances (h : d.attemptFullDecoding b g = .ok d') : Advances d d' := by
  rcases attemptFullDecoding_cases h with
    ⟨rfl, -⟩ | ⟨-, _, _, m, -, -, ⟨k, -, hf⟩ | ⟨-, ha⟩⟩
  · exact Advances.refl d'
  · obtain ⟨_, _, -, heq, -⟩ := dropFaulty_spec hf
    rw [heq]
    exact Or.inr ⟨rfl, rfl⟩
  · obtain ⟨d1, h1, rfl⟩ := decodeAll_cases ha
    have hstart : Advances d { d with coefficients := m.mat, inv := m.inv } := Or.inr ⟨rfl, rfl⟩
    have hloop := foldlM_invariant (f := decodeColumn b g _) (fun u => Advances d u)
      (fun x _ u v hu hv => ?_) hstart h1
    · exact hloop.trans (Or.inr ⟨rfl, rfl⟩)
    · obtain ⟨_, _, -, -, hv⟩ := decodeColumn_cases hv
      exact hu.trans (insertDecoded_advances hv)

theorem attemptFullDecoding_gives (hcompletes : d.Completes g)
    (hgive : d.inOrder = true → d.missingSources.contains d.firstMissingSourceInOrder = true)
    (h : d.attemptFullDecoding b g = .ok d') : Gave d d' := by
  obtain ⟨blamed, m, heq, -, -, hunit, -⟩ :=
    attemptFullDecoding_eq (b := b) (g := g) hcompletes.several hcompletes.square
  obtain rfl := hunit.mpr hcompletes.unit
  rw [heq] at h
  obtain ⟨d1, h1, rfl⟩ := decodeAll_cases h
  have hkeys : d.missingSources.keys.zipIdx.map Prod.fst = d.missingSources.keys := by simp
  have hpos := hcompletes.several
  have hloop := decodeLoop_gives (d := { d with coefficients := m.mat, inv := m.inv }) ?_
    (fun hio => ?_) h1
  · exact hloop
  · intro hnil
    have hlen := congrArg List.length hnil
    rw [List.length_zipIdx, OrdMap.keys, List.length_map, List.length_nil] at hlen
    rw [OrdMap.size, hlen] at hpos
    exact absurd hpos (by decide)
  · have hmem := OrdMap.contains_iff_mem_keys.mp (hgive hio)
    rw [← hkeys] at hmem
    exact List.mem_map.mp hmem

end Netcode.Detail.Decoder
