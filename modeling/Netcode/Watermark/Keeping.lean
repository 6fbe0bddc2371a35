import Netcode.AtMostOnce

/-! A source the decoder knows stays known as long as it is not outdated, and only a repair makes
the decoder move its oldest identifier. -/
namespace Netcode.Detail.Decoder

open Containers Runs

variable {w : FieldSize} {b : Build} {g : GfComplete w}

variable {d d' d0 d1 : Decoder w} {src : DecoderSource} {r : DecoderRepair} {p : Incoming} {i : ℕ}

/-- The delivery mode and the oldest identifier to keep stay, and so do the known sources. -/
structure Keeps (d d' : Decoder w) : Prop where
  inOrder : d'.inOrder = d.inOrder
  lastId : d'.lastId = d.lastId
  sources : ∀ i x, d.sources.find? i = some x → d'.sources.find? i = some x

theorem Keeps.refl (d : Decoder w) : d.Keeps d := ⟨rfl, rfl, fun _ _ => id⟩

theorem Keeps.trans (h : d.Keeps d1) (h' : d1.Keeps d') : d.Keeps d' :=
  ⟨h'.inOrder.trans h.inOrder, h'.lastId.trans h.lastId,
    fun i x hx => h'.sources i x (h.sources i x hx)⟩

theorem contains_keeps (h : d.Keeps d') (hi : d.sources.contains i = true) :
    d'.sources.contains i = true := by
  obtain ⟨x, hx⟩ := OrdMap.contains_iff.mp hi
  exact OrdMap.contains_iff.mpr ⟨x, h.sources i x hx⟩

theorem keeps_of_eq (hio : d'.inOrder = d.inOrder) (hl : d'.lastId = d.lastId)
    (hs : d'.sources = d.sources) : d.Keeps d' :=
  ⟨hio, hl, fun i x hx => by rwa [hs]⟩

theorem keeps_delivers (h : d.Delivers d') : d.Keeps d' :=
  keeps_of_eq (inOrder_delivers h) (lastId_delivers h) (sources_delivers h)

/-- A source is only inserted under the identifier of an unknown one. -/
theorem keeps_insert (hi : d.sources.find? i = none ∨ d.sources.find? i = some src) :
    d.Keeps { d with sources := d.sources.insert i src } := by
  refine ⟨rfl, rfl, fun j x hx => ?_⟩
  show (d.sources.insert i src).find? j = some x
  rw [OrdMap.find?_insert]
  split
  · next heq =>
    rcases hi with hi | hi
    · rw [heq, hi] at hx
      cases hx
    · rw [heq, hi] at hx
      exact hx
  · exact hx

theorem keeps_store (h : d.store b src = .ok d') : d.Keeps d' := by
  have heq := (store_spec h).2
  by_cases hc : d.sources.contains src.id = true
  · exact keeps_of_eq (by rw [heq]) (by rw [heq]) (by rw [heq, if_pos hc])
  · have hnone := OrdMap.contains_eq_false_iff.mp (eq_false_of_ne_true hc)
    have hinsert : d.Keeps { d with sources := d.sources.insert src.id src } :=
      keeps_insert (Or.inl hnone)
    exact hinsert.trans (keeps_of_eq (by rw [heq]) (by rw [heq]) (by rw [heq, if_neg hc]))

theorem keeps_insertDecoded (h : d.insertDecoded b src = .ok d') : d.Keeps d' := by
  obtain ⟨inserted, d1, hins, rfl, hcases⟩ := insertDecoded_cases h
  have hsame : d.sources.find? src.id = none ∨ d.sources.find? src.id = some inserted := by
    cases hf : d.sources.find? src.id with
    | none => exact Or.inl rfl
    | some x => exact Or.inr (by rw [hins, hf, Option.getD_some])
  have hinsert := keeps_insert hsame
  rcases hcases with ⟨-, rfl⟩ | ⟨-, -, hf⟩ | ⟨-, -, rfl⟩
  · exact hinsert.trans (keeps_of_eq rfl rfl rfl)
  · have hcall : d.Keeps (callback inserted { d with
        sources := d.sources.insert src.id inserted }).advance :=
      hinsert.trans (keeps_of_eq rfl rfl rfl)
    exact hcall.trans (keeps_delivers (flushOrderedSources_delivers hf))
  · exact hinsert.trans (keeps_of_eq rfl rfl rfl)

theorem keeps_rule (d0 : Decoder w) :
    PeelRule b g (fun _ _ d => d0.Keeps d) (fun _ d => d0.Keeps d) where
  add hP _ ho hs := by
    have heq := (stripFromRepairs_spec hs).1
    exact (hP.trans (keeps_delivers (offer_delivers ho))).trans
      (keeps_of_eq (by rw [heq]) (by rw [heq]) (by rw [heq]))
  decode hI _ _ _ _ _ _ := hI.trans (keeps_of_eq rfl rfl rfl)
  store hI h := hI.trans (keeps_store h)

theorem keeps_attemptFullDecoding (h : d.attemptFullDecoding b g = .ok d') : d.Keeps d' := by
  rcases attemptFullDecoding_cases h with
    ⟨rfl, -⟩ | ⟨-, _, _, m, -, -, ⟨k, -, hf⟩ | ⟨-, ha⟩⟩
  · exact Keeps.refl d'
  · obtain ⟨_, _, -, heq, -⟩ := dropFaulty_spec hf
    exact keeps_of_eq (by rw [heq]) (by rw [heq]) (by rw [heq])
  · obtain ⟨d1, h1, rfl⟩ := decodeAll_cases ha
    have hstart : d.Keeps { d with coefficients := m.mat, inv := m.inv } :=
      keeps_of_eq rfl rfl rfl
    have hloop := foldlM_invariant (f := decodeColumn b g _) (fun u => d.Keeps u) ?_ hstart h1
    · exact hloop.trans (keeps_of_eq rfl rfl rfl)
    · intro miss _ u v hu hv
      obtain ⟨_, _, -, -, hins⟩ := decodeColumn_cases hv
      exact hu.trans (keeps_insertDecoded hins)

/-- Only a repair moves the oldest identifier to keep, to the first one it lists, and only the
sources before it are forgotten. -/
theorem receive_keeps (hL : d.ListedStored) (h : d.receive b g p = .ok d') : d.Keeps d' ∨
    ∃ r, p = .repair r ∧ firstId r ∈ r.sourceIds ∧ d'.inOrder = d.inOrder ∧
      d'.lastId = some (firstId r) ∧ ∀ i x, firstId r ≤ i → d.sources.find? i = some x →
        d'.sources.find? i = some x := by
  cases p with
  | source src =>
    left
    rcases receiveSource_cases h with ⟨rfl, -⟩ | ⟨-, -, d1, h1, h2⟩
    · exact Keeps.refl d'
    · exact ((keeps_rule d).addSource hL (Keeps.refl d) h1).trans (keeps_attemptFullDecoding h2)
  | repair r =>
    obtain ⟨hne, ⟨rfl, -⟩ | ⟨hacc, hcases⟩⟩ := receiveRepair_cases h
    · exact Or.inl (Keeps.refl d')
    · have hfirst : firstId r ∈ r.sourceIds := by
        rw [firstId, FlatSet.mem_iff]
        cases hl : r.sourceIds.toList with
        | nil => exact absurd hl hne
        | cons a l => exact List.mem_cons_self
      have hmoved : ∀ u : Decoder w, Drops (firstId r) d u → u.Keeps d' →
          d'.inOrder = d.inOrder ∧ d'.lastId = some (firstId r) ∧
          ∀ i x, firstId r ≤ i → d.sources.find? i = some x → d'.sources.find? i = some x := by
        intro u hdrops hkeeps
        refine ⟨hkeeps.inOrder.trans hdrops.inOrder, hkeeps.lastId.trans hdrops.lastId,
          fun i x hle hx => hkeeps.sources i x ?_⟩
        rw [hdrops.sources, OrdMap.find?_eraseBelow, if_pos hle, hx]
      refine Or.inr ⟨r, rfl, hfirst, ?_⟩
      rcases hcases with ⟨d1, h1, -, rfl⟩ | ⟨d1, d2, r2, ha, h2⟩
      · obtain ⟨-, -, -, -, -, hdrops⟩ := dropOutdated_cases h1
        exact hmoved d1 hdrops (keeps_of_eq rfl rfl rfl)
      · have hA := ha.accepted (contains_of_accepts hacc)
        have hkeeps : d1.Keeps d2 :=
          keeps_of_eq (by rw [hA.frame]) (by rw [hA.frame]) (by rw [hA.frame])
        refine hmoved d1 hA.drops (hkeeps.trans ?_)
        rcases h2 with ⟨hone, src, hc, hadd⟩ | ⟨-, hfull⟩
        · exact (keeps_rule d2).addSource (listedStored_removeDecoded (hA.listedStored hL) hA.stored
            (createSourceFromRepair_only hc hone)) (keeps_of_eq rfl rfl rfl) hadd
        · exact keeps_attemptFullDecoding hfull

theorem inOrder_receive (hL : d.ListedStored) (h : d.receive b g p = .ok d') :
    d'.inOrder = d.inOrder := by
  rcases receive_keeps hL h with hkeeps | ⟨-, -, -, hio, -⟩
  · exact hkeeps.inOrder
  · exact hio

/-- A source that is no longer known is outdated. -/
theorem outdated_of_forgotten (hL : d.ListedStored) (h : d.receive b g p = .ok d')
    (hi : d.sources.contains i = true) (hgone : d'.sources.contains i = false) :
    d'.outdated i = true := by
  obtain ⟨x, hx⟩ := OrdMap.contains_iff.mp hi
  have hnone := OrdMap.contains_eq_false_iff.mp hgone
  rcases receive_keeps hL h with hkeeps | ⟨r, -, -, -, hlast, hkept⟩
  · rw [hkeeps.sources i x hx] at hnone
    cases hnone
  · rw [outdated_some hlast, decide_eq_true_eq]
    by_contra hle
    rw [hkept i x (not_lt.mp hle) hx] at hnone
    cases hnone

end Netcode.Detail.Decoder
