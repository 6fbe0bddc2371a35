import Netcode.Acknowledgement
import Netcode.FullDecoding

/-! Whatever a decoder receives, the symbols it holds are in their buffers and the sources that wait
for the callback are known. -/
namespace Netcode

open Containers Encodings Runs

variable {w : FieldSize} {b : Build} {g : GfComplete w}

/-- The symbol of a source is in its buffer. -/
def DecoderSource.Buffered (src : DecoderSource) : Prop :=
  Fits src.id ∧ src.symbolSize ≤ src.symbol.length

/-- The symbol of a repair is in its buffer. -/
def DecoderRepair.Buffered (r : DecoderRepair) : Prop :=
  (∀ i ∈ r.sourceIds, Fits i) ∧ r.symbolSize ≤ r.symbol.length

namespace Detail.Decoder

variable {d d' d1 d2 : Decoder w} {src : DecoderSource} {r r2 : DecoderRepair} {p : Incoming}
  {pending : List DecoderSource} {k srcSz : ℕ} {symbol : List Byte}

theorem removeSourceDataFromRepair_stored (hr : r.symbolSize ≤ r.symbol.length)
    (h : removeSourceDataFromRepair b g src r = .ok r2) : r2.symbolSize ≤ r2.symbol.length := by
  simp only [removeSourceDataFromRepair, bind_ok_iff, Except.ok.injEq] at h
  obtain ⟨-, -, -, -, -, -, s, hs, rfl⟩ := h
  exact hr.trans_eq (vec_multiplyAdd hs).1.symm

theorem createSourceFromRepair_stored (h : createSourceFromRepair b g r = .ok src) :
    src.symbolSize ≤ src.symbol.length := by
  simp only [createSourceFromRepair, bind_ok_iff] at h
  obtain ⟨-, -, h⟩ := h
  cases hl : r.sourceIds.toList with
  | nil => simp [hl] at h
  | cons id l =>
    simp only [hl, bind_ok_iff, Except.ok.injEq] at h
    obtain ⟨inv, -, -, -, s, hs, rfl⟩ := h
    exact (Nat.le_add_right _ 9).trans_eq (vec_multiply hs).1.symm

theorem length_decodeSymbol {rows : List (BitVec w.bits × DecoderRepair)}
    (h : decodeSymbol b g srcSz rows = .ok symbol) : symbol.length = srcSz + 9 := by
  rw [decodeSymbol] at h
  split at h
  · simp only [bind_ok_iff] at h
    obtain ⟨-, -, h⟩ := h
    cases h
  · obtain ⟨s, hs, h⟩ := bind_ok_iff.mp h
    refine foldlM_invariant (fun u : List Byte => u.length = srcSz + 9) ?_ (vec_multiply hs).1 h
    intro row _ u v hu hv
    split at hv
    · cases hv
      exact hu
    · exact (vec_multiplyAdd hv).1.trans hu

/-- The symbols of all that a decoder holds are in their buffers. -/
abbrev Buffered (d : Decoder w) (pending : List DecoderSource) : Prop :=
  Contents DecoderSource.Buffered DecoderRepair.Buffered Fits d pending

theorem closed_buffered : Closed b g DecoderSource.Buffered DecoderRepair.Buffered Fits where
  remove _ hr _ h := by
    have hstored := removeSourceDataFromRepair_stored hr.2 h
    exact ⟨fun i hi => hr.1 i (FlatSet.mem_erase.mp hi).1, hstored⟩
  create hr hids h := ⟨hr.1 _ (by simp [FlatSet.mem_iff, hids]), createSourceFromRepair_stored h⟩
  lists hr hi := hr.1 _ hi

theorem decodesFully_buffered (hI : d.Buffered []) :
    DecodesFully b g DecoderSource.Buffered d := by
  intro _ _ _ _ _ miss hmiss _ _ _ hsymbol
  have hkey := List.mem_zipIdx' hmiss
  refine ⟨hI.missing miss.1 (OrdMap.contains_iff_mem_keys.mpr
    (hkey.2 ▸ List.getElem_mem hkey.1)), ?_⟩
  exact (Nat.le_add_right _ 9).trans_eq (length_decodeSymbol hsymbol).symm

/-- The waiting sources are known, and were so whenever the callback was called; there are none out
of order. -/
structure Queued (d : Decoder w) : Prop where
  pointed : d.Pointed
  inOrder : d.inOrder = false → d.orderedSources = FlatSet.empty
  called : ∀ c ∈ d.callbacks, ∀ i ∈ c.waiting, i ∈ c.known

theorem queued_congr (hio : d'.inOrder = d.inOrder) (ho : d'.orderedSources = d.orderedSources)
    (hs : d'.sources = d.sources) (hc : d'.callbacks = d.callbacks) (hI : d.Queued) :
    d'.Queued := by
  refine ⟨?_, by rw [hio, ho]; exact hI.inOrder, by rw [hc]; exact hI.called⟩
  rw [Pointed, ho, hs]
  exact hI.pointed

theorem queued_callback (hI : d.Queued) (src : DecoderSource) : (d.callback src).Queued := by
  refine ⟨hI.pointed, hI.inOrder, fun c hc i hi => ?_⟩
  rcases List.mem_append.mp hc with hc | hc
  · exact hI.called c hc i hi
  · rw [List.mem_singleton.mp hc] at hi ⊢
    exact OrdMap.contains_iff_mem_keys.mp (hI.pointed i (FlatSet.mem_iff.mpr hi)).1

theorem queued_sweep (hI : d.Queued) (h : d.sweep k = .ok d') : d'.Queued := by
  refine ⟨pointed_sweep hI.pointed h, fun hio => ?_, ?_⟩
  · obtain ⟨src, -, rfl⟩ := sweep_ok_iff.mp h
    show d.orderedSources.erase k = _
    rw [hI.inOrder hio]
    rfl
  · obtain ⟨src, -, rfl⟩ := sweep_ok_iff.mp h
    exact (queued_callback hI src).called

theorem queued_flushOrderedSources (hI : d.Queued) (h : d.flushOrderedSources b = .ok d') :
    d'.Queued := by
  refine flushOrderedSources_rule Queued (fun u v hu _ hv => ?_) hI h
  exact queued_congr (d := v) rfl rfl rfl rfl (queued_sweep hu hv)

theorem queued_offer (hI : d.Queued) (h : d.offer b src = .ok d') : d'.Queued := by
  rcases offer_cases h with ⟨-, rfl⟩ | ⟨-, ⟨-, hf⟩ | ⟨-, rfl⟩⟩
  · exact queued_callback hI src
  · refine queued_flushOrderedSources ?_ hf
    exact queued_congr (d := d.callback src) rfl rfl rfl rfl (queued_callback hI src)
  · exact hI

theorem queued_store (hI : d.Queued) (hsrc : Fits src.id) (h : d.store b src = .ok d') :
    d'.Queued := by
  have hknown := contains_store h
  refine ⟨fun k hk => ?_, fun hio => ?_, ?_⟩
  · rw [hknown]
    rw [(store_spec h).2] at hk
    dsimp only at hk
    split at hk
    · rcases FlatSet.mem_insert.mp hk with rfl | hk
      · exact ⟨Or.inl rfl, hsrc⟩
      · exact (hI.pointed k hk).imp_left Or.inr
    · exact (hI.pointed k hk).imp_left Or.inr
  · rw [(store_spec h).2] at hio ⊢
    dsimp only at hio ⊢
    rw [if_neg (by simp [hio])]
    exact hI.inOrder hio
  · rw [(store_spec h).2]
    exact hI.called

theorem queued_insertDecoded (hI : d.Queued) (hsrc : Fits src.id)
    (h : d.insertDecoded b src = .ok d') : d'.Queued := by
  obtain ⟨inserted, d1, -, rfl, hcases⟩ := insertDecoded_cases h
  have hins : ({ d with sources := d.sources.insert src.id inserted } : Decoder w).Queued := by
    refine ⟨fun k hk => ?_, hI.inOrder, hI.called⟩
    rw [OrdMap.contains_insert, (hI.pointed k hk).1, Bool.or_true]
    exact ⟨rfl, (hI.pointed k hk).2⟩
  have hcalled := queued_callback hins inserted
  rcases hcases with ⟨-, rfl⟩ | ⟨-, -, hf⟩ | ⟨hio, -, rfl⟩
  · exact hcalled
  · refine queued_flushOrderedSources ?_ hf
    exact queued_congr (d := callback inserted { d with
      sources := d.sources.insert src.id inserted }) rfl rfl rfl rfl hcalled
  · refine ⟨fun k hk => ?_, fun hno => ?_, hI.called⟩
    · rcases FlatSet.mem_insert.mp hk with rfl | hk
      · exact ⟨by simp [OrdMap.contains_insert], hsrc⟩
      · exact hins.pointed k hk
    · rw [show d.inOrder = false from hno] at hio
      cases hio

/-- Of the sources that wait, dropping the outdated ones leaves those not older than `k`. -/
theorem queued_dropOrdered (hI : d.Queued) (h : d.dropOrdered b k = .ok d') :
    d'.Queued ∧ ∀ j ∈ d'.orderedSources, k ≤ j := by
  rw [dropOrdered] at h
  split at h
  · obtain ⟨d1, h1, h2⟩ := bind_ok_iff.mp h
    have hloop := foldlM_induction (f := sweep) (fun l u => u.Queued ∧
      ∀ j ∈ u.orderedSources, j ∈ l ∨ k ≤ j) ?_ ⟨hI, fun j hj => ?_⟩ h1
    · refine flushOrderedSources_rule (fun u => u.Queued ∧ ∀ j ∈ u.orderedSources, k ≤ j)
        (fun u v hu _ hv => ?_) (d := { d1 with
          firstMissingSourceInOrder := max d1.firstMissingSourceInOrder k })
        ⟨queued_congr (d := d1) rfl rfl rfl rfl hloop.1, fun j hj =>
          (hloop.2 j hj).resolve_left List.not_mem_nil⟩ h2
      refine ⟨queued_congr (d := v) rfl rfl rfl rfl (queued_sweep hu.1 hv), fun j hj => ?_⟩
      obtain ⟨src, -, rfl⟩ := sweep_ok_iff.mp hv
      exact hu.2 j (FlatSet.mem_erase.mp hj).1
    · intro a l u v hu hv
      refine ⟨queued_sweep hu.1 hv, fun j hj => ?_⟩
      obtain ⟨src, -, rfl⟩ := sweep_ok_iff.mp hv
      obtain ⟨hj, hne⟩ := FlatSet.mem_erase.mp hj
      exact (hu.2 j hj).imp_left fun hmem => (List.mem_cons.mp hmem).resolve_left hne
    · by_cases hlt : j < k
      · exact Or.inl (List.mem_filter.mpr ⟨hj, decide_eq_true hlt⟩)
      · exact Or.inr (not_lt.mp hlt)
  · next hio =>
    cases h
    refine ⟨hI, fun j hj => ?_⟩
    rw [hI.inOrder (by simpa using hio)] at hj
    exact absurd hj FlatSet.not_mem_empty

theorem queued_dropOutdated (hI : d.Queued) (h : d.dropOutdated b k = .ok d') : d'.Queued := by
  obtain ⟨d1, d2, heq, h2, rfl, -⟩ := dropOutdated_cases h
  have hI1 : d1.Queued :=
    queued_congr (by rw [heq]) (by rw [heq]) (by rw [heq]) (by rw [heq]) hI
  obtain ⟨hI2, hle⟩ := queued_dropOrdered hI1 h2
  refine ⟨fun j hj => ?_, hI2.inOrder, hI2.called⟩
  rw [OrdMap.contains_eraseBelow, (hI2.pointed j hj).1, decide_eq_true (hle j hj)]
  exact ⟨rfl, (hI2.pointed j hj).2⟩

section Fits

variable {S : DecoderSource → Prop} {R : DecoderRepair → Prop}

theorem queued_attemptFullDecoding (hc : Contents S R Fits d []) (hI : d.Queued)
    (h : d.attemptFullDecoding b g = .ok d') : d'.Queued := by
  rcases attemptFullDecoding_cases h with ⟨rfl, -⟩ | ⟨-, _, _, m, -, -, hcases⟩
  · exact hI
  · have hI1 : ({ d with coefficients := m.mat, inv := m.inv } : Decoder w).Queued :=
      queued_congr (d := d) rfl rfl rfl rfl hI
    rcases hcases with ⟨k, -, hf⟩ | ⟨-, ha⟩
    · obtain ⟨ρ, r, -, heq, -⟩ := dropFaulty_spec hf
      exact queued_congr (by rw [heq]) (by rw [heq]) (by rw [heq]) (by rw [heq]) hI1
    · obtain ⟨d1, h1, rfl⟩ := decodeAll_cases ha
      refine queued_congr (d := d1) rfl rfl rfl rfl ?_
      refine foldlM_invariant (f := decodeColumn b g _) Queued (fun miss hmiss u v hu hv => ?_)
        hI1 h1
      obtain ⟨rows, symbol, -, -, hins⟩ := decodeColumn_cases hv
      have hkey := List.mem_zipIdx' hmiss
      exact queued_insertDecoded hu (hc.missing miss.1 (OrdMap.contains_iff_mem_keys.mpr
        (hkey.2 ▸ List.getElem_mem hkey.1))) hins

theorem queued_rule (hc : Closed b g S R Fits) (hS : ∀ src, S src → Fits src.id) : PeelRule b g
    (fun pending src (d : Decoder w) => (Contents S R Fits d pending ∧ S src) ∧ d.Queued)
    (fun pending d => Contents S R Fits d pending ∧ d.Queued) where
  add hP hL ho hs := by
    refine ⟨(contents_rule hc).add hP.1 hL ho hs, ?_⟩
    have heq := (stripFromRepairs_spec hs).1
    exact queued_congr (by rw [heq]) (by rw [heq]) (by rw [heq]) (by rw [heq])
      (queued_offer hP.2 ho)
  decode := by
    intro pending src d k ρ r y hI hL hk hmin hids hd hy
    exact ⟨(contents_rule hc).decode hI.1 hL hk hmin hids hd hy,
      queued_congr (d := d) rfl rfl rfl rfl hI.2⟩
  store hI h := ⟨contents_store hI.1 h,
    queued_store hI.2 (hS _ (hI.1.pending _ List.mem_cons_self)) h⟩

theorem queued_receive (hc : Closed b g S R Fits) (hS : ∀ src, S src → Fits src.id)
    (hL : d.ListedStored) (hb : Contents S R Fits d []) (hI : d.Queued) (hp : Carries S R p)
    (h : d.receive b g p = .ok d') : d'.Queued := by
  cases p with
  | source src =>
    rcases receiveSource_cases h with ⟨rfl, -⟩ | ⟨-, -, d1, h1, h2⟩
    · exact hI
    · have hI1 := (queued_rule hc hS).addSource hL ⟨⟨hb, hp⟩, hI⟩ h1
      exact queued_attemptFullDecoding hI1.1 hI1.2 h2
  | repair r =>
    obtain ⟨-, ⟨rfl, -⟩ | ⟨hacc, ⟨d1, h1, -, rfl⟩ | ⟨d1, d2, r2, ha, h2⟩⟩⟩ :=
      receiveRepair_cases h
    · exact hI
    · exact queued_congr (d := d1) rfl rfl rfl rfl (queued_dropOutdated hI h1)
    · have hA := ha.accepted (contains_of_accepts hacc)
      have hb2 := contents_accepts hc hb hp ha
      have hI2 : d2.Queued := queued_congr (by rw [hA.frame]) (by rw [hA.frame])
        (by rw [hA.frame]) (by rw [hA.frame]) (queued_dropOutdated hI ha.drop)
      rcases h2 with ⟨hone, src, hcreate, hadd⟩ | ⟨-, hfull⟩
      · have hids := createSourceFromRepair_only hcreate hone
        exact ((queued_rule hc hS).addSource
          (listedStored_removeDecoded (hA.listedStored hL) hA.stored hids)
          ⟨⟨contents_removeDecoded hb2, hc.create (hb2.repairs _ _ hA.stored).2 hids hcreate⟩,
            queued_congr (d := d2) rfl rfl rfl rfl hI2⟩ hadd).2
      · exact queued_attemptFullDecoding hb2 hI2 hfull

theorem queued_initial (inOrder : Bool) : (initial inOrder : Decoder w).Queued :=
  ⟨fun _ hk => absurd hk FlatSet.not_mem_empty, fun _ => rfl, fun _ hc => absurd hc List.not_mem_nil⟩

end Fits

/-- What holds of a decoder whatever it received. -/
structure Sound (d : Decoder w) : Prop where
  listed : d.ListedStored
  buffered : d.Buffered []
  queued : d.Queued

/-- What was read is in its packet, and its identifiers fit 32 bits. -/
def Incoming.Buffered : Incoming → Prop := Carries DecoderSource.Buffered DecoderRepair.Buffered

theorem sound_receive (hI : d.Sound) (hp : Incoming.Buffered p) (h : d.receive b g p = .ok d') :
    d'.Sound :=
  ⟨listedStored_receive hI.listed h, contents_receive closed_buffered hI.listed hI.buffered hp
    (fun _ _ hb => decodesFully_buffered hb) h,
    queued_receive closed_buffered (fun _ hs => hs.1) hI.listed hI.buffered hI.queued hp h⟩

theorem sound_initial (inOrder : Bool) : (initial inOrder : Decoder w).Sound :=
  ⟨listedStored_initial inOrder, contents_initial inOrder, queued_initial inOrder⟩

end Detail.Decoder

end Netcode
