import Netcode.LinkInvariant

/-! What holds of every stored source and repair, and of every source given to the callback, when
removing a source from a repair and decoding one keep it. -/
namespace Netcode.Detail.Decoder

open Containers Runs

variable {w : FieldSize} {b : Build} {g : GfComplete w} {d d' d1 d2 : Decoder w}
  {src : DecoderSource} {r r2 : DecoderRepair} {pending : List DecoderSource} {k ρ first : ℕ}
  {S : DecoderSource → Prop} {R : DecoderRepair → Prop} {M : ℕ → Prop}

/-- Properties of sources, of repairs and of the identifiers repairs list that the operations on
repairs keep. -/
structure Closed (b : Build) (g : GfComplete w) (S : DecoderSource → Prop)
    (R : DecoderRepair → Prop) (M : ℕ → Prop) : Prop where
  remove : ∀ {src r r'}, S src → R r → src.id ∈ r.sourceIds →
    removeSourceDataFromRepair b g src r = .ok r' →
    R { r' with sourceIds := r.sourceIds.erase src.id }
  create : ∀ {r src}, R r → r.sourceIds.toList = [src.id] →
    createSourceFromRepair b g r = .ok src → S src
  lists : ∀ {r i}, R r → i ∈ r.sourceIds → M i

/-- The identifiers of known sources, in order. -/
def Known (S : DecoderSource → Prop) (ids : List ℕ) : Prop :=
  ids.Pairwise (· < ·) ∧ ∀ i ∈ ids, ∃ src, S src ∧ src.id = i

/-- All that is stored, about to be stored or given to the callback is as it should be. -/
structure Contents (S : DecoderSource → Prop) (R : DecoderRepair → Prop) (M : ℕ → Prop)
    (d : Decoder w) (pending : List DecoderSource) : Prop where
  sources : ∀ k src, d.sources.find? k = some src → src.id = k ∧ S src
  repairs : ∀ ρ r, d.repairs.find? ρ = some r → r.id = ρ ∧ R r
  missing : ∀ i, d.missingSources.contains i = true → M i
  callbacks : ∀ c ∈ d.callbacks, S c.source ∧ Known S c.known
  pending : ∀ x ∈ pending, S x

theorem contents_congr (hs : d'.sources = d.sources) (hr : d'.repairs = d.repairs)
    (hm : d'.missingSources = d.missingSources) (hc : d'.callbacks = d.callbacks)
    (hI : Contents S R M d pending) : Contents S R M d' pending :=
  ⟨by rw [hs]; exact hI.sources, by rw [hr]; exact hI.repairs, by rw [hm]; exact hI.missing,
    by rw [hc]; exact hI.callbacks, hI.pending⟩

theorem Contents.known (hI : Contents S R M d pending) : Known S d.sources.keys := by
  refine ⟨d.sources.keys_sorted, fun i hi => ?_⟩
  obtain ⟨src, hsrc⟩ := OrdMap.mem_keys_iff.mp hi
  obtain ⟨hid, hS⟩ := hI.sources i src hsrc
  exact ⟨src, hS, hid⟩

theorem contents_callback (hI : Contents S R M d pending) (hS : S src) :
    Contents S R M (d.callback src) pending := by
  refine ⟨hI.sources, hI.repairs, hI.missing, fun c hc => ?_, hI.pending⟩
  rcases List.mem_append.mp hc with hc | hc
  · exact hI.callbacks c hc
  · rw [List.mem_singleton.mp hc]
    exact ⟨hS, hI.known⟩

theorem contents_sweep (hI : Contents S R M d pending) (h : d.sweep k = .ok d') :
    Contents S R M d' pending := by
  obtain ⟨src, hsrc, rfl⟩ := sweep_ok_iff.mp h
  exact contents_congr (d := d.callback src) rfl rfl rfl rfl
    (contents_callback hI (hI.sources k src hsrc).2)

theorem contents_flushOrderedSources (hI : Contents S R M d pending)
    (h : d.flushOrderedSources b = .ok d') : Contents S R M d' pending := by
  refine flushOrderedSources_rule (fun u => Contents S R M u pending) (fun u v hu _ hv => ?_) hI h
  exact contents_congr (d := v) rfl rfl rfl rfl (contents_sweep hu hv)

theorem contents_give (hI : Contents S R M d pending) (hS : S src)
    (h : (d.callback src).advance.flushOrderedSources b = .ok d') :
    Contents S R M d' pending := by
  refine contents_flushOrderedSources ?_ h
  exact contents_congr (d := d.callback src) rfl rfl rfl rfl (contents_callback hI hS)

theorem contents_offer (hI : Contents S R M d pending) (hS : S src)
    (h : d.offer b src = .ok d') : Contents S R M d' pending := by
  rcases offer_cases h with ⟨-, rfl⟩ | ⟨-, ⟨-, hf⟩ | ⟨-, rfl⟩⟩
  · exact contents_callback hI hS
  · exact contents_give hI hS hf
  · exact hI

theorem contents_dropOrdered (hI : Contents S R M d pending)
    (h : d.dropOrdered b k = .ok d') : Contents S R M d' pending := by
  rw [dropOrdered] at h
  split at h
  · obtain ⟨d1, h1, h2⟩ := bind_ok_iff.mp h
    have hI1 := foldlM_invariant (fun u => Contents S R M u pending)
      (fun _ _ _ _ hu hv => contents_sweep hu hv) hI h1
    refine contents_flushOrderedSources ?_ h2
    exact contents_congr (d := d1) rfl rfl rfl rfl hI1
  · cases h
    exact hI

theorem id_remove (h : removeSourceDataFromRepair b g src r = .ok r2) : r2.id = r.id := by
  rw [removeSourceDataFromRepair_eq h]

theorem contents_strip (hc : Closed b g S R M) (hI : Contents S R M d pending) (hS : S src)
    (h : d.stripFromRepairs b g src = .ok d') : Contents S R M d' (src :: pending) := by
  obtain ⟨heq, hs⟩ := stripFromRepairs_spec h
  refine ⟨by rw [heq]; exact hI.sources, fun ρ r' hr' => ?_, fun i hi => ?_,
    by rw [heq]; exact hI.callbacks, fun x hx => ?_⟩
  · by_cases href : d.References src.id ρ
    · obtain ⟨r, r2, hr, hrm, hf⟩ := (hs ρ).1 href
      rw [hr'] at hf
      cases hf
      obtain ⟨hmem, r1, h1, rfl⟩ := removeSourceFromRepair_ok_iff.mp hrm
      obtain ⟨hid, hR⟩ := hI.repairs ρ r hr
      exact ⟨(id_remove h1).trans hid, hc.remove hS hR hmem h1⟩
    · rw [(hs ρ).2 href] at hr'
      exact hI.repairs ρ r' hr'
  · rw [heq] at hi
    exact hI.missing i (contains_of_erase hi)
  · rcases List.mem_cons.mp hx with rfl | hx
    exacts [hS, hI.pending x hx]

theorem contents_removeDecoded (hI : Contents S R M d pending) :
    Contents S R M (d.removeDecoded k ρ) pending := by
  refine ⟨hI.sources, fun ρ' r hr => ?_, fun i hi => hI.missing i (contains_of_erase hi),
    hI.callbacks, hI.pending⟩
  have hr' : (d.repairs.erase ρ).find? ρ' = some r := hr
  rw [OrdMap.find?_erase] at hr'
  split at hr'
  · cases hr'
  · exact hI.repairs ρ' r hr'

theorem contents_store (hI : Contents S R M d (src :: pending)) (h : d.store b src = .ok d') :
    Contents S R M d' pending := by
  rw [(store_spec h).2]
  refine ⟨fun k x hx => ?_, hI.repairs, hI.missing, hI.callbacks,
    fun x hx => hI.pending x (List.mem_cons_of_mem src hx)⟩
  dsimp only at hx
  split at hx
  · exact hI.sources k x hx
  · rw [OrdMap.find?_insert] at hx
    split at hx
    · next hk =>
      cases hx
      exact ⟨hk.symm, hI.pending src List.mem_cons_self⟩
    · exact hI.sources k x hx

theorem contents_rule (hc : Closed b g S R M) : PeelRule b g
    (fun pending src (d : Decoder w) => Contents S R M d pending ∧ S src)
    (fun pending d => Contents S R M d pending) where
  add hP _ ho hs := contents_strip hc (contents_offer hP.1 hP.2 ho) hP.2 hs
  decode := by
    rintro pending src d k ρ r y hI - hk - hids hd rfl
    obtain ⟨-, hr, -⟩ := readyAt_eq_some.mp hk
    exact ⟨contents_removeDecoded hI,
      hc.create (hI.repairs ρ r hr).2 hids (decodeMissing_spec hd).1⟩
  store hI h := contents_store hI h

theorem contents_insertDecoded (hI : Contents S R M d []) (hS : S src)
    (h : d.insertDecoded b src = .ok d') : Contents S R M d' [] := by
  obtain ⟨inserted, d1, hins, rfl, hcases⟩ := insertDecoded_cases h
  have hright : inserted.id = src.id ∧ S inserted := by
    cases hf : d.sources.find? src.id with
    | none =>
      rw [hf, Option.getD_none] at hins
      subst hins
      exact ⟨rfl, hS⟩
    | some x =>
      rw [hf, Option.getD_some] at hins
      subst hins
      exact hI.sources _ _ hf
  have hI1 : Contents S R M
      { d with sources := d.sources.insert src.id inserted } [] := by
    refine ⟨fun k x hx => ?_, hI.repairs, hI.missing, hI.callbacks, hI.pending⟩
    rw [OrdMap.find?_insert] at hx
    split at hx
    · next hk =>
      cases hx
      exact ⟨hright.1.trans hk.symm, hright.2⟩
    · exact hI.sources k x hx
  rcases hcases with ⟨-, rfl⟩ | ⟨-, -, hf⟩ | ⟨-, -, rfl⟩
  · exact contents_callback hI1 hright.2
  · exact contents_give hI1 hright.2 hf
  · exact contents_congr (d := { d with sources := d.sources.insert src.id inserted })
      rfl rfl rfl rfl hI1

/-- The sources the columns of the inverted matrix stand for are as they should be. -/
def Decodes (b : Build) (g : GfComplete w) (S : DecoderSource → Prop) (d : Decoder w) : Prop :=
  ∀ miss ∈ d.missingSources.keys.zipIdx, ∀ rows symbol,
    d.decodingRows (d.repairs.entries.map Prod.snd) miss.2 = .ok rows →
    decodeSymbol b g (decodeSize g rows).toNat rows = .ok symbol →
    S ⟨miss.1, symbol, (decodeSize g rows).toNat⟩

theorem contents_decodeAll (hI : Contents S R M d []) (hdec : Decodes b g S d)
    (h : d.decodeAll b g = .ok d') : Contents S R M d' [] := by
  obtain ⟨d1, h1, rfl⟩ := decodeAll_cases h
  have hloop := foldlM_invariant (f := decodeColumn b g (d.repairs.entries.map Prod.snd))
    (fun u => Decoding d u ∧ Contents S R M u []) ?_ ⟨Decoding.refl d, hI⟩ h1
  · have hI1 := hloop.2
    refine ⟨hI1.sources, fun ρ r hr => ?_, fun i hi => ?_, hI1.callbacks, hI1.pending⟩
    · cases hr
    · cases hi
  · rintro miss hmiss u v ⟨⟨c, f, o, s, rfl⟩, hu⟩ hv
    obtain ⟨rows, symbol, hrows, hsymbol, hins⟩ := decodeColumn_cases hv
    exact ⟨Decoding.trans ⟨c, f, o, s, rfl⟩ (insertDecoded_decoding hins).1,
      contents_insertDecoded hu (hdec miss hmiss rows symbol hrows hsymbol) hins⟩

theorem contents_dropFaulty (hc : Closed b g S R M) (hI : Contents S R M d pending)
    (h : d.dropFaulty k = .ok d') : Contents S R M d' pending := by
  obtain ⟨ρ, r, hr, heq, hm, -⟩ := dropFaulty_spec h
  refine ⟨by rw [heq]; exact hI.sources, fun ρ' r' hr' => ?_, fun i hi => ?_,
    by rw [heq]; exact hI.callbacks, hI.pending⟩
  · rw [heq] at hr'
    have hr2 : (d.repairs.erase ρ).find? ρ' = some r' := hr'
    rw [OrdMap.find?_erase] at hr2
    split at hr2
    · cases hr2
    · exact hI.repairs ρ' r' hr2
  · exact ((hm i).mp hi).elim (hI.missing i) (hc.lists (hI.repairs ρ r hr).2)

/-- Should the matrix of coefficients be inverted, all that is decoded is as it should be. -/
def DecodesFully (b : Build) (g : GfComplete w) (S : DecoderSource → Prop) (d : Decoder w) : Prop :=
  d.enoughRepairs = true → ∀ coefficients m, d.fillCoefficients = .ok coefficients →
    invert b g coefficients (d.inv.resize coefficients.dimension) = .ok (none, m) →
    Decodes b g S { d with coefficients := m.mat, inv := m.inv }

theorem contents_attemptFullDecoding (hc : Closed b g S R M) (hI : Contents S R M d [])
    (hdec : DecodesFully b g S d) (h : d.attemptFullDecoding b g = .ok d') :
    Contents S R M d' [] := by
  rcases attemptFullDecoding_cases h with
    ⟨rfl, -⟩ | ⟨henough, coefficients, rCol, m, hfill, hinv, hcases⟩
  · exact hI
  · have hI1 : Contents S R M ({ d with coefficients := m.mat, inv := m.inv } : Decoder w) [] :=
      contents_congr (d := d) rfl rfl rfl rfl hI
    rcases hcases with ⟨k, -, hf⟩ | ⟨rfl, ha⟩
    · exact contents_dropFaulty hc hI1 hf
    · exact contents_decodeAll hI1 (hdec henough coefficients m hfill hinv) ha

theorem contents_dropOutdated (hI : Contents S R M d [])
    (h : d.dropOutdated b k = .ok d') : Contents S R M d' [] := by
  obtain ⟨d1, d2, heq, h2, rfl, hdrops⟩ := dropOutdated_cases h
  have hdel := dropOrdered_delivers h2
  have hrepairs : ∀ ρ r, d1.repairs.find? ρ = some r → r.id = ρ ∧ R r := fun ρ r hr =>
    hI.repairs ρ r ((hdrops.repairs ρ r).mp ((repairs_delivers hdel).symm ▸ hr)).1
  have hkept : Contents (S := S) (R := R) (M := fun _ => True) d1 [] := by
    refine ⟨by rw [heq]; exact hI.sources, hrepairs, fun _ _ => trivial,
      by rw [heq]; exact hI.callbacks, hI.pending⟩
  have hI2 := contents_dropOrdered hkept h2
  refine ⟨fun k' src hsrc => ?_, hI2.repairs, fun i hi => ?_, hI2.callbacks, hI2.pending⟩
  · rw [OrdMap.find?_eraseBelow] at hsrc
    split at hsrc
    · exact hI2.sources k' src hsrc
    · cases hsrc
  · exact hI.missing i ((hdrops.missing i).mp hi).2

theorem contents_link (hc : Closed b g S R M) (hI : Contents S R M d1 [])
    (hr : d1.repairs.find? ρ = some r)
    (h : r.sourceIds.toList.reverse.foldlM (link b g ρ) d1 = .ok d2) :
    Contents S R M d2 [] := by
  have hR := (hI.repairs ρ r hr).2
  refine (foldlM_induction (f := link b g ρ) (fun l u => (l.Nodup ∧ ∀ i ∈ l, i ∈ r.sourceIds) ∧
    Linking ρ r d1 l u ∧ Contents S R M u []) ?_ ?_ h).2.2
  · rintro a l u v ⟨⟨hnd, hsub⟩, hu, hI⟩ hv
    rw [List.nodup_cons] at hnd
    have ha := hsub a List.mem_cons_self
    refine ⟨⟨hnd.2, fun i hi => hsub i (List.mem_cons_of_mem a hi)⟩, linking_link ha hnd.1 hu hv, ?_⟩
    cases hs : u.sources.find? a with
    | some src =>
      obtain ⟨q, q', hq, hrm, rfl⟩ := (link_known hs).mp hv
      obtain ⟨rfl, hS⟩ := hI.sources a src hs
      obtain ⟨r', hr', hids⟩ := hu.repair
      rw [hq] at hr'
      cases hr'
      refine ⟨hI.sources, fun ρ' x hx => ?_, hI.missing, hI.callbacks, hI.pending⟩
      rw [OrdMap.find?_insert] at hx
      split at hx
      · next hρ =>
        cases hx
        obtain ⟨hid, hRq⟩ := hI.repairs ρ q hq
        exact ⟨(id_remove hrm).trans (hid.trans hρ.symm),
          hc.remove hS hRq ((hids _).mpr ⟨ha, Or.inl List.mem_cons_self⟩) hrm⟩
      · exact hI.repairs ρ' x hx
    | none =>
      rw [link_unknown hs] at hv
      subst hv
      refine ⟨hI.sources, hI.repairs, fun i hi => ?_, hI.callbacks, hI.pending⟩
      rw [OrdMap.contains_insert, Bool.or_eq_true, decide_eq_true_eq] at hi
      rcases hi with rfl | hi
      exacts [hc.lists hR ha, hI.missing i hi]
  · exact ⟨⟨List.nodup_reverse.mpr r.sourceIds.nodup, fun i hi => List.mem_reverse.mp hi⟩,
      linking_start hr, hI⟩

theorem contents_insertRepair (hI : Contents S R M d pending) (hr : R r) :
    Contents S R M { d with repairs := d.repairs.insert r.id r } pending := by
  refine ⟨hI.sources, fun ρ x hx => ?_, hI.missing, hI.callbacks, hI.pending⟩
  rw [OrdMap.find?_insert] at hx
  split at hx
  · next hρ =>
    cases hx
    exact ⟨hρ.symm, hr⟩
  · exact hI.repairs ρ x hx

theorem contents_accepts (hc : Closed b g S R M) (hI : Contents S R M d []) (hr : R r)
    (h : Accepts b g r first d d1 d2 r2) : Contents S R M d2 [] :=
  contents_link hc (contents_insertRepair (contents_dropOutdated hI h.drop) hr)
    OrdMap.find?_insert_self h.link

/-- A received source or repair is as it should be. -/
def Carries (S : DecoderSource → Prop) (R : DecoderRepair → Prop) : Incoming → Prop
  | .source src => S src
  | .repair r => R r

/-- Receiving keeps all that is stored and given as it should be, if full decoding does. -/
theorem contents_receive {p : Incoming} (hc : Closed b g S R M) (hL : d.ListedStored)
    (hI : Contents S R M d []) (hp : Carries S R p)
    (hdec : ∀ d1 : Decoder w, (d.Linked → d1.Linked) → Contents S R M d1 [] →
      DecodesFully b g S d1)
    (h : d.receive b g p = .ok d') : Contents S R M d' [] := by
  cases p with
  | source src =>
    rcases receiveSource_cases h with ⟨rfl, -⟩ | ⟨-, -, d1, h1, h2⟩
    · exact hI
    · have hI1 := (contents_rule hc).addSource hL ⟨hI, hp⟩ h1
      refine contents_attemptFullDecoding hc hI1 (hdec d1 (fun hlinked => ?_) hI1) h2
      exact linked_addSource hL (linked_iff_linkedWhile.mp hlinked).2 h1
  | repair r =>
    obtain ⟨-, ⟨rfl, -⟩ | ⟨hacc, ⟨d1, h1, -, rfl⟩ | ⟨d1, d2, r2, ha, h2⟩⟩⟩ :=
      receiveRepair_cases h
    · exact hI
    · exact contents_congr (d := d1) rfl rfl rfl rfl (contents_dropOutdated hI h1)
    · have hI2 := contents_accepts hc hI hp ha
      have hA := ha.accepted (contains_of_accepts hacc)
      rcases h2 with ⟨hone, src, hcreate, hadd⟩ | ⟨-, hfull⟩
      · have hids := createSourceFromRepair_only hcreate hone
        exact (contents_rule hc).addSource
          (listedStored_removeDecoded (hA.listedStored hL) hA.stored hids)
          ⟨contents_removeDecoded hI2, hc.create (hI2.repairs _ _ hA.stored).2 hids hcreate⟩ hadd
      · refine contents_attemptFullDecoding hc hI2 (hdec d2 (fun hlinked => ?_) hI2) hfull
        exact linked_accepted (linked_drops hlinked hA.drops) hL hA

theorem contents_initial (inOrder : Bool) :
    Contents S R M (initial inOrder : Decoder w) [] := by
  refine ⟨fun k src hsrc => ?_, fun ρ r hr => ?_, fun i hi => ?_, fun c hc => ?_, fun x hx => ?_⟩
  · cases hsrc
  · cases hr
  · cases hi
  · cases hc
  · cases hx

theorem Contents.mono {S' : DecoderSource → Prop} {R' : DecoderRepair → Prop} {M' : ℕ → Prop}
    (hS : ∀ src, S src → S' src) (hR : ∀ r, R r → R' r) (hM : ∀ i, M i → M' i)
    (hI : Contents S R M d pending) : Contents S' R' M' d pending := by
  refine ⟨fun k src hk => (hI.sources k src hk).imp_right (hS src),
    fun ρ r hr => (hI.repairs ρ r hr).imp_right (hR r), fun i hi => hM i (hI.missing i hi),
    fun c hc => ?_, fun x hx => hS x (hI.pending x hx)⟩
  obtain ⟨hsource, hsorted, hknown⟩ := hI.callbacks c hc
  exact ⟨hS _ hsource, hsorted, fun i hi => (hknown i hi).imp fun src h => h.imp_left (hS src)⟩

/-- All that is stored or given is named by identifiers as they should be. -/
abbrev Naming (M : ℕ → Prop) (d : Decoder w) (pending : List DecoderSource) : Prop :=
  Contents (fun src => M src.id) (fun r => ∀ i ∈ r.sourceIds, M i) M d pending

theorem closed_naming (M : ℕ → Prop) :
    Closed b g (fun src => M src.id) (fun r => ∀ i ∈ r.sourceIds, M i) M where
  remove _ hr _ _ i hi := hr i (FlatSet.mem_erase.mp hi).1
  create hr hids _ := hr _ (by simp [FlatSet.mem_iff, hids])
  lists hr hi := hr _ hi

theorem decodesFully_naming (hI : Naming M d []) :
    DecodesFully b g (fun src => M src.id) d := by
  intro _ _ _ _ _ miss hmiss _ _ _ _
  have hkey := List.mem_zipIdx' hmiss
  exact hI.missing miss.1 (OrdMap.contains_iff_mem_keys.mpr (hkey.2 ▸ List.getElem_mem hkey.1))

theorem naming_receive {p : Incoming} (hL : d.ListedStored) (hI : Naming M d [])
    (hp : ∀ i ∈ p.ids, M i) (h : d.receive b g p = .ok d') : Naming M d' [] := by
  refine contents_receive (closed_naming M) hL hI ?_ (fun _ _ hI1 => decodesFully_naming hI1) h
  cases p with
  | source src => exact hp src.id (List.mem_singleton_self _)
  | repair r => exact hp

end Netcode.Detail.Decoder
