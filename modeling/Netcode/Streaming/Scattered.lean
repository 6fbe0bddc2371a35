import Netcode.Streaming.Ordered

/-! Out of order, the user was given the sources that the decoder holds. -/
namespace Netcode.Detail.Decoder

open Containers Runs

variable {w : FieldSize} {b : Build} {g : GfComplete w}

variable {d d' d1 d2 : Decoder w} {src : DecoderSource} {r r2 : DecoderRepair} {p : Incoming}
  {pending : List DecoderSource} {i k : ℕ}

/-- Every known source was given, and those about to be stored too. -/
structure Offered (d : Decoder w) (pending : List DecoderSource) : Prop where
  order : d.inOrder = false
  known : ∀ k, d.sources.contains k = true → k ∈ d.delivered
  pending : ∀ x ∈ pending, x.id ∈ d.delivered

theorem offered_congr (hio : d'.inOrder = d.inOrder) (hs : d'.sources = d.sources)
    (hc : d'.callbacks = d.callbacks) (hI : d.Offered pending) : d'.Offered pending := by
  refine ⟨hio.trans hI.order, ?_, ?_⟩
  · rw [hs, delivered, hc]
    exact hI.known
  · rw [delivered, hc]
    exact hI.pending

theorem offered_rule : PeelRule b g (fun pending _ (d : Decoder w) => d.Offered pending)
    (fun pending d => d.Offered pending) where
  add := by
    rintro pending src d d1 d2 hI - ho hs
    have heq := (stripFromRepairs_spec hs).1
    rcases offer_cases ho with ⟨-, rfl⟩ | ⟨hio, -⟩
    · have hI1 : (d.callback src).Offered (src :: pending) := by
        refine ⟨hI.order, fun k hk => ?_, fun x hx => ?_⟩
        · rw [delivered_callback]
          exact List.mem_append_left _ (hI.known k hk)
        · rw [delivered_callback]
          rcases List.mem_cons.mp hx with rfl | hx
          · exact List.mem_append_right _ (List.mem_singleton_self _)
          · exact List.mem_append_left _ (hI.pending x hx)
      refine offered_congr ?_ ?_ ?_ hI1
      all_goals rw [heq]
    · rw [hI.order] at hio
      cases hio
  decode := by
    rintro pending src d k ρ r y hI - - - - - -
    exact offered_congr (d := d) rfl rfl rfl hI
  store := by
    rintro pending src d d' hI h
    have heq := (store_spec h).2
    have hdelivered : d'.delivered = d.delivered := by
      rw [heq]
      rfl
    refine ⟨by rw [heq]; exact hI.order, fun k hk => ?_, fun x hx => ?_⟩
    · rw [hdelivered]
      rcases (contains_store h k).mp hk with rfl | hk
      · exact hI.pending src List.mem_cons_self
      · exact hI.known k hk
    · rw [hdelivered]
      exact hI.pending x (List.mem_cons_of_mem _ hx)

theorem offered_insertDecoded (hI : d.Offered []) (h : d.insertDecoded b src = .ok d') :
    d'.Offered [] := by
  obtain ⟨inserted, d1, hins, rfl, ⟨-, rfl⟩ | ⟨hio, -⟩ | ⟨hio, -⟩⟩ := insertDecoded_cases h
  · refine ⟨hI.order, fun k hk => ?_, fun x hx => absurd hx List.not_mem_nil⟩
    rw [delivered_callback]
    have hk' : (d.sources.insert src.id inserted).contains k = true := hk
    rw [OrdMap.contains_insert, Bool.or_eq_true, decide_eq_true_eq] at hk'
    rcases hk' with rfl | hk'
    · cases hfind : d.sources.find? src.id with
      | none =>
        rw [hfind] at hins
        rw [hins]
        exact List.mem_append_right _ (List.mem_singleton_self _)
      | some x =>
        exact List.mem_append_left _ (hI.known _ (OrdMap.contains_iff.mpr ⟨x, hfind⟩))
    · exact List.mem_append_left _ (hI.known k hk')
  all_goals
    have hio' : d.inOrder = true := hio
    rw [hI.order] at hio'
    cases hio'

theorem offered_attemptFullDecoding (hI : d.Offered []) (h : d.attemptFullDecoding b g = .ok d') :
    d'.Offered [] := by
  rcases attemptFullDecoding_cases h with
    ⟨rfl, -⟩ | ⟨-, _, _, m, -, -, ⟨k, -, hf⟩ | ⟨-, ha⟩⟩
  · exact hI
  · obtain ⟨_, _, -, heq, -⟩ := dropFaulty_spec hf
    refine offered_congr ?_ ?_ ?_ hI
    all_goals rw [heq]
  · obtain ⟨d1, h1, rfl⟩ := decodeAll_cases ha
    have hstart : Offered ({ d with coefficients := m.mat, inv := m.inv } : Decoder w) [] :=
      offered_congr (d := d) rfl rfl rfl hI
    have hloop := foldlM_invariant (f := decodeColumn b g _) (fun u => u.Offered []) ?_ hstart h1
    · exact offered_congr (d := d1) rfl rfl rfl hloop
    · intro miss _ u v hu hv
      obtain ⟨_, _, -, -, hins⟩ := decodeColumn_cases hv
      exact offered_insertDecoded hu hins

theorem delivered_dropOutdated (hio : d.inOrder = false) (h : d.dropOutdated b k = .ok d') :
    d'.inOrder = false ∧ d'.delivered = d.delivered ∧
      ∀ i, d'.sources.contains i = true → d.sources.contains i = true := by
  obtain ⟨d1, d2, heq1, h2, rfl, -⟩ := dropOutdated_cases h
  have hio1 : d1.inOrder = false := by rw [heq1]; exact hio
  rw [dropOrdered, if_neg (by rw [hio1]; exact Bool.false_ne_true)] at h2
  cases h2
  refine ⟨hio1, ?_, fun i hi => ?_⟩
  · show d1.delivered = d.delivered
    rw [heq1]
    rfl
  · rw [OrdMap.contains_eraseBelow, Bool.and_eq_true, heq1] at hi
    exact hi.2

theorem offered_dropOutdated (hI : d.Offered []) (h : d.dropOutdated b k = .ok d') :
    d'.Offered [] := by
  obtain ⟨hio, hdelivered, hsources⟩ := delivered_dropOutdated hI.order h
  refine ⟨hio, fun i hi => ?_, fun x hx => absurd hx List.not_mem_nil⟩
  rw [hdelivered]
  exact hI.known i (hsources i hi)

theorem offered_receive (hL : d.ListedStored) (hI : d.Offered []) (h : d.receive b g p = .ok d') :
    d'.Offered [] := by
  cases p with
  | source src =>
    rcases receiveSource_cases h with ⟨rfl, -⟩ | ⟨-, -, d1, h1, h2⟩
    · exact hI
    · exact offered_attemptFullDecoding (offered_rule.addSource hL hI h1) h2
  | repair r =>
    obtain ⟨-, ⟨rfl, -⟩ | ⟨hacc, ⟨d1, h1, -, rfl⟩ | ⟨d1, d2, r2, ha, h2⟩⟩⟩ :=
      receiveRepair_cases h
    · exact hI
    · exact offered_congr (d := d1) rfl rfl rfl (offered_dropOutdated hI h1)
    · have hA := ha.accepted (contains_of_accepts hacc)
      have hI2 : d2.Offered [] := by
        refine offered_congr ?_ ?_ ?_ (offered_dropOutdated hI ha.drop)
        all_goals rw [hA.frame]
      rcases h2 with ⟨hone, src, hc, hadd⟩ | ⟨-, hfull⟩
      · have hids := createSourceFromRepair_only hc hone
        exact offered_rule.addSource
          (listedStored_removeDecoded (hA.listedStored hL) hA.stored hids)
          (offered_congr (d := d2) rfl rfl rfl hI2) hadd
      · exact offered_attemptFullDecoding hI2 hfull

/-- Out of order, exactly the sources that are held were given. -/
structure Scattered (d : Decoder w) : Prop where
  offered : d.Offered []
  once : d.OnceWhile []
  given : ∀ i, d.outdated i = true → i ∈ d.delivered

theorem scattered_receive (hI : d.Scattered) (hc : d.Continues g p)
    (h : d.receive b g p = .ok d') : d'.Scattered := by
  have hL := hc.linked.listed
  refine ⟨offered_receive hL hI.offered h, once_receive hL hI.once hc.retains.unshared
    (not_reopens (not_retreats hc.retains.remembers)) h,
    given_receive hL hI.given (fun r d1 hp _ h1 i hi => ?_) h⟩
  subst hp
  obtain ⟨-, hdelivered, -⟩ := delivered_dropOutdated hI.offered.order h1
  rw [hdelivered]
  exact (hc.spares i hi).elim (hI.given i) (hI.offered.known i)

theorem Scattered.mem_delivered (hI : d.Scattered) : i ∈ d.delivered ↔ d.Held i := by
  constructor
  · intro hi
    rcases hI.once.remembered i hi with hs | ho | ⟨x, hx, -⟩
    · exact Or.inr hs
    · exact Or.inl ho
    · exact absurd hx List.not_mem_nil
  · exact fun h => h.elim (hI.given i) (hI.offered.known i)

theorem scattered_run {ps : List Incoming}
    (h : Run (receive b g) (fun d p => d.Continues g p) (initial false) ps d) : d.Scattered :=
  h.invariant Scattered (fun _ _ _ hI hc hs => scattered_receive hI hc hs)
    ⟨⟨rfl, fun _ hk => absurd hk Bool.false_ne_true, fun _ hx => absurd hx List.not_mem_nil⟩,
      once_initial, fun _ hi => by cases hi⟩

end Netcode.Detail.Decoder
