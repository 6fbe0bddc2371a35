import Netcode.LinkInvariant

/-! Out of order, no source is given to the callback twice, as long as no late repair makes the
decoder forget that it gave one. -/
namespace Netcode.Detail.Decoder

open Containers Runs

variable {w : FieldSize} {b : Build} {g : GfComplete w} {d d' d1 d2 : Decoder w}
  {src y : DecoderSource} {r r2 : DecoderRepair} {p : Incoming} {ps : List Incoming}
  {pending : List DecoderSource} {i k ρ first : ℕ}

/-- What the decoder remembers of the sources it gave, while some are still to be stored. -/
structure OnceWhile (d : Decoder w) (pending : List DecoderSource) : Prop where
  outOfOrder : d.inOrder = false
  linked : d.LinkedWhile pending
  recent : ∀ i, d.missingSources.contains i = true → d.outdated i = false
  nodup : d.delivered.Nodup
  remembered : ∀ i ∈ d.delivered, d.sources.contains i = true ∨ d.outdated i = true ∨
    ∃ x ∈ pending, x.id = i

/-- A source is new: neither known nor outdated nor about to be stored. -/
structure New (d : Decoder w) (pending : List DecoderSource) (i : ℕ) : Prop where
  unknown : d.sources.contains i = false
  recent : d.outdated i = false
  notPending : ∀ x ∈ pending, x.id ≠ i

theorem OnceWhile.not_delivered (hI : d.OnceWhile pending) (hn : d.New pending i) :
    i ∉ d.delivered := by
  intro hi
  rcases hI.remembered i hi with hs | ho | ⟨x, hx, hxi⟩
  · rw [hn.unknown] at hs
    cases hs
  · rw [hn.recent] at ho
    cases ho
  · exact hn.notPending x hx hxi

theorem OnceWhile.nodup_append (hI : d.OnceWhile pending) (hn : d.New pending i) :
    (d.delivered ++ [i]).Nodup := by
  refine List.nodup_append.mpr ⟨hI.nodup, List.nodup_singleton i, ?_⟩
  intro j hj k hk
  rw [List.mem_singleton.mp hk]
  rintro rfl
  exact hI.not_delivered hn hj

/-- A missing source is new. -/
theorem OnceWhile.new_of_missing (hI : d.OnceWhile pending)
    (hi : d.missingSources.contains i = true) : d.New pending i := by
  refine ⟨hI.linked.disjoint i hi, hI.recent i hi, ?_⟩
  rintro x hx rfl
  rw [hI.linked.pending x hx] at hi
  cases hi

theorem once_offer (hI : d.OnceWhile pending) (hn : d.New pending src.id)
    (ho : d.offer b src = .ok d1) (hs : d1.stripFromRepairs b g src = .ok d2) :
    d2.OnceWhile (src :: pending) := by
  obtain ⟨-, rfl⟩ | ⟨hio, -⟩ := offer_cases ho
  · have heq := (stripFromRepairs_spec hs).1
    have hlinked : (d.callback src).LinkedWhile pending :=
      linkedWhile_congr (d := d) rfl rfl rfl hI.linked
    have hgiven : d2.delivered = d.delivered ++ [src.id] := by
      rw [heq]
      exact delivered_callback src d
    refine ⟨by rw [heq]; exact hI.outOfOrder, linkedWhile_strip hlinked hs, fun i hi => ?_,
      hgiven ▸ hI.nodup_append hn, fun i hi => ?_⟩
    · rw [heq] at hi ⊢
      exact hI.recent i (contains_of_erase hi)
    · rw [hgiven] at hi
      rw [heq]
      rcases List.mem_append.mp hi with hi | hi
      · obtain hs | ho | ⟨x, hx, hxi⟩ := hI.remembered i hi
        exacts [Or.inl hs, Or.inr (Or.inl ho),
          Or.inr (Or.inr ⟨x, List.mem_cons_of_mem src hx, hxi⟩)]
      · exact Or.inr (Or.inr ⟨src, List.mem_cons_self, (List.mem_singleton.mp hi).symm⟩)
  · rw [hI.outOfOrder] at hio
    cases hio

theorem once_store (hI : d.OnceWhile (src :: pending)) (h : d.store b src = .ok d') :
    d'.OnceWhile pending := by
  have hlinked := linkedWhile_store hI.linked h
  have hins := contains_store h
  obtain rfl := (store_spec h).2
  refine ⟨hI.outOfOrder, hlinked, hI.recent, hI.nodup, fun i hi => ?_⟩
  obtain hs | ho | ⟨x, hx, rfl⟩ := hI.remembered i hi
  · exact Or.inl ((hins i).mpr (Or.inr hs))
  · exact Or.inr (Or.inl ho)
  · rcases List.mem_cons.mp hx with rfl | hx
    · exact Or.inl ((hins _).mpr (Or.inl rfl))
    · exact Or.inr (Or.inr ⟨x, hx, rfl⟩)

theorem once_removeDecoded (hI : d.OnceWhile pending)
    (hlinked : (d.removeDecoded k ρ).LinkedWhile pending) :
    (d.removeDecoded k ρ).OnceWhile pending :=
  ⟨hI.outOfOrder, hlinked, fun i hi => hI.recent i (contains_of_erase hi), hI.nodup, hI.remembered⟩

theorem once_rule : PeelRule b g
    (fun pending src (d : Decoder w) => d.OnceWhile pending ∧ d.New pending src.id)
    (fun pending d => d.OnceWhile pending) where
  add hP _ ho hs := once_offer hP.1 hP.2 ho hs
  decode := by
    rintro pending src d k ρ r y hI hL hk hmin hids hd rfl
    have hn := hI.new_of_missing (references_contains (references_of_readyAt hk))
    exact ⟨once_removeDecoded hI (linkedWhile_rule.decode hI.linked hL hk hmin hids hd rfl),
      hn.unknown, hn.recent, hn.notPending⟩
  store hI h := once_store hI h

/-- What holds while the missing sources of a list are still to be decoded. -/
structure OnceDecoding (d : Decoder w) (l : List ℕ) : Prop where
  outOfOrder : d.inOrder = false
  nodup : d.delivered.Nodup
  remembered : ∀ i ∈ d.delivered, d.sources.contains i = true ∨ d.outdated i = true
  distinct : l.Nodup
  new : ∀ i ∈ l, d.sources.contains i = false ∧ d.outdated i = false

theorem once_insertDecoded {l : List ℕ} (hI : d.OnceDecoding (src.id :: l))
    (h : d.insertDecoded b src = .ok d') : d'.OnceDecoding l := by
  obtain ⟨inserted, d1, hins, rfl, ⟨-, rfl⟩ | ⟨hio, -⟩ | ⟨hio, -⟩⟩ := insertDecoded_cases h
  · obtain ⟨hunknown, hrecent⟩ := hI.new src.id List.mem_cons_self
    rw [OrdMap.contains_eq_false_iff.mp hunknown, Option.getD_none] at hins
    subst hins
    obtain ⟨hnot, hnd⟩ := List.nodup_cons.mp hI.distinct
    have hcontains : ∀ i, (d.sources.insert inserted.id inserted).contains i =
        (decide (i = inserted.id) || d.sources.contains i) := fun i => OrdMap.contains_insert
    refine ⟨hI.outOfOrder, ?_, fun i hi => ?_, hnd, fun i hi => ?_⟩
    · rw [delivered_callback]
      refine List.nodup_append.mpr ⟨hI.nodup, List.nodup_singleton _, ?_⟩
      intro j hj k hk
      rw [List.mem_singleton.mp hk]
      rintro rfl
      rcases hI.remembered _ hj with hs | ho
      · rw [hunknown] at hs
        cases hs
      · rw [hrecent] at ho
        cases ho
    · rw [delivered_callback] at hi
      show (d.sources.insert inserted.id inserted).contains i = true ∨ _
      rw [hcontains, Bool.or_eq_true, decide_eq_true_eq]
      rcases List.mem_append.mp hi with hi | hi
      · exact (hI.remembered i hi).imp_left Or.inr
      · exact Or.inl (Or.inl (List.mem_singleton.mp hi))
    · obtain ⟨hs, ho⟩ := hI.new i (List.mem_cons_of_mem _ hi)
      refine ⟨?_, ho⟩
      show (d.sources.insert inserted.id inserted).contains i = false
      rw [hcontains, hs, Bool.or_false, decide_eq_false]
      rintro rfl
      exact hnot hi
  · rw [hI.outOfOrder] at hio
    cases hio
  · rw [hI.outOfOrder] at hio
    cases hio

theorem once_decodeAll (hI : d.OnceWhile []) (h : d.decodeAll b g = .ok d') :
    d'.OnceWhile [] := by
  obtain ⟨d1, h1, rfl⟩ := decodeAll_cases h
  have hkeys : d.missingSources.keys.zipIdx.map Prod.fst = d.missingSources.keys := by simp
  have hloop := foldlM_induction (f := decodeColumn b g (d.repairs.entries.map Prod.snd))
    (fun l u => OnceDecoding u (l.map Prod.fst)) ?_ ?_ h1
  · refine ⟨hloop.outOfOrder, ⟨?_, ?_, ?_⟩, ?_, hloop.nodup, fun i hi => ?_⟩
    · rintro i ρ ⟨r, hr, -⟩
      cases hr
    · rintro i hi
      cases hi
    · intro x hx
      cases hx
    · rintro i hi
      cases hi
    · exact (hloop.remembered i hi).imp_right Or.inl
  · intro miss l u v hu hv
    obtain ⟨rows, symbol, -, -, hins⟩ := decodeColumn_cases hv
    exact once_insertDecoded hu hins
  · rw [hkeys]
    refine ⟨hI.outOfOrder, hI.nodup, fun i hi => ?_, d.missingSources.keys_nodup, fun i hi => ?_⟩
    · obtain hs | ho | ⟨x, hx, -⟩ := hI.remembered i hi
      exacts [Or.inl hs, Or.inr ho, absurd hx List.not_mem_nil]
    · rw [← OrdMap.contains_iff_mem_keys] at hi
      exact ⟨hI.linked.disjoint i hi, hI.recent i hi⟩

theorem once_dropFaulty (hL : d.ListedStored) (hI : d.OnceWhile [])
    (h : d.dropFaulty k = .ok d') : d'.OnceWhile [] := by
  have hlinked := linked_dropFaulty (linked_iff_linkedWhile.mpr ⟨hL, hI.linked⟩) h
  obtain ⟨ρ, r, hr, heq, hm, -⟩ := dropFaulty_spec h
  have hrecent : ∀ i, d'.missingSources.contains i = true → d.outdated i = false := by
    intro i hi
    refine hI.recent i (((hm i).mp hi).elim (fun h => h) fun hir => ?_)
    exact references_contains (hI.linked.stored i ρ ⟨r, hr, hir⟩)
  refine ⟨?_, (linked_iff_linkedWhile.mp hlinked).2, fun i hi => ?_, ?_, fun i hi => ?_⟩
  · rw [heq]
    exact hI.outOfOrder
  · rw [heq]
    exact hrecent i hi
  · rw [heq]
    exact hI.nodup
  · rw [heq] at hi ⊢
    exact hI.remembered i hi

theorem once_attemptFullDecoding (hL : d.ListedStored) (hI : d.OnceWhile [])
    (h : d.attemptFullDecoding b g = .ok d') : d'.OnceWhile [] := by
  rcases attemptFullDecoding_cases h with
    ⟨rfl, -⟩ | ⟨-, _, _, m, -, -, hcases⟩
  · exact hI
  · have hI1 : ({ d with coefficients := m.mat, inv := m.inv } : Decoder w).OnceWhile [] :=
      ⟨hI.outOfOrder, linkedWhile_congr (d := d) rfl rfl rfl hI.linked, hI.recent, hI.nodup,
        hI.remembered⟩
    rcases hcases with ⟨k, -, hf⟩ | ⟨-, ha⟩
    · have hL1 : ({ d with coefficients := m.mat, inv := m.inv } : Decoder w).ListedStored :=
        listedStored_congr (d := d) rfl rfl hL
      exact once_dropFaulty hL1 hI1 hf
    · exact once_decodeAll hI1 ha

/-- A late repair makes sources recent again, one of which was given and is no longer known. -/
def reopens (d : Decoder w) : Incoming → Bool
  | .source _ => false
  | .repair r => d.accepts r && d.delivered.any fun i =>
      decide (firstId r ≤ i) && d.outdated i && !d.sources.contains i

theorem outdated_iff : d.outdated i = true ↔ ∃ l, d.lastId = some l ∧ i < l := by
  rw [outdated]
  cases d.lastId <;> simp

theorem outdated_some (h : d.lastId = some k) : d.outdated i = decide (i < k) := by
  rw [outdated, h, Option.any_some]

theorem once_dropOutdated (hL : d.ListedStored) (hI : d.OnceWhile [])
    (hreopens : ∀ i ∈ d.delivered, k ≤ i → d.outdated i = true → d.sources.contains i = true)
    (h : d.dropOutdated b k = .ok d') : d'.OnceWhile [] := by
  obtain ⟨d1, d2, heq1, h2, heq2, hdrops⟩ := dropOutdated_cases h
  have hout : d1.inOrder = false := by
    rw [heq1]
    exact hI.outOfOrder
  rw [dropOrdered, hout, if_neg Bool.false_ne_true] at h2
  cases h2
  have hdelivered : d'.delivered = d.delivered := by
    rw [heq2, heq1]
    rfl
  have hlinked := linked_drops (linked_iff_linkedWhile.mpr ⟨hL, hI.linked⟩) hdrops
  refine ⟨hdrops.inOrder.trans hI.outOfOrder, (linked_iff_linkedWhile.mp hlinked).2, fun i hi => ?_,
    hdelivered ▸ hI.nodup, fun i hi => ?_⟩
  · rw [outdated_some hdrops.lastId, decide_eq_false]
    exact not_lt.mpr ((hdrops.missing i).mp hi).1
  · rw [hdelivered] at hi
    rw [outdated_some hdrops.lastId, hdrops.sources, OrdMap.contains_eraseBelow, Bool.and_eq_true,
      decide_eq_true_eq, decide_eq_true_eq]
    by_cases hki : k ≤ i
    · refine Or.inl ⟨hki, ?_⟩
      obtain hs | ho | ⟨x, hx, -⟩ := hI.remembered i hi
      exacts [hs, hreopens i hi hki ho, absurd hx List.not_mem_nil]
    · exact Or.inr (Or.inl (not_le.mp hki))

theorem once_accepted (hL : d.ListedStored) (hI : d1.OnceWhile [])
    (hA : Accepted r (firstId r) d d1 d2 r2) : d2.OnceWhile [] := by
  have hL1 := listedStored_drops hL hA.drops
  have hlinked := linked_accepted (linked_iff_linkedWhile.mpr ⟨hL1, hI.linked⟩) hL hA
  refine ⟨?_, (linked_iff_linkedWhile.mp hlinked).2, fun i hi => ?_, ?_, fun i hi => ?_⟩
  · rw [hA.frame]
    exact hI.outOfOrder
  · have hlast : d2.lastId = d1.lastId := by rw [hA.frame]
    rw [outdated_congr hlast]
    rcases (hA.missing i).mp hi with hi | hi
    · exact hI.recent i hi
    · rw [outdated_some hA.drops.lastId, decide_eq_false]
      exact not_lt.mpr (firstId_le ((hA.ids i).mp hi).1)
  · rw [hA.frame]
    exact hI.nodup
  · rw [hA.frame] at hi ⊢
    exact hI.remembered i hi

theorem once_receive (hL : d.ListedStored) (hI : d.OnceWhile [])
    (hshared : d.rebuildsShared p = false) (hreopens : d.reopens p = false)
    (h : d.receive b g p = .ok d') : d'.OnceWhile [] := by
  cases p with
  | source src =>
    rcases receiveSource_cases h with ⟨rfl, -⟩ | ⟨ho, hs, d1, h1, h2⟩
    · exact hI
    · have hn : d.New [] src.id := ⟨hs, ho, fun x hx => absurd hx List.not_mem_nil⟩
      exact once_attemptFullDecoding (settled_addSource hL h1).listed
        (once_rule.addSource hL ⟨hI, hn⟩ h1) h2
  | repair r =>
    obtain ⟨-, ⟨rfl, -⟩ | ⟨hacc, hcases⟩⟩ := receiveRepair_cases h
    · exact hI
    · have hkept : ∀ i ∈ d.delivered, firstId r ≤ i → d.outdated i = true →
          d.sources.contains i = true := by
        intro i hi hle ho
        rw [reopens, hacc, Bool.true_and, List.any_eq_false] at hreopens
        simpa [hle, ho] using hreopens i hi
      rcases hcases with ⟨d1, h1, -, rfl⟩ | ⟨d1, d2, r2, ha, h2⟩
      · have hI1 := once_dropOutdated hL hI hkept h1
        exact ⟨hI1.outOfOrder, linkedWhile_congr (d := d1) rfl rfl rfl hI1.linked, hI1.recent,
          hI1.nodup, hI1.remembered⟩
      · have hA := ha.accepted (contains_of_accepts hacc)
        have hI2 := once_accepted hL (once_dropOutdated hL hI hkept ha.drop) hA
        have hL2 := hA.listedStored hL
        rcases h2 with ⟨hone, src, hc, hadd⟩ | ⟨-, hfull⟩
        · have hids := createSourceFromRepair_only hc hone
          have hmem : src.id ∈ r2.sourceIds := by simp [FlatSet.mem_iff, hids]
          obtain ⟨hir, hunknown⟩ := (hA.ids src.id).mp hmem
          have hrem := once_removeDecoded hI2
            (hA.linkedWhile_removeDecoded hI2.linked hacc hids hshared)
          refine once_rule.addSource (listedStored_removeDecoded hL2 hA.stored hids)
            ⟨hrem, ⟨?_, ?_, fun x hx => absurd hx List.not_mem_nil⟩⟩ hadd
          · show d2.sources.contains src.id = false
            rw [hA.frame]
            exact hunknown
          · have hlast : d2.lastId = d1.lastId := by rw [hA.frame]
            show d2.outdated src.id = false
            rw [outdated_congr hlast, outdated_some hA.drops.lastId, decide_eq_false]
            exact not_lt.mpr (firstId_le hir)
        · exact once_attemptFullDecoding hL2 hI2 hfull

theorem once_initial : (initial false : Decoder w).OnceWhile [] :=
  ⟨rfl, (linked_iff_linkedWhile.mp (linked_initial false)).2, fun _ hi => absurd hi Bool.false_ne_true,
    List.nodup_nil, fun _ hi => absurd hi List.not_mem_nil⟩

/-- Out of order, each source is given to the callback at most once, in every run in which no late
repair makes the decoder forget sources it gave and no source is rebuilt directly while another
repair references it. -/
theorem delivered_nodup (h : Run (receive b g)
    (fun d p => d.rebuildsShared p = false ∧ d.reopens p = false) (initial false) ps d) :
    d.delivered.Nodup :=
  (h.invariant (fun d : Decoder w => d.ListedStored ∧ d.OnceWhile [])
    (fun _ _ _ hI hc hs =>
      ⟨listedStored_receive hI.1 hs, once_receive hI.1 hI.2 hc.1 hc.2 hs⟩)
    ⟨listedStored_initial false, once_initial⟩).2.nodup

theorem delivered_nodup_slidingCalls : ∃ d,
    runWhile (receive .release gf16)
      (fun d p => d.rebuildsShared p = false ∧ d.reopens p = false) (initial false)
      (arrivals .release (packets .release gf16 slidingCalls) [0, 2, 4]) = some d ∧
    d.delivered = [0, 1, 2] ∧ d.delivered.Nodup := by
  have hrun : (runWhile (receive .release gf16)
      (fun d p => d.rebuildsShared p = false ∧ d.reopens p = false) (initial false)
      (arrivals .release (packets .release gf16 slidingCalls) [0, 2, 4])).any
        (fun d => decide (d.delivered = [0, 1, 2])) = true := by
    decide +kernel
  obtain ⟨d, hd, hdel⟩ := (Option.any_eq_true _ _).mp hrun
  exact ⟨d, hd, by simpa using hdel, delivered_nodup (run_of_runWhile hd)⟩

/-- The first repair arrives after the second one, and rebuilds source 0, which was outdated. -/
theorem slidingCalls_twice : ∃ d, deliver .release gf16 false slidingCalls [0, 1, 4, 2] = .ok d ∧
    d.delivered = [0, 1, 2, 0] ∧ ¬ d.delivered.Nodup := by
  have hrun : (deliver .release gf16 false slidingCalls [0, 1, 4, 2]).toOption.any
      (fun d => decide (d.delivered = [0, 1, 2, 0])) = true := by
    decide +kernel
  obtain ⟨d, hd, hdel⟩ := exists_ok_of_any hrun
  have heq : d.delivered = [0, 1, 2, 0] := by simpa using hdel
  exact ⟨d, hd, heq, by rw [heq]; decide⟩

end Netcode.Detail.Decoder
