import Netcode.Redelivery.Current

/-! A source or a repair that arrives again at once: no more than counters change. -/
namespace Netcode.Detail.Decoder

open Containers Runs

variable {w : FieldSize} {b : Build} {g : GfComplete w} {d d' d1 d2 : Decoder w}
  {src : DecoderSource} {r r2 : DecoderRepair} {p : Incoming} {ps : List Incoming}
  {pending : List DecoderSource} {old cs : List Callback} {l : List ℕ} {f k ρ : ℕ}

/-- Nothing differs but the numbers of useless repairs and of failed full decodings, which may have
grown, and what the matrices hold. -/
def OnlyCounts (d d' : Decoder w) : Prop := ∃ useless failed coefficients inv,
  d.nbUselessRepairs ≤ useless ∧ d.nbFailedFullDecodings ≤ failed ∧
  d' = { d with
    nbUselessRepairs := useless
    nbFailedFullDecodings := failed
    coefficients := coefficients
    inv := inv }

theorem OnlyCounts.refl (d : Decoder w) : OnlyCounts d d := ⟨_, _, _, _, le_rfl, le_rfl, rfl⟩

theorem useless_iff :
    d.useless r = true ↔ ∀ i ∈ r.sourceIds, d.sources.contains i = true := List.all_eq_true

/-- What is done with a repair for which nothing is outdated. -/
theorem receiveRepair_current (hI : d.Current old (firstId r) [])
    (hfirst : d.inOrder = true → firstId r ≤ d.firstMissingSourceInOrder ∧
      d.firstMissingSourceInOrder ∉ d.orderedSources) (hne : r.sourceIds.toList ≠ []) :
    d.receiveRepair b g r = if d.repairs.contains r.id then .ok d
      else if d.useless r then .ok { d with nbUselessRepairs := d.nbUselessRepairs + 1 }
      else d.addRepair b g r := by
  obtain ⟨i, l, hl⟩ := List.exists_cons_of_ne_nil hne
  have hassert : b.assert .emptyRepair (!r.sourceIds.isEmpty) = .ok () :=
    Build.assert_eq_ok (by rw [FlatSet.isEmpty, hl]; rfl)
  have hid : firstId r = i := by rw [firstId, hl, List.headD_cons]
  have hrecent : d.outdated ((i :: l).getLast (List.cons_ne_nil _ _)) = false := by
    rw [outdated_some hI.lastId, decide_eq_false_iff_not, not_lt]
    refine firstId_le ?_
    rw [FlatSet.mem_iff, hl]
    exact List.getLast_mem _
  have hdrop : d.dropOutdated b i = .ok d := hid ▸ dropOutdated_current hI hfirst
  simp only [receiveRepair, hassert, ok_bind, hl, hrecent, Bool.false_eq_true, if_false, hdrop]

/-- Linking a repair depends on the stored repairs and on the known sources alone, as to the
repairs. -/
theorem linkLoop_congr {s t u : Decoder w} (hr : t.repairs = s.repairs)
    (hs : t.sources = s.sources) (h : l.foldlM (link b g ρ) s = .ok u) :
    ∃ v, l.foldlM (link b g ρ) t = .ok v ∧ v.repairs = u.repairs := by
  induction l generalizing s t with
  | nil =>
    cases h
    exact ⟨t, rfl, hr⟩
  | cons a l ih =>
    rw [List.foldlM_cons] at h
    obtain ⟨u1, h1, h2⟩ := bind_ok_iff.mp h
    rw [List.foldlM_cons]
    cases hsrc : s.sources.find? a with
    | some src =>
      obtain ⟨q, q', hq, hrm, heq⟩ := (link_known hsrc).mp h1
      rw [(link_known (hs ▸ hsrc)).mpr ⟨q, q', hr ▸ hq, hrm, rfl⟩, ok_bind]
      exact ih (by rw [heq, hr]) (by rw [heq]; exact hs) h2
    | none =>
      rw [link_unknown hsrc] at h1
      rw [(link_unknown (hs ▸ hsrc)).mpr rfl, ok_bind]
      exact ih (by rw [h1]; exact hr) (by rw [h1]; exact hs) h2

/-- A repair that a failed full decoding erased is linked as it was. -/
theorem relink {m : Matrices w} (ha : Accepts b g r (firstId r) d d1 d2 r2)
    (hA : Accepted r (firstId r) d d1 d2 r2)
    (hf : dropFaulty k { d2 with coefficients := m.mat, inv := m.inv } = .ok d')
    (hgone : d'.repairs.contains r.id = false) :
    r.sourceIds.toList.reverse.foldlM (link b g r.id)
      { d' with repairs := d'.repairs.insert r.id r } = .ok { d' with
        repairs := d2.repairs
        missingSources := d2.missingSources } := by
  obtain ⟨ρ, q, hq, heq, hmissing, hreferences⟩ := dropFaulty_spec hf
  have hq' : d2.repairs.find? ρ = some q := hq
  have hsources : d'.sources = d1.sources := by rw [heq, hA.frame]
  obtain rfl : ρ = r.id := by
    by_contra hne
    rw [heq, OrdMap.contains_eq_false_iff] at hgone
    have hstored : (d2.repairs.erase ρ).find? r.id = none := hgone
    rw [OrdMap.find?_erase_ne (Ne.symm hne), hA.stored] at hstored
    cases hstored
  rw [hA.stored] at hq'
  cases hq'
  have hrepairs : d'.repairs.insert r.id r = d1.repairs.insert r.id r := by
    apply OrdMap.ext_find?
    intro ρ
    rw [OrdMap.find?_insert, OrdMap.find?_insert, heq]
    split
    · rfl
    · next hρ => exact (OrdMap.find?_erase_ne hρ).trans (hA.repairs ρ hρ)
  obtain ⟨v, hv, hvr⟩ := linkLoop_congr (s := { d1 with repairs := d1.repairs.insert r.id r })
    (t := { d' with repairs := d'.repairs.insert r.id r }) hrepairs hsources ha.link
  have hlink := linkLoop_spec OrdMap.find?_insert_self hv
  have hids : ∀ i, (i ∈ r.sourceIds ∧ d'.sources.contains i = false) ↔ i ∈ r2.sourceIds :=
    fun i => by rw [hA.ids, hsources]
  have hvm : v.missingSources = d2.missingSources := by
    refine missingSources_ext (fun i => ?_) fun i ρ => ?_
    · rw [hlink.missing, hmissing]
      simp only [List.not_mem_nil, not_false_eq_true, true_and, hids]
      show (d2.missingSources.contains i = true ∨ _) ∨ _ ↔ _
      rw [hA.missing]
      tauto
    · rw [hlink.references]
      simp only [List.not_mem_nil, not_false_eq_true, true_and, hids]
      show d'.References i ρ ∨ _ ↔ _
      rw [hreferences]
      show d2.References i ρ ∧ _ ∨ _ ↔ _
      rw [hA.references]
      tauto
  rw [hv, hlink.frame, hvr, hvm]

theorem useless_decodeAll {m : Matrices w} (hA : Accepted r (firstId r) d d1 d2 r2)
    (h : decodeAll b g { d2 with coefficients := m.mat, inv := m.inv } = .ok d') :
    d'.useless r = true := by
  obtain ⟨c, o, f, s, n, rfl, hs⟩ := decodeAll_decoding h
  refine useless_iff.mpr fun i hi => (hs i).mpr ?_
  show d2.missingSources.contains i = true ∨ d2.sources.contains i = true
  have hsources : d2.sources = d1.sources := by rw [hA.frame]
  rw [hA.missing, hA.ids, hsources]
  cases hknown : d1.sources.contains i with
  | true => exact Or.inr rfl
  | false => exact Or.inl (Or.inr ⟨hi, rfl⟩)

/-- A repair that took part in a full decoding and is neither stored nor useless was erased, and is
again. -/
theorem addRepair_again (hb : b.asserts = true) (ha : Accepts b g r (firstId r) d d1 d2 r2)
    (hA : Accepted r (firstId r) d d1 d2 r2) (hmany : r2.sourceIds.size ≠ 1)
    (h : d2.attemptFullDecoding b g = .ok d') (hgone : d'.repairs.contains r.id = false)
    (huseful : d'.useless r = false) : ∃ d'', d'.addRepair b g r = .ok d'' ∧ OnlyCounts d' d'' := by
  have henough : d2.enoughRepairs = true := by
    rcases attemptFullDecoding_cases h with ⟨rfl, -⟩ | ⟨henough, -⟩
    · rw [OrdMap.contains_of_find? hA.stored] at hgone
      cases hgone
    · exact henough
  obtain ⟨hn, hsize⟩ := square_of_asserts hb henough h
  obtain ⟨blamed, m, heq, -, hblamed, hunit, -⟩ :=
    attemptFullDecoding_eq (b := b) (g := g) hn hsize
  rw [heq] at h
  rcases hblamed with rfl | rfl
  · rw [useless_decodeAll hA h] at huseful
    cases huseful
  have hlink := relink ha hA h hgone
  obtain ⟨blamed', m', heq', -, hblamed', hunit', -⟩ := attemptFullDecoding_eq (b := b) (g := g)
    (d := { d' with repairs := d2.repairs, missingSources := d2.missingSources }) hn hsize
  -- The matrix is that of the first time.
  have hsome : blamed' = some (d2.repairs.size - 1) := by
    refine hblamed'.resolve_left fun hnone => ?_
    have hno := hunit.mpr (hunit'.mp hnone)
    cases hno
  subst hsome
  have hnonempty : b.assert .allSourcesKnown (!r2.sourceIds.isEmpty) = .ok () := by
    obtain ⟨i, hi, hunknown⟩ := exists_unknown ha.useful
    refine Build.assert_eq_ok ?_
    rw [FlatSet.isEmpty_eq_false_iff.mpr ⟨i, (hA.ids i).mpr ⟨hi, hunknown⟩⟩]
    rfl
  have hadd : d'.addRepair b g r = attemptFullDecoding b g
      { d' with repairs := d2.repairs, missingSources := d2.missingSources } := by
    simp only [addRepair, hgone, Bool.not_false, Build.assert_true, ok_bind, hlink, useRepair,
      hA.stored, hnonempty, if_neg hmany]
  rw [hadd, heq']
  simp only [dropFaulty] at h ⊢
  cases he : d2.repairs.entries[d2.repairs.size - 1]? with
  | none => simp [he] at h
  | some e =>
    simp only [he, Except.ok.injEq] at h ⊢
    refine ⟨_, rfl, d'.nbUselessRepairs, d'.nbFailedFullDecodings + 1, m'.mat, m'.inv, le_rfl,
      Nat.le_succ _, ?_⟩
    subst h
    rfl

theorem contains_addSource (hL : d.ListedStored) (h : d.addSourceRecursive b g src = .ok d') :
    d'.sources.contains src.id = true := by
  rw [addSourceRecursive_eq_peel hL] at h
  simp only [peel, bind_ok_iff] at h
  obtain ⟨-, -, -, -, d3, -, h4⟩ := h
  exact (contains_store h4 _).mpr (Or.inl rfl)

/-- A repair from which its only missing source was rebuilt is useless. -/
theorem useless_rebuilt (hL : d.ListedStored) (hA : Accepted r (firstId r) d d1 d2 r2)
    (hone : r2.sourceIds.size = 1) (hcreate : createSourceFromRepair b g r2 = .ok src)
    (h : (d2.removeDecoded src.id r.id).addSourceRecursive b g src = .ok d') :
    d'.useless r = true := by
  have hids := createSourceFromRepair_only hcreate hone
  have hL2 := listedStored_removeDecoded (hA.listedStored hL) hA.stored hids
  refine useless_iff.mpr fun i hi => ?_
  cases hknown : d1.sources.contains i with
  | true =>
    refine contains_keeps ((keeps_rule _).addSource hL2 (Keeps.refl _) h) ?_
    rw [hA.frame]
    exact hknown
  | false =>
    have hmem := (hA.ids i).mpr ⟨hi, hknown⟩
    rw [FlatSet.mem_iff, hids, List.mem_singleton] at hmem
    rw [hmem]
    exact contains_addSource hL2 h

/-- Once a source was received, its copy is outdated or known. -/
theorem receiveSource_again (hL : d.ListedStored) (h : d.receiveSource b g src = .ok d') :
    d'.receiveSource b g src = .ok d' := by
  rcases receiveSource_cases h with ⟨rfl, -⟩ | ⟨-, -, d1, h1, h2⟩
  · exact h
  · have hknown := contains_keeps (keeps_attemptFullDecoding h2) (contains_addSource hL h1)
    rw [receiveSource, hknown]
    simp

/-- What is stored once a repair was accepted is from its first identifier on. -/
theorem current_receiveRepair (hI : d.Holding) (hr : ∀ i ∈ r.sourceIds, Fits i)
    (hacc : d.accepts r = true) (h : d.receiveRepair b g r = .ok d') :
    d'.Current d.callbacks (firstId r) [] := by
  have hkeyed : d.Keyed := fun i x hx => (hI.fitting.sources i x hx).1
  obtain ⟨-, ⟨-, hno⟩ | ⟨-, ⟨d1, h1, -, rfl⟩ | ⟨d1, d2, r2, ha, h2⟩⟩⟩ := receiveRepair_cases h
  · rw [hacc] at hno
    cases hno
  · have hI1 := current_dropOutdated hkeyed hI.queued h1
    exact ⟨hI1.lastId, hI1.repairs, hI1.sources, hI1.missing, hI1.waiting, hI1.pending,
      flushed_congr (d := d1) rfl rfl rfl rfl hI1.flushed⟩
  · have hA := ha.accepted (contains_of_accepts hacc)
    have hI2 := current_accepted hA ha.useful (current_dropOutdated hkeyed hI.queued ha.drop)
    have hfit2 : d2.Fitting := contents_accepts (closed_naming Fits) hI.fitting hr ha
    have hq2 : d2.Queued := queued_congr (by rw [hA.frame]) (by rw [hA.frame]) (by rw [hA.frame])
      (by rw [hA.frame]) (queued_dropOutdated hI.queued ha.drop)
    rcases h2 with ⟨hone, src, hcreate, hadd⟩ | ⟨-, hfull⟩
    · have hids := createSourceFromRepair_only hcreate hone
      have hmem : src.id ∈ r2.sourceIds := by
        rw [FlatSet.mem_iff, hids]
        exact List.mem_singleton_self _
      exact (current_rule.addSource
        (listedStored_removeDecoded (hA.listedStored hI.listed) hA.stored hids)
        ⟨⟨⟨contents_removeDecoded hfit2, hr _ ((hA.ids _).mp hmem).1⟩,
          queued_congr (d := d2) rfl rfl rfl rfl hq2⟩, current_removeDecoded hI2,
          firstId_le ((hA.ids _).mp hmem).1, not_missing_removeDecoded _ _ _⟩ hadd).2
    · exact current_attemptFullDecoding hfit2 hq2 hI2 hfull

/-- A repair that was accepted is stored, useless, or erased by a failed full decoding. -/
theorem receiveRepair_again (hb : b.asserts = true) (hI : d.Holding)
    (hr : ∀ i ∈ r.sourceIds, Fits i) (h : d.receiveRepair b g r = .ok d')
    (hlast : d.inOrder = true → ¬ Wraps (d'.callbacks.drop d.callbacks.length)) :
    ∃ d'', d'.receiveRepair b g r = .ok d'' ∧ OnlyCounts d' d'' := by
  obtain ⟨hne, ⟨rfl, -⟩ | ⟨hacc, hcases⟩⟩ := receiveRepair_cases h
  · exact ⟨d', h, OnlyCounts.refl d'⟩
  have hC := current_receiveRepair hI hr hacc h
  have hio : d'.inOrder = d.inOrder := inOrder_receive (p := .repair r) hI.listed h
  have hfirst : d'.inOrder = true → firstId r ≤ d'.firstMissingSourceInOrder ∧
      d'.firstMissingSourceInOrder ∉ d'.orderedSources := by
    intro hin
    obtain ⟨cs, hcs, hf⟩ := hC.flushed
    refine (hf hin).resolve_left fun hw => hlast (hio ▸ hin) ?_
    rwa [hcs, List.drop_left]
  rw [receiveRepair_current hC hfirst hne]
  split
  · exact ⟨d', rfl, OnlyCounts.refl d'⟩
  · next hgone =>
    split
    · exact ⟨_, rfl, _, _, _, _, Nat.le_succ _, le_rfl, rfl⟩
    · next huseful =>
      rw [Bool.not_eq_true] at hgone huseful
      rcases hcases with ⟨d1, h1, hu, rfl⟩ | ⟨d1, d2, r2, ha, h2⟩
      · exact absurd hu (by rw [Bool.not_eq_true]; exact huseful)
      · have hA := ha.accepted (contains_of_accepts hacc)
        rcases h2 with ⟨hone, src, hcreate, hadd⟩ | ⟨hmany, hfull⟩
        · rw [useless_rebuilt hI.listed hA hone hcreate hadd] at huseful
          cases huseful
        · exact addRepair_again hb ha hA hmany hfull hgone huseful

/-- In every run with assertions, what was just received can be received again, after which only
the numbers of useless repairs and failed decodings may have grown, unless it is a repair from which
the source of the greatest identifier was given in order the first time. -/
theorem received_again {inOrder : Bool} (hb : b.asserts = true)
    (hps : ∀ p ∈ ps, ∀ i ∈ p.ids, i < 2 ^ 32) (hp : ∀ i ∈ p.ids, i < 2 ^ 32)
    (hrun : ps.foldlM (receive b g) (initial inOrder) = .ok d) (h : d.receive b g p = .ok d')
    (hlast : inOrder = true → ∀ r, p = .repair r →
      ¬ Wraps (d'.callbacks.drop d.callbacks.length)) :
    ∃ d'', d'.receive b g p = .ok d'' ∧ OnlyCounts d' d'' := by
  obtain ⟨hI, rfl⟩ := holding_run hps hrun
  cases p with
  | source src => exact ⟨d', receiveSource_again hI.listed h, OnlyCounts.refl d'⟩
  | repair r => exact receiveRepair_again hb hI hp h fun hio => hlast hio r rfl

/-- A repair of sources 0 and 1 gives source 1 once source 0 is known. -/
theorem received_again_pairCalls : ∃ d d' d'' p,
    (arrivals .debug (packets .debug gf16 pairCalls) [0]).foldlM (receive .debug gf16)
      (initial true) = .ok d ∧
    (arrivals .debug (packets .debug gf16 pairCalls) [2]) = [p] ∧
    d.receive .debug gf16 p = .ok d' ∧ d'.delivered = [0, 1] ∧
    d'.receive .debug gf16 p = .ok d'' ∧ OnlyCounts d' d'' := by
  have hrun : ((arrivals .debug (packets .debug gf16 pairCalls) [0]).foldlM (receive .debug gf16)
      (initial true)).toOption.any (fun d : Decoder .w4 =>
        (arrivals .debug (packets .debug gf16 pairCalls) [2]).head?.any fun p : Incoming =>
          decide ((∀ i ∈ p.ids, i < 2 ^ 32) ∧
            arrivals .debug (packets .debug gf16 pairCalls) [2] = [p]) &&
          (d.receive .debug gf16 p).toOption.any fun d' : Decoder .w4 =>
            decide (d'.delivered = [0, 1] ∧
              ¬ Wraps (d'.callbacks.drop d.callbacks.length))) = true := by
    decide +kernel
  obtain ⟨d, hd, hcheck⟩ := exists_ok_of_any hrun
  obtain ⟨p, -, hp⟩ := (Option.any_eq_true _ _).mp hcheck
  obtain ⟨hp1, hp2⟩ := Bool.and_eq_true_iff.mp hp
  obtain ⟨hids, hone⟩ := of_decide_eq_true hp1
  obtain ⟨d', hd', hgiven⟩ := exists_ok_of_any hp2
  obtain ⟨hdelivered, hwraps⟩ := of_decide_eq_true hgiven
  obtain ⟨d'', hd'', hcounts⟩ := received_again rfl (by decide +kernel) hids hd hd' fun _ _ _ => hwraps
  exact ⟨d, d', d'', p, hd, hone, hd', hdelivered, hd'', hcounts⟩

/-- A repair of the source of the greatest identifier, of no byte. -/
def greatestRepair : DecoderRepair := ⟨0, FlatSet.singleton (2 ^ 32 - 1), 0#16, [1], 1⟩

/-- It is given in order and made to wait, as the first missing source is then source 0; its copy
gives it again. -/
theorem greatestRepair_twice : ∃ d' d'', (initial true).receive .checked gf16
      (.repair greatestRepair) = .ok d' ∧
    d'.receive .checked gf16 (.repair greatestRepair) = .ok d'' ∧
    d'.delivered = [2 ^ 32 - 1] ∧ d''.delivered = [2 ^ 32 - 1, 2 ^ 32 - 1] := by
  have hrun : ((initial true).receive .checked gf16 (.repair greatestRepair)).toOption.any
      (fun d' : Decoder .w4 => decide (d'.delivered = [2 ^ 32 - 1]) &&
        (d'.receive .checked gf16 (.repair greatestRepair)).toOption.any fun d'' : Decoder .w4 =>
          decide (d''.delivered = [2 ^ 32 - 1, 2 ^ 32 - 1])) = true := by
    decide +kernel
  obtain ⟨d', hd', hcheck⟩ := exists_ok_of_any hrun
  obtain ⟨honce, hcopy⟩ := Bool.and_eq_true_iff.mp hcheck
  obtain ⟨d'', hd'', htwice⟩ := exists_ok_of_any hcopy
  exact ⟨d', d'', hd', hd'', of_decide_eq_true honce, of_decide_eq_true htwice⟩

end Netcode.Detail.Decoder
