import Netcode.Fifo
import Netcode.InOrder
import Netcode.Redelivery.Current

/-! In order, the sources before the first missing one are held, and no repair makes the decoder go
back to them. -/
namespace Netcode.Detail.Decoder

open Containers Equations Runs

variable {w : FieldSize} {b : Build} {g : GfComplete w}

variable {d d' d1 d2 : Decoder w} {src y : DecoderSource} {r r2 : DecoderRepair} {p : Incoming}
  {pending : List DecoderSource} {i k ρ : ℕ}

/-- The sources that wait are known, and those before the first missing one are held, or about to be
stored. -/
structure Passed (d : Decoder w) (pending : List DecoderSource) : Prop where
  waiting : ∀ k ∈ d.orderedSources, d.sources.contains k = true
  before : ∀ i < d.firstMissingSourceInOrder, d.Held i ∨ ∃ x ∈ pending, x.id = i

theorem held_congr (hl : d'.lastId = d.lastId) (hs : d'.sources = d.sources) :
    d'.Held i ↔ d.Held i := by
  rw [Held, Held, outdated_congr hl, hs]

theorem passed_congr (hl : d'.lastId = d.lastId) (hs : d'.sources = d.sources)
    (ho : d'.orderedSources = d.orderedSources)
    (hf : d'.firstMissingSourceInOrder = d.firstMissingSourceInOrder) (hI : d.Passed pending) :
    d'.Passed pending := by
  refine ⟨by rw [ho, hs]; exact hI.waiting, fun i hi => ?_⟩
  rw [hf] at hi
  rw [held_congr hl hs]
  exact hI.before i hi

theorem passed_sweep (hI : d.Passed pending) (h : d.sweep k = .ok d') : d'.Passed pending := by
  obtain ⟨x, -, rfl⟩ := sweep_ok_iff.mp h
  exact ⟨fun j hj => hI.waiting j (FlatSet.mem_erase.mp hj).1, hI.before⟩

theorem passed_advance (hI : d.Passed pending)
    (hfirst : d.Held d.firstMissingSourceInOrder ∨ ∃ x ∈ pending, x.id = d.firstMissingSourceInOrder) :
    d.advance.Passed pending := by
  refine ⟨hI.waiting, fun i hi => ?_⟩
  rcases Nat.lt_or_eq_of_le (Nat.le_of_lt_succ (hi.trans_le (advance_le d))) with hi | rfl
  · exact hI.before i hi
  · exact hfirst

theorem passed_flush (hI : d.Passed pending) (h : d.flushOrderedSources b = .ok d') :
    d'.Passed pending := by
  refine flushOrderedSources_rule (fun u => u.Passed pending) (fun u v hu hmem hv => ?_) hI h
  refine passed_advance (passed_sweep hu hv) (Or.inl ?_)
  have hdel := sweep_delivers hv
  rw [held_congr (lastId_delivers hdel) (sources_delivers hdel), first_sweep hv]
  exact Or.inr (hu.waiting _ hmem)

theorem passed_mono (hI : d.Passed pending) (x : DecoderSource) : d.Passed (x :: pending) := by
  refine ⟨hI.waiting, fun i hi => (hI.before i hi).imp_right ?_⟩
  rintro ⟨y, hy, hid⟩
  exact ⟨y, List.mem_cons_of_mem x hy, hid⟩

theorem passed_give (hI : d.Passed pending) (hid : src.id = d.firstMissingSourceInOrder)
    (hsrc : d.Held src.id ∨ ∃ x ∈ pending, x.id = src.id)
    (h : (d.callback src).advance.flushOrderedSources b = .ok d') : d'.Passed pending := by
  refine passed_flush (passed_advance ?_ ?_) h
  · exact passed_congr (d := d) rfl rfl rfl rfl hI
  · exact hid ▸ hsrc

theorem passed_offer (hI : d.Passed pending) (h : d.offer b src = .ok d') :
    d'.Passed (src :: pending) := by
  rcases offer_cases h with ⟨-, rfl⟩ | ⟨-, ⟨hid, hf⟩ | ⟨-, rfl⟩⟩
  · exact passed_congr (d := d) rfl rfl rfl rfl (passed_mono hI src)
  · exact passed_give (passed_mono hI src) hid (Or.inr ⟨src, List.mem_cons_self, rfl⟩) hf
  · exact passed_mono hI src

theorem passed_store (hI : d.Passed (src :: pending)) (h : d.store b src = .ok d') :
    d'.Passed pending := by
  have heq := (store_spec h).2
  have hkeeps := keeps_store h
  refine ⟨fun k hk => ?_, fun i hi => ?_⟩
  · rw [contains_store h]
    rw [heq] at hk
    dsimp only at hk
    split at hk
    · rcases FlatSet.mem_insert.mp hk with hk | hk
      · exact Or.inl hk
      · exact Or.inr (hI.waiting k hk)
    · exact Or.inr (hI.waiting k hk)
  · have hi' : i < d.firstMissingSourceInOrder := by
      rw [heq] at hi
      exact hi
    rcases hI.before i hi' with (ho | hs) | ⟨x, hx, hid⟩
    · exact Or.inl (Or.inl ((outdated_congr hkeeps.lastId).trans ho))
    · exact Or.inl (Or.inr (contains_keeps hkeeps hs))
    · rcases List.mem_cons.mp hx with rfl | hx
      · exact Or.inl (Or.inr ((contains_store h i).mpr (Or.inl hid.symm)))
      · exact Or.inr ⟨x, hx, hid⟩

theorem passed_rule : PeelRule b g (fun pending _ (d : Decoder w) => d.Passed pending)
    (fun pending d => d.Passed pending) where
  add hP _ ho hs := by
    have heq := (stripFromRepairs_spec hs).1
    refine passed_congr ?_ ?_ ?_ ?_ (passed_offer hP ho)
    all_goals rw [heq]
  decode := by
    rintro pending src d k ρ r y hI - - - - - -
    exact passed_congr (d := d) rfl rfl rfl rfl hI
  store hI h := passed_store hI h

theorem passed_insertDecoded (hI : d.Passed []) (h : d.insertDecoded b src = .ok d') :
    d'.Passed [] := by
  obtain ⟨inserted, d1, hins, rfl, hcases⟩ := insertDecoded_cases h
  have hcontains : ∀ i, (d.sources.insert src.id inserted).contains i = true ↔
      i = src.id ∨ d.sources.contains i = true := by
    intro i
    simp [OrdMap.contains_insert]
  have hI1 : Passed { d with sources := d.sources.insert src.id inserted } [] := by
    refine ⟨fun k hk => (hcontains k).mpr (Or.inr (hI.waiting k hk)), fun i hi => ?_⟩
    refine (hI.before i hi).imp_left fun hheld => ?_
    exact hheld.imp_right fun hs => (hcontains i).mpr (Or.inr hs)
  rcases hcases with ⟨-, rfl⟩ | ⟨-, hfirst, hf⟩ | ⟨-, -, rfl⟩
  · exact passed_congr (d := { d with sources := d.sources.insert src.id inserted })
      rfl rfl rfl rfl hI1
  · refine passed_flush (passed_advance ?_ (Or.inl (Or.inr ?_))) hf
    · exact passed_congr (d := { d with sources := d.sources.insert src.id inserted })
        rfl rfl rfl rfl hI1
    · exact (hcontains _).mpr (Or.inl hfirst.symm)
  · refine ⟨fun k hk => ?_, hI1.before⟩
    rcases FlatSet.mem_insert.mp hk with hk | hk
    · exact (hcontains k).mpr (Or.inl hk)
    · exact hI1.waiting k hk

theorem passed_attemptFullDecoding (hI : d.Passed []) (h : d.attemptFullDecoding b g = .ok d') :
    d'.Passed [] := by
  rcases attemptFullDecoding_cases h with
    ⟨rfl, -⟩ | ⟨-, _, _, m, -, -, ⟨k, -, hf⟩ | ⟨-, ha⟩⟩
  · exact hI
  · obtain ⟨_, _, -, heq, -⟩ := dropFaulty_spec hf
    refine passed_congr ?_ ?_ ?_ ?_ hI
    all_goals rw [heq]
  · obtain ⟨d1, h1, rfl⟩ := decodeAll_cases ha
    have hstart : Passed ({ d with coefficients := m.mat, inv := m.inv } : Decoder w) [] :=
      passed_congr (d := d) rfl rfl rfl rfl hI
    have hloop := foldlM_invariant (f := decodeColumn b g _) (fun u => u.Passed []) ?_ hstart h1
    · exact passed_congr (d := d1) rfl rfl rfl rfl hloop
    · intro miss _ u v hu hv
      obtain ⟨_, _, -, -, hins⟩ := decodeColumn_cases hv
      exact passed_insertDecoded hu hins

theorem passed_dropOrdered (hI : d.Passed []) (hlast : d.lastId = some k)
    (h : d.dropOrdered b k = .ok d') : d'.Passed [] := by
  rw [dropOrdered] at h
  split at h
  · obtain ⟨d1, h1, h2⟩ := bind_ok_iff.mp h
    have hI1 := foldlM_invariant (f := sweep) (fun u => u.Passed [] ∧ u.lastId = some k)
      (fun _ _ u v hu hv => ⟨passed_sweep hu.1 hv, (lastId_delivers (sweep_delivers hv)).trans hu.2⟩)
      ⟨hI, hlast⟩ h1
    refine passed_flush (d := { d1 with
      firstMissingSourceInOrder := max d1.firstMissingSourceInOrder k })
      ⟨hI1.1.waiting, fun i hi => ?_⟩ h2
    -- The sources before the oldest identifier to keep are outdated.
    rcases lt_or_ge i k with hik | hik
    · refine Or.inl (Or.inl (outdated_iff.mpr ⟨k, hI1.2, hik⟩))
    · exact hI1.1.before i ((lt_max_iff.mp hi).resolve_right hik.not_gt)
  · cases h
    exact hI

/-- The sources waiting before the oldest identifier to keep are given. -/
theorem waiting_dropOrdered (hio : d.inOrder = true) (h : d.dropOrdered b k = .ok d') :
    ∀ i ∈ d'.orderedSources, k ≤ i := by
  rw [dropOrdered, if_pos hio] at h
  obtain ⟨d1, h1, h2⟩ := bind_ok_iff.mp h
  intro i hi
  have hin := waiting_flush (d := { d1 with
    firstMissingSourceInOrder := max d1.firstMissingSourceInOrder k }) h2 i hi
  obtain ⟨hold, hnot⟩ := ((hands_sweepLoop h1).waiting i).mp hin
  by_contra hlt
  exact hnot (List.mem_filter.mpr ⟨FlatSet.mem_iff.mp hold, decide_eq_true (not_le.mp hlt)⟩)

theorem passed_dropOutdated (hI : d.Passed []) (hio : d.inOrder = true)
    (hle : d.outdated k = false) (h : d.dropOutdated b k = .ok d') : d'.Passed [] := by
  obtain ⟨d1, d2, heq, h2, rfl, -⟩ := dropOutdated_cases h
  have hlast : d1.lastId = some k := by rw [heq]
  have hI1 : d1.Passed [] := by
    have hsources : d1.sources = d.sources := by rw [heq]
    have hordered : d1.orderedSources = d.orderedSources := by rw [heq]
    have hfirst : d1.firstMissingSourceInOrder = d.firstMissingSourceInOrder := by rw [heq]
    refine ⟨by rw [hordered, hsources]; exact hI.waiting, fun i hi => ?_⟩
    rw [hfirst] at hi
    refine (hI.before i hi).imp_left fun hheld => ?_
    rcases hheld with ho | hs
    · -- The oldest identifier to keep does not move backwards.
      obtain ⟨l, hl, hil⟩ := outdated_iff.mp ho
      rw [outdated_some hl, decide_eq_false_iff_not] at hle
      exact Or.inl (outdated_iff.mpr ⟨k, hlast, by omega⟩)
    · exact Or.inr (hsources ▸ hs)
  have hI2 := passed_dropOrdered hI1 hlast h2
  have hlast2 := (lastId_delivers (dropOrdered_delivers h2)).trans hlast
  have hio1 : d1.inOrder = true := by rw [heq]; exact hio
  refine ⟨fun i hi => ?_, fun i hi => (hI2.before i hi).imp_left fun hheld => ?_⟩
  · rw [OrdMap.contains_eraseBelow, hI2.waiting i hi, decide_eq_true (waiting_dropOrdered hio1 h2 i hi)]
    rfl
  · rcases lt_or_ge i k with hik | hik
    · exact Or.inl (outdated_iff.mpr ⟨k, hlast2, hik⟩)
    · refine hheld.imp id fun hs => ?_
      rw [OrdMap.contains_eraseBelow, hs, decide_eq_true hik]
      rfl

theorem passed_receive (hL : d.ListedStored) (hI : d.Passed []) (hio : d.inOrder = true)
    (hr : d.retreats p = false) (h : d.receive b g p = .ok d') : d'.Passed [] := by
  cases p with
  | source src =>
    rcases receiveSource_cases h with ⟨rfl, -⟩ | ⟨-, -, d1, h1, h2⟩
    · exact hI
    · exact passed_attemptFullDecoding (passed_rule.addSource hL hI h1) h2
  | repair r =>
    obtain ⟨-, ⟨rfl, -⟩ | ⟨hacc, hcases⟩⟩ := receiveRepair_cases h
    · exact hI
    · rw [retreats, hacc, Bool.true_and] at hr
      rcases hcases with ⟨d1, h1, -, rfl⟩ | ⟨d1, d2, r2, ha, h2⟩
      · exact passed_congr (d := d1) rfl rfl rfl rfl (passed_dropOutdated hI hio hr h1)
      · have hA := ha.accepted (contains_of_accepts hacc)
        have hI2 : d2.Passed [] := by
          refine passed_congr ?_ ?_ ?_ ?_ (passed_dropOutdated hI hio hr ha.drop)
          all_goals rw [hA.frame]
        rcases h2 with ⟨hone, src, hc, hadd⟩ | ⟨-, hfull⟩
        · exact passed_rule.addSource (listedStored_removeDecoded (hA.listedStored hL) hA.stored
            (createSourceFromRepair_only hc hone)) (passed_congr (d := d2) rfl rfl rfl rfl hI2) hadd
        · exact passed_attemptFullDecoding hI2 hfull

theorem passed_initial (inOrder : Bool) : (initial inOrder : Decoder w).Passed [] :=
  ⟨fun _ hk => absurd hk FlatSet.not_mem_empty, fun i hi => absurd hi (Nat.not_lt_zero i)⟩

/-- A repair that does not move the oldest identifier to keep backwards names no source that was
passed over, but for the known ones. -/
theorem not_namesPassed (hI : d.Passed []) (hr : d.retreats p = false) :
    d.namesPassed p = false := by
  cases p with
  | source src => rfl
  | repair r =>
    cases hacc : d.accepts r with
    | false => rw [namesPassed, hacc, Bool.false_and]
    | true =>
      rw [retreats, hacc, Bool.true_and] at hr
      rw [namesPassed, hacc, Bool.true_and, List.any_eq_false]
      intro i hi
      obtain ⟨hmem, hunknown⟩ := FlatSet.mem_filter.mp (FlatSet.mem_iff.mpr hi)
      rw [decide_eq_true_eq, not_lt]
      by_contra hlt
      rcases hI.before i (not_le.mp hlt) with (ho | hs) | ⟨x, hx, -⟩
      · obtain ⟨l, hl, hil⟩ := outdated_iff.mp ho
        rw [outdated_some hl, decide_eq_false_iff_not] at hr
        exact hr (lt_of_le_of_lt (firstId_le hmem) hil)
      · rw [hs] at hunknown
        cases hunknown
      · exact absurd hx List.not_mem_nil

/-- Nor does it make the decoder forget that it gave a source. -/
theorem not_reopens (hr : d.retreats p = false) : d.reopens p = false := by
  cases p with
  | source src => rfl
  | repair r =>
    cases hacc : d.accepts r with
    | false => rw [reopens, hacc, Bool.false_and]
    | true =>
      rw [retreats, hacc, Bool.true_and] at hr
      rw [reopens, hacc, Bool.true_and, List.any_eq_false]
      intro i _
      rw [Bool.and_eq_true, Bool.and_eq_true, decide_eq_true_eq]
      rintro ⟨⟨hle, ho⟩, -⟩
      obtain ⟨l, hl, hil⟩ := outdated_iff.mp ho
      rw [outdated_some hl, decide_eq_false_iff_not] at hr
      exact hr (hle.trans_lt hil)

end Netcode.Detail.Decoder
