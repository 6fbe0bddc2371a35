import Netcode.InOrder
import Netcode.InOrder.Keeping

/-! In order, no known source is the first missing one, as long as the cascade does not pass over the
source it started from, and no source becomes known after it was passed over. -/
namespace Netcode.Detail.Decoder

open Containers Runs

variable {w : FieldSize} {b : Build} {g : GfComplete w} {d d' d1 d2 : Decoder w}
  {src : DecoderSource} {r r2 : DecoderRepair} {p : Incoming} {ps : List Incoming}
  {i j k m n ρ first : ℕ}

/-- Sources that were passed over become known: the one that is received or rebuilt directly, or
others that it allows to decode. -/
def Revives (g : GfComplete w) (d : Decoder w) : Incoming → Prop
  | .source src => d.outdated src.id = false ∧ d.sources.contains src.id = false ∧
      (src.id < d.firstMissingSourceInOrder ∨
        ∃ i < d.firstMissingSourceInOrder, d.readyWithout src.id i = true)
  | .repair r => d.accepts r = true ∧ ∃ k, (d.unknown r).toList = [k] ∧
      (k < d.firstMissingSourceInOrder ∨ ∃ i < d.firstMissingSourceInOrder,
        (((d.keeping (firstId r)).linking g r).removeDecoded k r.id).readyAt i ≠ none)

/-- Of the repairs that don't encode sources older than `first`, one alone references `j`, and it
references no other source but maybe `x`. -/
def peelable (d : Decoder w) (first x j : ℕ) : Bool :=
  d.repairs.entries.any fun e =>
    decide (j ∈ e.2.sourceIds ∧ ¬ Old first e.2 ∧ (e.2.sourceIds.erase x).size = 1) &&
      d.repairs.entries.all fun e' => decide (j ∈ e'.2.sourceIds → ¬ Old first e'.2 → e'.1 = e.1)

/-- The sources from `f` on that come before `x` are all given by the cascade `x` starts. -/
def passedOver (d : Decoder w) (f first x : ℕ) : Bool :=
  (List.range' f (x - f)).any (fun j => !d.sources.contains j) &&
    (List.range' f (x - f)).all fun j => d.sources.contains j || d.peelable first x j

/-- The cascade gives all sources that come before the one it started from, which is not given. -/
def strands (d : Decoder w) : Incoming → Bool
  | .source src => !d.outdated src.id && !d.sources.contains src.id &&
      d.passedOver d.firstMissingSourceInOrder 0 src.id
  | .repair r => d.accepts r && match (d.unknown r).toList with
    | [i] => d.passedOver (max d.firstMissingSourceInOrder (firstId r)) (firstId r) i
    | _ => false

theorem peelable_iff : d.peelable first k j = true ↔ ∃ ρ q, d.repairs.find? ρ = some q ∧
    (j ∈ q.sourceIds ∧ ¬ Old first q ∧ (q.sourceIds.erase k).size = 1) ∧
    ∀ ρ' q', d.repairs.find? ρ' = some q' → j ∈ q'.sourceIds → ¬ Old first q' → ρ' = ρ := by
  simp only [peelable, List.any_eq_true, Bool.and_eq_true, decide_eq_true_eq, List.all_eq_true,
    Prod.exists, Prod.forall, OrdMap.mem_entries_iff]

theorem erase_eq_self {s : FlatSet ℕ} (h : k ∉ s) : s.erase k = s := by
  refine FlatSet.ext_mem fun i => ?_
  rw [FlatSet.mem_erase]
  refine and_iff_left_of_imp ?_
  rintro hi rfl
  exact h hi

theorem peelable_of_readyWithout (hI : d.Linked) (h : d.readyWithout k j = true) :
    d.peelable 0 k j = true := by
  have hold : ∀ q, ¬ Old 0 q := fun q ⟨i, _, hi⟩ => absurd hi (Nat.not_lt_zero i)
  rw [readyWithout] at h
  cases hm : (d.missingSources.erase k).find? j with
  | none => simp [hm] at h
  | some cits =>
    simp only [hm] at h
    split at h
    · next ρ hc =>
      obtain ⟨q, hq, hone⟩ := (Option.any_eq_true _ _).mp h
      rw [decide_eq_true_eq] at hone
      have hmj : d.missingSources.find? j = some cits := by
        rw [OrdMap.find?_erase] at hm
        split at hm
        · cases hm
        · exact hm
      obtain ⟨q', hq', hj⟩ := hI.listed j ρ ⟨cits, hmj, by simp [FlatSet.mem_iff, hc]⟩
      rw [hq] at hq'
      cases hq'
      have herase : d.remaining k ρ q = q.sourceIds.erase k := by
        rw [remaining]
        split
        · rfl
        · next href =>
          refine (erase_eq_self fun hk => href ?_).symm
          exact references_iff_any.mpr (hI.stored k ρ ⟨q, hq, hk⟩)
      refine peelable_iff.mpr ⟨ρ, q, hq, ⟨hj, hold q, herase ▸ hone⟩, fun ρ' q' hq' hj' _ => ?_⟩
      obtain ⟨cits', hm', hmem⟩ := hI.stored j ρ' ⟨q', hq', hj'⟩
      rw [hmj] at hm'
      cases hm'
      simpa [FlatSet.mem_iff, hc] using hmem
    · cases h

/-- What the cascade of a directly rebuilt source can decode could be told before. -/
theorem Accepted.peelable (hA : Accepted r (firstId r) d d1 d2 r2) (hL : d.ListedStored)
    (hI : d1.Linked) (h : ((d2.removeDecoded k r.id).readyAt j).isSome = true) :
    d.peelable (firstId r) k j = true := by
  obtain ⟨⟨ρ, q⟩, hready⟩ := Option.isSome_iff_exists.mp h
  obtain ⟨⟨cits, hm, hc⟩, hq, hone⟩ := readyAt_eq_some.mp hready
  have hjk : j ≠ k := by
    rintro rfl
    rw [removeDecoded, OrdMap.find?_erase_self] at hm
    cases hm
  have hρ : ρ ≠ r.id := by
    rintro rfl
    rw [removeDecoded, OrdMap.find?_erase_self] at hq
    cases hq
  have hmj : d2.missingSources.find? j = some cits := (OrdMap.find?_erase_ne hjk).symm.trans hm
  have hq2 : d2.repairs.find? ρ = some q := (OrdMap.find?_erase_ne hρ).symm.trans hq
  have honly : ∀ ρ', d2.References j ρ' → ρ' = ρ := by
    rintro ρ' ⟨cits', hm', hmem⟩
    rw [hmj] at hm'
    cases hm'
    simpa [FlatSet.mem_iff, hc] using hmem
  obtain ⟨q', hq', hj⟩ := hA.listedStored hL j ρ ⟨cits, hmj, by simp [FlatSet.mem_iff, hc]⟩
  rw [hq2] at hq'
  cases hq'
  obtain ⟨hqd, hnew⟩ := (hA.drops.repairs ρ q).mp ((hA.repairs ρ hρ).symm.trans hq2)
  have herase : q.sourceIds.erase k = q.sourceIds := by
    obtain ⟨i, hi⟩ := FlatSet.size_eq_one_iff.mp hone
    rw [FlatSet.mem_iff, hi, List.mem_singleton] at hj
    refine erase_eq_self fun hk => hjk ?_
    rw [FlatSet.mem_iff, hi, List.mem_singleton] at hk
    exact hj.trans hk.symm
  refine peelable_iff.mpr ⟨ρ, q, hqd, ⟨hj, hnew, herase.symm ▸ hone⟩, fun ρ' q' hq' hj' hnew' => ?_⟩
  have h1 : d1.repairs.find? ρ' = some q' := (hA.drops.repairs ρ' q').mpr ⟨hq', hnew'⟩
  exact honly ρ' ((hA.references j ρ').mpr (Or.inl (hI.stored j ρ' ⟨q', h1, hj'⟩)))

/-- Some source before `x` is neither known nor given by the cascade of `x`, or all are known. -/
theorem passedOver_eq_false {f : ℕ} (h : d.passedOver f first k = false) :
    (∀ j, f ≤ j → j < k → d.sources.contains j = true) ∨
    ∃ j, f ≤ j ∧ j < k ∧ d.sources.contains j = false ∧ d.peelable first k j = false := by
  rw [passedOver, Bool.and_eq_false_iff, List.any_eq_false, List.all_eq_false] at h
  refine h.imp (fun h j hfj hjk => ?_) fun ⟨j, hj, hn⟩ => ?_
  · simpa using h j (List.mem_range'_1.mpr ⟨hfj, by omega⟩)
  · rw [Bool.not_eq_true, Bool.or_eq_false_iff] at hn
    have := List.mem_range'_1.mp hj
    exact ⟨j, this.1, by omega, hn.1, hn.2⟩

theorem joins_source (hL : d.ListedStored) (hI : d.SequencedWhile d.firstMissingSourceInOrder m [])
    (hk : d.Kept) (hsrc : src.id < 2 ^ 32) (hne : src.id ≠ m) (ho : d.outdated src.id = false)
    (hs : d.sources.contains src.id = false) (hrevives : ¬ d.Revives g (.source src))
    (hstrands : d.strands (.source src) = false) :
    d.Joins d.firstMissingSourceInOrder m [] src := by
  have hlinked : d.Linked := linked_iff_linkedWhile.mpr ⟨hL, hI.linked⟩
  have hfirst := first_unknown hI.sequenced hk
  have hle : d.firstMissingSourceInOrder ≤ src.id := by
    by_contra hlt
    exact hrevives ⟨ho, hs, Or.inl (not_le.mp hlt)⟩
  refine ⟨hI, hsrc, hne, hk, fun i hi => ?_, fun x hx => absurd hx List.not_mem_nil, ?_⟩
  · by_contra hlt
    exact hrevives ⟨ho, hs, Or.inr ⟨i, not_le.mp hlt, hi⟩⟩
  rcases Nat.eq_or_lt_of_le hle with heq | hlt
  · exact Or.inl heq.symm
  · simp only [strands, ho, hs, Bool.not_false, Bool.true_and] at hstrands
    obtain hall | ⟨j, hfj, hj, hunknown, hno⟩ := passedOver_eq_false hstrands
    · rw [hall _ le_rfl hlt] at hfirst
      cases hfirst
    · refine Or.inr (Or.inr ⟨j, hj, hfj, hunknown, ?_, ?_⟩)
      · rw [← Bool.not_eq_true]
        intro hready
        rw [peelable_of_readyWithout hlinked hready] at hno
        cases hno
      · intro x hx
        rw [List.mem_singleton.mp hx]
        exact hj.ne'

theorem joins_repair (hL : d.ListedStored) (hI : d.SequencedWhile d.firstMissingSourceInOrder m [])
    (hk : d.Kept) (hacc : d.accepts r = true) (hrm : firstId r ≤ m) (hm : m ∉ r.sourceIds)
    (ha : Accepts b g r (firstId r) d d1 d2 r2) (hids : r2.sourceIds.toList = [src.id])
    (hsrc : src.id < 2 ^ 32)
    (hseq : (d2.removeDecoded src.id r.id).SequencedWhile d.firstMissingSourceInOrder m [])
    (hrevives : ¬ d.Revives g (.repair r)) (hstrands : d.strands (.repair r) = false) :
    (d2.removeDecoded src.id r.id).Joins d.firstMissingSourceInOrder m [] src := by
  have hA := ha.accepted (contains_of_accepts hacc)
  obtain ⟨hseq1, hle⟩ := sequenced_dropOutdated hL hI hrm ha.drop
  obtain ⟨n, hsweeps⟩ := dropOutdated_sweeps hI.sequenced hI.lacks hrm ha.drop
  have hunknownIds : (d.unknown r).toList = [src.id] := hA.sourceIds_eq ▸ hids
  have hmem : src.id ∈ d.unknown r := by simp [FlatSet.mem_iff, hunknownIds]
  obtain ⟨hir, hunknown⟩ := FlatSet.mem_filter.mp hmem
  rw [Bool.not_eq_true'] at hunknown
  have hfk : d.firstMissingSourceInOrder ≤ src.id := by
    by_contra hlt
    exact hrevives ⟨hacc, src.id, hunknownIds, Or.inl (not_le.mp hlt)⟩
  have hfirst : (d2.removeDecoded src.id r.id).firstMissingSourceInOrder =
      d1.firstMissingSourceInOrder := by
    rw [hA.frame]
    rfl
  have hsources : (d2.removeDecoded src.id r.id).sources = d1.sources := by
    rw [hA.frame]
    rfl
  have hkept : (d2.removeDecoded src.id r.id).Kept := by
    rw [hA.frame]
    exact kept_congr (d := d1) rfl rfl rfl (kept_sweeps hk hsweeps)
  have hwithout := readyWithout_not_missing (not_missing_removeDecoded src.id r.id d2)
  refine ⟨hseq, hsrc, fun heq => hm (heq ▸ hir), hkept, fun i hi => ?_,
    fun x hx => absurd hx List.not_mem_nil, ?_⟩
  · rw [hwithout] at hi
    by_contra hlt
    refine hrevives ⟨hacc, src.id, hunknownIds, Or.inr ⟨i, not_le.mp hlt, ?_⟩⟩
    have hout := outline_removeDecoded (k := src.id) (ρ := r.id)
      (ha.outline_linking hL (contains_of_accepts hacc)).1
    rw [Ne, ← readyAt_none_outline hout]
    intro hnone
    rw [hnone] at hi
    cases hi
  · simp only [strands, hacc, Bool.true_and, hunknownIds] at hstrands
    rw [hfirst]
    obtain hall | ⟨j, hfj, hj, hju, hno⟩ := passedOver_eq_false hstrands
    · exact Or.inl (first_eq_of_sweeps hI.sequenced hk hsweeps (max_le hfk (firstId_le hir)) hunknown
        hall).symm
    · refine Or.inr (Or.inr ⟨j, hj, ?_, ?_, ?_, ?_⟩)
      · rw [hfirst]
        exact hle j ((le_max_left _ _).trans hfj) ((le_max_right _ _).trans hfj) hju
      · rw [hsources, hA.drops.sources, OrdMap.contains_eraseBelow, hju, Bool.and_false]
      · rw [hwithout, ← Bool.not_eq_true]
        intro hready
        have hlinked1 := linked_iff_linkedWhile.mpr
          ⟨listedStored_drops hL hA.drops, hseq1.linked⟩
        rw [hA.peelable hL hlinked1 hready] at hno
        cases hno
      · intro x hx
        rw [List.mem_singleton.mp hx]
        exact hj.ne'

/-- What every step of an in-order run must meet for no source to be stranded. -/
structure KeepsSources (g : GfComplete w) (d : Decoder w) (p : Incoming) : Prop
    extends d.KeepsSequence g p where
  passed : ¬ d.Revives g p
  given : d.strands p = false

theorem kept_receive (hL : d.ListedStored) (hI : d.InSequence) (hk : d.Kept)
    (hp : ∀ i ∈ p.ids, i < 2 ^ 32) (hc : d.KeepsSources g p) (h : d.receive b g p = .ok d') :
    d'.Kept := by
  cases p with
  | source src =>
    rcases receiveSource_cases h with ⟨rfl, -⟩ | ⟨ho, hs, d1, h1, h2⟩
    · exact hk
    · obtain ⟨m, hm, hne⟩ := lacks_source ho hs hc.bounded
      have hadded := kept_rule.addSource hL (joins_source hL (hI.start hm) hk
        (hp src.id (List.mem_singleton_self _)) hne ho hs hc.passed hc.given) h1
      exact kept_attemptFullDecoding hadded.sequenced hadded.kept
        (ahead_source hL ho hs hc.forward h1) h2
  | repair r =>
    obtain ⟨-, ⟨rfl, -⟩ | ⟨hacc, hcases⟩⟩ := receiveRepair_cases h
    · exact hk
    obtain ⟨m, hm, hrm, hmr⟩ := lacks_repair hacc hc.bounded
    have hstart := hI.start hm
    rcases hcases with ⟨d1, h1, -, rfl⟩ | ⟨d1, d2, r2, ha, h2⟩
    · obtain ⟨n, hsweeps⟩ := dropOutdated_sweeps hI.sequenced hm hrm h1
      exact kept_congr (d := d1) rfl rfl rfl (kept_sweeps hk hsweeps)
    · have hA := ha.accepted (contains_of_accepts hacc)
      have hseq2 := sequenced_link hL hstart hacc hp hrm hmr ha
      have hL2 := hA.listedStored hL
      rcases h2 with ⟨hone, src, hcreate, hadd⟩ | ⟨hmany, hfull⟩
      · have hids := createSourceFromRepair_only hcreate hone
        have hmem := ((hA.ids src.id).mp (by simp [FlatSet.mem_iff, hids])).1
        have hseq := sequenced_removeDecoded hseq2
          (hA.linkedWhile_removeDecoded hseq2.linked hacc hids hc.unshared)
        exact (kept_rule.addSource (listedStored_removeDecoded hL2 hA.stored hids)
          (joins_repair hL hstart hk hacc hrm hmr ha hids (hp _ hmem) hseq hc.passed hc.given)
          hadd).kept
      · obtain ⟨n, hsweeps⟩ := dropOutdated_sweeps hI.sequenced hm hrm ha.drop
        have hkept2 : d2.Kept := by
          rw [hA.frame]
          exact kept_congr (d := d1) rfl rfl rfl (kept_sweeps hk hsweeps)
        exact kept_attemptFullDecoding hseq2 hkept2 (ahead_repair hL hacc ha hmany hc.forward) hfull

theorem kept_initial : (initial true : Decoder w).Kept := fun _ h => absurd h Bool.false_ne_true

theorem missing_of_readyWithout (h : d.readyWithout k i = true) :
    d.missingSources.contains i = true := by
  rw [readyWithout] at h
  cases hm : (d.missingSources.erase k).find? i with
  | none => simp [hm] at h
  | some cits => exact contains_of_erase (OrdMap.contains_iff.mpr ⟨cits, hm⟩)

theorem not_revives (hF : d.Frontier) (hn : d.namesPassed p = false)
    (hp : ∀ src, p = .source src → d.outdated src.id = false →
      d.sources.contains src.id = false → d.firstMissingSourceInOrder ≤ src.id) :
    ¬ d.Revives g p := by
  cases p with
  | source src =>
    rintro ⟨ho, hs, hlt | ⟨i, hi, hready⟩⟩
    · exact absurd (hp src rfl ho hs) hlt.not_ge
    · exact absurd (hF i (missing_of_readyWithout hready)) hi.not_ge
  | repair r =>
    rintro ⟨hacc, k, hk, hlt | ⟨i, hi, hready⟩⟩
    · rw [namesPassed, hacc, Bool.true_and, hk] at hn
      simp [hlt] at hn
    · obtain ⟨⟨ρ, q⟩, hsome⟩ := Option.ne_none_iff_exists'.mp hready
      have hmissing := contains_of_erase (references_contains (references_of_readyAt hsome))
      exact absurd (le_of_linking hF hacc hn hmissing) hi.not_ge

/-- What needs no prediction, but for the cascade. -/
def keepsSources (d : Decoder w) (p : Incoming) : Bool :=
  d.keepsSequence p && !d.strands p && match p with
    | .source src => decide (d.firstMissingSourceInOrder ≤ src.id)
    | .repair _ => true

theorem keepsSources_spec (h : d.keepsSources p = true) : d.KeepsSources g p := by
  simp only [keepsSources, Bool.and_eq_true, Bool.not_eq_true'] at h
  obtain ⟨⟨hkeeps, hstrands⟩, hnew⟩ := h
  obtain ⟨hsequence, hF, hn⟩ := keepsSequence_spec hkeeps
  refine ⟨hsequence, not_revives hF hn fun src heq _ _ => ?_, hstrands⟩
  subst heq
  exact of_decide_eq_true hnew

/-- In order, no known source is the first missing one, and each was given to the callback or waits
after it, in every run in which no source that was passed over becomes known, and no cascade gives
all sources before the one it started from. -/
theorem sources_kept (hps : ∀ p ∈ ps, ∀ i ∈ p.ids, i < 2 ^ 32)
    (h : Run (receive b g) (KeepsSources g) (initial true) ps d) :
    d.sources.contains d.firstMissingSourceInOrder = false ∧
    ∀ k, d.sources.contains k = true → k ∈ d.delivered ∨
      k ∈ d.orderedSources ∧ d.firstMissingSourceInOrder < k := by
  have hbounded := h.of_forall (D := fun (d : Decoder w) p => d.KeepsSources g p ∧
    ∀ i ∈ p.ids, i < 2 ^ 32) fun p hp _ hc => ⟨hc, hps p hp⟩
  obtain ⟨-, hI, hk⟩ := hbounded.invariant
    (fun d : Decoder w => d.ListedStored ∧ d.InSequence ∧ d.Kept)
    (fun _ _ _ hI hc hs => ⟨listedStored_receive hI.1 hs,
      sequenced_receive hI.1 hI.2.1 hc.2 hc.1.toKeepsSequence hs,
      kept_receive hI.1 hI.2.1 hI.2.2 hc.2 hc.1 hs⟩)
    ⟨listedStored_initial true, inSequence_initial, kept_initial⟩
  exact ⟨first_unknown hI.sequenced hk, fun k hks => (hk k hks).imp_right fun ho =>
    ⟨ho, hI.sequenced.waits k ho⟩⟩

theorem sources_kept_pairCalls : ∃ d,
    runWhile (receive .release gf16) (fun d p => d.keepsSources p = true) (initial true)
      (arrivals .release (packets .release gf16 pairCalls) [1, 2]) = some d ∧
    d.delivered = [0, 1] ∧ d.sources.contains d.firstMissingSourceInOrder = false := by
  have hrun : (runWhile (receive .release gf16) (fun d p => d.keepsSources p = true) (initial true)
      (arrivals .release (packets .release gf16 pairCalls) [1, 2])).any
        (fun d => decide (d.delivered = [0, 1])) = true := by
    decide +kernel
  obtain ⟨d, hd, hdel⟩ := (Option.any_eq_true _ _).mp hrun
  have hkeeps := (run_of_runWhile hd).mono (D := KeepsSources gf16)
    fun _ _ hc => keepsSources_spec hc
  exact ⟨d, hd, by simpa using hdel, (sources_kept (by decide +kernel) hkeeps).1⟩

/-- Source 1 starts a cascade which gives source 0, and is neither given nor made to wait. -/
theorem pairCalls_stranded : ∃ d, deliver .release gf16 true pairCalls [2, 1] = .ok d ∧
    d.firstMissingSourceInOrder = 1 ∧ d.sources.contains 1 = true ∧
    1 ∉ d.delivered ∧ 1 ∉ d.orderedSources := by
  have hrun : (deliver .release gf16 true pairCalls [2, 1]).toOption.any (fun d =>
      decide (d.firstMissingSourceInOrder = 1 ∧ d.sources.contains 1 = true ∧
        1 ∉ d.delivered ∧ 1 ∉ d.orderedSources)) = true := by
    decide +kernel
  obtain ⟨d, hd, hc⟩ := exists_ok_of_any hrun
  exact ⟨d, hd, of_decide_eq_true hc⟩

end Netcode.Detail.Decoder
