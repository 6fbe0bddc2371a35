import Netcode.Yielding.Quiet

/-! When what is received makes a decoder give a source to the callback, as told from what it holds
before. -/
namespace Netcode.Detail.Decoder

open Containers

variable {w : FieldSize} {b : Build} {g : GfComplete w} {d d' d1 d2 : Decoder w}
  {src : DecoderSource} {r r2 : DecoderRepair} {p : Incoming} {k m first : ℕ}

/-- A source that is received makes one be given: it when it is new, unless older ones are missing;
in order, the first missing source when it or the first missing one can be decoded. -/
def YieldsSource (g : GfComplete w) (src : DecoderSource) (d : Decoder w) : Prop :=
  d.outdated src.id = false ∧ d.sources.contains src.id = false ∧
  (d.inOrder = true → src.id = d.firstMissingSourceInOrder ∨
    (d.withoutSource g src).readyAt d.firstMissingSourceInOrder ≠ none ∨
    (d.withoutSource g src).settled.Completes g ∧
      (d.withoutSource g src).settled.missingSources.contains d.firstMissingSourceInOrder = true)

/-- A repair that is linked makes a source be given, the first missing one if it is `m` and sources
are given in order: its only missing source or one decoded with it, or all that are missing. -/
def YieldsLinked (g : GfComplete w) (r : DecoderRepair) (m : ℕ) (d : Decoder w) : Prop :=
  (∃ k, (d.unknown r).toList = [k] ∧ (d.inOrder = true → k = m ∨
    ((d.linking g r).removeDecoded k r.id).readyAt m ≠ none)) ∨
  (d.unknown r).size ≠ 1 ∧ (d.linking g r).Completes g ∧
    (d.inOrder = true → (d.linking g r).missingSources.contains m = true)

/-- A repair that is received makes a source be given: one that waits when what is outdated is
dropped, or one it allows to decode. -/
def YieldsRepair (g : GfComplete w) (r : DecoderRepair) (d : Decoder w) : Prop :=
  d.accepts r = true ∧ (d.inOrder = true ∧ d.HandsBelow (firstId r) ∨
    (d.keeping (firstId r)).useless r = false ∧
      (d.keeping (firstId r)).YieldsLinked g r (max d.firstMissingSourceInOrder (firstId r)))

/-- What is received makes a source be given. -/
def Yields (g : GfComplete w) (d : Decoder w) : Incoming → Prop
  | .source src => d.YieldsSource g src
  | .repair r => d.YieldsRepair g r

theorem receiveSource_gives (hL : d.ListedStored) (hy : d.YieldsSource g src)
    (h : d.receiveSource b g src = .ok d') : Gave d d' := by
  obtain ⟨hrecent, hnew, hy⟩ := hy
  rcases receiveSource_cases h with ⟨-, hold | hknown⟩ | ⟨-, -, d1, h1, h2⟩
  · rw [hrecent] at hold
    cases hold
  · rw [hnew] at hknown
    cases hknown
  obtain ⟨hadvances, hgives⟩ := addSource_gives hL h1
  have hout := addSource_outline hL h1
  have hrest := attemptFullDecoding_advances h2
  by_cases hadd : d.inOrder = true → src.id = d.firstMissingSourceInOrder ∨
      (d.withoutSource g src).readyAt d.firstMissingSourceInOrder ≠ none
  · exact (hgives hadd).trans_advances hrest
  · push Not at hadd
    obtain ⟨hio, hne, hidle⟩ := hadd
    obtain ⟨hcompletes, hfirst⟩ := ((hy hio).resolve_left hne).resolve_left (by simp [hidle])
    rcases hadvances with hgave | ⟨hc, hf⟩
    · exact hgave.trans_advances hrest
    · -- The first missing source is still so: full decoding gives it.
      refine Advances.trans_gave (Or.inr ⟨hc, hf⟩) ?_
      refine attemptFullDecoding_gives (completes_outline hout hcompletes) (fun _ => ?_) h2
      rw [hf, (outline_eq_iff.mp hout).1]
      exact hfirst

theorem receiveSource_quiet (hb : b.asserts = true) (hL : d.ListedStored)
    (hy : ¬ d.YieldsSource g src) (h : d.receiveSource b g src = .ok d') :
    d'.callbacks = d.callbacks := by
  rcases receiveSource_cases h with ⟨rfl, -⟩ | ⟨hrecent, hnew, d1, h1, h2⟩
  · rfl
  have hno : ¬ (d.inOrder = true → _) := fun hgive => hy ⟨hrecent, hnew, hgive⟩
  push Not at hno
  obtain ⟨hio, hne, hidle, hfirst⟩ := hno
  have hquiet := addSource_quiet hL hio hne hidle h1
  have hout := addSource_outline hL h1
  refine (attemptFullDecoding_quiet hb (fun hcompletes => ⟨hquiet.inOrder.trans hio, ?_⟩) h2).trans
    hquiet.callbacks
  rw [hquiet.first, (outline_eq_iff.mp hout).1, ← Bool.not_eq_true]
  exact hfirst (completes_outline hout.symm hcompletes)

/-- A repair is linked, nothing having been given when what was outdated was dropped. -/
structure LinkedQuietly (g : GfComplete w) (r : DecoderRepair) (d d2 : Decoder w)
    (r2 : DecoderRepair) : Prop where
  inOrder : d2.inOrder = d.inOrder
  callbacks : d2.callbacks = d.callbacks
  first : d.inOrder = true →
    d2.firstMissingSourceInOrder = max d.firstMissingSourceInOrder (firstId r)
  outline : d2.outline = ((d.keeping (firstId r)).linking g r).outline
  ids : r2.sourceIds = (d.keeping (firstId r)).unknown r

theorem Accepts.linkedQuietly (ha : Accepts b g r (firstId r) d d1 d2 r2) (hL : d.ListedStored)
    (hnew : d.repairs.contains r.id = false)
    (hno : d.inOrder = true → ¬ d.HandsBelow (firstId r)) : LinkedQuietly g r d d2 r2 := by
  have hA := ha.accepted hnew
  obtain ⟨hcalls, hio, hfirst⟩ := dropOutdated_quiet hno ha.drop
  obtain ⟨hout, hids⟩ := ha.outline_linking hL hnew
  exact ⟨by rw [hA.frame]; exact hio, by rw [hA.frame]; exact hcalls,
    by rw [hA.frame]; exact hfirst, hout, hids⟩

/-- The repairs and missing sources left to the rebuilding of the only missing source of a repair. -/
theorem LinkedQuietly.rebuilt (hlinked : LinkedQuietly g r d d2 r2) :
    ((d2.removeDecoded src.id r.id).withoutSource g src).outline =
      (((d.keeping (firstId r)).linking g r).removeDecoded src.id r.id).outline :=
  (outline_withoutSource_not_missing (not_missing_removeDecoded _ _ _)).trans
    (outline_removeDecoded hlinked.outline)

theorem useless_dropOutdated (h : d.dropOutdated b first = .ok d1) :
    (d.keeping first).useless r = d1.useless r := by
  obtain ⟨-, -, -, -, -, hdrops⟩ := dropOutdated_cases h
  exact (useless_keeping hdrops).symm

theorem receiveRepair_gives (hL : d.ListedStored) (hq : d.Queued) (hy : d.YieldsRepair g r)
    (h : d.receiveRepair b g r = .ok d') : Gave d d' := by
  obtain ⟨hacc, hy⟩ := hy
  obtain ⟨-, ⟨-, hno⟩ | ⟨-, ⟨d1, h1, huseless, rfl⟩ | ⟨d1, d2, r2, ha, h2⟩⟩⟩ :=
    receiveRepair_cases h
  · rw [hacc] at hno
    cases hno
  · rcases hy with ⟨hio, hhands⟩ | ⟨huseful, -⟩
    · have hgave := dropOutdated_gives hq hio hhands h1
      exact hgave
    · rw [useless_dropOutdated h1, huseless] at huseful
      cases huseful
  have hA := ha.accepted (contains_of_accepts hacc)
  have hlink : Advances d1 d2 := Or.inr (by rw [hA.frame]; exact ⟨rfl, rfl⟩)
  have hL2 : ∀ src, createSourceFromRepair b g r2 = .ok src → r2.sourceIds.size = 1 →
      (d2.removeDecoded src.id r.id).ListedStored := fun src hcreate hone =>
    listedStored_removeDecoded (hA.listedStored hL) hA.stored
      (createSourceFromRepair_only hcreate hone)
  have hrest : Advances d2 d' := by
    rcases h2 with ⟨hone, src, hcreate, hadd⟩ | ⟨-, hfull⟩
    · have hremoved : Advances d2 (d2.removeDecoded src.id r.id) := Or.inr ⟨rfl, rfl⟩
      exact hremoved.trans (addSource_gives (hL2 src hcreate hone) hadd).1
    · exact attemptFullDecoding_advances hfull
  by_cases hhands : d.inOrder = true ∧ d.HandsBelow (firstId r)
  · exact (dropOutdated_gives hq hhands.1 hhands.2 ha.drop).trans_advances (hlink.trans hrest)
  have hlinked := ha.linkedQuietly hL (contains_of_accepts hacc)
    fun hio hbelow => hhands ⟨hio, hbelow⟩
  suffices hgave : Gave d2 d' by
    rw [Gave, hlinked.callbacks] at hgave
    exact hgave
  rcases (hy.resolve_left hhands).2 with ⟨k, hk, hgive⟩ | ⟨hmany, hcompletes, hgive⟩
  · rcases h2 with ⟨hone, src, hcreate, hadd⟩ | ⟨hne, -⟩
    · have hids := createSourceFromRepair_only hcreate hone
      obtain rfl : src.id = k := by
        rw [hlinked.ids, hk] at hids
        exact (List.head_eq_of_cons_eq hids).symm
      refine (addSource_gives (hL2 src hcreate hone) hadd).2 fun hin => ?_
      have hio : d.inOrder = true := hlinked.inOrder.symm.trans hin
      show src.id = d2.firstMissingSourceInOrder ∨
        ((d2.removeDecoded src.id r.id).withoutSource g src).readyAt
          d2.firstMissingSourceInOrder ≠ none
      rw [Ne, readyAt_none_outline hlinked.rebuilt, hlinked.first hio]
      exact hgive hio
    · exact absurd (by rw [hlinked.ids, FlatSet.size, hk]; rfl) hne
  · rcases h2 with ⟨hone, -⟩ | ⟨-, hfull⟩
    · rw [hlinked.ids] at hone
      exact absurd hone hmany
    · refine attemptFullDecoding_gives (completes_outline hlinked.outline hcompletes)
        (fun hin => ?_) hfull
      have hio : d.inOrder = true := hlinked.inOrder.symm.trans hin
      rw [hlinked.first hio, (outline_eq_iff.mp hlinked.outline).1]
      exact hgive hio

theorem receiveRepair_quiet (hb : b.asserts = true) (hL : d.ListedStored)
    (hy : ¬ d.YieldsRepair g r) (h : d.receiveRepair b g r = .ok d') :
    d'.callbacks = d.callbacks := by
  obtain ⟨-, ⟨rfl, -⟩ | ⟨hacc, hcases⟩⟩ := receiveRepair_cases h
  · rfl
  have hhands : d.inOrder = true → ¬ d.HandsBelow (firstId r) := fun hio hbelow =>
    hy ⟨hacc, Or.inl ⟨hio, hbelow⟩⟩
  rcases hcases with ⟨d1, h1, -, rfl⟩ | ⟨d1, d2, r2, ha, h2⟩
  · exact (dropOutdated_quiet hhands h1).1
  have hA := ha.accepted (contains_of_accepts hacc)
  have hlinked := ha.linkedQuietly hL (contains_of_accepts hacc) hhands
  have hno : ¬ YieldsLinked g r (max d.firstMissingSourceInOrder (firstId r))
      (d.keeping (firstId r)) := fun hgive =>
    hy ⟨hacc, Or.inr ⟨(useless_dropOutdated ha.drop).trans ha.useful, hgive⟩⟩
  rw [YieldsLinked, not_or] at hno
  rcases h2 with ⟨hone, src, hcreate, hadd⟩ | ⟨hmany, hfull⟩
  · have hids := createSourceFromRepair_only hcreate hone
    have hgive : ¬ (d.inOrder = true → _) := fun hgive =>
      hno.1 ⟨src.id, hlinked.ids ▸ hids, hgive⟩
    push Not at hgive
    obtain ⟨hio, hne, hidle⟩ := hgive
    have hquiet := addSource_quiet (listedStored_removeDecoded (hA.listedStored hL) hA.stored hids)
      (hlinked.inOrder.trans hio) (by rw [← hlinked.first hio] at hne; exact hne) (by
        show ((d2.removeDecoded src.id r.id).withoutSource g src).readyAt
          d2.firstMissingSourceInOrder = none
        rw [readyAt_none_outline hlinked.rebuilt, hlinked.first hio]
        exact hidle) hadd
    exact hquiet.callbacks.trans hlinked.callbacks
  · refine (attemptFullDecoding_quiet hb (fun hcompletes => ?_) hfull).trans hlinked.callbacks
    have hgive : ¬ (d.inOrder = true → _) := fun hgive =>
      hno.2 ⟨hlinked.ids ▸ hmany, completes_outline hlinked.outline.symm hcompletes, hgive⟩
    push Not at hgive
    refine ⟨hlinked.inOrder.trans hgive.1, ?_⟩
    rw [hlinked.first hgive.1, (outline_eq_iff.mp hlinked.outline).1, ← Bool.not_eq_true]
    exact hgive.2

/-- What is received makes a source be given when it was to. -/
theorem receive_gives (hL : d.ListedStored) (hq : d.Queued) (hy : d.Yields g p)
    (h : d.receive b g p = .ok d') : Gave d d' := by
  cases p with
  | source src => exact receiveSource_gives hL hy h
  | repair r => exact receiveRepair_gives hL hq hy h

/-- With assertions, nothing is given otherwise. -/
theorem receive_quiet (hb : b.asserts = true) (hL : d.ListedStored) (hy : ¬ d.Yields g p)
    (h : d.receive b g p = .ok d') : d'.callbacks = d.callbacks := by
  cases p with
  | source src => exact receiveSource_quiet hb hL hy h
  | repair r => exact receiveRepair_quiet hb hL hy h

end Netcode.Detail.Decoder
