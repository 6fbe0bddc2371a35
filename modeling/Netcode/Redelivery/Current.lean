import Netcode.InOrder.Sequence
import Netcode.Outline
import Netcode.Waiting

/-! While a packet is processed in order, what waits is newer than what was given. -/
namespace Netcode.Detail.Decoder

open Containers Runs

variable {w : FieldSize} {b : Build} {g : GfComplete w} {d d' d1 d2 : Decoder w}
  {src : DecoderSource} {r r2 : DecoderRepair} {pending : List DecoderSource}
  {old cs : List Callback} {l : List ℕ} {f k ρ : ℕ}

/-- The source of the greatest identifier is given, after which the first missing one is source 0. -/
def Wraps (cs : List Callback) : Prop := ∃ c ∈ cs, c.source.id = 2 ^ 32 - 1

instance : Decidable (Wraps cs) :=
  inferInstanceAs (Decidable (∃ c ∈ cs, c.source.id = 2 ^ 32 - 1))

theorem wraps_append (cs' : List Callback) (h : Wraps cs) : Wraps (cs ++ cs') :=
  h.imp fun _ hc => ⟨List.mem_append_left _ hc.1, hc.2⟩

/-- In order, the first missing source is not older than `f` and does not wait, unless the greatest
identifier was given since the calls `old`. -/
def Flushed (old : List Callback) (f : ℕ) (d : Decoder w) : Prop :=
  ∃ cs, d.callbacks = old ++ cs ∧ (d.inOrder = true → Wraps cs ∨
    f ≤ d.firstMissingSourceInOrder ∧ d.firstMissingSourceInOrder ∉ d.orderedSources)

theorem flushed_congr (hc : d'.callbacks = d.callbacks) (hio : d'.inOrder = d.inOrder)
    (hf : d'.firstMissingSourceInOrder = d.firstMissingSourceInOrder)
    (ho : d'.orderedSources = d.orderedSources) (h : Flushed old f d) : Flushed old f d' := by
  rw [Flushed, hc, hio, hf, ho]
  exact h

theorem flushOrderedSources_flushed (hkeyed : d.Keyed) (hp : d.Pointed)
    (hc : d.callbacks = old ++ cs) (hf : Wraps cs ∨ f ≤ d.firstMissingSourceInOrder)
    (h : d.flushOrderedSources b = .ok d') : Flushed old f d' := by
  obtain ⟨n, hcont, hhands, hfirst⟩ := flushOrderedSources_hands (fun k hk => (hp k hk).2) h
  obtain ⟨new, hnew, hmap, -⟩ := hhands.calls
  refine ⟨cs ++ new, by rw [hnew, hc, List.append_assoc], fun _ => ?_⟩
  by_cases hwraps : Wraps (cs ++ new)
  · exact Or.inl hwraps
  · have hle := hf.resolve_left fun hw => hwraps (wraps_append new hw)
    have hnext : ∀ j ∈ List.range' d.firstMissingSourceInOrder n, j + 1 < 2 ^ 32 := by
      intro j hj
      have hj32 : j < 2 ^ 32 := (hp j (hcont.waits j hj)).2
      by_contra hlast
      have hgiven : d.sources.find? j ∈ new.map fun c => some c.source :=
        hmap ▸ List.mem_map_of_mem hj
      obtain ⟨c, hcnew, hc⟩ := List.mem_map.mp hgiven
      have hid : c.source.id = j := hkeyed _ _ hc.symm
      exact hwraps ⟨c, List.mem_append_right _ hcnew, by omega⟩
    rw [hfirst hnext]
    exact Or.inr ⟨by omega, fun hin => hcont.stops ((hhands.waiting _).mp hin).1⟩

theorem flushed_give (hkeyed : d.Keyed) (hp : d.Pointed) (hsrc : Fits src.id)
    (hid : src.id = d.firstMissingSourceInOrder) (hio : d.inOrder = true) (hI : Flushed old f d)
    (h : (d.callback src).advance.flushOrderedSources b = .ok d') : Flushed old f d' := by
  obtain ⟨cs, hc, hf⟩ := hI
  have hcalls : (d.callback src).advance.callbacks =
      old ++ (cs ++ [⟨src, d.sources.keys, d.orderedSources.toList⟩]) := by
    rw [← List.append_assoc, ← hc]
    rfl
  refine flushOrderedSources_flushed (d := (d.callback src).advance) hkeyed hp hcalls ?_ h
  by_cases hlast : src.id = 2 ^ 32 - 1
  · exact Or.inl ⟨⟨src, d.sources.keys, d.orderedSources.toList⟩, by simp, hlast⟩
  · -- Its identifier does not wrap, so the first missing source is the next one.
    rw [Fits] at hsrc
    have hnext : (d.callback src).advance.firstMissingSourceInOrder =
        d.firstMissingSourceInOrder + 1 :=
      Nat.mod_eq_of_lt (show d.firstMissingSourceInOrder + 1 < 2 ^ 32 by omega)
    rw [hnext]
    exact (hf hio).imp (wraps_append _) fun hle => Nat.le_succ_of_le hle.1

theorem flushed_callback (src : DecoderSource) (hio : d.inOrder = false) (hI : Flushed old f d) :
    Flushed old f (d.callback src) := by
  obtain ⟨cs, hc, -⟩ := hI
  refine ⟨cs ++ [⟨src, d.sources.keys, d.orderedSources.toList⟩], ?_, fun hin => ?_⟩
  · rw [← List.append_assoc, ← hc]
    rfl
  · rw [show d.inOrder = true from hin] at hio
    cases hio

theorem flushed_offer (hkeyed : d.Keyed) (hp : d.Pointed) (hsrc : Fits src.id)
    (hI : Flushed old f d) (h : d.offer b src = .ok d') : Flushed old f d' := by
  rcases offer_cases h with ⟨hio, rfl⟩ | ⟨hio, ⟨hid, hf⟩ | ⟨-, rfl⟩⟩
  · exact flushed_callback src hio hI
  · exact flushed_give hkeyed hp hsrc hid hio hI hf
  · exact hI

theorem flushed_store (hI : Flushed old f d) (h : d.store b src = .ok d') : Flushed old f d' := by
  obtain ⟨cs, hc, hf⟩ := hI
  have heq := (store_spec h).2
  refine ⟨cs, by rw [heq]; exact hc, fun hin => ?_⟩
  rw [heq] at hin ⊢
  have hin' : d.inOrder = true := hin
  refine (hf hin').imp_right fun hn => ⟨hn.1, ?_⟩
  dsimp only
  split
  · next hlt =>
    rw [FlatSet.mem_insert, not_or]
    exact ⟨hlt.2.ne, hn.2⟩
  · exact hn.2

/-- All that a decoder stores is from `f` on, as is what it is about to store. -/
structure Current (old : List Callback) (f : ℕ) (d : Decoder w) (pending : List DecoderSource) :
    Prop where
  lastId : d.lastId = some f
  repairs : ∀ ρ r, d.repairs.find? ρ = some r →
    r.sourceIds.toList ≠ [] ∧ ∀ i ∈ r.sourceIds, f ≤ i
  sources : ∀ i, d.sources.contains i = true → f ≤ i
  missing : ∀ i, d.missingSources.contains i = true → f ≤ i
  waiting : ∀ i ∈ d.orderedSources, f ≤ i
  pending : ∀ x ∈ pending, f ≤ x.id
  flushed : Flushed old f d

theorem waiting_flush (h : d.flushOrderedSources b = .ok d') :
    ∀ i ∈ d'.orderedSources, i ∈ d.orderedSources := by
  refine flushOrderedSources_rule (fun u => ∀ i ∈ u.orderedSources, i ∈ d.orderedSources)
    (fun u v hu _ hv i hi => ?_) (fun _ hi => hi) h
  obtain ⟨src, -, rfl⟩ := sweep_ok_iff.mp hv
  exact hu i (FlatSet.mem_erase.mp hi).1

theorem waiting_offer (h : d.offer b src = .ok d') :
    ∀ i ∈ d'.orderedSources, i ∈ d.orderedSources := by
  rcases offer_cases h with ⟨-, rfl⟩ | ⟨-, ⟨-, hf⟩ | ⟨-, rfl⟩⟩
  · exact fun _ hi => hi
  · exact waiting_flush (d := (d.callback src).advance) hf
  · exact fun _ hi => hi

theorem current_offer (hkeyed : d.Keyed) (hp : d.Pointed) (hsrc : Fits src.id)
    (hI : d.Current old f pending) (h : d.offer b src = .ok d') : d'.Current old f pending := by
  have hdel := offer_delivers h
  exact ⟨(lastId_delivers hdel).trans hI.lastId, by rw [repairs_delivers hdel]; exact hI.repairs,
    by rw [sources_delivers hdel]; exact hI.sources,
    by rw [missing_delivers hdel]; exact hI.missing,
    fun i hi => hI.waiting i (waiting_offer h i hi), hI.pending,
    flushed_offer hkeyed hp hsrc hI.flushed h⟩

theorem current_removeDecoded (hI : d.Current old f pending) :
    (d.removeDecoded k ρ).Current old f pending := by
  refine ⟨hI.lastId, fun ρ' r hr => ?_, hI.sources,
    fun i hi => hI.missing i (contains_of_erase hi), hI.waiting, hI.pending,
    flushed_congr (d := d) rfl rfl rfl rfl hI.flushed⟩
  have hr' : (d.repairs.erase ρ).find? ρ' = some r := hr
  rw [OrdMap.find?_erase] at hr'
  split at hr'
  · cases hr'
  · exact hI.repairs ρ' r hr'

theorem current_store (hI : d.Current old f (src :: pending)) (h : d.store b src = .ok d') :
    d'.Current old f pending := by
  have heq := (store_spec h).2
  have hle := hI.pending src List.mem_cons_self
  refine ⟨by rw [heq]; exact hI.lastId, by rw [heq]; exact hI.repairs, fun i hi => ?_,
    by rw [heq]; exact hI.missing, fun i hi => ?_,
    fun x hx => hI.pending x (List.mem_cons_of_mem src hx), flushed_store hI.flushed h⟩
  · rcases (contains_store h i).mp hi with rfl | hi
    exacts [hle, hI.sources i hi]
  · rw [heq] at hi
    dsimp only at hi
    split at hi
    · rcases FlatSet.mem_insert.mp hi with rfl | hi
      exacts [hle, hI.waiting i hi]
    · exact hI.waiting i hi

theorem current_rule : PeelRule b g
    (fun pending src (d : Decoder w) => ((Contents (fun src => Fits src.id)
        (fun r => ∀ i ∈ r.sourceIds, Fits i) Fits d pending ∧ Fits src.id) ∧ d.Queued) ∧
      d.Current old f pending ∧ f ≤ src.id ∧ d.missingSources.contains src.id = false)
    (fun pending d => (Contents (fun src => Fits src.id)
        (fun r => ∀ i ∈ r.sourceIds, Fits i) Fits d pending ∧ d.Queued) ∧
      d.Current old f pending) where
  add := by
    rintro pending src d d1 d2 ⟨hq, hI, hle, hno⟩ hL ho hs
    refine ⟨(queued_rule (g := g) (closed_naming Fits) fun _ hs => hs).add hq hL ho hs, ?_⟩
    -- The added source was decoded from a repair of its own: no other one encodes it.
    rw [stripFromRepairs_not_missing (by rwa [missing_delivers (offer_delivers ho)])] at hs
    cases hs
    have hI1 := current_offer (fun i x hx => (hq.1.1.sources i x hx).1) hq.2.pointed hq.1.2 hI ho
    refine ⟨hI1.lastId, hI1.repairs, hI1.sources, hI1.missing, hI1.waiting, fun x hx => ?_,
      hI1.flushed⟩
    rcases List.mem_cons.mp hx with rfl | hx
    exacts [hle, hI.pending x hx]
  decode := by
    rintro pending src d k ρ r y ⟨hq, hI⟩ hL hk hmin hids hd rfl
    exact ⟨(queued_rule (g := g) (closed_naming Fits) fun _ hs => hs).decode hq hL hk hmin hids hd rfl,
      current_removeDecoded hI, hI.missing _ (references_contains (references_of_readyAt hk)),
      not_missing_removeDecoded _ _ _⟩
  store hI h := ⟨(queued_rule (g := g) (closed_naming Fits) fun _ hs => hs).store hI.1 h,
    current_store hI.2 h⟩

theorem current_insertDecoded (hkeyed : d.Keyed) (hp : d.Pointed) (hsrc : Fits src.id)
    (hle : f ≤ src.id) (hI : d.Current old f []) (h : d.insertDecoded b src = .ok d') :
    d'.Current old f [] := by
  obtain ⟨inserted, d1, hins, rfl, hcases⟩ := insertDecoded_cases h
  have hid : inserted.id = src.id := by
    cases hf : d.sources.find? src.id with
    | none => rw [hins, hf, Option.getD_none]
    | some x =>
      rw [hins, hf, Option.getD_some]
      exact hkeyed _ _ hf
  have hsources : ∀ i, (d.sources.insert src.id inserted).contains i = true → f ≤ i := by
    intro i hi
    rw [OrdMap.contains_insert, Bool.or_eq_true, decide_eq_true_eq] at hi
    rcases hi with rfl | hi
    exacts [hle, hI.sources i hi]
  rcases hcases with ⟨hio, rfl⟩ | ⟨hio, hfirst, hf⟩ | ⟨-, hne, rfl⟩
  · exact ⟨hI.lastId, hI.repairs, hsources, hI.missing, hI.waiting, hI.pending,
      flushed_callback inserted hio (flushed_congr (d := d) rfl rfl rfl rfl hI.flushed)⟩
  · have hdel := flushOrderedSources_delivers hf
    refine ⟨(lastId_delivers hdel).trans hI.lastId, by rw [repairs_delivers hdel]; exact hI.repairs,
      by rw [sources_delivers hdel]; exact hsources,
      by rw [missing_delivers hdel]; exact hI.missing, fun i hi => ?_, hI.pending, ?_⟩
    · exact hI.waiting i (waiting_flush (d := (callback inserted _).advance) hf i hi)
    · refine flushed_give (keyed_insert hkeyed hid) (fun i hi => ?_) (by rwa [hid])
        (hid.trans hfirst) hio (flushed_congr (d := d) rfl rfl rfl rfl hI.flushed) hf
      rw [OrdMap.contains_insert, (hp i hi).1, Bool.or_true]
      exact ⟨rfl, (hp i hi).2⟩
  · obtain ⟨cs, hc, hf⟩ := hI.flushed
    refine ⟨hI.lastId, hI.repairs, hsources, hI.missing, fun i hi => ?_, hI.pending, cs, hc,
      fun hio => (hf hio).imp_right fun hn => ⟨hn.1, ?_⟩⟩
    · rcases FlatSet.mem_insert.mp hi with rfl | hi
      exacts [hle, hI.waiting i hi]
    · rw [FlatSet.mem_insert, not_or]
      exact ⟨hne.symm, hn.2⟩

theorem current_attemptFullDecoding (hfit : d.Fitting) (hq : d.Queued) (hI : d.Current old f [])
    (h : d.attemptFullDecoding b g = .ok d') : d'.Current old f [] := by
  rcases attemptFullDecoding_cases h with
    ⟨rfl, -⟩ | ⟨-, _, _, m, -, -, ⟨k, -, hf⟩ | ⟨-, ha⟩⟩
  · exact hI
  · obtain ⟨ρ, r, hr, heq, hm, -⟩ := dropFaulty_spec hf
    refine ⟨by rw [heq]; exact hI.lastId, fun ρ' q hq => ?_, by rw [heq]; exact hI.sources,
      fun i hi => ?_, by rw [heq]; exact hI.waiting, hI.pending,
      flushed_congr (d := d) (by rw [heq]) (by rw [heq]) (by rw [heq]) (by rw [heq]) hI.flushed⟩
    · rw [heq] at hq
      have hq' : (d.repairs.erase ρ).find? ρ' = some q := hq
      rw [OrdMap.find?_erase] at hq'
      split at hq'
      · cases hq'
      · exact hI.repairs ρ' q hq'
    · exact ((hm i).mp hi).elim (hI.missing i) ((hI.repairs ρ r hr).2 i)
  · obtain ⟨d1, h1, rfl⟩ := decodeAll_cases ha
    have hstart : (({ d with coefficients := m.mat, inv := m.inv } : Decoder w).Fitting ∧
        ({ d with coefficients := m.mat, inv := m.inv } : Decoder w).Queued) ∧
        ({ d with coefficients := m.mat, inv := m.inv } : Decoder w).Current old f [] :=
      ⟨⟨contents_congr (d := d) rfl rfl rfl rfl hfit, queued_congr (d := d) rfl rfl rfl rfl hq⟩,
        hI.lastId, hI.repairs, hI.sources, hI.missing, hI.waiting, hI.pending,
        flushed_congr (d := d) rfl rfl rfl rfl hI.flushed⟩
    have hloop := foldlM_invariant (f := decodeColumn b g _)
      (fun u => (u.Fitting ∧ u.Queued) ∧ u.Current old f []) ?_ hstart h1
    · have hI1 := hloop.2
      exact ⟨hI1.lastId, fun ρ r hr => (by cases hr), hI1.sources, fun i hi => (by cases hi),
        hI1.waiting, hI1.pending, flushed_congr (d := d1) rfl rfl rfl rfl hI1.flushed⟩
    · rintro miss hmiss u v ⟨⟨hfit1, hq1⟩, hI1⟩ hv
      obtain ⟨rows, symbol, -, -, hins⟩ := decodeColumn_cases hv
      have hkey := List.mem_zipIdx' hmiss
      have hmem : d.missingSources.contains miss.1 = true :=
        OrdMap.contains_iff_mem_keys.mpr (hkey.2 ▸ List.getElem_mem hkey.1)
      have hfits := hfit.missing miss.1 hmem
      exact ⟨⟨contents_insertDecoded hfit1 hfits hins, queued_insertDecoded hq1 hfits hins⟩,
        current_insertDecoded (fun i x hx => (hfit1.sources i x hx).1) hq1.pointed hfits
          (hI.missing _ hmem) hI1 hins⟩

theorem current_dropOutdated (hkeyed : d.Keyed) (hq : d.Queued)
    (h : d.dropOutdated b f = .ok d') : d'.Current d.callbacks f [] := by
  obtain ⟨d1, d2, heq, h2, rfl, hdrops⟩ := dropOutdated_cases h
  have hq1 : d1.Queued :=
    queued_congr (by rw [heq]) (by rw [heq]) (by rw [heq]) (by rw [heq]) hq
  have hkeyed1 : d1.Keyed := by
    rw [Keyed, heq]
    exact hkeyed
  refine ⟨hdrops.lastId, fun ρ r hr => ?_, fun i hi => ?_, fun i hi => ((hdrops.missing i).mp hi).1,
    (queued_dropOrdered hq1 h2).2, fun x hx => absurd hx List.not_mem_nil, ?_⟩
  · obtain ⟨hr, hrecent⟩ := (hdrops.repairs ρ r).mp hr
    exact ⟨hdrops.nonempty ρ r hr, fun i hi => not_lt.mp fun hlt => hrecent ⟨i, hi, hlt⟩⟩
  · rw [OrdMap.contains_eraseBelow, Bool.and_eq_true, decide_eq_true_eq] at hi
    exact hi.1
  · have hcalls : d1.callbacks = d.callbacks := by rw [heq]
    have hflushed : Flushed d.callbacks f d2 := by
      rw [dropOrdered] at h2
      split at h2
      · obtain ⟨d3, h3, h4⟩ := bind_ok_iff.mp h2
        have hs := hands_sweepLoop h3
        obtain ⟨cs, hcs, -⟩ := hs.calls
        have hp3 : d3.Pointed := by
          intro i hi
          rw [sources_delivers hs.frame]
          exact hq1.pointed i ((hs.waiting i).mp hi).1
        exact flushOrderedSources_flushed
          (d := { d3 with firstMissingSourceInOrder := max d3.firstMissingSourceInOrder f })
          (show d3.Keyed from keyed_delivers hs.frame hkeyed1) hp3 (hcs.trans (by rw [hcalls]))
          (Or.inr (le_max_right _ _)) h4
      · next hio =>
        cases h2
        exact ⟨[], by rw [hcalls, List.append_nil], fun hin => absurd hin hio⟩
    exact flushed_congr (d := d2) rfl rfl rfl rfl hflushed

theorem current_accepted (hA : Accepted r (firstId r) d d1 d2 r2) (huseful : d1.useless r = false)
    (hI : d1.Current old (firstId r) []) : d2.Current old (firstId r) [] := by
  have hids : ∀ i ∈ r2.sourceIds, firstId r ≤ i := fun i hi =>
    firstId_le ((hA.ids i).mp hi).1
  refine ⟨by rw [hA.frame]; exact hI.lastId, fun ρ q hq => ?_, by rw [hA.frame]; exact hI.sources,
    fun i hi => ((hA.missing i).mp hi).elim (hI.missing i) (hids i),
    by rw [hA.frame]; exact hI.waiting, hI.pending,
    flushed_congr (d := d1) (by rw [hA.frame]) (by rw [hA.frame]) (by rw [hA.frame])
      (by rw [hA.frame]) hI.flushed⟩
  by_cases hρ : ρ = r.id
  · rw [hρ, hA.stored] at hq
    cases hq
    obtain ⟨i, hi, hunknown⟩ := exists_unknown huseful
    exact ⟨List.ne_nil_of_mem ((hA.ids i).mpr ⟨hi, hunknown⟩), hids⟩
  · rw [hA.repairs ρ hρ] at hq
    exact hI.repairs ρ q hq

/-- Nothing is outdated once more. -/
theorem dropOutdated_current (hI : d.Current old f [])
    (hfirst : d.inOrder = true → f ≤ d.firstMissingSourceInOrder ∧
      d.firstMissingSourceInOrder ∉ d.orderedSources) : d.dropOutdated b f = .ok d := by
  have hstart : ({ d with lastId := some f } : Decoder w) = d := by rw [← hI.lastId]
  have hrepairs : d.repairs.entries.foldlM (dropRepair b f) d = .ok d := by
    refine foldlM_fixed fun cit hcit => ?_
    obtain ⟨hne, hle⟩ := hI.repairs cit.1 cit.2 (OrdMap.mem_entries_iff.mp hcit)
    obtain ⟨i, l, hl⟩ := List.exists_cons_of_ne_nil hne
    have hassert : b.assert .emptyStoredRepair (!cit.2.sourceIds.isEmpty) = .ok () :=
      Build.assert_eq_ok (by rw [FlatSet.isEmpty, hl]; rfl)
    have hi := hle i (by rw [FlatSet.mem_iff, hl]; exact List.mem_cons_self)
    simp only [dropRepair, hassert, ok_bind, hl, if_neg (not_lt.mpr hi)]
  have hordered : d.dropOrdered b f = .ok d := by
    rw [dropOrdered]
    split
    · next hio =>
      obtain ⟨hle, hno⟩ := hfirst hio
      have hnone : d.orderedSources.toList.filter (fun cit => decide (cit < f)) = [] :=
        List.filter_eq_nil_iff.mpr fun i hi => by simpa using hI.waiting i hi
      rw [hnone, List.foldlM_nil, pure_bind, max_eq_left hle]
      exact if_neg hno
    · rfl
  have hbelow : ∀ {β : Type} {m : OrdMap ℕ β}, (∀ i, m.contains i = true → f ≤ i) →
      m.eraseBelow f = m := by
    intro β m hm
    apply OrdMap.ext_find?
    intro i
    rw [OrdMap.find?_eraseBelow]
    split
    · rfl
    · next hlt =>
      cases hi : m.find? i with
      | none => rfl
      | some x => exact absurd (hm i (OrdMap.contains_of_find? hi)) hlt
  rw [dropOutdated, hstart, hrepairs, ok_bind, hordered, ok_bind, hbelow hI.sources,
    hbelow hI.missing]

end Netcode.Detail.Decoder
