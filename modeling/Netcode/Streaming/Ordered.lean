import Netcode.Passing
import Netcode.Stranding

/-! In order, the user was given the sources before the first missing one. -/
namespace Netcode.Detail.Decoder

open Containers Runs

variable {w : FieldSize} {b : Build} {g : GfComplete w}

variable {d d' d1 d2 : Decoder w} {src : DecoderSource} {r r2 : DecoderRepair} {p : Incoming}
  {i j k : ℕ}

/-- A stored repair that the cascade of `k` would peel lists `k`. -/
theorem peelable_lists (hp : d.Peeled) {first : ℕ} (h : d.peelable first k j = true) :
    ∃ ρ q, d.repairs.find? ρ = some q ∧ j ∈ q.sourceIds ∧ k ∈ q.sourceIds := by
  obtain ⟨ρ, q, hq, ⟨hj, -, hone⟩, -⟩ := peelable_iff.mp h
  refine ⟨ρ, q, hq, hj, ?_⟩
  by_contra hk
  have hmany := hp ρ q hq
  rw [erase_eq_self hk] at hone
  omega

/-- Nothing is passed over when the cascade peels no repair. -/
theorem not_passedOver {f first : ℕ} (hno : ∀ j < k, d.peelable first k j = false) :
    d.passedOver f first k = false := by
  rw [passedOver, Bool.and_eq_false_iff]
  by_cases hall : (List.range' f (k - f)).any (fun j => !d.sources.contains j) = true
  · obtain ⟨j, hj, hunknown⟩ := List.any_eq_true.mp hall
    right
    rw [List.all_eq_false]
    have hjk : j < k := by
      have := List.mem_range'_1.mp hj
      omega
    rw [Bool.not_eq_true'] at hunknown
    exact ⟨j, hj, by rw [hunknown, hno j hjk]; exact Bool.false_ne_true⟩
  · left
    rwa [Bool.not_eq_true] at hall

theorem not_strands (hI : d.Linked) (hp : d.Peeled) (hf : d.FollowsStored p) :
    d.strands p = false := by
  cases p with
  | source src =>
    have hno : d.passedOver d.firstMissingSourceInOrder 0 src.id = false := by
      refine not_passedOver fun j _ => ?_
      rw [← Bool.not_eq_true]
      intro hpeel
      obtain ⟨ρ, q, hq, -, hmem⟩ := peelable_lists hp hpeel
      exact hf ρ q hq hmem
    rw [strands, hno, Bool.and_false]
  | repair r =>
    rw [strands, Bool.and_eq_false_iff]
    right
    split
    · next i hids =>
      refine not_passedOver fun j hj => ?_
      rw [← Bool.not_eq_true]
      intro hpeel
      -- All that a stored repair lists is missing, hence the only source the repair misses.
      obtain ⟨ρ, q, hq, hmem, -⟩ := peelable_lists hp hpeel
      have hunknown := unknown_of_stored hI hf hq hmem
      rw [FlatSet.mem_iff, hids, List.mem_singleton] at hunknown
      exact hj.ne hunknown
    · rfl

/-- A repair only makes outdated the sources that are held. -/
def Spares (d : Decoder w) : Incoming → Prop
  | .source _ => True
  | .repair r => ∀ i < firstId r, d.Held i

/-- Every known source is given or waits, and every outdated one was given. -/
structure Streamed (d : Decoder w) : Prop where
  proceeds : d.Proceeds
  kept : d.Kept
  given : ∀ i, d.outdated i = true → i ∈ d.delivered

theorem delivered_shows (h : d.Shows d') (hi : i ∈ d.delivered) : i ∈ d'.delivered := by
  obtain ⟨cs, hcs, -⟩ := h.calls
  rw [delivered, hcs, List.map_append]
  exact List.mem_append_left _ hi

/-- What a repair makes outdated was given before, or is given now. -/
theorem given_sweeps (hI : d.Streamed) (hheld : ∀ i < k, d.Held i) (h : Sweeps k n d d') :
    ∀ i < k, i ∈ d'.delivered := by
  intro i hi
  rw [h.delivered, handed, List.mem_append, List.mem_append]
  rcases hheld i hi with ho | hs
  · exact Or.inl (hI.given i ho)
  · rcases hI.kept i hs with hd | hw
    · exact Or.inl hd
    · exact Or.inr (Or.inl (List.mem_filter.mpr ⟨FlatSet.mem_iff.mp hw, decide_eq_true hi⟩))

/-- What is outdated was given, if what a repair makes outdated is. -/
theorem given_receive (hL : d.ListedStored) (hI : ∀ i, d.outdated i = true → i ∈ d.delivered)
    (hdrop : ∀ r d1, p = .repair r → d.accepts r = true →
      d.dropOutdated b (firstId r) = .ok d1 → ∀ i < firstId r, i ∈ d1.delivered)
    (h : d.receive b g p = .ok d') : ∀ i, d'.outdated i = true → i ∈ d'.delivered := by
  cases p with
  | source src =>
    rcases receiveSource_cases h with ⟨rfl, -⟩ | ⟨-, -, d1, h1, h2⟩
    · exact hI
    · have hshows := ((shows_rule d).addSource hL (Shows.refl d) h1).trans
        (shows_attemptFullDecoding h2)
      intro i hi
      rw [outdated_congr hshows.keeps.lastId] at hi
      exact delivered_shows hshows (hI i hi)
  | repair r =>
    obtain ⟨-, ⟨rfl, -⟩ | ⟨hacc, ⟨d1, h1, -, rfl⟩ | ⟨d1, d2, r2, ha, h2⟩⟩⟩ :=
      receiveRepair_cases h
    · exact hI
    · obtain ⟨-, -, -, -, -, hdrops⟩ := dropOutdated_cases h1
      intro i hi
      obtain ⟨l, hl, hil⟩ := outdated_iff.mp hi
      obtain rfl : firstId r = l := Option.some.inj (hdrops.lastId.symm.trans hl)
      exact hdrop r d1 rfl hacc h1 i hil
    · have hA := ha.accepted (contains_of_accepts hacc)
      have hlast : d2.lastId = some (firstId r) := by
        rw [hA.frame]
        exact hA.drops.lastId
      have hdel : d2.delivered = d1.delivered := by
        rw [hA.frame]
        rfl
      have hshows : d2.Shows d' := by
        rcases h2 with ⟨hone, src, hc, hadd⟩ | ⟨-, hfull⟩
        · have hids := createSourceFromRepair_only hc hone
          have hremoved : d2.Shows (d2.removeDecoded src.id r.id) :=
            shows_quiet (keeps_of_eq rfl rfl rfl) rfl
          exact (shows_rule d2).addSource
            (listedStored_removeDecoded (hA.listedStored hL) hA.stored hids) hremoved hadd
        · exact shows_attemptFullDecoding hfull
      intro i hi
      rw [outdated_congr hshows.keeps.lastId] at hi
      obtain ⟨l, hl, hil⟩ := outdated_iff.mp hi
      obtain rfl : firstId r = l := Option.some.inj (hlast.symm.trans hl)
      exact delivered_shows hshows (hdel ▸ hdrop r d1 rfl hacc ha.drop i hil)

/-- A packet follows what is stored, repeats nothing that was given, and makes only held sources
outdated. -/
structure Continues (g : GfComplete w) (d : Decoder w) (p : Incoming) : Prop where
  linked : d.Linked
  peeled : d.Peeled
  retains : d.Retains g p
  follows : d.FollowsStored p
  spares : d.Spares p
  notLast : namesLast p = false

theorem streamed_receive (hI : d.Streamed) (hc : d.Continues g p) (h : d.receive b g p = .ok d') :
    d'.Streamed := by
  have hL := hc.linked.listed
  have hP := hI.proceeds
  have hkeeps := hP.keeps hc.retains hc.notLast
  have hnamed := not_namesPassed hP.passed (not_retreats hc.retains.remembers)
  have hrevives : ¬ d.Revives g p := not_revives hP.frontier hnamed fun src _ ho hs => by
    by_contra hlt
    rcases hP.passed.before src.id (not_le.mp hlt) with (ho' | hs') | ⟨x, hx, -⟩
    · rw [ho] at ho'
      cases ho'
    · rw [hs] at hs'
      cases hs'
    · exact absurd hx List.not_mem_nil
  have hids : ∀ i ∈ p.ids, i < 2 ^ 32 := fun i hi =>
    Nat.lt_of_succ_lt (bounded_of_namesLast hc.notLast hi)
  refine ⟨proceeds_receive hP hc.retains hc.notLast h, kept_receive hL hP.inSequence hI.kept hids
    ⟨hkeeps, hrevives, not_strands hc.linked hc.peeled hc.follows⟩ h,
    given_receive hL hI.given (fun r d1 hp hacc h1 => ?_) h⟩
  subst hp
  obtain ⟨m, hm, hrm, -⟩ := lacks_repair hacc hkeeps.bounded
  obtain ⟨n, hsweeps⟩ := dropOutdated_sweeps hP.inSequence.sequenced hm hrm h1
  exact given_sweeps hI hc.spares hsweeps

theorem streamed_initial : (initial true : Decoder w).Streamed :=
  ⟨proceeds_initial, kept_initial, fun _ hi => (by cases hi)⟩

/-- All sources before the first missing one were given, and this one is not held. -/
theorem Streamed.delivered_eq (hI : d.Streamed) :
    d.delivered = List.range d.firstMissingSourceInOrder ∧ ¬ d.Held d.firstMissingSourceInOrder := by
  have hseq := hI.proceeds.inSequence.sequenced
  have hmem : ∀ i, i ∈ d.delivered ↔ i ∈ List.range d.firstMissingSourceInOrder := by
    intro i
    rw [List.mem_range]
    refine ⟨hseq.before i, fun hi => ?_⟩
    rcases hI.proceeds.passed.before i hi with (ho | hs) | ⟨x, hx, -⟩
    · exact hI.given i ho
    · exact (hI.kept i hs).resolve_right fun hw => absurd (hseq.waits i hw) hi.not_gt
    · exact absurd hx List.not_mem_nil
  refine ⟨hseq.sorted.eq_of_mem_iff List.pairwise_lt_range hmem, ?_⟩
  rintro (ho | hs)
  · exact absurd (hseq.before _ (hI.given _ ho)) (lt_irrefl _)
  · rw [first_unknown hseq hI.kept] at hs
    cases hs

theorem streamed_run {ps : List Incoming}
    (h : Run (receive b g) (fun d p => d.Continues g p) (initial true) ps d) : d.Streamed :=
  h.invariant Streamed (fun _ _ _ hI hc hs => streamed_receive hI hc hs) streamed_initial

end Netcode.Detail.Decoder
