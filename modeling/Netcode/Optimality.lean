import Netcode.Optimality.Retaining

/-! The decoder loses nothing of what it received, and has no missing source left as soon as what it
received determines all sources. -/
namespace Netcode.Detail.Decoder

open Combinations Containers Equations Incidence Runs

variable {w : FieldSize} {b : Build} {g : GfComplete w} {v : ℕ → Gf g} {i : ℕ}
  {d d' : Decoder w} {r q : DecoderRepair} {p : Incoming} {ps : List Incoming} {k ρ : ℕ}

/-- Repairs with one identifier encode the same sources. -/
def Consistent (ps : List Incoming) : Prop :=
  ∀ r r', .repair r ∈ ps → .repair r' ∈ ps → r.id = r'.id → r.sourceIds = r'.sourceIds

/-- A stored repair is what is left of one that was received. -/
def LeftOf (ps : List Incoming) (q : DecoderRepair) : Prop :=
  ∃ r, .repair r ∈ ps ∧ r.id = q.id ∧ ∀ i ∈ q.sourceIds, i ∈ r.sourceIds

theorem closed_leftOf (ps : List Incoming) :
    Closed b g (fun _ => True) (LeftOf ps) (fun _ => True) where
  remove := by
    rintro src q q' - ⟨r, hr, hid, hsub⟩ - h
    rw [removeSourceDataFromRepair_eq h]
    exact ⟨r, hr, hid, fun i hi => hsub i (FlatSet.mem_erase.mp hi).1⟩
  create _ _ _ := trivial
  lists _ _ := trivial

theorem closed_listing (M : ℕ → Prop) :
    Closed b g (fun _ => True) (fun q => ∀ i ∈ q.sourceIds, M i) M where
  remove := by
    rintro src q q' - hM - h i hi
    exact hM i (FlatSet.mem_erase.mp hi).1
  create _ _ _ := trivial
  lists hM hi := hM _ hi

/-- What a decoder that retained all it received can tell. -/
structure Retained (g : GfComplete w) (ps : List Incoming) (d : Decoder w) : Prop where
  balanced : d.Balanced
  exact : ∀ v : ℕ → Gf g,
    d.SolvedBy v ↔ (∀ i, d.outdated i = true → v i = 0) ∧ ∀ p ∈ ps, p.SolvedBy v
  contents : Contents (fun _ => True) (LeftOf ps) (fun _ => True) d []
  fresh : ∀ i, d.missingSources.contains i = true → d.outdated i = false

/-- What is listed is missing, hence neither forgotten before nor afterwards. -/
theorem fresh_listed (hI : d.Balanced) (hfresh : ∀ i, d.missingSources.contains i = true →
    d.outdated i = false) (hr : d.Retains g p) (h : d.receive b g p = .ok d')
    (hi : d.missingSources.contains i = true) : d'.outdated i = false := by
  rcases receive_keeps hI.linked.listed h with hkeeps | ⟨r, rfl, -, -, hlast, -⟩
  · rw [outdated_congr hkeeps.lastId]
    exact hfresh i hi
  · obtain ⟨-, ⟨rfl, -⟩ | ⟨hacc, -⟩⟩ := receiveRepair_cases h
    · exact hfresh i hi
    · obtain ⟨ρ, hρ⟩ := hI.referenced i hi
      obtain ⟨q, hq, hiq⟩ := hI.linked.listed i ρ hρ
      rw [outdated_some hlast, decide_eq_false_iff_not]
      exact fun hlt => (forgets_eq_false hr.remembers hacc).2 ρ q hq ⟨i, hiq, hlt⟩

/-- What is received and not ignored names no forgotten source. -/
theorem fresh_incoming (hI : d.Balanced) (hr : d.Retains g p) (h : d.receive b g p = .ok d')
    (hne : d' ≠ d) (hi : i ∈ p.ids) : d'.outdated i = false := by
  cases p with
  | source src =>
    obtain rfl : i = src.id := List.mem_singleton.mp hi
    rcases receiveSource_cases h with ⟨rfl, -⟩ | ⟨ho, -⟩
    · exact absurd rfl hne
    · rcases receive_keeps hI.linked.listed h with hkeeps | ⟨r, hp, -⟩
      · rw [outdated_congr hkeeps.lastId]
        exact ho
      · cases hp
  | repair r =>
    obtain ⟨-, ⟨rfl, -⟩ | ⟨hacc, -⟩⟩ := receiveRepair_cases h
    · exact absurd rfl hne
    · have hle : firstId r ≤ i := firstId_le hi
      rcases receive_keeps hI.linked.listed h with hkeeps | ⟨r', hp, -, -, hlast, -⟩
      · rw [outdated_congr hkeeps.lastId, ← Bool.not_eq_true, outdated_iff]
        rintro ⟨l, hl, hil⟩
        have hfirst := (forgets_eq_false hr.remembers hacc).1
        rw [outdated_some hl, decide_eq_false_iff_not] at hfirst
        omega
      · cases hp
        rw [outdated_some hlast, decide_eq_false_iff_not]
        exact not_lt.mpr hle

theorem leftOf_append (p : Incoming) (h : LeftOf ps q) : LeftOf (ps ++ [p]) q := by
  obtain ⟨r, hr, hid, hsub⟩ := h
  exact ⟨r, List.mem_append_left _ hr, hid, hsub⟩

/-- No missing source is forgotten. -/
theorem fresh_receive (hI : d.Balanced)
    (hC : Contents (fun _ => True) (fun _ => True) (fun _ => True) d [])
    (hfresh : ∀ i, d.missingSources.contains i = true → d.outdated i = false)
    (hr : d.Retains g p) (h : d.receive b g p = .ok d') :
    ∀ i, d'.missingSources.contains i = true → d'.outdated i = false := by
  by_cases hne : d' = d
  · subst hne
    exact hfresh
  · have hlisted : ∀ ρ q, d.repairs.find? ρ = some q → ∀ i ∈ q.sourceIds, d'.outdated i = false :=
      fun ρ q hq i hi => fresh_listed hI hfresh hr h
        (references_contains (hI.linked.stored i ρ ⟨q, hq, hi⟩))
    refine (contents_receive (closed_listing fun i => d'.outdated i = false) hI.linked.listed
      ⟨hC.sources, fun ρ q hq => ⟨(hC.repairs ρ q hq).1, hlisted ρ q hq⟩,
        fun i => fresh_listed hI hfresh hr h, hC.callbacks, hC.pending⟩ ?_
      (fun _ _ _ _ _ _ _ _ _ _ _ _ _ _ => trivial) h).missing
    cases p with
    | source src => trivial
    | repair r => exact fun i hi => fresh_incoming hI hr h hne hi

theorem contents_retained (hI : d.Retained g ps) (h : d.receive b g p = .ok d') :
    Contents (fun _ => True) (LeftOf (ps ++ [p])) (fun _ => True) d' [] := by
  refine contents_receive (closed_leftOf _) hI.balanced.linked.listed
    (hI.contents.mono (fun _ h => h) (fun q => leftOf_append p) fun _ h => h) ?_
    (fun _ _ _ _ _ _ _ _ _ _ _ _ _ _ => trivial) h
  cases p with
  | source src => trivial
  | repair r =>
    exact ⟨r, List.mem_append_right _ (List.mem_singleton_self _), rfl, fun i hi => hi⟩

/-- Sources that are forgotten remain so. -/
theorem outdated_receive (hL : d.ListedStored) (hr : d.retreats p = false)
    (h : d.receive b g p = .ok d') (hi : d.outdated i = true) : d'.outdated i = true := by
  rcases receive_keeps hL h with hkeeps | ⟨r, rfl, -, -, hlast, -⟩
  · rw [outdated_congr hkeeps.lastId]
    exact hi
  · obtain ⟨-, ⟨rfl, -⟩ | ⟨hacc, -⟩⟩ := receiveRepair_cases h
    · exact hi
    · obtain ⟨l, hl, hil⟩ := outdated_iff.mp hi
      rw [retreats, hacc, Bool.true_and, outdated_some hl, decide_eq_false_iff_not] at hr
      rw [outdated_some hlast, decide_eq_true_eq]
      omega

theorem retained_receive (hI : d.Retained g ps) (hr : d.Retains g p)
    (hc : Consistent (ps ++ [p])) (h : d.receive b g p = .ok d') : d'.Retained g (ps ++ [p]) := by
  have hexact : ∀ v : ℕ → Gf g, d'.SolvedBy v ↔
      (∀ i, d'.outdated i = true → v i = 0) ∧ ∀ q ∈ ps ++ [p], q.SolvedBy v := by
    intro v
    have hstep := solvedBy_receive (v := v) hI.balanced hr ?_ h
    · rw [hstep, hI.exact v, List.forall_mem_append, List.forall_mem_singleton]
      constructor
      · rintro ⟨⟨-, h1⟩, h2, h3⟩
        exact ⟨h3, h1, h2⟩
      · rintro ⟨h3, h1, h2⟩
        refine ⟨⟨fun i hi => h3 i ?_, h1⟩, h2, h3⟩
        exact outdated_receive hI.balanced.linked.listed (not_retreats hr.remembers) h hi
    · -- The repair a duplicate repeats was received before.
      rintro r rfl hdup hd
      obtain ⟨q, hq⟩ := OrdMap.contains_iff.mp hdup
      obtain ⟨hid, r', hr', hid', -⟩ := hI.contents.repairs r.id q hq
      have hids := hc r r' (by simp) (List.mem_append_left _ hr') (hid.symm.trans hid'.symm)
      have hzero := ((hI.exact v).mp hd).2 _ hr'
      rwa [Incoming.SolvedBy, ← hids, hid', hid] at hzero
  have hcontents := hI.contents.mono (fun _ h => h) (fun _ _ => trivial) fun _ h => h
  exact ⟨balanced_receive hI.balanced (balances_of_retains hr) h, hexact, contents_retained hI h,
    fresh_receive hI.balanced hcontents hI.fresh hr h⟩

theorem retained_initial (inOrder : Bool) : (initial inOrder : Decoder w).Retained g [] := by
  refine ⟨balanced_initial inOrder, fun v => ⟨fun hd => ⟨hd.outdated, by simp⟩, fun hd => ?_⟩,
    contents_initial inOrder, fun i hi => by cases hi⟩
  refine ⟨fun i hi => ?_, hd.1, fun ρ r hr => ?_⟩
  · cases hi
  · cases hr

theorem retained_run {inOrder : Bool} (hc : Consistent ps)
    (h : Run (receive b g) (fun d p => d.Retains g p) (initial inOrder) ps d) :
    d.Retained g ps := by
  have hstart : (∀ p ∈ ([] : List Incoming), p ∈ ps) ∧ (initial inOrder : Decoder w).Retained g [] :=
    ⟨fun _ hp => absurd hp List.not_mem_nil, retained_initial inOrder⟩
  have hrun := (h.of_forall (D := fun (d : Decoder w) p => d.Retains g p ∧ p ∈ ps)
    fun p hp _ hr => ⟨hr, hp⟩).inputs (fun done (d : Decoder w) =>
      (∀ p ∈ done, p ∈ ps) ∧ d.Retained g done) ?_ hstart
  · exact hrun.2
  · rintro done d p d' ⟨hdone, hI⟩ ⟨hr, hp⟩ hs
    have hall : ∀ q ∈ done ++ [p], q ∈ ps := by
      rw [List.forall_mem_append, List.forall_mem_singleton]
      exact ⟨hdone, hp⟩
    exact ⟨hall, retained_receive hI hr
      (fun r r' h1 h2 => hc r r' (hall _ h1) (hall _ h2)) hs⟩

/-- Every source an incoming packet names is known or forgotten. -/
def Complete (ps : List Incoming) (d : Decoder w) : Prop :=
  ∀ p ∈ ps, ∀ i ∈ p.ids, d.outdated i = true ∨ d.sources.contains i = true

/-- What was received determines every source it names, but for the forgotten ones. -/
def Determined (g : GfComplete w) (ps : List Incoming) (d : Decoder w) : Prop :=
  ∀ v : ℕ → Gf g, (∀ i, d.outdated i = true → v i = 0) → (∀ p ∈ ps, p.SolvedBy v) →
    ∀ p ∈ ps, ∀ i ∈ p.ids, v i = 0

/-- A missing source is not determined: there are fewer repairs than missing sources. -/
theorem Retained.not_missing (hI : d.Retained g ps) (hdet : Determined g ps d) :
    d.repairs.size = 0 ∧ d.missingSources.size = 0 := by
  refine hI.balanced.counted.resolve_right fun hlt => ?_
  have hlinks : d.links.size < (listed d.links).card := by
    rwa [← size_missing_eq hI.balanced.linked hI.balanced.referenced, links, OrdMap.size_map]
  obtain ⟨v, hsat, ⟨i, hi, hne⟩, hzero⟩ := exists_satisfies_of_lt (coef g) hlinks
  have hmissing : ∀ j, v j ≠ 0 → d.missingSources.contains j = true := by
    intro j hj
    rw [missing_iff_listed hI.balanced.linked hI.balanced.referenced]
    exact not_imp_comm.mp (hzero j) hj
  have hsolved : d.SolvedBy v := by
    refine ⟨fun j hj => ?_, fun j hj => ?_, satisfies_links.mp hsat⟩
    · by_contra hne
      rw [hI.balanced.linked.disjoint j (hmissing j hne)] at hj
      cases hj
    · by_contra hne
      rw [hI.fresh j (hmissing j hne)] at hj
      cases hj
  obtain ⟨hforgotten, hps⟩ := (hI.exact v).mp hsolved
  obtain ⟨ρ, q, hq, hiq⟩ := mem_listed_links.mp hi
  obtain ⟨-, r, hr, -, hsub⟩ := hI.contents.repairs ρ q hq
  exact hne (hdet v hforgotten hps _ hr i (hsub i hiq))

/-- Every source named is known or forgotten if and only if what was received determines it. -/
theorem Retained.complete_iff (hI : d.Retained g ps) : d.Complete ps ↔ Determined g ps d := by
  refine ⟨fun hcomplete v hforgotten hps p hp i hi => ?_, fun hdet p hp i hi => ?_⟩
  · have hsolved := (hI.exact v).mpr ⟨hforgotten, hps⟩
    exact (hcomplete p hp i hi).elim (hsolved.outdated i) (hsolved.known i)
  · by_contra hno
    obtain ⟨ho, hs⟩ := not_or.mp hno
    have hnone : d.repairs.isEmpty = true := by
      have hsize := (hI.not_missing hdet).1
      rw [OrdMap.isEmpty, List.isEmpty_iff_length_eq_zero]
      exact hsize
    have hsolved : d.SolvedBy (Pi.single i 1 : ℕ → Gf g) := by
      refine ⟨fun j hj => Pi.single_eq_of_ne ?_ 1, fun j hj => Pi.single_eq_of_ne ?_ 1,
        fun ρ r hr => ?_⟩
      · rintro rfl
        exact hs hj
      · rintro rfl
        exact ho hj
      · rw [OrdMap.isEmpty_iff.mp hnone ρ] at hr
        cases hr
    obtain ⟨hforgotten, hps⟩ := (hI.exact _).mp hsolved
    have hzero := hdet _ hforgotten hps p hp i hi
    rw [Pi.single_eq_same] at hzero
    exact one_ne_zero hzero

/-- The decoder is optimal: in every run whose steps retain what was received, contents are the same
to the decoder if and only if all packets received are, and they agree on what it forgot; and every
source named is known or forgotten if and only if what was received determines it. -/
theorem complete_iff_determined {inOrder : Bool} (hc : Consistent ps)
    (h : Run (receive b g) (fun d p => d.Retains g p) (initial inOrder) ps d) :
    (∀ v : ℕ → Gf g, d.SolvedBy v ↔
      (∀ i, d.outdated i = true → v i = 0) ∧ ∀ p ∈ ps, p.SolvedBy v) ∧
    (d.Complete ps ↔ Determined g ps d) := by
  have hI := retained_run hc h
  exact ⟨hI.exact, hI.complete_iff⟩

theorem spares_of_lt {K : Type} [Field K] {c : ℕ → ℕ → K} {L : OrdMap ℕ (FlatSet ℕ)}
    (h : L.size = 0 ∨ L.size < (listed L).card) : SparesEquation c L := by
  rintro hsize ⟨v, hv, -⟩
  rcases h with h | h
  · refine absurd (funext fun k => ?_) hv
    exact absurd k.isLt (by omega)
  · omega

instance (ps : List Incoming) (d : Decoder w) : Decidable (d.Complete ps) :=
  inferInstanceAs (Decidable (∀ p ∈ ps, ∀ i ∈ p.ids, _ ∨ _))

/-- The repairs among what is received. -/
def repairsIn (ps : List Incoming) : List DecoderRepair := ps.filterMap fun
  | .source _ => none
  | .repair r => some r

theorem consistent_of_nodup (h : ((repairsIn ps).map DecoderRepair.id).Nodup) : Consistent ps := by
  intro r r' hr hr' hid
  rw [List.inj_on_of_nodup_map h (List.mem_filterMap.mpr ⟨_, hr, rfl⟩)
    (List.mem_filterMap.mpr ⟨_, hr', rfl⟩) hid]

/-- Of sources 0 to 3, sources 1 and 3 are lost and decoded. -/
theorem complete_iff_determined_nestedCalls : ∃ d ps,
    ps = arrivals .release (packets .release gf16 nestedCalls) [2, 0, 5, 3] ∧
    Run (receive .release gf16) (fun d p => d.Retains gf16 p) (initial false) ps d ∧
    d.Complete ps ∧ Determined gf16 ps d := by
  have hrun : (runWhile (receive .release gf16) (fun d p => d.rebuildsShared p = false ∧
      d.forgets p = false ∧ ((d.linksWith p).size = 0 ∨
        (d.linksWith p).size < (listed (d.linksWith p)).card)) (initial false)
      (arrivals .release (packets .release gf16 nestedCalls) [2, 0, 5, 3])).any
        (fun d => decide (d.Complete
          (arrivals .release (packets .release gf16 nestedCalls) [2, 0, 5, 3]))) = true := by
    decide +kernel
  obtain ⟨d, hd, hcomplete⟩ := (Option.any_eq_true _ _).mp hrun
  have hretains := (run_of_runWhile hd).mono (D := fun d p => d.Retains gf16 p)
    fun s p hs => ⟨hs.1, hs.2.1, spares_of_lt hs.2.2⟩
  have hconsistent : Consistent
      (arrivals .release (packets .release gf16 nestedCalls) [2, 0, 5, 3]) :=
    consistent_of_nodup (by decide +kernel)
  have hcomplete' := of_decide_eq_true hcomplete
  exact ⟨d, _, rfl, hretains, hcomplete',
    (complete_iff_determined hconsistent hretains).2.mp hcomplete'⟩

end Netcode.Detail.Decoder
