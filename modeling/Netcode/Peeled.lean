import Netcode.Cascade

/-! Every stored repair lists at least two sources, as long as the cascade finds every repair that
is left with one. -/
namespace Netcode.Detail.Decoder

open Containers Runs

variable {w : FieldSize} {b : Build} {g : GfComplete w} {d d' d1 d2 : Decoder w}
  {src y : DecoderSource} {r r2 : DecoderRepair} {p : Incoming} {ps : List Incoming}
  {k ρ n x first : ℕ}

/-- Every stored repair lists at least two sources. -/
def Peeled (d : Decoder w) : Prop :=
  ∀ ρ r, d.repairs.find? ρ = some r → 1 < r.sourceIds.size

theorem peeled_congr (h : d'.repairs = d.repairs) (hI : d.Peeled) : d'.Peeled := by
  rw [Peeled, h]
  exact hI

/-- Once source `x` is known, every repair left with one source is the only one that references
it. -/
def peelsWithout (d : Decoder w) (x : ℕ) : Bool :=
  d.repairs.entries.all fun e => match (d.remaining x e.1 e.2).toList with
    | [k] => ((d.missingSources.erase x).find? k).any fun cits => decide (cits.toList = [e.1])
    | _ => true

theorem peelsWithout_iff : d.peelsWithout x = true ↔ ∀ ρ r k, d.repairs.find? ρ = some r →
    (d.remaining x ρ r).toList = [k] →
    ∃ cits, (d.missingSources.erase x).find? k = some cits ∧ cits.toList = [ρ] := by
  simp only [peelsWithout, List.all_eq_true, Prod.forall, OrdMap.mem_entries_iff]
  refine forall_congr' fun ρ => forall_congr' fun r => ⟨fun h k hr hk => ?_, fun h hr => ?_⟩
  · have hall := h hr
    rw [hk] at hall
    simpa [Option.any_eq_true] using hall
  · split
    · next k hk => simpa [Option.any_eq_true] using h k hr hk
    · rfl

/-- What a repair lists once a source was removed from those its entry references. -/
theorem sourceIds_strip (h : d.stripFromRepairs b g src = .ok d') :
    (∀ ρ r, d.repairs.find? ρ = some r → ∃ r', d'.repairs.find? ρ = some r' ∧
      r'.sourceIds = d.remaining src.id ρ r) ∧
    ∀ ρ r', d'.repairs.find? ρ = some r' → ∃ r, d.repairs.find? ρ = some r ∧
      r'.sourceIds = d.remaining src.id ρ r := by
  obtain ⟨-, hs⟩ := stripFromRepairs_spec h
  have hboth : ∀ ρ r r', d.repairs.find? ρ = some r → d'.repairs.find? ρ = some r' →
      r'.sourceIds = d.remaining src.id ρ r := by
    intro ρ r r' hr hr'
    rw [remaining]
    by_cases href : d.References src.id ρ
    · obtain ⟨q, q', hq, hrm, hq'⟩ := (hs ρ).1 href
      rw [hr] at hq
      rw [hr'] at hq'
      cases hq
      cases hq'
      obtain ⟨-, r1, -, rfl⟩ := removeSourceFromRepair_ok_iff.mp hrm
      rw [if_pos (references_iff_any.mpr href)]
    · rw [(hs ρ).2 href, hr] at hr'
      cases hr'
      rw [if_neg (mt references_iff_any.mp href)]
  refine ⟨fun ρ r hr => ?_, fun ρ r' hr' => ?_⟩
  · by_cases href : d.References src.id ρ
    · obtain ⟨-, r', -, -, hr'⟩ := (hs ρ).1 href
      exact ⟨r', hr', hboth ρ r r' hr hr'⟩
    · exact ⟨r, ((hs ρ).2 href).trans hr, hboth ρ r r hr (((hs ρ).2 href).trans hr)⟩
  · by_cases href : d.References src.id ρ
    · obtain ⟨r, -, hr, -, -⟩ := (hs ρ).1 href
      exact ⟨r, hr, hboth ρ r r' hr hr'⟩
    · have hr := ((hs ρ).2 href).symm.trans hr'
      exact ⟨r', hr, hboth ρ r' r' hr hr'⟩

theorem remaining_congr (hm : d'.missingSources = d.missingSources) :
    d'.remaining x ρ r = d.remaining x ρ r := by
  rw [remaining, remaining, hm]

theorem size_remaining (d : Decoder w) : r.sourceIds.size ≤ (d.remaining x ρ r).size + 1 := by
  rw [remaining]
  split
  · exact r.sourceIds.size_le_erase x
  · exact Nat.le_succ _

/-- After a source is added every stored repair lists at least two sources, if and only if the
repairs left with one were each the only one to reference it. -/
theorem peeled_addSource_iff (hL : d.ListedStored) (hI : d.Peeled)
    (h : d.addSourceRecursive b g src = .ok d') : d'.Peeled ↔ d.peelsWithout src.id = true := by
  rw [addSourceRecursive_eq_peel hL] at h
  simp only [peel, bind_ok_iff] at h
  obtain ⟨d1, ho, d2, hs, d3, h3, h4⟩ := h
  have hdel := offer_delivers ho
  have hL2 := listedStored_strip (listedStored_delivers hdel hL) hs
  have hstored := decodeLeast_repairs hL2 h3
  have hrepairs : d'.repairs = d3.repairs := by rw [(store_spec h4).2]
  have hmissing : d2.missingSources = d.missingSources.erase src.id := by
    rw [(stripFromRepairs_spec hs).1, missing_delivers hdel]
  obtain ⟨hforth, hback⟩ := sourceIds_strip hs
  simp only [repairs_delivers hdel, remaining_congr (missing_delivers hdel)] at hforth hback
  rw [peelsWithout_iff, ← hmissing]
  constructor
  · intro hpeeled ρ r k hr hk
    obtain ⟨r', hr', hids⟩ := hforth ρ r hr
    have hone : r'.sourceIds.size = 1 := FlatSet.size_eq_one_iff.mpr ⟨k, hids ▸ hk⟩
    have hdecoded : ∃ c, d2.readyAt c = some (ρ, r') := by
      by_contra hno
      push Not at hno
      have := hpeeled ρ r' (hrepairs ▸ (hstored ρ r').mpr ⟨hr', hno⟩)
      omega
    obtain ⟨c, hc⟩ := hdecoded
    obtain ⟨q, hq, hmem⟩ := hL2 c ρ (references_of_readyAt hc)
    rw [hr'] at hq
    cases hq
    rw [FlatSet.mem_iff, hids, hk, List.mem_singleton] at hmem
    subst hmem
    exact (readyAt_eq_some.mp hc).1
  · intro hpeels ρ r' hr'
    rw [hrepairs] at hr'
    obtain ⟨hr2, hno⟩ := (hstored ρ r').mp hr'
    obtain ⟨r, hr, hids⟩ := hback ρ r' hr2
    have hsize := size_remaining (x := src.id) (ρ := ρ) (r := r) d
    have htwo := hI ρ r hr
    by_contra hle
    have hone : r'.sourceIds.size = 1 := by
      rw [hids] at hle ⊢
      omega
    obtain ⟨k, hk⟩ := FlatSet.size_eq_one_iff.mp hone
    exact hno k (readyAt_eq_some.mpr ⟨hpeels ρ r k hr (hids ▸ hk), hr2, hone⟩)

/-- A source no entry of the missing sources stands for changes no repair. -/
theorem peelsWithout_of_not_missing (hI : d.Peeled) (h : d.missingSources.contains x = false) :
    d.peelsWithout x = true := by
  rw [peelsWithout_iff]
  intro ρ r k hr hk
  have hno : d.remaining x ρ r = r.sourceIds := by
    rw [remaining, OrdMap.contains_eq_false_iff.mp h]
    rfl
  have htwo := hI ρ r hr
  rw [← hno, FlatSet.size, hk] at htwo
  exact absurd htwo (lt_irrefl 1)

theorem peeled_erase (hI : d.Peeled) (h : ∀ q r, d'.repairs.find? q = some r →
    d.repairs.find? q = some r) : d'.Peeled :=
  fun q r hr => hI q r (h q r hr)

theorem peeled_attemptFullDecoding (hI : d.Peeled) (h : d.attemptFullDecoding b g = .ok d') :
    d'.Peeled := by
  rcases attemptFullDecoding_cases h with
    ⟨rfl, -⟩ | ⟨-, _, _, m, -, -, ⟨k, -, hf⟩ | ⟨-, ha⟩⟩
  · exact hI
  · obtain ⟨ρ, r, -, heq, -⟩ := dropFaulty_spec hf
    refine peeled_erase hI fun q r hr => ?_
    rw [heq] at hr
    have hr' : (d.repairs.erase ρ).find? q = some r := hr
    rw [OrdMap.find?_erase] at hr'
    split at hr'
    · cases hr'
    · exact hr'
  · obtain ⟨c, f, o, s, m, rfl, -⟩ := decodeAll_decoding ha
    exact fun ρ r hr => by cases hr

theorem peeled_drops (hI : d.Peeled) (h : Drops first d d') : d'.Peeled :=
  peeled_erase hI fun ρ r hr => ((h.repairs ρ r).mp hr).1

/-- The repairs stored before an incoming one was linked still list two sources. -/
theorem peeled_others (hA : Accepted r first d d1 d2 r2) (hI : d.Peeled) (hρ : ρ ≠ r.id)
    {q : DecoderRepair} (hq : d2.repairs.find? ρ = some q) : 1 < q.sourceIds.size :=
  peeled_drops hI hA.drops ρ q ((hA.repairs ρ hρ).symm.trans hq)

/-- They do when the incoming one is erased for the source it encodes. -/
theorem peeled_removeDecoded (hA : Accepted r first d d1 d2 r2) (hI : d.Peeled) :
    (d2.removeDecoded k r.id).Peeled := by
  intro ρ q hq
  have hρ : ρ ≠ r.id := by
    rintro rfl
    rw [removeDecoded, OrdMap.find?_erase_self] at hq
    cases hq
  exact peeled_others hA hI hρ ((OrdMap.find?_erase_ne hρ).symm.trans hq)

/-- What receiving a source leaves of the repairs is decoded as far as it can be. -/
def peels (d : Decoder w) : Incoming → Bool
  | .source src => d.outdated src.id || d.sources.contains src.id || d.peelsWithout src.id
  | .repair _ => true

theorem peeled_receive (hL : d.ListedStored) (hI : d.Peeled) (hpeels : d.peels p = true)
    (h : d.receive b g p = .ok d') : d'.Peeled := by
  cases p with
  | source src =>
    rcases receiveSource_cases h with ⟨rfl, -⟩ | ⟨ho, hs, d1, h1, h2⟩
    · exact hI
    · rw [peels, ho, hs, Bool.false_or, Bool.false_or] at hpeels
      exact peeled_attemptFullDecoding ((peeled_addSource_iff hL hI h1).mpr hpeels) h2
  | repair r =>
    obtain ⟨-, ⟨rfl, -⟩ | ⟨hacc, ⟨d1, h1, -, rfl⟩ | ⟨d1, d2, r2, ha, h2⟩⟩⟩ :=
      receiveRepair_cases h
    · exact hI
    · obtain ⟨-, -, -, -, -, hdrops⟩ := dropOutdated_cases h1
      exact peeled_congr (d := d1) rfl (peeled_drops hI hdrops)
    · have hA := ha.accepted (contains_of_accepts hacc)
      rcases h2 with ⟨hone, src, hc, hadd⟩ | ⟨hmany, hfull⟩
      · -- The incoming repair is erased before the source it encodes is added.
        have hids := createSourceFromRepair_only hc hone
        have hrem := peeled_removeDecoded (k := src.id) hA hI
        exact (peeled_addSource_iff
          (listedStored_removeDecoded (hA.listedStored hL) hA.stored hids) hrem hadd).mpr
          (peelsWithout_of_not_missing hrem (not_missing_removeDecoded src.id r.id d2))
      · refine peeled_attemptFullDecoding (fun ρ q hq => ?_) hfull
        by_cases hρ : ρ = r.id
        · subst hρ
          rw [hA.stored] at hq
          cases hq
          obtain ⟨i, hi, hunknown⟩ := exists_unknown ha.useful
          have hpos := FlatSet.size_pos_iff.mpr ⟨i, (hA.ids i).mpr ⟨hi, hunknown⟩⟩
          omega
        · exact peeled_others hA hI hρ hq

theorem peeled_initial (inOrder : Bool) : (initial inOrder : Decoder w).Peeled :=
  fun ρ r hr => by cases hr

/-- It is not that a source was to be removed from a repair that encodes only one. -/
def NotOne (f : Fault) : Prop := f ≠ .assertion .encodesOnlyOne

theorem permits_notOne : Permits NotOne :=
  ⟨by simp [NotOne], fun a ha => by simpa [NotOne] using ha, fun _ _ => by simp [NotOne]⟩

/-- A nested call removes nothing from a repair. -/
theorem decodeLeast_fails (hL : d.ListedStored) (n : ℕ) :
    FailsOnly NotOne (d.decodeLeast b g (peel b g n)) := by
  induction n generalizing d with
  | zero =>
    rw [decodeLeast]
    split
    · exact failsOnly_ok d
    · exact failsOnly_bind (decodeMissing_fails permits_notOne _ _ _ d) fun _ _ =>
        failsOnly_bind (failsOnly_error (by simp [NotOne])) fun u hu => by cases hu
  | succ n ih =>
    rw [decodeLeast]
    cases hr : d.leastReady with
    | none => exact failsOnly_ok d
    | some p =>
      obtain ⟨k, ρ, r⟩ := p
      refine failsOnly_bind (decodeMissing_fails permits_notOne k ρ r d) fun q hd => ?_
      obtain ⟨y, d1⟩ := q
      have hk := (leastReady_eq_some hr).1
      obtain ⟨rfl, hids, hL1⟩ := listedStored_decodeMissing hL hk hd
      obtain rfl := (decodeMissing_spec hd).2
      refine failsOnly_bind ?_ fun d2 _ => failsOnly_bind ?_ fun _ _ => failsOnly_ok d2
      · refine failsOnly_bind (offer_fails permits_notOne y _) fun d3 ho => ?_
        have hdel := offer_delivers ho
        rw [stripFromRepairs_not_missing
          (by rw [missing_delivers hdel, not_missing_removeDecoded]), ok_bind]
        exact failsOnly_bind (ih (listedStored_delivers hdel hL1)) fun _ _ =>
          store_fails permits_notOne y _
      · rw [checkCursor]
        split
        · exact failsOnly_ok ()
        · exact failsOnly_error (by simp [NotOne])

theorem addSource_fails (hL : d.ListedStored) (hI : d.Peeled) (src : DecoderSource) :
    FailsOnly NotOne (d.addSourceRecursive b g src) := by
  rw [addSourceRecursive_eq_peel hL, peel]
  refine failsOnly_bind (offer_fails permits_notOne src d) fun d1 ho => ?_
  have hdel := offer_delivers ho
  have hI1 := peeled_congr (repairs_delivers hdel) hI
  refine failsOnly_bind (stripFromRepairs_fails permits_notOne fun ρ r _ hr =>
    Or.inl (hI1 ρ r hr)) fun d2 hs => ?_
  exact failsOnly_bind
    (decodeLeast_fails (listedStored_strip (listedStored_delivers hdel hL) hs) _) fun _ _ =>
      store_fails permits_notOne src _

/-- While the identifiers of an incoming repair are processed, it lists the unknown ones. -/
theorem linkLoop_fails (hr : d.repairs.find? r.id = some r) (hu : d.useless r = false) :
    FailsOnly NotOne (r.sourceIds.toList.reverse.foldlM (link b g r.id) d) := by
  refine failsOnly_foldlM_induction
    (fun l u => l.Nodup ∧ (∀ i ∈ l, i ∈ r.sourceIds) ∧ Linking r.id r d l u) ?_ ?_
    ⟨List.nodup_reverse.mpr r.sourceIds.nodup, fun i hi => List.mem_reverse.mp hi,
      linking_start hr⟩
  · rintro a l u ⟨-, hsub, hlink⟩
    refine link_fails permits_notOne fun hknown q hq => Or.inl ?_
    have hsrc : u.sources = d.sources := by rw [hlink.frame]
    rw [hsrc] at hknown
    exact hlink.several (hsub a List.mem_cons_self) hknown hu hq
  · rintro a l u v ⟨hnd, hsub, hlink⟩ hv
    rw [List.nodup_cons] at hnd
    exact ⟨hnd.2, fun i hi => hsub i (List.mem_cons_of_mem a hi),
      linking_link (hsub a List.mem_cons_self) hnd.1 hlink hv⟩

theorem addRepair_fails (hL : d.ListedStored) (hI : d.Peeled) (hacc : d.accepts r = true)
    (h1 : d.dropOutdated b (firstId r) = .ok d1) (hu : d1.useless r = false) :
    FailsOnly NotOne (d1.addRepair b g r) := by
  refine failsOnly_bind (Build.assert_fails (Or.inr (by simp [NotOne]))) fun _ _ => ?_
  refine failsOnly_bind (linkLoop_fails OrdMap.find?_insert_self hu) fun d2 hlink => ?_
  rw [useRepair]
  cases hr2 : d2.repairs.find? r.id with
  | none => exact failsOnly_error (by simp [NotOne])
  | some r2 =>
    have hA := Accepts.accepted ⟨h1, hu, hlink, hr2⟩ (contains_of_accepts hacc)
    refine failsOnly_bind (Build.assert_fails (Or.inr (by simp [NotOne]))) fun _ _ => ?_
    split
    · next hone =>
      refine failsOnly_bind (createSourceFromRepair_fails permits_notOne r2) fun src hc => ?_
      exact addSource_fails (listedStored_removeDecoded (hA.listedStored hL) hA.stored
        (createSourceFromRepair_only hc hone)) (peeled_removeDecoded hA hI) src
    · exact attemptFullDecoding_fails permits_notOne d2

/-- While every stored repair lists at least two sources, no call removes a source from a repair
that encodes only one. -/
theorem receive_fails (hL : d.ListedStored) (hI : d.Peeled) (p : Incoming) :
    FailsOnly NotOne (d.receive b g p) := by
  cases p with
  | source src =>
    rw [receive, receiveSource]
    split
    · exact failsOnly_ok d
    · split
      · exact failsOnly_ok d
      · exact failsOnly_bind (addSource_fails hL hI src) fun d1 _ =>
          attemptFullDecoding_fails permits_notOne d1
  | repair r =>
    rw [receive, receiveRepair]
    refine failsOnly_bind (Build.assert_fails (Or.inr (by simp [NotOne]))) fun _ _ => ?_
    cases hl : r.sourceIds.toList with
    | nil => exact failsOnly_error (by simp [NotOne])
    | cons first rest =>
      have hfirst : firstId r = first := by rw [firstId, hl, List.headD_cons]
      have hlast : r.sourceIds.toList.getLastD 0 =
          (first :: rest).getLast (List.cons_ne_nil _ _) := by
        rw [hl, List.getLastD_cons, List.getLast_eq_getLastD]
      dsimp only
      split
      · exact failsOnly_ok d
      · next ho =>
        split
        · exact failsOnly_ok d
        · next hc =>
          have hacc : d.accepts r = true := by
            rw [accepts, hlast]
            simp [ho, hc]
          refine failsOnly_bind (dropOutdated_fails permits_notOne first d) fun d1 h1 => ?_
          split
          · exact failsOnly_ok _
          · next hu =>
            exact addRepair_fails hL hI hacc (hfirst ▸ h1) (by simpa using hu)

/-- In every run whose sources leave no repair with one source that another repair references, every
stored repair lists at least two sources, and no call removes a source from a repair that encodes
only one; adding a source keeps this if and only if it leaves no such repair. -/
theorem peeled_run {inOrder : Bool}
    (h : Run (receive b g) (fun d p => d.peels p = true) (initial inOrder) ps d) : d.Peeled ∧
    (∀ src d1, d.addSourceRecursive b g src = .ok d1 →
      (d1.Peeled ↔ d.peelsWithout src.id = true)) ∧
    ∀ b' p, d.receive b' g p ≠ .error (.assertion .encodesOnlyOne) := by
  have hL := listedStored_reachable h
  have hI : d.Peeled := by
    refine (h.invariant (fun d => d.ListedStored ∧ d.Peeled) ?_
      ⟨listedStored_initial inOrder, peeled_initial inOrder⟩).2
    rintro s p t ⟨hL, hI⟩ hpeels hs
    exact ⟨listedStored_receive hL hs, peeled_receive hL hI hpeels hs⟩
  exact ⟨hI, fun src d1 h1 => peeled_addSource_iff hL hI h1, fun b' p he =>
    receive_fails hL hI p _ he rfl⟩

theorem peeled_run_nestedCalls : ∃ d,
    runWhile (receive .release gf16) (fun d p => d.peels p = true) (initial false)
      (arrivals .release (packets .release gf16 nestedCalls) [5, 2, 3]) = some d ∧
    d.repairs.size = 2 ∧ d.Peeled := by
  have hrun : (runWhile (receive .release gf16) (fun d p => d.peels p = true) (initial false)
      (arrivals .release (packets .release gf16 nestedCalls) [5, 2, 3])).any
        (fun d => decide (d.repairs.size = 2)) = true := by
    decide +kernel
  obtain ⟨d, hd, hn⟩ := (Option.any_eq_true _ _).mp hrun
  exact ⟨d, hd, by simpa using hn, (peeled_run (run_of_runWhile hd)).1⟩

/-- Source 0 leaves the first repair with source 1, which the second one references too; source 1
then leaves it with none, after a failed assertion in a debug build. -/
theorem nestedCalls_not_peeled :
    (∃ d r, deliver .release gf16 false nestedCalls [2, 5, 0] = .ok d ∧
      d.repairs.find? 0 = some r ∧ r.sourceIds.toList = [1] ∧ ¬ d.Peeled) ∧
    (∃ d r, deliver .release gf16 false nestedCalls [2, 5, 0, 1] = .ok d ∧
      d.repairs.find? 0 = some r ∧ r.sourceIds.toList = []) ∧
    deliver .debug gf16 false nestedCalls [2, 5, 0, 1] = .error (.assertion .encodesOnlyOne) := by
  have hleft : ∀ order l, (deliver .release gf16 false nestedCalls order).toOption.any
      (fun d => (d.repairs.find? 0).any fun r => decide (r.sourceIds.toList = l)) = true →
      ∃ d r, deliver .release gf16 false nestedCalls order = .ok d ∧
        d.repairs.find? 0 = some r ∧ r.sourceIds.toList = l := by
    intro order l hrun
    obtain ⟨d, hd, hr⟩ := exists_ok_of_any hrun
    obtain ⟨r, hr, hids⟩ := (Option.any_eq_true _ _).mp hr
    exact ⟨d, r, hd, hr, by simpa using hids⟩
  obtain ⟨d, r, hd, hr, hids⟩ := hleft [2, 5, 0] [1] (by decide +kernel)
  refine ⟨⟨d, r, hd, hr, hids, fun hI => ?_⟩, hleft [2, 5, 0, 1] [] (by decide +kernel),
    by decide +kernel⟩
  have htwo := hI 0 r hr
  rw [FlatSet.size, hids] at htwo
  exact lt_irrefl 1 htwo

end Netcode.Detail.Decoder
