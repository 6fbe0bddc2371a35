import Netcode.Links.Dropping

/-! What storing a repair and dropping a faulty one make of the links. -/
namespace Netcode.Detail.Decoder

open Containers Runs

variable {w : FieldSize} {b : Build} {g : GfComplete w} {d d' : Decoder w} {src : DecoderSource}
  {r r' : DecoderRepair} {i k id ρ : ℕ}

theorem link_known {src : DecoderSource} (hs : d.sources.find? id = some src) :
    link b g ρ d id = .ok d' ↔ ∃ r r', d.repairs.find? ρ = some r ∧
      removeSourceDataFromRepair b g src r = .ok r' ∧
      d' = { d with
        repairs := d.repairs.insert ρ { r' with sourceIds := r.sourceIds.erase id } } := by
  rw [link, hs]
  cases d.repairs.find? ρ with
  | none => simp
  | some r =>
    simp only [bind_ok_iff, Except.ok.injEq, Option.some.injEq, exists_and_left, exists_eq_left']
    constructor
    · rintro ⟨r', hr', rfl⟩
      refine ⟨r', hr', ?_⟩
      rw [show r'.sourceIds = r.sourceIds by rw [removeSourceDataFromRepair_eq hr']]
    · rintro ⟨r', hr', rfl⟩
      refine ⟨r', hr', ?_⟩
      rw [show r'.sourceIds = r.sourceIds by rw [removeSourceDataFromRepair_eq hr']]

theorem link_unknown (hs : d.sources.find? id = none) : link b g ρ d id = .ok d' ↔ d' = { d with
    missingSources :=
      d.missingSources.insert id (((d.missingSources.find? id).getD FlatSet.empty).insert ρ) } := by
  simp [link, hs, eq_comm]

theorem references_insert {m : OrdMap ℕ (FlatSet ℕ)} {ρ' : ℕ} (hd : d.missingSources = m)
    (hm : d'.missingSources =
      m.insert id (((m.find? id).getD FlatSet.empty).insert ρ)) :
    d'.References i ρ' ↔ d.References i ρ' ∨ ρ' = ρ ∧ i = id := by
  subst hd
  rw [References, References, hm, OrdMap.find?_insert]
  by_cases hi : i = id
  · subst hi
    simp only [if_true, Option.some.injEq, exists_eq_left', FlatSet.mem_insert, and_true]
    cases d.missingSources.find? i <;> simp [or_comm]
  · simp [hi]

/-- The state of an incoming repair when the identifiers of a list are still to be processed. -/
structure Linking (ρ : ℕ) (r : DecoderRepair) (d : Decoder w) (l : List ℕ) (u : Decoder w) :
    Prop where
  frame : u = { d with repairs := u.repairs, missingSources := u.missingSources }
  repair : ∃ r', u.repairs.find? ρ = some r' ∧
    ∀ i, i ∈ r'.sourceIds ↔ i ∈ r.sourceIds ∧ (i ∈ l ∨ d.sources.contains i = false)
  repairs : ∀ ρ' ≠ ρ, u.repairs.find? ρ' = d.repairs.find? ρ'
  missing : ∀ i, u.missingSources.contains i = true ↔ d.missingSources.contains i = true ∨
    i ∈ r.sourceIds ∧ i ∉ l ∧ d.sources.contains i = false
  references : ∀ i ρ', u.References i ρ' ↔ d.References i ρ' ∨
    ρ' = ρ ∧ i ∈ r.sourceIds ∧ i ∉ l ∧ d.sources.contains i = false

theorem linking_link {u v : Decoder w} {a : ℕ} {l : List ℕ} (ha : a ∈ r.sourceIds) (hal : a ∉ l)
    (hu : Linking ρ r d (a :: l) u) (hv : link b g ρ u a = .ok v) : Linking ρ r d l v := by
  have hsrc : u.sources = d.sources := by rw [hu.frame]
  cases hs : u.sources.find? a with
  | some src =>
    have hknown : d.sources.contains a = true := hsrc ▸ OrdMap.contains_of_find? hs
    obtain ⟨q, q', hq, -, rfl⟩ := (link_known hs).mp hv
    obtain ⟨r', hr', hids⟩ := hu.repair
    rw [hq] at hr'
    cases hr'
    refine ⟨by rw [hu.frame], ⟨_, OrdMap.find?_insert_self, fun i => ?_⟩,
      fun ρ' hρ' => (OrdMap.find?_insert_ne hρ').trans (hu.repairs ρ' hρ'), fun i => ?_,
      fun i ρ' => ?_⟩
    · by_cases hia : i = a
      · subst hia
        simp [hal, hknown]
      · simp [hids, hia]
    · refine (hu.missing i).trans (or_congr_right (and_congr_right fun _ => ?_))
      by_cases hia : i = a
      · subst hia
        simp [hknown]
      · simp [hia]
    · refine (hu.references i ρ').trans (or_congr_right (and_congr_right fun _ =>
        and_congr_right fun _ => ?_))
      by_cases hia : i = a
      · subst hia
        simp [hknown]
      · simp [hia]
  | none =>
    have hunknown : d.sources.contains a = false := hsrc ▸ OrdMap.contains_eq_false_iff.mpr hs
    rw [link_unknown hs] at hv
    have href : ∀ i ρ', v.References i ρ' ↔ u.References i ρ' ∨ ρ' = ρ ∧ i = a := fun i ρ' =>
      references_insert rfl (by rw [hv])
    refine ⟨by rw [hv, hu.frame], ?_, fun ρ' hρ' => by rw [hv]; exact hu.repairs ρ' hρ', fun i => ?_,
      fun i ρ' => ?_⟩
    · obtain ⟨r', hr', hids⟩ := hu.repair
      refine ⟨r', by rw [hv]; exact hr', fun i => (hids i).trans (and_congr_right fun _ => ?_)⟩
      by_cases hia : i = a
      · subst hia
        simp [hunknown]
      · simp [hia]
    · have hins : v.missingSources.contains i = true ↔
          i = a ∨ u.missingSources.contains i = true := by
        rw [hv]
        simp [OrdMap.contains_insert]
      rw [hins, hu.missing]
      by_cases hia : i = a
      · subst hia
        simp [ha, hal, hunknown]
      · simp [hia]
    · rw [href, hu.references]
      by_cases hia : i = a
      · subst hia
        simp only [ha, hal, hunknown, List.mem_cons, not_true_eq_false, not_false_eq_true,
          and_true, and_false, or_false]
      · simp [hia]

theorem linking_start (hr : d.repairs.find? ρ = some r) :
    Linking ρ r d r.sourceIds.toList.reverse d := by
  refine ⟨rfl, ⟨r, hr, fun i => ?_⟩, fun _ _ => rfl, fun i => ?_, fun i ρ' => ?_⟩
  · simp only [List.mem_reverse, FlatSet.mem_iff]
    tauto
  · simp only [List.mem_reverse, FlatSet.mem_iff]
    tauto
  · simp only [List.mem_reverse, FlatSet.mem_iff]
    tauto

/-- The incoming repair keeps the identifiers of unknown sources, and is linked to them. -/
theorem linkLoop_spec (hr : d.repairs.find? ρ = some r)
    (h : r.sourceIds.toList.reverse.foldlM (link b g ρ) d = .ok d') : Linking ρ r d [] d' := by
  refine (foldlM_induction (f := link b g ρ) (fun l u => l.Nodup ∧ (∀ i ∈ l, i ∈ r.sourceIds) ∧
    Linking ρ r d l u) ?_ ?_ h).2.2
  · rintro a l u v ⟨hnd, hsub, hu⟩ hv
    rw [List.nodup_cons] at hnd
    exact ⟨hnd.2, fun i hi => hsub i (List.mem_cons_of_mem a hi),
      linking_link (hsub a List.mem_cons_self) hnd.1 hu hv⟩
  · exact ⟨List.nodup_reverse.mpr r.sourceIds.nodup, fun i hi => List.mem_reverse.mp hi,
      linking_start hr⟩

theorem dropFaulty_entry (h : d.dropFaulty k = .ok d') :
    ∃ e, d.repairs.entries[k]? = some e ∧ d'.repairs = d.repairs.erase e.1 := by
  rw [dropFaulty] at h
  cases he : d.repairs.entries[k]? with
  | none => simp [he] at h
  | some e =>
    rw [he] at h
    cases h
    exact ⟨e, rfl, rfl⟩

theorem dropFaulty_spec (h : d.dropFaulty k = .ok d') : ∃ ρ r, d.repairs.find? ρ = some r ∧
    d' = { d with
      nbFailedFullDecodings := d'.nbFailedFullDecodings
      missingSources := d'.missingSources
      repairs := d.repairs.erase ρ } ∧
    (∀ i, d'.missingSources.contains i = true ↔
      d.missingSources.contains i = true ∨ i ∈ r.sourceIds) ∧
    ∀ i ρ', d'.References i ρ' ↔ d.References i ρ' ∧ ¬ (ρ' = ρ ∧ i ∈ r.sourceIds) := by
  rw [dropFaulty] at h
  cases he : d.repairs.entries[k]? with
  | none => simp [he] at h
  | some p =>
    obtain ⟨ρ, r⟩ := p
    simp only [he, Except.ok.injEq] at h
    have hr : d.repairs.find? ρ = some r := OrdMap.mem_entries_iff.mp (List.mem_of_getElem? he)
    have hfold := fun i => OrdMap.find?_updateEach (j := i) (f := fun s => FlatSet.erase s ρ)
      (e := FlatSet.empty) (fun s => s.erase_erase ρ) r.sourceIds.toList d.missingSources
    refine ⟨ρ, r, hr, by rw [← h], fun i => ?_, fun i ρ' => ?_⟩
    · rw [← h]
      simp only [OrdMap.contains, hfold, ← FlatSet.mem_iff]
      by_cases hi : i ∈ r.sourceIds <;> simp [hi]
    · rw [← h]
      simp only [References, hfold, ← FlatSet.mem_iff]
      by_cases hi : i ∈ r.sourceIds
      · cases d.missingSources.find? i <;> simp [hi]
      · simp [hi]

end Netcode.Detail.Decoder
