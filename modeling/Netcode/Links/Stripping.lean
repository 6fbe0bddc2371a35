import Netcode.Delivery

/-! What adding a source makes of the links between stored repairs and missing sources. -/
namespace Netcode.Detail.Decoder

open Containers Runs

variable {w : FieldSize} {b : Build} {g : GfComplete w} {d d' : Decoder w} {src : DecoderSource}
  {r r' : DecoderRepair} {i k id ρ : ℕ}

/-- Missing source `i` is referenced by repair `ρ`. -/
def References (d : Decoder w) (i ρ : ℕ) : Prop :=
  ∃ cits, d.missingSources.find? i = some cits ∧ ρ ∈ cits

/-- A stored repair lists an identifier. -/
def Lists (d : Decoder w) (ρ i : ℕ) : Prop :=
  ∃ r, d.repairs.find? ρ = some r ∧ i ∈ r.sourceIds

/-- Every repair listed under a missing source is stored and lists this source. -/
def ListedStored (d : Decoder w) : Prop := ∀ i ρ, d.References i ρ → d.Lists ρ i

theorem references_contains (h : d.References i ρ) : d.missingSources.contains i = true := by
  obtain ⟨cits, hc, -⟩ := h
  exact OrdMap.contains_of_find? hc

theorem removeSourceDataFromRepair_eq (h : removeSourceDataFromRepair b g src r = .ok r') :
    r' = { r with encodedSize := r'.encodedSize, symbol := r'.symbol } := by
  simp only [removeSourceDataFromRepair, bind_ok_iff, Except.ok.injEq] at h
  obtain ⟨-, -, -, -, -, -, s, -, rfl⟩ := h
  rfl

theorem removeSourceFromRepair_ok_iff : removeSourceFromRepair b g src r = .ok r' ↔
    src.id ∈ r.sourceIds ∧ ∃ r1, removeSourceDataFromRepair b g src r = .ok r1 ∧
      r' = { r1 with sourceIds := r.sourceIds.erase src.id } := by
  simp only [removeSourceFromRepair, bind_ok_iff, Build.assert_ok_iff, decide_eq_true_eq]
  constructor
  · rintro ⟨r1, h1, -, -, h⟩
    have hids : r1.sourceIds = r.sourceIds := by rw [removeSourceDataFromRepair_eq h1]
    rw [hids] at h
    split at h
    · next hmem =>
      cases h
      exact ⟨hmem, r1, h1, rfl⟩
    · cases h
  · rintro ⟨hmem, r1, h1, rfl⟩
    have hids : r1.sourceIds = r.sourceIds := by rw [removeSourceDataFromRepair_eq h1]
    exact ⟨r1, h1, (), fun _ => hids ▸ hmem, by rw [hids, if_pos hmem]⟩

theorem stripRepair_ok_iff : stripRepair b g src d ρ = .ok d' ↔
    ∃ r r', d.repairs.find? ρ = some r ∧ removeSourceFromRepair b g src r = .ok r' ∧
      d' = { d with repairs := d.repairs.insert ρ r' } := by
  rw [stripRepair]
  cases d.repairs.find? ρ with
  | none => simp
  | some r =>
    simp only [bind_ok_iff, Except.ok.injEq, Option.some.injEq, exists_and_left, exists_eq_left']
    exact exists_congr fun r' => and_congr_right fun _ => eq_comm

/-- The repairs after a source was removed from all repairs its entry references. -/
def Stripped (b : Build) (g : GfComplete w) (src : DecoderSource) (d : Decoder w)
    (repairs : OrdMap ℕ DecoderRepair) : Prop :=
  ∀ ρ, (d.References src.id ρ → ∃ r r', d.repairs.find? ρ = some r ∧
      removeSourceFromRepair b g src r = .ok r' ∧ repairs.find? ρ = some r') ∧
    (¬ d.References src.id ρ → repairs.find? ρ = d.repairs.find? ρ)

theorem stripLoop_spec {cits : FlatSet ℕ} (h : cits.toList.foldlM (stripRepair b g src) d = .ok d') :
    d' = { d with repairs := d'.repairs } ∧ ∀ ρ,
      (ρ ∈ cits → ∃ r r', d.repairs.find? ρ = some r ∧
        removeSourceFromRepair b g src r = .ok r' ∧ d'.repairs.find? ρ = some r') ∧
      (ρ ∉ cits → d'.repairs.find? ρ = d.repairs.find? ρ) := by
  have hrun := foldlM_induction (f := stripRepair b g src)
    (fun l u => l.Nodup ∧ (∀ ρ ∈ l, ρ ∈ cits) ∧ u = { d with repairs := u.repairs } ∧ ∀ ρ,
      (ρ ∈ cits → ρ ∉ l → ∃ r r', d.repairs.find? ρ = some r ∧
        removeSourceFromRepair b g src r = .ok r' ∧ u.repairs.find? ρ = some r') ∧
      (ρ ∈ l ∨ ρ ∉ cits → u.repairs.find? ρ = d.repairs.find? ρ)) ?_ ?_ h
  · obtain ⟨-, -, hd', hρ⟩ := hrun
    exact ⟨hd', fun ρ => ⟨fun hc => (hρ ρ).1 hc List.not_mem_nil, fun hc => (hρ ρ).2 (Or.inr hc)⟩⟩
  · rintro a l u v ⟨hnd, hsub, hu, hρ⟩ hv
    rw [List.nodup_cons] at hnd
    obtain ⟨r, r', hr, hr', rfl⟩ := stripRepair_ok_iff.mp hv
    have hra := (hρ a).2 (Or.inl List.mem_cons_self)
    refine ⟨hnd.2, fun ρ hl => hsub ρ (List.mem_cons_of_mem a hl), by rw [hu],
      fun ρ => ⟨fun hc hl => ?_, fun hor => ?_⟩⟩
    · by_cases hρa : ρ = a
      · subst hρa
        exact ⟨r, r', hra ▸ hr, hr', OrdMap.find?_insert_self⟩
      · obtain ⟨q, q', hq, hq', hfind⟩ := (hρ ρ).1 hc (by simp [hρa, hl])
        exact ⟨q, q', hq, hq', (OrdMap.find?_insert_ne hρa).trans hfind⟩
    · have hρa : ρ ≠ a := by
        rintro rfl
        exact hor.elim hnd.1 fun hc => hc (hsub ρ List.mem_cons_self)
      exact (OrdMap.find?_insert_ne hρa).trans
        ((hρ ρ).2 (hor.imp (List.mem_cons_of_mem a) id))
  · exact ⟨cits.nodup, fun _ h => h, rfl, fun ρ => ⟨fun hc hl => absurd hc hl, fun _ => rfl⟩⟩

/-- The repairs that reference the source lose it, and it's no longer a missing source. -/
theorem stripFromRepairs_spec (h : d.stripFromRepairs b g src = .ok d') :
    d' = { d with
      repairs := d'.repairs, missingSources := d.missingSources.erase src.id } ∧
    Stripped b g src d d'.repairs := by
  rw [stripFromRepairs] at h
  cases hm : d.missingSources.find? src.id with
  | none =>
    rw [hm] at h
    cases h
    have herase : d.missingSources.erase src.id = d.missingSources := OrdMap.erase_of_find?_none hm
    refine ⟨by rw [herase], fun ρ => ⟨?_, fun _ => rfl⟩⟩
    rintro ⟨cits, hc, -⟩
    rw [hm] at hc
    cases hc
  | some cits =>
    simp only [hm, bind_ok_iff, Except.ok.injEq] at h
    obtain ⟨d1, h1, rfl⟩ := h
    obtain ⟨heq, hρ⟩ := stripLoop_spec h1
    have href : ∀ ρ, d.References src.id ρ ↔ ρ ∈ cits := fun ρ =>
      ⟨fun ⟨cits', hc', hmem⟩ => by
        rw [hm] at hc'
        cases hc'
        exact hmem, fun hmem => ⟨cits, hm, hmem⟩⟩
    refine ⟨by rw [heq], fun ρ => ⟨fun hr => (hρ ρ).1 ((href ρ).mp hr),
      fun hr => (hρ ρ).2 (mt (href ρ).mpr hr)⟩⟩

theorem stripped_lists {repairs : OrdMap ℕ DecoderRepair} (h : Stripped b g src d repairs)
    (hf : repairs.find? ρ = some r') : ∃ r, d.repairs.find? ρ = some r ∧
      ∀ i, i ∈ r'.sourceIds ↔ i ∈ r.sourceIds ∧ ¬ (i = src.id ∧ d.References src.id ρ) := by
  by_cases href : d.References src.id ρ
  · obtain ⟨r, r2, hr, hrm, hf2⟩ := (h ρ).1 href
    rw [hf] at hf2
    cases hf2
    obtain ⟨-, r1, h1, rfl⟩ := removeSourceFromRepair_ok_iff.mp hrm
    refine ⟨r, hr, fun i => ?_⟩
    simp [href]
  · rw [(h ρ).2 href] at hf
    exact ⟨r', hf, fun i => by simp [href]⟩

theorem createSourceFromRepair_id (h : createSourceFromRepair b g r = .ok src) :
    ∃ l, r.sourceIds.toList = src.id :: l := by
  simp only [createSourceFromRepair, bind_ok_iff] at h
  obtain ⟨-, -, h⟩ := h
  cases hl : r.sourceIds.toList with
  | nil => simp [hl] at h
  | cons id l =>
    simp only [hl, bind_ok_iff, Except.ok.injEq] at h
    obtain ⟨inv, -, -, -, s, -, rfl⟩ := h
    exact ⟨l, rfl⟩

theorem createSourceFromRepair_only (h : createSourceFromRepair b g r = .ok src)
    (hone : r.sourceIds.size = 1) : r.sourceIds.toList = [src.id] := by
  obtain ⟨l, hl⟩ := createSourceFromRepair_id h
  rw [FlatSet.size, hl, List.length_cons] at hone
  obtain rfl : l = [] := List.length_eq_zero_iff.mp (by omega)
  exact hl

theorem decodeMissing_spec (h : decodeMissing b g k ρ r d = .ok (src, d')) :
    createSourceFromRepair b g r = .ok src ∧ d' = d.removeDecoded k ρ := by
  rw [decodeMissing] at h
  cases hl : r.sourceIds.toList with
  | nil => simp [hl] at h
  | cons id l =>
    simp only [hl, bind_ok_iff, Except.ok.injEq, Prod.mk.injEq] at h
    obtain ⟨-, -, -, -, y, hy, rfl, rfl⟩ := h
    exact ⟨hy, rfl⟩

theorem store_spec (h : d.store b src = .ok d') :
    (b.asserts = true → d.sources.contains src.id = false) ∧
    d' = { d with
      sources := if d.sources.contains src.id then d.sources else d.sources.insert src.id src
      orderedSources := if d.inOrder = true ∧ d.firstMissingSourceInOrder < src.id
        then d.orderedSources.insert src.id else d.orderedSources } := by
  simp only [store, bind_ok_iff, Build.assert_ok_iff, Bool.not_eq_true'] at h
  obtain ⟨-, ha, h⟩ := h
  refine ⟨ha, ?_⟩
  by_cases hc : d.sources.contains src.id = true
  · rw [if_pos hc] at h ⊢
    split at h
    · next hio =>
      cases h
      rw [if_pos hio]
    · next hio =>
      cases h
      rw [if_neg hio]
  · rw [if_neg hc] at h ⊢
    split at h
    · next hio =>
      cases h
      rw [if_pos hio]
    · next hio =>
      cases h
      rw [if_neg hio]

theorem contains_store (h : d.store b src = .ok d') (i : ℕ) :
    d'.sources.contains i = true ↔ i = src.id ∨ d.sources.contains i = true := by
  rw [(store_spec h).2]
  dsimp only
  split
  · next hc =>
    refine ⟨Or.inr, ?_⟩
    rintro (rfl | h)
    exacts [hc, h]
  · simp [OrdMap.contains_insert]

theorem waiting_store (h : d.store b src = .ok d') (hio : d.inOrder = true) (i : ℕ) :
    i ∈ d'.orderedSources ↔ i ∈ d.orderedSources ∨
      i = src.id ∧ d.firstMissingSourceInOrder < src.id := by
  rw [(store_spec h).2]
  by_cases hlt : d.firstMissingSourceInOrder < src.id <;> simp [hio, hlt, or_comm]

theorem listedStored_congr (hr : d'.repairs = d.repairs) (hm : d'.missingSources = d.missingSources)
    (h : d.ListedStored) : d'.ListedStored := by
  intro i ρ href
  rw [References, hm] at href
  rw [Lists, hr]
  exact h i ρ href

theorem listedStored_delivers (hd : d.Delivers d') (h : d.ListedStored) : d'.ListedStored := by
  obtain ⟨c, f, o, rfl⟩ := hd
  exact listedStored_congr rfl rfl h

theorem references_erase {m : OrdMap ℕ (FlatSet ℕ)} (hm : d'.missingSources = m.erase k)
    (hd : d.missingSources = m) : d'.References i ρ ↔ i ≠ k ∧ d.References i ρ := by
  rw [References, References, hm, hd]
  by_cases hik : i = k
  · simp [hik]
  · simp [OrdMap.find?_erase_ne hik, hik]

theorem listedStored_strip (hL : d.ListedStored) (h : d.stripFromRepairs b g src = .ok d') :
    d'.ListedStored := by
  obtain ⟨heq, hs⟩ := stripFromRepairs_spec h
  intro i ρ href
  rw [references_erase (d := d) (congrArg missingSources heq) rfl] at href
  obtain ⟨hne, href⟩ := href
  obtain ⟨r, hr, hi⟩ := hL i ρ href
  by_cases hsrc : d.References src.id ρ
  · obtain ⟨q, q', hq, hrm, hf⟩ := (hs ρ).1 hsrc
    obtain ⟨r0, hr0, hiff⟩ := stripped_lists hs hf
    rw [hr] at hr0
    cases hr0
    exact ⟨q', hf, (hiff i).mpr ⟨hi, fun hc => hne hc.1⟩⟩
  · exact ⟨r, ((hs ρ).2 hsrc).trans hr, hi⟩

/-- The repair of a source decoded from it alone is listed under no other missing source. -/
theorem listedStored_removeDecoded (hL : d.ListedStored) (hr : d.repairs.find? ρ = some r)
    (hl : r.sourceIds.toList = [k]) : (d.removeDecoded k ρ).ListedStored := by
  intro i ρ' href
  rw [references_erase (d := d) rfl rfl] at href
  obtain ⟨hne, href⟩ := href
  obtain ⟨r', hr', hi⟩ := hL i ρ' href
  have hρ : ρ' ≠ ρ := by
    rintro rfl
    rw [hr] at hr'
    cases hr'
    rw [FlatSet.mem_iff, hl, List.mem_singleton] at hi
    exact hne hi
  exact ⟨r', (OrdMap.find?_erase_ne hρ).trans hr', hi⟩

theorem listedStored_store (hL : d.ListedStored) (h : d.store b src = .ok d') :
    d'.ListedStored := by
  rw [(store_spec h).2]
  exact listedStored_congr rfl rfl hL

theorem contains_of_references {m : OrdMap ℕ (FlatSet ℕ)} {cits : FlatSet ℕ}
    (h : m.find? i = some cits) (v : FlatSet ℕ) (k : ℕ) :
    (m.insert i v).contains k = m.contains k := by
  rw [OrdMap.contains_insert]
  by_cases hk : k = i
  · simp [hk, OrdMap.contains_of_find? h]
  · simp [hk]

end Netcode.Detail.Decoder
