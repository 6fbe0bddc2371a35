import Netcode.Links.Stripping

/-! What dropping the outdated repairs and sources makes of the links. -/
namespace Netcode.Detail.Decoder

open Containers Runs

variable {w : FieldSize} {b : Build} {d d' : Decoder w} {r : DecoderRepair} {i id ρ : ℕ}

/-- Repair `ρ` is no longer referenced by the missing sources of a list. -/
theorem unlinkLoop_spec {l : List ℕ} (h : l.foldlM (unlink ρ) d = .ok d') :
    d' = { d with missingSources := d'.missingSources } ∧
    (∀ i, d'.missingSources.contains i = d.missingSources.contains i) ∧
    ∀ i ρ', d'.References i ρ' ↔ d.References i ρ' ∧ ¬ (ρ' = ρ ∧ i ∈ l) := by
  induction l generalizing d with
  | nil =>
    cases h
    exact ⟨rfl, fun _ => rfl, fun i ρ' => by simp⟩
  | cons a l ih =>
    rw [List.foldlM_cons] at h
    obtain ⟨d1, h1, h2⟩ := bind_ok_iff.mp h
    obtain ⟨heq, hc, href⟩ := ih h2
    rw [unlink] at h1
    cases hm : d.missingSources.find? a with
    | none => simp [hm] at h1
    | some cits =>
      rw [hm] at h1
      cases h1
      refine ⟨heq, fun i => (hc i).trans (contains_of_references hm _ i), fun i ρ' => ?_⟩
      rw [href, References, References, OrdMap.find?_insert]
      by_cases hia : i = a
      · subst hia
        simp only [if_true, hm, Option.some.injEq, exists_eq_left', FlatSet.mem_erase,
          List.mem_cons, true_or, and_true]
        tauto
      · simp [hia]

/-- A repair encodes a source with an identifier strictly less than `id`. -/
def Old (id : ℕ) (r : DecoderRepair) : Prop := ∃ i ∈ r.sourceIds, i < id

instance (id : ℕ) (r : DecoderRepair) : Decidable (Old id r) :=
  inferInstanceAs (Decidable (∃ i ∈ r.sourceIds.toList, i < id))

theorem old_iff_first_lt {first : ℕ} {l : List ℕ} (h : r.sourceIds.toList = first :: l) :
    Old id r ↔ first < id := by
  constructor
  · rintro ⟨i, hi, hlt⟩
    exact lt_of_le_of_lt (FlatSet.head_le h hi) hlt
  · intro hlt
    exact ⟨first, by simp [FlatSet.mem_iff, h], hlt⟩

theorem dropRepair_spec (h : dropRepair b id d (ρ, r) = .ok d') :
    r.sourceIds.toList ≠ [] ∧
    d' = { d with repairs := d'.repairs, missingSources := d'.missingSources } ∧
    (∀ i, d'.missingSources.contains i = d.missingSources.contains i) ∧
    (Old id r → d'.repairs = d.repairs.erase ρ ∧
      ∀ i ρ', d'.References i ρ' ↔ d.References i ρ' ∧ ¬ (ρ' = ρ ∧ i ∈ r.sourceIds)) ∧
    (¬ Old id r → d' = d) := by
  simp only [dropRepair, bind_ok_iff] at h
  obtain ⟨-, -, h⟩ := h
  cases hl : r.sourceIds.toList with
  | nil => simp [hl] at h
  | cons first l =>
    simp only [hl] at h
    have hold : Old id r ↔ first < id := old_iff_first_lt hl
    refine ⟨List.cons_ne_nil _ _, ?_⟩
    split at h
    · next hlt =>
      obtain ⟨d1, h1, h2⟩ := bind_ok_iff.mp h
      obtain ⟨heq, hc, href⟩ := unlinkLoop_spec h1
      rw [← hl] at href
      cases h2
      refine ⟨by rw [heq], hc, fun _ => ⟨by rw [heq], href⟩, fun hno => absurd (hold.mpr hlt) hno⟩
    · next hlt =>
      cases h
      exact ⟨rfl, fun _ => rfl, fun ho => absurd (hold.mp ho) hlt, fun _ => rfl⟩

/-- The repairs of `l` remain to be looked at; of the others, the old ones are dropped. -/
structure Dropping (id : ℕ) (d : Decoder w) (l : List (ℕ × DecoderRepair)) (u : Decoder w) :
    Prop where
  nodup : (l.map Prod.fst).Nodup
  stored : ∀ p ∈ l, d.repairs.find? p.1 = some p.2
  nonempty : ∀ ρ r, d.repairs.find? ρ = some r → (ρ, r) ∉ l → r.sourceIds.toList ≠ []
  frame : u = { d with repairs := u.repairs, missingSources := u.missingSources }
  repairs : ∀ ρ r, u.repairs.find? ρ = some r ↔
    d.repairs.find? ρ = some r ∧ ((ρ, r) ∈ l ∨ ¬ Old id r)
  missing : ∀ i, u.missingSources.contains i = d.missingSources.contains i
  references : ∀ i ρ, u.References i ρ ↔ d.References i ρ ∧
    ¬ ∃ r, d.repairs.find? ρ = some r ∧ (ρ, r) ∉ l ∧ Old id r ∧ i ∈ r.sourceIds

section Dropping

variable {u v : Decoder w} {a : ℕ} {q : DecoderRepair} {l : List (ℕ × DecoderRepair)}

theorem dropping_entries (id : ℕ) (d : Decoder w) : Dropping id d d.repairs.entries d := by
  refine ⟨d.repairs.keys_nodup, fun p hp => OrdMap.mem_entries_iff.mp hp, ?_, rfl, ?_,
    fun _ => rfl, ?_⟩
  · exact fun ρ r hr hl => absurd (OrdMap.mem_entries_iff.mpr hr) hl
  · exact fun ρ r => ⟨fun hr => ⟨hr, Or.inl (OrdMap.mem_entries_iff.mpr hr)⟩, fun hr => hr.1⟩
  · intro i ρ
    refine ⟨fun h => ⟨h, ?_⟩, fun h => h.1⟩
    rintro ⟨r, hr, hl, -⟩
    exact hl (OrdMap.mem_entries_iff.mpr hr)

theorem Dropping.head (hI : Dropping id d ((a, q) :: l) u) : d.repairs.find? a = some q :=
  hI.stored (a, q) List.mem_cons_self

theorem Dropping.head_not_mem (hI : Dropping id d ((a, q) :: l) u) (r : DecoderRepair) :
    (a, r) ∉ l := by
  have hnd := hI.nodup
  rw [List.map_cons, List.nodup_cons] at hnd
  exact fun hr => hnd.1 (List.mem_map.mpr ⟨(a, r), hr, rfl⟩)

/-- An old repair is removed, another kept. -/
theorem Dropping.repairs_step (hI : Dropping id d ((a, q) :: l) u)
    (hv : dropRepair b id u (a, q) = .ok v) (ρ : ℕ) (r : DecoderRepair) :
    v.repairs.find? ρ = some r ↔ d.repairs.find? ρ = some r ∧ ((ρ, r) ∈ l ∨ ¬ Old id r) := by
  obtain ⟨-, -, -, hold, hnew⟩ := dropRepair_spec hv
  by_cases hρ : ρ = a
  · subst hρ
    by_cases ho : Old id q
    · rw [(hold ho).1, OrdMap.find?_erase_self, hI.head]
      simp only [reduceCtorEq, Option.some.injEq, hI.head_not_mem, false_or, false_iff, not_and,
        not_not]
      rintro rfl
      exact ho
    · rw [hnew ho, hI.repairs, hI.head]
      simp only [Option.some.injEq, List.mem_cons, Prod.mk.injEq, true_and, hI.head_not_mem,
        or_false, false_or]
      constructor
      · rintro ⟨rfl, -⟩
        exact ⟨rfl, ho⟩
      · rintro ⟨rfl, ho⟩
        exact ⟨rfl, Or.inr ho⟩
  · have hkeep : v.repairs.find? ρ = u.repairs.find? ρ := by
      by_cases ho : Old id q
      · rw [(hold ho).1, OrdMap.find?_erase_ne hρ]
      · rw [hnew ho]
    rw [hkeep, hI.repairs]
    simp [hρ]

/-- The links of an old repair go with it, those of another stay. -/
theorem Dropping.references_step (hI : Dropping id d ((a, q) :: l) u)
    (hv : dropRepair b id u (a, q) = .ok v) (i ρ : ℕ) : v.References i ρ ↔ d.References i ρ ∧
      ¬ ∃ r, d.repairs.find? ρ = some r ∧ (ρ, r) ∉ l ∧ Old id r ∧ i ∈ r.sourceIds := by
  obtain ⟨-, -, -, hold, hnew⟩ := dropRepair_spec hv
  by_cases hρ : ρ = a
  · subst hρ
    by_cases ho : Old id q
    · rw [(hold ho).2, hI.references]
      simp only [hI.head, Option.some.injEq, List.mem_cons, Prod.mk.injEq, true_and,
        hI.head_not_mem, or_false, not_false_eq_true]
      constructor
      · rintro ⟨⟨h1, -⟩, h2⟩
        refine ⟨h1, ?_⟩
        rintro ⟨r, rfl, -, hi⟩
        exact h2 hi
      · rintro ⟨h1, h2⟩
        refine ⟨⟨h1, ?_⟩, fun hi => h2 ⟨q, rfl, ho, hi⟩⟩
        rintro ⟨r, rfl, hr, -⟩
        exact hr rfl
    · rw [hnew ho, hI.references]
      simp only [hI.head, Option.some.injEq, List.mem_cons, Prod.mk.injEq, true_and,
        hI.head_not_mem, or_false, not_false_eq_true]
      refine and_congr_right fun _ => not_congr ⟨?_, ?_⟩
      · rintro ⟨r, rfl, hr, -⟩
        exact absurd rfl hr
      · rintro ⟨r, rfl, ho', -⟩
        exact absurd ho' ho
  · have hkeep : v.References i ρ ↔ u.References i ρ := by
      by_cases ho : Old id q
      · rw [(hold ho).2]
        simp [hρ]
      · rw [hnew ho]
    rw [hkeep, hI.references]
    simp [hρ]

theorem Dropping.step (hI : Dropping id d ((a, q) :: l) u)
    (hv : dropRepair b id u (a, q) = .ok v) : Dropping id d l v := by
  obtain ⟨hq, heq, hmissing, -, -⟩ := dropRepair_spec hv
  have hnd := hI.nodup
  rw [List.map_cons, List.nodup_cons] at hnd
  refine ⟨hnd.2, fun p hp => hI.stored p (List.mem_cons_of_mem _ hp), fun ρ r hr hl => ?_,
    by rw [heq, hI.frame], hI.repairs_step hv, fun i => (hmissing i).trans (hI.missing i),
    hI.references_step hv⟩
  by_cases hρ : ρ = a
  · subst hρ
    have hhead := hI.head
    rw [hr] at hhead
    cases hhead
    exact hq
  · exact hI.nonempty ρ r hr (by simp [hρ, hl])

end Dropping

/-- The repairs that encode sources with identifiers strictly less than `id` are dropped, with
their links. -/
theorem dropLoop_spec (h : d.repairs.entries.foldlM (dropRepair b id) d = .ok d') :
    (∀ ρ r, d.repairs.find? ρ = some r → r.sourceIds.toList ≠ []) ∧
    d' = { d with repairs := d'.repairs, missingSources := d'.missingSources } ∧
    (∀ ρ r, d'.repairs.find? ρ = some r ↔ d.repairs.find? ρ = some r ∧ ¬ Old id r) ∧
    (∀ i, d'.missingSources.contains i = d.missingSources.contains i) ∧
    ∀ i ρ, d'.References i ρ ↔ d.References i ρ ∧
      ¬ ∃ r, d.repairs.find? ρ = some r ∧ Old id r ∧ i ∈ r.sourceIds := by
  have hI := foldlM_induction (f := dropRepair b id) (Dropping id d)
    (fun _ _ _ _ hu hv => hu.step hv) (dropping_entries id d) h
  refine ⟨fun ρ r hr => hI.nonempty ρ r hr List.not_mem_nil, hI.frame, fun ρ r => ?_, hI.missing,
    fun i ρ => ?_⟩
  · simpa using hI.repairs ρ r
  · simpa using hI.references i ρ

/-- What dropping outdated sources and repairs keeps of the links. -/
structure Drops (id : ℕ) (d d' : Decoder w) : Prop where
  inOrder : d'.inOrder = d.inOrder
  lastId : d'.lastId = some id
  sources : d'.sources = d.sources.eraseBelow id
  nonempty : ∀ ρ r, d.repairs.find? ρ = some r → r.sourceIds.toList ≠ []
  repairs : ∀ ρ r, d'.repairs.find? ρ = some r ↔ d.repairs.find? ρ = some r ∧ ¬ Old id r
  missing : ∀ i, d'.missingSources.contains i = true ↔
    id ≤ i ∧ d.missingSources.contains i = true
  references : ∀ i ρ, d'.References i ρ ↔ id ≤ i ∧ d.References i ρ ∧
    ¬ ∃ r, d.repairs.find? ρ = some r ∧ Old id r ∧ i ∈ r.sourceIds

theorem references_eraseBelow (hm : d'.missingSources = d.missingSources.eraseBelow id) :
    d'.References i ρ ↔ id ≤ i ∧ d.References i ρ := by
  rw [References, References, hm, OrdMap.find?_eraseBelow]
  by_cases hi : id ≤ i <;> simp [hi]

/-- Dropping is giving outdated sources to callback, once repairs are dropped. -/
theorem dropOutdated_cases (h : d.dropOutdated b id = .ok d') : ∃ d1 d2 : Decoder w,
    d1 = { d with
      lastId := some id, repairs := d1.repairs, missingSources := d1.missingSources } ∧
    d1.dropOrdered b id = .ok d2 ∧
    d' = { d2 with
      sources := d2.sources.eraseBelow id, missingSources := d2.missingSources.eraseBelow id } ∧
    Drops id d d' := by
  simp only [dropOutdated, bind_ok_iff] at h
  obtain ⟨d1, h1, d2, h2, h3⟩ := h
  cases h3
  have hentries : ({ d with lastId := some id } : Decoder w).repairs.entries = d.repairs.entries :=
    rfl
  rw [← hentries] at h1
  obtain ⟨hne, heq, hf, hc, href⟩ := dropLoop_spec h1
  have hdel := dropOrdered_delivers h2
  refine ⟨d1, d2, heq, h2, rfl, ?_, ?_, ?_, hne, ?_, ?_, ?_⟩
  · exact (inOrder_delivers hdel).trans (by rw [heq])
  · exact (lastId_delivers hdel).trans (by rw [heq])
  · exact congrArg (OrdMap.eraseBelow · id) ((sources_delivers hdel).trans (by rw [heq]))
  · intro ρ r
    refine Iff.trans ?_ (hf ρ r)
    rw [← repairs_delivers hdel]
  · intro i
    rw [OrdMap.contains_eraseBelow, Bool.and_eq_true, decide_eq_true_eq, missing_delivers hdel, hc]
  · intro i ρ
    rw [references_eraseBelow (d := d1)
      (congrArg (OrdMap.eraseBelow · id) (missing_delivers hdel))]
    exact and_congr_right fun _ => href i ρ

theorem listedStored_drops (hL : d.ListedStored) (h : Drops id d d') : d'.ListedStored := by
  intro i ρ href
  obtain ⟨-, href, hno⟩ := (h.references i ρ).mp href
  obtain ⟨r, hr, hi⟩ := hL i ρ href
  exact ⟨r, (h.repairs ρ r).mpr ⟨hr, fun ho => hno ⟨r, hr, ho, hi⟩⟩, hi⟩

end Netcode.Detail.Decoder
