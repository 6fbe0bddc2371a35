import Netcode.AtMostOnce
import Netcode.Balance
import Netcode.Library.Equations

/-! Contents of the sources are told apart through their differences: one value per source, in the
field. Those a decoder cannot tell from nothing are what adding a source or linking a repair keeps. -/
namespace Netcode.Detail

open Combinations Containers Equations Incidence Runs

variable {w : FieldSize} {b : Build} {g : GfComplete w} {v : ℕ → Gf g} {i : ℕ}

/-- Contents with these differences give the same packet. -/
def Incoming.SolvedBy (v : ℕ → Gf g) : Incoming → Prop
  | .source src => v src.id = 0
  | .repair r => combination (coef g r.id) r.sourceIds.toFinset v = 0

namespace Decoder

variable {d d' d1 d2 u : Decoder w} {src : DecoderSource} {r r2 q : DecoderRepair} {p : Incoming}
  {ps : List Incoming} {pending : List DecoderSource} {k ρ first : ℕ}

/-- Contents with these differences are the same to a decoder: they differ neither in a source it
knows or has forgotten, nor in what its repairs combine. -/
structure SolvedBy (d : Decoder w) (v : ℕ → Gf g) : Prop where
  known : ∀ i, d.sources.contains i = true → v i = 0
  outdated : ∀ i, d.outdated i = true → v i = 0
  stored : ∀ ρ r, d.repairs.find? ρ = some r → combination (coef g ρ) r.sourceIds.toFinset v = 0

theorem satisfies_links : Satisfies (coef g) d.links v ↔ ∀ ρ r, d.repairs.find? ρ = some r →
    combination (coef g ρ) r.sourceIds.toFinset v = 0 := by
  constructor
  · exact fun h ρ r hr => h ρ r.sourceIds (find?_links.mpr ⟨r, hr, rfl⟩)
  · rintro h ρ s hs
    obtain ⟨r, hr, rfl⟩ := find?_links.mp hs
    exact h ρ r hr

theorem solvedBy_congr (hs : d'.sources = d.sources) (hl : d'.lastId = d.lastId)
    (hr : d'.repairs = d.repairs) : d'.SolvedBy v ↔ d.SolvedBy v := by
  constructor
  · rintro ⟨h1, h2, h3⟩
    rw [hs] at h1
    rw [hr] at h3
    exact ⟨h1, fun i hi => h2 i ((outdated_congr hl).trans hi), h3⟩
  · rintro ⟨h1, h2, h3⟩
    rw [← hs] at h1
    rw [← hr] at h3
    exact ⟨h1, fun i hi => h2 i ((outdated_congr hl).symm.trans hi), h3⟩

theorem solvedBy_delivers (h : d.Delivers d') : d'.SolvedBy v ↔ d.SolvedBy v :=
  solvedBy_congr (sources_delivers h) (lastId_delivers h) (repairs_delivers h)

theorem coef_ne_zero (r s : ℕ) : coef g r s ≠ 0 := fun h => coefficient_ne_zero r s (Gf.ext_iff.mp h)

/-- Removing a source from the repairs changes nothing for contents that agree on it. -/
theorem solvedBy_strip (h : d.stripFromRepairs b g src = .ok d') (hv : v src.id = 0) :
    d'.SolvedBy v ↔ d.SolvedBy v := by
  obtain ⟨heq, -⟩ := stripFromRepairs_spec h
  obtain ⟨hforth, hback⟩ := sourceIds_strip h
  have hs : d'.sources = d.sources := by rw [heq]
  have hl : d'.lastId = d.lastId := by rw [heq]
  have hids : ∀ ρ r, combination (coef g ρ) (d.remaining src.id ρ r).toFinset v =
      combination (coef g ρ) r.sourceIds.toFinset v := by
    intro ρ r
    rw [remaining]
    split
    · rw [FlatSet.toFinset_erase, combination_erase_zero hv]
    · rfl
  constructor
  · rintro ⟨h1, h2, h3⟩
    rw [hs] at h1
    refine ⟨h1, fun i hi => h2 i ((outdated_congr hl).trans hi), fun ρ r hr => ?_⟩
    obtain ⟨r', hr', heq'⟩ := hforth ρ r hr
    rw [← hids, ← heq']
    exact h3 ρ r' hr'
  · rintro ⟨h1, h2, h3⟩
    rw [← hs] at h1
    refine ⟨h1, fun i hi => h2 i ((outdated_congr hl).symm.trans hi), fun ρ r' hr' => ?_⟩
    obtain ⟨r, hr, heq'⟩ := hback ρ r' hr'
    rw [heq', hids]
    exact h3 ρ r hr

/-- A repair of one source says what this source is. -/
theorem solvedBy_removeDecoded (hr : d.repairs.find? ρ = some r) (hids : r.sourceIds.toList = [k]) :
    (d.removeDecoded k ρ).SolvedBy v ∧ v k = 0 ↔ d.SolvedBy v := by
  have hone : combination (coef g ρ) r.sourceIds.toFinset v = 0 ↔ v k = 0 := by
    rw [FlatSet.toFinset_eq_singleton hids, combination_singleton_eq_zero_iff (coef_ne_zero ρ k)]
  constructor
  · rintro ⟨⟨h1, h2, h3⟩, hk⟩
    refine ⟨h1, h2, fun j q hq => ?_⟩
    by_cases hj : j = ρ
    · subst hj
      rw [hr] at hq
      cases hq
      exact hone.mpr hk
    · exact h3 j q ((OrdMap.find?_erase_ne hj).trans hq)
  · rintro ⟨h1, h2, h3⟩
    refine ⟨⟨h1, h2, fun j q hq => ?_⟩, hone.mp (h3 ρ r hr)⟩
    rw [removeDecoded, OrdMap.find?_erase] at hq
    split at hq
    · cases hq
    · exact h3 j q hq

theorem solvedBy_store (h : d.store b src = .ok d') :
    d'.SolvedBy v ↔ d.SolvedBy v ∧ v src.id = 0 := by
  have hcontains := contains_store h
  have heq := (store_spec h).2
  have hl : d'.lastId = d.lastId := by rw [heq]
  have hr : d'.repairs = d.repairs := by rw [heq]
  constructor
  · rintro ⟨h1, h2, h3⟩
    rw [hr] at h3
    exact ⟨⟨fun i hi => h1 i ((hcontains i).mpr (Or.inr hi)),
      fun i hi => h2 i ((outdated_congr hl).trans hi), h3⟩, h1 _ ((hcontains _).mpr (Or.inl rfl))⟩
  · rintro ⟨⟨h1, h2, h3⟩, hv⟩
    rw [← hr] at h3
    refine ⟨fun i hi => ?_, fun i hi => h2 i ((outdated_congr hl).symm.trans hi), h3⟩
    rcases (hcontains i).mp hi with rfl | hi
    · exact hv
    · exact h1 i hi

/-- Adding a source, with those decoded from it, only says what this source is. -/
theorem solved_rule (Φ : (ℕ → Gf g) → Prop) : PeelRule b g
    (fun pending src (d : Decoder w) => ∀ v : ℕ → Gf g,
      d.SolvedBy v ∧ (∀ x ∈ src :: pending, v x.id = 0) ↔ Φ v)
    (fun pending d => ∀ v : ℕ → Gf g, d.SolvedBy v ∧ (∀ x ∈ pending, v x.id = 0) ↔ Φ v) where
  add hP _ ho hs v := by
    rw [← hP v]
    refine and_congr_left fun hv => ?_
    rw [solvedBy_strip hs (hv _ List.mem_cons_self), solvedBy_delivers (offer_delivers ho)]
  decode := by
    rintro pending src d k ρ r y hI - hk - hids - rfl v
    rw [← hI v, ← solvedBy_removeDecoded (readyAt_eq_some.mp hk).2.1 hids, List.forall_mem_cons,
      and_assoc]
  store := by
    intro pending src d d' hI h v
    rw [← hI v, solvedBy_store h, List.forall_mem_cons, and_assoc]

theorem solvedBy_addSource (hL : d.ListedStored) (h : d.addSourceRecursive b g src = .ok d') :
    d'.SolvedBy v ↔ d.SolvedBy v ∧ v src.id = 0 := by
  have hrule := (solved_rule fun v : ℕ → Gf g => d.SolvedBy v ∧ v src.id = 0).addSource hL
    (fun v => by simp) h v
  simpa using hrule

/-- Removing a known source from an incoming repair changes nothing. -/
theorem solvedBy_link (h : link b g ρ d i = .ok d') : d'.SolvedBy v ↔ d.SolvedBy v := by
  cases hs : d.sources.find? i with
  | none =>
    rw [link_unknown hs] at h
    subst h
    exact solvedBy_congr rfl rfl rfl
  | some src =>
    obtain ⟨r, r', hr, -, rfl⟩ := (link_known hs).mp h
    have hknown : d.sources.contains i = true := OrdMap.contains_of_find? hs
    constructor
    · rintro ⟨h1, h2, h3⟩
      refine ⟨h1, h2, fun j q hq => ?_⟩
      by_cases hj : j = ρ
      · subst hj
        rw [hr] at hq
        cases hq
        have hzero := h3 j _ OrdMap.find?_insert_self
        rwa [FlatSet.toFinset_erase, combination_erase_zero (h1 i hknown)] at hzero
      · exact h3 j q ((OrdMap.find?_insert_ne hj).trans hq)
    · rintro ⟨h1, h2, h3⟩
      refine ⟨h1, h2, fun j q hq => ?_⟩
      rw [OrdMap.find?_insert] at hq
      split at hq
      · next hj =>
        cases hq
        rw [FlatSet.toFinset_erase, combination_erase_zero (h1 i hknown), hj]
        exact h3 ρ r hr
      · exact h3 j q hq

theorem solvedBy_insertRepair (hnew : d.repairs.contains r.id = false) :
    ({ d with repairs := d.repairs.insert r.id r } : Decoder w).SolvedBy v ↔
      d.SolvedBy v ∧ combination (coef g r.id) r.sourceIds.toFinset v = 0 := by
  constructor
  · rintro ⟨h1, h2, h3⟩
    refine ⟨⟨h1, h2, fun j q hq => ?_⟩, h3 _ _ OrdMap.find?_insert_self⟩
    exact h3 j q ((OrdMap.find?_insert_ne (find?_of_contains_false hnew hq)).trans hq)
  · rintro ⟨⟨h1, h2, h3⟩, hr⟩
    refine ⟨h1, h2, fun j q hq => ?_⟩
    rw [OrdMap.find?_insert] at hq
    split at hq
    · next hj =>
      cases hq
      rw [hj]
      exact hr
    · exact h3 j q hq

theorem solvedBy_linkLoop {l : List ℕ} (h : l.foldlM (link b g ρ) d = .ok d') :
    d'.SolvedBy v ↔ d.SolvedBy v :=
  foldlM_invariant (fun u => u.SolvedBy v ↔ d.SolvedBy v)
    (fun _ _ _ _ hu hl => (solvedBy_link hl).trans hu) Iff.rfl h

/-- Nothing stored is forgotten when no repair is old. -/
theorem solvedBy_drops (h : Drops first d d') (hold : ∀ ρ q, d.repairs.find? ρ = some q →
    ¬ Old first q) (hlast : d.outdated first = false) :
    d'.SolvedBy v ↔ d.SolvedBy v ∧ ∀ i < first, v i = 0 := by
  have hrepairs : ∀ ρ q, d'.repairs.find? ρ = some q ↔ d.repairs.find? ρ = some q := fun ρ q =>
    (h.repairs ρ q).trans (and_iff_left_of_imp (hold ρ q))
  constructor
  · rintro ⟨h1, h2, h3⟩
    have hbelow : ∀ i < first, v i = 0 := fun i hi => h2 i (outdated_iff.mpr ⟨_, h.lastId, hi⟩)
    refine ⟨⟨fun i hi => ?_, fun i hi => ?_, fun ρ q hq => h3 ρ q ((hrepairs ρ q).mpr hq)⟩, hbelow⟩
    · by_cases hlt : i < first
      · exact hbelow i hlt
      · refine h1 i ?_
        rw [h.sources, OrdMap.contains_eraseBelow, hi, decide_eq_true (not_lt.mp hlt)]
        rfl
    · obtain ⟨l, hl, hil⟩ := outdated_iff.mp hi
      rw [outdated_some hl, decide_eq_false_iff_not] at hlast
      exact hbelow i (by omega)
  · rintro ⟨⟨h1, h2, h3⟩, hbelow⟩
    refine ⟨fun i hi => ?_, fun i hi => ?_, fun ρ q hq => h3 ρ q ((hrepairs ρ q).mp hq)⟩
    · rw [h.sources, OrdMap.contains_eraseBelow, Bool.and_eq_true] at hi
      exact h1 i hi.2
    · obtain ⟨l, hl, hil⟩ := outdated_iff.mp hi
      rw [h.lastId] at hl
      cases hl
      exact hbelow i hil

end Decoder

end Netcode.Detail
