import Netcode.Library.Incidence
import Netcode.Peeled
import Netcode.FaultyRepair

/-! There are fewer repairs than missing sources between two operations, and every missing source is
referenced by a repair, as long as dropping and failed decodings orphan no missing source. -/
namespace Netcode.Detail.Decoder

open Containers Incidence Runs

variable {w : FieldSize} {b : Build} {g : GfComplete w} {d d' d1 d2 : Decoder w}
  {src : DecoderSource} {r r2 : DecoderRepair} {p : Incoming} {ps : List Incoming}
  {pending : List DecoderSource} {i k ρ : ℕ}

/-- The identifiers each stored repair lists. -/
def links (d : Decoder w) : OrdMap ℕ (FlatSet ℕ) := d.repairs.map fun _ r => r.sourceIds

theorem find?_links {s : FlatSet ℕ} :
    d.links.find? ρ = some s ↔ ∃ r, d.repairs.find? ρ = some r ∧ r.sourceIds = s := by
  rw [links, OrdMap.find?_map, Option.map_eq_some_iff]

theorem mem_listed_links : i ∈ listed d.links ↔ ∃ ρ, d.Lists ρ i := by
  rw [mem_listed]
  refine exists_congr fun ρ => ⟨?_, ?_⟩
  · rintro ⟨s, hs, hi⟩
    obtain ⟨r, hr, rfl⟩ := find?_links.mp hs
    exact ⟨r, hr, hi⟩
  · rintro ⟨r, hr, hi⟩
    exact ⟨r.sourceIds, find?_links.mpr ⟨r, hr, rfl⟩, hi⟩

theorem links_congr (h : d'.repairs = d.repairs) : d'.links = d.links := by rw [links, links, h]

/-- Every missing source is referenced by a stored repair. -/
def Referenced (d : Decoder w) : Prop :=
  ∀ i, d.missingSources.contains i = true → ∃ ρ, d.References i ρ

/-- There are fewer repairs than missing sources, or neither. -/
def Counted (d : Decoder w) : Prop :=
  d.repairs.size = 0 ∧ d.missingSources.size = 0 ∨ d.repairs.size < d.missingSources.size

theorem size_missingSources (d : Decoder w) :
    d.missingSources.size = d.missingSources.keys.toFinset.card := by
  rw [List.toFinset_card_of_nodup d.missingSources.keys_nodup, OrdMap.keys, List.length_map]
  rfl

theorem size_missing_congr (h : ∀ i, d'.missingSources.contains i = true ↔
    d.missingSources.contains i = true) : d'.missingSources.size = d.missingSources.size := by
  rw [size_missingSources, size_missingSources]
  refine congrArg Finset.card (Finset.ext fun i => ?_)
  rw [List.mem_toFinset, List.mem_toFinset, ← OrdMap.contains_iff_mem_keys,
    ← OrdMap.contains_iff_mem_keys, h]

/-- The missing sources are those the stored repairs list. -/
theorem missing_iff_listed (hI : d.Linked) (href : d.Referenced) :
    d.missingSources.contains i = true ↔ i ∈ listed d.links := by
  rw [mem_listed_links]
  constructor
  · intro hi
    obtain ⟨ρ, hρ⟩ := href i hi
    exact ⟨ρ, hI.listed i ρ hρ⟩
  · rintro ⟨ρ, hl⟩
    exact references_contains (hI.stored i ρ hl)

theorem size_missing_eq (hI : d.Linked) (href : d.Referenced) :
    d.missingSources.size = (listed d.links).card := by
  rw [size_missingSources]
  refine congrArg Finset.card (Finset.ext fun i => ?_)
  rw [List.mem_toFinset, ← OrdMap.contains_iff_mem_keys, missing_iff_listed hI href]

/-- A referenced missing source implies a stored repair. -/
theorem missing_empty_of_repairs_empty (hI : d.Linked) (href : d.Referenced)
    (h : d.repairs.size = 0) : d.missingSources.size = 0 := by
  rw [size_missing_eq hI href, Finset.card_eq_zero, Finset.eq_empty_iff_forall_notMem]
  intro i hi
  obtain ⟨ρ, r, hr, -⟩ := mem_listed_links.mp hi
  have := OrdMap.size_erase hr
  omega

/-- The repairs that can be decoded are the isolated ones. -/
theorem readyAt_iff_isolated (hL : d.ListedStored) (hI : d.LinkedWhile pending)
    (hr : d.repairs.find? ρ = some r) :
    (∃ k, d.readyAt k = some (ρ, r)) ↔ Isolated d.links ρ r.sourceIds := by
  constructor
  · rintro ⟨k, hk⟩
    obtain ⟨⟨cits, hm, hcits⟩, -, hone⟩ := readyAt_eq_some.mp hk
    obtain ⟨i, hi⟩ := FlatSet.size_eq_one_iff.mp hone
    obtain ⟨q, hq, hkq⟩ := hL k ρ (references_of_readyAt hk)
    rw [hr] at hq
    cases hq
    rw [FlatSet.mem_iff, hi, List.mem_singleton] at hkq
    subst hkq
    refine ⟨k, hi, fun j t ht hkt => ?_⟩
    obtain ⟨q, hq, rfl⟩ := find?_links.mp ht
    obtain ⟨cits', hm', hj⟩ := hI.stored k j ⟨q, hq, hkt⟩
    rw [hm] at hm'
    cases hm'
    exact (FlatSet.toList_eq_singleton_iff.mp hcits j).mp hj
  · rintro ⟨k, hk, honly⟩
    have hkr : k ∈ r.sourceIds := (FlatSet.toList_eq_singleton_iff.mp hk k).mpr rfl
    obtain ⟨cits, hm, hρ⟩ := hI.stored k ρ ⟨r, hr, hkr⟩
    refine ⟨k, readyAt_eq_some.mpr ⟨⟨cits, hm, FlatSet.toList_eq_singleton_iff.mpr fun j =>
      ⟨fun hj => ?_, fun hj => hj ▸ hρ⟩⟩, hr, FlatSet.size_eq_one_iff.mpr ⟨k, hk⟩⟩⟩
    obtain ⟨q, hq, hkq⟩ := hL k j ⟨cits, hm, hj⟩
    exact honly j q.sourceIds (find?_links.mpr ⟨q, hq, rfl⟩) hkq

theorem links_strip (hI : d.LinkedWhile pending) (h : d.stripFromRepairs b g src = .ok d') :
    d'.links = without src.id d.links := by
  obtain ⟨hforth, hback⟩ := sourceIds_strip h
  have hremaining : ∀ ρ r, d.repairs.find? ρ = some r →
      d.remaining src.id ρ r = r.sourceIds.erase src.id := by
    intro ρ r hr
    rw [remaining]
    split
    · rfl
    · next hno =>
      refine FlatSet.ext_mem fun i => ?_
      rw [FlatSet.mem_erase, iff_self_and]
      rintro hi rfl
      exact hno (references_iff_any.mpr (hI.stored _ ρ ⟨r, hr, hi⟩))
  apply OrdMap.ext_find?
  intro ρ
  rw [links, links, without, OrdMap.find?_map, OrdMap.find?_map, OrdMap.find?_map]
  cases hr : d.repairs.find? ρ with
  | some r =>
    obtain ⟨r', hr', hids⟩ := hforth ρ r hr
    rw [hr', Option.map_some, Option.map_some, Option.map_some, hids, hremaining ρ r hr]
  | none =>
    cases hr' : d'.repairs.find? ρ with
    | none => rfl
    | some r' =>
      obtain ⟨r, hr0, -⟩ := hback ρ r' hr'
      rw [hr] at hr0
      cases hr0

/-- Adding a source removes it from the repairs, then the repairs that can be decoded. -/
theorem links_addSource (hL : d.ListedStored) (hI : d.LinkedWhile [])
    (h : d.addSourceRecursive b g src = .ok d') :
    d'.links = settle (without src.id d.links) := by
  rw [addSourceRecursive_eq_peel hL] at h
  simp only [peel, bind_ok_iff] at h
  obtain ⟨d1, ho, d2, hs, d3, h3, h4⟩ := h
  have hdel := offer_delivers ho
  have hI1 : d1.LinkedWhile [] := linkedWhile_congr (repairs_delivers hdel) (missing_delivers hdel)
    (sources_delivers hdel) hI
  have hL2 := listedStored_strip (listedStored_delivers hdel hL) hs
  have hstored := decodeLeast_repairs hL2 h3
  rw [← links_congr (d := d) (repairs_delivers hdel), ← links_strip hI1 hs]
  apply OrdMap.ext_find?
  intro ρ
  apply Option.ext
  intro s
  rw [find?_settle, find?_links, find?_links, (store_spec h4).2]
  simp only [hstored]
  constructor
  · rintro ⟨r, ⟨hr, hno⟩, rfl⟩
    refine ⟨⟨r, hr, rfl⟩, fun hiso => ?_⟩
    obtain ⟨k, hk⟩ := (readyAt_iff_isolated hL2 (linkedWhile_strip hI1 hs) hr).mpr hiso
    exact hno k hk
  · rintro ⟨⟨r, hr, rfl⟩, hno⟩
    exact ⟨r, ⟨hr, fun k hk => hno ((readyAt_iff_isolated hL2 (linkedWhile_strip hI1 hs) hr).mp
      ⟨k, hk⟩)⟩, rfl⟩

/-- The references to the other missing sources are kept. -/
theorem referenced_rule : PeelRule b g
    (fun _ src (d : Decoder w) => ∀ i ≠ src.id, d.missingSources.contains i = true →
      ∃ ρ, d.References i ρ)
    (fun _ d => d.Referenced) where
  add := by
    intro _ src d d1 d2 hP _ ho hs i hi
    have hdel := offer_delivers ho
    have hm : d2.missingSources = d.missingSources.erase src.id := by
      rw [(stripFromRepairs_spec hs).1, missing_delivers hdel]
    rw [hm, OrdMap.contains_erase, Bool.and_eq_true, decide_eq_true_eq] at hi
    obtain ⟨ρ, hρ⟩ := hP i hi.1 hi.2
    exact ⟨ρ, (references_erase hm rfl).mpr ⟨hi.1, hρ⟩⟩
  decode := by
    rintro _ src d k ρ r y hI _ _ _ _ _ rfl i hne hi
    obtain ⟨ρ', hρ'⟩ := hI i (contains_of_erase hi)
    exact ⟨ρ', (references_erase (d := d) rfl rfl).mpr ⟨hne, hρ'⟩⟩
  store := by
    intro _ src d d' hI h
    rw [(store_spec h).2]
    exact hI

/-- A repair is erased for every missing source but the one that is added. -/
theorem difference_rule (m c : ℕ) : PeelRule b g
    (fun _ src (d : Decoder w) => (d.missingSources.erase src.id).size + c = d.repairs.size + m)
    (fun _ d => d.missingSources.size + c = d.repairs.size + m) where
  add := by
    intro _ src d d1 d2 hP _ ho hs
    have hdel := offer_delivers ho
    rw [size_strip hs, repairs_delivers hdel, (stripFromRepairs_spec hs).1, missing_delivers hdel]
    exact hP
  decode := by
    rintro _ src d k ρ r y hI _ hk _ _ _ rfl
    obtain ⟨⟨cits, hm, -⟩, hr, -⟩ := readyAt_eq_some.mp hk
    have hM := OrdMap.size_erase hm
    have hR := OrdMap.size_erase hr
    have hno : (d.missingSources.erase y.id).erase y.id = d.missingSources.erase y.id :=
      OrdMap.erase_of_find?_none OrdMap.find?_erase_self
    show ((d.missingSources.erase y.id).erase y.id).size + c = (d.repairs.erase ρ).size + m
    rw [hno]
    omega
  store := by
    intro _ src d d' hI h
    rw [(store_spec h).2]
    exact hI

/-- As many repairs as missing sources, at least two, and no row of zeros. -/
structure Square (d : Decoder w) : Prop where
  size : d.missingSources.size = d.repairs.size
  several : 2 ≤ d.missingSources.size
  rows : ∀ row < d.missingSources.size, ∃ col < d.repairs.size,
    d.coefficientAt row col ≠ 0#w.bits

theorem square_of_referenced (hI : d.Linked) (href : d.Referenced)
    (hsize : d.missingSources.size = d.repairs.size) (htwo : 2 ≤ d.missingSources.size) :
    d.Square := by
  refine ⟨hsize, htwo, fun row hrow => ?_⟩
  have hkeys : row < d.missingSources.keys.length := (List.length_map _).symm ▸ hrow
  have hi := List.getElem?_eq_getElem hkeys
  obtain ⟨ρ, hρ⟩ := href _ (OrdMap.contains_iff_mem_keys.mpr (List.mem_of_getElem? hi))
  obtain ⟨r, hr, hlists⟩ := hI.listed _ ρ hρ
  obtain ⟨col, hcol, heq⟩ := List.mem_iff_getElem.mp (OrdMap.mem_entries_iff.mpr hr)
  refine ⟨col, hcol, ?_⟩
  rw [coefficientAt, hi, List.getElem?_eq_getElem hcol, heq]
  dsimp only
  rw [if_pos hlists]
  exact coefficient_ne_zero _ _

/-- The only repair of the only missing source can be decoded. -/
theorem several_of_idle (hI : d.Linked) (href : d.Referenced) (hidle : ∀ k, d.readyAt k = none)
    (hsize : d.missingSources.size = d.repairs.size) (hpos : 0 < d.missingSources.size) :
    2 ≤ d.missingSources.size := by
  by_contra hlt
  have hM : d.missingSources.size = 1 := by omega
  obtain ⟨k, hk⟩ := Finset.card_eq_one.mp ((size_missing_eq hI href).symm.trans hM)
  obtain ⟨⟨ρ, r⟩, he⟩ := List.length_eq_one_iff.mp (hsize.symm.trans hM)
  have honly : ∀ j q, d.repairs.find? j = some q ↔ j = ρ ∧ q = r := by
    intro j q
    rw [← OrdMap.mem_entries_iff, he, List.mem_singleton, Prod.mk.injEq]
  have hids : ∀ i, i ∈ r.sourceIds ↔ i = k := by
    intro i
    rw [← Finset.mem_singleton, ← hk, mem_listed_links]
    constructor
    · exact fun hi => ⟨ρ, r, (honly ρ r).mpr ⟨rfl, rfl⟩, hi⟩
    · rintro ⟨j, q, hq, hi⟩
      exact ((honly j q).mp hq).2 ▸ hi
  obtain ⟨c, hc⟩ := (readyAt_iff_isolated hI.listed (linked_iff_linkedWhile.mp hI).2
    ((honly ρ r).mpr ⟨rfl, rfl⟩)).mpr ⟨k, FlatSet.toList_eq_singleton_iff.mpr hids, fun j t ht _ => by
      obtain ⟨q, hq, -⟩ := find?_links.mp ht
      exact ((honly j q).mp hq).1⟩
  rw [hidle c] at hc
  cases hc

/-- When the matrix is singular, the rows of the links depend on each other. -/
theorem dependent_of_not_isUnit (hI : d.Linked) (hsize : d.missingSources.size = d.repairs.size)
    (h : ¬ IsUnit (coefficientMatrix g d)) : Dependent (coef g) d.links := by
  rw [Matrix.isUnit_iff_isUnit_det, isUnit_iff_ne_zero, not_not] at h
  obtain ⟨v, hv, hmul⟩ := Matrix.exists_mulVec_eq_zero_iff.mpr h
  have hlen : d.links.size = d.repairs.size := OrdMap.size_map _ _
  refine ⟨fun k => v (finCongr hlen k), fun hzero => hv ?_, fun i => ?_⟩
  · funext k
    exact congrFun hzero ((finCongr hlen).symm k)
  · have hentry : ∀ k : Fin d.links.size, d.links.entries[k] =
        (d.repairs.entries[finCongr hlen k].1, d.repairs.entries[finCongr hlen k].2.sourceIds) :=
      fun k => List.getElem_map _
    by_cases hi : d.missingSources.contains i = true
    · obtain ⟨row, hrow, hkey⟩ := List.mem_iff_getElem.mp (OrdMap.contains_iff_mem_keys.mp hi)
      have hkeys : d.missingSources.keys.length = d.missingSources.size := List.length_map _
      have hrow' : row < d.repairs.size := by omega
      have hzero : (coefficientMatrix g d).mulVec v ⟨row, hrow'⟩ = 0 := congrFun hmul _
      refine Eq.trans ?_ hzero
      rw [Matrix.mulVec, dotProduct]
      refine Fintype.sum_equiv (finCongr hlen) _ _ fun k => ?_
      rw [hentry]
      dsimp only [coefficientMatrix, Matrix.of_apply]
      rw [coefficientAt, List.getElem?_eq_getElem hrow, hkey,
        List.getElem?_eq_getElem (finCongr hlen k).isLt]
      by_cases hmem : i ∈ d.repairs.entries[(finCongr hlen) k].2.sourceIds
      · exact (if_pos hmem).trans
          (congrArg (fun c => (⟨c⟩ : Gf g) * v (finCongr hlen k)) (if_pos hmem).symm)
      · exact ((if_neg hmem).trans (zero_mul (v (finCongr hlen k))).symm).trans
          (congrArg (fun c => (⟨c⟩ : Gf g) * v (finCongr hlen k)) (if_neg hmem).symm)
    · refine Finset.sum_eq_zero fun k _ => if_neg fun hmem => hi ?_
      rw [hentry] at hmem
      exact references_contains (hI.stored i _ ⟨_, repairAt_find (finCongr hlen k), hmem⟩)

/-- What holds between two operations. -/
structure Balanced (d : Decoder w) : Prop where
  linked : d.Linked
  counted : d.Counted
  referenced : d.Referenced

theorem enoughRepairs_iff : d.enoughRepairs = true ↔ 0 < d.repairs.size ∧
    0 < d.missingSources.size ∧ d.missingSources.size ≤ d.repairs.size := by
  simp only [enoughRepairs, OrdMap.isEmpty, OrdMap.size, Bool.and_eq_true, Bool.not_eq_true',
    List.isEmpty_eq_false_iff, and_assoc, List.length_pos_iff]
  exact and_congr_right fun _ => and_congr_right fun _ => decide_eq_true_iff

/-- The repair a failed full decoding erases is the last one. -/
theorem balanced_dropFaulty (hI : d.Linked) (href : d.Referenced)
    (hsize : d.missingSources.size = d.repairs.size) (hspare : SparesLast d.links)
    (h : d.dropFaulty (d.repairs.size - 1) = .ok d') : d'.Balanced := by
  obtain ⟨ρ, r, hr, heq, hmissing, hreferences⟩ := dropFaulty_spec h
  obtain ⟨e, hlast, herased⟩ := dropFaulty_entry h
  have hρ : e.1 = ρ := by
    by_contra hne
    have hgone : d'.repairs.find? ρ = none := by
      rw [heq]
      exact OrdMap.find?_erase_self
    rw [herased, OrdMap.find?_erase_ne (Ne.symm hne), hr] at hgone
    cases hgone
  have hkept : ∀ i, d'.missingSources.contains i = true ↔ d.missingSources.contains i = true := by
    intro i
    rw [hmissing, or_iff_left_iff_imp]
    exact fun hi => references_contains (hI.stored i ρ ⟨r, hr, hi⟩)
  have hR : d'.repairs.size + 1 = d.repairs.size := by
    rw [heq]
    exact OrdMap.size_erase hr
  refine ⟨linked_dropFaulty hI h, Or.inr ?_, fun i hi => ?_⟩
  · rw [size_missing_congr hkept]
    omega
  · have hlisted := (missing_iff_listed hI href).mp ((hkept i).mp hi)
    have hlinks : d.links.entries.getLast? = some (e.1, e.2.sourceIds) := by
      rw [List.getLast?_eq_getElem?, show d.links.entries.length = d.repairs.size from
        OrdMap.size_map _ _, links, OrdMap.map, List.getElem?_map, hlast]
      rfl
    rw [← hspare _ hlinks, mem_listed, hρ] at hlisted
    obtain ⟨j, s, hj, his⟩ := hlisted
    rw [OrdMap.find?_erase] at hj
    split at hj
    · cases hj
    · next hne =>
      obtain ⟨q, hq, rfl⟩ := find?_links.mp hj
      exact ⟨j, (hreferences i j).mpr ⟨hI.stored i j ⟨q, hq, his⟩, fun hc => hne hc.1⟩⟩

/-- A full decoding attempted with at most as many repairs as missing sources. -/
theorem balanced_attempt (hI : d.Linked) (href : d.Referenced)
    (hle : d.repairs.size ≤ d.missingSources.size)
    (htwo : d.missingSources.size = d.repairs.size → 0 < d.missingSources.size →
      2 ≤ d.missingSources.size)
    (hs : Survives (coef g) d.links) (h : d.attemptFullDecoding b g = .ok d') : d'.Balanced := by
  have hlinked := linked_attemptFullDecoding hI h
  cases he : d.enoughRepairs with
  | false =>
    rw [attemptFullDecoding, he] at h
    cases h
    refine ⟨hI, ?_, href⟩
    rcases Nat.eq_zero_or_pos d.repairs.size with hzero | hpos
    · exact Or.inl ⟨hzero, missing_empty_of_repairs_empty hI href hzero⟩
    · refine Or.inr (not_le.mp fun hge => ?_)
      rw [enoughRepairs_iff.mpr ⟨hpos, by omega, hge⟩] at he
      cases he
  | true =>
    obtain ⟨hR, hM, hge⟩ := enoughRepairs_iff.mp he
    have hsize : d.missingSources.size = d.repairs.size := le_antisymm hge hle
    obtain ⟨blamed, m, heq, -, hblamed, hiff, -⟩ :=
      attemptFullDecoding_eq (b := b) (g := g) (htwo hsize hM) hsize.symm
    rw [heq] at h
    cases blamed with
    | none =>
      obtain ⟨c, f, o, s, n, rfl, -⟩ := decodeAll_decoding h
      exact ⟨hlinked, Or.inl ⟨rfl, rfl⟩, fun i hi => by cases hi⟩
    | some k =>
      have hk : k = d.repairs.size - 1 := by simpa using hblamed
      subst hk
      have hsingular : ¬ IsUnit (coefficientMatrix g d) := fun hu => by cases hiff.mpr hu
      have hcard : d.links.size = (listed d.links).card := by
        rw [← size_missing_eq hI href, hsize]
        exact OrdMap.size_map _ _
      exact balanced_dropFaulty (d := { d with coefficients := m.mat, inv := m.inv })
        (linked_congr (d := d) rfl rfl rfl hI) href hsize
        (hs hcard (dependent_of_not_isUnit hI hsize hsingular)) h

end Netcode.Detail.Decoder
