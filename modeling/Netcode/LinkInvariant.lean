import Netcode.Receiving
import Netcode.Channel
import Netcode.Gf16

/-! The index from missing sources to stored repairs, over whole runs. -/
namespace Netcode.Detail.Decoder

open Containers Runs

variable {w : FieldSize} {b : Build} {g : GfComplete w} {d d' d1 d2 : Decoder w}
  {src : DecoderSource} {r r2 : DecoderRepair} {p : Incoming} {ps : List Incoming}
  {pending : List DecoderSource} {i k ρ first : ℕ}

theorem find?_of_contains_false {m : OrdMap ℕ DecoderRepair} (h : m.contains k = false)
    (hf : m.find? ρ = some r) : ρ ≠ k := by
  rintro rfl
  rw [OrdMap.contains_eq_false_iff, hf] at h
  cases h

/-- What dropping and linking make of the links, for a repair that was not stored. -/
structure Accepted (r : DecoderRepair) (first : ℕ) (d d1 d2 : Decoder w) (r2 : DecoderRepair) :
    Prop where
  drops : Drops first d d1
  new : d1.repairs.contains r.id = false
  frame : d2 = { d1 with repairs := d2.repairs, missingSources := d2.missingSources }
  stored : d2.repairs.find? r.id = some r2
  ids : ∀ i, i ∈ r2.sourceIds ↔ i ∈ r.sourceIds ∧ d1.sources.contains i = false
  repairs : ∀ ρ ≠ r.id, d2.repairs.find? ρ = d1.repairs.find? ρ
  missing : ∀ i, d2.missingSources.contains i = true ↔
    d1.missingSources.contains i = true ∨ i ∈ r2.sourceIds
  references : ∀ i ρ, d2.References i ρ ↔ d1.References i ρ ∨ ρ = r.id ∧ i ∈ r2.sourceIds

theorem new_of_drops (h : Drops first d d1) (hnew : d.repairs.contains k = false) :
    d1.repairs.contains k = false := by
  rw [OrdMap.contains_eq_false_iff] at hnew ⊢
  cases hf : d1.repairs.find? k with
  | none => rfl
  | some q =>
    rw [((h.repairs _ _).mp hf).1] at hnew
    cases hnew

theorem Accepts.accepted (h : Accepts b g r first d d1 d2 r2)
    (hnew : d.repairs.contains r.id = false) : Accepted r first d d1 d2 r2 := by
  obtain ⟨-, -, -, -, -, hdrops⟩ := dropOutdated_cases h.drop
  have hnew1 := new_of_drops hdrops hnew
  have hlink := linkLoop_spec (d := { d1 with repairs := d1.repairs.insert r.id r })
    OrdMap.find?_insert_self h.link
  obtain ⟨r', hr', hids⟩ := hlink.repair
  rw [h.linked] at hr'
  cases hr'
  have hids' : ∀ i, i ∈ r2.sourceIds ↔ i ∈ r.sourceIds ∧ d1.sources.contains i = false := by
    intro i
    rw [hids]
    simp
  refine ⟨hdrops, hnew1, ?_, h.linked, hids', fun ρ hρ => ?_, fun i => ?_, fun i ρ => ?_⟩
  · rw [hlink.frame]
  · exact (hlink.repairs ρ hρ).trans (OrdMap.find?_insert_ne hρ)
  · rw [hlink.missing, hids']
    simp
  · rw [hlink.references, hids']
    simp only [List.not_mem_nil, not_false_eq_true, true_and]
    rfl

theorem Accepted.listedStored (h : Accepted r first d d1 d2 r2) (hL : d.ListedStored) :
    d2.ListedStored := by
  intro i ρ href
  rcases (h.references i ρ).mp href with href | ⟨rfl, hi⟩
  · obtain ⟨q, hq, hi⟩ := listedStored_drops hL h.drops i ρ href
    exact ⟨q, (h.repairs ρ (find?_of_contains_false h.new hq)).trans hq, hi⟩
  · exact ⟨r2, h.stored, hi⟩

theorem listedStored_dropFaulty (hL : d.ListedStored) (h : d.dropFaulty k = .ok d') :
    d'.ListedStored := by
  obtain ⟨ρ, r, hr, heq, -, href⟩ := dropFaulty_spec h
  intro i ρ' hi
  obtain ⟨hi, hno⟩ := (href i ρ').mp hi
  obtain ⟨q, hq, hiq⟩ := hL i ρ' hi
  have hρ : ρ' ≠ ρ := by
    rintro rfl
    rw [hr] at hq
    cases hq
    exact hno ⟨rfl, hiq⟩
  refine ⟨q, ?_, hiq⟩
  rw [heq]
  exact (OrdMap.find?_erase_ne hρ).trans hq

theorem listedStored_of_missing_empty (h : d.missingSources = OrdMap.empty) : d.ListedStored := by
  rintro i ρ ⟨cits, hc, -⟩
  rw [h] at hc
  cases hc

theorem listedStored_attemptFullDecoding (hL : d.ListedStored)
    (h : d.attemptFullDecoding b g = .ok d') : d'.ListedStored := by
  rcases attemptFullDecoding_cases h with
    ⟨rfl, -⟩ | ⟨-, _, _, m, -, -, ⟨k, -, hf⟩ | ⟨-, ha⟩⟩
  · exact hL
  · refine listedStored_dropFaulty ?_ hf
    exact listedStored_congr (d := d) rfl rfl hL
  · obtain ⟨c, f, o, s, n, rfl, -⟩ := decodeAll_decoding ha
    exact listedStored_of_missing_empty rfl

theorem listedStored_receive (hL : d.ListedStored) (h : d.receive b g p = .ok d') :
    d'.ListedStored := by
  cases p with
  | source src =>
    rcases receiveSource_cases h with ⟨rfl, -⟩ | ⟨-, -, d1, h1, h2⟩
    · exact hL
    · exact listedStored_attemptFullDecoding (settled_addSource hL h1).listed h2
  | repair r =>
    obtain ⟨-, ⟨rfl, -⟩ | ⟨hacc, ⟨d1, h1, -, rfl⟩ | ⟨d1, d2, r2, ha, h2⟩⟩⟩ :=
      receiveRepair_cases h
    · exact hL
    · obtain ⟨-, -, -, -, -, hdrops⟩ := dropOutdated_cases h1
      exact listedStored_congr (d := d1) rfl rfl (listedStored_drops hL hdrops)
    · have hacc := ha.accepted (contains_of_accepts hacc)
      have hL2 := hacc.listedStored hL
      rcases h2 with ⟨hone, src, hc, hadd⟩ | ⟨-, hfull⟩
      · have hids := createSourceFromRepair_only hc hone
        exact (settled_addSource (listedStored_removeDecoded hL2 hacc.stored hids) hadd).listed
      · exact listedStored_attemptFullDecoding hL2 hfull

theorem listedStored_initial (inOrder : Bool) : (initial inOrder : Decoder w).ListedStored :=
  listedStored_of_missing_empty rfl

/-- Whatever is received, a repair listed under a missing source is stored and lists it. -/
theorem listedStored_reachable {C : Decoder w → Incoming → Prop} {inOrder : Bool}
    (h : Run (receive b g) C (initial inOrder) ps d) : d.ListedStored :=
  h.invariant ListedStored (fun _ _ _ hL _ hs => listedStored_receive hL hs)
    (listedStored_initial inOrder)

/-- The links between stored repairs and missing sources go both ways, and no missing source is
known. -/
structure Linked (d : Decoder w) : Prop where
  stored : ∀ i ρ, d.Lists ρ i → d.References i ρ
  listed : d.ListedStored
  disjoint : ∀ i, d.missingSources.contains i = true → d.sources.contains i = false

/-- The links while sources are being added: those still to be stored are no longer missing. -/
structure LinkedWhile (d : Decoder w) (pending : List DecoderSource) : Prop where
  stored : ∀ i ρ, d.Lists ρ i → d.References i ρ
  disjoint : ∀ i, d.missingSources.contains i = true → d.sources.contains i = false
  pending : ∀ x ∈ pending, d.missingSources.contains x.id = false

theorem linkedWhile_congr (hr : d'.repairs = d.repairs)
    (hm : d'.missingSources = d.missingSources) (hs : d'.sources = d.sources)
    (h : d.LinkedWhile pending) : d'.LinkedWhile pending := by
  refine ⟨fun i ρ hi => ?_, fun i hi => ?_, fun x hx => ?_⟩
  · rw [Lists, hr] at hi
    rw [References, hm]
    exact h.stored i ρ hi
  · rw [hm] at hi
    rw [hs]
    exact h.disjoint i hi
  · rw [hm]
    exact h.pending x hx

theorem linkedWhile_strip (hI : d.LinkedWhile pending)
    (h : d.stripFromRepairs b g src = .ok d') : d'.LinkedWhile (src :: pending) := by
  obtain ⟨heq, hs⟩ := stripFromRepairs_spec h
  have hm : d'.missingSources = d.missingSources.erase src.id := by rw [heq]
  refine ⟨?_, fun i hi => ?_, ?_⟩
  · rintro i ρ ⟨r', hr', hi⟩
    obtain ⟨r, hr, hids⟩ := stripped_lists hs hr'
    obtain ⟨hir, hno⟩ := (hids i).mp hi
    have href := hI.stored i ρ ⟨r, hr, hir⟩
    refine (references_erase hm rfl).mpr ⟨?_, href⟩
    rintro rfl
    exact hno ⟨rfl, href⟩
  · rw [hm] at hi
    rw [heq]
    exact hI.disjoint i (contains_of_erase hi)
  · rw [hm]
    intro x hx
    rcases List.mem_cons.mp hx with rfl | hx
    · simp [OrdMap.contains_erase]
    · rw [OrdMap.contains_erase, hI.pending x hx, Bool.and_false]

theorem linkedWhile_removeDecoded (hI : d.LinkedWhile pending)
    (hother : ∀ ρ' ≠ ρ, ¬ d.Lists ρ' k) : (d.removeDecoded k ρ).LinkedWhile pending := by
  refine ⟨?_, fun i hi => hI.disjoint i (contains_of_erase hi), fun x hx => ?_⟩
  · rintro i ρ' ⟨r', hr', hi⟩
    have hρ : ρ' ≠ ρ := by
      rintro rfl
      rw [removeDecoded, OrdMap.find?_erase_self] at hr'
      cases hr'
    have hl : d.Lists ρ' i := ⟨r', (OrdMap.find?_erase_ne hρ).symm.trans hr', hi⟩
    refine (references_erase (d := d) rfl rfl).mpr ⟨?_, hI.stored i ρ' hl⟩
    rintro rfl
    exact hother ρ' hρ hl
  · show (d.missingSources.erase k).contains x.id = false
    rw [OrdMap.contains_erase, hI.pending x hx, Bool.and_false]

theorem linkedWhile_store (hI : d.LinkedWhile (src :: pending)) (h : d.store b src = .ok d') :
    d'.LinkedWhile pending := by
  rw [(store_spec h).2]
  refine ⟨hI.stored, fun i hi => ?_, fun x hx => hI.pending x (List.mem_cons_of_mem src hx)⟩
  have hne : i ≠ src.id := by
    rintro rfl
    rw [hI.pending src List.mem_cons_self] at hi
    cases hi
  dsimp only
  split
  · exact hI.disjoint i hi
  · rw [OrdMap.contains_insert, hI.disjoint i hi, decide_eq_false hne, Bool.or_false]

theorem linkedWhile_rule : PeelRule b g (fun pending _ (d : Decoder w) => d.LinkedWhile pending)
    (fun pending d => d.LinkedWhile pending) where
  add hP _ ho hs := by
    have hdel := offer_delivers ho
    refine linkedWhile_strip (linkedWhile_congr ?_ ?_ ?_ hP) hs
    exacts [repairs_delivers hdel, missing_delivers hdel, sources_delivers hdel]
  decode hI _ hk _ _ _ _ := by
    refine linkedWhile_removeDecoded hI fun ρ' hρ' hl => hρ' ?_
    obtain ⟨⟨cits, hm, hc⟩, -⟩ := readyAt_eq_some.mp hk
    obtain ⟨cits', hm', hmem⟩ := hI.stored _ _ hl
    rw [hm] at hm'
    cases hm'
    simpa [FlatSet.mem_iff, hc] using hmem
  store hI h := linkedWhile_store hI h

theorem linked_iff_linkedWhile : d.Linked ↔ d.ListedStored ∧ d.LinkedWhile [] :=
  ⟨fun h => ⟨h.listed, h.stored, h.disjoint, fun _ hx => absurd hx List.not_mem_nil⟩,
    fun h => ⟨h.2.stored, h.1, h.2.disjoint⟩⟩

theorem linked_addSource (hL : d.ListedStored) (hI : d.LinkedWhile [])
    (h : d.addSourceRecursive b g src = .ok d') : d'.Linked :=
  linked_iff_linkedWhile.mpr
    ⟨(settled_addSource hL h).listed, linkedWhile_rule.addSource hL hI h⟩

theorem linked_dropFaulty (hI : d.Linked) (h : d.dropFaulty k = .ok d') : d'.Linked := by
  obtain ⟨ρ, r, hr, heq, hm, href⟩ := dropFaulty_spec h
  have hrep : d'.repairs = d.repairs.erase ρ := by rw [heq]
  refine ⟨?_, listedStored_dropFaulty hI.listed h, fun i hi => ?_⟩
  · rintro i ρ' ⟨r', hr', hi⟩
    rw [hrep] at hr'
    have hρ : ρ' ≠ ρ := by
      rintro rfl
      rw [OrdMap.find?_erase_self] at hr'
      cases hr'
    rw [OrdMap.find?_erase_ne hρ] at hr'
    exact (href i ρ').mpr ⟨hI.stored i ρ' ⟨r', hr', hi⟩, fun hc => hρ hc.1⟩
  · rw [heq]
    refine hI.disjoint i (((hm i).mp hi).elim id fun hir => ?_)
    exact references_contains (hI.stored i ρ ⟨r, hr, hir⟩)

theorem linked_congr (hr : d'.repairs = d.repairs) (hm : d'.missingSources = d.missingSources)
    (hs : d'.sources = d.sources) (h : d.Linked) : d'.Linked :=
  linked_iff_linkedWhile.mpr ⟨listedStored_congr hr hm h.listed,
    linkedWhile_congr hr hm hs (linked_iff_linkedWhile.mp h).2⟩

theorem linked_attemptFullDecoding (hI : d.Linked) (h : d.attemptFullDecoding b g = .ok d') :
    d'.Linked := by
  rcases attemptFullDecoding_cases h with
    ⟨rfl, -⟩ | ⟨-, _, _, m, -, -, ⟨k, -, hf⟩ | ⟨-, ha⟩⟩
  · exact hI
  · refine linked_dropFaulty ?_ hf
    exact linked_congr (d := d) rfl rfl rfl hI
  · obtain ⟨c, f, o, s, n, rfl, -⟩ := decodeAll_decoding ha
    refine ⟨?_, listedStored_of_missing_empty rfl, fun i hi => ?_⟩
    · rintro i ρ ⟨r, hr, -⟩
      cases hr
    · cases hi

theorem linked_drops (hI : d.Linked) (h : Drops first d d') : d'.Linked := by
  refine ⟨?_, listedStored_drops hI.listed h, fun i hi => ?_⟩
  · rintro i ρ ⟨r, hr, hi⟩
    obtain ⟨hr, hnew⟩ := (h.repairs ρ r).mp hr
    refine (h.references i ρ).mpr ⟨?_, hI.stored i ρ ⟨r, hr, hi⟩, ?_⟩
    · exact not_lt.mp fun hlt => hnew ⟨i, hi, hlt⟩
    · rintro ⟨r', hr', ho, -⟩
      rw [hr] at hr'
      cases hr'
      exact hnew ho
  · rw [h.sources, OrdMap.contains_eraseBelow, hI.disjoint i ((h.missing i).mp hi).2,
      Bool.and_false]

theorem linked_accepted (hI : d1.Linked) (hd : d.ListedStored)
    (h : Accepted r first d d1 d2 r2) : d2.Linked := by
  refine ⟨?_, h.listedStored hd, fun i hi => ?_⟩
  · rintro i ρ ⟨q, hq, hi⟩
    rw [h.references]
    by_cases hρ : ρ = r.id
    · subst hρ
      rw [h.stored] at hq
      cases hq
      exact Or.inr ⟨rfl, hi⟩
    · exact Or.inl (hI.stored i ρ ⟨q, (h.repairs ρ hρ).symm.trans hq, hi⟩)
  · have hs : d2.sources = d1.sources := by rw [h.frame]
    rw [hs]
    rcases (h.missing i).mp hi with hi | hi
    · exact hI.disjoint i hi
    · exact ((h.ids i).mp hi).2

theorem firstId_le (hi : i ∈ r.sourceIds) : firstId r ≤ i := by
  rw [firstId]
  cases hl : r.sourceIds.toList with
  | nil =>
    rw [FlatSet.mem_iff, hl] at hi
    exact absurd hi List.not_mem_nil
  | cons a l => exact FlatSet.head_le hl hi

/-- Of an incoming repair, the identifiers of missing sources are kept. -/
theorem Accepted.sourceIds_eq (h : Accepted r (firstId r) d d1 d2 r2) :
    r2.sourceIds = d.unknown r := by
  refine FlatSet.ext_mem fun i => ?_
  rw [h.ids, unknown, FlatSet.mem_filter, Bool.not_eq_true', h.drops.sources]
  refine and_congr_right fun hi => ?_
  rw [OrdMap.contains_eraseBelow, decide_eq_true (firstId_le hi), Bool.true_and]

/-- The other repairs that stay next to an incoming one. -/
theorem Accepted.lists (h : Accepted r first d d1 d2 r2) (hρ : ρ ≠ r.id) : d2.Lists ρ i ↔
    ∃ q, d.repairs.find? ρ = some q ∧ ¬ Old first q ∧ i ∈ q.sourceIds := by
  rw [Lists, h.repairs ρ hρ]
  refine exists_congr fun q => ?_
  rw [h.drops.repairs, and_assoc]

/-- A repair rebuilds a missing source directly, while another one that stays references it. -/
def rebuildsShared (d : Decoder w) : Incoming → Bool
  | .source _ => false
  | .repair r => d.accepts r && match (d.unknown r).toList with
    | [i] => d.repairs.entries.any fun e => decide (¬ Old (firstId r) e.2 ∧ i ∈ e.2.sourceIds)
    | _ => false

theorem rebuildsShared_of_only (hacc : d.accepts r = true) (hids : (d.unknown r).toList = [i]) :
    d.rebuildsShared (.repair r) = true ↔
      ∃ ρ q, d.repairs.find? ρ = some q ∧ ¬ Old (firstId r) q ∧ i ∈ q.sourceIds := by
  simp only [rebuildsShared, hacc, hids, Bool.true_and, List.any_eq_true, decide_eq_true_eq,
    Prod.exists, OrdMap.mem_entries_iff]

/-- The only missing source of an incoming repair is rebuilt, and no other repair references it. -/
theorem Accepted.linkedWhile_removeDecoded (hA : Accepted r (firstId r) d d1 d2 r2)
    (hI : d2.LinkedWhile []) (hacc : d.accepts r = true) (hids : r2.sourceIds.toList = [k])
    (hfree : d.rebuildsShared (.repair r) = false) : (d2.removeDecoded k r.id).LinkedWhile [] := by
  refine Decoder.linkedWhile_removeDecoded hI fun ρ hρ hl => ?_
  obtain ⟨q, hq, hnew, hi⟩ := (hA.lists hρ).mp hl
  rw [← Bool.not_eq_true, rebuildsShared_of_only hacc (hA.sourceIds_eq ▸ hids)] at hfree
  exact hfree ⟨ρ, q, hq, hnew, hi⟩

/-- A repair that lists a source which is neither missing nor about to be stays as it is. -/
theorem unlinked_rule (ρ a : ℕ) : PeelRule b g
    (fun _ _ (d : Decoder w) => d.Lists ρ a ∧ d.missingSources.contains a = false)
    (fun _ d => d.Lists ρ a ∧ d.missingSources.contains a = false) where
  add := by
    rintro _ src d d1 d2 ⟨⟨r, hr, ha⟩, hno⟩ - ho hs
    have hdel := offer_delivers ho
    obtain ⟨heq, hstrip⟩ := stripFromRepairs_spec hs
    have hno1 : d1.missingSources.contains a = false := by rwa [missing_delivers hdel]
    have hr1 : d1.repairs.find? ρ = some r := by rwa [repairs_delivers hdel]
    have hm2 : d2.missingSources = d1.missingSources.erase src.id := by rw [heq]
    refine ⟨?_, by rw [hm2, OrdMap.contains_erase, hno1, Bool.and_false]⟩
    by_cases href : d1.References src.id ρ
    · obtain ⟨q, q', hq, hrm, hf⟩ := (hstrip ρ).1 href
      rw [hr1] at hq
      cases hq
      refine ⟨q', hf, ?_⟩
      obtain ⟨-, q1, -, rfl⟩ := removeSourceFromRepair_ok_iff.mp hrm
      refine FlatSet.mem_erase.mpr ⟨ha, ?_⟩
      rintro rfl
      rw [references_contains href] at hno1
      cases hno1
    · exact ⟨r, ((hstrip ρ).2 href).trans hr1, ha⟩
  decode := by
    rintro _ src d k ρ' r' y ⟨⟨r, hr, ha⟩, hno⟩ - hk - hids - -
    have hρ : ρ ≠ ρ' := by
      rintro rfl
      obtain ⟨-, hr', -⟩ := readyAt_eq_some.mp hk
      rw [hr] at hr'
      cases hr'
      rw [FlatSet.mem_iff, hids, List.mem_singleton] at ha
      rw [ha, references_contains (references_of_readyAt hk)] at hno
      cases hno
    refine ⟨⟨r, (OrdMap.find?_erase_ne hρ).trans hr, ha⟩, ?_⟩
    show (d.missingSources.erase k).contains a = false
    rw [OrdMap.contains_erase, hno, Bool.and_false]
  store := by
    rintro _ src d d' hI h
    rw [(store_spec h).2]
    exact hI

theorem unknown_of_useless (hdrops : Drops (firstId r) d d1) (h : d1.useless r = true) :
    (d.unknown r).toList = [] := by
  rw [List.eq_nil_iff_forall_not_mem]
  intro i hi
  obtain ⟨hi, hno⟩ := FlatSet.mem_filter.mp hi
  have hknown := List.all_eq_true.mp h i hi
  rw [hdrops.sources, OrdMap.contains_eraseBelow, Bool.and_eq_true] at hknown
  simp [hknown.2] at hno

/-- Rebuilding the only missing source of a repair keeps the links, if and only if no other repair
references it. -/
theorem linked_rebuild_iff (hI : d.Linked) (hacc : d.accepts r = true)
    (hA : Accepted r (firstId r) d d1 d2 r2) (hids : r2.sourceIds.toList = [src.id])
    (h : (d2.removeDecoded src.id r.id).addSourceRecursive b g src = .ok d') :
    d'.Linked ↔ d.rebuildsShared (.repair r) = false := by
  have hI2 := linked_accepted (linked_drops hI hA.drops) hI.listed hA
  have hL := listedStored_removeDecoded hI2.listed hA.stored hids
  have hshared := rebuildsShared_of_only hacc (hA.sourceIds_eq ▸ hids)
  constructor
  · intro hI'
    rw [← Bool.not_eq_true, hshared]
    rintro ⟨ρ, q, hq, hnew, hi⟩
    have hρ : ρ ≠ r.id := find?_of_contains_false (contains_of_accepts hacc) hq
    obtain ⟨q', hq', hi'⟩ := (hA.lists hρ).mpr ⟨q, hq, hnew, hi⟩
    have hkeep := (unlinked_rule ρ src.id).addSource hL
      ⟨⟨q', (OrdMap.find?_erase_ne hρ).trans hq', hi'⟩, by
        simp [removeDecoded, OrdMap.contains_erase]⟩ h
    rw [references_contains (hI'.stored _ _ hkeep.1)] at hkeep
    cases hkeep.2
  · intro hfree
    exact linked_addSource hL (hA.linkedWhile_removeDecoded
      (linked_iff_linkedWhile.mp hI2).2 hacc hids hfree) h

/-- Receiving keeps the links, if and only if no source is rebuilt directly while another repair
references it. -/
theorem linked_receive_iff (hI : d.Linked) (h : d.receive b g p = .ok d') :
    d'.Linked ↔ d.rebuildsShared p = false := by
  cases p with
  | source src =>
    refine iff_of_true ?_ rfl
    rcases receiveSource_cases h with ⟨rfl, -⟩ | ⟨-, -, d1, h1, h2⟩
    · exact hI
    · exact linked_attemptFullDecoding
        (linked_addSource hI.listed (linked_iff_linkedWhile.mp hI).2 h1) h2
  | repair r =>
    obtain ⟨-, ⟨rfl, hacc⟩ | ⟨hacc, ⟨d1, h1, huse, rfl⟩ | ⟨d1, d2, r2, ha, h2⟩⟩⟩ :=
      receiveRepair_cases h
    · exact iff_of_true hI (by simp [rebuildsShared, hacc])
    · obtain ⟨-, -, -, -, -, hdrops⟩ := dropOutdated_cases h1
      refine iff_of_true (linked_congr (d := d1) rfl rfl rfl (linked_drops hI hdrops)) ?_
      simp [rebuildsShared, unknown_of_useless hdrops huse]
    · have hA := ha.accepted (contains_of_accepts hacc)
      rcases h2 with ⟨hone, src, hc, hadd⟩ | ⟨hmany, hfull⟩
      · exact linked_rebuild_iff hI hacc hA (createSourceFromRepair_only hc hone) hadd
      · have hI2 := linked_accepted (linked_drops hI hA.drops) hI.listed hA
        refine iff_of_true (linked_attemptFullDecoding hI2 hfull) ?_
        rw [← Bool.not_eq_true]
        intro hshared
        apply hmany
        rw [hA.sourceIds_eq, FlatSet.size]
        simp only [rebuildsShared, Bool.and_eq_true] at hshared
        split at hshared
        · next hids => rw [hids]; rfl
        · cases hshared.2

theorem linked_initial (inOrder : Bool) : (initial inOrder : Decoder w).Linked := by
  refine ⟨?_, listedStored_initial inOrder, fun i hi => ?_⟩
  · rintro i ρ ⟨r, hr, -⟩
    cases hr
  · cases hi

theorem linked_reachable {inOrder : Bool}
    (h : Run (receive b g) (fun d p => d.rebuildsShared p = false) (initial inOrder) ps d) :
    d.Linked :=
  h.invariant Linked (fun _ _ _ hI hc hs => (linked_receive_iff hI hs).mpr hc)
    (linked_initial inOrder)

/-- The links are kept in every run that rebuilds no source directly while another repair
references it, and lost by the first step that does. -/
theorem linked_run {inOrder : Bool}
    (h : Run (receive b g) (fun d p => d.rebuildsShared p = false) (initial inOrder) ps d) :
    d.Linked ∧ ∀ p d', d.receive b g p = .ok d' → (d'.Linked ↔ d.rebuildsShared p = false) :=
  ⟨linked_reachable h, fun _ _ hs => linked_receive_iff (linked_reachable h) hs⟩

theorem linked_run_growingCalls : ∃ d,
    runWhile (receive .release gf16) (fun d p => d.rebuildsShared p = false) (initial false)
      (arrivals .release (packets .release gf16 growingCalls) [3]) = some d ∧
    d.Lists 1 0 ∧ d.Linked := by
  have hrun : (runWhile (receive .release gf16) (fun d p => d.rebuildsShared p = false)
      (initial false) (arrivals .release (packets .release gf16 growingCalls) [3])).any
        (fun d => (d.repairs.find? 1).any fun r => decide (0 ∈ r.sourceIds)) = true := by
    decide +kernel
  obtain ⟨d, hd, hlists⟩ := (Option.any_eq_true _ _).mp hrun
  refine ⟨d, hd, ?_, (linked_run (run_of_runWhile hd)).1⟩
  obtain ⟨r, hr, hi⟩ := (Option.any_eq_true _ _).mp hlists
  exact ⟨r, hr, by simpa using hi⟩

/-- The late repair of source 0 rebuilds it, and the other repair still references it. -/
theorem growingCalls_not_linked :
    ∃ d, deliver .release gf16 false growingCalls [3, 1] = .ok d ∧ ¬ d.Linked := by
  have hrun : (deliver .release gf16 false growingCalls [3, 1]).toOption.any
      (fun d => !d.missingSources.contains 0 &&
        (d.repairs.find? 1).any fun r => decide (0 ∈ r.sourceIds)) = true := by
    decide +kernel
  obtain ⟨d, hd, hbad⟩ := exists_ok_of_any hrun
  refine ⟨d, hd, fun hI => ?_⟩
  rw [Bool.and_eq_true, Bool.not_eq_true'] at hbad
  obtain ⟨r, hr, hi⟩ := (Option.any_eq_true _ _).mp hbad.2
  rw [references_contains (hI.stored 0 1 ⟨r, hr, by simpa using hi⟩)] at hbad
  cases hbad.1

end Netcode.Detail.Decoder
