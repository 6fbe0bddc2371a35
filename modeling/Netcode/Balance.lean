import Netcode.Balance.Links
import Netcode.Library.Equations

/-! How many repairs and missing sources are left of what is received, and when every missing source
stays referenced. -/
namespace Netcode.Detail.Decoder

open Containers Equations Incidence Runs

variable {w : FieldSize} {b : Build} {g : GfComplete w} {d d' d1 d2 : Decoder w}
  {src : DecoderSource} {r r2 : DecoderRepair} {p : Incoming} {ps : List Incoming}
  {pending : List DecoderSource} {i k ρ : ℕ}

/-- The links of the stored repairs that stay next to an incoming one. -/
def keptLinks (d : Decoder w) (r : DecoderRepair) : OrdMap ℕ (FlatSet ℕ) :=
  d.links.filter fun _ s => !s.toList.any fun i => decide (i < firstId r)

/-- Receiving it leads to the attempt of a full decoding. -/
def attempts (d : Decoder w) : Incoming → Bool
  | .source src => !d.outdated src.id && !d.sources.contains src.id
  | .repair r => d.accepts r && decide (1 < (d.unknown r).size)

/-- The links after what is received was added, and before a full decoding. -/
def linksWith (d : Decoder w) : Incoming → OrdMap ℕ (FlatSet ℕ)
  | .source src =>
    if d.outdated src.id || d.sources.contains src.id then d.links
    else settle (without src.id d.links)
  | .repair r =>
    if !d.accepts r then d.links
    else if 1 < (d.unknown r).size then (d.keptLinks r).insert r.id (d.unknown r)
    else if (d.unknown r).size = 1 then settle (d.keptLinks r)
    else d.keptLinks r

/-- Every missing source that is not outdated is referenced by what is received or by a repair that
stays. -/
def covers (d : Decoder w) : Incoming → Bool
  | .source _ => true
  | .repair r => !d.accepts r || d.missingSources.keys.all fun i =>
      decide (i < firstId r ∨ i ∈ d.unknown r ∨ i ∈ listed (d.keptLinks r))

/-- There are fewer repairs than sources they list, neither, or as many of both when a full decoding
is attempted. -/
def countsWith (d : Decoder w) (p : Incoming) : Bool :=
  decide ((d.linksWith p).size = 0 ∨ (d.linksWith p).size < (listed (d.linksWith p)).card ∨
    d.attempts p = true ∧ (d.linksWith p).size = (listed (d.linksWith p)).card)

/-- An incoming repair makes a stored one outdated. -/
def drops (d : Decoder w) : Incoming → Bool
  | .source _ => false
  | .repair r => d.accepts r && d.repairs.entries.any fun e => decide (Old (firstId r) e.2)

/-- What is received neither rebuilds a source that another repair references, nor makes a full
decoding fail whose last repair is the only one to reference a source. If it drops repairs, it neither
orphans a missing source nor leaves more repairs than missing sources. -/
structure Balances (g : GfComplete w) (d : Decoder w) (p : Incoming) : Prop where
  unshared : d.rebuildsShared p = false
  covered : d.drops p = true → d.covers p = true
  counted : d.drops p = true → d.countsWith p = true
  survives : Survives (coef g) (d.linksWith p)

theorem linked_of_addSource (hI : d.Linked) (h : d.addSourceRecursive b g src = .ok d') :
    d'.Linked :=
  linked_addSource hI.listed (linked_iff_linkedWhile.mp hI).2 h

/-- What adding a source makes of the numbers of repairs and of missing sources. -/
theorem balanced_addSource (hI : d.Balanced) (h : d.addSourceRecursive b g src = .ok d') :
    d'.Linked ∧ d'.Referenced ∧ d'.repairs.size ≤ d'.missingSources.size ∧
      (d'.missingSources.size = d'.repairs.size → 0 < d'.missingSources.size →
        2 ≤ d'.missingSources.size) := by
  have hlinked := linked_of_addSource hI.linked h
  have href : d'.Referenced := referenced_rule.addSource hI.linked.listed
    (fun i _ hi => hI.referenced i hi) h
  refine ⟨hlinked, href, ?_, several_of_idle hlinked href
    (settled_addSource hI.linked.listed h).idle⟩
  have hdiff := (difference_rule (d.missingSources.erase src.id).size d.repairs.size).addSource
    hI.linked.listed (Nat.add_comm _ _) h
  have herase : d.missingSources.size ≤ (d.missingSources.erase src.id).size + 1 := by
    cases hm : d.missingSources.find? src.id with
    | none =>
      rw [OrdMap.erase_of_find?_none hm]
      exact Nat.le_succ _
    | some cits => exact (OrdMap.size_erase hm).ge
  have hcounted := hI.counted
  rw [Counted] at hcounted
  omega

theorem mem_keptLinks {s : FlatSet ℕ} : (d.keptLinks r).find? ρ = some s ↔
    ∃ q, d.repairs.find? ρ = some q ∧ ¬ Old (firstId r) q ∧ q.sourceIds = s := by
  rw [keptLinks, OrdMap.find?_eq_some_filter, find?_links]
  have hold : ∀ q : DecoderRepair,
      (!q.sourceIds.toList.any fun i => decide (i < firstId r)) = true ↔ ¬ Old (firstId r) q := by
    intro q
    rw [Bool.not_eq_true', ← Bool.not_eq_true, List.any_eq_true]
    simp only [decide_eq_true_eq]
    rfl
  constructor
  · rintro ⟨⟨q, hq, rfl⟩, hs⟩
    exact ⟨q, hq, (hold q).mp hs, rfl⟩
  · rintro ⟨q, hq, hs, rfl⟩
    exact ⟨⟨q, hq, rfl⟩, (hold q).mpr hs⟩

theorem links_drops (h : Drops (firstId r) d d1) : d1.links = d.keptLinks r := by
  apply OrdMap.ext_find?
  intro ρ
  apply Option.ext
  intro s
  rw [find?_links, mem_keptLinks]
  exact exists_congr fun q => by rw [h.repairs, and_assoc]

theorem linksWith_source (ho : d.outdated src.id = false) (hs : d.sources.contains src.id = false) :
    d.linksWith (.source src) = settle (without src.id d.links) := by
  rw [linksWith, ho, hs]
  rfl

/-- Counting the links is counting the repairs and the missing sources. -/
theorem counted_of_links (hI : d.Linked) (href : d.Referenced) (h : d.links.size = 0 ∨
    d.links.size < (listed d.links).card) : d.Counted := by
  rw [Counted, size_missing_eq hI href]
  have hsize : d.links.size = d.repairs.size := OrdMap.size_map _ _
  rw [hsize] at h
  refine h.imp (fun hzero => ⟨hzero, ?_⟩) id
  rw [← size_missing_eq hI href]
  exact missing_empty_of_repairs_empty hI href hzero

/-- A missing source that stays is referenced by a repair that stays, or by the incoming one. -/
theorem covers_iff (hacc : d.accepts r = true) : d.covers (.repair r) = true ↔
    ∀ i, d.missingSources.contains i = true → firstId r ≤ i →
      i ∈ d.unknown r ∨ i ∈ listed (d.keptLinks r) := by
  simp only [covers, hacc, Bool.not_true, Bool.false_or, List.all_eq_true, decide_eq_true_eq,
    ← OrdMap.contains_iff_mem_keys, ← not_le, or_iff_not_imp_left, not_not]

theorem not_old (h : d.drops (.repair r) = false) (hacc : d.accepts r = true) (ρ : ℕ)
    (q : DecoderRepair) (hq : d.repairs.find? ρ = some q) : ¬ Old (firstId r) q := by
  rw [drops, hacc, Bool.true_and, List.any_eq_false] at h
  exact fun ho => h (ρ, q) (OrdMap.mem_entries_iff.mpr hq) (decide_eq_true ho)

theorem keptLinks_eq (h : ∀ ρ q, d.repairs.find? ρ = some q → ¬ Old (firstId r) q) :
    d.keptLinks r = d.links := by
  apply OrdMap.ext_find?
  intro ρ
  apply Option.ext
  intro s
  rw [mem_keptLinks, find?_links]
  refine exists_congr fun q => and_congr_right fun hq => ?_
  exact and_iff_right (h ρ q hq)

theorem size_insert_new {m : OrdMap ℕ (FlatSet ℕ)} {s : FlatSet ℕ} (h : m.find? k = none) :
    (m.insert k s).size = m.size + 1 := by
  have herase : (m.insert k s).erase k = m := by
    apply OrdMap.ext_find?
    intro j
    rw [OrdMap.find?_erase, OrdMap.find?_insert]
    split
    · next hj => rw [hj, h]
    · rfl
  rw [← OrdMap.size_erase (m := m.insert k s) OrdMap.find?_insert_self, herase]

/-- What drops no repair leaves fewer of them than missing sources, or as many before a full
decoding. -/
theorem counts_of_balanced (hI : d.Balanced) (h : d.drops p = false) : d.countsWith p = true := by
  have hbase : d.links.size = 0 ∨ d.links.size < (listed d.links).card := by
    rw [← size_missing_eq hI.linked hI.referenced, links, OrdMap.size_map]
    exact hI.counted.imp And.left id
  have hstep : ∀ L : OrdMap ℕ (FlatSet ℕ), L.size = 0 ∨ L.size < (listed L).card →
      (settle L).size = 0 ∨ (settle L).size < (listed (settle L)).card := by
    intro L hL
    have hcard := card_listed_settle L
    have hsize := card_isolated L
    omega
  rw [countsWith, decide_eq_true_eq]
  cases p with
  | source src =>
    by_cases hs : (d.outdated src.id || d.sources.contains src.id) = true
    · rw [linksWith, if_pos hs]
      exact hbase.imp id Or.inl
    · rw [linksWith, if_neg hs, attempts]
      have hattempts : (!d.outdated src.id && !d.sources.contains src.id) = true := by
        simpa [Bool.or_eq_false_iff] using hs
      have hone := card_listed_without src.id d.links
      have hsize : (without src.id d.links).size = d.links.size := OrdMap.size_map _ _
      have hcard := card_listed_settle (without src.id d.links)
      have hless := card_isolated (without src.id d.links)
      simp only [hattempts, true_and]
      omega
  | repair r =>
    cases hacc : d.accepts r with
    | false =>
      rw [linksWith, hacc]
      exact hbase.imp id Or.inl
    | true =>
      rw [linksWith, hacc, keptLinks_eq (not_old h hacc), attempts, hacc]
      simp only [Bool.not_true, Bool.false_eq_true, if_false, Bool.true_and]
      split
      · next hmany =>
        have hsize : (d.links.insert r.id (d.unknown r)).size = d.links.size + 1 := by
          apply size_insert_new
          rw [links, OrdMap.find?_map, OrdMap.contains_eq_false_iff.mp (contains_of_accepts hacc)]
          rfl
        have hlinks : listed d.links ⊆ listed (d.links.insert r.id (d.unknown r)) := by
          intro i hi
          obtain ⟨ρ, s, hs, his⟩ := mem_listed.mp hi
          refine mem_listed.mpr ⟨ρ, s, (OrdMap.find?_insert_ne ?_).trans hs, his⟩
          rintro rfl
          obtain ⟨q, hq, -⟩ := find?_links.mp hs
          rw [OrdMap.contains_eq_false_iff.mp (contains_of_accepts hacc)] at hq
          cases hq
        have hunknown : (d.unknown r).toFinset ⊆ listed (d.links.insert r.id (d.unknown r)) :=
          fun i hi => mem_listed.mpr ⟨r.id, _, OrdMap.find?_insert_self, FlatSet.mem_toFinset.mp hi⟩
        have hcard := Finset.card_le_card hlinks
        have htwo := Finset.card_le_card hunknown
        rw [FlatSet.toFinset, List.toFinset_card_of_nodup (d.unknown r).nodup] at htwo
        simp only [decide_eq_true hmany, true_and]
        rw [FlatSet.size] at hmany
        omega
      · split
        · exact (hstep _ hbase).imp id Or.inl
        · exact hbase.imp id Or.inl

/-- What drops no repair leaves every missing source referenced. -/
theorem covers_of_balanced (hI : d.Balanced) (h : d.drops p = false) : d.covers p = true := by
  cases p with
  | source src => rfl
  | repair r =>
    cases hacc : d.accepts r with
    | false => rw [covers, hacc]; rfl
    | true =>
      rw [covers_iff hacc, keptLinks_eq (not_old h hacc)]
      exact fun i hi _ => Or.inr ((missing_iff_listed hI.linked hI.referenced).mp hi)

theorem Balances.covers (hb : d.Balances g p) (hI : d.Balanced) : d.covers p = true := by
  cases hdrops : d.drops p with
  | false => exact covers_of_balanced hI hdrops
  | true => exact hb.covered hdrops

theorem Balances.counts (hb : d.Balances g p) (hI : d.Balanced) : d.countsWith p = true := by
  cases hdrops : d.drops p with
  | false => exact counts_of_balanced hI hdrops
  | true => exact hb.counted hdrops

theorem referenced_drops (hI : d1.Linked) (hdrops : Drops (firstId r) d d1)
    (h : i ∈ listed (d.keptLinks r)) : ∃ ρ, d1.References i ρ := by
  rw [← links_drops hdrops, mem_listed_links] at h
  obtain ⟨ρ, hl⟩ := h
  exact ⟨ρ, hI.stored i ρ hl⟩

/-- A useless repair may still drop others. -/
theorem balanced_useless (hI : d.Balanced) (hacc : d.accepts r = true)
    (hdrops : Drops (firstId r) d d1) (huse : d1.useless r = true)
    (hb : d.Balances g (.repair r)) : d1.Balanced := by
  have hlinked := linked_drops hI.linked hdrops
  have hnone : (d.unknown r).size = 0 := by rw [FlatSet.size, unknown_of_useless hdrops huse]; rfl
  have href : d1.Referenced := by
    intro i hi
    obtain ⟨hle, hmissing⟩ := (hdrops.missing i).mp hi
    refine referenced_drops hlinked hdrops ?_
    refine ((covers_iff hacc).mp (hb.covers hI) i hmissing hle).resolve_left fun hu => ?_
    have := FlatSet.size_pos_iff.mpr ⟨i, hu⟩
    omega
  have hlinks : d.linksWith (.repair r) = d1.links := by
    rw [links_drops hdrops, linksWith, hacc, hnone]
    rfl
  have hcounted := hb.counts hI
  rw [countsWith, hlinks, attempts, hacc, hnone] at hcounted
  refine ⟨hlinked, counted_of_links hlinked href ?_, href⟩
  simpa using hcounted

/-- The links once an incoming repair is linked. -/
theorem links_accepted (hA : Accepted r (firstId r) d d1 d2 r2) :
    d2.links = (d.keptLinks r).insert r.id (d.unknown r) := by
  apply OrdMap.ext_find?
  intro ρ
  rw [OrdMap.find?_insert, ← links_drops hA.drops, links, links, OrdMap.find?_map, OrdMap.find?_map]
  split
  · next hρ => rw [hρ, hA.stored, Option.map_some, hA.sourceIds_eq]
  · next hρ => rw [hA.repairs ρ hρ]

theorem referenced_accepted (hI : d.Balanced) (hacc : d.accepts r = true)
    (hA : Accepted r (firstId r) d d1 d2 r2) (hc : d.covers (.repair r) = true) :
    d2.Referenced := by
  intro i hi
  by_cases hr2 : i ∈ r2.sourceIds
  · exact ⟨r.id, (hA.references i r.id).mpr (Or.inr ⟨rfl, hr2⟩)⟩
  · obtain ⟨hle, hmissing⟩ := (hA.drops.missing i).mp (((hA.missing i).mp hi).resolve_right hr2)
    obtain ⟨ρ, hρ⟩ := referenced_drops (linked_drops hI.linked hA.drops) hA.drops
      (((covers_iff hacc).mp hc i hmissing hle).resolve_left (hA.sourceIds_eq ▸ hr2))
    exact ⟨ρ, (hA.references i ρ).mpr (Or.inl hρ)⟩

/-- A repair of several missing sources is linked to them. -/
theorem balanced_accepted (hI : d.Balanced) (hacc : d.accepts r = true)
    (hA : Accepted r (firstId r) d d1 d2 r2) (hmany : 1 < r2.sourceIds.size)
    (hb : d.Balances g (.repair r)) :
    d2.Linked ∧ d2.Referenced ∧ d2.repairs.size ≤ d2.missingSources.size ∧
      2 ≤ d2.missingSources.size ∧ d2.links = d.linksWith (.repair r) := by
  have hlinked := linked_accepted (linked_drops hI.linked hA.drops) hI.linked.listed hA
  have href := referenced_accepted hI hacc hA (hb.covers hI)
  have hunknown : 1 < (d.unknown r).size := hA.sourceIds_eq ▸ hmany
  have hlinks : d2.links = d.linksWith (.repair r) := by
    rw [links_accepted hA, linksWith, hacc, if_pos hunknown]
    rfl
  have hsize : d2.links.size = d2.repairs.size := OrdMap.size_map _ _
  have hmissing := size_missing_eq hlinked href
  refine ⟨hlinked, href, ?_, ?_, hlinks⟩
  · have hcounted := hb.counts hI
    rw [countsWith, decide_eq_true_eq, ← hlinks] at hcounted
    omega
  · have hsub : r2.sourceIds.toFinset ⊆ listed d2.links := fun i hi =>
      mem_listed_links.mpr ⟨r.id, r2, hA.stored, FlatSet.mem_toFinset.mp hi⟩
    have hcard := Finset.card_le_card hsub
    rw [FlatSet.toFinset, List.toFinset_card_of_nodup r2.sourceIds.nodup] at hcard
    rw [FlatSet.size] at hmany
    omega

/-- A repair of one missing source rebuilds it. -/
theorem balanced_rebuild (hI : d.Balanced) (hacc : d.accepts r = true)
    (hA : Accepted r (firstId r) d d1 d2 r2) (hone : r2.sourceIds.toList = [k]) (hsrc : src.id = k)
    (hb : d.Balances g (.repair r))
    (h : (d2.removeDecoded k r.id).addSourceRecursive b g src = .ok d') : d'.Balanced := by
  subst hsrc
  have hlinked2 := linked_accepted (linked_drops hI.linked hA.drops) hI.linked.listed hA
  have hL := listedStored_removeDecoded hlinked2.listed hA.stored hone
  have hwhile := hA.linkedWhile_removeDecoded (linked_iff_linkedWhile.mp hlinked2).2 hacc hone
    hb.unshared
  have hlinked := linked_addSource hL hwhile h
  have href : d'.Referenced := by
    refine referenced_rule.addSource hL (fun i hne hi => ?_) h
    obtain ⟨ρ, hρ⟩ := referenced_accepted hI hacc hA (hb.covers hI) i (contains_of_erase hi)
    exact ⟨ρ, (references_erase (d := d2) rfl rfl).mpr ⟨hne, hρ⟩⟩
  have hkept : (d2.removeDecoded src.id r.id).links = d.keptLinks r := by
    apply OrdMap.ext_find?
    intro ρ
    rw [← links_drops hA.drops, links, links, OrdMap.find?_map, OrdMap.find?_map, removeDecoded,
      OrdMap.find?_erase]
    split
    · next hρ => rw [hρ, OrdMap.contains_eq_false_iff.mp hA.new]
    · next hρ => rw [hA.repairs ρ hρ]
  have hunlisted : src.id ∉ listed (d2.removeDecoded src.id r.id).links := by
    intro hi
    obtain ⟨ρ, hl⟩ := mem_listed_links.mp hi
    have hmissing := references_contains (hwhile.stored src.id ρ hl)
    rw [not_missing_removeDecoded] at hmissing
    cases hmissing
  have hsize : (d.unknown r).size = 1 := FlatSet.size_eq_one_iff.mpr ⟨_, hA.sourceIds_eq ▸ hone⟩
  have hlinks : d'.links = d.linksWith (.repair r) := by
    rw [links_addSource hL hwhile h, without_of_not_listed hunlisted, hkept, linksWith, hacc, hsize]
    rfl
  have hcounted := hb.counts hI
  rw [countsWith, ← hlinks, attempts, hacc, hsize] at hcounted
  exact ⟨hlinked, counted_of_links hlinked href (by simpa using hcounted), href⟩

theorem balanced_receive (hI : d.Balanced) (hb : d.Balances g p) (h : d.receive b g p = .ok d') :
    d'.Balanced := by
  cases p with
  | source src =>
    rcases receiveSource_cases h with ⟨rfl, -⟩ | ⟨ho, hs, d1, h1, h2⟩
    · exact hI
    · obtain ⟨hlinked, href, hle, htwo⟩ := balanced_addSource hI h1
      have hsurvives := hb.survives
      rw [linksWith_source ho hs, ← links_addSource hI.linked.listed
        (linked_iff_linkedWhile.mp hI.linked).2 h1] at hsurvives
      exact balanced_attempt hlinked href hle htwo hsurvives h2
  | repair r =>
    obtain ⟨-, ⟨rfl, -⟩ | ⟨hacc, ⟨d1, h1, huse, rfl⟩ | ⟨d1, d2, r2, ha, h2⟩⟩⟩ :=
      receiveRepair_cases h
    · exact hI
    · obtain ⟨-, -, -, -, -, hdrops⟩ := dropOutdated_cases h1
      obtain ⟨hlinked, hcounted, href⟩ := balanced_useless hI hacc hdrops huse hb
      exact ⟨linked_congr (d := d1) rfl rfl rfl hlinked, hcounted, href⟩
    · have hA := ha.accepted (contains_of_accepts hacc)
      rcases h2 with ⟨hone, src, hc, hadd⟩ | ⟨hmany, hfull⟩
      · exact balanced_rebuild hI hacc hA (createSourceFromRepair_only hc hone) rfl hb hadd
      · obtain ⟨i, hi, hunknown⟩ := exists_unknown ha.useful
        have hpos := FlatSet.size_pos_iff.mpr ⟨i, (hA.ids i).mpr ⟨hi, hunknown⟩⟩
        obtain ⟨hlinked, href, hle, htwo, hlinks⟩ :=
          balanced_accepted hI hacc hA (by omega) hb
        exact balanced_attempt hlinked href hle (fun _ _ => htwo) (hlinks ▸ hb.survives) hfull

theorem balanced_initial (inOrder : Bool) : (initial inOrder : Decoder w).Balanced :=
  ⟨linked_initial inOrder, Or.inl ⟨rfl, rfl⟩, fun i hi => by cases hi⟩

/-- A full decoding is attempted from this state when something is received. -/
inductive Attempts (b : Build) (g : GfComplete w) (d : Decoder w) : Incoming → Decoder w → Prop
  | source {src : DecoderSource} {d1 : Decoder w} (ho : d.outdated src.id = false)
      (hs : d.sources.contains src.id = false) (h : d.addSourceRecursive b g src = .ok d1) :
      Attempts b g d (.source src) d1
  | repair {r r2 : DecoderRepair} {d1 d2 : Decoder w} (hacc : d.accepts r = true)
      (ha : Accepts b g r (firstId r) d d1 d2 r2) (hmany : r2.sourceIds.size ≠ 1) :
      Attempts b g d (.repair r) d2

/-- The assertions of a full decoding hold. -/
theorem square_of_attempts (hI : d.Balanced) (hb : d.Balances g p) (h : Attempts b g d p d1)
    (he : d1.enoughRepairs = true) : d1.Square := by
  obtain ⟨-, hM, hge⟩ := enoughRepairs_iff.mp he
  cases h with
  | source ho hs h =>
    obtain ⟨hlinked, href, hle, htwo⟩ := balanced_addSource hI h
    have hsize := le_antisymm hge hle
    exact square_of_referenced hlinked href hsize (htwo hsize hM)
  | repair hacc ha hmany =>
    have hA := ha.accepted (contains_of_accepts hacc)
    obtain ⟨i, hi, hunknown⟩ := exists_unknown ha.useful
    have hpos := FlatSet.size_pos_iff.mpr ⟨i, (hA.ids i).mpr ⟨hi, hunknown⟩⟩
    obtain ⟨hlinked, href, hle, htwo, -⟩ := balanced_accepted hI hacc hA (by omega) hb
    exact square_of_referenced hlinked href (le_antisymm hge hle) htwo

/-- In every run whose steps meet the condition there are fewer repairs than missing sources or
neither, every missing source is referenced by a repair, and a full decoding is attempted with as
many repairs as missing sources, at least two, and no row of zeros. -/
theorem balanced_run {inOrder : Bool}
    (h : Run (receive b g) (fun d p => d.Balances g p) (initial inOrder) ps d) :
    d.Counted ∧ d.Referenced ∧ ∀ p d1, d.Balances g p → Attempts b g d p d1 →
      d1.enoughRepairs = true → d1.Square := by
  have hI := h.invariant Balanced (fun _ _ _ hI hb hs => balanced_receive hI hb hs)
    (balanced_initial inOrder)
  exact ⟨hI.counted, hI.referenced, fun p d1 hb ha he => square_of_attempts hI hb ha he⟩

theorem balanced_run_nestedCalls : ∃ d ps, Run (receive .release gf16)
      (fun d p => d.Balances gf16 p) (initial false) ps d ∧
    ps = arrivals .release (packets .release gf16 nestedCalls) [5, 2, 3] ∧
    d.repairs.size = 2 ∧ d.Counted ∧ d.Referenced := by
  have hrun : (runWhile (receive .release gf16) (fun d p => d.rebuildsShared p = false ∧
      d.covers p = true ∧ (d.linksWith p).size < (listed (d.linksWith p)).card) (initial false)
      (arrivals .release (packets .release gf16 nestedCalls) [5, 2, 3])).any
        (fun d => decide (d.repairs.size = 2)) = true := by
    decide +kernel
  obtain ⟨d, hd, hsize⟩ := (Option.any_eq_true _ _).mp hrun
  have hbalances := (run_of_runWhile hd).mono (D := fun d p => d.Balances gf16 p)
    fun s p hs => ⟨hs.1, fun _ => hs.2.1, fun _ => decide_eq_true (Or.inr (Or.inl hs.2.2)),
      fun heq => absurd heq hs.2.2.ne⟩
  obtain ⟨hcounted, href, -⟩ := balanced_run hbalances
  exact ⟨d, _, hbalances, rfl, by simpa using hsize, hcounted, href⟩

/-- The late repair of source 0 rebuilds it and erases it from the missing sources, which leaves one
repair for one missing source; the next source then fails an assertion in a debug build. -/
theorem growingCalls_not_balanced :
    (∃ d, deliver .release gf16 false growingCalls [3, 1] = .ok d ∧
      d.repairs.size = 1 ∧ d.missingSources.size = 1 ∧ ¬ d.Counted) ∧
    deliver .debug gf16 false growingCalls [3, 1, 4] = .error (.assertion .oneMissingSource) := by
  have hrun : (deliver .release gf16 false growingCalls [3, 1]).toOption.any
      (fun d => decide (d.repairs.size = 1 ∧ d.missingSources.size = 1)) = true := by
    decide +kernel
  obtain ⟨d, hd, hsizes⟩ := exists_ok_of_any hrun
  rw [decide_eq_true_eq] at hsizes
  refine ⟨⟨d, hd, hsizes.1, hsizes.2, fun hc => ?_⟩, by decide +kernel⟩
  rw [Counted] at hc
  omega

end Netcode.Detail.Decoder
