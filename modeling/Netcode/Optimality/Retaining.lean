import Netcode.Optimality.Adding
import Netcode.Watermark

/-! What a decoder retains of a packet: full decoding and the removal of old repairs lose nothing of
what it can tell, unless the packet is one that makes it forget. -/
namespace Netcode.Detail.Decoder

open Combinations Containers Equations Incidence Runs

variable {w : FieldSize} {b : Build} {g : GfComplete w} {v : ℕ → Gf g} {i : ℕ}
  {d d' d1 d2 u : Decoder w} {src : DecoderSource} {r r2 q : DecoderRepair} {p : Incoming}
  {k ρ first : ℕ}

/-- The values a column of the coefficients gives for the missing sources. -/
theorem sum_missing (hI : d.Linked) (hsize : d.repairs.size = d.missingSources.size)
    (v : ℕ → Gf g) (col : Fin d.repairs.size) :
    Matrix.vecMul (fun row : Fin d.repairs.size => v (d.missingSources.keys.getD row 0))
        (coefficientMatrix g d) col =
      combination (coef g d.repairs.entries[col].1) d.repairs.entries[col].2.sourceIds.toFinset
        v := by
  have hlen : d.missingSources.keys.length = d.repairs.size := (List.length_map _).trans hsize.symm
  have hlisted : d.repairs.entries[col].2.sourceIds.toFinset ⊆ d.missingSources.keys.toFinset := by
    intro i hi
    exact List.mem_toFinset.mpr (OrdMap.contains_iff_mem_keys.mp
      (references_contains (hI.stored i _ ⟨_, repairAt_find col, FlatSet.mem_toFinset.mp hi⟩)))
  rw [combination_eq_sum hlisted, List.sum_toFinset _ d.missingSources.keys_nodup,
    ← Fin.sum_univ_fun_getElem, Matrix.vecMul, dotProduct]
  refine (Fintype.sum_equiv (finCongr hlen) _ _ fun row => ?_).symm
  have hrow : d.missingSources.keys[(finCongr hlen row).val]? = some d.missingSources.keys[row] :=
    List.getElem?_eq_getElem row.isLt
  have hentry : coefficientMatrix g d (finCongr hlen row) col =
      if d.missingSources.keys[row] ∈ d.repairs.entries[col].2.sourceIds
        then coef g d.repairs.entries[col].1 d.missingSources.keys[row] else 0 := by
    rw [coefficientMatrix, Matrix.of_apply, coefficientAt, hrow,
      List.getElem?_eq_getElem col.isLt]
    dsimp only
    split
    · next hmem => exact (if_pos hmem).symm
    · next hmem => exact (if_neg hmem).symm
  rw [hentry, List.getD_eq_getElem?_getD, hrow, Option.getD_some, smul_eq_mul, mul_comm]
  simp only [FlatSet.mem_toFinset]
  rfl

/-- As many repairs as missing sources, with an invertible matrix, determine them. -/
theorem missing_zero (hI : d.Linked) (hsize : d.repairs.size = d.missingSources.size)
    (hunit : IsUnit (coefficientMatrix g d)) (h : d.SolvedBy v)
    (hi : d.missingSources.contains i = true) : v i = 0 := by
  have hzero : (fun row : Fin d.repairs.size => v (d.missingSources.keys.getD row 0)) = 0 := by
    apply Matrix.vecMul_injective_iff_isUnit.mpr hunit
    funext col
    refine (sum_missing hI hsize v col).trans (Eq.trans ?_ (congrFun (Matrix.zero_vecMul _) col).symm)
    exact h.stored _ _ (repairAt_find col)
  obtain ⟨row, hrow, rfl⟩ := List.mem_iff_getElem.mp (OrdMap.contains_iff_mem_keys.mp hi)
  have hlt : row < d.repairs.size := by
    rw [OrdMap.keys, List.length_map] at hrow
    exact hrow.trans_eq hsize.symm
  have hat := congrFun hzero ⟨row, hlt⟩
  rwa [List.getD_eq_getElem?_getD, List.getElem?_eq_getElem hrow, Option.getD_some] at hat

theorem solvedBy_decodeAll (hI : d.Linked) (hsize : d.repairs.size = d.missingSources.size)
    (hunit : IsUnit (coefficientMatrix g d)) (h : d.decodeAll b g = .ok d') :
    d'.SolvedBy v ↔ d.SolvedBy v := by
  obtain ⟨c, f, o, s, n, rfl, hcontains⟩ := decodeAll_decoding h
  constructor
  · rintro ⟨h1, h2, -⟩
    refine ⟨fun i hi => h1 i ((hcontains i).mpr (Or.inr hi)), h2, fun ρ r hr => ?_⟩
    refine combination_eq_zero fun i hi => h1 i ((hcontains i).mpr (Or.inl ?_))
    exact references_contains (hI.stored i ρ ⟨r, hr, FlatSet.mem_toFinset.mp hi⟩)
  · intro hd
    refine ⟨fun i hi => ?_, hd.outdated, fun ρ r hr => by cases hr⟩
    rcases (hcontains i).mp hi with hi | hi
    · exact missing_zero hI hsize hunit hd hi
    · exact hd.known i hi

/-- The repair a failed full decoding erases is a combination of the other ones. -/
theorem solvedBy_dropFaulty (hn : 0 < d.repairs.size) {f : Fin d.links.size → Gf g}
    (hf : Cancels (coef g) d.links f) (hlast : ∀ k : Fin d.links.size, k.val + 1 = d.links.size →
      f k ≠ 0) (h : d.dropFaulty (d.repairs.size - 1) = .ok d') :
    d'.SolvedBy v ↔ d.SolvedBy v := by
  obtain ⟨_, _, -, heq, -⟩ := dropFaulty_spec h
  obtain ⟨e, he, hrepairs⟩ := dropFaulty_entry h
  have hsize : d.links.size = d.repairs.size := OrdMap.size_map _ _
  have hentry : d.links.entries[d.repairs.size - 1]? = some (e.1, e.2.sourceIds) := by
    rw [links, OrdMap.map, List.getElem?_map, he]
    rfl
  obtain ⟨hlt, hat⟩ := List.getElem?_eq_some_iff.mp hentry
  have hj : f ⟨d.repairs.size - 1, hlt⟩ ≠ 0 := hlast ⟨d.repairs.size - 1, hlt⟩
    ((Nat.sub_add_cancel hn).trans hsize.symm)
  have hsat := satisfies_erase_entry (v := v) hf hj
  rw [Fin.getElem_fin, hat] at hsat
  have hlinks : d'.links = d.links.erase e.1 := by
    apply OrdMap.ext_find?
    intro ρ
    rw [links, links, hrepairs, OrdMap.find?_map, OrdMap.find?_erase, OrdMap.find?_erase,
      OrdMap.find?_map]
    split <;> rfl
  rw [← hlinks, satisfies_links, satisfies_links] at hsat
  have hs : d'.sources = d.sources := by rw [heq]
  have hl : d'.lastId = d.lastId := by rw [heq]
  constructor
  · rintro ⟨h1, h2, h3⟩
    rw [hs] at h1
    exact ⟨h1, fun i hi => h2 i ((outdated_congr hl).trans hi), hsat.mp h3⟩
  · rintro ⟨h1, h2, h3⟩
    rw [← hs] at h1
    exact ⟨h1, fun i hi => h2 i ((outdated_congr hl).symm.trans hi), hsat.mpr h3⟩

/-- A full decoding says nothing new, and forgets nothing. -/
theorem solvedBy_attempt (hI : d.Linked) (href : d.Referenced)
    (hle : d.repairs.size ≤ d.missingSources.size)
    (htwo : d.missingSources.size = d.repairs.size → 0 < d.missingSources.size →
      2 ≤ d.missingSources.size)
    (hs : SparesEquation (coef g) d.links) (h : d.attemptFullDecoding b g = .ok d') :
    d'.SolvedBy v ↔ d.SolvedBy v := by
  cases he : d.enoughRepairs with
  | false =>
    rw [attemptFullDecoding, he] at h
    cases h
    rfl
  | true =>
    obtain ⟨hR, hM, hge⟩ := enoughRepairs_iff.mp he
    have hsize : d.missingSources.size = d.repairs.size := le_antisymm hge hle
    obtain ⟨blamed, m, heq, -, hblamed, hiff, -⟩ :=
      attemptFullDecoding_eq (b := b) (g := g) (htwo hsize hM) hsize.symm
    rw [heq] at h
    have hset : ({ d with coefficients := m.mat, inv := m.inv } : Decoder w).SolvedBy v ↔
        d.SolvedBy v := solvedBy_congr rfl rfl rfl
    have hI' : ({ d with coefficients := m.mat, inv := m.inv } : Decoder w).Linked :=
      linked_congr (d := d) rfl rfl rfl hI
    rw [← hset]
    cases blamed with
    | none => exact solvedBy_decodeAll hI' hsize.symm (hiff.mp rfl) h
    | some k =>
      have hk : k = d.repairs.size - 1 := by simpa using hblamed
      subst hk
      have hsingular : ¬ IsUnit (coefficientMatrix g d) := fun hu => by cases hiff.mpr hu
      have hcard : d.links.size = (listed d.links).card := by
        rw [← size_missing_eq hI href, hsize]
        exact OrdMap.size_map _ _
      obtain ⟨f, hf, hlast⟩ := hs hcard (dependent_of_not_isUnit hI hsize hsingular)
      exact solvedBy_dropFaulty (d := { d with coefficients := m.mat, inv := m.inv }) hR hf hlast h

/-- An incoming repair references a forgotten source, or drops a stored repair. -/
def forgets (d : Decoder w) : Incoming → Bool
  | .source _ => false
  | .repair r => d.accepts r && (d.outdated (firstId r) ||
      d.repairs.entries.any fun e => decide (Old (firstId r) e.2))

/-- A late repair moves the oldest identifier to keep backwards. -/
def retreats (d : Decoder w) : Incoming → Bool
  | .source _ => false
  | .repair r => d.accepts r && d.outdated (firstId r)

/-- What is received neither rebuilds a source that another repair references, nor references a
forgotten source, nor drops a repair: as outdated, or in a failed full decoding unless it is a
combination of the other ones. -/
structure Retains (g : GfComplete w) (d : Decoder w) (p : Incoming) : Prop where
  unshared : d.rebuildsShared p = false
  remembers : d.forgets p = false
  spares : SparesEquation (coef g) (d.linksWith p)

theorem forgets_eq_false (h : d.forgets (.repair r) = false) (hacc : d.accepts r = true) :
    d.outdated (firstId r) = false ∧
      ∀ ρ q, d.repairs.find? ρ = some q → ¬ Old (firstId r) q := by
  rw [forgets, hacc, Bool.true_and, Bool.or_eq_false_iff, List.any_eq_false] at h
  refine ⟨h.1, fun ρ q hq ho => ?_⟩
  exact h.2 (ρ, q) (OrdMap.mem_entries_iff.mpr hq) (decide_eq_true ho)

theorem drops_of_forgets (h : d.forgets p = false) : d.drops p = false := by
  cases p with
  | source src => rfl
  | repair r =>
    rw [forgets, Bool.and_or_distrib_left, Bool.or_eq_false_iff] at h
    exact h.2

theorem not_retreats (h : d.forgets p = false) : d.retreats p = false := by
  cases p with
  | source src => rfl
  | repair r =>
    cases hacc : d.accepts r with
    | false => rw [retreats, hacc, Bool.false_and]
    | true => rw [retreats, hacc, (forgets_eq_false h hacc).1, Bool.and_false]

theorem balances_of_retains (h : d.Retains g p) : d.Balances g p := by
  have hdrops : ¬ d.drops p = true := by
    rw [drops_of_forgets h.remembers]
    exact Bool.false_ne_true
  exact ⟨h.unshared, fun hd => absurd hd hdrops, fun hd => absurd hd hdrops,
    survives_of_spares coef_ne_zero h.spares⟩

/-- Linking an incoming repair adds what it says, and that the sources before it are forgotten. -/
theorem solvedBy_accepted (ha : Accepts b g r (firstId r) d d1 d2 r2) (hacc : d.accepts r = true)
    (hr : d.forgets (.repair r) = false) : d2.SolvedBy v ↔ d.SolvedBy v ∧
      combination (coef g r.id) r.sourceIds.toFinset v = 0 ∧ ∀ i < firstId r, v i = 0 := by
  obtain ⟨hlast, hold⟩ := forgets_eq_false hr hacc
  have hA := ha.accepted (contains_of_accepts hacc)
  rw [solvedBy_linkLoop ha.link, solvedBy_insertRepair hA.new, solvedBy_drops hA.drops hold hlast]
  tauto

theorem outdated_sourceIds (h : d.outdated (r.sourceIds.toList.getLastD 0) = true)
    (hi : i ∈ r.sourceIds) : d.outdated i = true := by
  obtain ⟨l, hl, hlast⟩ := outdated_iff.mp h
  refine outdated_iff.mpr ⟨l, hl, lt_of_le_of_lt ?_ hlast⟩
  rw [List.getLastD_eq_getLast?, List.getLast?_eq_some_getLast (List.ne_nil_of_mem hi),
    Option.getD_some]
  exact r.sourceIds.sorted.imp le_of_lt |>.rel_getLast hi

/-- Receiving adds to what the decoder can tell exactly what is received says, and that outdated
sources are forgotten. -/
theorem solvedBy_receive (hI : d.Balanced) (hr : d.Retains g p)
    (hdup : ∀ r, p = .repair r → d.repairs.contains r.id = true → d.SolvedBy v → p.SolvedBy v)
    (h : d.receive b g p = .ok d') : d'.SolvedBy v ↔
      d.SolvedBy v ∧ p.SolvedBy v ∧ ∀ i, d'.outdated i = true → v i = 0 := by
  have hb := balances_of_retains hr
  cases p with
  | source src =>
    rcases receiveSource_cases h with ⟨rfl, hold⟩ | ⟨ho, hs, d1, h1, h2⟩
    · refine ⟨fun hd => ⟨hd, ?_, hd.outdated⟩, fun hd => hd.1⟩
      exact hold.elim (hd.outdated _) (hd.known _)
    · obtain ⟨hlinked, href, hle, htwo⟩ := balanced_addSource hI h1
      have hspares := hr.spares
      rw [linksWith_source ho hs, ← links_addSource hI.linked.listed
        (linked_iff_linkedWhile.mp hI.linked).2 h1] at hspares
      have hiff : d'.SolvedBy v ↔ d.SolvedBy v ∧ v src.id = 0 :=
        (solvedBy_attempt hlinked href hle htwo hspares h2).trans
          (solvedBy_addSource hI.linked.listed h1)
      exact ⟨fun hd => ⟨(hiff.mp hd).1, (hiff.mp hd).2, hd.outdated⟩,
        fun hd => hiff.mpr ⟨hd.1, hd.2.1⟩⟩
  | repair r =>
    obtain ⟨-, ⟨rfl, hacc⟩ | ⟨hacc, hcases⟩⟩ := receiveRepair_cases h
    · refine ⟨fun hd => ⟨hd, ?_, hd.outdated⟩, fun hd => hd.1⟩
      cases hlast : d'.outdated (r.sourceIds.toList.getLastD 0) with
      | true =>
        exact combination_eq_zero fun i hi =>
          hd.outdated i (outdated_sourceIds hlast (FlatSet.mem_toFinset.mp hi))
      | false =>
        rw [accepts, hlast, Bool.not_false, Bool.true_and, Bool.not_eq_false'] at hacc
        exact hdup r rfl hacc hd
    · have hbelow : ∀ u : Decoder w, u.lastId = some (firstId r) →
          ((∀ i, u.outdated i = true → v i = 0) ↔ ∀ i < firstId r, v i = 0) := by
        intro u hu
        simp only [outdated_some hu, decide_eq_true_eq]
      rcases hcases with ⟨d1, h1, huse, rfl⟩ | ⟨d1, d2, r2, ha, h2⟩
      · obtain ⟨-, -, -, -, -, hdrops⟩ := dropOutdated_cases h1
        obtain ⟨hlast, hold⟩ := forgets_eq_false hr.remembers hacc
        have hsame : ({ d1 with nbUselessRepairs := d1.nbUselessRepairs + 1 } : Decoder w).SolvedBy v ↔
            d1.SolvedBy v := solvedBy_congr rfl rfl rfl
        rw [hsame, hbelow { d1 with nbUselessRepairs := d1.nbUselessRepairs + 1 } hdrops.lastId,
          solvedBy_drops hdrops hold hlast]
        refine ⟨fun hd => ⟨hd.1, ?_, hd.2⟩, fun hd => ⟨hd.1, hd.2.2⟩⟩
        refine combination_eq_zero fun i hi => ?_
        refine ((solvedBy_drops hdrops hold hlast).mpr hd).known i ?_
        exact List.all_eq_true.mp huse i (FlatSet.mem_toFinset.mp hi)
      · have hA := ha.accepted (contains_of_accepts hacc)
        have hlinks := solvedBy_accepted (v := v) ha hacc hr.remembers
        have hlast : d2.lastId = some (firstId r) := by
          rw [hA.frame]
          exact hA.drops.lastId
        rcases h2 with ⟨hone, src, hc, hadd⟩ | ⟨hmany, hfull⟩
        · have hids := createSourceFromRepair_only hc hone
          have hL := listedStored_removeDecoded (hA.listedStored hI.linked.listed) hA.stored hids
          have hkeeps := (keeps_rule d2).addSource hL (keeps_of_eq rfl rfl rfl) hadd
          rw [solvedBy_addSource hL hadd, solvedBy_removeDecoded hA.stored hids, hlinks,
            hbelow _ (hkeeps.lastId.trans hlast)]
          rfl
        · obtain ⟨i, hi, hunknown⟩ := exists_unknown ha.useful
          have hpos := FlatSet.size_pos_iff.mpr ⟨i, (hA.ids i).mpr ⟨hi, hunknown⟩⟩
          obtain ⟨hlinked, href, hle, htwo, heq⟩ := balanced_accepted hI hacc hA (by omega) hb
          rw [solvedBy_attempt hlinked href hle (fun _ _ => htwo) (heq ▸ hr.spares) hfull, hlinks,
            hbelow _ ((keeps_attemptFullDecoding hfull).lastId.trans hlast)]
          rfl

end Netcode.Detail.Decoder
