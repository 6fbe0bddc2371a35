import Netcode.Progress

/-! Every repair received is spent at most once. -/
namespace Netcode

open Containers Runs

variable {w : FieldSize} {b : Build} {g : GfComplete w}

namespace Detail

/-- The repairs among what was read in a packet: none or one. -/
def Incoming.repairs : Incoming → ℕ
  | .source _ => 0
  | .repair _ => 1

/-- The sources among what was read in a packet: none or one. -/
def Incoming.sources : Incoming → ℕ
  | .source _ => 1
  | .repair _ => 0

end Detail

namespace Detail.Decoder

variable {d d' d1 d2 : Decoder w} {src y : DecoderSource} {r r2 : DecoderRepair} {p : Incoming}
  {k m ρ first : ℕ}

/-- The repairs that are stored, were useless or dropped by a failed full decoding, and the sources
decoded. -/
def spent (d : Decoder w) : ℕ :=
  d.nbDecoded + d.nbUselessRepairs + d.nbFailedFullDecodings + d.repairs.size

theorem spent_delivers (h : d.Delivers d') : d'.spent = d.spent := by
  obtain ⟨c, f, o, rfl⟩ := h
  rfl

/-- A repair is erased for each source decoded. -/
theorem spent_removeDecoded (hr : d.repairs.find? ρ = some r) :
    (d.removeDecoded k ρ).spent = d.spent := by
  have hsize := OrdMap.size_erase hr
  show d.nbDecoded + 1 + d.nbUselessRepairs + d.nbFailedFullDecodings +
    (d.repairs.erase ρ).size = d.spent
  rw [spent]
  omega

theorem spent_rule (m : ℕ) : PeelRule b g (fun _ _ (d : Decoder w) => d.spent = m)
    (fun _ d => d.spent = m) where
  add := by
    intro _ src d d1 d2 hP _ ho hs
    rw [← hP, ← spent_delivers (offer_delivers ho), spent, spent, size_strip hs,
      (stripFromRepairs_spec hs).1]
  decode := by
    intro _ src d k ρ r y hI _ hk _ _ _ _
    rw [spent_removeDecoded (readyAt_eq_some.mp hk).2.1, hI]
  store := by
    intro _ src d d' hI h
    rw [(store_spec h).2]
    exact hI

theorem spent_addSource (hL : d.ListedStored) (h : d.addSourceRecursive b g src = .ok d') :
    d'.spent = d.spent := (spent_rule d.spent).addSource hL rfl h

theorem size_erase_le {α β : Type*} [LinearOrder α] (s : OrdMap α β) (a : α) :
    (s.erase a).size ≤ s.size := by
  cases h : s.find? a with
  | none => rw [OrdMap.erase_of_find?_none h]
  | some v =>
    have := OrdMap.size_erase h
    omega

theorem spent_dropRepair {e : ℕ × DecoderRepair} (h : dropRepair b first d e = .ok d') :
    d'.spent ≤ d.spent := by
  obtain ⟨ρ, r⟩ := e
  obtain ⟨-, heq, -, hold, hkept⟩ := dropRepair_spec h
  by_cases ho : Old first r
  · have hsize := size_erase_le d.repairs ρ
    rw [heq, (hold ho).1]
    exact Nat.add_le_add_left hsize _
  · rw [hkept ho]

theorem spent_dropOutdated (h : d.dropOutdated b first = .ok d') : d'.spent ≤ d.spent := by
  simp only [dropOutdated, bind_ok_iff, Except.ok.injEq] at h
  obtain ⟨d1, h1, d2, h2, rfl⟩ := h
  have hstart : ({ d with lastId := some first } : Decoder w).spent ≤ d.spent := le_rfl
  have hdropped := foldlM_invariant (f := dropRepair b first) (fun u => u.spent ≤ d.spent)
    (fun _ _ _ _ hu hv => (spent_dropRepair hv).trans hu) hstart h1
  exact (spent_delivers (dropOrdered_delivers h2)).le.trans hdropped

theorem spent_dropFaulty (h : d.dropFaulty k = .ok d') : d'.spent = d.spent := by
  rw [dropFaulty] at h
  cases he : d.repairs.entries[k]? with
  | none => simp [he] at h
  | some e =>
    simp only [he, Except.ok.injEq] at h
    have hsize := OrdMap.size_erase (OrdMap.mem_entries_iff.mp (List.mem_of_getElem? he))
    subst h
    show d.nbDecoded + d.nbUselessRepairs + (d.nbFailedFullDecodings + 1) +
      (d.repairs.erase e.1).size = d.spent
    rw [spent]
    omega

theorem spent_insertDecoded (h : d.insertDecoded b src = .ok d') : d'.spent = d.spent := by
  obtain ⟨inserted, d1, -, rfl, ⟨-, rfl⟩ | ⟨-, -, hf⟩ | ⟨-, -, rfl⟩⟩ := insertDecoded_cases h
  · rfl
  · rw [spent_delivers (flushOrderedSources_delivers hf)]
    rfl
  · rfl

/-- There are at least as many repairs as missing sources, so that no more are decoded. -/
theorem spent_attemptFullDecoding (h : d.attemptFullDecoding b g = .ok d') : d'.spent ≤ d.spent := by
  rcases attemptFullDecoding_cases h with ⟨rfl, -⟩ | ⟨henough, _, _, m, -, -, hcases⟩
  · exact le_rfl
  · rcases hcases with ⟨k, -, hf⟩ | ⟨-, ha⟩
    · exact (spent_dropFaulty hf).le
    · obtain ⟨-, -, hle⟩ := enoughRepairs_iff.mp henough
      obtain ⟨d1, h1, rfl⟩ := decodeAll_cases ha
      have hstart : ({ d with coefficients := m.mat, inv := m.inv } : Decoder w).spent = d.spent ∧
          ({ d with coefficients := m.mat, inv := m.inv } : Decoder w).repairs = d.repairs :=
        ⟨rfl, rfl⟩
      have hloop := foldlM_invariant (f := decodeColumn b g _)
        (fun u => u.spent = d.spent ∧ u.repairs = d.repairs) (fun _ _ u v hu hv => ?_) hstart h1
      · obtain ⟨hspent, hrepairs⟩ := hloop
        rw [spent, hrepairs] at hspent
        show d1.nbDecoded + d.missingSources.size + d1.nbUselessRepairs +
          d1.nbFailedFullDecodings + 0 ≤ d.spent
        omega
      · obtain ⟨_, _, -, -, hins⟩ := decodeColumn_cases hv
        obtain ⟨⟨c, f, o, s, rfl⟩, -⟩ := insertDecoded_decoding hins
        exact ⟨(spent_insertDecoded hins).trans hu.1, hu.2⟩

/-- Linking a new repair stores it. -/
theorem spent_accepted (hA : Accepted r first d d1 d2 r2) : d2.spent = d1.spent + 1 := by
  have herase : d2.repairs.erase r.id = d1.repairs := by
    apply OrdMap.ext_find?
    intro ρ
    rw [OrdMap.find?_erase]
    split
    · next hρ => rw [hρ, OrdMap.contains_eq_false_iff.mp hA.new]
    · next hρ => exact hA.repairs ρ hρ
  have hsize := OrdMap.size_erase hA.stored
  rw [herase] at hsize
  rw [spent, hA.frame]
  show d1.nbDecoded + d1.nbUselessRepairs + d1.nbFailedFullDecodings + d2.repairs.size = _
  rw [spent]
  omega

/-- A repair is spent at most once, and a source spends none. -/
theorem spent_receive (hL : d.ListedStored) (h : d.receive b g p = .ok d') :
    d'.spent ≤ d.spent + p.repairs := by
  cases p with
  | source src =>
    rcases receiveSource_cases h with ⟨rfl, -⟩ | ⟨-, -, d1, h1, h2⟩
    · exact le_rfl
    · exact (spent_attemptFullDecoding h2).trans (spent_addSource hL h1).le
  | repair r =>
    obtain ⟨-, ⟨rfl, -⟩ | ⟨hacc, ⟨d1, h1, -, rfl⟩ | ⟨d1, d2, r2, ha, h2⟩⟩⟩ :=
      receiveRepair_cases h
    · exact Nat.le_succ _
    · have hdropped := spent_dropOutdated h1
      show d1.nbDecoded + (d1.nbUselessRepairs + 1) + d1.nbFailedFullDecodings +
        d1.repairs.size ≤ d.spent + 1
      rw [spent] at hdropped
      omega
    · have hA := ha.accepted (contains_of_accepts hacc)
      have hdropped := spent_dropOutdated ha.drop
      have hstored := spent_accepted hA
      rcases h2 with ⟨hone, src, hc, hadd⟩ | ⟨-, hfull⟩
      · have hids := createSourceFromRepair_only hc hone
        have hadded := spent_addSource
          (listedStored_removeDecoded (hA.listedStored hL) hA.stored hids) hadd
        rw [spent_removeDecoded hA.stored] at hadded
        show d'.spent ≤ d.spent + 1
        omega
      · have hattempt := spent_attemptFullDecoding hfull
        show d'.spent ≤ d.spent + 1
        omega

end Detail.Decoder

end Netcode
