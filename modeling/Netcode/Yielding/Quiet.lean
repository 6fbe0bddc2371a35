import Netcode.Yielding.Giving
import Netcode.Waiting

/-! When adding a source, a full decoding or dropping what is outdated gives nothing. -/
namespace Netcode.Detail.Decoder

open Containers Runs

variable {w : FieldSize} {b : Build} {g : GfComplete w} {d d' d1 d2 : Decoder w}
  {src : DecoderSource} {r : DecoderRepair} {k m n ρ first : ℕ}

/-- Nothing was given to the callback. -/
structure Quiet (d d' : Decoder w) : Prop where
  inOrder : d'.inOrder = d.inOrder
  callbacks : d'.callbacks = d.callbacks
  first : d'.firstMissingSourceInOrder = d.firstMissingSourceInOrder

theorem Quiet.trans (h : Quiet d d1) (h' : Quiet d1 d') : Quiet d d' :=
  ⟨h'.inOrder.trans h.inOrder, h'.callbacks.trans h.callbacks, h'.first.trans h.first⟩

theorem store_quiet (h : d.store b src = .ok d') : Quiet d d' := by
  rw [(store_spec h).2]
  exact ⟨rfl, rfl, rfl⟩

theorem offer_quiet (hio : d.inOrder = true) (hne : src.id ≠ d.firstMissingSourceInOrder)
    (h : d.offer b src = .ok d') : d' = d := by
  rcases offer_cases h with ⟨hno, -⟩ | ⟨-, ⟨hid, -⟩ | ⟨-, heq⟩⟩
  · rw [hio] at hno
    cases hno
  · exact absurd hid hne
  · exact heq

/-- The other missing sources are decoded without being given. -/
theorem decodeLeast_quiet (hL : d.ListedStored) (hio : d.inOrder = true)
    (hidle : d.readyAt d.firstMissingSourceInOrder = none)
    (h : d.decodeLeast b g (peel b g n) = .ok d') : Quiet d d' := by
  induction n generalizing d d' with
  | zero =>
    obtain ⟨rfl, -⟩ | ⟨m, y, ρ, r, d1, d2, hm, -⟩ := decodeLeast_cases hL h
    · exact ⟨rfl, rfl, rfl⟩
    · cases hm
  | succ n ih =>
    obtain ⟨rfl, -⟩ | ⟨m, y, ρ, r, d1, d2, hm, hk, -, ho, hL1, h1, h2⟩ := decodeLeast_cases hL h
    · exact ⟨rfl, rfl, rfl⟩
    cases hm
    have hne : y.id ≠ d.firstMissingSourceInOrder := by
      intro heq
      rw [heq, hidle] at hk
      cases hk
    obtain ⟨-, hother⟩ := readyAt_decoded hL hk (offer_delivers ho)
    obtain rfl := offer_quiet (d := d.removeDecoded y.id ρ) hio hne ho
    have hrest := ih hL1 hio ((hother _ hne.symm).trans hidle) h1
    exact Quiet.trans (d := d) ⟨hrest.inOrder, hrest.callbacks, hrest.first⟩ (store_quiet h2)

theorem addSource_quiet (hL : d.ListedStored) (hio : d.inOrder = true)
    (hne : src.id ≠ d.firstMissingSourceInOrder)
    (hidle : (d.withoutSource g src).readyAt d.firstMissingSourceInOrder = none)
    (h : d.addSourceRecursive b g src = .ok d') : Quiet d d' := by
  rw [addSourceRecursive_eq_peel hL] at h
  simp only [peel, bind_ok_iff] at h
  obtain ⟨d1, ho, d2, hs, d3, h3, h4⟩ := h
  obtain rfl := offer_quiet hio hne ho
  have hstripped : Quiet d1 d2 := by
    rw [(stripFromRepairs_spec hs).1]
    exact ⟨rfl, rfl, rfl⟩
  have hidle2 : d2.readyAt d2.firstMissingSourceInOrder = none := by
    rw [hstripped.first, readyAt_none_outline (outline_strip hs)]
    exact hidle
  have hdecoded := decodeLeast_quiet (listedStored_strip hL hs) (hstripped.inOrder.trans hio)
    hidle2 h3
  exact (hstripped.trans hdecoded).trans (store_quiet h4)

/-- Without the first missing source among those decoded, none is given. -/
theorem decodeLoop_quiet {index : List DecoderRepair} {l : List (ℕ × ℕ)} (hio : d.inOrder = true)
    (hno : ∀ x ∈ l, x.1 ≠ d.firstMissingSourceInOrder)
    (h : l.foldlM (decodeColumn b g index) d = .ok d') : Quiet d d' := by
  refine (foldlM_induction (f := decodeColumn b g index)
    (fun l u => (∀ x ∈ l, x.1 ≠ d.firstMissingSourceInOrder) ∧ Quiet d u) ?_
    ⟨hno, rfl, rfl, rfl⟩ h).2
  rintro a l u v ⟨hno, hu⟩ hv
  refine ⟨fun x hx => hno x (List.mem_cons_of_mem a hx), hu.trans ?_⟩
  obtain ⟨rows, symbol, -, -, hins⟩ := decodeColumn_cases hv
  obtain ⟨inserted, d1, -, rfl, ⟨hout, -⟩ | ⟨-, hid, -⟩ | ⟨-, -, rfl⟩⟩ := insertDecoded_cases hins
  · rw [hu.inOrder, hio] at hout
    cases hout
  · rw [hu.first] at hid
    exact absurd hid (hno a List.mem_cons_self)
  · exact ⟨rfl, rfl, rfl⟩

/-- With assertions, a full decoding gives a source only when it completes. -/
theorem attemptFullDecoding_quiet (hb : b.asserts = true)
    (hno : d.Completes g → d.inOrder = true ∧
      d.missingSources.contains d.firstMissingSourceInOrder = false)
    (h : d.attemptFullDecoding b g = .ok d') : d'.callbacks = d.callbacks := by
  rcases attemptFullDecoding_cases h with ⟨rfl, -⟩ | ⟨henough, -⟩
  · rfl
  obtain ⟨hn, hsize⟩ := square_of_asserts hb henough h
  obtain ⟨blamed, m, heq, -, -, hunit, -⟩ := attemptFullDecoding_eq (b := b) (g := g) hn hsize
  rw [heq] at h
  cases blamed with
  | some k =>
    obtain ⟨_, _, -, heq, -⟩ := dropFaulty_spec h
    rw [heq]
  | none =>
    obtain ⟨hio, hfirst⟩ := hno ⟨hsize, hn, hunit.mp rfl⟩
    obtain ⟨d1, h1, rfl⟩ := decodeAll_cases h
    have hquiet := decodeLoop_quiet (d := { d with coefficients := m.mat, inv := m.inv }) hio
      (fun x hx heq => ?_) h1
    · exact hquiet.callbacks
    · have hkey := List.mem_zipIdx' hx
      rw [← Bool.not_eq_true, OrdMap.contains_iff_mem_keys] at hfirst
      refine hfirst ?_
      show d.firstMissingSourceInOrder ∈ d.missingSources.keys
      rw [← show x.1 = d.firstMissingSourceInOrder from heq, hkey.2]
      exact List.getElem_mem hkey.1

/-- When the sources before `first` are dropped, one that waits is given. -/
def HandsBelow (first : ℕ) (d : Decoder w) : Prop :=
  (∃ k ∈ d.orderedSources, k < first) ∨
    max d.firstMissingSourceInOrder first ∈ d.orderedSources

theorem dropOutdated_gives (hq : d.Queued) (hio : d.inOrder = true) (hhands : d.HandsBelow first)
    (h : d.dropOutdated b first = .ok d') : Gave d d' := by
  obtain ⟨n, hover⟩ := dropOutdated_handsOver hq hio h
  obtain ⟨cs, hcs, hmap, -⟩ := hover.calls
  have hlen : cs.length = (d.handed first n).length := by
    simpa using congrArg List.length hmap
  have hsome : ∃ k, k ∈ d.handed first n := by
    rcases hhands with ⟨k, hk, hlt⟩ | hmax
    · exact ⟨k, List.mem_append_left _ (List.mem_filter.mpr ⟨hk, decide_eq_true hlt⟩)⟩
    · refine ⟨max d.firstMissingSourceInOrder first, List.mem_append_right _ ?_⟩
      rw [List.mem_range'_1]
      refine ⟨le_rfl, Nat.lt_add_of_pos_right (Nat.pos_of_ne_zero ?_)⟩
      rintro rfl
      exact hover.contiguous.stops hmax
  obtain ⟨k, hk⟩ := hsome
  have hpos := List.length_pos_of_mem hk
  rw [Gave, hcs, List.length_append]
  omega

/-- Nothing is given otherwise. -/
theorem dropOutdated_quiet (hno : d.inOrder = true → ¬ d.HandsBelow first)
    (h : d.dropOutdated b first = .ok d') : d'.callbacks = d.callbacks ∧
      d'.inOrder = d.inOrder ∧ (d.inOrder = true →
        d'.firstMissingSourceInOrder = max d.firstMissingSourceInOrder first) := by
  obtain ⟨d1, d2, heq, h2, rfl, hdrops⟩ := dropOutdated_cases h
  rw [dropOrdered] at h2
  split at h2
  · next hio =>
    have hio' : d.inOrder = true := by
      rw [← hio, heq]
    have hno' := hno hio'
    rw [HandsBelow, not_or, not_exists] at hno'
    have hnone : d1.orderedSources.toList.filter (fun cit => decide (cit < first)) = [] := by
      rw [heq]
      exact List.filter_eq_nil_iff.mpr fun k hk => by simpa using fun hlt => hno'.1 k ⟨hk, hlt⟩
    rw [hnone, List.foldlM_nil, pure_bind, heq] at h2
    have hquiet := h2.symm.trans (if_neg hno'.2)
    cases hquiet
    exact ⟨rfl, rfl, fun _ => rfl⟩
  · next hio =>
    cases h2
    rw [heq] at hio ⊢
    exact ⟨rfl, rfl, fun hin => absurd hin hio⟩

end Netcode.Detail.Decoder
