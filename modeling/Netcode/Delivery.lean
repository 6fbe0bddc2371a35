import Netcode.DetailDecoder

/-! What giving sources to the callback changes: the calls made, the first missing source and the
sources waiting for it. -/
namespace Netcode.Detail.Decoder

open Containers Runs

variable {w : FieldSize} {b : Build} {d d' d1 : Decoder w} {src : DecoderSource} {l l' : List ℕ}
  {fuel k id : ℕ}

theorem sweep_ok_iff : d.sweep k = .ok d' ↔ ∃ src, d.sources.find? k = some src ∧
    d' = { d.callback src with orderedSources := d.orderedSources.erase k } := by
  rw [sweep, callbackOrdered]
  cases d.sources.find? k <;> simp [callback, eq_comm]

theorem advance_le (d : Decoder w) :
    d.advance.firstMissingSourceInOrder ≤ d.firstMissingSourceInOrder + 1 := Nat.mod_le _ _

/-- The loop gives the first missing source, and goes on when the next one is waiting. -/
theorem flushLoop_cases (h : flushLoop b (fuel + 1) d.firstMissingSourceInOrder d = .ok d') :
    ∃ d1, d.sweep d.firstMissingSourceInOrder = .ok d1 ∧
      (d' = d1.advance ∧ (∀ k ∈ d.orderedSources, d.firstMissingSourceInOrder < k →
          d1.advance.firstMissingSourceInOrder < k) ∨
        d.firstMissingSourceInOrder < d1.advance.firstMissingSourceInOrder ∧
          d1.advance.firstMissingSourceInOrder ∈ d1.orderedSources ∧
          flushLoop b fuel d1.advance.firstMissingSourceInOrder d1.advance = .ok d') := by
  simp only [flushLoop, bind_ok_iff] at h
  obtain ⟨-, -, d1, h1, h⟩ := h
  refine ⟨d1, h1, ?_⟩
  obtain ⟨src, -, hd1⟩ := sweep_ok_iff.mp h1
  cases hn : d.orderedSources.next? d.firstMissingSourceInOrder with
  | none =>
    rw [hn] at h
    cases h
    refine Or.inl ⟨rfl, ?_⟩
    intro k hk hlt
    exact absurd hlt (FlatSet.next?_eq_none.mp hn k hk).not_gt
  | some c =>
    simp only [hn] at h
    obtain ⟨hc, hlt, hmin⟩ := FlatSet.next?_eq_some.mp hn
    split at h
    · next hbreak =>
      cases h
      exact Or.inl ⟨rfl, fun k hk hk' => lt_of_lt_of_le hbreak (hmin k hk hk')⟩
    · next hgo =>
      have hfirst : d1.firstMissingSourceInOrder = d.firstMissingSourceInOrder := by
        rw [hd1]
        rfl
      have hadv := advance_le d1
      have heq : d1.advance.firstMissingSourceInOrder = c := by omega
      right
      rw [heq]
      refine ⟨hlt, ?_, h⟩
      rw [hd1]
      exact FlatSet.mem_erase.mpr ⟨hc, hlt.ne'⟩

/-- What giving the first missing source keeps, flushing keeps. -/
theorem flushLoop_rule (J : Decoder w → Prop)
    (hJ : ∀ d d', J d → d.firstMissingSourceInOrder ∈ d.orderedSources →
      d.sweep d.firstMissingSourceInOrder = .ok d' → J d'.advance)
    (hd : J d) (hmem : d.firstMissingSourceInOrder ∈ d.orderedSources)
    (h : flushLoop b fuel d.firstMissingSourceInOrder d = .ok d') : J d' := by
  induction fuel generalizing d with
  | zero => cases h
  | succ fuel ih =>
    obtain ⟨d1, h1, ⟨rfl, -⟩ | ⟨-, hmem1, h2⟩⟩ := flushLoop_cases h
    · exact hJ d d1 hd hmem h1
    · exact ih (hJ d d1 hd hmem h1) hmem1 h2

theorem flushOrderedSources_rule (J : Decoder w → Prop)
    (hJ : ∀ d d', J d → d.firstMissingSourceInOrder ∈ d.orderedSources →
      d.sweep d.firstMissingSourceInOrder = .ok d' → J d'.advance)
    (hd : J d) (h : d.flushOrderedSources b = .ok d') : J d' := by
  rw [flushOrderedSources] at h
  split at h
  · next hmem => exact flushLoop_rule J hJ hd hmem h
  · cases h
    exact hd

/-- Only the callback, the first missing source and the waiting sources differ. -/
def Delivers (d d' : Decoder w) : Prop := ∃ c f o, d' = { d with
  callbacks := c, firstMissingSourceInOrder := f, orderedSources := o }

theorem Delivers.refl (d : Decoder w) : d.Delivers d := ⟨_, _, _, rfl⟩

theorem Delivers.trans {d1 d2 : Decoder w} (h : d.Delivers d1) (h' : d1.Delivers d2) :
    d.Delivers d2 := by
  obtain ⟨c, f, o, rfl⟩ := h
  obtain ⟨c', f', o', rfl⟩ := h'
  exact ⟨c', f', o', rfl⟩

theorem missing_delivers (h : d.Delivers d') : d'.missingSources = d.missingSources := by
  obtain ⟨c, f, o, rfl⟩ := h
  rfl

theorem repairs_delivers (h : d.Delivers d') : d'.repairs = d.repairs := by
  obtain ⟨c, f, o, rfl⟩ := h
  rfl

theorem sources_delivers (h : d.Delivers d') : d'.sources = d.sources := by
  obtain ⟨c, f, o, rfl⟩ := h
  rfl

theorem lastId_delivers (h : d.Delivers d') : d'.lastId = d.lastId := by
  obtain ⟨c, f, o, rfl⟩ := h
  rfl

theorem outdated_congr (h : d'.lastId = d.lastId) : d'.outdated k = d.outdated k := by
  rw [outdated, outdated, h]

theorem inOrder_delivers (h : d.Delivers d') : d'.inOrder = d.inOrder := by
  obtain ⟨c, f, o, rfl⟩ := h
  rfl

theorem advance_delivers (d : Decoder w) : d.Delivers d.advance := ⟨_, _, _, rfl⟩

theorem sweep_delivers (h : d.sweep k = .ok d') : d.Delivers d' := by
  obtain ⟨src, -, rfl⟩ := sweep_ok_iff.mp h
  exact ⟨_, _, _, rfl⟩

theorem first_sweep (h : d.sweep k = .ok d') :
    d'.firstMissingSourceInOrder = d.firstMissingSourceInOrder := by
  obtain ⟨src, -, rfl⟩ := sweep_ok_iff.mp h
  rfl

theorem flushOrderedSources_delivers (h : d.flushOrderedSources b = .ok d') : d.Delivers d' :=
  flushOrderedSources_rule (fun u => d.Delivers u)
    (fun _ v hu _ hv => (hu.trans (sweep_delivers hv)).trans (advance_delivers v)) (Delivers.refl d) h

theorem offer_delivers (h : d.offer b src = .ok d') : d.Delivers d' := by
  rw [offer] at h
  split at h
  · cases h
    exact ⟨_, _, _, rfl⟩
  · split at h
    · exact Delivers.trans ⟨_, _, _, rfl⟩ (flushOrderedSources_delivers h)
    · cases h
      exact Delivers.refl d

theorem dropOrdered_delivers (h : d.dropOrdered b id = .ok d') : d.Delivers d' := by
  rw [dropOrdered] at h
  split at h
  · simp only [bind_ok_iff] at h
    obtain ⟨d1, h1, h2⟩ := h
    have hs := foldlM_invariant (fun u => d.Delivers u)
      (fun _ _ _ _ hu hv => hu.trans (sweep_delivers hv)) (Delivers.refl d) h1
    exact hs.trans (Delivers.trans ⟨_, _, _, rfl⟩ (flushOrderedSources_delivers h2))
  · cases h
    exact Delivers.refl d

/-- The identifiers given to the callback, in order. -/
def delivered (d : Decoder w) : List ℕ := d.callbacks.map fun c => c.source.id

theorem delivered_callback (src : DecoderSource) (d : Decoder w) :
    (d.callback src).delivered = d.delivered ++ [src.id] := by
  simp [delivered, callback]

/-- The identifiers of known sources are those they are stored under. -/
def Keyed (d : Decoder w) : Prop := ∀ k src, d.sources.find? k = some src → src.id = k

theorem keyed_delivers (h : d.Delivers d') (hd : d.Keyed) : d'.Keyed := by
  rw [Keyed, sources_delivers h]
  exact hd

/-- The waiting sources of `l` are given to the callback in this order, while no source is forgotten,
and no longer wait. -/
structure Hands (l : List ℕ) (d d' : Decoder w) : Prop where
  frame : d.Delivers d'
  calls : ∃ cs, d'.callbacks = d.callbacks ++ cs ∧
    cs.map (fun c => some c.source) = l.map d.sources.find? ∧ ∀ c ∈ cs, c.known = d.sources.keys
  waiting : ∀ k, k ∈ d'.orderedSources ↔ k ∈ d.orderedSources ∧ k ∉ l

theorem hands_none (hd : d.Delivers d') (hc : d'.callbacks = d.callbacks)
    (ho : d'.orderedSources = d.orderedSources) : Hands [] d d' :=
  ⟨hd, ⟨[], by rw [hc, List.append_nil], rfl, by simp⟩, by simp [ho]⟩

theorem Hands.trans (h : Hands l d d1) (h' : Hands l' d1 d') : Hands (l ++ l') d d' := by
  obtain ⟨cs, hcs, hmap, hknown⟩ := h.calls
  obtain ⟨cs', hcs', hmap', hknown'⟩ := h'.calls
  rw [sources_delivers h.frame] at hmap' hknown'
  refine ⟨h.frame.trans h'.frame, ⟨cs ++ cs', ?_, ?_, fun c hc => ?_⟩, fun k => ?_⟩
  · rw [hcs', hcs, List.append_assoc]
  · rw [List.map_append, List.map_append, hmap, hmap']
  · exact (List.mem_append.mp hc).elim (hknown c) (hknown' c)
  · rw [h'.waiting, h.waiting, List.mem_append, not_or, and_assoc]

theorem hands_sweep (h : d.sweep k = .ok d') : Hands [k] d d' := by
  have hdel := sweep_delivers h
  obtain ⟨src, hsrc, rfl⟩ := sweep_ok_iff.mp h
  refine ⟨hdel, ⟨[⟨src, d.sources.keys, d.orderedSources.toList⟩], rfl, by simp [hsrc], by simp⟩,
    fun j => ?_⟩
  rw [List.mem_singleton]
  exact FlatSet.mem_erase

theorem hands_advance (d : Decoder w) : Hands [] d d.advance :=
  hands_none (advance_delivers d) rfl rfl

theorem hands_sweepLoop (h : l.foldlM sweep d = .ok d') : Hands l d d' := by
  induction l generalizing d with
  | nil =>
    cases h
    exact hands_none (Delivers.refl d') rfl rfl
  | cons a l ih =>
    rw [List.foldlM_cons] at h
    obtain ⟨u, h1, h2⟩ := bind_ok_iff.mp h
    exact Hands.trans (hands_sweep h1) (ih h2)

/-- Known sources are given under the identifiers they wait with. -/
theorem Hands.delivered (hkeyed : d.Keyed) (h : Hands l d d') : d'.delivered = d.delivered ++ l := by
  obtain ⟨cs, hcs, hmap, -⟩ := h.calls
  rw [Decoder.delivered, hcs, List.map_append]
  refine congrArg (d.delivered ++ ·) (List.ext_getElem ?_ fun i hi hl => ?_)
  · simpa using congrArg List.length hmap
  · rw [List.length_map] at hi
    have hget := List.getElem_of_eq hmap (i := i) (by simpa using hi)
    rw [List.getElem_map, List.getElem_map] at hget
    rw [List.getElem_map]
    exact hkeyed _ _ hget.symm

/-- The sources that wait in sequence from an identifier on, up to one that does not wait. -/
structure Contiguous (d : Decoder w) (k n : ℕ) : Prop where
  waits : ∀ j ∈ List.range' k n, j ∈ d.orderedSources
  stops : k + n ∉ d.orderedSources

theorem Contiguous.le_of_not_waiting (h : Contiguous d k n) (hle : k ≤ id)
    (hid : id ∉ d.orderedSources) : k + n ≤ id := by
  by_contra hlt
  exact hid (h.waits id (List.mem_range'_1.mpr ⟨hle, not_le.mp hlt⟩))

theorem flushLoop_hands (hbound : ∀ k ∈ d.orderedSources, k < 2 ^ 32)
    (hmem : d.firstMissingSourceInOrder ∈ d.orderedSources)
    (h : flushLoop b fuel d.firstMissingSourceInOrder d = .ok d') :
    ∃ n, Contiguous d d.firstMissingSourceInOrder n ∧
      Hands (List.range' d.firstMissingSourceInOrder n) d d' ∧
      ((∀ j ∈ List.range' d.firstMissingSourceInOrder n, j + 1 < 2 ^ 32) →
        d'.firstMissingSourceInOrder = d.firstMissingSourceInOrder + n) := by
  induction fuel generalizing d with
  | zero => cases h
  | succ fuel ih =>
    obtain ⟨d1, h1, hcases⟩ := flushLoop_cases h
    have hs := hands_sweep h1
    have hadv : d1.advance.firstMissingSourceInOrder =
        (d.firstMissingSourceInOrder + 1) % 2 ^ 32 := by rw [advance, first_sweep h1]
    rcases hcases with ⟨rfl, hw⟩ | ⟨hlt, hmem1, h2⟩
    · refine ⟨1, ⟨by simpa using hmem, fun hin => ?_⟩, by simpa using hs.trans (hands_advance d1),
        fun hj => ?_⟩
      · have hnext := hw _ hin (Nat.lt_succ_self _)
        rw [hadv, Nat.mod_eq_of_lt (hbound _ hin)] at hnext
        exact lt_irrefl _ hnext
      · rw [hadv, Nat.mod_eq_of_lt (hj _ (by simp))]
    · -- The counter does not wrap: the next source waits under a greater identifier.
      have hnext : d1.advance.firstMissingSourceInOrder = d.firstMissingSourceInOrder + 1 := by
        have hle := Nat.mod_le (d.firstMissingSourceInOrder + 1) (2 ^ 32)
        omega
      obtain ⟨n, hcont, hf, hfirst⟩ := ih (d := d1.advance)
        (fun k hk => hbound k ((hs.waiting k).mp hk).1) hmem1 h2
      have hall := (hs.trans (hands_advance d1)).trans hf
      rw [hnext] at hcont hall hfirst
      refine ⟨n + 1, ⟨fun j hj => ?_, fun hin => ?_⟩, by rw [List.range'_succ]; exact hall,
        fun hj => ?_⟩
      · rw [List.range'_succ] at hj
        rcases List.mem_cons.mp hj with rfl | hj
        · exact hmem
        · exact ((hs.waiting j).mp (hcont.waits j hj)).1
      · refine hcont.stops ((hs.waiting _).mpr ⟨?_, ?_⟩)
        · rwa [Nat.add_assoc, Nat.add_comm 1]
        · rw [List.mem_singleton]
          omega
      · rw [List.range'_succ] at hj
        rw [hfirst fun j hmem => hj j (List.mem_cons_of_mem _ hmem), Nat.add_assoc, Nat.add_comm 1]

theorem flushOrderedSources_hands (hbound : ∀ k ∈ d.orderedSources, k < 2 ^ 32)
    (h : d.flushOrderedSources b = .ok d') : ∃ n, Contiguous d d.firstMissingSourceInOrder n ∧
      Hands (List.range' d.firstMissingSourceInOrder n) d d' ∧
      ((∀ j ∈ List.range' d.firstMissingSourceInOrder n, j + 1 < 2 ^ 32) →
        d'.firstMissingSourceInOrder = d.firstMissingSourceInOrder + n) := by
  rw [flushOrderedSources] at h
  split at h
  · next hmem => exact flushLoop_hands hbound hmem h
  · next hmem =>
    cases h
    exact ⟨0, ⟨by simp, hmem⟩, hands_none (Delivers.refl d) rfl rfl, fun _ => rfl⟩

/-- What is given to the callback when the sources before `id` are dropped, if `n` others follow. -/
def handed (d : Decoder w) (id n : ℕ) : List ℕ :=
  d.orderedSources.toList.filter (fun k => decide (k < id)) ++
    List.range' (max d.firstMissingSourceInOrder id) n

theorem dropOrdered_hands (hbound : ∀ k ∈ d.orderedSources, k < 2 ^ 32) (hio : d.inOrder = true)
    (h : d.dropOrdered b id = .ok d') :
    ∃ n, Contiguous d (max d.firstMissingSourceInOrder id) n ∧ Hands (d.handed id n) d d' ∧
      ((∀ j ∈ List.range' (max d.firstMissingSourceInOrder id) n, j + 1 < 2 ^ 32) →
        d'.firstMissingSourceInOrder = max d.firstMissingSourceInOrder id + n) := by
  rw [dropOrdered, if_pos hio] at h
  obtain ⟨d1, h1, h2⟩ := bind_ok_iff.mp h
  have hs := hands_sweepLoop h1
  have hfirst : d1.firstMissingSourceInOrder = d.firstMissingSourceInOrder :=
    foldlM_invariant (f := sweep)
      (fun u => u.firstMissingSourceInOrder = d.firstMissingSourceInOrder)
      (fun k _ u v hu hv => (first_sweep hv).trans hu) rfl h1
  rw [hfirst] at h2
  have hwait : ∀ k, k ∈ d1.orderedSources ↔ k ∈ d.orderedSources ∧ id ≤ k := by
    intro k
    rw [hs.waiting, List.mem_filter, decide_eq_true_eq, ← FlatSet.mem_iff]
    exact and_congr_right fun hk => by simp [hk]
  obtain ⟨n, hcont, hf, hlast⟩ := flushOrderedSources_hands
    (d := { d1 with firstMissingSourceInOrder := max d.firstMissingSourceInOrder id })
    (fun k hk => hbound k ((hwait k).mp hk).1) h2
  refine ⟨n, ⟨fun j hj => ((hwait j).mp (hcont.waits j hj)).1, fun hin => hcont.stops ?_⟩, ?_,
    hlast⟩
  · exact (hwait _).mpr ⟨hin, (le_max_right _ _).trans (Nat.le_add_right _ _)⟩
  · have hmove : Hands [] d1
        { d1 with firstMissingSourceInOrder := max d.firstMissingSourceInOrder id } :=
      hands_none ⟨_, _, _, rfl⟩ rfl rfl
    exact hs.trans (hmove.trans hf)

/-- The sources that wait from the first missing one on, in sequence, are given. -/
structure Flushes (n : ℕ) (d d' : Decoder w) : Prop where
  frame : d.Delivers d'
  first : d'.firstMissingSourceInOrder = d.firstMissingSourceInOrder + n
  delivered : d'.delivered = d.delivered ++ List.range' d.firstMissingSourceInOrder n
  given : ∀ k ∈ List.range' d.firstMissingSourceInOrder n, k ∈ d.orderedSources
  waiting : ∀ k, k ∈ d'.orderedSources ↔
    k ∈ d.orderedSources ∧ k ∉ List.range' d.firstMissingSourceInOrder n
  stops : d.firstMissingSourceInOrder + n ∉ d.orderedSources

/-- The counter does not wrap around when some source that comes later does not wait. -/
theorem flushOrderedSources_flushes (hkeyed : d.Keyed) (hbound : ∀ k ∈ d.orderedSources, k < 2 ^ 32)
    (hle : d.firstMissingSourceInOrder ≤ k) (hk : k < 2 ^ 32) (hno : k ∉ d.orderedSources)
    (h : d.flushOrderedSources b = .ok d') : ∃ n, Flushes n d d' := by
  obtain ⟨n, hcont, hhands, hfirst⟩ := flushOrderedSources_hands hbound h
  have hend := hcont.le_of_not_waiting hle hno
  refine ⟨n, hhands.frame, hfirst fun j hj => ?_, hhands.delivered hkeyed, hcont.waits,
    hhands.waiting, hcont.stops⟩
  have := (List.mem_range'_1.mp hj).2
  omega

/-- The first missing source is given, then those that wait for it. -/
structure Gives (n : ℕ) (d d' : Decoder w) : Prop where
  frame : d.Delivers d'
  first : d'.firstMissingSourceInOrder = d.firstMissingSourceInOrder + 1 + n
  delivered : d'.delivered = d.delivered ++ List.range' d.firstMissingSourceInOrder (n + 1)
  given : ∀ k ∈ List.range' (d.firstMissingSourceInOrder + 1) n, k ∈ d.orderedSources
  waiting : ∀ k, k ∈ d'.orderedSources ↔
    k ∈ d.orderedSources ∧ k ∉ List.range' (d.firstMissingSourceInOrder + 1) n
  stops : d.firstMissingSourceInOrder + 1 + n ∉ d.orderedSources

theorem callback_gives (hkeyed : d.Keyed) (hbound : ∀ k ∈ d.orderedSources, k < 2 ^ 32)
    (hid : src.id = d.firstMissingSourceInOrder) (hlt : d.firstMissingSourceInOrder < k)
    (hk : k < 2 ^ 32) (hno : k ∉ d.orderedSources)
    (h : (d.callback src).advance.flushOrderedSources b = .ok d') : ∃ n, Gives n d d' := by
  have hfirst : (d.callback src).advance.firstMissingSourceInOrder =
      d.firstMissingSourceInOrder + 1 := Nat.mod_eq_of_lt (Nat.lt_of_le_of_lt hlt hk)
  obtain ⟨n, hf⟩ := flushOrderedSources_flushes (d := (d.callback src).advance) hkeyed hbound
    (hfirst ▸ hlt) hk hno h
  have hgiven : (d.callback src).advance.delivered = d.delivered ++ [d.firstMissingSourceInOrder] :=
    hid ▸ delivered_callback src d
  have hf1 := hf.first
  have hf2 := hf.delivered
  have hf3 := hf.given
  have hf4 := hf.waiting
  have hf5 := hf.stops
  rw [hfirst] at hf1 hf2 hf3 hf4 hf5
  refine ⟨n, Delivers.trans ⟨_, _, _, rfl⟩ hf.frame, hf1, ?_, hf3, hf4, hf5⟩
  rw [hf2, hgiven, List.range'_succ, List.append_assoc, List.singleton_append]

theorem offer_cases (h : d.offer b src = .ok d') : d.inOrder = false ∧ d' = d.callback src ∨
    d.inOrder = true ∧ (src.id = d.firstMissingSourceInOrder ∧
        (d.callback src).advance.flushOrderedSources b = .ok d' ∨
      src.id ≠ d.firstMissingSourceInOrder ∧ d' = d) := by
  rw [offer] at h
  cases hio : d.inOrder with
  | false =>
    simp only [hio, Bool.not_false, if_true] at h
    cases h
    exact Or.inl ⟨rfl, rfl⟩
  | true =>
    simp only [hio, Bool.not_true, Bool.false_eq_true, if_false] at h
    split at h
    · next hid => exact Or.inr ⟨rfl, Or.inl ⟨hid, h⟩⟩
    · next hid =>
      cases h
      exact Or.inr ⟨rfl, Or.inr ⟨hid, rfl⟩⟩

end Netcode.Detail.Decoder
