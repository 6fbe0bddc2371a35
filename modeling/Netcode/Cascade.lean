import Netcode.Cascade.Decoding

/-! The cascade terminates, and its cursor never dangles unless two neighbouring missing sources can
be decoded at the same time. -/
namespace Netcode

open Containers Runs

variable {w : FieldSize} {b : Build} {g : GfComplete w}

/-- Neither the bound of a loop nor a cursor is involved. -/
def Fault.Tame (f : Fault) : Prop := f ≠ .outOfFuel ∧ f ≠ .undefined .danglingCursor

/-- A call does not exhaust the bound of a loop; when a condition holds no cursor dangles, and when
it does not the call does not return. -/
structure SafeIff {α : Type} (S : Prop) (x : Except Fault α) : Prop where
  fuel : x ≠ .error .outOfFuel
  cursor : S → x ≠ .error (.undefined .danglingCursor)
  returns : ∀ a, x = .ok a → S

section SafeIff

variable {α β : Type} {S : Prop} {x : Except Fault α} {f : α → Except Fault β}

theorem SafeIff.bind (hx : FailsOnly Fault.Tame x) (hf : ∀ a, x = .ok a → SafeIff S (f a)) :
    SafeIff S (x >>= f) := by
  cases h : x with
  | error e =>
    exact ⟨by simpa using (hx e h).1, fun _ => by simpa using (hx e h).2, fun _ h => by cases h⟩
  | ok a => exact hf a h

theorem SafeIff.bind_tame (hx : SafeIff S x) (hf : ∀ a, FailsOnly Fault.Tame (f a)) :
    SafeIff S (x >>= f) := by
  cases h : x with
  | error e =>
    subst h
    exact ⟨by simpa using hx.fuel, fun hS => by simpa using hx.cursor hS, fun _ h => by cases h⟩
  | ok a =>
    refine ⟨fun he => (hf a _ he).1 rfl, fun _ he => (hf a _ he).2 rfl, fun _ _ => hx.returns a h⟩

end SafeIff

theorem permits_tame : Permits Fault.Tame :=
  ⟨⟨by simp, by simp⟩, fun _ _ => ⟨by simp, by simp⟩, fun _ hu => ⟨by simp, by simpa using hu⟩⟩

namespace Detail.Decoder

variable {d d' d1 d2 : Decoder w} {src y : DecoderSource} {r r2 : DecoderRepair} {p : Incoming}
  {ps : List Incoming} {i k c ρ fuel n x : ℕ} {f : Fault}

/-- No two neighbouring missing sources can be decoded at the same time. -/
def Spaced (d : Decoder w) : Prop := ∀ k c, d.readyAt k ≠ none →
  d.missingSources.nextKey? k = some c → d.readyAt c = none

theorem spaced_congr (hr : d'.repairs = d.repairs) (hm : d'.missingSources = d.missingSources) :
    d'.Spaced ↔ d.Spaced := by
  simp only [Spaced, readyAt_congr hr hm, hm]

theorem nextKey?_removeDecoded (hki : k < i) : (d.removeDecoded k ρ).missingSources.nextKey? i =
    d.missingSources.nextKey? i := by
  apply Option.ext
  intro c
  have hkeys : ∀ j, i < j → (j ∈ (d.removeDecoded k ρ).missingSources.keys ↔
      j ∈ d.missingSources.keys) := by
    intro j hj
    rw [← OrdMap.contains_iff_mem_keys, ← OrdMap.contains_iff_mem_keys, removeDecoded,
      OrdMap.contains_erase, decide_eq_true (show j ≠ k by omega), Bool.true_and]
  rw [OrdMap.nextKey?_eq_some, OrdMap.nextKey?_eq_some]
  constructor
  · rintro ⟨hc, hic, hmin⟩
    exact ⟨(hkeys c hic).mp hc, hic, fun j hj hij => hmin j ((hkeys j hij).mpr hj) hij⟩
  · rintro ⟨hc, hic, hmin⟩
    exact ⟨(hkeys c hic).mpr hc, hic, fun j hj hij => hmin j ((hkeys j hij).mp hj) hij⟩

/-- The neighbours that can be decoded are looked for from the first one on. -/
theorem spaced_iff_removeDecoded (hL : d.ListedStored) (hk : d.readyAt k = some (ρ, r))
    (hmin : ∀ j < k, d.readyAt j = none) : d.Spaced ↔
      (∀ c, d.missingSources.nextKey? k = some c → d.readyAt c = none) ∧
        (d.removeDecoded k ρ).Spaced := by
  constructor
  · intro hs
    refine ⟨fun c hc => hs k c (by simp [hk]) hc, fun i c hi hc => ?_⟩
    have hik : i ≠ k := by
      rintro rfl
      apply hi
      rw [readyAt, OrdMap.contains_eq_false_iff.mp (not_missing_removeDecoded _ _ _)]
    rw [readyAt_removeDecoded hL hk hik] at hi
    have hki : k < i := lt_of_le_of_ne (not_lt.mp fun hlt => hi (hmin i hlt)) (Ne.symm hik)
    rw [nextKey?_removeDecoded hki] at hc
    have hic := (OrdMap.nextKey?_eq_some.mp hc).2.1
    rw [readyAt_removeDecoded hL hk (by omega)]
    exact hs i c hi hc
  · rintro ⟨hnext, hs⟩ i c hi hc
    by_cases hik : i = k
    · subst hik
      exact hnext c hc
    · have hki : k < i := lt_of_le_of_ne (not_lt.mp fun hlt => hi (hmin i hlt)) (Ne.symm hik)
      have hic := (OrdMap.nextKey?_eq_some.mp hc).2.1
      rw [← readyAt_removeDecoded hL hk hik] at hi
      rw [← readyAt_removeDecoded hL hk (show c ≠ k by omega)]
      have hnext : (d.removeDecoded k ρ).missingSources.nextKey? i = some c :=
        (nextKey?_removeDecoded hki).trans hc
      exact hs i c hi hnext

/-- The cursor denotes a missing source when it was not one that could be decoded. -/
theorem checkCursor_iff (hL1 : d1.ListedStored) (hdel : (d.removeDecoded k ρ).Delivers d1)
    (hL : d.ListedStored) (hk : d.readyAt k = some (ρ, r))
    (h : d1.decodeLeast b g (peel b g n) = .ok d') (hm : d2.missingSources = d'.missingSources) :
    d2.checkCursor (d.missingSources.nextKey? k) = .ok () ↔
      ∀ c, d.missingSources.nextKey? k = some c → d.readyAt c = none := by
  rw [checkCursor]
  cases hn : d.missingSources.nextKey? k with
  | none => simp
  | some c =>
    obtain ⟨hc, hkc, -⟩ := OrdMap.nextKey?_eq_some.mp hn
    rw [← OrdMap.contains_iff_mem_keys] at hc
    have hiff := decodeLeast_missing hL1 h c
    rw [missing_delivers hdel, readyAt_congr (repairs_delivers hdel) (missing_delivers hdel),
      readyAt_removeDecoded hL hk hkc.ne', removeDecoded, OrdMap.contains_erase,
      decide_eq_true hkc.ne', hc] at hiff
    simp only [hm, Option.all_some, hiff]
    simp

theorem safeIff_checkCursor {S P : Prop} {x : Except Fault (Decoder w)} {cursor : Option ℕ}
    (hx : SafeIff S x) (hP : ∀ d, x = .ok d → (d.checkCursor cursor = .ok () ↔ P)) :
    SafeIff (P ∧ S) (do
      let d ← x
      d.checkCursor cursor
      .ok d) := by
  cases h : x with
  | error e =>
    subst h
    exact ⟨by simpa using hx.fuel, fun hS => by simpa using hx.cursor hS.2, fun _ h => by cases h⟩
  | ok d =>
    have hS := hx.returns d h
    have hd := hP d h
    rw [ok_bind]
    rw [checkCursor] at hd ⊢
    split
    · next hc =>
      rw [if_pos hc] at hd
      exact ⟨by simp, fun _ => by simp, fun _ _ => ⟨hd.mp rfl, hS⟩⟩
    · next hc =>
      rw [if_neg hc] at hd
      refine ⟨by simp, fun hPS => ?_, fun _ h => by cases h⟩
      cases hd.mpr hPS.1

theorem decodeLeast_idle {nested : DecoderSource → Decoder w → Except Fault (Decoder w)}
    (hr : d.leastReady = none) : SafeIff d.Spaced (d.decodeLeast b g nested) := by
  rw [decodeLeast, hr]
  exact ⟨by simp, fun _ => by simp,
    fun _ _ k _ hk _ => absurd (leastReady_eq_none.mp hr k) hk⟩

/-- The cascade decodes every missing source that can be, with as many levels of recursion. -/
theorem decodeLeast_safe (n : ℕ) (d : Decoder w) (hL : d.ListedStored) (hn : d.repairs.size ≤ n) :
    SafeIff d.Spaced (d.decodeLeast b g (peel b g n)) := by
  induction n generalizing d with
  | zero =>
    have hnone : d.leastReady = none := by
      rw [leastReady_eq_none]
      intro k
      cases hk : d.readyAt k with
      | none => rfl
      | some p =>
        have := OrdMap.size_erase (readyAt_eq_some (r := p.2).mp hk).2.1
        omega
    exact decodeLeast_idle hnone
  | succ n ih =>
    cases hr : d.leastReady with
    | none => exact decodeLeast_idle hr
    | some p =>
      obtain ⟨k, ρ, r⟩ := p
      obtain ⟨hk, hmin⟩ := leastReady_eq_some hr
      have hsize := OrdMap.size_erase (readyAt_eq_some.mp hk).2.1
      rw [spaced_iff_removeDecoded hL hk hmin, decodeLeast, hr]
      refine SafeIff.bind (decodeMissing_fails permits_tame k ρ r d) fun q hd => ?_
      obtain ⟨y, d1⟩ := q
      obtain ⟨rfl, hids, hL1⟩ := listedStored_decodeMissing hL hk hd
      obtain rfl := (decodeMissing_spec hd).2
      have hno := not_missing_removeDecoded y.id ρ d
      have hnested : SafeIff (d.removeDecoded y.id ρ).Spaced
          (peel b g (n + 1) y (d.removeDecoded y.id ρ)) := by
        refine SafeIff.bind (offer_fails permits_tame _ _) fun d1 ho => ?_
        have hdel := offer_delivers ho
        rw [stripFromRepairs_not_missing (by rwa [missing_delivers hdel]), ok_bind,
          ← spaced_congr (repairs_delivers hdel) (missing_delivers hdel)]
        refine SafeIff.bind_tame (ih d1 (listedStored_delivers hdel hL1) ?_)
          fun _ => store_fails permits_tame _ _
        rw [repairs_delivers hdel]
        show (d.repairs.erase ρ).size ≤ n
        omega
      refine safeIff_checkCursor hnested fun d2 hp => ?_
      obtain ⟨d3, d4, ho, h3, h4⟩ := peel_nested hno hp
      have hdel := offer_delivers ho
      exact checkCursor_iff (listedStored_delivers hdel hL1) hdel hL hk h3
        (by rw [(store_spec h4).2])

/-- What a stored repair still encodes once a source is removed from those its entry references. -/
def remaining (d : Decoder w) (x ρ : ℕ) (r : DecoderRepair) : FlatSet ℕ :=
  if (d.missingSources.find? x).any fun cits => decide (ρ ∈ cits) then r.sourceIds.erase x
  else r.sourceIds

/-- Once source `x` is known, a missing source is referenced by one repair that encodes only it. -/
def readyWithout (d : Decoder w) (x k : ℕ) : Bool :=
  match (d.missingSources.erase x).find? k with
  | none => false
  | some cits =>
    match cits.toList with
    | [ρ] => (d.repairs.find? ρ).any fun r => decide ((d.remaining x ρ r).size = 1)
    | _ => false

/-- Once source `x` is known, no two neighbouring missing sources can be decoded. -/
def spacedWithout (d : Decoder w) (x : ℕ) : Bool :=
  (d.missingSources.erase x).keys.all fun k =>
    !d.readyWithout x k || !((d.missingSources.erase x).nextKey? k).any (d.readyWithout x)

theorem references_iff_any : (d.missingSources.find? x).any (fun cits => decide (ρ ∈ cits)) = true ↔
    d.References x ρ := by
  rw [Option.any_eq_true]
  simp [References]

theorem readyAt_strip (h : d.stripFromRepairs b g src = .ok d') :
    (d'.readyAt k).isSome = d.readyWithout src.id k := by
  obtain ⟨heq, hs⟩ := stripFromRepairs_spec h
  have hm : d'.missingSources = d.missingSources.erase src.id := by rw [heq]
  rw [readyAt, readyWithout, hm]
  cases (d.missingSources.erase src.id).find? k with
  | none => rfl
  | some cits =>
    rcases hc : cits.toList with _ | ⟨ρ, _ | ⟨_, _⟩⟩
    · simp only [hc]
      rfl
    · simp only [hc]
      by_cases href : d.References src.id ρ
      · obtain ⟨r, r', hr, hrm, hr'⟩ := (hs ρ).1 href
        obtain ⟨-, r1, -, rfl⟩ := removeSourceFromRepair_ok_iff.mp hrm
        rw [hr', hr, Option.any_some, remaining, if_pos (references_iff_any.mpr href)]
        dsimp only
        split <;> simp [*]
      · rw [(hs ρ).2 href]
        cases d.repairs.find? ρ with
        | none => rfl
        | some r =>
          rw [Option.any_some, remaining, if_neg (mt references_iff_any.mp href)]
          dsimp only
          split <;> simp [*]
    · simp only [hc]
      rfl

theorem readyWithout_not_missing (h : d.missingSources.contains x = false) (k : ℕ) :
    d.readyWithout x k = (d.readyAt k).isSome := by
  have hx := OrdMap.contains_eq_false_iff.mp h
  rw [readyAt, readyWithout, OrdMap.erase_of_find?_none hx]
  cases d.missingSources.find? k with
  | none => rfl
  | some cits =>
    rcases hc : cits.toList with _ | ⟨ρ, _ | ⟨_, _⟩⟩
    · simp only [hc]
      rfl
    · simp only [hc]
      cases d.repairs.find? ρ with
      | none => rfl
      | some r =>
        rw [Option.any_some, remaining, if_neg (by simp [hx])]
        dsimp only
        split <;> simp [*]
    · simp only [hc]
      rfl

theorem spaced_strip (h : d.stripFromRepairs b g src = .ok d') :
    d'.Spaced ↔ d.spacedWithout src.id = true := by
  have hm : d'.missingSources = d.missingSources.erase src.id := by rw [(stripFromRepairs_spec h).1]
  have hready : ∀ k, d'.readyAt k ≠ none ↔ d.readyWithout src.id k = true := fun k => by
    rw [← readyAt_strip h, Option.isSome_iff_ne_none]
  simp only [spacedWithout, List.all_eq_true, Bool.or_eq_true, Bool.not_eq_true', ← hm]
  constructor
  · intro hs k _
    rw [or_iff_not_imp_left, Bool.not_eq_false, ← hready, ← Bool.not_eq_true, Option.any_eq_true]
    rintro hk ⟨c, hc, hcr⟩
    exact (hready c).mpr hcr (hs k c hk hc)
  · intro hs k c hk hc
    have hkey : k ∈ d'.missingSources.keys := by
      cases hr : d'.readyAt k with
      | none => exact absurd hr hk
      | some p =>
        obtain ⟨⟨cits, hm, -⟩, -⟩ := readyAt_eq_some (r := p.2).mp hr
        exact OrdMap.mem_keys_iff.mpr ⟨cits, hm⟩
    rcases hs k hkey with hno | hno
    · rw [(hready k).mp hk] at hno
      cases hno
    · by_contra hcr
      rw [hc, Option.any_some, (hready c).mp hcr] at hno
      cases hno

theorem size_strip (h : d.stripFromRepairs b g src = .ok d') :
    d'.repairs.size = d.repairs.size := by
  rw [stripFromRepairs] at h
  cases hm : d.missingSources.find? src.id with
  | none =>
    rw [hm] at h
    cases h
    rfl
  | some cits =>
    simp only [hm, bind_ok_iff, Except.ok.injEq] at h
    obtain ⟨d1, h1, rfl⟩ := h
    have hloop : d1.repairs.size = d.repairs.size := by
      refine foldlM_invariant (fun u : Decoder w => u.repairs.size = d.repairs.size) ?_ rfl h1
      intro ρ _ u v hu hv
      obtain ⟨r, r', hr, -, rfl⟩ := stripRepair_ok_iff.mp hv
      exact (OrdMap.size_insert_old hr).trans hu
    exact hloop

theorem addSource_safe (hL : d.ListedStored) (src : DecoderSource) :
    SafeIff (d.spacedWithout src.id = true) (d.addSourceRecursive b g src) := by
  rw [addSourceRecursive_eq_peel hL, peel]
  refine SafeIff.bind (offer_fails permits_tame _ _) fun d1 ho =>
    SafeIff.bind (stripFromRepairs_fails permits_tame fun _ _ _ _ => Or.inr ⟨by simp, by simp⟩)
      fun d2 hs => SafeIff.bind_tame ?_ fun _ => store_fails permits_tame _ _
  have hdel := offer_delivers ho
  have hL2 := listedStored_strip (listedStored_delivers hdel hL) hs
  have hspaced : d2.Spaced ↔ d.spacedWithout src.id = true := by
    rw [spaced_strip hs]
    obtain ⟨c, f, o, rfl⟩ := hdel
    rfl
  rw [← hspaced]
  exact decodeLeast_safe _ d2 hL2 (by rw [size_strip hs, repairs_delivers hdel])

/-- Every nested call uses up one stored repair. -/
theorem decoded_rule (m : ℕ) : PeelRule b g
    (fun _ _ (d : Decoder w) => d.nbDecoded + d.repairs.size = m)
    (fun _ d => d.nbDecoded + d.repairs.size = m) where
  add := by
    intro _ src d d1 d2 hP _ ho hs
    obtain ⟨c, f, o, rfl⟩ := offer_delivers ho
    rw [size_strip hs, (stripFromRepairs_spec hs).1]
    exact hP
  decode := by
    intro _ src d k ρ r y hI _ hk _ _ _ _
    have := OrdMap.size_erase (readyAt_eq_some.mp hk).2.1
    show d.nbDecoded + 1 + (d.repairs.erase ρ).size = m
    omega
  store := by
    intro _ src d d' hI h
    rw [(store_spec h).2]
    exact hI

/-- Receiving a packet calls `add_source_recursive` with a source. -/
inductive AddsSource (b : Build) (g : GfComplete w) (d : Decoder w) :
    Incoming → DecoderSource → Decoder w → Prop
  | source {src : DecoderSource} (ho : d.outdated src.id = false)
      (hs : d.sources.contains src.id = false) : AddsSource b g d (.source src) src d
  | repair {r r2 : DecoderRepair} {d1 d2 : Decoder w} {src : DecoderSource}
      (hacc : d.accepts r = true) (ha : Accepts b g r (firstId r) d d1 d2 r2)
      (hone : r2.sourceIds.size = 1) (hc : createSourceFromRepair b g r2 = .ok src) :
      AddsSource b g d (.repair r) src (d2.removeDecoded src.id r.id)

theorem AddsSource.listedStored (h : AddsSource b g d p src d') (hL : d.ListedStored) :
    d'.ListedStored := by
  cases h with
  | source ho hs => exact hL
  | repair hacc ha hone hc =>
    have hA := ha.accepted (contains_of_accepts hacc)
    exact listedStored_removeDecoded (hA.listedStored hL) hA.stored
      (createSourceFromRepair_only hc hone)

/-- In every reachable state, adding a source terminates with at most as many nested calls as there
are stored repairs, and no cursor dangles if and only if no two neighbouring missing sources can be
decoded once the source is known. -/
theorem addSource_run {C : Decoder w → Incoming → Prop} {inOrder : Bool}
    (h : Run (receive b g) C (initial inOrder) ps d) (ha : AddsSource b g d p src d') :
    d'.addSourceRecursive b g src = peel b g (d'.repairs.size + 1) src d' ∧
    SafeIff (d'.spacedWithout src.id = true) (d'.addSourceRecursive b g src) ∧
    ∀ d2, d'.addSourceRecursive b g src = .ok d2 →
      d2.nbDecoded + d2.repairs.size = d'.nbDecoded + d'.repairs.size := by
  have hL := ha.listedStored (listedStored_reachable h)
  exact ⟨addSourceRecursive_eq_peel hL, addSource_safe hL src, fun d2 h2 =>
    (decoded_rule _).addSource hL rfl h2⟩

theorem addSource_run_slidingCalls : ∃ d d2, deliver .release gf16 false slidingCalls [4] = .ok d ∧
    d.addSourceRecursive .release gf16 ⟨1, [2], 1⟩ = .ok d2 ∧ d.spacedWithout 1 = true ∧
    d2.nbDecoded + d2.repairs.size = d.nbDecoded + d.repairs.size := by
  have hrun : (deliver .release gf16 false slidingCalls [4]).toOption.any (fun d =>
      !d.outdated 1 && !d.sources.contains 1 &&
        (d.addSourceRecursive .release gf16 ⟨1, [2], 1⟩).toOption.any fun _ => true) = true := by
    decide +kernel
  obtain ⟨d, hd, hc⟩ := exists_ok_of_any hrun
  simp only [Bool.and_eq_true, Bool.not_eq_true'] at hc
  obtain ⟨d2, hd2, -⟩ := exists_ok_of_any hc.2
  have hadds : AddsSource .release gf16 d (.source ⟨1, [2], 1⟩) ⟨1, [2], 1⟩ d :=
    .source hc.1.1 hc.1.2
  have hsafe := addSource_run (run_iff_foldlM.mpr hd) hadds
  exact ⟨d, d2, hd, hd2, hsafe.2.1.returns d2 hd2, hsafe.2.2 d2 hd2⟩

/-- The nested call for source 0 decodes source 2, which the cursor denotes. -/
theorem slidingCalls_danglingCursor : ∃ d, deliver .release gf16 false slidingCalls [4, 2] = .ok d ∧
    arrivals .release (packets .release gf16 slidingCalls) [1] = [.source ⟨1, [2], 1⟩] ∧
    AddsSource .release gf16 d (.source ⟨1, [2], 1⟩) ⟨1, [2], 1⟩ d ∧
    d.addSourceRecursive .release gf16 ⟨1, [2], 1⟩ = .error (.undefined .danglingCursor) := by
  have hrun : (deliver .release gf16 false slidingCalls [4, 2]).toOption.any (fun d =>
      !d.outdated 1 && !d.sources.contains 1 &&
        decide (d.addSourceRecursive .release gf16 ⟨1, [2], 1⟩ =
          .error (.undefined .danglingCursor))) = true := by
    decide +kernel
  obtain ⟨d, hd, hc⟩ := exists_ok_of_any hrun
  simp only [Bool.and_eq_true, Bool.not_eq_true', decide_eq_true_eq] at hc
  exact ⟨d, hd, by decide +kernel, .source hc.1.1 hc.1.2, hc.2⟩

end Detail.Decoder

end Netcode
