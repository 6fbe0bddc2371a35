import Netcode.Links

/-! The cascade as a linear recursion: one decodable missing source after the other, in increasing
order, each decoded before the sources that wait for it are stored. -/
namespace Netcode.Detail.Decoder

open Containers Runs

variable {w : FieldSize} {b : Build} {g : GfComplete w} {d d' d1 : Decoder w}
  {src y : DecoderSource} {r : DecoderRepair} {i k c ρ fuel n : ℕ}

/-- The repair a missing source can be decoded from: the only one that references it, provided
that it references no other one. -/
def readyAt (d : Decoder w) (k : ℕ) : Option (ℕ × DecoderRepair) :=
  match d.missingSources.find? k with
  | none => none
  | some cits =>
    match cits.toList with
    | [ρ] =>
      match d.repairs.find? ρ with
      | none => none
      | some r => if r.sourceIds.size = 1 then some (ρ, r) else none
    | _ => none

/-- The first missing source that can be decoded. -/
def leastReady (d : Decoder w) : Option (ℕ × ℕ × DecoderRepair) :=
  d.missingSources.keys.findSome? fun k => (d.readyAt k).map fun p => (k, p)

/-- The cursor still denotes an entry of the missing sources, or their end. -/
def checkCursor (cursor : Option ℕ) (d : Decoder w) : Except Fault Unit :=
  if cursor.all (fun k => d.missingSources.contains k) then .ok ()
  else .error (.undefined .danglingCursor)

/-- Decode the first missing source that can be, then the other ones by the nested call for it. -/
def decodeLeast (b : Build) (g : GfComplete w)
    (nested : DecoderSource → Decoder w → Except Fault (Decoder w)) (d : Decoder w) :
    Except Fault (Decoder w) :=
  match d.leastReady with
  | none => .ok d
  | some (k, ρ, r) => do
    let (y, d1) ← decodeMissing b g k ρ r d
    let d2 ← nested y d1
    d2.checkCursor (d.missingSources.nextKey? k)
    .ok d2

/-- Add a source with at most `n` levels of recursion, each decoding at most one source. -/
def peel (b : Build) (g : GfComplete w) : ℕ → DecoderSource → Decoder w → Except Fault (Decoder w)
  | 0, _, _ => .error .outOfFuel
  | n + 1, src, d => do
    let d ← d.offer b src
    let d ← d.stripFromRepairs b g src
    let d ← d.decodeLeast b g (peel b g n)
    d.store b src

theorem readyAt_eq_some : d.readyAt k = some (ρ, r) ↔
    (∃ cits, d.missingSources.find? k = some cits ∧ cits.toList = [ρ]) ∧
      d.repairs.find? ρ = some r ∧ r.sourceIds.size = 1 := by
  rw [readyAt]
  cases hm : d.missingSources.find? k with
  | none => simp
  | some cits =>
    simp only [Option.some.injEq, exists_eq_left']
    split
    · next ρ' hc =>
      rw [hc]
      cases hr : d.repairs.find? ρ' with
      | none =>
        simp only [reduceCtorEq, List.cons.injEq, and_true, false_iff, not_and]
        rintro rfl h
        rw [hr] at h
        cases h
      | some r' =>
        simp only [Option.ite_none_right_eq_some, Option.some.injEq, Prod.mk.injEq,
          List.cons.injEq, and_true]
        constructor
        · rintro ⟨h1, rfl, rfl⟩
          exact ⟨rfl, hr, h1⟩
        · rintro ⟨rfl, h2, h3⟩
          rw [hr] at h2
          cases h2
          exact ⟨h3, rfl, rfl⟩
    · next hne =>
      simp only [reduceCtorEq, false_iff, not_and]
      exact fun hc => (hne ρ hc).elim

theorem references_of_readyAt (h : d.readyAt k = some (ρ, r)) : d.References k ρ := by
  obtain ⟨⟨cits, hm, hc⟩, -⟩ := readyAt_eq_some.mp h
  exact ⟨cits, hm, by simp [FlatSet.mem_iff, hc]⟩

theorem leastReady_eq_none : d.leastReady = none ↔ ∀ k, d.readyAt k = none := by
  simp only [leastReady, List.findSome?_eq_none_iff, Option.map_eq_none_iff]
  constructor
  · intro h k
    cases hr : d.readyAt k with
    | none => rfl
    | some p =>
      obtain ⟨⟨cits, hm, -⟩, -⟩ := readyAt_eq_some.mp hr
      rw [← hr]
      exact h k (OrdMap.mem_keys_iff.mpr ⟨cits, hm⟩)
  · exact fun h k _ => h k

theorem leastReady_eq_some (h : d.leastReady = some (k, ρ, r)) :
    d.readyAt k = some (ρ, r) ∧ ∀ j < k, d.readyAt j = none := by
  obtain ⟨l1, k', l2, hl, hk, hl1⟩ := List.findSome?_eq_some_iff.mp h
  simp only [Option.map_eq_some_iff, Prod.mk.injEq] at hk
  obtain ⟨p, hp, rfl, rfl⟩ := hk
  refine ⟨hp, fun j hj => ?_⟩
  cases hr : d.readyAt j with
  | none => rfl
  | some q =>
    obtain ⟨⟨cits, hm, -⟩, -⟩ := readyAt_eq_some.mp hr
    have hjk : j ∈ d.missingSources.keys := OrdMap.mem_keys_iff.mpr ⟨cits, hm⟩
    have hs := d.missingSources.keys_sorted
    rw [hl] at hjk hs
    rw [List.pairwise_append, List.pairwise_cons] at hs
    rcases List.mem_append.mp hjk with hj1 | hj2
    · have := hl1 j hj1
      simp [hr] at this
    · rcases List.mem_cons.mp hj2 with rfl | hj2
      · exact absurd hj (lt_irrefl _)
      · exact absurd hj (hs.2.1.1 j hj2).not_gt

/-- How many missing sources the loop still visits from a cursor on. -/
def ahead (d : Decoder w) (c : ℕ) : ℕ := (d.missingSources.keys.filter (fun j => c ≤ j)).length

theorem ahead_next (hc : c ∈ d.missingSources.keys) (hn : d.missingSources.nextKey? c = some k) :
    d.ahead k < d.ahead c := by
  obtain ⟨-, hck, -⟩ := OrdMap.nextKey?_eq_some.mp hn
  have hnd : (c :: d.missingSources.keys.filter (fun j => k ≤ j)).Nodup :=
    List.nodup_cons.mpr ⟨fun h => absurd hck (not_lt.mpr (by simpa using (List.mem_filter.mp h).2)),
      d.missingSources.keys_nodup.filter _⟩
  refine (List.Nodup.subperm hnd ?_).length_le
  intro j hj
  rcases List.mem_cons.mp hj with rfl | hj
  · exact List.mem_filter.mpr ⟨hc, by simp⟩
  · obtain ⟨hj, hkj⟩ := List.mem_filter.mp hj
    exact List.mem_filter.mpr ⟨hj, by simpa using hck.le.trans (by simpa using hkj)⟩

theorem ahead_mono (h : ∀ j, d'.missingSources.contains j = true →
    d.missingSources.contains j = true) : d'.ahead c ≤ d.ahead c := by
  refine (List.Nodup.subperm (d'.missingSources.keys_nodup.filter _) ?_).length_le
  intro j hj
  rw [List.mem_filter, ← OrdMap.contains_iff_mem_keys] at hj ⊢
  exact ⟨h j hj.1, hj.2⟩

theorem onlyRepair_of_readyAt (h : d.readyAt k = some (ρ, r)) :
    ∃ cits, d.missingSources.find? k = some cits ∧ d.onlyRepair cits = .ok (some (ρ, r)) := by
  obtain ⟨⟨cits, hm, hc⟩, hr, -⟩ := readyAt_eq_some.mp h
  exact ⟨cits, hm, by simp [onlyRepair, hc, hr]⟩

theorem onlyRepair_of_not_ready {cits : FlatSet ℕ} (hL : d.ListedStored)
    (hm : d.missingSources.find? k = some cits) (hr : d.readyAt k = none) :
    ∃ o, d.onlyRepair cits = .ok o ∧ ∀ p, o = some p → p.2.sourceIds.size ≠ 1 := by
  rw [onlyRepair]
  split
  · next ρ hc =>
    obtain ⟨r, hf, -⟩ := hL k ρ ⟨cits, hm, by simp [FlatSet.mem_iff, hc]⟩
    rw [hf]
    refine ⟨_, rfl, ?_⟩
    rintro p hp hone
    cases hp
    rw [readyAt_eq_some.mpr ⟨⟨cits, hm, hc⟩, hf, hone⟩] at hr
    cases hr
  · exact ⟨none, rfl, fun p hp => by cases hp⟩

variable {f : DecoderSource → Decoder w → Except Fault (Decoder w)}

theorem cascade_skip (hL : d.ListedStored) (hc : c ∈ d.missingSources.keys)
    (hr : d.readyAt c = none) : cascade b g f (fuel + 1) (some c) d =
      cascade b g f fuel (d.missingSources.nextKey? c) d := by
  obtain ⟨cits, hm⟩ := OrdMap.mem_keys_iff.mp hc
  obtain ⟨o, ho, hne⟩ := onlyRepair_of_not_ready hL hm hr
  rw [cascade, hm]
  simp only [ho, ok_bind]
  cases o with
  | none => rfl
  | some p => simp only [if_neg (hne p rfl)]

theorem cascade_decode (hr : d.readyAt c = some (ρ, r)) :
    cascade b g f (fuel + 1) (some c) d = (do
      let (y, d1) ← decodeMissing b g c ρ r d
      let d2 ← f y d1
      cascade b g f fuel (d.missingSources.nextKey? c) d2) := by
  obtain ⟨cits, hm, ho⟩ := onlyRepair_of_readyAt hr
  rw [cascade, hm]
  simp only [ho, ok_bind, if_pos (readyAt_eq_some.mp hr).2.2]

/-- Without a missing source that can be decoded, the loop changes nothing. -/
theorem cascade_of_not_ready (hL : d.ListedStored) (hr : ∀ k, d.readyAt k = none)
    (hc : c ∈ d.missingSources.keys) (hfuel : d.ahead c ≤ fuel) :
    cascade b g f fuel (some c) d = .ok d := by
  induction fuel generalizing c with
  | zero =>
    have : 0 < d.ahead c := List.length_pos_of_mem (List.mem_filter.mpr ⟨hc, by simp⟩)
    omega
  | succ fuel ih =>
    rw [cascade_skip hL hc (hr c)]
    cases hn : d.missingSources.nextKey? c with
    | none => rw [cascade]
    | some k =>
      have := ahead_next hc hn
      exact ih (OrdMap.nextKey?_eq_some.mp hn).1 (by omega)

/-- From a cursor on, the loop does not stop before the first missing source that can be decoded. -/
theorem cascade_to_least (hL : d.ListedStored) (hr : d.readyAt k = some (ρ, r))
    (hmin : ∀ j < k, d.readyAt j = none) (hc : c ∈ d.missingSources.keys) (hck : c ≤ k)
    (hfuel : d.ahead c ≤ fuel) : ∃ fuel', d.ahead k ≤ fuel' + 1 ∧
      cascade b g f fuel (some c) d = (do
        let (y, d1) ← decodeMissing b g k ρ r d
        let d2 ← f y d1
        cascade b g f fuel' (d.missingSources.nextKey? k) d2) := by
  induction fuel generalizing c with
  | zero =>
    have : 0 < d.ahead c := List.length_pos_of_mem (List.mem_filter.mpr ⟨hc, by simp⟩)
    omega
  | succ fuel ih =>
    rcases Nat.eq_or_lt_of_le hck with rfl | hlt
    · exact ⟨fuel, hfuel, cascade_decode hr⟩
    · rw [cascade_skip hL hc (hmin c hlt)]
      have hk : k ∈ d.missingSources.keys :=
        OrdMap.contains_iff_mem_keys.mp (references_contains (references_of_readyAt hr))
      cases hn : d.missingSources.nextKey? c with
      | none => exact absurd hlt (OrdMap.nextKey?_eq_none.mp hn k hk).not_gt
      | some c' =>
        obtain ⟨hc', -, hle⟩ := OrdMap.nextKey?_eq_some.mp hn
        have := ahead_next hc hn
        exact ih hc' (hle k hk hlt) (by omega)

/-- What a nested call leaves to the loop of its caller: nothing to decode. -/
structure Settled (d d' : Decoder w) : Prop where
  listed : d'.ListedStored
  idle : ∀ k, d'.readyAt k = none
  missing : ∀ k, d'.missingSources.contains k = true → d.missingSources.contains k = true

/-- Once the nested call has returned, the loop ends, unless its cursor dangles. -/
theorem cascade_after (hs : Settled d1 d')
    (hmissing : ∀ j, d1.missingSources.contains j = true → d.missingSources.contains j = true)
    (hk : k ∈ d.missingSources.keys) (hfuel : d.ahead k ≤ fuel + 1) :
    cascade b g f fuel (d.missingSources.nextKey? k) d' =
      (d'.checkCursor (d.missingSources.nextKey? k)).map fun _ => d' := by
  cases hn : d.missingSources.nextKey? k with
  | none =>
    rw [cascade]
    rfl
  | some c =>
    have hlt := ahead_next hk hn
    have hle : d'.ahead c ≤ d.ahead c := ahead_mono fun j hj => hmissing j (hs.missing j hj)
    by_cases hc : d'.missingSources.contains c = true
    · rw [cascade_of_not_ready hs.listed hs.idle (OrdMap.contains_iff_mem_keys.mp hc) (by omega)]
      simp [checkCursor, hc, Except.map]
    · rw [Bool.not_eq_true] at hc
      have hpos : 0 < d.ahead c := List.length_pos_of_mem
        (List.mem_filter.mpr ⟨(OrdMap.nextKey?_eq_some.mp hn).1, by simp⟩)
      obtain ⟨fuel, rfl⟩ : ∃ n, fuel = n + 1 := ⟨fuel - 1, by omega⟩
      rw [cascade, OrdMap.contains_eq_false_iff.mp hc]
      simp [checkCursor, hc, Except.map]

theorem ahead_le_size (d : Decoder w) (c : ℕ) : d.ahead c ≤ d.missingSources.size := by
  have h := List.length_filter_le (fun j => decide (c ≤ j)) d.missingSources.keys
  rwa [OrdMap.keys, List.length_map] at h

theorem readyAt_congr (hr : d'.repairs = d.repairs) (hm : d'.missingSources = d.missingSources)
    (k : ℕ) : d'.readyAt k = d.readyAt k := by
  rw [readyAt, readyAt, hr, hm]

/-- A repair a missing source can be decoded from lists only it. -/
theorem toList_of_readyAt (hL : d.ListedStored) (hr : d.readyAt k = some (ρ, r)) :
    r.sourceIds.toList = [k] := by
  obtain ⟨-, hf, hone⟩ := readyAt_eq_some.mp hr
  obtain ⟨i, hi⟩ := FlatSet.size_eq_one_iff.mp hone
  obtain ⟨r', hf', hk⟩ := hL k ρ (references_of_readyAt hr)
  rw [hf] at hf'
  cases hf'
  rw [FlatSet.mem_iff, hi, List.mem_singleton] at hk
  rw [hk, hi]

theorem listedStored_decodeMissing (hL : d.ListedStored) (hr : d.readyAt k = some (ρ, r))
    (h : decodeMissing b g k ρ r d = .ok (y, d')) :
    y.id = k ∧ r.sourceIds.toList = [k] ∧ d'.ListedStored := by
  obtain ⟨hcreate, rfl⟩ := decodeMissing_spec h
  obtain ⟨-, hf, hone⟩ := readyAt_eq_some.mp hr
  have hids := toList_of_readyAt hL hr
  have hy := createSourceFromRepair_only hcreate hone
  rw [hids, List.cons.injEq] at hy
  exact ⟨hy.1.symm, hids, listedStored_removeDecoded hL hf hids⟩

/-- There is nothing to decode, or the first missing source that can be decoded is, then added. -/
theorem decodeLeast_step (hL : d.ListedStored) (h : d.decodeLeast b g f = .ok d') :
    d' = d ∧ (∀ k, d.readyAt k = none) ∨ ∃ y ρ r, d.readyAt y.id = some (ρ, r) ∧
      (∀ j < y.id, d.readyAt j = none) ∧ r.sourceIds.toList = [y.id] ∧
      decodeMissing b g y.id ρ r d = .ok (y, d.removeDecoded y.id ρ) ∧
      (d.removeDecoded y.id ρ).ListedStored ∧ f y (d.removeDecoded y.id ρ) = .ok d' := by
  rw [decodeLeast] at h
  cases hr : d.leastReady with
  | none =>
    rw [hr] at h
    cases h
    exact Or.inl ⟨rfl, leastReady_eq_none.mp hr⟩
  | some p =>
    obtain ⟨k, ρ, r⟩ := p
    simp only [hr, bind_ok_iff] at h
    obtain ⟨⟨y, d1⟩, hd, d2, hp, -, -, h5⟩ := h
    cases h5
    obtain ⟨hk, hmin⟩ := leastReady_eq_some hr
    obtain ⟨rfl, hids, hL1⟩ := listedStored_decodeMissing hL hk hd
    obtain rfl := (decodeMissing_spec hd).2
    exact Or.inr ⟨y, ρ, r, hk, hmin, hids, hd, hL1, hp⟩

theorem contains_of_erase {m : OrdMap ℕ (FlatSet ℕ)} (h : (m.erase i).contains k = true) :
    m.contains k = true := by
  rw [OrdMap.contains_erase, Bool.and_eq_true] at h
  exact h.2

theorem settled_store (hs : Settled d d1) (h : d1.store b src = .ok d') : Settled d d' := by
  have heq := (store_spec h).2
  refine ⟨listedStored_store hs.listed h, fun k => ?_, fun k hk => hs.missing k ?_⟩
  · rw [heq]
    exact (readyAt_congr rfl rfl k).trans (hs.idle k)
  · rw [heq] at hk
    exact hk

/-- The loop is one decoding, when nested calls decode all there is to decode. -/
theorem cascade_eq_decodeLeast (hL : d.ListedStored)
    (hf : ∀ y d1, d1.ListedStored → ∀ d2, f y d1 = .ok d2 → Settled d1 d2) :
    cascade b g f d.missingSources.size d.missingSources.firstKey? d = d.decodeLeast b g f ∧
      ∀ d', d.decodeLeast b g f = .ok d' → Settled d d' := by
  rw [decodeLeast]
  cases hr : d.leastReady with
  | none =>
    have hidle := leastReady_eq_none.mp hr
    constructor
    · cases hfirst : d.missingSources.firstKey? with
      | none => rw [cascade]
      | some c =>
        have hc := (OrdMap.firstKey?_eq_some.mp hfirst).1
        exact cascade_of_not_ready hL hidle hc (ahead_le_size d c)
    · intro d' h
      cases h
      exact ⟨hL, hidle, fun _ hk => hk⟩
  | some p =>
    obtain ⟨k, ρ, r⟩ := p
    obtain ⟨hready, hmin⟩ := leastReady_eq_some hr
    have hk : k ∈ d.missingSources.keys :=
      OrdMap.contains_iff_mem_keys.mp (references_contains (references_of_readyAt hready))
    obtain ⟨c, hfirst⟩ : ∃ c, d.missingSources.firstKey? = some c := by
      rw [← Option.ne_none_iff_exists']
      intro hn
      obtain ⟨cits, hc⟩ := OrdMap.mem_keys_iff.mp hk
      rw [OrdMap.firstKey?_eq_none.mp hn k] at hc
      cases hc
    obtain ⟨hc, hle⟩ := OrdMap.firstKey?_eq_some.mp hfirst
    obtain ⟨fuel, hfuel, hloop⟩ := cascade_to_least hL hready hmin hc (hle k hk) (ahead_le_size d c)
    rw [hfirst, hloop]
    dsimp only
    cases hd : decodeMissing b g k ρ r d with
    | error e => exact ⟨rfl, fun d' h => by cases h⟩
    | ok p =>
      obtain ⟨y, d1⟩ := p
      obtain ⟨-, -, hL1⟩ := listedStored_decodeMissing hL hready hd
      have hm1 : ∀ j, d1.missingSources.contains j = true →
          d.missingSources.contains j = true := by
        intro j hj
        rw [(decodeMissing_spec hd).2] at hj
        exact contains_of_erase hj
      simp only [ok_bind]
      cases hn : f y d1 with
      | error e => exact ⟨rfl, fun d' h => by cases h⟩
      | ok d2 =>
        have hs := hf y d1 hL1 d2 hn
        simp only [ok_bind]
        rw [cascade_after hs hm1 hk hfuel]
        cases hcur : d2.checkCursor (d.missingSources.nextKey? k) with
        | error e => exact ⟨rfl, fun d' h => by cases h⟩
        | ok u =>
          refine ⟨rfl, fun d' h => ?_⟩
          cases h
          exact ⟨hs.listed, hs.idle, fun j hj => hm1 j (hs.missing j hj)⟩

theorem decodeLeast_congr {f' : DecoderSource → Decoder w → Except Fault (Decoder w)}
    (hL : d.ListedStored) (hf : ∀ y d1, d1.ListedStored → f y d1 = f' y d1) :
    d.decodeLeast b g f = d.decodeLeast b g f' := by
  rw [decodeLeast, decodeLeast]
  cases hr : d.leastReady with
  | none => rfl
  | some p =>
    obtain ⟨k, ρ, r⟩ := p
    dsimp only
    cases hd : decodeMissing b g k ρ r d with
    | error e => rfl
    | ok p =>
      simp only [ok_bind]
      rw [hf _ _ (listedStored_decodeMissing hL (leastReady_eq_some hr).1 hd).2.2]

/-- The cascade is the linear recursion. -/
theorem addSource_eq_peel (n : ℕ) (src : DecoderSource) (d : Decoder w) (hL : d.ListedStored) :
    addSource b g n src d = peel b g n src d ∧
      ∀ d', peel b g n src d = .ok d' → Settled d d' := by
  induction n generalizing src d with
  | zero => exact ⟨rfl, fun d' h => by cases h⟩
  | succ n ih =>
    rw [addSource, peel]
    cases ho : d.offer b src with
    | error e => exact ⟨rfl, fun d' h => by cases h⟩
    | ok d1 =>
      have hdel := offer_delivers ho
      have hL1 := listedStored_delivers hdel hL
      simp only [ok_bind]
      cases hs : d1.stripFromRepairs b g src with
      | error e => exact ⟨rfl, fun d' h => by cases h⟩
      | ok d2 =>
        have hL2 := listedStored_strip hL1 hs
        have hm2 : ∀ k, d2.missingSources.contains k = true →
            d.missingSources.contains k = true := by
          intro k hk
          rw [(stripFromRepairs_spec hs).1] at hk
          rw [← missing_delivers hdel]
          exact contains_of_erase hk
        obtain ⟨heq, hset⟩ := cascade_eq_decodeLeast (f := addSource b g n) hL2
          fun y d3 h3 d4 h4 => (ih y d3 h3).2 d4 ((ih y d3 h3).1 ▸ h4)
        have hcongr : d2.decodeLeast b g (addSource b g n) = d2.decodeLeast b g (peel b g n) :=
          decodeLeast_congr hL2 fun y d3 h3 => (ih y d3 h3).1
        simp only [ok_bind]
        rw [heq, hcongr]
        refine ⟨rfl, fun d' h => ?_⟩
        obtain ⟨d3, h3, h4⟩ := bind_ok_iff.mp h
        have hs3 := hset d3 (hcongr ▸ h3)
        have hs4 := settled_store hs3 h4
        exact ⟨hs4.listed, hs4.idle, fun k hk => hm2 k (hs4.missing k hk)⟩

/-- What to prove of each step of the recursion: `P` holds when a source is about to be added while
those of a list are still to be stored, `I` holds in between. -/
structure PeelRule (b : Build) (g : GfComplete w)
    (P : List DecoderSource → DecoderSource → Decoder w → Prop)
    (I : List DecoderSource → Decoder w → Prop) : Prop where
  add : ∀ {pending src d d1 d2}, P pending src d → d.ListedStored → d.offer b src = .ok d1 →
    d1.stripFromRepairs b g src = .ok d2 → I (src :: pending) d2
  decode : ∀ {pending src d k ρ r y}, I (src :: pending) d → d.ListedStored →
    d.readyAt k = some (ρ, r) → (∀ j < k, d.readyAt j = none) → r.sourceIds.toList = [k] →
    decodeMissing b g k ρ r d = .ok (y, d.removeDecoded k ρ) → y.id = k →
    P (src :: pending) y (d.removeDecoded k ρ)
  store : ∀ {pending src d d'}, I (src :: pending) d → d.store b src = .ok d' → I pending d'

variable {P : List DecoderSource → DecoderSource → Decoder w → Prop}
  {I : List DecoderSource → Decoder w → Prop} {pending : List DecoderSource}

theorem PeelRule.peel (hr : PeelRule b g P I) (hL : d.ListedStored) (hP : P pending src d)
    (h : peel b g n src d = .ok d') : I pending d' := by
  induction n generalizing pending src d d' with
  | zero => cases h
  | succ n ih =>
    simp only [Decoder.peel, bind_ok_iff] at h
    obtain ⟨d1, ho, d2, hs, d3, h3, h4⟩ := h
    have hI := hr.add hP hL ho hs
    have hL2 := listedStored_strip (listedStored_delivers (offer_delivers ho) hL) hs
    refine hr.store ?_ h4
    obtain ⟨rfl, -⟩ | ⟨y, ρ, r, hk, hmin, hids, hd, hL4, hp⟩ := decodeLeast_step hL2 h3
    · exact hI
    · exact ih hL4 (hr.decode hI hL2 hk hmin hids hd rfl) hp

theorem addSourceRecursive_eq_peel (hL : d.ListedStored) :
    d.addSourceRecursive b g src = Decoder.peel b g (d.repairs.size + 1) src d :=
  (addSource_eq_peel _ src d hL).1

/-- What the steps of the recursion keep, adding a source keeps. -/
theorem PeelRule.addSource (hr : PeelRule b g P I) (hL : d.ListedStored) (hP : P [] src d)
    (h : d.addSourceRecursive b g src = .ok d') : I [] d' := by
  rw [addSourceRecursive_eq_peel hL] at h
  exact hr.peel hL hP h

theorem settled_addSource (hL : d.ListedStored)
    (h : d.addSourceRecursive b g src = .ok d') : Settled d d' := by
  rw [addSourceRecursive_eq_peel hL] at h
  exact (addSource_eq_peel _ src d hL).2 d' h

end Netcode.Detail.Decoder
