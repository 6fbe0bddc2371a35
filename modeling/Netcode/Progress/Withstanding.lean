import Netcode.Passing
import Netcode.Robustness.Receiving
import Netcode.Totality

/-! Packets of an encoder whose equations are right are consistent with what the decoder stores. -/
namespace Netcode.Detail.Decoder

open Containers Encodings Runs

variable {w : FieldSize} {b : Build} {g : GfComplete w}

variable {d d1 d2 : Decoder w} {src : DecoderSource} {r r2 : DecoderRepair} {p : Incoming}
  {D : ℕ → Option (List Byte)} {i k ρ : ℕ}

/-- A source that a repair lists is no longer than this repair. -/
theorem fitsIn_of_right (hD : ∀ i x, D i = some x → Sendable w x) (hs : src.Intact D)
    (hr : r.Right g D) (hmem : src.id ∈ r.sourceIds) : FitsIn w src.symbolSize r := by
  obtain ⟨x, hx, hsize, -⟩ := hs
  obtain ⟨y, hy, hle⟩ := hr.committed src.id hmem
  obtain rfl : x = y := Option.some.inj (hx.symm.trans hy)
  rw [hsize]
  exact ⟨hle, (hD _ _ hx).2.2⟩

/-- The last source of a repair is no longer than it. -/
theorem fitsIn_decodedSize (hw : w ≠ .w32) (hD : ∀ i x, D i = some x → Sendable w x)
    (hr : r.Right g D) (hids : r.sourceIds.toList = [k]) : FitsIn w (decodedSize g r k) r := by
  obtain ⟨src, hsrc, hid, hintact⟩ := create_right (b := .release) hw hD hr hids
  have hmem : src.id ∈ r.sourceIds := by
    rw [hid, FlatSet.mem_iff, hids]
    exact List.mem_singleton_self k
  have hfits := fitsIn_of_right hD hintact hr hmem
  simp only [createSourceFromRepair, bind_ok_iff, hids] at hsrc
  obtain ⟨-, -, inv, hinv, -, -, s, -, heq⟩ := hsrc
  cases heq
  rw [invertCoefficient_eq .release g (coefficient_ne_zero r.id k)] at hinv
  cases hinv
  exact hfits

/-- No missing source can be decoded when every repair lists several. -/
theorem idle_of_peeled (hp : d.Peeled) (k : ℕ) : d.readyAt k = none := by
  cases hk : d.readyAt k with
  | none => rfl
  | some q =>
    obtain ⟨ρ, r⟩ := q
    obtain ⟨-, hr, hone⟩ := readyAt_eq_some.mp hk
    have := hp ρ r hr
    omega

theorem cascadeFits_of_peeled (hp : d.Peeled) : d.CascadeFits g := by
  have hno := idle_of_peeled hp
  exact ⟨fun k c hk => absurd (hno k) hk, fun k _ _ hk => by simp [hno] at hk,
    fun k _ _ hk => by simp [hno] at hk, fun k _ _ hk => by simp [hno] at hk⟩

/-- Full decoding relies on nothing more than links and right repairs. -/
theorem attemptFits_of_right (hw : w ≠ .w32) (hD : ∀ i x, D i = some x → Sendable w x)
    (hlinked : d.Linked) (href : d.Referenced) (hp : d.Peeled) (hright : d.AllRight g D)
    (hle : d.repairs.size ≤ d.missingSources.size) (he : d.enoughRepairs = true) :
    d.AttemptFits g := by
  obtain ⟨-, hpos, hge⟩ := enoughRepairs_iff.mp he
  have hsize : d.missingSources.size = d.repairs.size := le_antisymm hge hle
  have hstored : ∀ coeffs, ∀ row ∈ d.rowsOf coeffs, ∃ ρ, d.repairs.find? ρ = some row.2 := by
    intro coeffs row hrow
    obtain ⟨e, he, heq⟩ := List.mem_map.mp (List.of_mem_zip (a := row.1) (b := row.2) hrow).2
    exact ⟨e.1, heq ▸ OrdMap.mem_entries_iff.mp he⟩
  refine ⟨hsize.symm, several_of_idle hlinked href (idle_of_peeled hp) hsize hpos,
    fun _ i hi => hlinked.disjoint i hi, fun _ i hi coeffs _ hrec row hrow _ => ?_⟩
  have hsolves : Solves g d.missingSources.keys i (d.rowsOf coeffs) := by
    refine ⟨hi, fun row hrow j hj => ?_, hrec⟩
    obtain ⟨ρ, hρ⟩ := hstored coeffs row hrow
    exact OrdMap.contains_iff_mem_keys.mp (references_contains (hlinked.stored j ρ ⟨_, hρ, hj⟩))
  have hrows : ∀ row ∈ d.rowsOf coeffs, row.2.Right g D := by
    intro row hrow
    obtain ⟨ρ, hρ⟩ := hstored coeffs row hrow
    exact (hright ρ row.2 hρ).2
  obtain ⟨symbol, -, x, hx, hlen, -⟩ := hsolves.decode (b := .release) hw hD hrows
  have hlen : (decodeSize g (d.rowsOf coeffs)).toNat = x.length := hlen
  rw [hlen]
  rcases min_choice x.length row.2.symbolSize with hm | hm
  · rw [hm]
    exact (hD i x hx).2.2
  · rw [hm]
    exact (hrows row hrow).aligned

/-- Nothing is missing from a repair that is accepted, and nothing old is dropped. -/
theorem dropFits_of_linked (hlinked : d.Linked) (hp : d.Peeled) (first : ℕ) : d.DropFits first := by
  intro ρ q hq
  have hsize := hp ρ q hq
  refine ⟨fun hnil => ?_, fun _ i hi => references_contains (hlinked.stored i ρ ⟨q, hq, hi⟩)⟩
  rw [FlatSet.size, hnil] at hsize
  exact absurd hsize (Nat.not_lt_zero 1)

/-- A useful repair is linked to the missing sources it lists. -/
theorem accepts_of_right (hD : ∀ i x, D i = some x → Sendable w x) (hI : d.Sound)
    (hlinked : d.Linked) (hp : d.Peeled) (hF : d.Faithful g D) (hr : r.Buffered)
    (hright : r.Right g D) (huseful : (d.keeping (firstId r)).useless r = false) :
    ∃ d1 d2 r2, Accepts b g r (firstId r) d d1 d2 r2 := by
  obtain ⟨d1, h1⟩ := dropOutdated_returns (b := b) hI.queued (dropFits_of_linked hlinked hp (firstId r))
  obtain ⟨-, -, -, -, -, hdrops⟩ := dropOutdated_cases h1
  have hb1 := contents_insertRepair (contents_dropOutdated hI.buffered h1) hr
  have hF1 := contents_dropOutdated hF h1
  have huse1 : d1.useless r = false := (useless_keeping hdrops).trans huseful
  obtain ⟨d2, h2⟩ := linkLoop_returns (b := b) (g := g) hb1 OrdMap.find?_insert_self huse1
    fun i hi src hsrc => by
      obtain ⟨rfl, hs⟩ := hF1.sources i src hsrc
      exact fitsIn_of_right hD hs hright hi
  obtain ⟨r2, hr2, -⟩ := (linkLoop_spec OrdMap.find?_insert_self h2).repair
  exact ⟨d1, d2, r2, h1, huse1, h2, hr2⟩

/-- What an incoming repair lists once the known sources are removed from it is not missing more. -/
theorem linkFits_of_follows (hw : w ≠ .w32) (hD : ∀ i x, D i = some x → Sendable w x)
    (hI : d.Sound) (hbal : d.Balanced) (hp : d.Peeled) (hF : d.Faithful g D) (hr : r.Buffered)
    (hright : r.Right g D) (hacc : d.accepts r = true) (hretains : d.Retains g (.repair r))
    (huseful : (d.keeping (firstId r)).useless r = false) :
    (d.keeping (firstId r)).LinkFits g r := by
  obtain ⟨d1, d2, r2, ha⟩ :=
    accepts_of_right (b := .release) hD hI hbal.linked hp hF hr hright huseful
  have hnew := contains_of_accepts hacc
  have hA := ha.accepted hnew
  obtain ⟨hrepairs, hmissing⟩ := drops_keeping hI.listed hA.drops
  obtain ⟨hout, hout2⟩ := outline_accepts ha hnew
  replace hout := hout.trans (outline_linking hrepairs hmissing hA.drops.sources)
  have hannounced : d1.announced g r = (d.keeping (firstId r)).announced g r := by
    simp only [announced, knownOf, unknown, hA.drops.sources]
    rfl
  rw [hannounced] at hout2
  have hids : r2.sourceIds = (d.keeping (firstId r)).unknown r :=
    DecoderRepair.sourceIds_outline hout2
  have hs2 : d2.sources = d1.sources := by rw [hA.frame]
  have hl2 : d2.lastId = d1.lastId := by rw [hA.frame]
  have hF2 := contents_accepts (closed_intact hw hD) hF hright ha
  refine ⟨fun i hi src hsrc => ?_, fun k hk => ⟨?_, ?_⟩, fun hmany henough => ?_⟩
  · have hsrc1 : d1.sources.find? i = some src := by
      rw [hA.drops.sources]
      exact hsrc
    obtain ⟨rfl, hintact⟩ := (contents_dropOutdated hF ha.drop).sources i src hsrc1
    exact fitsIn_of_right hD hintact hright hi
  · have hfits := fitsIn_decodedSize hw hD (hF2.repairs _ r2 hA.stored).2 (hids ▸ hk)
    rwa [FitsIn, decodedSize_outline hout2, DecoderRepair.symbolSize_outline hout2] at hfits
  · refine cascadeFits_outline (outline_removeDecoded hout.symm) ?_ ?_
      (cascadeFits_of_peeled (peeled_removeDecoded (k := k) hA hp))
    · exact (hs2.trans hA.drops.sources).symm
    · exact (hl2.trans hA.drops.lastId).symm
  · rw [← hids] at hmany
    rw [← enoughRepairs_outline hout] at henough
    obtain ⟨i, hi, hunknown⟩ := exists_unknown ha.useful
    have hpos := FlatSet.size_pos_iff.mpr ⟨i, (hA.ids i).mpr ⟨hi, hunknown⟩⟩
    obtain ⟨hlinked, href, hle, -, -⟩ :=
      balanced_accepted hbal hacc hA (by omega) (balances_of_retains hretains)
    have hp2 : d2.Peeled := by
      intro ρ q hq
      by_cases hρ : ρ = r.id
      · subst hρ
        rw [hA.stored] at hq
        cases hq
        omega
      · exact peeled_others hA hp hρ hq
    refine attemptFits_outline hout.symm
      (attemptFits_of_right hw hD hlinked href hp2 hF2.repairs hle henough) fun i _ hno => ?_
    rw [hs2, hA.drops.sources] at hno
    exact hno

theorem outline_settled_of_peeled (hp : d.Peeled) : d.settled.outline = d.outline := by
  have hno := idle_of_peeled hp
  refine outline_congr (OrdMap.ext_find? fun k => ?_) (OrdMap.ext_find? fun ρ => Option.ext fun q => ?_)
  · rw [settled, OrdMap.find?_filter_key, hno]
    rfl
  · rw [find?_settled]
    exact and_iff_left fun k hk => by simp [hno] at hk

/-- The decoder withstands what follows what it stores. -/
theorem withstands_of_follows (hw : w ≠ .w32) (hD : ∀ i x, D i = some x → Sendable w x)
    (hI : d.Sound) (hbal : d.Balanced) (hp : d.Peeled) (hF : d.Faithful g D)
    (hbuf : Incoming.Buffered p) (hcarry : Carries (DecoderSource.Intact D) (DecoderRepair.Right g D) p)
    (hf : d.FollowsStored p) (hretains : d.Retains g p)
    (hne : ∀ r, p = .repair r → r.sourceIds.toList ≠ []) : d.Withstands g p := by
  cases p with
  | repair r =>
    refine ⟨hne r rfl, fun hacc => ⟨dropFits_of_linked hbal.linked hp (firstId r), ?_⟩⟩
    exact linkFits_of_follows hw hD hI hbal hp hF hbuf hcarry hacc hretains
  | source src =>
    intro _ _
    have hmissing : d.missingSources.contains src.id = false := by
      rw [← Bool.not_eq_true, missing_iff_listed hbal.linked hbal.referenced, mem_listed_links]
      rintro ⟨ρ, q, hq, hi⟩
      exact hf ρ q hq hi
    have hout := outline_withoutSource_not_missing (g := g) hmissing
    refine ⟨fun ρ q href _ => ?_, cascadeFits_outline hout rfl rfl (cascadeFits_of_peeled hp), ?_⟩
    · rw [references_contains href] at hmissing
      cases hmissing
    · -- Nothing changes for the repairs, which are fewer than the missing sources.
      rw [enoughRepairs_outline ((outline_settled hout).trans (outline_settled_of_peeled hp)),
        enoughRepairs_iff]
      have hcounted := hbal.counted
      rw [Counted] at hcounted
      omega

end Netcode.Detail.Decoder
