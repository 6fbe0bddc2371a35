import Netcode.Delivery

/-! Giving the waiting sources returns, when the addresses they hold are those of known sources. -/
namespace Netcode.Detail.Decoder

open Containers Runs

variable {w : FieldSize} {b : Build} {d d' : Decoder w}

/-- The addresses held by the waiting sources are those of known ones, whose identifiers are 32-bit
integers. -/
def Pointed (d : Decoder w) : Prop :=
  ∀ k ∈ d.orderedSources, d.sources.contains k = true ∧ k < 2 ^ 32

theorem pointed_sweep {k : ℕ} (hp : d.Pointed) (h : d.sweep k = .ok d') : d'.advance.Pointed := by
  obtain ⟨src, -, rfl⟩ := sweep_ok_iff.mp h
  exact fun j hj => hp j (FlatSet.mem_erase.mp hj).1

theorem sweep_returns {k : ℕ} (hp : d.Pointed) (hk : k ∈ d.orderedSources) :
    ∃ d', d.sweep k = .ok d' := by
  obtain ⟨src, hsrc⟩ := OrdMap.contains_iff.mp (hp k hk).1
  exact ⟨_, sweep_ok_iff.mpr ⟨src, hsrc, rfl⟩⟩

theorem flushLoop_returns {fuel : ℕ} (hp : d.Pointed) (hfuel : d.orderedSources.size ≤ fuel)
    (hmem : d.firstMissingSourceInOrder ∈ d.orderedSources) :
    ∃ d', flushLoop b fuel d.firstMissingSourceInOrder d = .ok d' := by
  induction fuel generalizing d with
  | zero =>
    have hpos := FlatSet.size_pos_iff.mpr ⟨_, hmem⟩
    omega
  | succ fuel ih =>
    obtain ⟨d1, h1⟩ := sweep_returns hp hmem
    have hp1 := pointed_sweep hp h1
    obtain ⟨src, -, hd1⟩ := sweep_ok_iff.mp h1
    simp only [flushLoop, decide_true, Build.assert_true, ok_bind, h1]
    cases hn : d.orderedSources.next? d.firstMissingSourceInOrder with
    | none => exact ⟨_, rfl⟩
    | some c =>
      obtain ⟨hc, hlt, -⟩ := FlatSet.next?_eq_some.mp hn
      dsimp only
      split
      · exact ⟨_, rfl⟩
      · next hgo =>
        have hfirst : d1.firstMissingSourceInOrder = d.firstMissingSourceInOrder := by rw [hd1]; rfl
        have hadv : d1.advance.firstMissingSourceInOrder =
            (d.firstMissingSourceInOrder + 1) % 2 ^ 32 := by rw [advance, hfirst]
        -- The counter cannot wrap around: the next source waiting has a 32-bit identifier.
        have heq : d1.advance.firstMissingSourceInOrder = c := by
          have hc32 := (hp c hc).2
          rw [hadv] at hgo ⊢
          rw [Nat.mod_eq_of_lt (by omega)] at hgo ⊢
          omega
        rw [← heq]
        refine ih hp1 ?_ ?_
        · have hsize := FlatSet.size_erase hmem
          rw [hd1]
          show (d.orderedSources.erase d.firstMissingSourceInOrder).size ≤ fuel
          omega
        · rw [heq, hd1]
          exact FlatSet.mem_erase.mpr ⟨hc, hlt.ne'⟩

theorem flushOrderedSources_returns (hp : d.Pointed) : ∃ d', d.flushOrderedSources b = .ok d' := by
  rw [flushOrderedSources]
  split
  · next hmem => exact flushLoop_returns hp le_rfl hmem
  · exact ⟨d, rfl⟩

theorem flushOrderedSources_pointed (hp : d.Pointed) (h : d.flushOrderedSources b = .ok d') :
    d'.Pointed :=
  flushOrderedSources_rule Pointed (fun _ _ hu _ hv => pointed_sweep hu hv) hp h

/-- A decoded source that is not known yet becomes known, and no other one changes. -/
theorem insertDecoded_returns {src : DecoderSource} (hp : d.Pointed) (hid : src.id < 2 ^ 32)
    (hnew : d.sources.contains src.id = false) : ∃ d', d.insertDecoded b src = .ok d' ∧
      d'.Pointed ∧ d'.sources = d.sources.insert src.id src := by
  have hnone := OrdMap.contains_eq_false_iff.mp hnew
  have hp1 : ({ d with sources := d.sources.insert src.id src } : Decoder w).Pointed := by
    intro k hk
    refine ⟨?_, (hp k hk).2⟩
    rw [OrdMap.contains_insert, (hp k hk).1, Bool.or_true]
  have hassert : b.assert .sourceAlreadyAdded (!d.sources.contains src.id) = .ok () :=
    Build.assert_eq_ok (by rw [hnew]; rfl)
  rw [insertDecoded, hassert, ok_bind, hnone, Option.getD_none]
  dsimp only
  split
  · exact ⟨_, rfl, hp1, rfl⟩
  · split
    · have hp2 : (callback src { d with sources := d.sources.insert src.id src }).advance.Pointed :=
        hp1
      obtain ⟨d', hd'⟩ := flushOrderedSources_returns (b := b) hp2
      exact ⟨d', hd', flushOrderedSources_pointed hp2 hd',
        sources_delivers (flushOrderedSources_delivers hd')⟩
    · refine ⟨_, rfl, fun k hk => ?_, rfl⟩
      rcases FlatSet.mem_insert.mp hk with rfl | hk
      · exact ⟨by rw [OrdMap.contains_insert, decide_eq_true rfl, Bool.true_or], hid⟩
      · exact hp1 k hk

end Netcode.Detail.Decoder
