import Netcode.Links
import Netcode.Regions

/-! What the operations can end with when they do not return. -/
namespace Netcode

open Runs Encodings

variable {w : FieldSize} {b : Build} {g : GfComplete w} {Q : Fault → Prop}

/-- A kind of faults that has all those the operations the cascade calls can end with. -/
structure Permits (Q : Fault → Prop) : Prop where
  overrun : Q .overrun
  assertion : ∀ a, a ≠ .encodesOnlyOne → Q (.assertion a)
  undefined : ∀ u, u ≠ .danglingCursor → Q (.undefined u)

theorem Permits.word (hQ : Permits Q) : Q (.undefined .partialWord) := hQ.undefined _ (by simp)

theorem Permits.buffer (hQ : Permits Q) : Q (.undefined .outOfBuffer) := hQ.undefined _ (by simp)

theorem within_fails (hQ : Permits Q) (len size : ℕ) : FailsOnly Q (b.within len size) := by
  rw [Build.within]
  split
  · exact failsOnly_error hQ.overrun
  · exact failsOnly_ok ()

theorem invertCoefficient_fails (hQ : Permits Q) (c : BitVec w.bits) :
    FailsOnly Q (invertCoefficient b g c) := by
  rw [invertCoefficient]
  refine failsOnly_bind (Build.assert_fails (Or.inr (hQ.assertion _ (by simp)))) fun _ _ => ?_
  split
  · exact failsOnly_error (hQ.undefined _ (by simp))
  · exact failsOnly_ok _

namespace SquareMatrix

theorem read_fails (hQ : Permits Q) (m : SquareMatrix w) (k : ℕ) : FailsOnly Q (m.read k) := by
  rw [read]
  split
  · exact failsOnly_error (hQ.undefined _ (by simp))
  · exact failsOnly_error (hQ.undefined _ (by simp))
  · exact failsOnly_ok _

theorem write_fails (hQ : Permits Q) (m : SquareMatrix w) (k : ℕ) (v : BitVec w.bits) :
    FailsOnly Q (m.write k v) := by
  rw [write]
  split
  · exact failsOnly_ok _
  · exact failsOnly_error (hQ.undefined _ (by simp))

end SquareMatrix

namespace Matrices

open SquareMatrix

variable {n i : ℕ}

theorem swapAt_fails (hQ : Permits Q) (s t : ℕ) (m : Matrices w) (k : ℕ) :
    FailsOnly Q (swapAt s t m k) := by
  refine failsOnly_bind (read_fails hQ _ _) fun _ _ => failsOnly_bind (read_fails hQ _ _) fun _ _ =>
    failsOnly_bind (write_fails hQ _ _ _) fun _ _ => failsOnly_bind (write_fails hQ _ _ _)
      fun _ _ => ?_
  exact failsOnly_bind (read_fails hQ _ _) fun _ _ => failsOnly_bind (read_fails hQ _ _) fun _ _ =>
    failsOnly_bind (write_fails hQ _ _ _) fun _ _ => failsOnly_bind (write_fails hQ _ _ _)
      fun _ _ => failsOnly_ok _

theorem scaleAt_fails (hQ : Permits Q) (s : ℕ) (v : BitVec w.bits) (m : Matrices w) (k : ℕ) :
    FailsOnly Q (scaleAt g s v m k) := by
  refine failsOnly_bind (read_fails hQ _ _) fun _ _ =>
    failsOnly_bind (write_fails hQ _ _ _) fun _ _ => ?_
  exact failsOnly_bind (read_fails hQ _ _) fun _ _ =>
    failsOnly_bind (write_fails hQ _ _ _) fun _ _ => failsOnly_ok _

theorem addAt_fails (hQ : Permits Q) (s t : ℕ) (m : Matrices w) (k : ℕ) :
    FailsOnly Q (addAt s t m k) := by
  refine failsOnly_bind (read_fails hQ _ _) fun _ _ => failsOnly_bind (read_fails hQ _ _) fun _ _ =>
    failsOnly_bind (write_fails hQ _ _ _) fun _ _ => ?_
  exact failsOnly_bind (read_fails hQ _ _) fun _ _ => failsOnly_bind (read_fails hQ _ _) fun _ _ =>
    failsOnly_bind (write_fails hQ _ _ _) fun _ _ => failsOnly_ok _

theorem addMultipleAt_fails (hQ : Permits Q) (v : BitVec w.bits) (s t : ℕ) (m : Matrices w)
    (k : ℕ) : FailsOnly Q (addMultipleAt g v s t m k) := by
  refine failsOnly_bind (read_fails hQ _ _) fun _ _ => failsOnly_bind (read_fails hQ _ _) fun _ _ =>
    failsOnly_bind (write_fails hQ _ _ _) fun _ _ => ?_
  exact failsOnly_bind (read_fails hQ _ _) fun _ _ => failsOnly_bind (read_fails hQ _ _) fun _ _ =>
    failsOnly_bind (write_fails hQ _ _ _) fun _ _ => failsOnly_ok _

theorem addToInverseAt_fails (hQ : Permits Q) (v : BitVec w.bits) (s t : ℕ) (m : Matrices w)
    (k : ℕ) : FailsOnly Q (addToInverseAt g v s t m k) :=
  failsOnly_bind (read_fails hQ _ _) fun _ _ => failsOnly_bind (read_fails hQ _ _) fun _ _ =>
    failsOnly_bind (write_fails hQ _ _ _) fun _ _ => failsOnly_ok _

theorem findPivot_fails (hQ : Permits Q) (m : Matrices w) (fuel j : ℕ) :
    FailsOnly Q (findPivot n i m fuel j) := by
  induction fuel generalizing j with
  | zero => exact failsOnly_ok j
  | succ fuel ih =>
    refine failsOnly_bind (read_fails hQ _ _) fun _ _ => ?_
    split
    · exact ih (j + 1)
    · exact failsOnly_ok j

theorem eliminate_fails (hQ : Permits Q) (m : Matrices w) (j : ℕ) :
    FailsOnly Q (eliminate g n i m j) := by
  refine failsOnly_bind (read_fails hQ _ _) fun _ _ => ?_
  split
  · exact failsOnly_ok m
  · split
    · exact failsOnly_foldlM (addAt_fails hQ _ _) _ m
    · exact failsOnly_foldlM (addMultipleAt_fails hQ _ _ _) _ m

theorem triangulate_fails (hQ : Permits Q) (m : Matrices w) :
    FailsOnly Q (triangulate b g n i m) := by
  have hpivot : FailsOnly Q (pivotRow n i m) := by
    refine failsOnly_bind (read_fails hQ _ _) fun _ _ => ?_
    split
    · exact findPivot_fails hQ m _ _
    · exact failsOnly_ok i
  refine failsOnly_bind hpivot fun j _ => ?_
  split
  · exact failsOnly_ok _
  · have hswap : FailsOnly Q (swap n i j m) := by
      rw [swap]
      split
      · exact failsOnly_ok m
      · exact failsOnly_foldlM (swapAt_fails hQ _ _) _ m
    have hnormalize : ∀ m, FailsOnly Q (normalize b g n i m) := by
      intro m
      refine failsOnly_bind (read_fails hQ _ _) fun _ _ => ?_
      split
      · exact failsOnly_ok m
      · exact failsOnly_bind (invertCoefficient_fails hQ _) fun _ _ =>
          failsOnly_foldlM (scaleAt_fails hQ _ _) _ m
    exact failsOnly_bind hswap fun m1 _ => failsOnly_bind (hnormalize m1) fun m2 _ =>
      failsOnly_bind (failsOnly_foldlM (eliminate_fails hQ) _ m2) fun _ _ => failsOnly_ok _

theorem triangular_fails (hQ : Permits Q) (l : List ℕ) (m : Matrices w) :
    FailsOnly Q (triangular b g n l m) := by
  induction l generalizing m with
  | nil => exact failsOnly_ok _
  | cons i l ih =>
    refine failsOnly_bind (triangulate_fails hQ m) fun p _ => ?_
    obtain ⟨found, m1⟩ := p
    cases found with
    | true => exact ih m1
    | false => exact failsOnly_ok _

theorem clearAbove_fails (hQ : Permits Q) (m : Matrices w) (j : ℕ) :
    FailsOnly Q (clearAbove g n i m j) := by
  refine failsOnly_bind (read_fails hQ _ _) fun _ _ => ?_
  split
  · exact failsOnly_ok m
  · exact failsOnly_bind (write_fails hQ _ _ _) fun _ _ =>
      failsOnly_foldlM (addToInverseAt_fails hQ _ _ _) _ _

end Matrices

theorem invert_fails (hQ : Permits Q) (mat inv : SquareMatrix w) :
    FailsOnly Q (invert b g mat inv) := by
  refine failsOnly_bind (Build.assert_fails (Or.inr (hQ.assertion _ (by simp)))) fun _ _ => ?_
  refine failsOnly_bind (failsOnly_foldlM (fun m i => failsOnly_foldlM (fun m j =>
    failsOnly_bind (SquareMatrix.write_fails hQ _ _ _) fun _ _ => failsOnly_ok _) _ m) _ _)
    fun m1 _ => ?_
  refine failsOnly_bind (Matrices.triangular_fails hQ _ m1) fun p _ => ?_
  obtain ⟨found, m2⟩ := p
  cases found with
  | false => exact failsOnly_ok _
  | true =>
    simp only [Bool.not_true, Bool.false_eq_true, if_false]
    split
    · exact failsOnly_error (hQ.undefined _ (by simp))
    · exact failsOnly_bind (failsOnly_foldlM (fun m i =>
        failsOnly_foldlM (Matrices.clearAbove_fails hQ) _ m) _ m2) fun _ _ => failsOnly_ok _

namespace Detail.Decoder

open Containers

variable {d d' : Decoder w} {src : DecoderSource} {r : DecoderRepair} {fuel ρ : ℕ}

theorem removeSourceDataFromRepair_fails (hQ : Permits Q)
    (h : 1 < r.sourceIds.size ∨ Q (.assertion .encodesOnlyOne)) :
    FailsOnly Q (removeSourceDataFromRepair b g src r) := by
  refine failsOnly_bind (Build.assert_fails (h.imp_left decide_eq_true)) fun _ _ => ?_
  refine failsOnly_bind (Build.assert_fails (Or.inr (hQ.assertion _ (by simp)))) fun _ _ => ?_
  exact failsOnly_bind (within_fails hQ _ _) fun _ _ =>
    failsOnly_bind (multiplyAdd_fails hQ.word hQ.buffer _ _ _ _) fun _ _ => failsOnly_ok _

theorem stripFromRepairs_fails (hQ : Permits Q)
    (h : ∀ ρ r, d.References src.id ρ → d.repairs.find? ρ = some r →
      1 < r.sourceIds.size ∨ Q (.assertion .encodesOnlyOne)) :
    FailsOnly Q (d.stripFromRepairs b g src) := by
  rw [stripFromRepairs]
  cases hm : d.missingSources.find? src.id with
  | none => exact failsOnly_ok d
  | some cits =>
    refine failsOnly_bind ?_ fun _ _ => failsOnly_ok _
    -- Every repair is removed from once, so that it is as before the loop.
    have hnd := cits.nodup
    have hsub : ∀ ρ ∈ cits.toList, ∀ r, d.repairs.find? ρ = some r →
        1 < r.sourceIds.size ∨ Q (.assertion .encodesOnlyOne) := fun ρ hρ r =>
      h ρ r ⟨cits, hm, hρ⟩
    generalize cits.toList = l at hnd hsub
    clear hm h
    induction l generalizing d with
    | nil => exact failsOnly_ok d
    | cons ρ l ih =>
      rw [List.nodup_cons] at hnd
      rw [List.foldlM_cons]
      refine failsOnly_bind ?_ fun u hu => ?_
      · rw [stripRepair]
        cases hr : d.repairs.find? ρ with
        | none => exact failsOnly_error (hQ.undefined _ (by simp))
        | some r =>
          refine failsOnly_bind (failsOnly_bind (removeSourceDataFromRepair_fails hQ
            (hsub ρ List.mem_cons_self r hr)) fun _ _ => ?_) fun _ _ => failsOnly_ok _
          refine failsOnly_bind (Build.assert_fails (Or.inr (hQ.assertion _ (by simp)))) fun _ _ => ?_
          split
          · exact failsOnly_ok _
          · exact failsOnly_error (hQ.undefined _ (by simp))
      · obtain ⟨r, r', hr, -, rfl⟩ := stripRepair_ok_iff.mp hu
        refine ih hnd.2 fun σ hσ q hq => hsub σ (List.mem_cons_of_mem ρ hσ) q ?_
        have hne : σ ≠ ρ := by
          rintro rfl
          exact hnd.1 hσ
        exact (OrdMap.find?_insert_ne hne).symm.trans hq

theorem createSourceFromRepair_fails (hQ : Permits Q) (r : DecoderRepair) :
    FailsOnly Q (createSourceFromRepair b g r) := by
  refine failsOnly_bind (Build.assert_fails (Or.inr (hQ.assertion _ (by simp)))) fun _ _ => ?_
  split
  · exact failsOnly_error (hQ.undefined _ (by simp))
  · exact failsOnly_bind (invertCoefficient_fails hQ _) fun _ _ =>
      failsOnly_bind (within_fails hQ _ _) fun _ _ =>
        failsOnly_bind (multiply_fails hQ.word hQ.buffer _ _ _ _) fun _ _ => failsOnly_ok _

theorem decodeMissing_fails (hQ : Permits Q) (k ρ : ℕ) (r : DecoderRepair) (d : Decoder w) :
    FailsOnly Q (decodeMissing b g k ρ r d) := by
  rw [decodeMissing]
  split
  · exact failsOnly_error (hQ.undefined _ (by simp))
  · refine failsOnly_bind (Build.assert_fails (Or.inr (hQ.assertion _ (by simp)))) fun _ _ => ?_
    refine failsOnly_bind (Build.assert_fails (Or.inr (hQ.assertion _ (by simp)))) fun _ _ => ?_
    exact failsOnly_bind (createSourceFromRepair_fails hQ r) fun _ _ => failsOnly_ok _

theorem store_fails (hQ : Permits Q) (src : DecoderSource) (d : Decoder w) :
    FailsOnly Q (d.store b src) := by
  refine failsOnly_bind (Build.assert_fails (Or.inr (hQ.assertion _ (by simp)))) fun _ _ => ?_
  split <;> dsimp only <;> split <;> exact failsOnly_ok _

theorem sweep_fails (hQ : Permits Q) (k : ℕ) (d : Decoder w) : FailsOnly Q (d.sweep k) := by
  rw [sweep, callbackOrdered]
  split
  · exact failsOnly_error (hQ.undefined _ (by simp))
  · exact failsOnly_ok _

/-- Every iteration of a flush gives one of the waiting sources. -/
theorem flushLoop_fails (hQ : Permits Q) (hmem : d.firstMissingSourceInOrder ∈ d.orderedSources)
    (hfuel : d.orderedSources.size ≤ fuel) :
    FailsOnly Q (flushLoop b fuel d.firstMissingSourceInOrder d) := by
  induction fuel generalizing d with
  | zero =>
    have := FlatSet.size_pos_iff.mpr ⟨_, hmem⟩
    omega
  | succ fuel ih =>
    intro f h
    simp only [flushLoop] at h
    rcases bind_error_iff.mp h with h | ⟨-, -, h⟩
    · exact Build.assert_fails (Or.inr (hQ.assertion _ (by simp))) f h
    rcases bind_error_iff.mp h with h | ⟨d1, h1, h⟩
    · exact sweep_fails hQ _ _ f h
    have hadv := advance_le d
    obtain ⟨src, -, rfl⟩ := sweep_ok_iff.mp h1
    cases hn : d.orderedSources.next? d.firstMissingSourceInOrder with
    | none =>
      rw [hn] at h
      cases h
    | some c =>
      simp only [hn] at h
      obtain ⟨hc, hlt, -⟩ := FlatSet.next?_eq_some.mp hn
      split at h
      · cases h
      · next hgo =>
        have hle : ¬ d.advance.firstMissingSourceInOrder < c := hgo
        have heq : d.advance.firstMissingSourceInOrder = c := by omega
        have hsize := FlatSet.size_erase hmem
        refine ih (d := advance { d.callback src with
          orderedSources := d.orderedSources.erase d.firstMissingSourceInOrder }) ?_ ?_ f ?_
        · show d.advance.firstMissingSourceInOrder ∈ _
          rw [heq]
          exact FlatSet.mem_erase.mpr ⟨hc, hlt.ne'⟩
        · show (d.orderedSources.erase d.firstMissingSourceInOrder).size ≤ fuel
          omega
        · rw [← heq] at h
          exact h

theorem flushOrderedSources_fails (hQ : Permits Q) (d : Decoder w) :
    FailsOnly Q (d.flushOrderedSources b) := by
  rw [flushOrderedSources]
  split
  · next hmem => exact flushLoop_fails hQ hmem le_rfl
  · exact failsOnly_ok _

theorem offer_fails (hQ : Permits Q) (src : DecoderSource) (d : Decoder w) :
    FailsOnly Q (d.offer b src) := by
  rw [offer]
  split
  · exact failsOnly_ok _
  · split
    · exact flushOrderedSources_fails hQ _
    · exact failsOnly_ok d

theorem fillCoefficients_fails (hQ : Permits Q) (d : Decoder w) :
    FailsOnly Q d.fillCoefficients :=
  failsOnly_foldlM (fun m _ => failsOnly_foldlM
    (fun _ _ => SquareMatrix.write_fails hQ _ _ _) _ m) _ _

theorem dropFaulty_fails (hQ : Permits Q) (k : ℕ) (d : Decoder w) :
    FailsOnly Q (d.dropFaulty k) := by
  rw [dropFaulty]
  split
  · exact failsOnly_error (hQ.undefined _ (by simp))
  · exact failsOnly_ok _

theorem decodeSymbol_fails (hQ : Permits Q) (n : ℕ)
    (rows : List (BitVec w.bits × DecoderRepair)) : FailsOnly Q (decodeSymbol b g n rows) := by
  rw [decodeSymbol]
  split
  · exact failsOnly_bind (Build.assert_fails (Or.inr (hQ.assertion _ (by simp)))) fun _ _ =>
      failsOnly_error (hQ.undefined _ (by simp))
  · refine failsOnly_bind (multiply_fails hQ.word hQ.buffer _ _ _ _) fun _ _ =>
      failsOnly_foldlM (fun _ _ => ?_) _ _
    split
    · exact failsOnly_ok _
    · exact multiplyAdd_fails hQ.word hQ.buffer _ _ _ _

theorem insertDecoded_fails (hQ : Permits Q) (src : DecoderSource) (d : Decoder w) :
    FailsOnly Q (d.insertDecoded b src) := by
  refine failsOnly_bind (Build.assert_fails (Or.inr (hQ.assertion _ (by simp)))) fun _ _ => ?_
  dsimp only
  split
  · exact failsOnly_ok _
  · split
    · exact flushOrderedSources_fails hQ _
    · exact failsOnly_ok _

theorem decodeAll_fails (hQ : Permits Q) (d : Decoder w) : FailsOnly Q (d.decodeAll b g) := by
  refine failsOnly_bind (failsOnly_foldlM (fun u miss => ?_) _ d) fun _ _ => failsOnly_ok _
  refine failsOnly_bind ?_ fun rows _ => failsOnly_bind (decodeSymbol_fails hQ _ rows) fun _ _ =>
    insertDecoded_fails hQ _ u
  exact failsOnly_bind (failsOnly_mapM (fun _ => SquareMatrix.read_fails hQ _ _) _) fun _ _ =>
    failsOnly_ok _

theorem attemptFullDecoding_fails (hQ : Permits Q) (d : Decoder w) :
    FailsOnly Q (d.attemptFullDecoding b g) := by
  rw [attemptFullDecoding]
  split
  · exact failsOnly_ok d
  · refine failsOnly_bind (Build.assert_fails (Or.inr (hQ.assertion _ (by simp)))) fun _ _ =>
      failsOnly_bind (Build.assert_fails (Or.inr (hQ.assertion _ (by simp)))) fun _ _ =>
        failsOnly_bind (fillCoefficients_fails hQ d) fun _ _ =>
          failsOnly_bind (invert_fails hQ _ _) fun p _ => ?_
    obtain ⟨rCol, m⟩ := p
    cases rCol with
    | some k => exact dropFaulty_fails hQ k _
    | none => exact decodeAll_fails hQ _

theorem dropOutdated_fails (hQ : Permits Q) (id : ℕ) (d : Decoder w) :
    FailsOnly Q (d.dropOutdated b id) := by
  have hdrop : ∀ (u : Decoder w) (cit : ℕ × DecoderRepair), FailsOnly Q (dropRepair b id u cit) := by
    intro u cit
    refine failsOnly_bind (Build.assert_fails (Or.inr (hQ.assertion _ (by simp)))) fun _ _ => ?_
    split
    · exact failsOnly_error (hQ.undefined _ (by simp))
    · split
      · refine failsOnly_bind (failsOnly_foldlM (fun v i => ?_) _ u) fun _ _ => failsOnly_ok _
        rw [unlink]
        split
        · exact failsOnly_error (hQ.undefined _ (by simp))
        · exact failsOnly_ok _
      · exact failsOnly_ok u
  refine failsOnly_bind (failsOnly_foldlM hdrop _ _) fun u _ => ?_
  refine failsOnly_bind ?_ fun _ _ => failsOnly_ok _
  rw [dropOrdered]
  split
  · exact failsOnly_bind (failsOnly_foldlM (fun v i => sweep_fails hQ i v) _ u) fun _ _ =>
      flushOrderedSources_fails hQ _
  · exact failsOnly_ok u

theorem link_fails (hQ : Permits Q) {id : ℕ} (h : d.sources.contains id = true → ∀ r,
    d.repairs.find? ρ = some r → 1 < r.sourceIds.size ∨ Q (.assertion .encodesOnlyOne)) :
    FailsOnly Q (link b g ρ d id) := by
  rw [link]
  cases hs : d.sources.find? id with
  | none => exact failsOnly_ok _
  | some src =>
    cases hr : d.repairs.find? ρ with
    | none => exact failsOnly_error (hQ.undefined _ (by simp))
    | some r =>
      exact failsOnly_bind (removeSourceDataFromRepair_fails hQ
        (h (OrdMap.contains_of_find? hs) r hr)) fun _ _ => failsOnly_ok _

end Detail.Decoder

end Netcode
