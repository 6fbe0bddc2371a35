import Netcode.GaloisField
import Netcode.Library.Combinations

/-! What the operations of the field on regions make of the vectors of their words. -/
namespace Netcode

open Encodings Combinations

variable {w : FieldSize} {g : GfComplete w} {src dst s bs : List Byte} {len n i : ℕ}
  {c : BitVec w.bits}

/-- Subtracting is adding. -/
theorem Gf.sub_eq_add (u v : ℕ → Gf g) : u - v = u + v := rfl

theorem bitAt_append (u v : List Byte) (p : ℕ) :
    bitAt (u ++ v) p = if p / 8 < u.length then bitAt u p else bitAt v (p - 8 * u.length) := by
  rw [bitAt]
  split
  · next h => rw [List.getD_append _ _ _ _ h, bitAt]
  · next h =>
    rw [List.getD_append_right _ _ _ _ (not_lt.mp h), bitAt,
      show (p - 8 * u.length) / 8 = p / 8 - u.length by omega,
      show (p - 8 * u.length) % 8 = p % 8 by omega]

theorem bitAt_zeros (n p : ℕ) : bitAt (List.replicate n 0#8) p = false := by
  by_cases h : p / 8 < n <;> simp [bitAt, List.getD_eq_getElem?_getD, h]

theorem vec_congr (h : ∀ p, bitAt src p = bitAt dst p) : vec g src = vec g dst := by
  funext i
  apply Gf.ext
  apply BitVec.eq_of_getLsbD_eq
  intro t _
  rw [vec, vec, getLsbD_wordAt, getLsbD_wordAt, h]

/-- Zeros after a region change none of its words. -/
theorem vec_append_zeros (bs : List Byte) (n : ℕ) :
    vec g (bs ++ List.replicate n 0#8) = vec g bs := by
  refine vec_congr fun p => ?_
  rw [bitAt_append, bitAt_zeros]
  split
  · rfl
  · next h => exact (bitAt_eq_false (not_lt.mp h)).symm

theorem vec_take_eq (h : w.wordBytes ∣ n) (bs : List Byte) :
    vec g (bs.take n) = truncate (w.wordCount n) (vec g bs) := vec_take g h

/-- A region has no word past its end. -/
theorem truncate_vec (h : w.wordBytes ∣ n) (hlen : bs.length ≤ n) :
    truncate (w.wordCount n) (vec g bs) = vec g bs := by
  rw [← vec_take_eq h, List.take_of_length_le hlen]

theorem vec_region_smul (h : w.wordBytes ∣ bs.length) :
    vec g (region g c bs) = (⟨c⟩ : Gf g) • vec g bs := vec_region g c h

theorem multiply_ok_iff : multiply g src dst len c = .ok s ↔ w.wordBytes ∣ len ∧
    len ≤ src.length ∧ len ≤ dst.length ∧ s = region g c (src.take len) ++ dst.drop len := by
  rw [multiply]
  split
  · next h => simp [h]
  · next h =>
    rw [not_not] at h
    split
    · next hl =>
      simp only [reduceCtorEq, false_iff]
      omega
    · next hl =>
      simp only [Except.ok.injEq, h, true_and, eq_comm (b := s)]
      constructor
      · exact fun hs => ⟨by omega, by omega, hs⟩
      · exact fun hs => hs.2.2

theorem multiplyAdd_ok_iff : multiplyAdd g src dst len c = .ok s ↔ w.wordBytes ∣ len ∧
    len ≤ src.length ∧ len ≤ dst.length ∧
    s = xorBytes (region g c (src.take len)) (dst.take len) ++ dst.drop len := by
  rw [multiplyAdd]
  split
  · next h => simp [h]
  · next h =>
    rw [not_not] at h
    split
    · next hl =>
      simp only [reduceCtorEq, false_iff]
      omega
    · next hl =>
      simp only [Except.ok.injEq, h, true_and, eq_comm (b := s)]
      constructor
      · exact fun hs => ⟨by omega, by omega, hs⟩
      · exact fun hs => hs.2.2

/-- Multiplying into a buffer of zeros. -/
theorem vec_multiply (h : multiply g src (List.replicate n 0#8) len c = .ok s) :
    s.length = n ∧ vec g s = (⟨c⟩ : Gf g) • vec g (src.take len) := by
  obtain ⟨hw, hsrc, hdst, rfl⟩ := multiply_ok_iff.mp h
  have hlen : (src.take len).length = len := by rw [List.length_take, min_eq_left hsrc]
  rw [List.length_replicate] at hdst
  refine ⟨?_, ?_⟩
  · rw [List.length_append, length_region, hlen, List.length_drop, List.length_replicate]
    omega
  · rw [List.drop_replicate, vec_append_zeros, vec_region_smul (hlen.symm ▸ hw)]

/-- Multiplying into a buffer as long as what is multiplied. -/
theorem vec_multiply_exact (hdst : dst.length = len) (h : multiply g src dst len c = .ok s) :
    s.length = len ∧ vec g s = (⟨c⟩ : Gf g) • vec g (src.take len) := by
  obtain ⟨hw, hsrc, -, rfl⟩ := multiply_ok_iff.mp h
  have hlen : (src.take len).length = len := by rw [List.length_take, min_eq_left hsrc]
  have hdrop : dst.drop len = [] := List.drop_eq_nil_iff.mpr hdst.le
  rw [hdrop, List.append_nil, length_region]
  exact ⟨hlen, vec_region_smul (hlen.symm ▸ hw)⟩

/-- Adding a multiple to a region, of which more words may follow. -/
theorem vec_multiplyAdd (h : multiplyAdd g src dst len c = .ok s) :
    s.length = dst.length ∧ vec g s = (⟨c⟩ : Gf g) • vec g (src.take len) + vec g dst := by
  obtain ⟨hw, hsrc, hdst, rfl⟩ := multiplyAdd_ok_iff.mp h
  have hlen : (src.take len).length = len := by rw [List.length_take, min_eq_left hsrc]
  have hreg : (region g c (src.take len)).length = len := by rw [length_region, hlen]
  have htake : (dst.take len).length = len := by rw [List.length_take, min_eq_left hdst]
  have hxor : (xorBytes (region g c (src.take len)) (dst.take len)).length = len := by
    rw [length_xorBytes (hreg.trans htake.symm), hreg]
  refine ⟨?_, ?_⟩
  · rw [List.length_append, hxor, List.length_drop]
    omega
  · rw [← vec_region_smul (hlen.symm ▸ hw)]
    funext i
    apply Gf.ext
    apply BitVec.eq_of_getLsbD_eq
    intro t ht
    have hbit : ∀ p, bitAt (xorBytes (region g c (src.take len)) (dst.take len) ++ dst.drop len) p =
        (bitAt (region g c (src.take len)) p ^^ bitAt dst p) := by
      intro p
      rw [bitAt_append, hxor]
      split
      · next hp => rw [bitAt_xorBytes (hreg.trans htake.symm), bitAt_take, decide_eq_true hp,
          Bool.true_and]
      · next hp =>
        rw [bitAt_eq_false (show (region g c (src.take len)).length ≤ p / 8 by omega), Bool.false_xor]
        conv_rhs => rw [← List.take_append_drop len dst, bitAt_append, htake, if_neg hp]
    simp only [Pi.add_apply, Gf.word_add, vec, BitVec.getLsbD_xor, getLsbD_wordAt, hbit]
    simp [ht]

section Failures

open Runs

variable {Q : Fault → Prop} (hword : Q (.undefined .partialWord))
  (hbuffer : Q (.undefined .outOfBuffer))

include hword hbuffer

theorem multiply_fails (src dst : List Byte) (len : ℕ) (c : BitVec w.bits) :
    FailsOnly Q (multiply g src dst len c) := by
  rw [multiply]
  split
  · exact failsOnly_error hword
  · split
    · exact failsOnly_error hbuffer
    · exact failsOnly_ok _

theorem multiplyAdd_fails (src dst : List Byte) (len : ℕ) (c : BitVec w.bits) :
    FailsOnly Q (multiplyAdd g src dst len c) := by
  rw [multiplyAdd]
  split
  · exact failsOnly_error hword
  · split
    · exact failsOnly_error hbuffer
    · exact failsOnly_ok _

end Failures

theorem sizeVec_xor_add (y z : BitVec 16) : sizeVec g (y ^^^ z) = sizeVec g y + sizeVec g z :=
  sizeVec_xor g y z

theorem sizeVec_multiplySize_smul (hw : w ≠ .w32) (z : BitVec 16) (c : BitVec w.bits) :
    sizeVec g (multiplySize g z c) = (⟨c⟩ : Gf g) • sizeVec g z := sizeVec_multiplySize hw g z c

end Netcode
