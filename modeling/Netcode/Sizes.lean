import Netcode.Fields
import Netcode.Gf16
import Netcode.Library.Runs

/-! The sizes of sources, as repairs encode them. -/
namespace Netcode

open Runs

variable {w : FieldSize} {g : GfComplete w} {b : Build} {r k : ℕ} {e z : BitVec 16}
  {l : List (ℕ × BitVec 16)}

/-- Add sources, given by their identifiers and sizes, to the encoded size of a repair, or remove
them from it. -/
def addSizes (g : GfComplete w) (r : ℕ) (e : BitVec 16) (l : List (ℕ × BitVec 16)) : BitVec 16 :=
  l.foldl (fun e s => multiplySize g s.2 (coefficient w r s.1) ^^^ e) e

theorem addSizes_eq (g : GfComplete w) (r : ℕ) (e : BitVec 16) (l : List (ℕ × BitVec 16)) :
    addSizes g r e l = addSizes g r 0#16 l ^^^ e := by
  induction l generalizing e with
  | nil => exact BitVec.zero_xor.symm
  | cons s l ih =>
    rw [addSizes, List.foldl_cons, ← addSizes, ih, addSizes, addSizes, List.foldl_cons, ← addSizes,
      ← addSizes, ih (_ ^^^ 0#16), BitVec.xor_zero, BitVec.xor_assoc]

theorem addSizes_perm {l' : List (ℕ × BitVec 16)} (h : l.Perm l') :
    addSizes g r e l = addSizes g r e l' := by
  refine h.foldl_eq' (fun x _ y _ e => ?_) e
  rw [← BitVec.xor_assoc, BitVec.xor_comm (multiplySize g y.2 _), BitVec.xor_assoc]

/-- Once the others are removed, the encoded size is the product of the size that is left. -/
theorem addSizes_others (hk : k < l.length) :
    addSizes g r (addSizes g r 0#16 l) (l.eraseIdx k) =
      multiplySize g l[k].2 (coefficient w r l[k].1) := by
  have hfirst : addSizes g r 0#16 l = addSizes g r 0#16 (l.eraseIdx k) ^^^
      multiplySize g l[k].2 (coefficient w r l[k].1) := by
    rw [addSizes_perm (List.getElem_cons_eraseIdx_perm hk).symm, addSizes, List.foldl_cons,
      ← addSizes, addSizes_eq, BitVec.xor_zero]
  rw [addSizes_eq, hfirst, ← BitVec.xor_assoc, BitVec.xor_self, BitVec.zero_xor]

/-- The bits of a word that the narrowing to 16 bits drops. -/
def dropped (x : BitVec w.bits) : BitVec w.bits := x ^^^ (x.setWidth 16).setWidth w.bits

/-- A size can be divided by a coefficient it was multiplied by: always in the fields of at most 16
bits, and in the field of 32 bits when the bits dropped, divided by it, leave the 16 low ones. -/
def Divisible (g : GfComplete w) (z : BitVec 16) (c : BitVec w.bits) : Prop :=
  w = .w32 → (g.multiply (dropped (g.multiply (z.setWidth w.bits) c))
    (g.divide 1#w.bits c)).setWidth 16 = 0#16

theorem divide_one_mul {c : BitVec w.bits} (hc : c ≠ 0#w.bits) :
    (⟨g.divide 1#w.bits c⟩ * ⟨c⟩ : Gf g) = 1 :=
  Gf.ext (g.divide_multiply _ c hc)

theorem multiplySize_inverse (hw : w ≠ .w32) {c : BitVec w.bits} (hc : c ≠ 0#w.bits) :
    multiplySize g (multiplySize g z c) (g.divide 1#w.bits c) = z := by
  apply sizeVec_injective g
  rw [sizeVec_multiplySize hw, sizeVec_multiplySize hw]
  funext i
  rw [← mul_assoc, divide_one_mul hc, one_mul]

theorem multiplySize_w32 (hw : w = .w32) (g : GfComplete w) (z : BitVec 16) (c : BitVec w.bits) :
    multiplySize g z c = (g.multiply (z.setWidth w.bits) c).setWidth 16 := by
  rw [multiplySize]
  split
  · next h =>
    rcases h with rfl | rfl
    · rw [BitVec.setWidth_zero, g.multiply_comm, Gf.multiply_zero, BitVec.setWidth_zero]
    · rw [Gf.multiply_zero, BitVec.setWidth_zero]
  · subst hw
    rfl

/-- The product of a size is split in the part that is kept and the one that is dropped. -/
theorem kept_dropped (hw : w = .w32) (g : GfComplete w) (z : BitVec 16) {c : BitVec w.bits}
    (hc : c ≠ 0#w.bits) : multiplySize g (multiplySize g z c) (g.divide 1#w.bits c) ^^^
      (g.multiply (dropped (g.multiply (z.setWidth w.bits) c)) (g.divide 1#w.bits c)).setWidth 16 =
        z := by
  have hsum (x : BitVec w.bits) : (x.setWidth 16).setWidth w.bits ^^^ dropped x = x := by
    rw [dropped, BitVec.xor_comm x, ← BitVec.xor_assoc, BitVec.xor_self, BitVec.zero_xor]
  have hquotient : g.multiply (g.multiply (z.setWidth w.bits) c) (g.divide 1#w.bits c) =
      z.setWidth w.bits := by
    rw [g.multiply_assoc, g.multiply_comm c, g.divide_multiply _ c hc, g.multiply_one]
  rw [multiplySize_w32 hw, multiplySize_w32 hw, ← BitVec.setWidth_xor, ← Gf.xor_multiply, hsum,
    hquotient]
  exact BitVec.setWidth_setWidth_of_le _ (by subst hw; decide)

theorem multiplySize_inverse_iff {c : BitVec w.bits} (hc : c ≠ 0#w.bits) :
    multiplySize g (multiplySize g z c) (g.divide 1#w.bits c) = z ↔ Divisible g z c := by
  by_cases hw : w = .w32
  · have hsplit := kept_dropped hw g z hc
    constructor
    · intro h _
      rw [h] at hsplit
      exact (BitVec.xor_right_inj z).mp (hsplit.trans BitVec.xor_zero.symm)
    · intro h
      rwa [h hw, BitVec.xor_zero] at hsplit
  · exact iff_of_true (multiplySize_inverse hw hc) fun h => absurd h hw

/-- For every repair, every list of sources and each of them: once the products of the other sizes
are removed from the encoded size, the inverse of the coefficient gives back its size if and only
if it can be divided by it. -/
theorem recovered_iff (b : Build) (g : GfComplete w) (r : ℕ) (hk : k < l.length) :
    ∃ c, invertCoefficient b g (coefficient w r l[k].1) = .ok c ∧
      (multiplySize g (addSizes g r (addSizes g r 0#16 l) (l.eraseIdx k)) c = l[k].2 ↔
        Divisible g l[k].2 (coefficient w r l[k].1)) := by
  have hc : coefficient w r l[k].1 ≠ 0#w.bits := coefficient_ne_zero r l[k].1
  refine ⟨_, invertCoefficient_eq b g hc, ?_⟩
  rw [addSizes_others hk]
  exact multiplySize_inverse_iff hc

/-- The second of two sizes. -/
theorem recovered_iff_pair : ∃ c, invertCoefficient .debug gf16 (coefficient .w4 3 8) = .ok c ∧
    (multiplySize gf16 (addSizes gf16 3 (addSizes gf16 3 0#16 [(7, 1400#16), (8, 65535#16)])
      [(7, 1400#16)]) c = 65535#16 ↔ Divisible gf16 65535#16 (coefficient .w4 3 8)) :=
  recovered_iff .debug gf16 3 (l := [(7, 1400#16), (8, 65535#16)]) (k := 1) (by decide)

/-- In the field of 32 bits, the product of the size 1 and of the coefficient of repair 65535 and
source 0 has no low bit. -/
theorem size_lost (g : GfComplete .w32) :
    multiplySize g 1#16 (coefficient .w32 65535 0) = 0#16 := by
  rw [multiplySize_w32 rfl, g.multiply_comm]
  refine (congrArg (BitVec.setWidth 16) (g.multiply_one _)).trans ?_
  decide

theorem sizes_not_recovered : ¬ ∀ (g : GfComplete .w32) (c : BitVec 32),
    invertCoefficient .debug g (coefficient .w32 65535 0) = .ok c →
      multiplySize g (multiplySize g 1#16 (coefficient .w32 65535 0)) c = 1#16 := by
  intro h
  have hone := h (galois .w32) _ (invertCoefficient_eq .debug _ (coefficient_ne_zero 65535 0))
  rw [size_lost] at hone
  exact absurd hone (by decide)

end Netcode
