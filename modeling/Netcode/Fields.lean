import Mathlib.FieldTheory.Finite.GaloisField
import Netcode.GaloisField

/-! A field of every supported size. -/
namespace Netcode

variable {w : FieldSize} {F : Type} [Field F] {n : ℕ}

/-- The operations of a field whose elements stand for words, sums for exclusive ors. Products are
divided by the element of word 1, so that it is their unit. -/
def GfComplete.ofField (e : F ≃ BitVec w.bits) (he : ∀ x y, e (x + y) = e x ^^^ e y) :
    GfComplete w :=
  have hzero : e 0 = 0#w.bits := by
    have h := he 0 0
    rwa [add_zero, BitVec.xor_self] at h
  have hne : ∀ b, b ≠ 0#w.bits → e.symm b ≠ 0 := fun b hb h =>
    hb ((e.apply_symm_apply b).symm.trans ((congrArg e h).trans hzero))
  have hone : e.symm 1#w.bits ≠ 0 := hne _ (by cases w <;> decide)
  { multiply := fun a b => e (e.symm a * e.symm b / e.symm 1#w.bits)
    divide := fun a b => e (e.symm a * e.symm 1#w.bits / e.symm b)
    multiply_comm := fun a b => by rw [mul_comm]
    multiply_assoc := fun a b c => by
      rw [e.symm_apply_apply, e.symm_apply_apply]
      ring_nf
    multiply_one := fun a => by rw [mul_div_cancel_right₀ _ hone, e.apply_symm_apply]
    multiply_xor := fun a b c => by
      have hsum : e.symm (b ^^^ c) = e.symm b + e.symm c := by
        rw [Equiv.symm_apply_eq, he, e.apply_symm_apply, e.apply_symm_apply]
      rw [hsum, mul_add, add_div, he]
    divide_multiply := fun a b hb => by
      rw [e.symm_apply_apply, div_mul_cancel₀ _ (hne b hb), mul_div_cancel_right₀ _ hone,
        e.apply_symm_apply] }

/-- Bits as the coordinates of a word. -/
def ofBits (n : ℕ) : (Fin n → ZMod 2) ≃ BitVec n where
  toFun f := BitVec.ofFnLE fun i => decide (f i = 1)
  invFun v i := if v.getLsbD i then 1 else 0
  left_inv f := by
    funext i
    have hbit : ∀ x : ZMod 2, (if x = 1 then 1 else 0 : ZMod 2) = x := by decide
    dsimp only
    rw [BitVec.getLsbD_ofFnLE, dif_pos i.isLt]
    simpa using hbit (f i)
  right_inv v := by
    apply BitVec.eq_of_getLsbD_eq
    intro i hi
    rw [BitVec.getLsbD_ofFnLE, dif_pos hi]
    cases h : v.getLsbD i <;> simp [h]

theorem ofBits_add (f g : Fin n → ZMod 2) : ofBits n (f + g) = ofBits n f ^^^ ofBits n g := by
  have hbit : ∀ x y : ZMod 2, decide (x + y = 1) = (decide (x = 1) ^^ decide (y = 1)) := by decide
  apply BitVec.eq_of_getLsbD_eq
  intro i hi
  simp only [ofBits, Equiv.coe_fn_mk, BitVec.getLsbD_xor, BitVec.getLsbD_ofFnLE, dif_pos hi]
  exact hbit _ _

/-- The elements of the field of 2 ^ w as words. -/
noncomputable def words (w : FieldSize) : GaloisField 2 w.bits ≃ BitVec w.bits :=
  (Module.finBasisOfFinrankEq (ZMod 2) (GaloisField 2 w.bits)
    (GaloisField.finrank 2 w.bits_pos.ne')).equivFun.toEquiv.trans (ofBits w.bits)

theorem words_add (x y : GaloisField 2 w.bits) : words w (x + y) = words w x ^^^ words w y := by
  simp only [words, Equiv.trans_apply, LinearEquiv.coe_toEquiv, map_add]
  exact ofBits_add _ _

/-- The laws of gf_complete hold in a field of every supported size. -/
noncomputable def galois (w : FieldSize) : GfComplete w := .ofField (words w) words_add

end Netcode
