import Netcode.GaloisField

/-! The field of 16 elements, as gf_complete implements it by default for w = 4. -/
namespace Netcode

/-- Multiply by x modulo x^4 + x + 1. -/
def Gf16.shift (a : BitVec 4) : BitVec 4 :=
  if a.getLsbD 3 then (a <<< 1) ^^^ 3#4 else a <<< 1

/-- Product of polynomials modulo x^4 + x + 1. -/
def Gf16.multiply (a b : BitVec 4) : BitVec 4 :=
  (if b.getLsbD 0 then a else 0#4) ^^^
  (if b.getLsbD 1 then shift a else 0#4) ^^^
  (if b.getLsbD 2 then shift (shift a) else 0#4) ^^^
  (if b.getLsbD 3 then shift (shift (shift a)) else 0#4)

/-- The inverse of an element is its power of exponent 14. -/
def Gf16.inverse (a : BitVec 4) : BitVec 4 :=
  let a2 := multiply a a
  let a4 := multiply a2 a2
  multiply a2 (multiply a4 (multiply a4 a4))

theorem Gf16.multiply_comm : ∀ a b, multiply a b = multiply b a := by decide +kernel

theorem Gf16.multiply_one : ∀ a, multiply a 1#4 = a := by decide +kernel

theorem Gf16.multiply_assoc : ∀ a b c,
    multiply (multiply a b) c = multiply a (multiply b c) := by decide +kernel

theorem Gf16.multiply_xor : ∀ a b c,
    multiply a (b ^^^ c) = multiply a b ^^^ multiply a c := by decide +kernel

theorem Gf16.divide_multiply : ∀ a b, b ≠ 0#4 →
    multiply (multiply a (inverse b)) b = a := by decide +kernel

def gf16 : GfComplete .w4 where
  multiply := Gf16.multiply
  divide a b := Gf16.multiply a (Gf16.inverse b)
  multiply_comm := Gf16.multiply_comm
  multiply_assoc := Gf16.multiply_assoc
  multiply_one := Gf16.multiply_one
  multiply_xor := Gf16.multiply_xor
  divide_multiply := Gf16.divide_multiply

end Netcode
