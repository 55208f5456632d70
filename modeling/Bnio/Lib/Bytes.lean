import Mathlib

-- Words as sequences of bytes.
namespace Bytes

section Word16

def high (x : UInt16) : UInt8 :=
  .ofNat (x.toNat / 256)

def low (x : UInt16) : UInt8 :=
  .ofNat (x.toNat % 256)

def join (high low : UInt8) : UInt16 :=
  .ofNat (256 * high.toNat + low.toNat)

theorem toNat_high (x : UInt16) : (high x).toNat = x.toNat / 256 := by
  have := x.toNat_lt
  simp only [high, UInt8.toNat_ofNat']
  omega

theorem toNat_low (x : UInt16) : (low x).toNat = x.toNat % 256 := by
  simp only [low, UInt8.toNat_ofNat']
  omega

theorem toNat_join (a b : UInt8) : (join a b).toNat = 256 * a.toNat + b.toNat := by
  have := a.toNat_lt
  have := b.toNat_lt
  simp only [join, UInt16.toNat_ofNat']
  omega

@[simp]
theorem join_high_low (x : UInt16) : join (high x) (low x) = x := by
  refine UInt16.toNat_inj.mp ?_
  rw [toNat_join, toNat_high, toNat_low]
  omega

@[simp]
theorem high_join (a b : UInt8) : high (join a b) = a := by
  have := b.toNat_lt
  refine UInt8.toNat_inj.mp ?_
  rw [toNat_high, toNat_join]
  omega

@[simp]
theorem low_join (a b : UInt8) : low (join a b) = b := by
  have := b.toNat_lt
  refine UInt8.toNat_inj.mp ?_
  rw [toNat_low, toNat_join]
  omega

end Word16

end Bytes
