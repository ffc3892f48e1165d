import AugLag.Scalar.Basic

/-! Machine numbers: binary64 and binary32 as scalars, with what a reader or a printer of numbers needs. -/
namespace AugLag

instance : Scalar Float where
  zero := 0
  one := 1
  decLt := inferInstance
  decLe := inferInstance
  sqrt := Float.sqrt
  abs := Float.abs
  isNaN := Float.isNaN
  isFinite := Float.isFinite
  nan := 0.0 / 0.0
  infinity := 1.0 / 0.0
  maxValue := Float.ofBits 0x7FEFFFFFFFFFFFFF
  ofNat := Float.ofNat
  ratio i n := Float.ofNat i / Float.ofNat n

/-- A decimal constant of a single precision number is read at double width and then rounded. -/
instance : Scalar Float32 where
  zero := 0
  one := 1
  ofScientific m s e := (Float.ofScientific m s e).toFloat32
  decLt := inferInstance
  decLe := inferInstance
  sqrt := Float32.sqrt
  abs := Float32.abs
  isNaN := Float32.isNaN
  isFinite := Float32.isFinite
  nan := 0.0 / 0.0
  infinity := 1.0 / 0.0
  maxValue := Float32.ofBits 0x7F7FFFFF
  ofNat := Float32.ofNat
  ratio i n := (Float.ofNat i / Float.ofNat n).toFloat32

/-- Layout of a binary interchange format. -/
structure BinaryFormat where
  /-- Total width in bits. -/
  width : Nat
  /-- Stored bits of the significand. -/
  fraction : Nat
  /-- Exponent of the last place of a subnormal number. -/
  minExponent : Int

/-- A scalar held in a binary format. -/
class MachineScalar (T : Type) extends Scalar T where
  format : BinaryFormat
  bits : T → Nat
  ofDouble : Float → T
  ofSingle : Float32 → T

instance : MachineScalar Float where
  format := { width := 64, fraction := 52, minExponent := -1074 }
  bits x := x.toBits.toNat
  ofDouble x := x
  ofSingle x := x.toFloat

instance : MachineScalar Float32 where
  format := { width := 32, fraction := 23, minExponent := -149 }
  bits x := x.toBits.toNat
  ofDouble x := x.toFloat32
  ofSingle x := x

end AugLag
