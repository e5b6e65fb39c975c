/-!
# Binary64 numbers

A floating-point number is its 64-bit word. Equality and order are read off the word: apart from
NaN, numbers are ordered like their sign-magnitude keys, and both zeros have the key `0`.
-/

namespace Overload

structure Binary64 where
  bits : UInt64
  deriving DecidableEq, Repr, Inhabited

namespace Binary64

/-- The word of `+0.0` with the sign bit set. -/
def signBit : UInt64 := 0x8000000000000000

/-- The magnitude of an infinity; larger ones are NaN. -/
def infinite : Nat := 0x7FF0000000000000

def isNegative (x : Binary64) : Bool := signBit.toNat ≤ x.bits.toNat

/-- The word without its sign bit. -/
def magnitude (x : Binary64) : Nat := x.bits.toNat % signBit.toNat

def isNaN (x : Binary64) : Bool := infinite < x.magnitude

def isInfinite (x : Binary64) : Bool := x.magnitude == infinite

/-- Increases with the number that the word stands for. -/
def key (x : Binary64) : Int := if x.isNegative then -x.magnitude else x.magnitude

/-- Equality of numbers: NaN equals nothing, and the two zeros are equal. -/
def equal (x y : Binary64) : Bool := !x.isNaN && !y.isNaN && x.key == y.key

/-- The order of two numbers, none if either is NaN. -/
def order? (x y : Binary64) : Option Ordering :=
  if x.isNaN || y.isNaN then none else some (compare x.key y.key)

/-! ## Arithmetic, rounded to nearest -/

def toFloat (x : Binary64) : Float := Float.ofBits x.bits

def ofFloat (x : Float) : Binary64 := ⟨x.toBits⟩

def add (x y : Binary64) : Binary64 := ofFloat (x.toFloat + y.toFloat)

def sub (x y : Binary64) : Binary64 := ofFloat (x.toFloat - y.toFloat)

def mul (x y : Binary64) : Binary64 := ofFloat (x.toFloat * y.toFloat)

/-- Turns the sign around, also that of a zero. -/
def neg (x : Binary64) : Binary64 := ⟨x.bits ^^^ signBit⟩

/-! ## Laws of the comparison -/

theorem equal_comm (x y : Binary64) : x.equal y = y.equal x := by
  rw [Bool.eq_iff_iff]
  simp only [equal, Bool.and_eq_true, beq_iff_eq]
  constructor <;> (rintro ⟨⟨hx, hy⟩, hk⟩; exact ⟨⟨hy, hx⟩, hk.symm⟩)

theorem equal_trans {x y z : Binary64} (hxy : x.equal y = true) (hyz : y.equal z = true) :
    x.equal z = true := by
  simp only [equal, Bool.and_eq_true, beq_iff_eq] at *
  exact ⟨⟨hxy.1.1, hyz.1.2⟩, hxy.2.trans hyz.2⟩

theorem equal_self (x : Binary64) : x.equal x = !x.isNaN := by
  simp [equal]

end Binary64

end Overload
