import DivisionMicrocode.Word
/-!
# Condition codes

The five condition code bits of the machine: carry, overflow, zero, negative and extend. They are
set by an operation from its operands and its result, packed into the low byte of the status
register, and written as five characters in the order `XNZVC`.
-/

namespace DivisionMicrocode

/-- The condition code bits. -/
structure Flags where
  carry : Bool := false
  overflow : Bool := false
  zero : Bool := false
  negative : Bool := false
  extend : Bool := false
deriving DecidableEq

namespace Flags

/-- After a logical operation: negative and zero speak of the result, overflow and carry are
cleared, and extend is kept. -/
def logical (f : Flags) (value : Word) : Flags where
  zero := value == 0
  negative := value.msb
  extend := f.extend

/-- After a subtraction with the given operands and result: it overflows when the operands differ
in sign and the result has not the sign of `dst`, and both carry and extend receive the borrow out
of the most significant bit. -/
def subtraction (dst src result : Word) : Flags :=
  let overflow := (dst.msb ^^ src.msb) && (dst.msb ^^ result.msb)
  let borrow := dst.msb ^^ src.msb ^^ result.msb ^^ overflow
  { carry := borrow
    overflow := overflow
    zero := result == 0
    negative := result.msb
    extend := borrow }

/-! ## As a byte -/

/-- The flags in the low five bits of a byte, carry lowest; the upper bits play no part. -/
def ofByte (b : BitVec 8) : Flags where
  carry := b.getLsbD 0
  overflow := b.getLsbD 1
  zero := b.getLsbD 2
  negative := b.getLsbD 3
  extend := b.getLsbD 4

/-- The byte that holds the flags, its upper three bits clear. -/
def toByte (f : Flags) : BitVec 8 :=
  BitVec.ofNat 8
    (f.carry.toNat + 2 * f.overflow.toNat + 4 * f.zero.toNat + 8 * f.negative.toNat +
      16 * f.extend.toNat)

@[simp] theorem ofByte_toByte (f : Flags) : ofByte f.toByte = f := by
  obtain ⟨c, v, z, n, x⟩ := f
  revert c v z n x
  decide

/-! ## As text -/

/-- The five characters of the flags: the letter of a flag that is set, and a point for one that
is clear. -/
def toList (f : Flags) : List Char :=
  [if f.extend then 'X' else '.', if f.negative then 'N' else '.', if f.zero then 'Z' else '.',
    if f.overflow then 'V' else '.', if f.carry then 'C' else '.']

def text (f : Flags) : String := String.ofList f.toList

/-- Reads exactly five characters; any character but a point sets its flag. -/
def ofList? : List Char → Option Flags
  | [x, n, z, v, c] =>
    some
      { carry := c != '.'
        overflow := v != '.'
        zero := z != '.'
        negative := n != '.'
        extend := x != '.' }
  | _ => none

def ofText? (s : String) : Option Flags := ofList? s.toList

/-- What a reader is told about a text that does not have five characters. -/
def lengthMessage : String := "Flags string must be 5 characters long"

@[simp] theorem length_toList (f : Flags) : f.toList.length = 5 := rfl

@[simp] theorem ofList?_toList (f : Flags) : ofList? f.toList = some f := by
  obtain ⟨c, v, z, n, x⟩ := f
  revert c v z n x
  decide

theorem ofList?_eq_none_iff (cs : List Char) : ofList? cs = none ↔ cs.length ≠ 5 := by
  match cs with
  | [] | [_] | [_, _] | [_, _, _] | [_, _, _, _] | [_, _, _, _, _] => simp [ofList?]
  | _ :: _ :: _ :: _ :: _ :: _ :: _ => simp [ofList?]

end Flags

end DivisionMicrocode
