set_option autoImplicit false

/-!
# Byte strings

A Go `string` and a Go `[]byte` are both finite sequences of bytes, with no
promise that they are UTF-8.  Both are `Bytes` here.
-/

namespace Drover.Foundation

/-- A Go `string` or a non-nil `[]byte`. -/
abbrev Bytes := List UInt8

namespace Bytes

/-- The byte of an ASCII character. -/
def ascii (c : Char) : UInt8 := UInt8.ofNat c.toNat

/-- An ASCII literal, written as its characters. -/
def ofChars (cs : List Char) : Bytes := cs.map ascii

/-- `'0' <= b && b <= '9'`. -/
def isDigit (b : UInt8) : Bool := ascii '0' ≤ b && b ≤ ascii '9'

end Bytes

end Drover.Foundation
