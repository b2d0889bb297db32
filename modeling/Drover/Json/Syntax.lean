import Drover.Foundation.Bytes

set_option autoImplicit false

/-!
# JSON texts without insignificant space

`Value` is a JSON text with its insignificant space removed and everything else
kept: a number keeps the digits it was written with, a string keeps each escape
it was written with, an object keeps the order and the repetition of its
members.  It is what `encoding/json` works on when a `json.RawMessage` passes
through it unread.  Every value of the type is a well-formed text; `print` writes
it down and `Drover.Json.Parse` reads it back.
-/

namespace Drover.Json

open Drover.Foundation
open Drover.Foundation.Bytes

/-- A byte that stands for itself inside a string literal.  The scanner of
`encoding/json` admits every byte from `0x20` on except the quote and the
backslash; it does not look at UTF-8. -/
def isPlain (b : UInt8) : Bool :=
  0x20 ≤ b && b != ascii '"' && b != ascii '\\'

/-- The byte after a backslash in a two-byte escape. -/
def isEscape (b : UInt8) : Bool :=
  ofChars ['"', '\\', '/', 'b', 'f', 'n', 'r', 't'] |>.contains b

/-- A hexadecimal digit of a `\u` escape. -/
def isHex (b : UInt8) : Bool :=
  isDigit b || (ascii 'a' ≤ b && b ≤ ascii 'f') || (ascii 'A' ≤ b && b ≤ ascii 'F')

/-- A hexadecimal digit, in the case it was written in. -/
abbrev Hex := { b : UInt8 // isHex b }

/-- One piece of a string literal. -/
inductive Chunk where
  /-- a byte standing for itself -/
  | byte (b : { b : UInt8 // isPlain b })
  /-- a backslash and one of the eight bytes that may follow it -/
  | esc (b : { b : UInt8 // isEscape b })
  /-- a backslash, `u` and four hexadecimal digits -/
  | uni (h₁ h₂ h₃ h₄ : Hex)
  deriving DecidableEq

/-- The text between the quotes of a string literal. -/
abbrev Chunks := List Chunk

/-- A non-empty run of decimal digits. -/
structure Digits where
  /-- The first digit. -/
  first : Fin 10
  /-- The digits after it. -/
  rest : List (Fin 10)
  deriving DecidableEq

/-- The exponent of a number literal. -/
structure Exponent where
  /-- Written with `E` rather than `e`. -/
  upper : Bool
  /-- The sign, when there is one: `true` for a minus. -/
  sign : Option Bool
  /-- The digits. -/
  digits : Digits
  deriving DecidableEq

/-- A number literal, digit by digit. -/
structure Number where
  /-- A leading minus. -/
  neg : Bool
  /-- The integer part. -/
  int : Digits
  /-- The digits after the point. -/
  frac : Option Digits
  /-- The exponent. -/
  exp : Option Exponent
  /-- No number starts with a zero and a further digit. -/
  noLeadingZero : int.first.val = 0 → int.rest = []
  deriving DecidableEq

/-- A JSON text without insignificant space. -/
inductive Value where
  | null
  | bool (b : Bool)
  | num (n : Number)
  | str (s : Chunks)
  | arr (xs : List Value)
  | obj (ms : List (Chunks × Value))

/-! ## Writing a text down -/

/-- The byte of a decimal digit. -/
def digitByte (d : Fin 10) : UInt8 := ascii '0' + UInt8.ofNat d.val

/-- The text of a run of digits. -/
def Digits.print (d : Digits) : Bytes := digitByte d.first :: d.rest.map digitByte

/-- The text of an exponent's sign. -/
def printSign : Option Bool → Bytes
  | none => []
  | some true => [ascii '-']
  | some false => [ascii '+']

/-- The text of an exponent. -/
def Exponent.print (e : Exponent) : Bytes :=
  (if e.upper then ascii 'E' else ascii 'e') :: (printSign e.sign ++ e.digits.print)

/-- The text of an optional fraction. -/
def printFrac : Option Digits → Bytes
  | none => []
  | some d => ascii '.' :: d.print

/-- The text of an optional exponent. -/
def printExp : Option Exponent → Bytes
  | none => []
  | some e => e.print

/-- The text of a number. -/
def Number.print (n : Number) : Bytes :=
  (if n.neg then [ascii '-'] else []) ++ n.int.print ++ printFrac n.frac ++ printExp n.exp

/-- The text of one piece of a string literal. -/
def Chunk.print : Chunk → Bytes
  | .byte b => [b.val]
  | .esc b => [ascii '\\', b.val]
  | .uni h₁ h₂ h₃ h₄ => [ascii '\\', ascii 'u', h₁.val, h₂.val, h₃.val, h₄.val]

/-- The text of a string literal, after its opening quote and with its closing
one. -/
def printChunks : Chunks → Bytes
  | [] => [ascii '"']
  | c :: cs => c.print ++ printChunks cs

/-- The text of a string literal. -/
def printString (s : Chunks) : Bytes := ascii '"' :: printChunks s

mutual

/-- The text of a value. -/
def print : Value → Bytes
  | .null => ofChars ['n', 'u', 'l', 'l']
  | .bool true => ofChars ['t', 'r', 'u', 'e']
  | .bool false => ofChars ['f', 'a', 'l', 's', 'e']
  | .num n => n.print
  | .str s => printString s
  | .arr [] => [ascii '[', ascii ']']
  | .arr (x :: xs) => ascii '[' :: (print x ++ printElements xs)
  | .obj [] => [ascii '\x7b', ascii '\x7d']
  | .obj ((k, x) :: ms) =>
      ascii '\x7b' :: (printString k ++ ascii ':' :: (print x ++ printMembers ms))

/-- The elements after the first, with the closing bracket. -/
def printElements : List Value → Bytes
  | [] => [ascii ']']
  | x :: xs => ascii ',' :: (print x ++ printElements xs)

/-- The members after the first, with the closing brace. -/
def printMembers : List (Chunks × Value) → Bytes
  | [] => [ascii '\x7d']
  | (k, x) :: ms =>
      ascii ',' :: (printString k ++ ascii ':' :: (print x ++ printMembers ms))

end

/-! ## Nesting -/

mutual

/-- How deeply arrays and objects are nested in a value. -/
def depth : Value → Nat
  | .null => 0
  | .bool _ => 0
  | .num _ => 0
  | .str _ => 0
  | .arr xs => depthElements xs + 1
  | .obj ms => depthMembers ms + 1

/-- The nesting of the deepest element. -/
def depthElements : List Value → Nat
  | [] => 0
  | x :: xs => max (depth x) (depthElements xs)

/-- The nesting of the deepest member. -/
def depthMembers : List (Chunks × Value) → Nat
  | [] => 0
  | (_, x) :: ms => max (depth x) (depthMembers ms)

end

end Drover.Json
