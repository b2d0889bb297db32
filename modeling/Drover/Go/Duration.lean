import Drover.Go.Strings

set_option autoImplicit false

/-!
# `time.ParseDuration`

A signed sequence of decimal numbers, each with an optional fraction and a unit.
The whole parts are added up in `uint64` arithmetic that never wraps, because each
step checks the bound first.  The fraction of a number is one `float64` product,
rounded to nearest with ties to even, and then cut down to whole nanoseconds; the
numbers that occur there are positive and far inside the range of `float64`, so a
nearest `float64` is a fraction with a 53-bit numerator or denominator a power of
two.  Nothing in this file names a particular program.
-/

namespace Drover.Go

open Drover.Foundation
open Drover.Foundation.Bytes

/-! ## Rounding to `float64` -/

/-- The integer nearest to `n / d`, ties to even. -/
def roundHalfEven (n d : Nat) : Nat :=
  let q := n / d
  if 2 * (n % d) < d then q
  else if d < 2 * (n % d) then q + 1
  else if q % 2 = 0 then q
  else q + 1

/-- `n / d` times a power of two. -/
def scaleRatio (n d : Nat) (shift : Int) : Nat × Nat :=
  (n * 2 ^ shift.toNat, d * 2 ^ (-shift).toNat)

/-- The `float64` nearest to `n / d`, as a fraction: the shift that puts the
quotient between `2 ^ 52` and `2 ^ 53` leaves a numerator of 53 bits. -/
def nearestFloat64 (n d : Nat) : Nat × Nat :=
  let guess : Int := 52 - Nat.log2 n + Nat.log2 d
  let small := scaleRatio n d guess
  let shift := if small.1 < 2 ^ 52 * small.2 then guess + 1 else guess
  let scaled := scaleRatio n d shift
  scaleRatio (roundHalfEven scaled.1 scaled.2) 1 (-shift)

/-- `uint64(float64(f) * (float64(unit) / scale))`. -/
def fractionOf (f unit scale : Nat) : Nat :=
  let ratio := nearestFloat64 unit scale
  let value := nearestFloat64 f 1
  let product := nearestFloat64 (value.1 * ratio.1) (value.2 * ratio.2)
  product.1 / product.2

/-! ## Numbers and units -/

/-- `leadingInt` on the digits it consumes; `none` when they pass `1 << 63`. -/
def leadingInt (digits : Bytes) : Option Nat :=
  digits.foldlM (fun x c =>
    if x > 2 ^ 63 / 10 then none
    else
      let x := x * 10 + (c.toNat - 48)
      if x > 2 ^ 63 then none else some x) 0

/-- The state of `leadingFraction`. -/
structure Fraction where
  value : Nat
  scale : Nat
  overflow : Bool

/-- `leadingFraction` on the digits it consumes: those that do not fit are dropped. -/
def leadingFraction (digits : Bytes) : Fraction :=
  digits.foldl (fun f c =>
    if f.overflow then f
    else if f.value > (2 ^ 63 - 1) / 10 then { f with overflow := true }
    else
      let y := f.value * 10 + (c.toNat - 48)
      if y > 2 ^ 63 then { f with overflow := true } else ⟨y, f.scale * 10, false⟩)
    ⟨0, 1, false⟩

/-- `unitMap`: nanoseconds by unit.  The micro sign and the Greek letter both
spell microseconds. -/
def unitMap : List (Bytes × Nat) :=
  [(ofChars ['n', 's'], 1), (ofChars ['u', 's'], 1000), ([0xC2, 0xB5, ascii 's'], 1000),
    ([0xCE, 0xBC, ascii 's'], 1000), (ofChars ['m', 's'], 1000000), (ofChars ['s'], 1000000000),
    (ofChars ['m'], 60000000000), (ofChars ['h'], 3600000000000)]

/-- A byte that starts the next number, and so ends a unit. -/
def startsNumber (b : UInt8) : Bool := b = ascii '.' || isDigit b

/-- Why `ParseDuration` fails, with what the text quotes. -/
inductive DurationError where
  /-- `time: invalid duration %q` -/
  | invalid (orig : Bytes)
  /-- `time: missing unit in duration %q` -/
  | missingUnit (orig : Bytes)
  /-- `time: unknown unit %q in duration %q` -/
  | unknownUnit (unit orig : Bytes)
  deriving DecidableEq, Repr

/-- The pieces of the number at the front of a text: the digits before the point,
the digits after it, and what follows. -/
structure NumberText where
  whole : Bytes
  frac : Bytes
  rest : Bytes

/-- Consume `[0-9]*` and then `(\.[0-9]*)?`. -/
def readNumber (s : Bytes) : NumberText :=
  let afterInt := s.dropWhile isDigit
  if afterInt.head? = some (ascii '.') then
    ⟨s.takeWhile isDigit, afterInt.tail.takeWhile isDigit, afterInt.tail.dropWhile isDigit⟩
  else ⟨s.takeWhile isDigit, [], afterInt⟩

/-- The nanoseconds of a number of a unit, unless they pass `1 << 63`. -/
def termValue (v : Nat) (frac : Fraction) (unit : Nat) : Option Nat :=
  if v > 2 ^ 63 / unit then none
  else
    let v := v * unit + if frac.value > 0 then fractionOf frac.value unit frac.scale else 0
    if v > 2 ^ 63 then none else some v

/-- One number with its unit at the front of `s`: its nanoseconds and the rest. -/
def parseTerm (orig s : Bytes) : Except DurationError (Nat × Bytes) :=
  if s.head?.all (!startsNumber ·) then .error (.invalid orig)
  else
    let number := readNumber s
    match leadingInt number.whole with
    | none => .error (.invalid orig)
    | some v =>
        if number.whole = [] ∧ number.frac = [] then .error (.invalid orig)
        else
          let u := number.rest.takeWhile (!startsNumber ·)
          if u = [] then .error (.missingUnit orig)
          else
            match unitMap.lookup u with
            | none => .error (.unknownUnit u orig)
            | some unit =>
                match termValue v (leadingFraction number.frac) unit with
                | none => .error (.invalid orig)
                | some v => .ok (v, number.rest.dropWhile (!startsNumber ·))

theorem length_dropWhile_le (p : UInt8 → Bool) (s : Bytes) :
    (s.dropWhile p).length ≤ s.length := (List.dropWhile_sublist p).length_le

theorem length_dropWhile_lt {p : UInt8 → Bool} {s : Bytes} (h : s.takeWhile p ≠ []) :
    (s.dropWhile p).length < s.length := by
  have hsplit := congrArg List.length (List.takeWhile_append_dropWhile (p := p) (l := s))
  rw [List.length_append] at hsplit
  have hpos := List.length_pos_iff.mpr h
  omega

theorem length_readNumber_le (s : Bytes) : (readNumber s).rest.length ≤ s.length := by
  simp only [readNumber]
  split
  · have htail : (s.dropWhile isDigit).tail.length ≤ s.length := by
      rw [List.length_tail]
      exact Nat.le_trans (Nat.sub_le _ _) (length_dropWhile_le _ _)
    exact Nat.le_trans (length_dropWhile_le _ _) htail
  · exact length_dropWhile_le _ _

/-- A term takes something of the text: its unit is at least one byte. -/
theorem length_lt_of_parseTerm {orig s rest : Bytes} {v : Nat}
    (h : parseTerm orig s = .ok (v, rest)) : rest.length < s.length := by
  simp only [parseTerm] at h
  split at h
  · cases h
  · split at h
    · cases h
    · split at h
      · cases h
      · split at h
        · cases h
        · rename_i hunit
          split at h
          · cases h
          · split at h
            · cases h
            · cases h
              exact Nat.lt_of_lt_of_le (length_dropWhile_lt hunit) (length_readNumber_le s)

/-- The loop of `ParseDuration` over the terms.  The sum is a `uint64`, and two terms of
`2 ^ 63` add up to zero. -/
def parseTerms (orig s : Bytes) (d : Nat) : Except DurationError Nat :=
  if s = [] then .ok d
  else
    match h : parseTerm orig s with
    | .error err => .error err
    | .ok (v, rest) =>
        if (d + v) % 2 ^ 64 > 2 ^ 63 then .error (.invalid orig)
        else parseTerms orig rest ((d + v) % 2 ^ 64)
termination_by s.length
decreasing_by exact length_lt_of_parseTerm h

/-- A text that is one term. -/
theorem parseTerms_single {orig s : Bytes} {d v : Nat} (h : parseTerm orig s = .ok (v, []))
    (hfit : d + v ≤ 2 ^ 63) : parseTerms orig s d = .ok (d + v) := by
  have hs : s ≠ [] := by
    rintro rfl
    cases h
  unfold parseTerms
  rw [if_neg hs]
  split
  · rename_i err herr
    rw [h] at herr
    cases herr
  · rename_i v' rest hok
    rw [h] at hok
    cases hok
    rw [Nat.mod_eq_of_lt (show d + v < 2 ^ 64 by omega), if_neg (Nat.not_lt.mpr hfit)]
    unfold parseTerms
    rw [if_pos rfl]

/-- `time.ParseDuration`. -/
def parseDuration (orig : Bytes) : Except DurationError Int :=
  let neg := orig.head? = some (ascii '-')
  let s := if orig.head? = some (ascii '-') ∨ orig.head? = some (ascii '+') then orig.tail else orig
  if s = [ascii '0'] then .ok 0
  else if s = [] then .error (.invalid orig)
  else
    match parseTerms orig s 0 with
    | .error err => .error err
    | .ok d =>
        if neg then .ok (-d)
        else if d > 2 ^ 63 - 1 then .error (.invalid orig)
        else .ok d

end Drover.Go
