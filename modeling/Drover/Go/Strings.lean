import Mathlib.Algebra.Group.Int.Defs
import Mathlib.Algebra.Group.Nat.Defs
import Drover.Foundation.Bytes

set_option autoImplicit false

/-!
# `strings` and `strconv`

The functions of the Go standard library that the parsers here use, on byte
strings.  Nothing in this file names a particular program.
-/

namespace Drover.Go

open Drover.Foundation
open Drover.Foundation.Bytes

/-- The UTF-8 encodings of the runes for which `unicode.IsSpace` holds. -/
def spaces : List Bytes :=
  [[0x09], [0x0A], [0x0B], [0x0C], [0x0D], [0x20], [0xC2, 0x85], [0xC2, 0xA0],
    [0xE1, 0x9A, 0x80], [0xE2, 0x80, 0x80], [0xE2, 0x80, 0x81], [0xE2, 0x80, 0x82],
    [0xE2, 0x80, 0x83], [0xE2, 0x80, 0x84], [0xE2, 0x80, 0x85], [0xE2, 0x80, 0x86],
    [0xE2, 0x80, 0x87], [0xE2, 0x80, 0x88], [0xE2, 0x80, 0x89], [0xE2, 0x80, 0x8A],
    [0xE2, 0x80, 0xA8], [0xE2, 0x80, 0xA9], [0xE2, 0x80, 0xAF], [0xE2, 0x81, 0x9F],
    [0xE3, 0x80, 0x80]]

/-- How many bytes the white space rune at the front of `s` takes; `0` if there is
none.  No encoding above starts with a continuation byte, so looking at every byte
finds the same runes as decoding from rune to rune, also where `s` is not UTF-8. -/
def spaceWidth (s : Bytes) : Nat :=
  match spaces.find? (·.isPrefixOf s) with
  | some space => space.length
  | none => 0

/-- The walk of `Fields`: `skip` bytes of a white space rune are still to come, and
`cur` is the field being read. -/
def fieldsLoop : Nat → Bytes → Bytes → List Bytes
  | _, cur, [] => if cur = [] then [] else [cur]
  | skip + 1, cur, _ :: rest => fieldsLoop skip cur rest
  | 0, cur, b :: rest =>
      match spaceWidth (b :: rest) with
      | 0 => fieldsLoop 0 (cur ++ [b]) rest
      | width + 1 =>
          if cur = [] then fieldsLoop width [] rest else cur :: fieldsLoop width [] rest

/-- `strings.Fields`. -/
def fields (s : Bytes) : List Bytes := fieldsLoop 0 [] s

/-- Without the runes listed at the front; `skip` bytes of one are still to come. -/
def dropRunes (runes : List Bytes) : Nat → Bytes → Bytes
  | _, [] => []
  | skip + 1, _ :: rest => dropRunes runes skip rest
  | 0, b :: rest =>
      match runes.find? (·.isPrefixOf (b :: rest)) with
      | some rune => dropRunes runes (rune.length - 1) rest
      | none => b :: rest

/-- `strings.TrimSpace`.  Read backwards, the runes end as they begin read forwards. -/
def trimSpace (s : Bytes) : Bytes :=
  (dropRunes (spaces.map List.reverse) 0 (dropRunes spaces 0 s).reverse).reverse

example : trimSpace [0x20, 0x37, 0x20, 0x38, 0xC2, 0xA0] = [0x37, 0x20, 0x38] := by decide

/-- `strings.Cut` around a one-byte separator: before, after, found. -/
def cut (sep : UInt8) : Bytes → Bytes × Bytes × Bool
  | [] => ([], [], false)
  | b :: rest =>
      if b = sep then ([], rest, true)
      else (b :: (cut sep rest).1, (cut sep rest).2)

/-- `strings.Split` by a one-byte separator. -/
def split (sep : UInt8) : Bytes → List Bytes
  | [] => [[]]
  | b :: rest =>
      if b = sep then [] :: split sep rest
      else
        match split sep rest with
        | [] => [[b]]
        | part :: parts => (b :: part) :: parts

/-- `strings.Join` with a one-byte separator. -/
def join (sep : UInt8) : List Bytes → Bytes
  | [] => []
  | [part] => part
  | part :: parts => part ++ sep :: join sep parts

theorem cut_of_notMem {sep : UInt8} {s : Bytes} (h : sep ∉ s) : cut sep s = (s, [], false) := by
  induction s with
  | nil => rfl
  | cons b rest ih =>
      rw [List.mem_cons, not_or] at h
      rw [cut, if_neg (Ne.symm h.1), ih h.2]

theorem cut_append {sep : UInt8} {before : Bytes} (h : sep ∉ before) (after : Bytes) :
    cut sep (before ++ sep :: after) = (before, after, true) := by
  induction before with
  | nil => rw [List.nil_append, cut, if_pos rfl]
  | cons b rest ih =>
      rw [List.mem_cons, not_or] at h
      rw [List.cons_append, cut, if_neg (Ne.symm h.1), ih h.2]

/-- What stands before and after the last separator. -/
theorem append_sep_inj {sep : UInt8} {xs xs' ys ys' : Bytes} (hys : sep ∉ ys) (hys' : sep ∉ ys')
    (h : xs ++ sep :: ys = xs' ++ sep :: ys') : xs = xs' ∧ ys = ys' := by
  -- read backwards, it is the first one
  have hback : ys.reverse ++ sep :: xs.reverse = ys'.reverse ++ sep :: xs'.reverse := by
    simpa using congrArg List.reverse h
  have hcut := congrArg (cut sep) hback
  rw [cut_append (by simpa using hys), cut_append (by simpa using hys'), Prod.mk.injEq,
    Prod.mk.injEq] at hcut
  exact ⟨List.reverse_inj.mp hcut.2.1, List.reverse_inj.mp hcut.1⟩

/-- A separator that occurs has a first place. -/
theorem cut_cases (sep : UInt8) (s : Bytes) :
    sep ∉ s ∨ ∃ before after, sep ∉ before ∧ s = before ++ sep :: after := by
  by_cases h : sep ∈ s
  · obtain ⟨before, after, rfl, hbefore⟩ := List.eq_append_cons_of_mem h
    exact Or.inr ⟨before, after, hbefore, rfl⟩
  · exact Or.inl h

theorem split_ne_nil (sep : UInt8) (s : Bytes) : split sep s ≠ [] := by
  cases s with
  | nil => simp [split]
  | cons b rest =>
      rw [split]
      split
      · simp
      · split <;> simp

/-- What comes before the first separator is the first part. -/
theorem split_append {sep : UInt8} {part : Bytes} (h : sep ∉ part) (rest : Bytes) :
    split sep (part ++ sep :: rest) = part :: split sep rest := by
  induction part with
  | nil => rw [List.nil_append, split, if_pos rfl]
  | cons b part ih =>
      rw [List.mem_cons, not_or] at h
      rw [List.cons_append, split, if_neg (Ne.symm h.1), ih h.2]

theorem split_of_notMem {sep : UInt8} {part : Bytes} (h : sep ∉ part) : split sep part = [part] := by
  induction part with
  | nil => rfl
  | cons b part ih =>
      rw [List.mem_cons, not_or] at h
      rw [split, if_neg (Ne.symm h.1), ih h.2]

/-- Splitting takes apart what joining puts together. -/
theorem split_join {sep : UInt8} {parts : List Bytes} (hne : parts ≠ [])
    (h : ∀ part ∈ parts, sep ∉ part) : split sep (join sep parts) = parts := by
  induction parts with
  | nil => exact absurd rfl hne
  | cons part parts ih =>
      rw [List.forall_mem_cons] at h
      cases parts with
      | nil => exact split_of_notMem h.1
      | cons next parts =>
          rw [join, split_append h.1, ih (by simp) h.2]
          simp

/-- Joining puts together what splitting takes apart. -/
theorem join_split (sep : UInt8) (s : Bytes) : join sep (split sep s) = s := by
  induction s with
  | nil => rfl
  | cons b rest ih =>
      rw [split]
      split
      · rename_i hb
        rw [hb]
        cases hparts : split sep rest with
        | nil => exact absurd hparts (split_ne_nil sep rest)
        | cons part parts =>
            rw [hparts] at ih
            rw [join, List.nil_append, ih]
            simp
      · cases hparts : split sep rest with
        | nil => exact absurd hparts (split_ne_nil sep rest)
        | cons part parts =>
            rw [hparts] at ih
            cases parts with
            | nil =>
                rw [join] at ih
                rw [ih]
                rfl
            | cons next parts =>
                rw [join] at ih
                · rw [join, List.cons_append, ih]
                  simp
                · simp

/-! ## `int` -/

/-- The greatest `int` on a 64-bit machine, where `int` is `int64`. -/
def maxInt : Int := 2 ^ 63 - 1

/-- A sum that stays in range is the sum. -/
theorem toInt_add_of_le {a b : Int64} (ha : 0 ≤ a.toInt) (hb : 0 ≤ b.toInt)
    (h : a.toInt + b.toInt ≤ maxInt) : (a + b).toInt = a.toInt + b.toInt := by
  unfold maxInt at h
  rw [Int64.toInt_add, Int.bmod_eq_of_le] <;> omega

/-- A sum that passes the greatest `int` wraps below zero. -/
theorem toInt_add_neg {a b : Int64} (h : maxInt < a.toInt + b.toInt) : (a + b).toInt < 0 := by
  have ha := a.toInt_lt
  have hb := b.toInt_lt
  unfold maxInt at h
  have hmod : (a.toInt + b.toInt) % ((2 ^ 64 : Nat) : Int) = a.toInt + b.toInt :=
    Int.emod_eq_of_lt (by omega) (by omega)
  rw [Int64.toInt_add, Int.bmod_def, hmod, if_neg (by omega)]
  omega

/-- The value of a non-empty run of decimal digits. -/
def decimal (s : Bytes) : Option Nat :=
  if s = [] then none
  else if s.all isDigit then some (s.foldl (fun n b => 10 * n + (b.toNat - 48)) 0)
  else none

/-- The value of an optional sign and decimal digits. -/
def signedDecimal : Bytes → Option Int
  | [] => none
  | b :: rest =>
      if b = ascii '-' then (decimal rest).map fun n => -(n : Int)
      else if b = ascii '+' then (decimal rest).map fun n => (n : Int)
      else (decimal (b :: rest)).map fun n => (n : Int)

/-- `strconv.Atoi`: an optional sign and decimal digits, within the range of
`int`. -/
def atoi (s : Bytes) : Option Int64 :=
  ((signedDecimal s).filter fun n => -2 ^ 63 ≤ n && n ≤ maxInt).map Int64.ofInt

theorem isDigit_of_decimal {s : Bytes} {n : Nat} (h : decimal s = some n) {b : UInt8} (hb : b ∈ s) :
    isDigit b = true := by
  unfold decimal at h
  split at h
  · cases h
  · split at h
    · rename_i hall
      exact List.all_eq_true.mp hall b hb
    · cases h

theorem decimal_of_signedDecimal {b : UInt8} {rest : Bytes} {n : Int}
    (h : signedDecimal (b :: rest) = some n) :
    ((b = ascii '-' ∨ b = ascii '+') ∧ (decimal rest).isSome) ∨ (decimal (b :: rest)).isSome := by
  rw [signedDecimal] at h
  split at h
  · rename_i hb
    cases hdecimal : decimal rest with
    | none => simp [hdecimal] at h
    | some m => exact Or.inl ⟨Or.inl hb, rfl⟩
  · split at h
    · rename_i hb
      cases hdecimal : decimal rest with
      | none => simp [hdecimal] at h
      | some m => exact Or.inl ⟨Or.inr hb, rfl⟩
    · cases hdecimal : decimal (b :: rest) with
      | none => simp [hdecimal] at h
      | some m => exact Or.inr rfl

/-- What `Atoi` reads is made of digits after a sign. -/
theorem mem_of_atoi {s : Bytes} {n : Int64} (h : atoi s = some n) {b : UInt8} (hb : b ∈ s) :
    isDigit b = true ∨ b = ascii '-' ∨ b = ascii '+' := by
  rw [atoi, Option.map_eq_some_iff] at h
  obtain ⟨value, hvalue, -⟩ := h
  obtain ⟨hsigned, -⟩ := Option.filter_eq_some_iff.mp hvalue
  cases s with
  | nil => cases hb
  | cons c rest =>
      rcases decimal_of_signedDecimal hsigned with ⟨hsign, hdecimal⟩ | hdecimal
      · rcases List.mem_cons.mp hb with rfl | hrest
        · exact Or.inr hsign
        · obtain ⟨m, hm⟩ := Option.isSome_iff_exists.mp hdecimal
          exact Or.inl (isDigit_of_decimal hm hrest)
      · obtain ⟨m, hm⟩ := Option.isSome_iff_exists.mp hdecimal
        exact Or.inl (isDigit_of_decimal hm hb)

end Drover.Go
