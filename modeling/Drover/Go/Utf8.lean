import Mathlib.Tactic.Common
import Drover.Foundation.Bytes

set_option autoImplicit false

/-!
# UTF-8 as `unicode/utf8` reads it

A Go string is read rune by rune.  Where it has the encoding of a character, that character
is read; where it has none, one byte is skipped and read as the replacement character.  So
every string falls apart into characters and stray bytes, and `Utf8.induction` is induction
along that.

Nothing in this file names a particular program.
-/

namespace Drover.Go.Utf8

open Drover.Foundation

/-- The encoding of a character. -/
abbrev encode (c : Char) : Bytes := String.utf8EncodeChar c

/-- `utf8.DecodeRune`: the character whose encoding a string starts with, none when it is
`RuneError` of width one. -/
def decodeRune (s : Bytes) : Option Char := s.toByteArray.utf8DecodeChar? 0

/-- What a string falls apart into. -/
inductive Rune where
  | char (c : Char)
  /-- a byte that starts no character -/
  | stray (b : UInt8)
  deriving DecidableEq

/-- The runes of a string after `skip` bytes that were read already. -/
def runesFrom : Nat → Bytes → List Rune
  | _, [] => []
  | skip + 1, _ :: s => runesFrom skip s
  | 0, b :: s =>
      match decodeRune (b :: s) with
      | some c => .char c :: runesFrom (c.utf8Size - 1) s
      | none => .stray b :: runesFrom 0 s

/-- The runes of a string. -/
def runes (s : Bytes) : List Rune := runesFrom 0 s

/-- `unicode.ReplacementChar`. -/
def replacementChar : Char := Char.ofNat 0xfffd

/-- The character a rune is read as. -/
def Rune.read : Rune → Char
  | .char c => c
  | .stray _ => replacementChar

/-- The string with every stray byte replaced. -/
def toValid (s : Bytes) : Bytes := (runes s).flatMap fun r => encode r.read

/-- `utf8.ValidString`. -/
def valid (s : Bytes) : Bool :=
  (runes s).all fun
    | .char _ => true
    | .stray _ => false

/-! ## Reading what was written -/

theorem decodeRune_encode (c : Char) (s : Bytes) : decodeRune (encode c ++ s) = some c := by
  rw [decodeRune, List.toByteArray_append]
  exact ByteArray.utf8DecodeChar?_utf8EncodeChar_append

/-- A character is read where its encoding is. -/
theorem decodeRune_eq_some_iff {s : Bytes} {c : Char} :
    decodeRune s = some c ↔ ∃ rest, s = encode c ++ rest := by
  constructor
  · intro h
    obtain ⟨l, hl⟩ := ByteArray.exists_of_utf8DecodeChar?_eq_some h
    refine ⟨l.data.toList, ?_⟩
    have hbytes := congrArg (fun bytes => bytes.data.toList) hl
    simpa using hbytes
  · rintro ⟨rest, rfl⟩
    exact decodeRune_encode c rest

theorem runesFrom_eq_runes_drop (skip : Nat) (s : Bytes) :
    runesFrom skip s = runes (s.drop skip) := by
  induction skip generalizing s with
  | zero => rfl
  | succ skip ih =>
      cases s with
      | nil => simp [runesFrom, runes]
      | cons b s => exact ih s

@[simp]
theorem runes_nil : runes [] = [] := rfl

/-- The encoding of a character has as many bytes as its width says, and a first one. -/
theorem encode_eq_cons (c : Char) : ∃ b t, encode c = b :: t ∧ t.length = c.utf8Size - 1 := by
  have hlength : (encode c).length = c.utf8Size := String.length_utf8EncodeChar c
  have hpos := Char.utf8Size_pos c
  cases hencode : encode c with
  | nil =>
      rw [hencode] at hlength
      exact absurd hlength (by simp; omega)
  | cons b t =>
      rw [hencode] at hlength
      exact ⟨b, t, rfl, by simp at hlength; omega⟩

theorem runes_encode (c : Char) (s : Bytes) : runes (encode c ++ s) = .char c :: runes s := by
  have hdecode := decodeRune_encode c s
  obtain ⟨b, t, hencode, hlength⟩ := encode_eq_cons c
  rw [hencode, List.cons_append] at hdecode ⊢
  rw [runes, runesFrom, hdecode]
  simp only
  rw [runesFrom_eq_runes_drop, ← hlength, List.drop_left]

theorem runes_stray {b : UInt8} {s : Bytes} (h : decodeRune (b :: s) = none) :
    runes (b :: s) = .stray b :: runes s := by
  rw [runes, runesFrom, h]
  rfl

/-- Induction along the runes of a string. -/
theorem induction {P : Bytes → Prop} (nil : P []) (char : ∀ c s, P s → P (encode c ++ s))
    (stray : ∀ b s, decodeRune (b :: s) = none → P s → P (b :: s)) (s : Bytes) : P s := by
  -- on the length, as a character is several bytes
  induction hn : s.length using Nat.strongRecOn generalizing s with
  | ind n ih =>
      cases s with
      | nil => exact nil
      | cons b s =>
          cases hdecode : decodeRune (b :: s) with
          | none => exact stray b s hdecode (ih s.length (by simp at hn; omega) s rfl)
          | some c =>
              obtain ⟨rest, hrest⟩ := decodeRune_eq_some_iff.mp hdecode
              rw [hrest]
              obtain ⟨_, t, hencode, -⟩ := encode_eq_cons c
              have hlength : rest.length < n := by
                rw [← hn, hrest, hencode, List.length_append, List.length_cons]
                omega
              exact char c rest (ih rest.length hlength rest rfl)

/-! ## ASCII -/

theorem encode_of_lt {c : Char} (h : c.toNat < 0x80) : encode c = [UInt8.ofNat c.toNat] := by
  have hle : c.val.toNat ≤ 127 := Nat.le_of_lt_succ h
  simp only [encode, String.utf8EncodeChar, if_pos hle]
  rfl

/-- The encoding of any other character has no ASCII byte. -/
theorem le_of_mem_encode {c : Char} (h : 0x80 ≤ c.toNat) {b : UInt8} (hb : b ∈ encode c) :
    0x80 ≤ b.toNat := by
  have hnot : ¬c.val.toNat ≤ 127 := Nat.not_le.mpr h
  simp only [encode, String.utf8EncodeChar, if_neg hnot] at hb
  split_ifs at hb
  · simp only [List.mem_cons, List.not_mem_nil, or_false] at hb
    rcases hb with rfl | rfl <;> rw [UInt8.toNat_ofNat'] <;> omega
  · simp only [List.mem_cons, List.not_mem_nil, or_false] at hb
    rcases hb with rfl | rfl | rfl <;> rw [UInt8.toNat_ofNat'] <;> omega
  · simp only [List.mem_cons, List.not_mem_nil, or_false] at hb
    rcases hb with rfl | rfl | rfl | rfl <;> rw [UInt8.toNat_ofNat'] <;> omega

theorem toNat_ofNat {n : Nat} (h : n.isValidChar) : (Char.ofNat n).toNat = n := by
  rw [Char.ofNat, dif_pos h]
  rfl

/-- An ASCII byte is a character. -/
theorem cons_eq_encode {b : UInt8} (h : b.toNat < 0x80) (s : Bytes) :
    b :: s = encode (Char.ofNat b.toNat) ++ s := by
  have hnat : (Char.ofNat b.toNat).toNat = b.toNat := toNat_ofNat (Or.inl (by omega))
  rw [encode_of_lt (by omega), hnat, UInt8.ofNat_toNat]
  rfl

/-- So no stray byte is ASCII. -/
theorem le_of_stray {b : UInt8} {s : Bytes} (h : decodeRune (b :: s) = none) : 0x80 ≤ b.toNat := by
  by_contra hlt
  rw [cons_eq_encode (by omega) s, decodeRune_encode] at h
  cases h

/-! ## Valid strings -/

/-- A string that is written in characters. -/
def Text (s : Bytes) : Prop := ∃ cs : List Char, s = cs.flatMap encode

theorem text_nil : Text [] := ⟨[], rfl⟩

theorem text_encode (c : Char) : Text (encode c) := ⟨[c], by simp⟩

theorem Text.append {s t : Bytes} (hs : Text s) (ht : Text t) : Text (s ++ t) := by
  obtain ⟨cs, rfl⟩ := hs
  obtain ⟨ds, rfl⟩ := ht
  exact ⟨cs ++ ds, by simp⟩

theorem Text.cons {b : UInt8} {s : Bytes} (hb : b.toNat < 0x80) (hs : Text s) : Text (b :: s) := by
  rw [cons_eq_encode hb s]
  exact (text_encode _).append hs

theorem text_of_ascii {s : Bytes} (h : s.all (fun b => b.toNat < 0x80) = true) : Text s := by
  induction s with
  | nil => exact text_nil
  | cons b s ih =>
      rw [List.all_cons, Bool.and_eq_true, decide_eq_true_iff] at h
      exact (ih h.2).cons h.1

/-- Those are the valid ones. -/
theorem valid_iff {s : Bytes} : valid s = true ↔ Text s := by
  constructor
  · induction s using induction with
    | nil => exact fun _ => text_nil
    | char c s ih =>
        intro h
        rw [valid, runes_encode] at h
        exact (text_encode c).append (ih (by simpa [valid] using h))
    | stray b s hdecode ih =>
        intro h
        rw [valid, runes_stray hdecode] at h
        simp at h
  · rintro ⟨cs, rfl⟩
    induction cs with
    | nil => rfl
    | cons c cs ih => rwa [List.flatMap_cons, valid, runes_encode]

/-- And in those there is nothing to replace. -/
theorem toValid_of_text {s : Bytes} (h : Text s) : toValid s = s := by
  obtain ⟨cs, rfl⟩ := h
  induction cs with
  | nil => rfl
  | cons c cs ih =>
      rw [toValid] at ih ⊢
      rw [List.flatMap_cons, runes_encode, List.flatMap_cons, ih]
      rfl

end Drover.Go.Utf8
