import Mathlib.Data.Nat.Digits.Lemmas
import Drover.Go.Utf8
import Drover.Json.Marshal

set_option autoImplicit false

/-!
# Strings and numbers as `json.Marshal` writes them

`Marshal` writes a Go string rune by rune: what is safe stands for itself, the rest of ASCII
and the line separators are escaped, and a stray byte becomes the escape of the replacement
character.  `unquote` is how a literal is read back.

`jsonb` stores no NUL and no half of a surrogate pair; `storable` is its test of a literal.
-/

namespace Drover.Json

open Drover.Foundation
open Drover.Foundation.Bytes
open Drover.Go (Utf8.encode Utf8.Rune Utf8.runes Utf8.decodeRune Utf8.replacementChar Utf8.toValid
  Utf8.valid)

/-! ## Hexadecimal digits -/

/-- A digit of `0123456789abcdef`. -/
def hexDigit (n : Fin 16) : Hex :=
  ⟨if n.val < 10 then ascii '0' + UInt8.ofNat n.val else ascii 'a' + UInt8.ofNat (n.val - 10), by
    revert n
    decide⟩

theorem isHex_zero : isHex (ascii '0') = true := by decide

theorem isHex_two : isHex (ascii '2') = true := by decide

/-- The last four bits of a number. -/
def nibble (n : Nat) : Fin 16 := ⟨n % 16, Nat.mod_lt n (Nat.zero_lt_succ 15)⟩

/-- The value of a digit. -/
def hexValue (h : Hex) : Nat :=
  if isDigit h.val then h.val.toNat - (ascii '0').toNat
  else if ascii 'a' ≤ h.val then h.val.toNat - (ascii 'a').toNat + 10
  else h.val.toNat - (ascii 'A').toNat + 10

theorem hexValue_hexDigit : ∀ n : Fin 16, hexValue (hexDigit n) = n.val := by decide

/-- The value of a `\u` escape. -/
def uniValue (h₁ h₂ h₃ h₄ : Hex) : Nat :=
  ((hexValue h₁ * 16 + hexValue h₂) * 16 + hexValue h₃) * 16 + hexValue h₄

/-! ## Writing -/

/-- `htmlSafeSet`: the ASCII bytes that stand for themselves. -/
def htmlSafe (b : UInt8) : Bool :=
  isPlain b && b < 0x80 && b != ascii '<' && b != ascii '>' && b != ascii '&'

theorem isPlain_of_htmlSafe {b : UInt8} (h : htmlSafe b = true) : isPlain b = true := by
  simp only [htmlSafe, Bool.and_eq_true] at h
  exact h.1.1.1.1

/-- The ASCII bytes with an escape of two bytes. -/
def shortEscape (b : UInt8) : Option { b : UInt8 // isEscape b } :=
  if b = ascii '"' then some ⟨ascii '"', by decide⟩
  else if b = ascii '\\' then some ⟨ascii '\\', by decide⟩
  else if b = 0x08 then some ⟨ascii 'b', by decide⟩
  else if b = 0x0c then some ⟨ascii 'f', by decide⟩
  else if b = 0x0a then some ⟨ascii 'n', by decide⟩
  else if b = 0x0d then some ⟨ascii 'r', by decide⟩
  else if b = 0x09 then some ⟨ascii 't', by decide⟩
  else none

/-- How an ASCII byte is written. -/
def asciiChunk (b : UInt8) : Chunk :=
  if h : htmlSafe b = true then .byte ⟨b, isPlain_of_htmlSafe h⟩
  else
    match shortEscape b with
    | some e => .esc e
    | none =>
        .uni (hex '0' isHex_zero) (hex '0' isHex_zero) (hexDigit (nibble (b.toNat / 16)))
          (hexDigit (nibble b.toNat))

theorem isPlain_of_le {b : UInt8} (h : 0x80 ≤ b.toNat) : isPlain b = true := by
  simp only [isPlain, Bool.and_eq_true, decide_eq_true_eq, bne_iff_ne, ne_eq]
  refine ⟨⟨UInt8.le_iff_toNat_le.mpr (show 32 ≤ b.toNat by omega), ?_⟩, ?_⟩
  · rintro rfl
    revert h
    decide
  · rintro rfl
    revert h
    decide

/-- Bytes that stand for themselves. -/
def rawChunks (s : Bytes) (h : ∀ b ∈ s, isPlain b = true) : Chunks := s.pmap (fun b hb => .byte ⟨b, hb⟩) h

/-- How a character is written. -/
def charChunks (c : Char) : Chunks :=
  if h : c.toNat < 0x80 then [asciiChunk (UInt8.ofNat c.toNat)]
  else if c.toNat = 0x2028 ∨ c.toNat = 0x2029 then
    [.uni (hex '2' isHex_two) (hex '0' isHex_zero) (hex '2' isHex_two) (hexDigit (nibble c.toNat))]
  else
    rawChunks (Utf8.encode c) fun _ hb => isPlain_of_le (Go.Utf8.le_of_mem_encode (Nat.not_lt.mp h) hb)

/-- How a rune is written. -/
def runeChunks : Utf8.Rune → Chunks
  | .char c => charChunks c
  | .stray _ => [.uni (hex 'f') (hex 'f') (hex 'f') (hex 'd')]

/-- `appendString`, without the quotes. -/
def encodeString (s : Bytes) : Chunks := (Utf8.runes s).flatMap runeChunks

/-! ## Reading -/

/-- What a short escape stands for. -/
def unescape (b : UInt8) : UInt8 :=
  if b = ascii 'b' then 0x08
  else if b = ascii 'f' then 0x0c
  else if b = ascii 'n' then 0x0a
  else if b = ascii 'r' then 0x0d
  else if b = ascii 't' then 0x09
  else b

/-- `utf16.IsSurrogate`. -/
def isSurrogate (v : Nat) : Bool := 0xd800 ≤ v && v < 0xe000

/-- `utf16.DecodeRune`; none is the replacement character. -/
def decodePair (v w : Nat) : Option Char :=
  if 0xd800 ≤ v ∧ v < 0xdc00 ∧ 0xdc00 ≤ w ∧ w < 0xe000 then
    some (Char.ofNat ((v - 0xd800) * 0x400 + (w - 0xdc00) + 0x10000))
  else none

/-- `getu4` of what follows. -/
def headUni : Chunks → Option Nat
  | .uni h₁ h₂ h₃ h₄ :: _ => some (uniValue h₁ h₂ h₃ h₄)
  | _ => none

/-- `unquote`, after `skip` pieces that were read already. -/
def unquoteFrom : Nat → Chunks → Bytes
  | _, [] => []
  | skip + 1, _ :: s => unquoteFrom skip s
  | 0, .esc b :: s => unescape b.val :: unquoteFrom 0 s
  | 0, .uni h₁ h₂ h₃ h₄ :: s =>
      let v := uniValue h₁ h₂ h₃ h₄
      if isSurrogate v then
        match (headUni s).bind (decodePair v) with
        | some c => Utf8.encode c ++ unquoteFrom 1 s
        | none => Utf8.encode Utf8.replacementChar ++ unquoteFrom 0 s
      else Utf8.encode (Char.ofNat v) ++ unquoteFrom 0 s
  | 0, .byte b :: s =>
      match Utf8.decodeRune (b.val :: printChunks s) with
      | some c => Utf8.encode c ++ unquoteFrom (c.utf8Size - 1) s
      | none => Utf8.encode Utf8.replacementChar ++ unquoteFrom 0 s

/-- The string a literal stands for. -/
def unquote (s : Chunks) : Bytes := unquoteFrom 0 s

/-! ## What `jsonb` stores -/

/-- Whether `jsonb` stores a literal, after `skip` pieces that were read already: it refuses
`\u0000`, and a surrogate without its other half. -/
def storableFrom : Nat → Chunks → Bool
  | _, [] => true
  | skip + 1, _ :: s => storableFrom skip s
  | 0, .byte _ :: s => storableFrom 0 s
  | 0, .esc _ :: s => storableFrom 0 s
  | 0, .uni h₁ h₂ h₃ h₄ :: s =>
      let v := uniValue h₁ h₂ h₃ h₄
      if v = 0 then false
      else if isSurrogate v then
        ((headUni s).bind (decodePair v)).isSome && storableFrom 1 s
      else storableFrom 0 s

/-- Whether `jsonb` stores a literal. -/
def storable (s : Chunks) : Bool := storableFrom 0 s

/-- What the cast `::jsonb` asks of a literal: that its text is valid and its string stored. -/
def storedString (s : Chunks) : Bool := Utf8.valid (printChunks s) && storable s

mutual

/-- What it asks of a value. -/
def stored : Value → Bool
  | .null => true
  | .bool _ => true
  | .num _ => true
  | .str s => storedString s
  | .arr xs => storedElements xs
  | .obj ms => storedMembers ms

/-- What it asks of the elements of an array. -/
def storedElements : List Value → Bool
  | [] => true
  | x :: xs => stored x && storedElements xs

/-- What it asks of the members of an object. -/
def storedMembers : List (Chunks × Value) → Bool
  | [] => true
  | (k, x) :: ms => storedString k && stored x && storedMembers ms

end

/-- Whether the cast `::jsonb` accepts a text. -/
def castsToJsonb (text : Bytes) : Bool := (parse text).any stored

/-! ## The ways a character is written -/

/-- A character is written as itself, as a short escape, or as its number. -/
inductive Written (c : Char) : Chunks → Prop where
  | raw (h : ∀ b ∈ Utf8.encode c, isPlain b = true) : Written c (rawChunks (Utf8.encode c) h)
  | short (e : { b : UInt8 // isEscape b }) (hencode : Utf8.encode c = [unescape e.val])
      (hne : c.toNat ≠ 0) : Written c [.esc e]
  | uni (h₁ h₂ h₃ h₄ : Hex) (hvalue : uniValue h₁ h₂ h₃ h₄ = c.toNat) : Written c [.uni h₁ h₂ h₃ h₄]

theorem unescape_shortEscape {b : UInt8} {e : { b : UInt8 // isEscape b }}
    (h : shortEscape b = some e) : unescape e.val = b ∧ b ≠ 0 := by
  unfold shortEscape at h
  split_ifs at h with h₁ h₂ h₃ h₄ h₅ h₆ h₇ <;> cases h <;> subst b <;> decide

theorem uniValue_ascii {b : UInt8} (h : b.toNat < 0x80) :
    uniValue (hex '0') (hex '0') (hexDigit (nibble (b.toNat / 16)))
      (hexDigit (nibble b.toNat)) = b.toNat := by
  have hzero : hexValue (hex '0') = 0 := by decide
  simp only [uniValue, hexValue_hexDigit, hzero, nibble]
  omega

theorem written_asciiChunk {c : Char} (h : c.toNat < 0x80) :
    Written c [asciiChunk (UInt8.ofNat c.toNat)] := by
  have hencode := Go.Utf8.encode_of_lt h
  have hnat : (UInt8.ofNat c.toNat).toNat = c.toNat := by
    rw [UInt8.toNat_ofNat']
    omega
  unfold asciiChunk
  split_ifs with hsafe
  · have hplain : ∀ b ∈ Utf8.encode c, isPlain b = true := by
      rw [hencode]
      simpa using isPlain_of_htmlSafe hsafe
    have hraw := Written.raw hplain
    simpa only [rawChunks, hencode, List.pmap_cons, List.pmap_nil] using hraw
  · cases hshort : shortEscape (UInt8.ofNat c.toNat) with
    | some e =>
        obtain ⟨hvalue, hne⟩ := unescape_shortEscape hshort
        refine .short e (by rw [hencode, hvalue]) fun hzero => hne ?_
        rw [hzero]
        rfl
    | none => exact .uni _ _ _ _ ((uniValue_ascii (by omega)).trans hnat)

theorem written_charChunks (c : Char) : Written c (charChunks c) := by
  unfold charChunks
  split_ifs with hlt hline
  · exact written_asciiChunk hlt
  · refine .uni _ _ _ _ ?_
    rcases hline with hline | hline <;> rw [hline] <;> decide
  · exact .raw _

theorem written_runeChunks (r : Utf8.Rune) : Written r.read (runeChunks r) := by
  have hvalue : uniValue (hex 'f') (hex 'f') (hex 'f') (hex 'd') = Utf8.replacementChar.toNat := by
    decide
  cases r with
  | char c => exact written_charChunks c
  | stray b => exact .uni _ _ _ _ hvalue

/-! ## Reading what was written -/

/-- No half of a surrogate pair is a character. -/
theorem isSurrogate_char (c : Char) : isSurrogate c.toNat = false := by
  have hvalid : c.toNat < 0xd800 ∨ 0xdfff < c.toNat ∧ c.toNat < 0x110000 := c.valid
  simp only [isSurrogate, Bool.and_eq_false_iff, decide_eq_false_iff_not]
  omega

theorem unquoteFrom_eq_drop (skip : Nat) (s : Chunks) : unquoteFrom skip s = unquote (s.drop skip) := by
  induction skip generalizing s with
  | zero => rfl
  | succ skip ih =>
      cases s with
      | nil => simp [unquoteFrom, unquote]
      | cons c s =>
          rw [unquoteFrom]
          exact ih s

theorem printChunks_rawChunks {s : Bytes} (h : ∀ b ∈ s, isPlain b = true) (t : Chunks) :
    printChunks (rawChunks s h ++ t) = s ++ printChunks t := by
  induction s with
  | nil => rfl
  | cons b s ih => exact congrArg (b :: ·) (ih fun b hb => h b (List.mem_cons_of_mem _ hb))

/-- A character is read back, however it is written. -/
theorem Written.unquote_append {c : Char} {w : Chunks} (h : Written c w) (s : Chunks) :
    unquote (w ++ s) = Utf8.encode c ++ unquote s := by
  cases h with
  | raw hplain =>
      obtain ⟨b, t, hencode, hlength⟩ := Go.Utf8.encode_eq_cons c
      have hdecode : Utf8.decodeRune (b :: (t ++ printChunks s)) = some c := by
        rw [← List.cons_append, ← hencode]
        exact Go.Utf8.decodeRune_encode c _
      simp only [hencode] at hplain ⊢
      have htail : ∀ b ∈ t, isPlain b = true := fun b hb => hplain b (List.mem_cons_of_mem _ hb)
      show unquote (.byte ⟨b, _⟩ :: (rawChunks t htail ++ s)) = b :: t ++ unquote s
      rw [unquote, unquoteFrom, printChunks_rawChunks, hdecode]
      simp only
      have hdrop : (rawChunks t htail ++ s).drop (c.utf8Size - 1) = s := by
        rw [← hlength, ← List.length_pmap (f := fun b hb => Chunk.byte ⟨b, hb⟩) (H := htail)]
        exact List.drop_left
      rw [unquoteFrom_eq_drop, hdrop, hencode]
  | short e hencode hne =>
      rw [hencode]
      rfl
  | uni h₁ h₂ h₃ h₄ hvalue =>
      simp only [List.cons_append, List.nil_append, unquote, unquoteFrom, hvalue, isSurrogate_char,
        Bool.false_eq_true, if_false, Char.ofNat_toNat]

/-- What is read back has every stray byte replaced, and nothing else. -/
theorem unquote_encodeString (s : Bytes) : unquote (encodeString s) = Utf8.toValid s := by
  unfold encodeString Utf8.toValid
  induction Utf8.runes s with
  | nil => rfl
  | cons r rs ih =>
      rw [List.flatMap_cons, List.flatMap_cons, (written_runeChunks r).unquote_append, ih]

/-! ## Storing what was written -/

theorem storable_rawChunks {s : Bytes} (h : ∀ b ∈ s, isPlain b = true) (t : Chunks) :
    storable (rawChunks s h ++ t) = storable t := by
  induction s with
  | nil => rfl
  | cons b s ih => exact ih fun b hb => h b (List.mem_cons_of_mem _ hb)

/-- A character is stored, however it is written, unless it is NUL. -/
theorem Written.storable_append {c : Char} {w : Chunks} (h : Written c w) (s : Chunks) :
    storable (w ++ s) = (decide (c.toNat ≠ 0) && storable s) := by
  cases h with
  | raw hplain =>
      have hne : c.toNat ≠ 0 := by
        intro hzero
        have hencode := Go.Utf8.encode_of_lt (c := c) (by omega)
        rw [hzero] at hencode
        simp only [hencode] at hplain
        revert hplain
        decide
      simp [storable_rawChunks, hne]
  | short e hencode hne =>
      simp [storable, storableFrom, hne]
  | uni h₁ h₂ h₃ h₄ hvalue =>
      by_cases hzero : c.toNat = 0
      · simp [storable, storableFrom, hvalue, hzero]
      · simp [storable, storableFrom, hvalue, hzero, isSurrogate_char]

theorem mem_encode_zero_iff (c : Char) : (0 : UInt8) ∈ Utf8.encode c ↔ c.toNat = 0 := by
  by_cases hlt : c.toNat < 0x80
  · rw [Go.Utf8.encode_of_lt hlt, List.mem_singleton]
    constructor
    · intro h
      have hnat := congrArg UInt8.toNat h
      rw [UInt8.toNat_ofNat'] at hnat
      simp at hnat
      omega
    · intro h
      rw [h]
      rfl
  · constructor
    · intro h
      have hle := Go.Utf8.le_of_mem_encode (by omega) h
      simp at hle
    · omega

/-- A string is stored unless it has a NUL byte. -/
theorem storable_encodeString (s : Bytes) : storable (encodeString s) = true ↔ (0 : UInt8) ∉ s := by
  induction s using Go.Utf8.induction with
  | nil => simp [encodeString, storable, storableFrom]
  | char c s ih =>
      rw [encodeString, Go.Utf8.runes_encode, List.flatMap_cons, (written_runeChunks _).storable_append]
      rw [Bool.and_eq_true, decide_eq_true_eq, List.mem_append, not_or, mem_encode_zero_iff]
      exact and_congr_right fun _ => ih
  | stray b s hdecode ih =>
      have hne : b ≠ 0 := by
        rintro rfl
        have hle := Go.Utf8.le_of_stray hdecode
        simp at hle
      rw [encodeString, Go.Utf8.runes_stray hdecode, List.flatMap_cons,
        (written_runeChunks _).storable_append]
      rw [Bool.and_eq_true, decide_eq_true_eq, List.mem_cons, not_or]
      have hread : Utf8.replacementChar.toNat ≠ 0 := by decide
      exact ⟨fun h => ⟨hne.symm, ih.mp h.2⟩, fun h => ⟨hread, ih.mpr h.2⟩⟩

/-! ## The text that was written -/

theorem hex_ascii (h : Hex) : h.val.toNat < 0x80 := by
  obtain ⟨b, hb⟩ := h
  simp only [isHex, isDigit, Bool.or_eq_true, Bool.and_eq_true, decide_eq_true_eq,
    UInt8.le_iff_toNat_le] at hb
  have hnine : (ascii '9').toNat = 57 := by decide
  have hf : (ascii 'f').toNat = 102 := by decide
  have hF : (ascii 'F').toNat = 70 := by decide
  show b.toNat < 0x80
  omega

theorem escape_ascii (e : { b : UInt8 // isEscape b }) : e.val.toNat < 0x80 := by
  obtain ⟨b, hb⟩ := e
  have hall : (ofChars ['"', '\\', '/', 'b', 'f', 'n', 'r', 't']).all
      (fun b => b.toNat < 0x80) = true := by decide
  have hmem : b ∈ ofChars ['"', '\\', '/', 'b', 'f', 'n', 'r', 't'] := by
    simpa [isEscape] using hb
  exact of_decide_eq_true (List.all_eq_true.mp hall b hmem)

theorem Written.text_printChunks {c : Char} {w s : Chunks} (h : Written c w)
    (hs : Go.Utf8.Text (printChunks s)) : Go.Utf8.Text (printChunks (w ++ s)) := by
  cases h with
  | raw hplain =>
      rw [printChunks_rawChunks]
      exact (Go.Utf8.text_encode c).append hs
  | short e hencode hne => exact (hs.cons (escape_ascii e)).cons (by decide)
  | uni h₁ h₂ h₃ h₄ hvalue =>
      exact (((((hs.cons (hex_ascii h₄)).cons (hex_ascii h₃)).cons (hex_ascii h₂)).cons
        (hex_ascii h₁)).cons (by decide)).cons (by decide)

/-- What is written is valid, whatever was given. -/
theorem text_printChunks_encodeString (s : Bytes) : Go.Utf8.Text (printChunks (encodeString s)) := by
  unfold encodeString
  induction Utf8.runes s with
  | nil => exact Go.Utf8.text_of_ascii (by decide)
  | cons r rs ih => exact (written_runeChunks r).text_printChunks ih

theorem storedString_encodeString (s : Bytes) :
    storedString (encodeString s) = true ↔ (0 : UInt8) ∉ s := by
  rw [storedString, Go.Utf8.valid_iff.mpr (text_printChunks_encodeString s), Bool.true_and]
  exact storable_encodeString s

/-! ## Numbers -/

/-- The decimal digits of a number. -/
def natDigits (n : Nat) : Digits :=
  match (Nat.digits 10 n).reverse with
  | [] => ⟨0, []⟩
  | d :: ds => ⟨Fin.ofNat 10 d, ds.map (Fin.ofNat 10)⟩

theorem natDigits_noLeadingZero (n : Nat) : (natDigits n).first.val = 0 → (natDigits n).rest = [] := by
  unfold natDigits
  cases hdigits : (Nat.digits 10 n).reverse with
  | nil => exact fun _ => rfl
  | cons d ds =>
      intro hzero
      have hlist : Nat.digits 10 n = ds.reverse ++ [d] := by
        rw [← List.reverse_reverse (Nat.digits 10 n), hdigits, List.reverse_cons]
      have hn : n ≠ 0 := by
        rintro rfl
        simp at hdigits
      have hlast := Nat.getLast_digit_ne_zero 10 hn
      simp only [hlist, List.getLast_append_singleton] at hlast
      have hlt : d < 10 := Nat.digits_lt_base (b := 10) (m := n) (by omega) (by simp [hlist])
      exact absurd ((Nat.mod_eq_of_lt hlt).symm.trans hzero) hlast

/-- An `int`. -/
def intNumber (n : Int) : Number :=
  ⟨decide (n < 0), natDigits n.natAbs, none, none, natDigits_noLeadingZero n.natAbs⟩

example : print (.num (intNumber (-305))) = ofChars "-305".toList := by decide

end Drover.Json
