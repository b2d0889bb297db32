import Drover.Json.Parse

set_option autoImplicit false

/-!
# `json.Marshal` and `json.Unmarshal` on lists of raw messages

A `json.RawMessage` keeps the text of a value.  `Marshal` reads that text again,
removes its insignificant space and escapes `<`, `>`, `&`, U+2028 and U+2029
inside strings, so a raw message is represented here by its reading.  Every entry
point of `encoding/json` goes through one scanner, which also bounds the nesting
of a text; that bound is `maxNestingDepth`.
-/

namespace Drover.Json

open Drover.Foundation
open Drover.Foundation.Bytes

/-! ## Escaping for HTML -/

/-- A hexadecimal digit of the escapes `Marshal` writes. -/
def hex (c : Char) (h : isHex (ascii c) = true := by decide) : Hex := ⟨ascii c, h⟩

/-- `<`, `>` and `&` become their `\u` escapes. -/
def escapeChunk : Chunk → Chunk
  | .byte b =>
      if b.val = ascii '<' then .uni (hex '0') (hex '0') (hex '3') (hex 'c')
      else if b.val = ascii '>' then .uni (hex '0') (hex '0') (hex '3') (hex 'e')
      else if b.val = ascii '&' then .uni (hex '0') (hex '0') (hex '2') (hex '6')
      else .byte b
  | c => c

/-- The bytes `E2 80 A8` and `E2 80 A9`: U+2028 and U+2029 in UTF-8. -/
def isLineSeparator (a b c : { b : UInt8 // isPlain b }) : Bool :=
  a.val == 0xE2 && b.val == 0x80 && (c.val == 0xA8 || c.val == 0xA9)

/-- The escape of a line separator, from its last byte. -/
def lineSeparator (c : { b : UInt8 // isPlain b }) : Chunk :=
  .uni (hex '2') (hex '0') (hex '2') (if c.val = 0xA8 then hex '8' else hex '9')

/-- The string literal `Marshal` writes for one it was given. -/
def escapeChunks : Chunks → Chunks
  | [] => []
  | .byte a :: .byte b :: .byte c :: rest =>
      if isLineSeparator a b c then lineSeparator c :: escapeChunks rest
      else escapeChunk (.byte a) :: escapeChunks (.byte b :: .byte c :: rest)
  | c :: rest => escapeChunk c :: escapeChunks rest

/-- What one piece leaves: an escape is left alone, and a byte that stays is one
that is not escaped. -/
theorem escapeChunk_cases (c : Chunk) :
    escapeChunk c = c ∨ ∃ h₁ h₂ h₃ h₄, escapeChunk c = .uni h₁ h₂ h₃ h₄ := by
  cases c with
  | byte b =>
      simp only [escapeChunk]
      split
      · exact Or.inr ⟨_, _, _, _, rfl⟩
      · split
        · exact Or.inr ⟨_, _, _, _, rfl⟩
        · split
          · exact Or.inr ⟨_, _, _, _, rfl⟩
          · exact Or.inl rfl
  | esc b => exact Or.inl rfl
  | uni h₁ h₂ h₃ h₄ => exact Or.inl rfl

@[simp] theorem escapeChunk_idem (c : Chunk) : escapeChunk (escapeChunk c) = escapeChunk c := by
  rcases escapeChunk_cases c with h | ⟨h₁, h₂, h₃, h₄, h⟩
  · rw [h, h]
  · rw [h]
    rfl

theorem escapeChunks_cons_of_not_separator {c : Chunk} {s : Chunks}
    (h : ∀ a b d rest, c = .byte a → s = .byte b :: .byte d :: rest →
      isLineSeparator a b d = false) :
    escapeChunks (c :: s) = escapeChunk c :: escapeChunks s := by
  generalize hcs : c :: s = cs
  fun_cases escapeChunks cs with
  | case1 => cases hcs
  | case2 a b d rest hsep =>
      cases hcs
      simp [h a b d rest rfl rfl] at hsep
  | case3 => cases hcs; rfl
  | case4 => cases hcs; rfl

theorem escapeChunks_uni (h₁ h₂ h₃ h₄ : Hex) (s : Chunks) :
    escapeChunks (.uni h₁ h₂ h₃ h₄ :: s) = .uni h₁ h₂ h₃ h₄ :: escapeChunks s :=
  escapeChunks_cons_of_not_separator (by intro a b d rest h; cases h)

/-- A byte at the front of an escaped literal was there before. -/
theorem escapeChunks_byte {s rest : Chunks} {b : { b : UInt8 // isPlain b }}
    (h : escapeChunks s = .byte b :: rest) :
    ∃ s', s = .byte b :: s' ∧ rest = escapeChunks s' := by
  have hchunk : ∀ c : Chunk, escapeChunk c = .byte b → c = .byte b := by
    intro c hc
    rcases escapeChunk_cases c with h | ⟨h₁, h₂, h₃, h₄, h⟩
    · rw [← h, hc]
    · rw [h] at hc
      cases hc
  revert h
  fun_cases escapeChunks s with
  | case1 => intro h; cases h
  | case2 a c d rest' hsep => intro h; simp [lineSeparator] at h
  | case3 a c d rest' hsep =>
      intro h
      simp only [List.cons.injEq] at h
      exact ⟨_, by rw [hchunk _ h.1], h.2.symm⟩
  | case4 c rest' hne =>
      intro h
      simp only [List.cons.injEq] at h
      exact ⟨_, by rw [hchunk _ h.1], h.2.symm⟩

@[simp] theorem escapeChunks_idem (s : Chunks) :
    escapeChunks (escapeChunks s) = escapeChunks s := by
  -- A piece that stays a byte is followed by the bytes that followed it before,
  -- so escaping never brings a line separator together.
  fun_induction escapeChunks s with
  | case1 => rfl
  | case2 a b c rest hsep ih => rw [lineSeparator, escapeChunks_uni, ih]
  | case3 a b c rest hsep ih =>
      rw [escapeChunks_cons_of_not_separator, escapeChunk_idem, ih]
      intro a' b' d' rest' ha hs
      obtain ⟨s₁, hs₁, hrest₁⟩ := escapeChunks_byte hs
      obtain ⟨s₂, hs₂, -⟩ := escapeChunks_byte hrest₁.symm
      simp only [List.cons.injEq, Chunk.byte.injEq] at hs₁
      obtain ⟨rfl, rfl⟩ := hs₁
      simp only [List.cons.injEq, Chunk.byte.injEq] at hs₂
      obtain ⟨rfl, rfl⟩ := hs₂
      rcases escapeChunk_cases (.byte a) with h | ⟨h₁, h₂, h₃, h₄, h⟩
      · rw [h] at ha
        cases ha
        simpa using hsep
      · rw [h] at ha
        cases ha
  | case4 c rest hne ih =>
      rw [escapeChunks_cons_of_not_separator, escapeChunk_idem, ih]
      intro a b d rest' ha hs
      obtain ⟨s₁, rfl, hrest₁⟩ := escapeChunks_byte hs
      obtain ⟨s₂, rfl, -⟩ := escapeChunks_byte hrest₁.symm
      rcases escapeChunk_cases c with h | ⟨h₁, h₂, h₃, h₄, h⟩
      · rw [h] at ha
        exact absurd rfl (hne a b d s₂ ha)
      · rw [h] at ha
        cases ha

mutual

/-- The value `Marshal` writes for a raw message. -/
def escapeHTML : Value → Value
  | .null => .null
  | .bool b => .bool b
  | .num n => .num n
  | .str s => .str (escapeChunks s)
  | .arr xs => .arr (escapeElements xs)
  | .obj ms => .obj (escapeMembers ms)

/-- The elements `Marshal` writes. -/
def escapeElements : List Value → List Value
  | [] => []
  | x :: xs => escapeHTML x :: escapeElements xs

/-- The members `Marshal` writes. -/
def escapeMembers : List (Chunks × Value) → List (Chunks × Value)
  | [] => []
  | (k, x) :: ms => (escapeChunks k, escapeHTML x) :: escapeMembers ms

end

mutual

theorem escapeHTML_idem : ∀ x : Value, escapeHTML (escapeHTML x) = escapeHTML x
  | .null => by simp [escapeHTML]
  | .bool b => by simp [escapeHTML]
  | .num n => by simp [escapeHTML]
  | .str s => by simp [escapeHTML]
  | .arr xs => by simp [escapeHTML, escapeElements_idem xs]
  | .obj ms => by simp [escapeHTML, escapeMembers_idem ms]

theorem escapeElements_idem : ∀ xs : List Value,
    escapeElements (escapeElements xs) = escapeElements xs
  | [] => by simp [escapeElements]
  | x :: xs => by simp [escapeElements, escapeHTML_idem x, escapeElements_idem xs]

theorem escapeMembers_idem : ∀ ms : List (Chunks × Value),
    escapeMembers (escapeMembers ms) = escapeMembers ms
  | [] => by simp [escapeMembers]
  | (k, x) :: ms => by simp [escapeMembers, escapeHTML_idem x, escapeMembers_idem ms]

end

theorem escapeElements_eq_map (xs : List Value) : escapeElements xs = xs.map escapeHTML := by
  induction xs with
  | nil => simp [escapeElements]
  | cons x xs ih => simp [escapeElements, ih]

theorem escapeElements_append (xs ys : List Value) :
    escapeElements (xs ++ ys) = escapeElements xs ++ escapeElements ys := by
  simp only [escapeElements_eq_map, List.map_append]

mutual

theorem depth_escapeHTML : ∀ x : Value, depth (escapeHTML x) = depth x
  | .null => by simp [escapeHTML]
  | .bool b => by simp [escapeHTML]
  | .num n => by simp [escapeHTML]
  | .str s => by simp [escapeHTML, depth]
  | .arr xs => by simp [escapeHTML, depth, depthElements_escapeElements xs]
  | .obj ms => by simp [escapeHTML, depth, depthMembers_escapeMembers ms]

theorem depthElements_escapeElements : ∀ xs : List Value,
    depthElements (escapeElements xs) = depthElements xs
  | [] => by simp [escapeElements]
  | x :: xs => by
      simp [escapeElements, depthElements, depth_escapeHTML x, depthElements_escapeElements xs]

theorem depthMembers_escapeMembers : ∀ ms : List (Chunks × Value),
    depthMembers (escapeMembers ms) = depthMembers ms
  | [] => by simp [escapeMembers]
  | (k, x) :: ms => by
      simp [escapeMembers, depthMembers, depth_escapeHTML x, depthMembers_escapeMembers ms]

end

theorem depthElements_append (xs ys : List Value) :
    depthElements (xs ++ ys) = max (depthElements xs) (depthElements ys) := by
  induction xs with
  | nil => simp [depthElements]
  | cons x xs ih => simp [depthElements, ih, Nat.max_assoc]

theorem depthElements_singleton (x : Value) : depthElements [x] = depth x := by
  simp [depthElements]

/-! ## The entry points -/

/-- The scanner of `encoding/json` gives up on texts nested more deeply. -/
def maxNestingDepth : Nat := 10000

/-- The reading of a text the scanner accepts. -/
def scan (b : Bytes) : Option Value :=
  match parse b with
  | none => none
  | some x => if depth x ≤ maxNestingDepth then some x else none

theorem parse_of_scan {b : Bytes} {x : Value} (h : scan b = some x) : parse b = some x := by
  unfold scan at h
  cases hparse : parse b with
  | none =>
      rw [hparse] at h
      cases h
  | some y =>
      rw [hparse] at h
      simp only at h
      split at h
      · exact h
      · cases h

/-- `json.Unmarshal` into a `[]json.RawMessage`.  A `null` leaves the slice nil;
a text that is neither an array nor `null` is an error. -/
def unmarshalList (b : Bytes) : Option (List Value) :=
  match scan b with
  | some .null => some []
  | some (.arr xs) => some xs
  | _ => none

/-- `json.Marshal` of a list of raw messages that have been read. -/
def marshalList (xs : List Value) : Bytes := print (.arr (escapeElements xs))

/-- The elements of the JSON array a text holds, whatever its nesting. -/
def decodeArray (b : Bytes) : Option (List Value) :=
  match parse b with
  | some (.arr xs) => some xs
  | _ => none

@[simp] theorem decodeArray_print (xs : List Value) : decodeArray (print (.arr xs)) = some xs := by
  simp [decodeArray]

theorem unmarshalList_print_arr {xs : List Value} (h : depth (.arr xs) ≤ maxNestingDepth) :
    unmarshalList (print (.arr xs)) = some xs := by
  simp [unmarshalList, scan, h]

theorem unmarshalList_print_arr_eq_some {xs ys : List Value}
    (h : unmarshalList (print (.arr xs)) = some ys) : ys = xs := by
  unfold unmarshalList scan at h
  rw [parse_print] at h
  by_cases hd : depth (.arr xs) ≤ maxNestingDepth
  · simpa [hd] using h.symm
  · simp [hd] at h

end Drover.Json
