import Drover.Json.Syntax

set_option autoImplicit false

/-!
# Reading a JSON text

The grammar `encoding/json` scans: RFC 8259 over bytes, with space, tab, newline
and carriage return as insignificant space and with no check of UTF-8.  The
reader recurses on fuel; `parse` gives it fuel proportional to the length of the
text, and `parse_print` shows that this is enough for every printed value.
-/

namespace Drover.Json

open Drover.Foundation
open Drover.Foundation.Bytes

/-! ## Lexical pieces -/

/-- Insignificant space. -/
def isSpace (b : UInt8) : Bool :=
  b == ascii ' ' || b == ascii '\t' || b == ascii '\r' || b == ascii '\n'

/-- Drop leading insignificant space. -/
def skipSpace : Bytes → Bytes
  | [] => []
  | b :: s => if isSpace b then skipSpace s else b :: s

theorem skipSpace_cons {b : UInt8} (h : isSpace b = false) (s : Bytes) :
    skipSpace (b :: s) = b :: s := by
  simp [skipSpace, h]

/-- Read the literal `lit`. -/
def expect : Bytes → Bytes → Option Bytes
  | [], s => some s
  | _ :: _, [] => none
  | l :: lit, b :: s => if b = l then expect lit s else none

theorem expect_append (lit r : Bytes) : expect lit (lit ++ r) = some r := by
  induction lit with
  | nil => rfl
  | cons l lit ih => simpa [expect] using ih

/-- The decimal digit a byte writes. -/
def digit? (b : UInt8) : Option (Fin 10) :=
  (List.finRange 10).find? fun d => digitByte d == b

@[simp] theorem digit?_digitByte : ∀ d : Fin 10, digit? (digitByte d) = some d := by
  decide

/-- The longest run of digits at the front. -/
def readDigits : Bytes → List (Fin 10) × Bytes
  | [] => ([], [])
  | b :: s =>
      match digit? b with
      | none => ([], b :: s)
      | some d => (d :: (readDigits s).1, (readDigits s).2)

/-- A non-empty run of digits. -/
def readDigits₁ : Bytes → Option (Digits × Bytes)
  | [] => none
  | b :: s => (digit? b).map fun d => (⟨d, (readDigits s).1⟩, (readDigits s).2)

/-- The digits of an integer part: a zero stands alone. -/
def readInt : Bytes → Option ({ d : Digits // d.first.val = 0 → d.rest = [] } × Bytes)
  | [] => none
  | b :: s =>
      (digit? b).map fun d =>
        if h : d.val = 0 then (⟨⟨d, []⟩, fun _ => rfl⟩, s)
        else (⟨⟨d, (readDigits s).1⟩, fun h' => absurd h' h⟩, (readDigits s).2)

/-- An optional fraction. -/
def readFrac : Bytes → Option (Option Digits × Bytes)
  | [] => some (none, [])
  | b :: s =>
      if b = ascii '.' then (readDigits₁ s).map fun p => (some p.1, p.2)
      else some (none, b :: s)

/-- The optional sign of an exponent. -/
def readSign : Bytes → Option Bool × Bytes
  | [] => (none, [])
  | b :: s =>
      if b = ascii '-' then (some true, s)
      else if b = ascii '+' then (some false, s)
      else (none, b :: s)

/-- An optional exponent. -/
def readExp : Bytes → Option (Option Exponent × Bytes)
  | [] => some (none, [])
  | b :: s =>
      if b = ascii 'e' ∨ b = ascii 'E' then
        (readDigits₁ (readSign s).2).map fun p =>
          (some ⟨b == ascii 'E', (readSign s).1, p.1⟩, p.2)
      else some (none, b :: s)

/-- A leading minus. -/
def readMinus : Bytes → Bool × Bytes
  | [] => (false, [])
  | b :: s => if b = ascii '-' then (true, s) else (false, b :: s)

/-- A number literal. -/
def readNumber (s : Bytes) : Option (Number × Bytes) :=
  match readInt (readMinus s).2 with
  | none => none
  | some (int, s₁) =>
      match readFrac s₁ with
      | none => none
      | some (frac, s₂) =>
          (readExp s₂).map fun p =>
            (⟨(readMinus s).1, int.val, frac, p.1, int.property⟩, p.2)

/-- Put a piece in front of the rest of its string literal. -/
def consChunk (c : Chunk) (p : Chunks × Bytes) : Chunks × Bytes := (c :: p.1, p.2)

/-- The text of a string literal after its opening quote. -/
def readChunks : Bytes → Option (Chunks × Bytes)
  | [] => none
  | b :: s =>
      if b = ascii '"' then some ([], s)
      else if b = ascii '\\' then
        match s with
        | [] => none
        | e :: s =>
            if e = ascii 'u' then
              match s with
              | h₁ :: h₂ :: h₃ :: h₄ :: s =>
                  if h : (isHex h₁ ∧ isHex h₂) ∧ isHex h₃ ∧ isHex h₄ then
                    (readChunks s).map
                      (consChunk (.uni ⟨h₁, h.1.1⟩ ⟨h₂, h.1.2⟩ ⟨h₃, h.2.1⟩ ⟨h₄, h.2.2⟩))
                  else none
              | _ => none
            else if h : isEscape e then (readChunks s).map (consChunk (.esc ⟨e, h⟩))
            else none
      else if h : isPlain b then (readChunks s).map (consChunk (.byte ⟨b, h⟩))
      else none

/-! ## Values -/

mutual

/-- One value, with the space before it. -/
def readValue : Nat → Bytes → Option (Value × Bytes)
  | 0, _ => none
  | fuel + 1, s =>
      match skipSpace s with
      | [] => none
      | b :: s =>
          if b = ascii '"' then (readChunks s).map fun p => (.str p.1, p.2)
          else if b = ascii '[' then
            match skipSpace s with
            | [] => none
            | c :: r =>
                if c = ascii ']' then some (.arr [], r)
                else (readElements fuel (c :: r)).map fun p => (.arr p.1, p.2)
          else if b = ascii '\x7b' then
            match skipSpace s with
            | [] => none
            | c :: r =>
                if c = ascii '\x7d' then some (.obj [], r)
                else (readMembers fuel (c :: r)).map fun p => (.obj p.1, p.2)
          else if b = ascii 'n' then
            (expect (ofChars ['u', 'l', 'l']) s).map fun r => (.null, r)
          else if b = ascii 't' then
            (expect (ofChars ['r', 'u', 'e']) s).map fun r => (.bool true, r)
          else if b = ascii 'f' then
            (expect (ofChars ['a', 'l', 's', 'e']) s).map fun r => (.bool false, r)
          else (readNumber (b :: s)).map fun p => (.num p.1, p.2)

/-- The elements of a non-empty array, with its closing bracket. -/
def readElements : Nat → Bytes → Option (List Value × Bytes)
  | 0, _ => none
  | fuel + 1, s =>
      match readValue fuel s with
      | none => none
      | some (x, s) =>
          match skipSpace s with
          | [] => none
          | c :: r =>
              if c = ascii ',' then
                (readElements fuel r).map fun p => (x :: p.1, p.2)
              else if c = ascii ']' then some ([x], r)
              else none

/-- The members of a non-empty object, with its closing brace. -/
def readMembers : Nat → Bytes → Option (List (Chunks × Value) × Bytes)
  | 0, _ => none
  | fuel + 1, s =>
      match skipSpace s with
      | [] => none
      | q :: s =>
          if q = ascii '"' then
            match readChunks s with
            | none => none
            | some (k, s) =>
                match skipSpace s with
                | [] => none
                | c :: s =>
                    if c = ascii ':' then
                      match readValue fuel s with
                      | none => none
                      | some (x, s) =>
                          match skipSpace s with
                          | [] => none
                          | c :: r =>
                              if c = ascii ',' then
                                (readMembers fuel r).map fun p => ((k, x) :: p.1, p.2)
                              else if c = ascii '\x7d' then some ([(k, x)], r)
                              else none
                    else none
          else none

end

/-- The value of a whole text: one value and nothing after it but space. -/
def parse (s : Bytes) : Option Value :=
  match readValue (2 * s.length + 1) s with
  | none => none
  | some (x, r) => if skipSpace r = [] then some x else none

/-! ## What is printed is read back -/

/-- What may follow a value inside a text: its end, or a byte that closes or
separates.  None of them continues a number. -/
def Ends : Bytes → Prop
  | [] => True
  | b :: _ => b = ascii ',' ∨ b = ascii ']' ∨ b = ascii '\x7d'

theorem ends_nil : Ends [] := trivial

theorem ends_printElements (xs : List Value) (r : Bytes) : Ends (printElements xs ++ r) := by
  cases xs <;> simp [printElements, Ends]

theorem ends_printMembers (ms : List (Chunks × Value)) (r : Bytes) :
    Ends (printMembers ms ++ r) := by
  cases ms <;> simp [printMembers, Ends]

/-- A byte that does not continue a run of digits. -/
def NoDigit : Bytes → Prop
  | [] => True
  | b :: _ => digit? b = none

theorem Ends.noDigit {r : Bytes} (h : Ends r) : NoDigit r := by
  cases r with
  | nil => trivial
  | cons b r =>
      show digit? b = none
      rcases h with rfl | rfl | rfl <;> decide

theorem readDigits_append (ds : List (Fin 10)) {r : Bytes} (h : NoDigit r) :
    readDigits (ds.map digitByte ++ r) = (ds, r) := by
  induction ds with
  | nil =>
      cases r with
      | nil => rfl
      | cons b r =>
          have hb : digit? b = none := h
          simp [readDigits, hb]
  | cons d ds ih => simp [readDigits, ih]

theorem readDigits₁_append (d : Digits) {r : Bytes} (h : NoDigit r) :
    readDigits₁ (d.print ++ r) = some (d, r) := by
  simp [Digits.print, readDigits₁, readDigits_append d.rest h]

theorem readInt_append (d : Digits) (hd : d.first.val = 0 → d.rest = []) {r : Bytes}
    (h : NoDigit r) : readInt (d.print ++ r) = some (⟨d, hd⟩, r) := by
  obtain ⟨first, rest⟩ := d
  simp only [Digits.print, List.cons_append, readInt, digit?_digitByte, Option.map_some]
  by_cases hz : first.val = 0
  · have hrest : rest = [] := hd hz
    subst hrest
    simp [hz]
  · simp [hz, readDigits_append rest h]

theorem noDigit_printExp (e : Option Exponent) {r : Bytes} (h : Ends r) :
    NoDigit (printExp e ++ r) := by
  cases e with
  | none => exact h.noDigit
  | some e => cases hu : e.upper <;> simp [printExp, Exponent.print, hu, NoDigit] <;> decide

theorem noDigit_printFrac (d : Option Digits) (e : Option Exponent) {r : Bytes} (h : Ends r) :
    NoDigit (printFrac d ++ (printExp e ++ r)) := by
  cases d with
  | none => exact noDigit_printExp e h
  | some d =>
      simp only [printFrac, List.cons_append, NoDigit]
      decide

theorem readFrac_append (d : Option Digits) (e : Option Exponent) {r : Bytes} (h : Ends r) :
    readFrac (printFrac d ++ (printExp e ++ r)) = some (d, printExp e ++ r) := by
  cases d with
  | some d => simp [printFrac, readFrac, readDigits₁_append d (noDigit_printExp e h)]
  | none =>
      cases e with
      | some e =>
          cases hu : e.upper <;>
            simp [printFrac, printExp, Exponent.print, hu, readFrac] <;> decide
      | none =>
          cases r with
          | nil => rfl
          | cons b r =>
              have hb : b ≠ ascii '.' := by
                rcases h with rfl | rfl | rfl <;> decide
              simp [printFrac, printExp, readFrac, hb]

theorem readSign_append (sign : Option Bool) (d : Digits) (r : Bytes) :
    readSign (printSign sign ++ (d.print ++ r)) = (sign, d.print ++ r) := by
  have hminus : ∀ x : Fin 10, digitByte x ≠ ascii '-' := by decide
  have hplus : ∀ x : Fin 10, digitByte x ≠ ascii '+' := by decide
  cases sign with
  | none => simp [readSign, printSign, Digits.print, hminus, hplus]
  | some b =>
      cases b
      · have hne : ascii '+' ≠ ascii '-' := by decide
        simp [readSign, printSign, hne]
      · simp [readSign, printSign]

theorem readExp_append (e : Option Exponent) {r : Bytes} (h : Ends r) :
    readExp (printExp e ++ r) = some (e, r) := by
  cases e with
  | some e =>
      obtain ⟨upper, sign, digits⟩ := e
      have hdigits := readDigits₁_append digits h.noDigit
      have hsign := readSign_append sign digits r
      cases upper <;>
        simp only [printExp, Exponent.print, if_true, if_false, Bool.false_eq_true,
          List.cons_append, List.append_assoc, readExp, true_or, or_true, hsign, hdigits,
          Option.map_some] <;> rfl
  | none =>
      cases r with
      | nil => rfl
      | cons b r =>
          have hb : ¬(b = ascii 'e' ∨ b = ascii 'E') := by
            rcases h with rfl | rfl | rfl <;> decide
          simp [printExp, readExp, hb]

theorem readMinus_append (neg : Bool) (d : Digits) (r : Bytes) :
    readMinus ((if neg then [ascii '-'] else []) ++ (d.print ++ r)) =
      (neg, d.print ++ r) := by
  have hminus : ∀ x : Fin 10, digitByte x ≠ ascii '-' := by decide
  cases neg <;> simp [readMinus, Digits.print, hminus]

theorem readNumber_append (n : Number) {r : Bytes} (h : Ends r) :
    readNumber (n.print ++ r) = some (n, r) := by
  obtain ⟨neg, int, frac, exp, hzero⟩ := n
  have hminus := readMinus_append neg int (printFrac frac ++ (printExp exp ++ r))
  have hint := readInt_append int hzero (noDigit_printFrac frac exp h)
  have hfrac := readFrac_append frac exp h
  have hexp := readExp_append exp h
  simp only [Number.print, List.append_assoc] at hminus ⊢
  simp only [readNumber, hminus, hint, hfrac, hexp, Option.map_some]

theorem readChunks_print (c : Chunk) (s : Bytes) :
    readChunks (c.print ++ s) = (readChunks s).map (consChunk c) := by
  cases c with
  | byte b =>
      obtain ⟨b, hb⟩ := b
      have hq : b ≠ ascii '"' := by
        rintro rfl
        exact absurd hb (by decide)
      have hs : b ≠ ascii '\\' := by
        rintro rfl
        exact absurd hb (by decide)
      rw [Chunk.print, List.singleton_append, readChunks.eq_def]
      simp only [if_neg hq, if_neg hs, dif_pos hb]
  | esc b =>
      obtain ⟨b, hb⟩ := b
      have hu : b ≠ ascii 'u' := by
        rintro rfl
        exact absurd hb (by decide)
      have hq : ascii '\\' ≠ ascii '"' := by decide
      rw [Chunk.print, List.cons_append, List.singleton_append, readChunks.eq_def]
      simp only [if_neg hq, if_true, if_neg hu, dif_pos hb]
  | uni h₁ h₂ h₃ h₄ =>
      have hq : ascii '\\' ≠ ascii '"' := by decide
      simp [Chunk.print, readChunks, hq, h₁.property, h₂.property, h₃.property, h₄.property]

theorem readChunks_printChunks (s : Chunks) (r : Bytes) :
    readChunks (printChunks s ++ r) = some (s, r) := by
  induction s with
  | nil =>
      rw [printChunks, List.singleton_append, readChunks.eq_def]
      simp only [if_true]
  | cons c s ih => simp [printChunks, readChunks_print, ih, consChunk]

mutual

/-- Fuel that is enough to read a value back. -/
def need : Value → Nat
  | .null => 1
  | .bool _ => 1
  | .num _ => 1
  | .str _ => 1
  | .arr xs => needElements xs + 1
  | .obj ms => needMembers ms + 1

/-- Fuel that is enough to read elements back. -/
def needElements : List Value → Nat
  | [] => 0
  | x :: xs => max (need x) (needElements xs) + 1

/-- Fuel that is enough to read members back. -/
def needMembers : List (Chunks × Value) → Nat
  | [] => 0
  | (_, x) :: ms => max (need x) (needMembers ms) + 1

end

theorem one_le_need (x : Value) : 1 ≤ need x := by
  cases x <;> simp [need]

/-- The head of a printed value is not space, so reading it starts there. -/
theorem readValue_cons (fuel : Nat) {b : UInt8} (hb : isSpace b = false) (s : Bytes) :
    readValue (fuel + 1) (b :: s) =
      if b = ascii '"' then (readChunks s).map fun p => (.str p.1, p.2)
      else if b = ascii '[' then
        match skipSpace s with
        | [] => none
        | c :: r =>
            if c = ascii ']' then some (.arr [], r)
            else (readElements fuel (c :: r)).map fun p => (.arr p.1, p.2)
      else if b = ascii '\x7b' then
        match skipSpace s with
        | [] => none
        | c :: r =>
            if c = ascii '\x7d' then some (.obj [], r)
            else (readMembers fuel (c :: r)).map fun p => (.obj p.1, p.2)
      else if b = ascii 'n' then
        (expect (ofChars ['u', 'l', 'l']) s).map fun r => (.null, r)
      else if b = ascii 't' then
        (expect (ofChars ['r', 'u', 'e']) s).map fun r => (.bool true, r)
      else if b = ascii 'f' then
        (expect (ofChars ['a', 'l', 's', 'e']) s).map fun r => (.bool false, r)
      else (readNumber (b :: s)).map fun p => (.num p.1, p.2) := by
  rw [readValue.eq_def]
  simp only [skipSpace_cons hb]

theorem readValue_null (fuel : Nat) (r : Bytes) :
    readValue (fuel + 1) (print .null ++ r) = some (.null, r) := by
  have h := expect_append (ofChars ['u', 'l', 'l']) r
  rw [print]
  refine (readValue_cons fuel (by decide) _).trans ?_
  rw [if_neg (by decide), if_neg (by decide), if_neg (by decide), if_pos rfl]
  simpa [ofChars] using h

theorem readValue_bool (fuel : Nat) (b : Bool) (r : Bytes) :
    readValue (fuel + 1) (print (.bool b) ++ r) = some (.bool b, r) := by
  cases b with
  | true =>
      have h := expect_append (ofChars ['r', 'u', 'e']) r
      rw [print]
      refine (readValue_cons fuel (by decide) _).trans ?_
      rw [if_neg (by decide), if_neg (by decide), if_neg (by decide), if_neg (by decide),
        if_pos rfl]
      simpa [ofChars] using h
  | false =>
      have h := expect_append (ofChars ['a', 'l', 's', 'e']) r
      rw [print]
      refine (readValue_cons fuel (by decide) _).trans ?_
      rw [if_neg (by decide), if_neg (by decide), if_neg (by decide), if_neg (by decide),
        if_neg (by decide), if_pos rfl]
      simpa [ofChars] using h

theorem readValue_string (fuel : Nat) (s : Chunks) (r : Bytes) :
    readValue (fuel + 1) (print (.str s) ++ r) = some (.str s, r) := by
  rw [print, printString, List.cons_append, readValue_cons fuel (by decide), if_pos rfl,
    readChunks_printChunks]
  rfl

/-- No byte that starts a number starts anything else. -/
theorem readValue_numberHead (fuel : Nat) {b : UInt8}
    (hb : b = ascii '-' ∨ ∃ d : Fin 10, b = digitByte d) (s : Bytes) :
    readValue (fuel + 1) (b :: s) = (readNumber (b :: s)).map fun p => (.num p.1, p.2) := by
  have hdigit : ∀ d : Fin 10, isSpace (digitByte d) = false ∧ digitByte d ≠ ascii '"' ∧
      digitByte d ≠ ascii '[' ∧ digitByte d ≠ ascii '\x7b' ∧ digitByte d ≠ ascii 'n' ∧
      digitByte d ≠ ascii 't' ∧ digitByte d ≠ ascii 'f' := by decide
  have hall : isSpace b = false ∧ b ≠ ascii '"' ∧ b ≠ ascii '[' ∧ b ≠ ascii '\x7b' ∧
      b ≠ ascii 'n' ∧ b ≠ ascii 't' ∧ b ≠ ascii 'f' := by
    rcases hb with rfl | ⟨d, rfl⟩
    · decide
    · exact hdigit d
  obtain ⟨hspace, h₁, h₂, h₃, h₄, h₅, h₆⟩ := hall
  rw [readValue_cons fuel hspace, if_neg h₁, if_neg h₂, if_neg h₃, if_neg h₄, if_neg h₅,
    if_neg h₆]

theorem readValue_number (fuel : Nat) (n : Number) {r : Bytes} (h : Ends r) :
    readValue (fuel + 1) (print (.num n) ++ r) = some (.num n, r) := by
  have hread := readNumber_append n h
  rw [print]
  have hhead : ∃ b s, n.print ++ r = b :: s ∧ (b = ascii '-' ∨ ∃ d : Fin 10, b = digitByte d) := by
    cases hneg : n.neg with
    | true => exact ⟨ascii '-', _, by simp [Number.print, hneg]; rfl, Or.inl rfl⟩
    | false =>
        exact ⟨digitByte n.int.first, _, by simp [Number.print, hneg, Digits.print]; rfl,
          Or.inr ⟨_, rfl⟩⟩
  obtain ⟨b, s, hs, hb⟩ := hhead
  rw [hs] at hread ⊢
  rw [readValue_numberHead fuel hb, hread]
  rfl

/-- A printed value starts with a byte that is neither space nor a closing
bracket. -/
theorem print_head (x : Value) : ∃ b s, print x = b :: s ∧ isSpace b = false ∧ b ≠ ascii ']' := by
  cases x with
  | null => exact ⟨_, _, by rw [print]; rfl, by decide, by decide⟩
  | bool b => cases b <;> exact ⟨_, _, by rw [print]; rfl, by decide, by decide⟩
  | num n =>
      have hdigit : ∀ d : Fin 10, isSpace (digitByte d) = false ∧ digitByte d ≠ ascii ']' := by
        decide
      cases hneg : n.neg with
      | true => exact ⟨ascii '-', _, by rw [print]; simp [Number.print, hneg]; rfl, by decide,
          by decide⟩
      | false =>
          exact ⟨digitByte n.int.first, _,
            by rw [print]; simp [Number.print, hneg, Digits.print]; rfl,
            (hdigit _).1, (hdigit _).2⟩
  | str s => exact ⟨_, _, by rw [print, printString], by decide, by decide⟩
  | arr xs => cases xs <;> exact ⟨_, _, by rw [print], by decide, by decide⟩
  | obj ms =>
      cases ms with
      | nil => exact ⟨_, _, by rw [print], by decide, by decide⟩
      | cons m ms => exact ⟨_, _, by rw [print], by decide, by decide⟩

theorem readElements_succ (fuel : Nat) {x : Value} {s s' : Bytes}
    (h : readValue fuel s = some (x, s')) :
    readElements (fuel + 1) s =
      match skipSpace s' with
      | [] => none
      | c :: r =>
          if c = ascii ',' then (readElements fuel r).map fun p => (x :: p.1, p.2)
          else if c = ascii ']' then some ([x], r)
          else none := by
  rw [readElements.eq_def]
  simp only [h]

theorem readMembers_succ (fuel : Nat) {k : Chunks} {x : Value} {s s' : Bytes}
    (h : readValue fuel s = some (x, s')) :
    readMembers (fuel + 1) (printString k ++ ascii ':' :: s) =
      match skipSpace s' with
      | [] => none
      | c :: r =>
          if c = ascii ',' then (readMembers fuel r).map fun p => ((k, x) :: p.1, p.2)
          else if c = ascii '\x7d' then some ([(k, x)], r)
          else none := by
  have hquote : isSpace (ascii '"') = false := by decide
  have hcolon : isSpace (ascii ':') = false := by decide
  rw [readMembers.eq_def, printString, List.cons_append]
  simp only [skipSpace_cons hquote, if_true, readChunks_printChunks, skipSpace_cons hcolon, h]

-- One case per constructor; a list is read with the comma before its first
-- element taken off, so that the lists and the values recurse on subterms.
mutual

theorem readValue_print : ∀ (x : Value) (fuel : Nat) (r : Bytes),
    need x ≤ fuel → Ends r → readValue fuel (print x ++ r) = some (x, r)
  | x, 0, _, hfuel, _ => absurd (one_le_need x) (by omega)
  | .null, fuel + 1, r, _, _ => readValue_null fuel r
  | .bool b, fuel + 1, r, _, _ => readValue_bool fuel b r
  | .num n, fuel + 1, _, _, hr => readValue_number fuel n hr
  | .str s, fuel + 1, r, _, _ => readValue_string fuel s r
  | .arr [], fuel + 1, r, _, _ => by
      rw [print, List.cons_append, readValue_cons fuel (by decide), if_neg (by decide),
        if_pos rfl, List.singleton_append, skipSpace_cons (by decide)]
      simp
  | .arr (x :: xs), fuel + 1, r, hfuel, _ => by
      have hfuel' : needElements (x :: xs) ≤ fuel := by simpa [need] using hfuel
      have hread := readElements_print (x :: xs) fuel r hfuel' (by simp)
      obtain ⟨b, s, hs, hspace, hne⟩ := print_head x
      simp only [printElements, List.tail_cons, hs, List.cons_append] at hread
      rw [print, List.cons_append, readValue_cons fuel (by decide), if_neg (by decide),
        if_pos rfl]
      simp only [hs, List.cons_append, skipSpace_cons hspace, if_neg hne, hread, Option.map_some]
  | .obj [], fuel + 1, r, _, _ => by
      rw [print, List.cons_append, readValue_cons fuel (by decide), if_neg (by decide),
        if_neg (by decide), if_pos rfl, List.singleton_append, skipSpace_cons (by decide)]
      simp
  | .obj ((k, x) :: ms), fuel + 1, r, hfuel, _ => by
      have hfuel' : needMembers ((k, x) :: ms) ≤ fuel := by simpa [need] using hfuel
      have hread := readMembers_print ((k, x) :: ms) fuel r hfuel' (by simp)
      have hne : ¬ ascii '"' = ascii '\x7d' := by decide
      simp only [printMembers, printString, List.tail_cons, List.cons_append,
        List.append_assoc] at hread
      rw [print, List.cons_append, readValue_cons fuel (by decide), if_neg (by decide),
        if_neg (by decide), if_pos rfl]
      simp only [printString, List.cons_append, List.append_assoc,
        skipSpace_cons (show isSpace (ascii '"') = false by decide), if_neg hne, hread,
        Option.map_some]

theorem readElements_print : ∀ (xs : List Value) (fuel : Nat) (r : Bytes),
    needElements xs ≤ fuel → xs ≠ [] →
    readElements fuel ((printElements xs).tail ++ r) = some (xs, r)
  | [], _, _, _, hne => absurd rfl hne
  | x :: xs, 0, _, hfuel, _ => absurd hfuel (by simp [needElements])
  | x :: xs, fuel + 1, r, hfuel, _ => by
      simp only [needElements, Nat.add_le_add_iff_right, Nat.max_le] at hfuel
      have hvalue := readValue_print x fuel (printElements xs ++ r) hfuel.1
        (ends_printElements xs r)
      rw [printElements, List.tail_cons, List.append_assoc, readElements_succ fuel hvalue]
      cases xs with
      | nil =>
          simp only [printElements, List.singleton_append,
            skipSpace_cons (show isSpace (ascii ']') = false by decide)]
          rfl
      | cons y ys =>
          have hrest := readElements_print (y :: ys) fuel r hfuel.2 (by simp)
          simp only [printElements, List.tail_cons] at hrest
          simp only [printElements, List.cons_append,
            skipSpace_cons (show isSpace (ascii ',') = false by decide), if_true, hrest,
            Option.map_some]

theorem readMembers_print : ∀ (ms : List (Chunks × Value)) (fuel : Nat) (r : Bytes),
    needMembers ms ≤ fuel → ms ≠ [] →
    readMembers fuel ((printMembers ms).tail ++ r) = some (ms, r)
  | [], _, _, _, hne => absurd rfl hne
  | (k, x) :: ms, 0, _, hfuel, _ => absurd hfuel (by simp [needMembers])
  | (k, x) :: ms, fuel + 1, r, hfuel, _ => by
      simp only [needMembers, Nat.add_le_add_iff_right, Nat.max_le] at hfuel
      have hvalue := readValue_print x fuel (printMembers ms ++ r) hfuel.1
        (ends_printMembers ms r)
      rw [printMembers, List.tail_cons, List.append_assoc, List.cons_append, List.append_assoc,
        readMembers_succ fuel hvalue]
      cases ms with
      | nil =>
          simp only [printMembers, List.singleton_append,
            skipSpace_cons (show isSpace (ascii '\x7d') = false by decide)]
          rfl
      | cons m ms =>
          have hrest := readMembers_print (m :: ms) fuel r hfuel.2 (by simp)
          simp only [printMembers, List.tail_cons] at hrest
          simp only [printMembers, List.cons_append,
            skipSpace_cons (show isSpace (ascii ',') = false by decide), if_true, hrest,
            Option.map_some]

end

-- The fuel `parse` hands out covers every printed text.
mutual

theorem need_le_print : ∀ x : Value, need x ≤ 2 * (print x).length
  | .null => by simp [need, print, ofChars]
  | .bool true => by simp [need, print, ofChars]
  | .bool false => by simp [need, print, ofChars]
  | .num n => by
      simp only [need, print, Number.print, List.length_append, Digits.print, List.length_cons]
      omega
  | .str s => by
      simp only [need, print, printString, List.length_cons]
      omega
  | .arr [] => by simp [need, needElements, print]
  | .arr (x :: xs) => by
      have h := needElements_le_print (x :: xs)
      simp only [need, print, printElements, List.length_cons, List.length_append] at h ⊢
      omega
  | .obj [] => by simp [need, needMembers, print]
  | .obj ((k, x) :: ms) => by
      have h := needMembers_le_print ((k, x) :: ms)
      simp only [need, print, printMembers, List.length_cons, List.length_append] at h ⊢
      omega

theorem needElements_le_print : ∀ xs : List Value,
    needElements xs + 1 ≤ 2 * (printElements xs).length
  | [] => by simp [needElements, printElements]
  | x :: xs => by
      have hx := need_le_print x
      have hxs := needElements_le_print xs
      simp only [needElements, printElements, List.length_cons, List.length_append]
      omega

theorem needMembers_le_print : ∀ ms : List (Chunks × Value),
    needMembers ms + 1 ≤ 2 * (printMembers ms).length
  | [] => by simp [needMembers, printMembers]
  | (k, x) :: ms => by
      have hx := need_le_print x
      have hms := needMembers_le_print ms
      simp only [needMembers, printMembers, List.length_cons, List.length_append]
      omega

end

/-- Every printed value reads back as itself. -/
@[simp] theorem parse_print (x : Value) : parse (print x) = some x := by
  have h := readValue_print x (2 * (print x).length + 1) []
    (Nat.le_succ_of_le (need_le_print x)) ends_nil
  rw [List.append_nil] at h
  simp [parse, h, skipSpace]

end Drover.Json
