import Mathlib.Data.List.Forall2
import Drover.Cron.Next

set_option autoImplicit false

/-!
# The grammar of cron specs

What the five-field parser accepts, and what the schedule it returns means.  A field is a
comma-separated list of items; an item is a range, with a step or without, and denotes the values
from the start of its range on, in steps, up to the end.  The parser cuts a range at its first
minus sign, so a range cannot begin with one, also not as the sign of a zero.

The grammar is stated on its own and compared with the parser at each level: ranges, items,
fields, specs.
-/

namespace Drover.Cron

open Drover.Foundation
open Drover.Foundation.Bytes
open Drover.Go (Location Time)

/-! ## The grammar -/

/-- A range: `*`, `N` or `N-M`, within the bounds of its field.  `N` has no minus sign. -/
inductive RangeForm (b : Bounds) : Bytes → Int64 → Int64 → Prop where
  | star : RangeForm b [ascii '*'] b.minVal b.maxVal
  | value {tok : Bytes} {n : Int64} (hn : Go.atoi tok = some n) (hdash : ascii '-' ∉ tok)
      (hlow : b.minVal ≤ n) (hhigh : n ≤ b.maxVal) : RangeForm b tok n n
  | range {low high : Bytes} {n m : Int64} (hn : Go.atoi low = some n) (hdash : ascii '-' ∉ low)
      (hm : Go.atoi high = some m) (hlow : b.minVal ≤ n) (hle : n ≤ m) (hhigh : m ≤ b.maxVal) :
      RangeForm b (low ++ ascii '-' :: high) n m

/-- The values from `start` on in steps of `step`, up to `stop`. -/
structure Span where
  start : Int
  stop : Int
  step : Int
  deriving DecidableEq, Repr

/-- The value is one of them. -/
def Span.Denotes (x : Span) (v : Int) : Prop := ∃ k : Nat, v = x.start + k * x.step ∧ v ≤ x.stop

/-- The first value, and those from the next one on. -/
theorem Span.denotes_iff {start stop step : Int} (hle : start ≤ stop) {v : Int} :
    Span.Denotes ⟨start, stop, step⟩ v ↔
      v = start ∨ Span.Denotes ⟨start + step, stop, step⟩ v := by
  have hnext : ∀ k : Nat, start + ((k + 1 : Nat) : Int) * step = start + step + k * step := by
    intro k
    rw [Int.natCast_succ, Int.add_mul, Int.one_mul, Int.add_comm ((k : Int) * step), Int.add_assoc]
  constructor
  · rintro ⟨k, rfl, hv⟩
    cases k with
    | zero => exact Or.inl (by simp)
    | succ k => exact Or.inr ⟨k, hnext k, hv⟩
  · rintro (rfl | ⟨k, rfl, hv⟩)
    · exact ⟨0, by simp, hle⟩
    · exact ⟨k + 1, (hnext k).symm, hv⟩

/-- An item: `R` or `R/S` with a positive `S`. -/
inductive ItemForm (b : Bounds) : Bytes → Span → Prop where
  | plain {tok : Bytes} {n m : Int64} (hrange : RangeForm b tok n m) :
      ItemForm b tok ⟨n.toInt, m.toInt, 1⟩
  | stepped {tok stepTok : Bytes} {n m step : Int64} (hrange : RangeForm b tok n m)
      (hstep : Go.atoi stepTok = some step) (hpos : 1 ≤ step.toInt) :
      ItemForm b (tok ++ ascii '/' :: stepTok) ⟨n.toInt, m.toInt, step.toInt⟩

/-- A field: items separated by commas, at least one. -/
def FieldForm (b : Bounds) (tok : Bytes) (spans : List Span) : Prop :=
  ∃ parts, parts ≠ [] ∧ tok = Go.join (ascii ',') parts ∧ List.Forall₂ (ItemForm b) parts spans

/-- What a value of an item is read as: in the last field 7 is another name of Sunday. -/
def readAs (wrap7 : Bool) (v : Int) : Int := if wrap7 = true ∧ v = 7 then 0 else v

/-- A field with these items admits a value. -/
def Admits (wrap7 : Bool) (spans : List Span) (w : Int) : Prop :=
  ∃ x ∈ spans, ∃ v, x.Denotes v ∧ readAs wrap7 v = w

/-! ## Ranges and items -/

section Items

variable {b : Bounds}

/-- No byte of a range is a comma or a slash. -/
theorem notMem_of_rangeForm {tok : Bytes} {n m : Int64} (h : RangeForm b tok n m) {c : UInt8}
    (hc : c = ascii ',' ∨ c = ascii '/') : c ∉ tok := by
  have hread : ∀ {s : Bytes} {n : Int64}, Go.atoi s = some n → c ∉ s := by
    intro s n hs hmem
    rcases hc with rfl | rfl
    · exact absurd (Go.mem_of_atoi hs hmem) (by decide)
    · exact absurd (Go.mem_of_atoi hs hmem) (by decide)
  have hother : c ∉ [ascii '*'] ∧ c ≠ ascii '-' := by
    rcases hc with rfl | rfl
    · decide
    · decide
  cases h with
  | star => exact hother.1
  | value hn _ _ _ => exact hread hn
  | range hn _ hm _ _ _ =>
      rw [List.mem_append, List.mem_cons, not_or, not_or]
      exact ⟨hread hn, hother.2, hread hm⟩

theorem atoi_star : Go.atoi [ascii '*'] = none := by decide

theorem atoi_nil : Go.atoi [] = none := rfl

theorem ne_nil_of_rangeForm {tok : Bytes} {n m : Int64} (h : RangeForm b tok n m) : tok ≠ [] := by
  rintro rfl
  generalize htok : ([] : Bytes) = tok at h
  cases h with
  | star => cases htok
  | value hn _ _ _ =>
      rw [← htok, atoi_nil] at hn
      cases hn
  | range _ _ _ _ _ _ => simp at htok

theorem inRange_iff {minVal maxVal n m : Int64} :
    ¬(n < minVal ∨ m > maxVal ∨ n > m) ↔ minVal ≤ n ∧ n ≤ m ∧ m ≤ maxVal := by
  simp only [not_or, gt_iff_lt, Int64.not_lt]
  exact ⟨fun h => ⟨h.1, h.2.2, h.2.1⟩, fun h => ⟨h.1, h.2.2, h.2.1⟩⟩

/-- What `parseRange` accepts is a range. -/
theorem rangeForm_of_parseRange {tok : Bytes} {n m : Int64}
    (h : parseRange tok b.minVal b.maxVal = .ok (n, m)) : RangeForm b tok n m := by
  by_cases hstar : tok = [ascii '*']
  · rw [parseRange, if_pos hstar] at h
    cases h
    rw [hstar]
    exact .star
  · rw [parseRange, if_neg hstar] at h
    rcases Go.cut_cases (ascii '-') tok with hdash | ⟨low, high, hdash, rfl⟩
    · rw [Go.cut_of_notMem hdash] at h
      cases hn : Go.atoi tok with
      | none => simp [hn, fail] at h
      | some start =>
          simp only [hn, Bool.false_eq_true, if_false] at h
          split at h
          · cases h
          · rename_i hrange
            cases h
            obtain ⟨hlow, -, hhigh⟩ := inRange_iff.mp hrange
            exact .value hn hdash hlow hhigh
    · rw [Go.cut_append hdash] at h
      cases hn : Go.atoi low with
      | none => simp [hn, fail] at h
      | some start =>
          cases hm : Go.atoi high with
          | none => simp [hn, hm, fail] at h
          | some stop =>
              simp only [hn, hm, if_true] at h
              split at h
              · cases h
              · rename_i hrange
                cases h
                obtain ⟨hlow, hle, hhigh⟩ := inRange_iff.mp hrange
                exact .range hn hdash hm hlow hle hhigh

/-- Every range is accepted. -/
theorem parseRange_of_rangeForm {tok : Bytes} {n m : Int64} (h : RangeForm b tok n m) :
    parseRange tok b.minVal b.maxVal = .ok (n, m) := by
  cases h with
  | star => rw [parseRange, if_pos rfl]
  | value hn hdash hlow hhigh =>
      have hstar : tok ≠ [ascii '*'] := by
        rintro rfl
        rw [atoi_star] at hn
        cases hn
      have hrange := inRange_iff.mpr ⟨hlow, Int64.le_refl n, hhigh⟩
      rw [parseRange, if_neg hstar, Go.cut_of_notMem hdash]
      simp only [hn, Bool.false_eq_true, if_false]
      rw [if_neg hrange]
  | @range low high n m hn hdash hm hlow hle hhigh =>
      have hstar : low ++ ascii '-' :: high ≠ [ascii '*'] := by
        intro heq
        have hmem : ascii '-' ∈ [ascii '*'] := heq ▸ List.mem_append_right low List.mem_cons_self
        exact absurd hmem (by decide)
      have hrange := inRange_iff.mpr ⟨hlow, hle, hhigh⟩
      rw [parseRange, if_neg hstar, Go.cut_append hdash]
      simp only [hn, hm, if_true]
      rw [if_neg hrange]

/-- The items of the grammar are those of which the parser reads the step and the range, and
they denote what it reads. -/
theorem itemForm_iff {part : Bytes} {x : Span} :
    ItemForm b part x ↔ ∃ step range, itemStep part = .ok step ∧
      parseRange (rangeTok part) b.minVal b.maxVal = .ok range ∧
      x = ⟨range.1.toInt, range.2.toInt, step.1.toInt⟩ := by
  unfold itemStep rangeTok
  constructor
  · intro h
    cases h with
    | @plain _ n m hrange =>
        rw [Go.cut_of_notMem (notMem_of_rangeForm hrange (.inr rfl))]
        exact ⟨⟨1, by decide⟩, (n, m), rfl, parseRange_of_rangeForm hrange, rfl⟩
    | @stepped tok stepTok n m step hrange hstep hpos =>
        rw [Go.cut_append (notMem_of_rangeForm hrange (.inr rfl))]
        refine ⟨⟨step, hpos⟩, (n, m), ?_, parseRange_of_rangeForm hrange, rfl⟩
        rw [parseStep, if_pos rfl, hstep]
        exact dif_pos hpos
  · rintro ⟨step, range, hstep, hrange, rfl⟩
    rcases Go.cut_cases (ascii '/') part with hslash | ⟨tok, stepTok, hslash, rfl⟩
    · rw [Go.cut_of_notMem hslash] at hstep hrange
      cases hstep
      exact .plain (rangeForm_of_parseRange hrange)
    · rw [Go.cut_append hslash] at hstep hrange
      cases hatoi : Go.atoi stepTok with
      | none => simp [parseStep, hatoi, fail] at hstep
      | some n =>
          rw [parseStep, if_pos rfl, hatoi] at hstep
          simp only at hstep
          split at hstep
          · rename_i hpos
            cases hstep
            exact .stepped (rangeForm_of_parseRange hrange) hatoi hpos
          · cases hstep

theorem ne_nil_of_itemForm {part : Bytes} {x : Span} (h : ItemForm b part x) : part ≠ [] := by
  cases h with
  | plain hrange => exact ne_nil_of_rangeForm hrange
  | stepped _ _ _ => simp

theorem itemOk_iff {part : Bytes} : ItemOk b part ↔ ∃ x, ItemForm b part x := by
  constructor
  · rintro ⟨-, ⟨step, hstep⟩, range, hrange⟩
    exact ⟨_, itemForm_iff.mpr ⟨step, range, hstep, hrange, rfl⟩⟩
  · rintro ⟨x, hform⟩
    obtain ⟨step, range, hstep, hrange, -⟩ := itemForm_iff.mp hform
    exact ⟨ne_nil_of_itemForm hform, ⟨step, hstep⟩, range, hrange⟩

theorem comma_notMem_of_itemForm {part : Bytes} {x : Span} (h : ItemForm b part x) :
    ascii ',' ∉ part := by
  cases h with
  | plain hrange => exact notMem_of_rangeForm hrange (.inl rfl)
  | stepped hrange hstep _ =>
      rw [List.mem_append, List.mem_cons, not_or, not_or]
      refine ⟨notMem_of_rangeForm hrange (.inl rfl), by decide, fun hmem => ?_⟩
      exact absurd (Go.mem_of_atoi hstep hmem) (by decide)

end Items

/-! ## The bits a loop sets -/

section Bits

theorem and_bit_ne_zero (bits : BitVec 64) {n : Nat} (h : n < 64) :
    bits &&& 1#64 <<< n ≠ 0 ↔ bits.getLsbD n = true := by
  have hpow : BitVec.twoPow 64 n ≠ 0#64 := by
    intro hzero
    have hbit := congrArg (BitVec.getLsbD · n) hzero
    simp [h] at hbit
  rw [← BitVec.twoPow_eq, BitVec.and_twoPow]
  split
  · rename_i hbit
    exact iff_of_true hpow hbit
  · rename_i hbit
    exact iff_of_false (fun hne => hne rfl) hbit

theorem has_iff {f : Field} {v : Int} :
    f.has v = true ↔ 0 ≤ v ∧ v ≤ 63 ∧ f.bits.getLsbD v.toNat = true := by
  unfold Field.has
  split
  · rename_i hout
    constructor
    · intro h
      cases h
    · rintro ⟨hlow, hhigh, -⟩
      omega
  · rename_i hin
    rw [bne_iff_ne, and_bit_ne_zero f.bits (by omega)]
    exact ⟨fun h => ⟨by omega, by omega, h⟩, fun h => h.2.2⟩

theorem has_empty (v : Int) : Field.has ⟨0⟩ v = false := by
  rw [← Bool.not_eq_true, has_iff]
  simp

/-- Setting a bit admits one value more. -/
theorem has_or_bit {bits : BitVec 64} {n : Int} (hlow : 0 ≤ n) (hhigh : n ≤ 63) {v : Int} :
    Field.has ⟨bits ||| 1#64 <<< n.toNat⟩ v = true ↔ Field.has ⟨bits⟩ v = true ∨ v = n := by
  have hset : (1#64 <<< n.toNat).getLsbD v.toNat = true ↔ n.toNat = v.toNat := by
    rw [← BitVec.twoPow_eq, BitVec.getLsbD_twoPow, Bool.and_eq_true, decide_eq_true_eq,
      decide_eq_true_eq]
    omega
  rw [has_iff, has_iff, BitVec.getLsbD_or, Bool.or_eq_true, hset]
  constructor
  · rintro ⟨hv, hv', hbit | heq⟩
    · exact Or.inl ⟨hv, hv', hbit⟩
    · exact Or.inr (by omega)
  · rintro (⟨hv, hv', hbit⟩ | rfl)
    · exact ⟨hv, hv', Or.inl hbit⟩
    · exact ⟨hlow, hhigh, Or.inr rfl⟩

theorem toInt_bitOf (wrap7 : Bool) (v : Int64) : (bitOf wrap7 v).toInt = readAs wrap7 v.toInt := by
  have hseven : v = 7 ↔ v.toInt = 7 := by
    rw [← Int64.toInt_inj]
    rfl
  unfold bitOf readAs
  cases wrap7 with
  | false => simp
  | true =>
      simp only [Bool.true_and, beq_iff_eq, hseven, true_and]
      split <;> rfl

/-- A loop that ends has set the bits of the values from `v` on, in steps, up to `stop`. -/
theorem has_addLoop {wrap7 : Bool} {stop step v : Int64} {bits bits' : BitVec 64}
    (hstep : 0 < step.toInt) (hv : 0 ≤ v.toInt) (hstop : stop.toInt ≤ 63)
    (h : addLoop wrap7 stop step hstep v bits = .ok bits') (w : Int) :
    Field.has ⟨bits'⟩ w = true ↔ Field.has ⟨bits⟩ w = true ∨
      ∃ x, Span.Denotes ⟨v.toInt, stop.toInt, step.toInt⟩ x ∧ readAs wrap7 x = w := by
  induction hn : stepsLeft stop v using Nat.strongRecOn generalizing v bits with
  | _ n ih =>
      by_cases hle : v.toInt ≤ stop.toInt
      · -- a step past the greatest `int` would have panicked
        have hfits : v.toInt + step.toInt ≤ Go.maxInt := by
          by_contra hpast
          rw [addLoop_panics hstep hv hle (by omega)] at h
          cases h
        have hsum := Go.toInt_add_of_le hv (by omega) hfits
        have hbit : ¬bitOf wrap7 v < 0 := by
          rw [bitOf_neg_iff]
          omega
        have hread : 0 ≤ readAs wrap7 v.toInt ∧ readAs wrap7 v.toInt ≤ 63 := by
          unfold readAs
          split <;> omega
        rw [addLoop, dif_pos (Int64.le_iff_toInt_le.mpr hle), dif_neg hbit, toInt_bitOf] at h
        have hless : stepsLeft stop (v + step) < n := by
          rw [← hn]
          exact stepsLeft_lt hstep (Int64.le_iff_toInt_le.mpr hle) (by omega)
        rw [ih _ hless (by omega) h rfl, has_or_bit hread.1 hread.2, hsum, or_assoc]
        refine or_congr_right ?_
        simp only [Span.denotes_iff hle]
        constructor
        · rintro (rfl | ⟨x, hx, rfl⟩)
          · exact ⟨v.toInt, Or.inl rfl, rfl⟩
          · exact ⟨x, Or.inr hx, rfl⟩
        · rintro ⟨x, rfl | hx, rfl⟩
          · exact Or.inl rfl
          · exact Or.inr ⟨x, hx, rfl⟩
      · have hpast : ¬v ≤ stop := by
          rw [Int64.le_iff_toInt_le]
          exact hle
        rw [addLoop, dif_neg hpast] at h
        cases h
        refine (or_iff_left ?_).symm
        rintro ⟨x, ⟨k, rfl, hx⟩, -⟩
        have hk : 0 ≤ (k : Int) * step.toInt := Int.mul_nonneg (Int.natCast_nonneg k) (by omega)
        dsimp only at hx
        omega

end Bits

/-! ## Fields -/

section Fields

variable {b : Bounds}

theorem has_addItem {part : Bytes} {x : Span} (hform : ItemForm b part x) {f f' : Field}
    (h : addItem b.minVal b.maxVal b.wrap7 f part = .ok f') (w : Int) :
    f'.has w = true ↔ f.has w = true ∨ ∃ v, x.Denotes v ∧ readAs b.wrap7 v = w := by
  obtain ⟨step, range, hstep, hrange, rfl⟩ := itemForm_iff.mp hform
  obtain ⟨hlow, -, hsmall⟩ := parseRange_bounds hrange
  rw [addItem_eq b f (ne_nil_of_itemForm hform), hstep] at h
  simp only [bind, Except.bind, hrange] at h
  cases hloop : addLoop b.wrap7 range.2 step.1 step.2 range.1 f.bits with
  | error stop =>
      rw [hloop] at h
      cases h
  | ok bits =>
      rw [hloop] at h
      cases h
      exact has_addLoop step.2 hlow hsmall hloop w

theorem has_addItems {parts : List Bytes} {spans : List Span}
    (hforms : List.Forall₂ (ItemForm b) parts spans) {f f' : Field}
    (h : parts.foldlM (addItem b.minVal b.maxVal b.wrap7) f = .ok f') (w : Int) :
    f'.has w = true ↔ f.has w = true ∨ Admits b.wrap7 spans w := by
  induction hforms generalizing f with
  | nil =>
      cases h
      simp [Admits]
  | @cons part x parts spans hform _ ih =>
      rw [List.foldlM_cons] at h
      cases hitem : addItem b.minVal b.maxVal b.wrap7 f part with
      | error stop =>
          rw [hitem] at h
          cases h
      | ok f'' =>
          rw [hitem] at h
          rw [ih h, has_addItem hform hitem, or_assoc]
          simp only [Admits, List.exists_mem_cons_iff]

theorem exists_forall₂_iff {α β : Type} {R : α → β → Prop} {xs : List α} :
    (∃ ys, List.Forall₂ R xs ys) ↔ ∀ x ∈ xs, ∃ y, R x y := by
  induction xs with
  | nil => exact iff_of_true ⟨[], .nil⟩ (by simp)
  | cons x xs ih =>
      rw [List.forall_mem_cons, ← ih]
      constructor
      · rintro ⟨ys, hys⟩
        cases hys with
        | cons hx hxs => exact ⟨⟨_, hx⟩, _, hxs⟩
      · rintro ⟨⟨y, hy⟩, ys, hys⟩
        exact ⟨y :: ys, .cons hy hys⟩

/-- The items of a field in the grammar are those the parser takes it apart into. -/
theorem items_of_fieldForm {tok : Bytes} {spans : List Span} (h : FieldForm b tok spans) :
    List.Forall₂ (ItemForm b) (items tok) spans := by
  obtain ⟨parts, hne, rfl, hforms⟩ := h
  have hcomma : ∀ part ∈ parts, ascii ',' ∉ part := by
    intro part hpart
    obtain ⟨x, hform⟩ := exists_forall₂_iff.mp ⟨spans, hforms⟩ part hpart
    exact comma_notMem_of_itemForm hform
  rw [items, Go.split_join hne hcomma]
  exact hforms

/-- A field is one of the grammar exactly when all its items are in order. -/
theorem exists_fieldForm_iff {tok : Bytes} :
    (∃ spans, FieldForm b tok spans) ↔ ∀ part ∈ items tok, ItemOk b part := by
  simp only [itemOk_iff]
  rw [← exists_forall₂_iff]
  constructor
  · rintro ⟨spans, hform⟩
    exact ⟨spans, items_of_fieldForm hform⟩
  · rintro ⟨spans, hforms⟩
    exact ⟨spans, items tok, Go.split_ne_nil (ascii ',') tok, (Go.join_split (ascii ',') tok).symm,
      hforms⟩

/-- The set a field is read as is the union of what its items denote. -/
theorem has_parseField {tok : Bytes} {spans : List Span} (hform : FieldForm b tok spans) {f : Field}
    (h : parseField tok b.minVal b.maxVal b.wrap7 = .ok f) (w : Int) :
    f.has w = true ↔ Admits b.wrap7 spans w := by
  have hforms := items_of_fieldForm hform
  unfold parseField at h
  split at h
  · cases h
  · cases hitems : (items tok).foldlM (addItem b.minVal b.maxVal b.wrap7) ⟨0⟩ with
    | error stop =>
        rw [items] at hitems
        simp only [bind, Except.bind, hitems] at h
        cases h
    | ok f' =>
        have hhas := has_addItems hforms hitems w
        rw [items] at hitems
        simp only [bind, Except.bind, pure, Except.pure, hitems] at h
        split at h
        · cases h
        · cases h
          rw [hhas, has_empty]
          simp

/-- A field that is accepted is one of the grammar. -/
theorem fieldForm_of_parseField {tok : Bytes} {f : Field}
    (h : parseField tok b.minVal b.maxVal b.wrap7 = .ok f) : ∃ spans, FieldForm b tok spans :=
  exists_fieldForm_iff.mpr ((parseField_reads b tok).ok_of_accepted h)

theorem bounds_of_rangeForm {tok : Bytes} {n m : Int64} (h : RangeForm b tok n m) :
    b.minVal.toInt ≤ n.toInt ∧ n.toInt ≤ m.toInt ∧ m.toInt ≤ b.maxVal.toInt := by
  cases h with
  | star => exact ⟨Int.le_refl _, b.le, Int.le_refl _⟩
  | value _ _ hlow hhigh =>
      exact ⟨Int64.le_iff_toInt_le.mp hlow, Int.le_refl _, Int64.le_iff_toInt_le.mp hhigh⟩
  | range _ _ _ hlow hle hhigh =>
      exact ⟨Int64.le_iff_toInt_le.mp hlow, Int64.le_iff_toInt_le.mp hle,
        Int64.le_iff_toInt_le.mp hhigh⟩

theorem bounds_of_itemForm {part : Bytes} {x : Span} (h : ItemForm b part x) :
    b.minVal.toInt ≤ x.start ∧ x.start ≤ x.stop ∧ x.stop ≤ b.maxVal.toInt ∧ 0 < x.step := by
  cases h with
  | plain hrange =>
      obtain ⟨hlow, hle, hhigh⟩ := bounds_of_rangeForm hrange
      exact ⟨hlow, hle, hhigh, Int.one_pos⟩
  | stepped hrange _ hpos =>
      obtain ⟨hlow, hle, hhigh⟩ := bounds_of_rangeForm hrange
      exact ⟨hlow, hle, hhigh, hpos⟩

/-- A field that is accepted admits a value. -/
theorem exists_has {tok : Bytes} {f : Field}
    (h : parseField tok b.minVal b.maxVal b.wrap7 = .ok f) : ∃ w, f.has w = true := by
  obtain ⟨spans, hform⟩ := fieldForm_of_parseField h
  simp only [has_parseField hform h]
  obtain ⟨parts, hne, -, hforms⟩ := hform
  cases hforms with
  | nil => exact absurd rfl hne
  | @cons part x parts spans hitem _ =>
      obtain ⟨-, hle, -⟩ := bounds_of_itemForm hitem
      exact ⟨_, x, List.mem_cons_self, x.start, ⟨0, by simp, hle⟩, rfl⟩

/-- It admits only values within its bounds. -/
theorem bounds_of_has {tok : Bytes} {f : Field}
    (h : parseField tok b.minVal b.maxVal b.wrap7 = .ok f) {w : Int} (hw : f.has w = true) :
    ∃ v, b.minVal.toInt ≤ v ∧ v ≤ b.maxVal.toInt ∧ readAs b.wrap7 v = w := by
  obtain ⟨spans, hform⟩ := fieldForm_of_parseField h
  obtain ⟨x, hx, v, ⟨k, rfl, hstop⟩, rfl⟩ := (has_parseField hform h w).mp hw
  obtain ⟨parts, -, -, hforms⟩ := hform
  have hflipped : List.Forall₂ (flip (ItemForm b)) spans parts := hforms.flip
  obtain ⟨part, hpart⟩ := exists_forall₂_iff.mp ⟨parts, hflipped⟩ x hx
  obtain ⟨hlow, -, hhigh, hstep⟩ := bounds_of_itemForm hpart
  have hk : 0 ≤ (k : Int) * x.step := Int.mul_nonneg (Int.natCast_nonneg k) (Int.le_of_lt hstep)
  exact ⟨_, by omega, by omega, rfl⟩

theorem fieldForm_star (b : Bounds) :
    FieldForm b [ascii '*'] [⟨b.minVal.toInt, b.maxVal.toInt, 1⟩] :=
  ⟨[[ascii '*']], by simp, rfl, .cons (.plain .star) .nil⟩

/-- `*` admits all of them. -/
theorem has_star {f : Field} (h : parseField [ascii '*'] b.minVal b.maxVal b.wrap7 = .ok f) {v : Int}
    (hlow : b.minVal.toInt ≤ v) (hhigh : v ≤ b.maxVal.toInt) : f.has (readAs b.wrap7 v) = true := by
  rw [has_parseField (fieldForm_star b) h]
  refine ⟨_, List.mem_singleton_self _, v, ⟨(v - b.minVal.toInt).toNat, ?_, hhigh⟩, rfl⟩
  dsimp only
  omega

end Fields

/-! ## Specs -/

/-- The five fields of a spec. -/
structure Spec where
  minute : Bytes
  hour : Bytes
  dom : Bytes
  month : Bytes
  dow : Bytes

/-- What the items of each field denote. -/
structure Reading where
  minute : List Span
  hour : List Span
  dom : List Span
  month : List Span
  dow : List Span

/-- A spec of the grammar: exactly five fields, each of them a field within its bounds. -/
structure SpecForm (spec : Bytes) (tok : Spec) (x : Reading) : Prop where
  fields : Go.fields spec = [tok.minute, tok.hour, tok.dom, tok.month, tok.dow]
  minute : FieldForm minuteBounds tok.minute x.minute
  hour : FieldForm hourBounds tok.hour x.hour
  dom : FieldForm domBounds tok.dom x.dom
  month : FieldForm monthBounds tok.month x.month
  dow : FieldForm dowBounds tok.dow x.dow

/-- What a spec says of a clock: minute, hour and month are in their sets, and the day is in one
of its two sets when neither field is `*`, and in both otherwise. -/
def Reading.Matches (tok : Spec) (x : Reading) (c : Go.Clock) : Prop :=
  Admits false x.minute c.minute ∧ Admits false x.hour c.hour ∧ Admits false x.month c.date.month ∧
    if tok.dom ≠ [ascii '*'] ∧ tok.dow ≠ [ascii '*'] then
      Admits false x.dom c.date.day ∨ Admits true x.dow c.weekday
    else Admits false x.dom c.date.day ∧ Admits true x.dow c.weekday

theorem matchesClock_iff {s : CronSchedule} {c : Go.Clock} :
    s.matchesClock c = true ↔
      s.minute.has c.minute = true ∧ s.hour.has c.hour = true ∧ s.month.has c.date.month = true ∧
        if s.domStar = false ∧ s.dowStar = false then
          s.dom.has c.date.day = true ∨ s.dow.has c.weekday = true
        else s.dom.has c.date.day = true ∧ s.dow.has c.weekday = true := by
  unfold CronSchedule.matchesClock
  cases s.minute.has c.minute <;> cases s.hour.has c.hour <;> cases s.month.has c.date.month <;>
    cases s.domStar <;> cases s.dowStar <;> simp

theorem matches_of_specForm {spec : Bytes} {tok : Spec} {x : Reading} (hform : SpecForm spec tok x)
    {loc : Location} {r : Schedule}
    (h : parseFields tok.minute tok.hour tok.dom tok.month tok.dow loc = .ok r) :
    ∃ s, r = .cron s ∧ ∀ t, s.matches t = true ↔ x.Matches tok (Time.clockIn t loc) := by
  obtain ⟨s, rfl, hminute, hhour, hdom, hmonth, hdow, hdomStar, hdowStar, rfl⟩ := parseFields_ok h
  refine ⟨s, rfl, fun t => ?_⟩
  have hstars : (s.domStar = false ∧ s.dowStar = false) ↔
      (tok.dom ≠ [ascii '*'] ∧ tok.dow ≠ [ascii '*']) := by
    rw [hdomStar, hdowStar, beq_eq_false_iff_ne, beq_eq_false_iff_ne]
  rw [CronSchedule.matches, matchesClock_iff, Reading.Matches]
  rw [has_parseField hform.minute hminute, has_parseField hform.hour hhour,
    has_parseField hform.month hmonth, has_parseField hform.dom hdom, has_parseField hform.dow hdow]
  simp only [hstars]
  rfl

/-- The items of a spec are in order exactly when its five fields are fields of the grammar. -/
theorem specItems_ok_iff {minute hour dom month dow : Bytes} :
    (∀ item ∈ specItems minute hour dom month dow, ItemOk item.1 item.2) ↔
      (∃ x, FieldForm minuteBounds minute x) ∧ (∃ x, FieldForm hourBounds hour x) ∧
        (∃ x, FieldForm domBounds dom x) ∧ (∃ x, FieldForm monthBounds month x) ∧
        ∃ x, FieldForm dowBounds dow x := by
  simp only [specItems, List.forall_mem_append, List.forall_mem_map, exists_fieldForm_iff]

theorem parseIn_of_fields {spec : Bytes} {tok : Spec} (loc : Option Location)
    (hevery : ∀ rest, Go.fields spec ≠ everyWord :: rest)
    (hfields : Go.fields spec = [tok.minute, tok.hour, tok.dom, tok.month, tok.dow]) :
    parseIn spec loc =
      parseFields tok.minute tok.hour tok.dom tok.month tok.dow (loc.getD Location.utc) := by
  have hne : tok.minute ≠ everyWord := by
    intro heq
    rw [heq] at hfields
    exact hevery _ hfields
  rw [parseIn, hfields]
  exact if_neg hne

/-- A spec without `@every` that is accepted has five fields. -/
theorem fields_of_parseIn_ok {spec : Bytes} {loc : Option Location} {r : Schedule}
    (hevery : ∀ rest, Go.fields spec ≠ everyWord :: rest) (h : parseIn spec loc = .ok r) :
    ∃ tok : Spec, Go.fields spec = [tok.minute, tok.hour, tok.dom, tok.month, tok.dow] := by
  unfold parseIn at h
  split at h
  · rename_i first rest hfields
    split at h
    · rename_i heq
      rw [heq] at hfields
      exact absurd hfields (hevery rest)
    · split at h
      · rename_i hour dom month dow
        exact ⟨⟨first, hour, dom, month, dow⟩, hfields⟩
      · cases h
  · cases h

/-- A spec that is accepted is one of the grammar. -/
theorem specForm_of_parseIn_ok {spec : Bytes} {loc : Option Location} {r : Schedule}
    (hevery : ∀ rest, Go.fields spec ≠ everyWord :: rest) (h : parseIn spec loc = .ok r) :
    ∃ tok x, SpecForm spec tok x := by
  obtain ⟨tok, hfields⟩ := fields_of_parseIn_ok hevery h
  rw [parseIn_of_fields loc hevery hfields] at h
  have hitems := (parseFields_reads tok.minute tok.hour tok.dom tok.month tok.dow
    (loc.getD Location.utc)).ok_of_accepted h
  obtain ⟨⟨minute, hminute⟩, ⟨hour, hhour⟩, ⟨dom, hdom⟩, ⟨month, hmonth⟩, dow, hdow⟩ :=
    specItems_ok_iff.mp hitems
  exact ⟨tok, ⟨minute, hour, dom, month, dow⟩, hfields, hminute, hhour, hdom, hmonth, hdow⟩

theorem parseEvery_ne_cron {rest : List Bytes} {s : CronSchedule} :
    parseEvery rest ≠ .ok (.cron s) := by
  intro h
  unfold parseEvery at h
  split at h
  · cases h
  · split at h
    · cases h
    · split at h <;> cases h

/-- A spec that is read as a cron schedule is one of the grammar. -/
theorem parseIn_cron {spec : Bytes} {loc : Option Location} {s : CronSchedule}
    (h : parseIn spec loc = .ok (.cron s)) :
    ∃ tok x, SpecForm spec tok x ∧
      parseFields tok.minute tok.hour tok.dom tok.month tok.dow (loc.getD Location.utc) =
        .ok (.cron s) := by
  have hevery : ∀ rest, Go.fields spec ≠ everyWord :: rest := by
    intro rest hfields
    rw [parseIn, hfields] at h
    simp only [if_true] at h
    exact parseEvery_ne_cron h
  obtain ⟨tok, x, hform⟩ := specForm_of_parseIn_ok hevery h
  rw [parseIn_of_fields loc hevery hform.fields] at h
  exact ⟨tok, x, hform, h⟩

/-- The parser accepts its grammar and means what it says.  Of the specs that do not begin with
`@every` and on which it does not panic, it accepts exactly those with five fields that are
comma-separated lists of items `R` or `R/S`; and the schedule it returns for one matches exactly
the times whose clock the spec says it does. -/
theorem parseIn_grammar (spec : Bytes) (loc : Option Location)
    (hevery : ∀ rest, Go.fields spec ≠ everyWord :: rest)
    (hreturns : parseIn spec loc ≠ .error .panic) :
    ((∃ r, parseIn spec loc = .ok r) ↔ ∃ tok x, SpecForm spec tok x) ∧
      ∀ tok x, SpecForm spec tok x → ∃ s, parseIn spec loc = .ok (.cron s) ∧
        ∀ t, s.matches t = true ↔ x.Matches tok (Time.clockIn t (loc.getD Location.utc)) := by
  have hmeans : ∀ tok x, SpecForm spec tok x → ∃ s, parseIn spec loc = .ok (.cron s) ∧
      ∀ t, s.matches t = true ↔ x.Matches tok (Time.clockIn t (loc.getD Location.utc)) := by
    intro tok x hform
    rw [parseIn_of_fields loc hevery hform.fields] at hreturns ⊢
    have hreads := parseFields_reads tok.minute tok.hour tok.dom tok.month tok.dow
      (loc.getD Location.utc)
    obtain ⟨r, hr⟩ := hreads.accepts (fun hhits => hreturns (hreads.panics hhits))
      (specItems_ok_iff.mpr ⟨⟨_, hform.minute⟩, ⟨_, hform.hour⟩, ⟨_, hform.dom⟩, ⟨_, hform.month⟩,
        _, hform.dow⟩)
    obtain ⟨s, rfl, hmatches⟩ := matches_of_specForm hform hr
    exact ⟨s, hr, hmatches⟩
  refine ⟨⟨?_, ?_⟩, hmeans⟩
  · rintro ⟨r, hr⟩
    exact specForm_of_parseIn_ok hevery hr
  · rintro ⟨tok, x, hform⟩
    obtain ⟨s, hs, -⟩ := hmeans tok x hform
    exact ⟨.cron s, hs⟩

theorem repeatedSpec_specForm : ∃ tok x, SpecForm repeatedSpec tok x := by
  have hreturns : parseIn repeatedSpec (some setBack) ≠ .error .panic := by
    rw [parseIn_repeatedSpec setBack]
    simp
  have hevery : ∀ rest, Go.fields repeatedSpec ≠ everyWord :: rest := by
    intro rest h
    have hhead : (Go.fields repeatedSpec).head? ≠ some everyWord := by decide
    exact hhead (congrArg List.head? h)
  exact (parseIn_grammar repeatedSpec (some setBack) hevery hreturns).1.mp
    ⟨_, parseIn_repeatedSpec setBack⟩

/-- The spec `-0 * * * *`. -/
def negativeZeroSpec : Bytes := ofChars ['-', '0', ' ', '*', ' ', '*', ' ', '*', ' ', '*']

/-- The parser refuses a minus sign also where `Atoi` reads a number within the bounds. -/
theorem negativeZero_refused :
    Go.fields negativeZeroSpec =
        [ofChars ['-', '0'], [ascii '*'], [ascii '*'], [ascii '*'], [ascii '*']] ∧
      Go.atoi (ofChars ['-', '0']) = some 0 ∧
      minuteBounds.minVal ≤ 0 ∧ 0 ≤ minuteBounds.maxVal ∧
      ∃ err, parseIn negativeZeroSpec none = .error (.err err) :=
  ⟨by decide, by decide, by decide, by decide, _, rfl⟩

end Drover.Cron
