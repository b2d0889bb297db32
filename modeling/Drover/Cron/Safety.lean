import Drover.Cron.Parse

set_option autoImplicit false

/-!
# When the cron parser returns

Every way out of the parser is a schedule, an error that wraps `ErrInvalidSpec`, or a
panic, and the parser always ends.  It panics in one place: the stepping loop of
`addPart` shifts by `v`, and `v += step` wraps below zero when the step is close to
the greatest `int`.  The values of a field are small, so this can only happen on the
first step, and only at the first item, in reading order, that has such a step.
-/

namespace Drover.Cron

open Drover.Foundation
open Drover.Foundation.Bytes
open Drover.Go (Location)

/-! ## The first bad item of a list -/

section Hits

variable {α : Type} {ok bad : α → Prop}

/-- A bad item is reached: everything before it is in order. -/
def Hits (ok bad : α → Prop) (xs : List α) : Prop :=
  ∃ before x after, xs = before ++ x :: after ∧ (∀ y ∈ before, ok y) ∧ bad x

theorem not_hits_nil : ¬Hits ok bad [] := by
  rintro ⟨before, x, after, h, -, -⟩
  cases before <;> cases h

theorem hits_cons {x : α} {xs : List α} :
    Hits ok bad (x :: xs) ↔ bad x ∨ (ok x ∧ Hits ok bad xs) := by
  constructor
  · rintro ⟨before, y, after, h, hok, hbad⟩
    cases before with
    | nil =>
        cases h
        exact Or.inl hbad
    | cons z before =>
        cases h
        exact Or.inr ⟨hok x List.mem_cons_self, before, y, after, rfl,
          fun w hw => hok w (List.mem_cons_of_mem x hw), hbad⟩
  · rintro (hbad | ⟨hok, before, y, after, rfl, hbefore, hbad⟩)
    · exact ⟨[], x, xs, rfl, by simp, hbad⟩
    · exact ⟨x :: before, y, after, rfl, by simpa using ⟨hok, hbefore⟩, hbad⟩

theorem hits_append {xs ys : List α} :
    Hits ok bad (xs ++ ys) ↔ Hits ok bad xs ∨ ((∀ x ∈ xs, ok x) ∧ Hits ok bad ys) := by
  induction xs with
  | nil => simp [not_hits_nil]
  | cons x xs ih =>
      rw [List.cons_append, hits_cons, ih, hits_cons, List.forall_mem_cons, and_or_left,
        ← or_assoc, and_assoc]

theorem hits_map {β : Type} {f : β → α} {xs : List β} :
    Hits ok bad (xs.map f) ↔ Hits (fun x => ok (f x)) (fun x => bad (f x)) xs := by
  induction xs with
  | nil => simp [not_hits_nil]
  | cons x xs ih => rw [List.map_cons, hits_cons, hits_cons, ih]

end Hits

/-! ## What a parser comes to -/

/-- The parser panics when `hits`, and otherwise goes on exactly when `ok`. -/
structure Reads {α : Type} (x : Outcome α) (hits ok : Prop) : Prop where
  panics : hits → x = .error .panic
  accepts : ¬hits → ok → ∃ a, x = .ok a
  refuses : ¬hits → ¬ok → ∃ err, x = .error (.err err)

theorem Reads.bind {α β : Type} {x : Outcome α} {f : α → Outcome β} {hits ok hits' ok' : Prop}
    (h : Reads x hits ok) (h' : ∀ a, Reads (f a) hits' ok') :
    Reads (x >>= f) (hits ∨ (ok ∧ hits')) (ok ∧ ok') := by
  by_cases hhits : hits
  · refine ⟨fun _ => by rw [h.panics hhits]; rfl, fun hno => absurd (Or.inl hhits) hno,
      fun hno => absurd (Or.inl hhits) hno⟩
  · by_cases hok : ok
    · obtain ⟨a, ha⟩ := h.accepts hhits hok
      have hrest := h' a
      rw [ha]
      refine ⟨?_, ?_, ?_⟩
      · rintro (hbad | ⟨-, hbad⟩)
        · exact absurd hbad hhits
        · exact hrest.panics hbad
      · exact fun hno hall => hrest.accepts (fun hbad => hno (Or.inr ⟨hok, hbad⟩)) hall.2
      · exact fun hno hall => hrest.refuses (fun hbad => hno (Or.inr ⟨hok, hbad⟩))
          fun hok' => hall ⟨hok, hok'⟩
    · obtain ⟨err, herr⟩ := h.refuses hhits hok
      rw [herr]
      refine ⟨?_, fun _ hall => absurd hall.1 hok, fun _ _ => ⟨err, rfl⟩⟩
      rintro (hbad | ⟨hbad, -⟩)
      · exact absurd hbad hhits
      · exact absurd hbad hok

theorem Reads.wrapSpec {α : Type} {x : Outcome α} {hits ok : Prop} (h : Reads x hits ok)
    (message : Message) : Reads (wrapSpec message x) hits ok := by
  refine ⟨fun hhits => ?_, fun hno hok => ?_, fun hno hok => ?_⟩
  · rw [h.panics hhits]
    rfl
  · obtain ⟨a, ha⟩ := h.accepts hno hok
    exact ⟨a, by rw [ha]; rfl⟩
  · obtain ⟨err, herr⟩ := h.refuses hno hok
    exact ⟨_, by rw [herr]; rfl⟩

theorem reads_pure {α : Type} (a : α) : Reads (.ok a) False True :=
  ⟨False.elim, fun _ _ => ⟨a, rfl⟩, fun _ h => absurd trivial h⟩

/-- What a parser accepts is in order. -/
theorem Reads.ok_of_accepted {α : Type} {x : Outcome α} {hits ok : Prop} (h : Reads x hits ok)
    {a : α} (hx : x = .ok a) : ok := by
  by_contra hnot
  by_cases hhits : hits
  · rw [h.panics hhits] at hx
    cases hx
  · obtain ⟨err, herr⟩ := h.refuses hhits hnot
    rw [herr] at hx
    cases hx

theorem Reads.returns_iff {α : Type} {x : Outcome α} {hits ok : Prop} (h : Reads x hits ok) :
    ((∃ a, x = .ok a) ∨ ∃ err, x = .error (.err err)) ↔ ¬hits := by
  constructor
  · rintro hreturns hhits
    rw [h.panics hhits] at hreturns
    rcases hreturns with ⟨a, ha⟩ | ⟨err, herr⟩
    · cases ha
    · cases herr
  · intro hno
    by_cases hok : ok
    · exact Or.inl (h.accepts hno hok)
    · exact Or.inr (h.refuses hno hok)

/-! ## The stepping loop -/

theorem or_bit_ne_zero (bits : BitVec 64) {n : Nat} (h : n < 64) : bits ||| 1#64 <<< n ≠ 0 := by
  intro hzero
  have hbit := congrArg (BitVec.getLsbD · n) hzero
  simp [h] at hbit

/-- A first step past the greatest `int` panics: `v` wraps below zero, which is not
past the end, and shifting by it panics. -/
theorem addLoop_panics {wrap7 : Bool} {stop step v : Int64} {bits : BitVec 64}
    (hstep : 0 < step.toInt) (hv : 0 ≤ v.toInt) (hle : v.toInt ≤ stop.toInt)
    (hover : Go.maxInt < v.toInt + step.toInt) :
    addLoop wrap7 stop step hstep v bits = .error .panic := by
  have hneg := Go.toInt_add_neg hover
  have hbit : ¬bitOf wrap7 v < 0 := by
    rw [bitOf_neg_iff]
    omega
  have hwrapped : v + step ≤ stop := by
    rw [Int64.le_iff_toInt_le]
    omega
  rw [addLoop, dif_pos (Int64.le_iff_toInt_le.mpr hle), dif_neg hbit, addLoop, dif_pos hwrapped,
    dif_pos (bitOf_neg_iff.mpr hneg)]

/-- Otherwise the loop runs to its end, and has set a bit if it had a value. -/
theorem addLoop_returns {wrap7 : Bool} {stop step v : Int64} {bits : BitVec 64}
    (hstep : 0 < step.toInt) (hv : 0 ≤ v.toInt) (hstop : stop.toInt ≤ 63)
    (hover : v.toInt ≤ stop.toInt → v.toInt + step.toInt ≤ Go.maxInt)
    (hbits : v.toInt ≤ stop.toInt ∨ bits ≠ 0) :
    ∃ bits', addLoop wrap7 stop step hstep v bits = .ok bits' ∧ bits' ≠ 0 := by
  induction hn : stepsLeft stop v using Nat.strongRecOn generalizing v bits with
  | _ n ih =>
      rw [addLoop]
      by_cases hle : v ≤ stop
      · have hle' := Int64.le_iff_toInt_le.mp hle
        have hsum := Go.toInt_add_of_le hv (by omega) (hover hle')
        have hbit : ¬bitOf wrap7 v < 0 := by
          rw [bitOf_neg_iff]
          omega
        have hset : bits ||| 1#64 <<< (bitOf wrap7 v).toInt.toNat ≠ 0 := by
          refine or_bit_ne_zero bits ?_
          unfold bitOf
          split
          · decide
          · omega
        rw [dif_pos hle, dif_neg hbit]
        -- The next value is still small, so its own step cannot pass the greatest `int`.
        refine ih _ ?_ (by omega) ?_ (Or.inr hset) rfl
        · rw [← hn]
          exact stepsLeft_lt hstep hle (by omega)
        · intro hnext
          unfold Go.maxInt
          omega
      · rw [dif_neg hle]
        rw [Int64.le_iff_toInt_le] at hle
        exact ⟨bits, rfl, hbits.resolve_left hle⟩

/-! ## Items -/

/-- The values a field may have. -/
structure Bounds where
  minVal : Int64
  maxVal : Int64
  wrap7 : Bool
  nonneg : 0 ≤ minVal.toInt
  le : minVal.toInt ≤ maxVal.toInt
  small : maxVal.toInt ≤ 63

/-- The range part of an item. -/
def rangeTok (part : Bytes) : Bytes := (Go.cut (ascii '/') part).1

/-- The step an item asks for. -/
def itemStep (part : Bytes) : Outcome { step : Int64 // 0 < step.toInt } :=
  parseStep (Go.cut (ascii '/') part).2.1 (Go.cut (ascii '/') part).2.2

/-- The item is not empty, its step is a positive `int` and its range lies within the
bounds. -/
def ItemOk (b : Bounds) (part : Bytes) : Prop :=
  part ≠ [] ∧ (∃ step, itemStep part = .ok step) ∧
    ∃ range, parseRange (rangeTok part) b.minVal b.maxVal = .ok range

/-- The item is in order, and one step from the start of its range passes the greatest
`int`. -/
def ItemOverflows (b : Bounds) (part : Bytes) : Prop :=
  part ≠ [] ∧ ∃ step range, itemStep part = .ok step ∧
    parseRange (rangeTok part) b.minVal b.maxVal = .ok range ∧
    Go.maxInt < range.1.toInt + step.1.toInt

theorem parseRange_bounds {b : Bounds} {tok : Bytes} {range : Int64 × Int64}
    (h : parseRange tok b.minVal b.maxVal = .ok range) :
    0 ≤ range.1.toInt ∧ range.1.toInt ≤ range.2.toInt ∧ range.2.toInt ≤ 63 := by
  have hnonneg := b.nonneg
  have hle := b.le
  have hsmall := b.small
  unfold parseRange at h
  split at h
  · cases h
    exact ⟨hnonneg, hle, hsmall⟩
  · split at h
    split at h
    · cases h
    · split at h
      · cases h
      · split at h
        · cases h
        · rename_i hrange
          cases h
          simp only [not_or, Int64.not_lt, gt_iff_lt, Int64.le_iff_toInt_le] at hrange
          dsimp only
          omega

theorem parseRange_not_panic (tok : Bytes) (minVal maxVal : Int64) :
    parseRange tok minVal maxVal ≠ .error .panic := by
  unfold parseRange
  split
  · simp
  · split
    split
    · simp [fail]
    · split
      · simp [fail]
      · split <;> simp [fail]

theorem parseStep_not_panic (stepTok : Bytes) (stepped : Bool) :
    parseStep stepTok stepped ≠ .error .panic := by
  unfold parseStep
  split
  · split
    · simp [fail]
    · split <;> simp [fail]
  · simp

theorem itemStep_not_panic (part : Bytes) : itemStep part ≠ .error .panic :=
  parseStep_not_panic _ _

/-- What a parser can come to: it refuses, or it goes on. -/
theorem refused_or_ok {α : Type} {x : Outcome α} (h : x ≠ .error .panic) :
    (∃ err, x = .error (.err err)) ∨ ∃ a, x = .ok a := by
  cases x with
  | ok a => exact Or.inr ⟨a, rfl⟩
  | error stop =>
      cases stop with
      | err err => exact Or.inl ⟨err, rfl⟩
      | panic => exact absurd rfl h

theorem addItem_eq (b : Bounds) (f : Field) {part : Bytes} (h : part ≠ []) :
    addItem b.minVal b.maxVal b.wrap7 f part =
      (itemStep part >>= fun step => parseRange (rangeTok part) b.minVal b.maxVal >>= fun range =>
        addLoop b.wrap7 range.2 step.1 step.2 range.1 f.bits >>= fun bits => .ok ⟨bits⟩) := by
  rw [addItem, if_neg h]
  rfl

theorem addItem_of_overflows {b : Bounds} {part : Bytes} (h : ItemOverflows b part) (f : Field) :
    addItem b.minVal b.maxVal b.wrap7 f part = .error .panic := by
  obtain ⟨hne, step, range, hstep, hrange, hover⟩ := h
  obtain ⟨hlow, hle, -⟩ := parseRange_bounds hrange
  rw [addItem_eq b f hne, hstep]
  simp only [bind, Except.bind, hrange]
  rw [addLoop_panics step.2 hlow hle hover]

theorem addItem_of_ok {b : Bounds} {part : Bytes} (h : ItemOk b part)
    (hover : ¬ItemOverflows b part) (f : Field) :
    ∃ f', addItem b.minVal b.maxVal b.wrap7 f part = .ok f' ∧ f'.bits ≠ 0 := by
  obtain ⟨hne, ⟨step, hstep⟩, range, hrange⟩ := h
  obtain ⟨hlow, hle, hsmall⟩ := parseRange_bounds hrange
  have hfits : range.1.toInt + step.1.toInt ≤ Go.maxInt := by
    by_contra hpast
    exact hover ⟨hne, step, range, hstep, hrange, by omega⟩
  have hreturns : ∃ bits, addLoop b.wrap7 range.2 step.1 step.2 range.1 f.bits = .ok bits ∧
      bits ≠ 0 := addLoop_returns step.2 hlow hsmall (fun _ => hfits) (Or.inl hle)
  obtain ⟨bits, hloop, hbits⟩ := hreturns
  refine ⟨⟨bits⟩, ?_, hbits⟩
  rw [addItem_eq b f hne, hstep]
  simp only [bind, Except.bind, hrange, hloop]

theorem addItem_of_not_ok {b : Bounds} {part : Bytes} (h : ¬ItemOk b part) (f : Field) :
    ∃ err, addItem b.minVal b.maxVal b.wrap7 f part = .error (.err err) := by
  by_cases hne : part = []
  · rw [addItem, if_pos hne]
    exact ⟨_, rfl⟩
  · rw [addItem_eq b f hne]
    rcases refused_or_ok (itemStep_not_panic part) with ⟨err, herr⟩ | ⟨step, hstep⟩
    · exact ⟨err, by rw [herr]; rfl⟩
    · rcases refused_or_ok (parseRange_not_panic (rangeTok part) b.minVal b.maxVal) with
        ⟨err, herr⟩ | ⟨range, hrange⟩
      · exact ⟨err, by rw [hstep, herr]; rfl⟩
      · exact absurd ⟨hne, ⟨step, hstep⟩, range, hrange⟩ h

/-! ## Fields -/

/-- The loop of `parseField` over items: it panics when it reaches an item that
overflows, and otherwise takes every item or refuses one. -/
theorem addItems_reads (b : Bounds) (parts : List Bytes) (f : Field) :
    Reads (parts.foldlM (addItem b.minVal b.maxVal b.wrap7) f)
      (Hits (ItemOk b) (ItemOverflows b) parts) (∀ part ∈ parts, ItemOk b part) := by
  induction parts generalizing f with
  | nil => exact ⟨fun h => absurd h not_hits_nil, fun _ _ => ⟨f, rfl⟩, fun _ h => absurd (by simp) h⟩
  | cons part parts ih =>
      rw [List.foldlM_cons, hits_cons, List.forall_mem_cons]
      refine Reads.bind ⟨fun h => addItem_of_overflows h f, fun hno hok => ?_,
        fun _ hok => addItem_of_not_ok hok f⟩ ih
      obtain ⟨f', hf', -⟩ := addItem_of_ok hok hno f
      exact ⟨f', hf'⟩

/-- A field that has taken an item admits a value. -/
theorem bits_of_addItems {b : Bounds} {parts : List Bytes} {f f' : Field}
    (h : parts.foldlM (addItem b.minVal b.maxVal b.wrap7) f = .ok f')
    (hne : parts ≠ [] ∨ f.bits ≠ 0) : f'.bits ≠ 0 := by
  induction parts generalizing f with
  | nil =>
      cases h
      exact hne.resolve_left fun hnil => hnil rfl
  | cons part parts ih =>
      rw [List.foldlM_cons] at h
      by_cases hover : ItemOverflows b part
      · rw [addItem_of_overflows hover] at h
        cases h
      · by_cases hok : ItemOk b part
        · obtain ⟨f'', hf'', hbits⟩ := addItem_of_ok hok hover f
          rw [hf''] at h
          exact ih h (Or.inr hbits)
        · obtain ⟨err, herr⟩ := addItem_of_not_ok hok f
          rw [herr] at h
          cases h

/-- The items of a field. -/
def items (tok : Bytes) : List Bytes := Go.split (ascii ',') tok

/-- A field whose items are all taken is what they make of the empty field. -/
theorem parseField_of_addItems {b : Bounds} {tok : Bytes} {f : Field} (hne : tok ≠ [])
    (h : (items tok).foldlM (addItem b.minVal b.maxVal b.wrap7) ⟨0⟩ = .ok f) :
    parseField tok b.minVal b.maxVal b.wrap7 = .ok f := by
  have hbits := bits_of_addItems h (Or.inl (Go.split_ne_nil (ascii ',') tok))
  unfold items at h
  unfold parseField
  rw [if_neg hne]
  simp only [bind, Except.bind, pure, Except.pure, h]
  rw [if_neg hbits]

/-- A field panics when it reaches an item that overflows, and is otherwise taken
exactly when all its items are in order. -/
theorem parseField_reads (b : Bounds) (tok : Bytes) :
    Reads (parseField tok b.minVal b.maxVal b.wrap7)
      (Hits (ItemOk b) (ItemOverflows b) (items tok)) (∀ part ∈ items tok, ItemOk b part) := by
  by_cases hempty : tok = []
  · -- The empty field has one item, which is empty.
    have hnot : ¬ItemOk b [] := fun h => h.1 rfl
    subst hempty
    refine ⟨fun h => ?_, fun _ hall => absurd (hall [] (by simp [items, Go.split])) hnot,
      fun _ _ => ⟨_, rfl⟩⟩
    rw [show items [] = [[]] from rfl, hits_cons] at h
    rcases h with h | h
    · exact absurd rfl h.1
    · exact absurd h.2 not_hits_nil
  · have hreads := addItems_reads b (items tok) ⟨0⟩
    refine ⟨fun h => ?_, fun h hall => ?_, fun h hall => ?_⟩
    · have hpanic := hreads.panics h
      unfold items at hpanic
      unfold parseField
      rw [if_neg hempty]
      simp only [bind, Except.bind, hpanic]
    · obtain ⟨f, hf⟩ := hreads.accepts h hall
      exact ⟨f, parseField_of_addItems hempty hf⟩
    · obtain ⟨err, herr⟩ := hreads.refuses h hall
      unfold items at herr
      unfold parseField
      rw [if_neg hempty]
      exact ⟨err, by simp only [bind, Except.bind, herr]⟩

/-! ## Specs -/

/-- The bounds `ParseIn` reads its five fields within. -/
def minuteBounds : Bounds := ⟨0, 59, false, by decide, by decide, by decide⟩

@[inherit_doc minuteBounds]
def hourBounds : Bounds := ⟨0, 23, false, by decide, by decide, by decide⟩

@[inherit_doc minuteBounds]
def domBounds : Bounds := ⟨1, 31, false, by decide, by decide, by decide⟩

@[inherit_doc minuteBounds]
def monthBounds : Bounds := ⟨1, 12, false, by decide, by decide, by decide⟩

@[inherit_doc minuteBounds]
def dowBounds : Bounds := ⟨0, 7, true, by decide, by decide, by decide⟩

/-- The items of a spec in reading order, each with the bounds of its field. -/
def specItems (minute hour dom month dow : Bytes) : List (Bounds × Bytes) :=
  (items minute).map (minuteBounds, ·) ++ ((items hour).map (hourBounds, ·) ++
    ((items dom).map (domBounds, ·) ++ ((items month).map (monthBounds, ·) ++
      (items dow).map (dowBounds, ·))))

/-- The spec has five fields, and an item whose step overflows is reached: every item
before it is in order. -/
def StepOverflows (spec : Bytes) : Prop :=
  ∃ minute hour dom month dow, Go.fields spec = [minute, hour, dom, month, dow] ∧
    minute ≠ everyWord ∧
    ∃ before item after, specItems minute hour dom month dow = before ++ item :: after ∧
      (∀ other ∈ before, ItemOk other.1 other.2) ∧ ItemOverflows item.1 item.2

/-- The items of one field among those of the spec. -/
theorem field_reads (b : Bounds) (tok : Bytes) (message : Message) :
    Reads (wrapSpec message (parseField tok b.minVal b.maxVal b.wrap7))
      (Hits (fun item : Bounds × Bytes => ItemOk item.1 item.2)
        (fun item => ItemOverflows item.1 item.2) ((items tok).map (b, ·)))
      (∀ item ∈ (items tok).map (b, ·), ItemOk item.1 item.2) := by
  have hreads := (parseField_reads b tok).wrapSpec message
  rw [hits_map, List.forall_mem_map]
  exact hreads

theorem parseFields_reads (minute hour dom month dow : Bytes) (loc : Location) :
    Reads (parseFields minute hour dom month dow loc)
      (Hits (fun item => ItemOk item.1 item.2) (fun item => ItemOverflows item.1 item.2)
        (specItems minute hour dom month dow))
      (∀ item ∈ specItems minute hour dom month dow, ItemOk item.1 item.2) := by
  have hreads := (field_reads minuteBounds minute (.field .minute)).bind fun minuteField =>
    (field_reads hourBounds hour (.field .hour)).bind fun hourField =>
    (field_reads domBounds dom (.field .dayOfMonth)).bind fun domField =>
    (field_reads monthBounds month (.field .month)).bind fun monthField =>
    (field_reads dowBounds dow (.field .dayOfWeek)).bind fun dowField =>
      reads_pure (Schedule.cron ⟨minuteField, hourField, domField, monthField, dowField,
        dom == [ascii '*'], dow == [ascii '*'], loc⟩)
  rw [and_false, or_false, ← hits_append, ← hits_append, ← hits_append, ← hits_append, and_true,
    ← List.forall_mem_append, ← List.forall_mem_append, ← List.forall_mem_append,
    ← List.forall_mem_append] at hreads
  exact hreads

/-! ## What comes back -/

theorem ok_bind {α β : Type} {x : Outcome α} {f : α → Outcome β} {r : β} (h : x >>= f = .ok r) :
    ∃ a, x = .ok a ∧ f a = .ok r := by
  cases x with
  | error stop => cases h
  | ok a => exact ⟨a, rfl, h⟩

theorem ok_of_wrapSpec {α : Type} {message : Message} {x : Outcome α} {a : α}
    (h : wrapSpec message x = .ok a) : x = .ok a := by
  unfold wrapSpec at h
  split at h
  · cases h
  · exact h

/-- What the parser returns for five fields. -/
theorem parseFields_ok {minute hour dom month dow : Bytes} {loc : Location} {r : Schedule}
    (h : parseFields minute hour dom month dow loc = .ok r) :
    ∃ s : CronSchedule, r = .cron s ∧ parseField minute 0 59 false = .ok s.minute ∧
      parseField hour 0 23 false = .ok s.hour ∧ parseField dom 1 31 false = .ok s.dom ∧
      parseField month 1 12 false = .ok s.month ∧ parseField dow 0 7 true = .ok s.dow ∧
      s.domStar = (dom == [ascii '*']) ∧ s.dowStar = (dow == [ascii '*']) ∧ s.loc = loc := by
  obtain ⟨minuteField, hminute, h⟩ := ok_bind h
  obtain ⟨hourField, hhour, h⟩ := ok_bind h
  obtain ⟨domField, hdom, h⟩ := ok_bind h
  obtain ⟨monthField, hmonth, h⟩ := ok_bind h
  obtain ⟨dowField, hdow, h⟩ := ok_bind h
  cases h
  exact ⟨_, rfl, ok_of_wrapSpec hminute, ok_of_wrapSpec hhour, ok_of_wrapSpec hdom,
    ok_of_wrapSpec hmonth, ok_of_wrapSpec hdow, rfl, rfl, rfl⟩

/-! ## Every error wraps `ErrInvalidSpec` -/

theorem isInvalidSpec_wrapSpec {α : Type} {message : Message} {x : Outcome α} {err : Error}
    (h : wrapSpec message x = .error (.err err)) : err.isInvalidSpec = true := by
  unfold wrapSpec at h
  split at h
  · cases h
    simp [Error.isInvalidSpec, anyInvalidSpec]
  · rename_i hnot
    exact absurd h (hnot err)

theorem err_bind {α β : Type} {x : Outcome α} {f : α → Outcome β} {err : Error}
    (h : x >>= f = .error (.err err)) : x = .error (.err err) ∨ ∃ a, f a = .error (.err err) := by
  cases x with
  | error stop =>
      simp only [bind, Except.bind] at h
      cases h
      exact Or.inl rfl
  | ok a => exact Or.inr ⟨a, h⟩

theorem isInvalidSpec_parseFields {minute hour dom month dow : Bytes} {loc : Location} {err : Error}
    (h : parseFields minute hour dom month dow loc = .error (.err err)) :
    err.isInvalidSpec = true := by
  rcases err_bind h with h | ⟨_, h⟩
  · exact isInvalidSpec_wrapSpec h
  · rcases err_bind h with h | ⟨_, h⟩
    · exact isInvalidSpec_wrapSpec h
    · rcases err_bind h with h | ⟨_, h⟩
      · exact isInvalidSpec_wrapSpec h
      · rcases err_bind h with h | ⟨_, h⟩
        · exact isInvalidSpec_wrapSpec h
        · rcases err_bind h with h | ⟨_, h⟩
          · exact isInvalidSpec_wrapSpec h
          · cases h

theorem failSpec_refuses {α : Type} (message : Message) :
    ∃ err, (failSpec message : Outcome α) = .error (.err err) ∧ err.isInvalidSpec = true :=
  ⟨_, rfl, by simp [Error.isInvalidSpec, anyInvalidSpec]⟩

/-- `@every` returns: a schedule, or an error that wraps `ErrInvalidSpec`. -/
theorem parseEvery_returns (rest : List Bytes) :
    (∃ s, parseEvery rest = .ok s) ∨
      ∃ err, parseEvery rest = .error (.err err) ∧ err.isInvalidSpec = true := by
  unfold parseEvery
  split
  · exact Or.inr (failSpec_refuses .emptyEvery)
  · split
    · exact Or.inr ⟨_, rfl, by simp [Error.isInvalidSpec, anyInvalidSpec]⟩
    · split
      · exact Or.inr (failSpec_refuses .everyNotPositive)
      · exact Or.inl ⟨_, rfl⟩

theorem parseFields_returns_iff (minute hour dom month dow : Bytes) (loc : Location) :
    ((∃ s, parseFields minute hour dom month dow loc = .ok s) ∨
        ∃ err, parseFields minute hour dom month dow loc = .error (.err err) ∧
          err.isInvalidSpec = true) ↔
      ¬Hits (fun item => ItemOk item.1 item.2) (fun item => ItemOverflows item.1 item.2)
        (specItems minute hour dom month dow) := by
  rw [← (parseFields_reads minute hour dom month dow loc).returns_iff]
  refine or_congr_right (exists_congr fun err => ?_)
  exact and_iff_left_of_imp isInvalidSpec_parseFields

/-- `ParseIn` returns a schedule or an error that wraps `ErrInvalidSpec`, for every
spec and location, exactly unless the spec reaches an item whose step overflows. -/
theorem parseIn_returns_iff (spec : Bytes) (loc : Option Location) :
    ((∃ s, parseIn spec loc = .ok s) ∨
        ∃ err, parseIn spec loc = .error (.err err) ∧ err.isInvalidSpec = true) ↔
      ¬StepOverflows spec := by
  unfold parseIn StepOverflows
  split
  · rename_i first rest hfields
    split
    · rename_i hevery
      refine iff_of_true (parseEvery_returns rest) ?_
      rintro ⟨_, _, _, _, _, h, hne, -⟩
      rw [hfields] at h
      cases h
      exact hne hevery
    · rename_i hevery
      split
      · rename_i hour dom month dow
        rw [parseFields_returns_iff, not_iff_not]
        constructor
        · intro hhits
          exact ⟨first, hour, dom, month, dow, hfields, hevery, hhits⟩
        · rintro ⟨_, _, _, _, _, h, -, hhits⟩
          rw [hfields] at h
          cases h
          exact hhits
      · rename_i hlength
        refine iff_of_true (Or.inr (failSpec_refuses _)) ?_
        rintro ⟨_, hour, dom, month, dow, h, -⟩
        rw [hfields] at h
        cases h
        exact hlength _ _ _ _ rfl
  · rename_i hfields
    refine iff_of_true (Or.inr (failSpec_refuses _)) ?_
    rintro ⟨_, _, _, _, _, h, -⟩
    rw [hfields] at h
    cases h

/-- `1/9223372036854775807`: the greatest `int` as a step, from 1 on. -/
def overflowingItem : Bytes :=
  ofChars ['1', '/', '9', '2', '2', '3', '3', '7', '2', '0', '3', '6', '8', '5', '4', '7', '7', '5',
    '8', '0', '7']

theorem overflowingItem_overflows : ItemOverflows minuteBounds overflowingItem :=
  ⟨by decide, ⟨9223372036854775807, by decide⟩, (1, 1), rfl, rfl, by decide⟩

/-- The spec `1/9223372036854775807 * * * *`. -/
def overflowingSpec : Bytes := overflowingItem ++ ofChars [' ', '*', ' ', '*', ' ', '*', ' ', '*']

/-- The parser panics on it. -/
theorem parseIn_overflowingSpec_panics : parseIn overflowingSpec none = .error .panic := by
  have hfields : Go.fields overflowingSpec =
      [overflowingItem, [ascii '*'], [ascii '*'], [ascii '*'], [ascii '*']] := by decide
  have hitems : items overflowingItem = [overflowingItem] := by decide
  have hfield : parseField overflowingItem 0 59 false = .error .panic := by
    refine (parseField_reads minuteBounds overflowingItem).panics ?_
    rw [hitems, hits_cons]
    exact Or.inl overflowingItem_overflows
  rw [parseIn, hfields]
  simp only
  rw [if_neg (by decide), parseFields, hfield]
  rfl

end Drover.Cron
