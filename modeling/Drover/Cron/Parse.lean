import Drover.Go.Duration
import Drover.Go.Time

set_option autoImplicit false

/-!
# The parser of cron specs (`internal/cron/cron.go`)

A spec is five fields or `@every` with a duration.  The parser works in `int`, which
wraps at 64 bits, and shifts by a computed amount, which panics when the amount is
negative; so besides its result or an error a function here may stop with a panic.
-/

namespace Drover.Cron

open Drover.Foundation
open Drover.Foundation.Bytes
open Drover.Go (Location Duration)

/-! ## Errors -/

/-- The names `ParseIn` reports its fields under. -/
inductive FieldName where
  | minute
  | hour
  | dayOfMonth
  | month
  | dayOfWeek
  deriving DecidableEq, Repr

/-- The texts of the parser's errors, with what they quote. -/
inductive Message where
  /-- `want 5 fields, got %d` -/
  | wantFields (got : Nat)
  /-- `minute: `, `hour: `, `day of month: `, `month: ` and `day of week: ` -/
  | field (name : FieldName)
  /-- `empty @every duration` -/
  | emptyEvery
  /-- `@every duration: ` -/
  | everyDuration
  /-- `@every duration must be positive` -/
  | everyNotPositive
  /-- `empty field` -/
  | emptyField
  /-- `empty list item` -/
  | emptyListItem
  /-- `no valid values` -/
  | noValidValues
  /-- `invalid step %q` -/
  | invalidStep (stepTok : Bytes)
  /-- `invalid value %q` -/
  | invalidValue (tok : Bytes)
  /-- `invalid range %q` -/
  | invalidRange (tok : Bytes)
  /-- `value %q out of range %d-%d` -/
  | outOfRange (tok : Bytes) (minVal maxVal : Int64)
  deriving DecidableEq, Repr

/-- An error: `ErrInvalidSpec`, one of `time.ParseDuration`, or one `fmt.Errorf` made
with the errors its `%w` verbs wrap. -/
inductive Error where
  | errInvalidSpec
  | duration (err : Go.DurationError)
  | errorf (wrapped : List Error) (message : Message)

mutual

/-- `errors.Is(err, ErrInvalidSpec)`. -/
def Error.isInvalidSpec : Error → Bool
  | .errInvalidSpec => true
  | .duration _ => false
  | .errorf wrapped _ => anyInvalidSpec wrapped

/-- One of the errors is. -/
def anyInvalidSpec : List Error → Bool
  | [] => false
  | err :: errs => err.isInvalidSpec || anyInvalidSpec errs

end

/-- How a function ends without a result. -/
inductive Stop where
  | err (err : Error)
  | panic

/-- What a function ends in. -/
abbrev Outcome := Except Stop

/-- Return an error that wraps nothing. -/
def fail {α : Type} (message : Message) : Outcome α := .error (.err (.errorf [] message))

/-! ## Fields -/

/-- `field`: the set of values a field admits. -/
structure Field where
  bits : BitVec 64
  deriving DecidableEq, Repr

/-- `field.has`. -/
def Field.has (f : Field) (v : Int) : Bool :=
  if v < 0 ∨ v > 63 then false else f.bits &&& (1#64 <<< v.toNat) != 0

/-- `parseRange`. -/
def parseRange (tok : Bytes) (minVal maxVal : Int64) : Outcome (Int64 × Int64) :=
  if tok = [ascii '*'] then .ok (minVal, maxVal)
  else
    let (low, high, ranged) := Go.cut (ascii '-') tok
    match Go.atoi low with
    | none => fail (.invalidValue tok)
    | some start =>
        match if ranged then Go.atoi high else some start with
        | none => fail (.invalidRange tok)
        | some stop =>
            if start < minVal ∨ stop > maxVal ∨ start > stop then
              fail (.outOfRange tok minVal maxVal)
            else .ok (start, stop)

/-- The bit `addPart` sets for `v`: Sunday may be written as 7. -/
def bitOf (wrap7 : Bool) (v : Int64) : Int64 := if wrap7 && v == 7 then 0 else v

theorem bitOf_neg_iff {wrap7 : Bool} {v : Int64} : bitOf wrap7 v < 0 ↔ v.toInt < 0 := by
  unfold bitOf
  split
  · rename_i h
    simp only [Bool.and_eq_true, beq_iff_eq] at h
    rw [h.2]
    decide
  · rw [Int64.lt_iff_toInt_lt]
    rfl

/-- What the stepping loop has left to do. -/
def stepsLeft (stop v : Int64) : Nat :=
  if v.toInt < 0 then 0 else (stop.toInt + 1 - v.toInt).toNat + 1

/-- While `v` is not negative, a step raises it or wraps it below zero. -/
theorem stepsLeft_lt {stop step v : Int64} (hstep : 0 < step.toInt) (hle : v ≤ stop)
    (hneg : ¬v.toInt < 0) : stepsLeft stop (v + step) < stepsLeft stop v := by
  rw [Int64.le_iff_toInt_le] at hle
  unfold stepsLeft
  rw [if_neg hneg]
  by_cases hover : Go.maxInt < v.toInt + step.toInt
  · rw [if_pos (Go.toInt_add_neg hover)]
    omega
  · rw [Go.toInt_add_of_le (by omega) (by omega) (by omega)]
    split <;> omega

/-- The stepping loop of `addPart` from `v` on: `for v := start; v <= end; v += step`. -/
def addLoop (wrap7 : Bool) (stop step : Int64) (hstep : 0 < step.toInt) (v : Int64)
    (bits : BitVec 64) : Outcome (BitVec 64) :=
  if _hle : v ≤ stop then
    if _hneg : bitOf wrap7 v < 0 then .error .panic
    else
      addLoop wrap7 stop step hstep (v + step) (bits ||| 1#64 <<< (bitOf wrap7 v).toInt.toNat)
  else .ok bits
termination_by stepsLeft stop v
decreasing_by exact stepsLeft_lt hstep _hle (by rwa [bitOf_neg_iff] at _hneg)

/-- The step an item asks for; 1 when it has none. -/
def parseStep (stepTok : Bytes) (stepped : Bool) : Outcome { step : Int64 // 0 < step.toInt } :=
  if stepped then
    match Go.atoi stepTok with
    | none => fail (.invalidStep stepTok)
    | some n => if h : 0 < n.toInt then .ok ⟨n, h⟩ else fail (.invalidStep stepTok)
  else .ok ⟨1, by decide⟩

/-- `addPart`. -/
def addPart (f : Field) (part : Bytes) (minVal maxVal : Int64) (wrap7 : Bool) : Outcome Field := do
  let (rangeTok, stepTok, stepped) := Go.cut (ascii '/') part
  let step ← parseStep stepTok stepped
  let (start, stop) ← parseRange rangeTok minVal maxVal
  let bits ← addLoop wrap7 stop step.1 step.2 start f.bits
  return ⟨bits⟩

/-- One turn of the loop of `parseField`. -/
def addItem (minVal maxVal : Int64) (wrap7 : Bool) (f : Field) (part : Bytes) : Outcome Field :=
  if part = [] then fail .emptyListItem else addPart f part minVal maxVal wrap7

/-- `parseField`. -/
def parseField (tok : Bytes) (minVal maxVal : Int64) (wrap7 : Bool) : Outcome Field := do
  if tok = [] then fail .emptyField
  let f ← (Go.split (ascii ',') tok).foldlM (addItem minVal maxVal wrap7) ⟨0⟩
  if f.bits = 0 then fail .noValidValues
  return f

/-! ## Specs -/

/-- `cronSchedule`. -/
structure CronSchedule where
  minute : Field
  hour : Field
  dom : Field
  month : Field
  dow : Field
  domStar : Bool
  dowStar : Bool
  loc : Location

/-- A `Schedule`: `cronSchedule` or `everySchedule`. -/
inductive Schedule where
  | cron (s : CronSchedule)
  | every (d : Duration)

/-- `fmt.Errorf("%w: ...: %w", ErrInvalidSpec, err)` around an error of `x`. -/
def wrapSpec {α : Type} (message : Message) : Outcome α → Outcome α
  | .error (.err err) => .error (.err (.errorf [.errInvalidSpec, err] message))
  | x => x

/-- `fmt.Errorf("%w: ...", ErrInvalidSpec)`. -/
def failSpec {α : Type} (message : Message) : Outcome α :=
  .error (.err (.errorf [.errInvalidSpec] message))

/-- `parseEvery`. -/
def parseEvery (rest : List Bytes) : Outcome Schedule :=
  if rest.length = 0 then failSpec .emptyEvery
  else
    match Go.parseDuration (Go.join (ascii ' ') rest) with
    | .error err => .error (.err (.errorf [.errInvalidSpec, .duration err] .everyDuration))
    | .ok d => if d ≤ 0 then failSpec .everyNotPositive else .ok (.every d)

/-- `"@every"`. -/
def everyWord : Bytes := ofChars ['@', 'e', 'v', 'e', 'r', 'y']

/-- The five fields of a spec. -/
def parseFields (minute hour dom month dow : Bytes) (loc : Location) : Outcome Schedule := do
  let minuteField ← wrapSpec (.field .minute) (parseField minute 0 59 false)
  let hourField ← wrapSpec (.field .hour) (parseField hour 0 23 false)
  let domField ← wrapSpec (.field .dayOfMonth) (parseField dom 1 31 false)
  let monthField ← wrapSpec (.field .month) (parseField month 1 12 false)
  let dowField ← wrapSpec (.field .dayOfWeek) (parseField dow 0 7 true)
  return .cron
    { minute := minuteField
      hour := hourField
      dom := domField
      month := monthField
      dow := dowField
      domStar := dom == [ascii '*']
      dowStar := dow == [ascii '*']
      loc := loc }

/-- `ParseIn`; a nil location is UTC. -/
def parseIn (spec : Bytes) (loc : Option Location) : Outcome Schedule :=
  let loc := loc.getD Location.utc
  match Go.fields spec with
  | first :: rest =>
      if first = everyWord then parseEvery rest
      else
        match rest with
        | [hour, dom, month, dow] => parseFields first hour dom month dow loc
        | _ => failSpec (.wantFields (rest.length + 1))
  | [] => failSpec (.wantFields 0)

end Drover.Cron
