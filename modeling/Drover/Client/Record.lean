import Drover.Client.Containment
import Drover.Json.Encode

set_option autoImplicit false

/-!
# The record of a failed attempt (`driver.AttemptError`)

`dispose` and `requeue` marshal what ended an attempt and hand the text to a `Mark` statement,
which casts it to `jsonb`.  What the error said goes into that text byte for byte, so whether
Postgres takes the record depends on it.
-/

namespace Drover.Client

open Drover.Foundation
open Drover.Foundation.Bytes (ascii ofChars)
open Drover.Driver
open Drover.Go (Time Duration Fuelled)
open Drover.Pool (Fate)

/-! ## Texts -/

/-- What `fmt` makes of a duration under `%s` and of a string under `%q`. -/
structure Fmt where
  duration : Duration → Bytes
  quote : Bytes → Bytes

/-- The text of an error. -/
def Message.text (fmt : Fmt) : Message → Bytes
  | .sentinel .cancelled => ofChars "drover: job cancelled by handler".toList
  | .sentinel .snoozed => ofChars "drover: job snoozed by handler".toList
  | .snoozedFor d => ofChars "drover: job snoozed for ".toList ++ fmt.duration d
  | .panicked value => ofChars "job panicked: ".toList ++ value
  | .unregistered kind => ofChars "no worker registered for kind ".toList ++ fmt.quote kind
  | .own text => text

/-! ## The record -/

/-- A member of the record: the name in its tag, and a value. -/
def member (name : List Char) (value : Json.Value) : Json.Chunks × Json.Value :=
  (Json.encodeString (ofChars name), value)

/-- The JSON of an attempt's error; an empty trace is left out. -/
def recordJson (attempt : Int) (at_ : Time) (error trace : Bytes) : Json.Value :=
  .obj ([member "attempt".toList (.num (Json.intNumber attempt)),
    member "at".toList (.str (Json.encodeString at_.formatRFC3339Nano)),
    member "error".toList (.str (Json.encodeString error))] ++
    if trace = [] then [] else [member "trace".toList (.str (Json.encodeString trace))])

/-- `Time.MarshalJSON` refuses a year that is not of four digits. -/
def marshalsTime (t : Time) : Bool :=
  let year := (Go.clockOfWall t.unix).date.year
  0 ≤ year && year ≤ 9999

/-- `json.Marshal(driver.AttemptError{...})`. -/
def marshalRecord (attempt : Int) (at_ : Time) (error trace : Bytes) : Option Bytes :=
  if marshalsTime at_ then some (Json.print (recordJson attempt at_ error trace)) else none

/-- What `dispose` marshals. -/
def Fmt.marshal (fmt : Fmt) (r : AttemptError) : Option Bytes :=
  marshalRecord r.attempt r.atTime (r.error.text fmt) r.trace

/-- The text of `errShutdownRequeued`. -/
def errShutdownRequeued : Bytes :=
  ofChars "drover: worker shut down before this attempt finished".toList

/-- What `requeue` marshals. -/
def requeueRecord (lease : Lease) (now : Time) : Option Bytes :=
  marshalRecord lease.attempt now errShutdownRequeued []

/-- The string a value is, if it is one. -/
def asString : Json.Value → Option Bytes
  | .str s => some (Json.unquote s)
  | _ => none

/-- What a reader of the record finds under a name. -/
def readField (name : List Char) (text : Bytes) : Option Bytes :=
  match Json.parse text with
  | some (.obj ms) =>
      (ms.find? fun m => Json.unquote m.1 = ofChars name).bind fun m => asString m.2
  | _ => none

/-! ## What is stored -/

theorem storedMembers_member {name : List Char} (value : Json.Value)
    (ms : List (Json.Chunks × Json.Value)) (h : (0 : UInt8) ∉ ofChars name) :
    Json.storedMembers (member name value :: ms) = (Json.stored value && Json.storedMembers ms) := by
  rw [member, Json.storedMembers, (Json.storedString_encodeString _).mpr h, Bool.true_and]

/-- The cast takes a record exactly when neither text has a NUL byte. -/
theorem castsToJsonb_record (attempt : Int) (at_ : Time) (error trace : Bytes) :
    Json.castsToJsonb (Json.print (recordJson attempt at_ error trace)) = true ↔
      (0 : UInt8) ∉ error ∧ (0 : UInt8) ∉ trace := by
  have htime := (Json.storedString_encodeString _).mpr (Go.zero_notMem_formatRFC3339Nano at_)
  rw [Json.castsToJsonb, Json.parse_print, Option.any_some, recordJson, Json.stored,
    List.cons_append, storedMembers_member _ _ (by decide), List.cons_append,
    storedMembers_member _ _ (by decide), List.cons_append, storedMembers_member _ _ (by decide),
    List.nil_append]
  simp only [Json.stored, htime, Bool.true_and, Bool.and_eq_true, Json.storedString_encodeString]
  refine and_congr_right fun _ => ?_
  split_ifs with hempty
  · simp [hempty, Json.storedMembers]
  · rw [storedMembers_member _ _ (by decide), Json.stored, Json.storedMembers, Bool.and_true,
      Json.storedString_encodeString]

/-! ## What is read back -/

theorem unquote_member {name : List Char} (value : Json.Value)
    (h : (ofChars name).all (fun b => b.toNat < 0x80) = true) :
    Json.unquote (member name value).1 = ofChars name := by
  rw [member, Json.unquote_encodeString, Go.Utf8.toValid_of_text (Go.Utf8.text_of_ascii h)]

/-- A member is found under its own name, and the search goes on under another. -/
theorem find?_member {name : List Char} (sought : List Char) (value : Json.Value)
    (ms : List (Json.Chunks × Json.Value))
    (h : (ofChars name).all (fun b => b.toNat < 0x80) = true) :
    (member name value :: ms).find? (fun m => Json.unquote m.1 = ofChars sought) =
      if ofChars name = ofChars sought then some (member name value)
      else ms.find? fun m => Json.unquote m.1 = ofChars sought := by
  rw [List.find?_cons, unquote_member value h]
  split_ifs with hname
  · simp [hname]
  · simp [hname]

/-- The texts are read back with their stray bytes replaced; an empty trace is not there. -/
theorem readField_record (attempt : Int) (at_ : Time) (error trace : Bytes) :
    let text := Json.print (recordJson attempt at_ error trace)
    readField "error".toList text = some (Go.Utf8.toValid error) ∧
      (readField "trace".toList text).getD [] = Go.Utf8.toValid trace := by
  have hskip : ∀ sought : List Char, ofChars "attempt".toList ≠ ofChars sought →
      ofChars "at".toList ≠ ofChars sought →
      readField sought (Json.print (recordJson attempt at_ error trace)) =
        (List.find? (fun m => Json.unquote m.1 = ofChars sought)
          (member "error".toList (.str (Json.encodeString error)) ::
            if trace = [] then [] else [member "trace".toList (.str (Json.encodeString trace))])).bind
          fun m => asString m.2 := by
    intro sought hattempt hat
    simp only [readField, Json.parse_print, recordJson, List.cons_append, List.nil_append]
    rw [find?_member _ _ _ (by decide), if_neg hattempt, find?_member _ _ _ (by decide), if_neg hat]
  intro text
  constructor
  · rw [hskip _ (by decide) (by decide), find?_member _ _ _ (by decide), if_pos rfl]
    exact congrArg some (Json.unquote_encodeString error)
  · rw [hskip _ (by decide) (by decide), find?_member _ _ _ (by decide), if_neg (by decide)]
    split_ifs with hempty
    · rw [hempty]
      rfl
    · rw [find?_member _ _ _ (by decide), if_pos rfl]
      exact Json.unquote_encodeString trace

/-! ## What `dispose` hands over -/

/-- The record a fate carries. -/
def detail? : Fate → Option Bytes
  | .cancelled detail => some detail
  | .failed _ detail => some detail
  | _ => none

section Dispose

variable {ε : Type} {cfg : Config ε} {env : Surroundings} {row : JobRow} {err : Error ε}

/-- `dispose` defers the job, or records what the error says and what trace it carries. -/
theorem dispose_cases {fate : Option Fate} (h : (dispose cfg env row err).Returns fate) :
    (∃ d, (classifyOutcome cfg.methods err).Returns (.snoozed d) ∧ fate = some (.snoozed d)) ∨
      ∃ outcome text trace, (∀ d, outcome ≠ Outcome.snoozed d) ∧
        (classifyOutcome cfg.methods err).Returns outcome ∧
        err.error cfg.methods = .returned text ∧ (stackOf cfg.methods err).Returns trace ∧
        fate = (env.marshal ⟨row.attempt, env.recordedAt, text, trace⟩).map fun detail =>
          if outcome = .cancelled then .cancelled detail else .failed (retryAt cfg env row) detail := by
  unfold dispose at h
  obtain ⟨outcome, houtcome, h⟩ := Fuelled.returns_bind.mp h
  cases outcome with
  | snoozed d => exact Or.inl ⟨d, houtcome, (Fuelled.returns_pure.mp h).symm⟩
  | failed =>
      obtain ⟨text, htext, h⟩ := Fuelled.returns_bind.mp h
      obtain ⟨trace, htrace, h⟩ := Fuelled.returns_bind.mp h
      exact Or.inr ⟨.failed, text, trace, by simp, houtcome, Fuelled.returns_lift.mp htext, htrace,
        (Fuelled.returns_pure.mp h).symm⟩
  | cancelled =>
      obtain ⟨text, htext, h⟩ := Fuelled.returns_bind.mp h
      obtain ⟨trace, htrace, h⟩ := Fuelled.returns_bind.mp h
      exact Or.inr ⟨.cancelled, text, trace, by simp, houtcome, Fuelled.returns_lift.mp htext, htrace,
        (Fuelled.returns_pure.mp h).symm⟩

/-- The text `dispose` hands over is the record of what the error says and of its trace. -/
theorem detail_of_dispose {fate : Fate} {detail : Bytes}
    (h : (dispose cfg env row err).Returns (some fate)) (hdetail : detail? fate = some detail) :
    ∃ text trace, err.error cfg.methods = .returned text ∧ (stackOf cfg.methods err).Returns trace ∧
      env.marshal ⟨row.attempt, env.recordedAt, text, trace⟩ = some detail := by
  rcases dispose_cases h with ⟨d, -, hfate⟩ | ⟨outcome, text, trace, -, -, htext, htrace, hfate⟩
  · cases hfate
    cases hdetail
  · obtain ⟨marshalled, hmarshal, rfl⟩ := Option.map_eq_some_iff.mp hfate.symm
    refine ⟨text, trace, htext, htrace, ?_⟩
    rw [hmarshal]
    split_ifs at hdetail <;> exact hdetail

end Dispose

theorem marshalRecord_eq_some {attempt : Int} {at_ : Time} {error trace text : Bytes}
    (h : marshalRecord attempt at_ error trace = some text) :
    text = Json.print (recordJson attempt at_ error trace) := by
  unfold marshalRecord at h
  split_ifs at h
  exact (Option.some.inj h).symm

/-- Whatever error a job ends with, the record `dispose` hands to `MarkRetryable`, `MarkDead` or
`MarkCancelled` is read back as what the error says and the trace it carries, with stray bytes
replaced; and the cast to `jsonb` accepts it exactly when neither has a NUL byte.  The record of
`requeue` is always accepted. -/
theorem failure_records_storable_iff {ε : Type} (fmt : Fmt) (cfg : Config ε) (env : Surroundings) :
    (∀ row err fate detail,
      (dispose cfg { env with marshal := fmt.marshal } row err).Returns (some fate) →
      detail? fate = some detail →
        ∃ text trace, err.error cfg.methods = .returned text ∧
          (stackOf cfg.methods err).Returns trace ∧
          (Json.castsToJsonb detail = true ↔ (0 : UInt8) ∉ text.text fmt ∧ (0 : UInt8) ∉ trace) ∧
          readField "error".toList detail = some (Go.Utf8.toValid (text.text fmt)) ∧
          (readField "trace".toList detail).getD [] = Go.Utf8.toValid trace) ∧
    ∀ lease now detail, requeueRecord lease now = some detail →
      Json.castsToJsonb detail = true ∧
        readField "error".toList detail = some errShutdownRequeued := by
  constructor
  · intro row err fate detail h hdetail
    obtain ⟨text, trace, htext, htrace, hmarshal⟩ := detail_of_dispose h hdetail
    rw [marshalRecord_eq_some hmarshal]
    exact ⟨text, trace, htext, htrace, castsToJsonb_record _ _ _ _, readField_record _ _ _ _⟩
  · intro lease now detail h
    rw [marshalRecord_eq_some h]
    refine ⟨(castsToJsonb_record _ _ _ _).mpr ⟨by decide, by simp⟩, ?_⟩
    rw [(readField_record _ _ _ _).1, Go.Utf8.toValid_of_text (Go.Utf8.text_of_ascii (by decide))]

/-- A worker cancels its job for a reason that has a NUL byte. -/
def nulReason : Config Unit :=
  { methods := fun _ =>
      { error := .returned (ofChars "drover: job cancelled by handler: ".toList ++ [0])
        is := none
        as := none
        unwrap := .one (.returned (some (.sentinel .cancelled))) }
    workers := fun _ => some fun _ => .returned (some (.own ()))
    middlewares := []
    retryPolicy := fun _ => .returned 0 }

/-- The record of its cancellation is not accepted. -/
theorem nulReason_refused :
    let fmt : Fmt := ⟨fun _ => [], fun kind => kind⟩
    let env : Surroundings := ⟨fun _ => [], 0, 0, 0, fmt.marshal⟩
    let row := Memdriver.jobFromParams 1 ⟨[], [], [], 0, []⟩ 1
    ∃ detail, (runJob nulReason env row).Returns (some (.cancelled detail)) ∧
      Json.castsToJsonb detail = false := by
  intro fmt env row
  refine ⟨_, ⟨2, rfl⟩, ?_⟩
  rw [← Bool.not_eq_true, castsToJsonb_record]
  decide

end Drover.Client
