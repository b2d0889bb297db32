import Drover.Go.Format
import Drover.Go.Url
import Drover.Pgdriver.Operator
import Drover.Pgdriver.Reads

set_option autoImplicit false

/-!
# The status page (`cmd/drover/web.go`)

A page is a query away from the next one: it refreshes itself under a URL it builds from
its filters, its buttons post those filters in hidden fields, and a post answers with a
redirect that carries them, together with what became of the job, in another query.  The file
has the handler with its queries as byte strings, over any store an inspector can look
after.
-/

namespace Drover.Web

open Drover.Foundation
open Drover.Foundation.Bytes (ascii ofChars)
open Drover.Driver
open Drover.Driver.Operator (Action Refusal Contract refuses)
open Drover.Go

/-! ## Filters -/

/-- `filterView`. -/
structure FilterView where
  queue : Bytes
  state : Bytes
  limit : Int
  deriving DecidableEq, Repr

/-- The errors of `parsePageFilters`. -/
inductive FilterError where
  /-- `limit must be an integer between 1 and 1000` -/
  | limit
  /-- `invalid job state %q` -/
  | state (text : Bytes)
  deriving DecidableEq, Repr

/-- `droverDefaultListLimit`. -/
def droverDefaultListLimit : Int := 100

/-- `knownJobStates`. -/
def knownJobStates : List Bytes :=
  [JobState.available, .scheduled, .running, .retryable, .completed, .cancelled, .dead].map
    JobState.text

/-- The form value for every state. -/
def all : Bytes := ofChars ['a', 'l', 'l']

/-- The fields of a query. -/
inductive Field where
  | queue
  | state
  | limit
  | id
  | notice
  | error
  deriving DecidableEq, Repr

/-- The name a field has in a query. -/
def Field.text : Field → Bytes
  | .queue => ofChars ['q', 'u', 'e', 'u', 'e']
  | .state => ofChars ['s', 't', 'a', 't', 'e']
  | .limit => ofChars ['l', 'i', 'm', 'i', 't']
  | .id => ofChars ['i', 'd']
  | .notice => ofChars ['n', 'o', 't', 'i', 'c', 'e']
  | .error => ofChars ['e', 'r', 'r', 'o', 'r']

/-- `q.Get`. -/
def field (q : Values) (f : Field) : Bytes := q.get f.text

/-- `v.Set`. -/
def setField (v : Values) (f : Field) (value : Bytes) : Values := v.set f.text value

/-- `v.Set` under a condition. -/
def setIf (condition : Bool) (f : Field) (value : Bytes) (v : Values) : Values :=
  if condition then setField v f value else v

/-- The limit a query asks for. -/
def parseLimit (text : Bytes) : Except FilterError Int :=
  if text = [] then .ok droverDefaultListLimit
  else
    match atoi text with
    | none => .error .limit
    | some n => if n.toInt < 1 ∨ n.toInt > 1000 then .error .limit else .ok n.toInt

/-- The state a query asks for. -/
def stateOf (q : Values) : Bytes :=
  if field q .state = [] then JobState.dead.text else field q .state

/-- `parsePageFilters`. -/
def parsePageFilters (q : Values) : Except FilterError FilterView :=
  match parseLimit (field q .limit) with
  | .error err => .error err
  | .ok limit =>
      if stateOf q ≠ all ∧ !knownJobStates.contains (stateOf q) then .error (.state (stateOf q))
      else .ok ⟨field q .queue, stateOf q, limit⟩

/-- `drover.ListJobsOpts`. -/
structure ListJobsOpts where
  queue : Bytes
  state : Bytes
  limit : Int
  deriving DecidableEq, Repr

/-- `listOptsFromFilters`. -/
def listOptsFromFilters (f : FilterView) : ListJobsOpts :=
  ⟨f.queue, if f.state ≠ all then f.state else [], f.limit⟩

/-- The values of a `refreshURL`. -/
def refreshValues (f : FilterView) : Values :=
  setIf (f.limit ≠ droverDefaultListLimit) .limit (appendInt f.limit 0) <|
    setIf (f.state ≠ [] ∧ f.state ≠ JobState.dead.text) .state f.state <|
    setIf (f.queue ≠ []) .queue f.queue Table.empty

/-- `refreshURL`. -/
def refreshURL (f : FilterView) : Bytes :=
  let enc := (refreshValues f).encode
  if enc = [] then [ascii '/'] else [ascii '/'] ++ ascii '?' :: enc

/-- `refreshSeconds`. -/
def refreshSeconds (d : Duration) : Int := if d ≤ 0 then 0 else d / second

/-! ## What became of a job -/

/-- What a post is called once it is done. -/
def notice : Action → Bytes
  | .redrive => ofChars ['r', 'e', 't', 'r', 'i', 'e', 'd']
  | .cancel => ofChars ['c', 'a', 'n', 'c', 'e', 'l', 'l', 'e', 'd']

/-- What a refusal is called in a query. -/
def errorName : Refusal → Bytes
  | .notFound => ofChars ['n', 'o', 't', '_', 'f', 'o', 'u', 'n', 'd']
  | .invalidTransition =>
      ofChars ['i', 'n', 'v', 'a', 'l', 'i', 'd', '_', 't', 'r', 'a', 'n', 's', 'i', 't', 'i', 'o', 'n']

/-- The values of a `mutationRedirect`. -/
def mutationValues (form : Values) (action : Action) (mutErr : Option Refusal) (id : Int) : Values :=
  let v := setIf (field form .limit ≠ []) .limit (field form .limit) <|
    setIf (field form .state ≠ []) .state (field form .state) <|
    setIf (field form .queue ≠ []) .queue (field form .queue) Table.empty
  let v := setField v .id (appendInt id 0)
  match mutErr with
  | none => setField v .notice (notice action)
  | some why => setField v .error (errorName why)

/-- `mutationRedirect`, after errors that are no refusal have been answered. -/
def mutationRedirect (form : Values) (action : Action) (mutErr : Option Refusal) (id : Int) :
    Bytes :=
  [ascii '/'] ++ ascii '?' :: (mutationValues form action mutErr id).encode

/-- The message of a page, or none. -/
inductive Flash where
  /-- `redrove job %d`, a notice -/
  | redrove (id : Int)
  /-- `cancelled job %d`, a notice -/
  | cancelled (id : Int)
  /-- `job %d not found`, an error -/
  | notFound (id : Int)
  /-- `job %d refused the transition`, an error -/
  | refused (id : Int)
  deriving DecidableEq, Repr

/-- `flashFromQuery`. -/
def flashFromQuery (q : Values) : Option Flash :=
  match atoi (field q .id) with
  | none => none
  | some id =>
      if id.toInt ≤ 0 then none
      else if field q .notice = notice .redrive then some (.redrove id.toInt)
      else if field q .notice = notice .cancel then some (.cancelled id.toInt)
      else if field q .error = errorName .notFound then some (.notFound id.toInt)
      else if field q .error = errorName .invalidTransition then some (.refused id.toInt)
      else none

/-- `parseJobID`. -/
def parseJobID (s : Bytes) : Option Int :=
  match atoi (trimSpace s) with
  | none => none
  | some id => if id.toInt ≤ 0 then none else some id.toInt

/-! ## The inspector (`inspector.go`) -/

/-- The calls of a driver that the page makes, over a store `σ`: an operator action may
fail with an `ε` and a read with a `ρ`. -/
structure Backend (σ ε ρ : Type) where
  stats : Time → σ → Except ρ Stats
  listJobs : σ → ListJobsParams → Except ρ (List JobRow)
  mutate : Time → σ → Action → Int → σ × Except ε JobRow
  /-- which of the two refusals an error wraps, if any -/
  refusal : ε → Option Refusal

/-- The errors of an inspector. -/
inductive InspectorError (ε : Type) where
  /-- `ErrNotFound: %s` -/
  | notFound (cause : ε)
  /-- `ErrInvalidTransition: %s` -/
  | invalidTransition (cause : ε)
  /-- `drover: %w` -/
  | driver (cause : ε)
  /-- `drover: list limit %d exceeds maximum %d` -/
  | listLimit (limit : Int)

/-- Which of the two sentinels of the package `errors.Is` finds. -/
def InspectorError.refusal {ε : Type} : InspectorError ε → Option Refusal
  | .notFound _ => some .notFound
  | .invalidTransition _ => some .invalidTransition
  | _ => none

section Handler

variable {σ ε ρ : Type} (b : Backend σ ε ρ)

/-- `mapDriverErr`. -/
def mapDriverErr (err : ε) : InspectorError ε :=
  match b.refusal err with
  | some .notFound => .notFound err
  | some .invalidTransition => .invalidTransition err
  | none => .driver err

/-- `Inspector.ListJobs`. -/
def inspectorListJobs (s : σ) (opts : ListJobsOpts) : Except (InspectorError ρ) (List JobRow) :=
  let limit := if opts.limit > 0 then opts.limit else 100
  if limit > 1000 then .error (.listLimit limit)
  else (b.listJobs s ⟨opts.queue, opts.state, limit⟩).mapError .driver

/-! ## The handler -/

/-- `jobView`. -/
structure JobView where
  row : JobRow
  canRetry : Bool
  canCancel : Bool

/-- `cancellableState` of the page. -/
def cancellableState : JobState → Bool
  | .available | .scheduled | .retryable | .dead => true
  | _ => false

/-- `viewForJob`. -/
def viewForJob (row : JobRow) : JobView := ⟨row, row.state == .dead, cancellableState row.state⟩

/-- `pageData`. -/
structure PageData where
  stats : Stats
  jobs : List JobView
  filters : FilterView
  refreshSeconds : Int
  refreshURL : Bytes
  flash : Option Flash

/-- What a request asks for, by the pattern of the mux it matches. -/
inductive Target where
  /-- `GET /` -/
  | page (query : Values)
  /-- `GET /jobs/{id}/retry` or `GET /jobs/{id}/cancel` -/
  | form
  /-- `POST /jobs/{id}/retry` or `POST /jobs/{id}/cancel`, with what `ParseForm` makes of it -/
  | post (action : Action) (id : Bytes) (form : Values × Option QueryError)
  | other

/-- A request.  An absent header is an empty one. -/
structure Request where
  host : Bytes
  origin : Bytes
  referer : Bytes
  target : Target

/-- What `writeHTML` says. -/
inductive Message (ε ρ : Type) where
  /-- `method not allowed` -/
  | methodNotAllowed
  /-- `not found` -/
  | notFound
  /-- `cross-origin request refused` -/
  | crossOrigin
  /-- `invalid job id %q` -/
  | jobID (text : Bytes)
  | form (err : QueryError)
  | filters (err : FilterError)
  | mutation (err : InspectorError ε)
  | reading (err : InspectorError ρ)

inductive Response (ε ρ : Type) where
  | page (data : PageData)
  | html (code : Nat) (msg : Message ε ρ)
  /-- `303 See Other` -/
  | redirect (url : Bytes)

/-- `sameOrigin`; `parseHost` is `url.Parse` up to the host. -/
def sameOrigin (parseHost : Bytes → Option Bytes) (r : Request) : Bool :=
  if r.origin ≠ [] then parseHost r.origin == some r.host
  else if r.referer = [] then false
  else parseHost r.referer == some r.host

/-- `postMutation`, with `Inspector.RetryJob` or `Inspector.CancelJob`. -/
def postMutation (parseHost : Bytes → Option Bytes) (now : Time) (s : σ) (r : Request)
    (action : Action) (idText : Bytes) (form : Values × Option QueryError) : σ × Response ε ρ :=
  if !sameOrigin parseHost r then (s, .html 403 .crossOrigin)
  else
    match parseJobID idText with
    | none => (s, .html 400 (.jobID idText))
    | some id =>
        match form.2 with
        | some err => (s, .html 400 (.form err))
        | none =>
            match b.mutate now s action id with
            | (s', .ok _) => (s', .redirect (mutationRedirect form.1 action none id))
            | (s', .error err) =>
                match (mapDriverErr b err).refusal with
                | none => (s', .html 500 (.mutation (mapDriverErr b err)))
                | some why => (s', .redirect (mutationRedirect form.1 action (some why) id))

/-- `getPage`. -/
def getPage (refresh : Duration) (now : Time) (s : σ) (query : Values) : Response ε ρ :=
  match parsePageFilters query with
  | .error err => .html 400 (.filters err)
  | .ok filters =>
      match b.stats now s with
      | .error err => .html 500 (.reading (.driver err))
      | .ok stats =>
          match inspectorListJobs b s (listOptsFromFilters filters) with
          | .error err => .html 500 (.reading err)
          | .ok jobs =>
              .page {
                stats := stats
                jobs := jobs.map viewForJob
                filters := filters
                refreshSeconds := refreshSeconds refresh
                refreshURL := refreshURL filters
                flash := flashFromQuery query }

/-- `newStatusHandler`. -/
def serve (parseHost : Bytes → Option Bytes) (refresh : Duration) (now : Time) (s : σ) (r : Request) :
    σ × Response ε ρ :=
  match r.target with
  | .page query => (s, getPage b refresh now s query)
  | .form => (s, .html 405 .methodNotAllowed)
  | .post action id form => postMutation b parseHost now s r action id form
  | .other => (s, .html 404 .notFound)

end Handler

/-- The page over the in-memory driver. -/
def memdriver : Backend Memdriver.Driver DriverError DriverError where
  stats now d := .ok (d.stats now)
  listJobs d p := d.listJobs p
  mutate now d action id := d.operator now id action
  refusal := Operator.refusal

/-- The page over the Postgres driver. -/
def pgdriver (pg : Pgdriver.Postgres) (depths : Visit QueueDepth) (ages : Visit QueueAge) :
    Backend (Pgdriver.Database pg) Pgdriver.PgError Pgdriver.ReadError where
  stats now db := .ok (Pgdriver.stats db db depths ages now)
  listJobs db p := db.listJobs p
  mutate now db action id := db.operator now id action
  refusal := Pgdriver.refusal

/-- The hidden fields of a button (`webui/page.html`), posted as the page has them.  A browser
does that for valid UTF-8 without NUL and line breaks: the template writes a NUL as U+FFFD, a
byte that is no UTF-8 is read as U+FFFD, and a line break is posted as CRLF. -/
def buttonForm (f : FilterView) : Values :=
  setField (setField (setField Table.empty .queue f.queue) .state f.state) .limit
    (appendInt f.limit 0)

/-! ## Queries read back -/

theorem Field.text_inj {f g : Field} : f.text = g.text ↔ f = g := by
  cases f <;> cases g <;> decide

@[simp] theorem field_empty (f : Field) : field Table.empty f = [] := rfl

@[simp] theorem field_setField (v : Values) (f g : Field) (value : Bytes) :
    field (setField v f value) g = if f = g then value else field v g := by
  simp only [field, setField, Values.get_set, Field.text_inj]

@[simp] theorem field_setIf (condition : Bool) (f g : Field) (value : Bytes) (v : Values) :
    field (setIf condition f value v) g =
      if condition = true ∧ f = g then value else field v g := by
  unfold setIf
  cases condition <;> simp

theorem field_queryOf_page (v : Values) (f : Field) :
    field (queryOf ([ascii '/'] ++ ascii '?' :: v.encode)) f = field v f :=
  get_queryOf [ascii '/'] (by decide) (by decide) v f.text

/-- An empty query says nothing. -/
theorem field_of_encode_nil {v : Values} (h : v.encode = []) (f : Field) : field v f = [] := by
  unfold field
  rw [← Values.get_parseQuery_encode, h]
  rfl

theorem field_queryOf_refreshURL (f : FilterView) (g : Field) :
    field (queryOf (refreshURL f)) g = field (refreshValues f) g := by
  unfold refreshURL
  dsimp only
  split
  · rename_i hnil
    rw [field_of_encode_nil hnil]
    rfl
  · exact field_queryOf_page _ g

/-- What `parsePageFilters` accepts. -/
structure FilterView.Valid (f : FilterView) : Prop where
  limit : 1 ≤ f.limit ∧ f.limit ≤ 1000
  nonempty : f.state ≠ []
  state : f.state = all ∨ f.state ∈ knownJobStates

theorem parseLimit_appendInt {n : Int} (h : 1 ≤ n ∧ n ≤ 1000) : parseLimit (appendInt n 0) = .ok n := by
  have hne : appendInt n 0 ≠ [] := by
    rw [appendInt_eq, if_neg (by omega), List.nil_append]
    simp [ofChars, Nat.toDigits_ne_nil]
  have hread : atoi (appendInt n 0) = some (Int64.ofInt n) :=
    atoi_appendInt (by omega) (by unfold maxInt; omega)
  have hvalue : (Int64.ofInt n).toInt = n := Int64.toInt_ofInt_of_le (by omega) (by omega)
  rw [parseLimit, if_neg hne, hread]
  simp only [hvalue]
  exact if_neg (by omega)

theorem parseLimit_bounds {text : Bytes} {n : Int} (h : parseLimit text = .ok n) :
    1 ≤ n ∧ n ≤ 1000 := by
  unfold parseLimit at h
  split at h
  · cases h
    decide
  · split at h
    · cases h
    · split at h
      · cases h
      · cases h
        omega

theorem valid_of_parsePageFilters {q : Values} {f : FilterView} (h : parsePageFilters q = .ok f) :
    f.Valid := by
  unfold parsePageFilters at h
  split at h
  · cases h
  · rename_i limit hlimit
    split at h
    · cases h
    · rename_i hstate
      cases h
      refine ⟨parseLimit_bounds hlimit, ?_, ?_⟩
      · show stateOf q ≠ []
        unfold stateOf
        split
        · decide
        · assumption
      · by_contra hneither
        obtain ⟨hall, hknown⟩ := not_or.mp hneither
        exact hstate ⟨hall, by simpa using hknown⟩

/-- A query that says the filters, or leaves out what is the default. -/
theorem parsePageFilters_eq {q : Values} {f : FilterView} (h : f.Valid)
    (hqueue : field q .queue = f.queue)
    (hstate : field q .state = f.state ∨ field q .state = [] ∧ f.state = JobState.dead.text)
    (hlimit : field q .limit = appendInt f.limit 0 ∨
      field q .limit = [] ∧ f.limit = droverDefaultListLimit) :
    parsePageFilters q = .ok f := by
  have hread : stateOf q = f.state := by
    unfold stateOf
    rcases hstate with heq | ⟨hnone, heq⟩
    · rw [heq, if_neg h.nonempty]
    · rw [if_pos hnone, heq]
  have hbound : parseLimit (field q .limit) = .ok f.limit := by
    rcases hlimit with heq | ⟨hnone, heq⟩
    · rw [heq, parseLimit_appendInt h.limit]
    · rw [hnone, heq]
      rfl
  have hknown : ¬(f.state ≠ all ∧ !knownJobStates.contains f.state) := by
    rintro ⟨hall, hcontains⟩
    exact h.state.elim hall (by simpa using hcontains)
  unfold parsePageFilters
  rw [hread, hbound, hqueue]
  dsimp only
  rw [if_neg hknown]

/-- The refresh comes back to the filters. -/
theorem parsePageFilters_refreshURL {f : FilterView} (h : f.Valid) :
    parsePageFilters (queryOf (refreshURL f)) = .ok f := by
  refine parsePageFilters_eq h ?_ ?_ ?_
  · rw [field_queryOf_refreshURL]
    by_cases hqueue : f.queue = [] <;> simp [refreshValues, hqueue]
  · rw [field_queryOf_refreshURL]
    by_cases hdead : f.state = JobState.dead.text
    · exact Or.inr ⟨by simp [refreshValues, hdead], hdead⟩
    · exact Or.inl (by simp [refreshValues, hdead, h.nonempty])
  · rw [field_queryOf_refreshURL]
    by_cases hlimit : f.limit = droverDefaultListLimit
    · exact Or.inr ⟨by simp [refreshValues, hlimit], hlimit⟩
    · exact Or.inl (by simp [refreshValues, hlimit])

/-- A redirect says the filters of the form. -/
theorem field_mutationRedirect {form : Values} {action : Action} {mutErr : Option Refusal} {id : Int}
    {f : Field} (h : f = .queue ∨ f = .state ∨ f = .limit) :
    field (queryOf (mutationRedirect form action mutErr id)) f = field form f := by
  rw [mutationRedirect, field_queryOf_page]
  unfold mutationValues
  rcases h with rfl | rfl | rfl
  all_goals cases mutErr <;> simp

theorem parsePageFilters_congr {q q' : Values}
    (h : ∀ f : Field, f = .queue ∨ f = .state ∨ f = .limit → field q f = field q' f) :
    parsePageFilters q = parsePageFilters q' := by
  unfold parsePageFilters stateOf
  rw [h .queue (by simp), h .state (by simp), h .limit (by simp)]

/-- The form of a button says its filters. -/
theorem parsePageFilters_buttonForm {f : FilterView} (h : f.Valid) :
    parsePageFilters (parseQuery (buttonForm f).encode).1 = .ok f := by
  have hfield : ∀ g, field (parseQuery (buttonForm f).encode).1 g = field (buttonForm f) g :=
    fun g => Values.get_parseQuery_encode _ _
  refine parsePageFilters_eq h ?_ (Or.inl ?_) (Or.inl ?_)
  · rw [hfield]
    simp [buttonForm]
  · rw [hfield]
    simp [buttonForm]
  · rw [hfield]
    simp [buttonForm]

/-- What a page says of an action that was done. -/
def doneFlash : Action → Int → Flash
  | .redrive, id => .redrove id
  | .cancel, id => .cancelled id

/-- What a page says of an action that was refused. -/
def refusedFlash : Refusal → Int → Flash
  | .notFound, id => .notFound id
  | .invalidTransition, id => .refused id

theorem flash_mutationRedirect (form : Values) (action : Action) (mutErr : Option Refusal) {id : Int}
    (hpos : 0 < id) (hmax : id ≤ maxInt) :
    flashFromQuery (queryOf (mutationRedirect form action mutErr id)) =
      some (mutErr.elim (doneFlash action id) (refusedFlash · id)) := by
  have hread : atoi (appendInt id 0) = some (Int64.ofInt id) := atoi_appendInt (by omega) hmax
  have hvalue : (Int64.ofInt id).toInt = id := by
    unfold maxInt at hmax
    exact Int64.toInt_ofInt_of_le (by omega) (by omega)
  have hnotice : notice .cancel ≠ notice .redrive := by decide
  have hsilent : ∀ action, [] ≠ notice action := by
    intro action
    cases action <;> decide
  have herror : errorName .invalidTransition ≠ errorName .notFound := by decide
  unfold flashFromQuery
  simp only [mutationRedirect, field_queryOf_page]
  cases mutErr with
  | none =>
      cases action <;>
        simp [mutationValues, hread, hvalue, hnotice, doneFlash, Int.not_le.mpr hpos]
  | some why =>
      cases why <;>
        simp [mutationValues, hread, hvalue, hsilent, herror, refusedFlash, Int.not_le.mpr hpos]

/-! ## From page to page -/

section Pages

variable {σ ε ρ : Type}

/-- The ways a request is answered. -/
inductive Answered (b : Backend σ ε ρ) (parseHost : Bytes → Option Bytes) (refresh : Duration)
    (now : Time) (s : σ) (r : Request) : σ → Response ε ρ → Prop where
  | page {query : Values} {filters : FilterView} {stats : Stats} {jobs : List JobView}
      (hfilters : parsePageFilters query = .ok filters) :
      Answered b parseHost refresh now s r s (.page ⟨stats, jobs, filters, refreshSeconds refresh,
        refreshURL filters, flashFromQuery query⟩)
  | html (code : Nat) (msg : Message ε ρ) : Answered b parseHost refresh now s r s (.html code msg)
  /-- an action failed, and not for what it found -/
  | failed {action : Action} {id : Int} {s' : σ} {err : ε}
      (h : b.mutate now s action id = (s', .error err)) (hother : b.refusal err = none) :
      Answered b parseHost refresh now s r s' (.html 500 (.mutation (mapDriverErr b err)))
  | done {action : Action} {idText : Bytes} {form : Values × Option QueryError} {id : Int} {s' : σ}
      {row : JobRow} (htarget : r.target = .post action idText form)
      (horigin : sameOrigin parseHost r = true) (hid : parseJobID idText = some id)
      (h : b.mutate now s action id = (s', .ok row)) :
      Answered b parseHost refresh now s r s' (.redirect (mutationRedirect form.1 action none id))
  | refused {action : Action} {idText : Bytes} {form : Values × Option QueryError} {id : Int} {s' : σ}
      {err : ε} {why : Refusal} (htarget : r.target = .post action idText form)
      (horigin : sameOrigin parseHost r = true) (hid : parseJobID idText = some id)
      (h : b.mutate now s action id = (s', .error err)) (hwhy : b.refusal err = some why) :
      Answered b parseHost refresh now s r s'
        (.redirect (mutationRedirect form.1 action (some why) id))

theorem refusal_mapDriverErr (b : Backend σ ε ρ) (err : ε) :
    (mapDriverErr b err).refusal = b.refusal err := by
  unfold mapDriverErr
  cases b.refusal err with
  | none => rfl
  | some why => cases why <;> rfl

theorem answered_serve (b : Backend σ ε ρ) (parseHost : Bytes → Option Bytes) (refresh : Duration)
    (now : Time) (s : σ) (r : Request) :
    Answered b parseHost refresh now s r (serve b parseHost refresh now s r).1
      (serve b parseHost refresh now s r).2 := by
  unfold serve
  cases htarget : r.target with
  | page query =>
      dsimp only
      unfold getPage
      split
      · exact .html _ _
      · rename_i hfilters
        split
        · exact .html _ _
        · split
          · exact .html _ _
          · exact .page hfilters
  | form => exact .html _ _
  | other => exact .html _ _
  | post action idText form =>
      dsimp only
      unfold postMutation
      cases horigin : sameOrigin parseHost r with
      | false => exact .html _ _
      | true =>
          simp only [Bool.not_true, Bool.false_eq_true, if_false]
          cases hid : parseJobID idText with
          | none => exact .html _ _
          | some id =>
              dsimp only
              split
              · exact .html _ _
              · split
                · rename_i hmutate
                  exact .done htarget horigin hid hmutate
                · rename_i s' err hmutate
                  rw [refusal_mapDriverErr]
                  cases hwhy : b.refusal err with
                  | none => exact .failed hmutate hwhy
                  | some why => exact .refused htarget horigin hid hmutate hwhy

/-- The links of a page lead back to its filters: the URL it refreshes itself under, and the
page that any of its buttons leads to, whatever became of the job meanwhile. -/
theorem links_keep_filters (b : Backend σ ε ρ) (parseHost : Bytes → Option Bytes) (refresh : Duration)
    {now : Time} {s : σ} {r : Request} {data : PageData}
    (h : (serve b parseHost refresh now s r).2 = .page data) :
    parsePageFilters (queryOf data.refreshURL) = .ok data.filters ∧
    ∀ (now' : Time) (s' : σ) (r' : Request) (action : Action) (idText url : Bytes),
      r'.target = .post action idText (parseQuery (buttonForm data.filters).encode) →
      (serve b parseHost refresh now' s' r').2 = .redirect url →
      parsePageFilters (queryOf url) = .ok data.filters := by
  obtain ⟨hvalid, hrefresh⟩ : data.filters.Valid ∧ data.refreshURL = refreshURL data.filters := by
    have hanswer := answered_serve b parseHost refresh now s r
    rw [h] at hanswer
    generalize (serve b parseHost refresh now s r).1 = after at hanswer
    cases hanswer with
    | page hfilters => exact ⟨valid_of_parsePageFilters hfilters, rfl⟩
  refine ⟨by rw [hrefresh, parsePageFilters_refreshURL hvalid], ?_⟩
  intro now' s' r' action idText url htarget hurl
  have hanswer := answered_serve b parseHost refresh now' s' r'
  rw [hurl] at hanswer
  generalize (serve b parseHost refresh now' s' r').1 = after at hanswer
  -- the form of the redirect is that of the button
  obtain ⟨action, mutErr, id, rfl⟩ : ∃ action mutErr id, url =
      mutationRedirect (parseQuery (buttonForm data.filters).encode).1 action mutErr id := by
    cases hanswer with
    | done htarget' =>
        rw [htarget] at htarget'
        cases htarget'
        exact ⟨_, _, _, rfl⟩
    | refused htarget' =>
        rw [htarget] at htarget'
        cases htarget'
        exact ⟨_, _, _, rfl⟩
  rw [parsePageFilters_congr fun f hf => field_mutationRedirect hf,
    parsePageFilters_buttonForm hvalid]

/-- The jobs of the queue `a&b`, seven of them at most. -/
def sevenOf : Request :=
  ⟨[], [], [], .page (setField (setField Table.empty .queue (ofChars ['a', '&', 'b'])) .limit
    (ofChars ['7']))⟩

/-- The button of job 1 on a page with these filters. -/
def retryOne (f : FilterView) : Request :=
  ⟨[], ofChars ['o'], [], .post .redrive (ofChars ['1']) (parseQuery (buttonForm f).encode)⟩

/-- Over an empty store, where the button finds no job. -/
theorem sevenOf_keeps_filters :
    ∃ data url,
      (serve memdriver (fun _ => some []) 0 0 Memdriver.new sevenOf).2 = .page data ∧
      data.filters = ⟨ofChars ['a', '&', 'b'], JobState.dead.text, 7⟩ ∧
      parsePageFilters (queryOf data.refreshURL) = .ok data.filters ∧
      (serve memdriver (fun _ => some []) 0 0 Memdriver.new (retryOne data.filters)).2 =
        .redirect url ∧
      parsePageFilters (queryOf url) = .ok data.filters := by
  have hlinks := @links_keep_filters _ _ _ memdriver (fun _ => some []) 0 0 Memdriver.new sevenOf _ rfl
  exact ⟨_, _, rfl, by decide, hlinks.1, rfl,
    hlinks.2 0 Memdriver.new (retryOne _) .redrive (ofChars ['1']) _ rfl rfl⟩

/-- What an operator action comes to. -/
inductive Outcome (c : Contract σ ε) (now : Time) (s : σ) : σ × Except ε JobRow → Prop where
  | took {s' : σ} {row : JobRow} (h : c.Took now s s' row) : Outcome c now s (s', .ok row)
  | refused {err : ε} {why : Refusal} (herr : c.refusal err = some why)
      (hwhy : refuses c.eligible (c.state s) = some why) : Outcome c now s (s, .error err)
  | failed {err : ε} (herr : c.refusal err = none) : Outcome c now s (s, .error err)

/-- The operator actions of a backend are those of a contract. -/
structure Backend.Honours (b : Backend σ ε ρ) (c : Action → Int → Contract σ ε) : Prop where
  refusal : ∀ action id, (c action id).refusal = b.refusal
  outcome : ∀ now s action id, Outcome (c action id) now s (b.mutate now s action id)

/-- Where a redirect leads, at any time and over any store: to a page with the filters of the
form and the message, unless a read fails.  Filters that `parsePageFilters` refuses lead to an
error about them, which says nothing of the job. -/
structure Leads (b : Backend σ ε ρ) (form : Values) (url : Bytes) (flash : Flash) : Prop where
  shown : ∀ filters, parsePageFilters form = .ok filters → ∀ refresh now s,
    (∃ data, getPage b refresh now s (queryOf url) = .page data ∧ data.filters = filters ∧
      data.flash = some flash) ∨
    ∃ err, getPage b refresh now s (queryOf url) = .html 500 (.reading err)
  unreadable : ∀ err, parsePageFilters form = .error err → ∀ refresh now s,
    getPage b refresh now s (queryOf url) = .html 400 (.filters err)

theorem leads_mutationRedirect (b : Backend σ ε ρ) (form : Values) (action : Action)
    (mutErr : Option Refusal) {id : Int} (hpos : 0 < id) (hmax : id ≤ maxInt) :
    Leads b form (mutationRedirect form action mutErr id)
      (mutErr.elim (doneFlash action id) (refusedFlash · id)) := by
  have hfilters : parsePageFilters (queryOf (mutationRedirect form action mutErr id)) =
      parsePageFilters form := parsePageFilters_congr fun f hf => field_mutationRedirect hf
  have hflash := flash_mutationRedirect form action mutErr hpos hmax
  constructor
  · intro filters hok refresh now s
    unfold getPage
    rw [hfilters, hok]
    dsimp only
    split
    · exact Or.inr ⟨_, rfl⟩
    · split
      · exact Or.inr ⟨_, rfl⟩
      · exact Or.inl ⟨_, rfl, rfl, hflash⟩
  · intro err herr refresh now s
    unfold getPage
    rw [hfilters, herr]

/-- What a request does to the store is what the next page says of it. -/
structure Told (b : Backend σ ε ρ) (c : Action → Int → Contract σ ε)
    (parseHost : Bytes → Option Bytes) (now : Time) (s : σ) (r : Request) (s' : σ)
    (resp : Response ε ρ) : Prop where
  /-- a store that changed was changed by a post from the page itself, and the page it
  leads to says so -/
  changed : s' ≠ s → ∃ action idText form id row url,
    r.target = .post action idText form ∧ sameOrigin parseHost r = true ∧
    parseJobID idText = some id ∧ (c action id).Took now s s' row ∧ resp = .redirect url ∧
    Leads b form.1 url (doneFlash action id)
  /-- and a page that is led to says what happened -/
  said : ∀ url, resp = .redirect url → ∃ action idText form id,
    r.target = .post action idText form ∧ parseJobID idText = some id ∧
    ((∃ row, (c action id).Took now s s' row ∧ Leads b form.1 url (doneFlash action id)) ∨
      ∃ why, refuses (c action id).eligible ((c action id).state s) = some why ∧ s' = s ∧
        Leads b form.1 url (refusedFlash why id))

theorem bounds_of_parseJobID {text : Bytes} {id : Int} (h : parseJobID text = some id) :
    0 < id ∧ id ≤ maxInt := by
  unfold parseJobID at h
  split at h
  · cases h
  · rename_i n hn
    split at h
    · cases h
    · cases h
      have hlt := n.toInt_lt
      unfold maxInt
      omega

theorem Backend.Honours.told {b : Backend σ ε ρ} {c : Action → Int → Contract σ ε} (hb : b.Honours c)
    (parseHost : Bytes → Option Bytes) (refresh : Duration) (now : Time) (s : σ) (r : Request) :
    Told b c parseHost now s r (serve b parseHost refresh now s r).1
      (serve b parseHost refresh now s r).2 := by
  have hanswer := answered_serve b parseHost refresh now s r
  generalize (serve b parseHost refresh now s r).1 = s' at hanswer ⊢
  generalize (serve b parseHost refresh now s r).2 = resp at hanswer ⊢
  have houtcome : ∀ {action : Action} {id : Int} {answer : σ × Except ε JobRow},
      b.mutate now s action id = answer → Outcome (c action id) now s answer :=
    fun h => h ▸ hb.outcome now s _ _
  cases hanswer with
  | page hfilters => exact ⟨fun hne => absurd rfl hne, by simp⟩
  | html code msg => exact ⟨fun hne => absurd rfl hne, by simp⟩
  | failed h hother =>
      refine ⟨fun hne => ?_, by simp⟩
      cases houtcome h with
      | refused herr hwhy => exact absurd rfl hne
      | failed herr => exact absurd rfl hne
  | @done action idText form id _ row htarget horigin hid h =>
      obtain ⟨hpos, hmax⟩ := bounds_of_parseJobID hid
      have hleads := leads_mutationRedirect b form.1 action none hpos hmax
      cases houtcome h with
      | took htook =>
          refine ⟨fun _ => ⟨action, idText, form, id, row, _, htarget, horigin, hid, htook, rfl, hleads⟩,
            fun url hurl => ?_⟩
          cases hurl
          exact ⟨action, idText, form, id, htarget, hid, Or.inl ⟨row, htook, hleads⟩⟩
  | @refused action idText form id _ err why htarget horigin hid h hwhy =>
      obtain ⟨hpos, hmax⟩ := bounds_of_parseJobID hid
      have hleads := leads_mutationRedirect b form.1 action (some why) hpos hmax
      rw [← hb.refusal action id] at hwhy
      cases houtcome h with
      | refused herr hwhy' =>
          rw [hwhy] at herr
          cases herr
          refine ⟨fun hne => absurd rfl hne, fun url hurl => ?_⟩
          cases hurl
          exact ⟨action, idText, form, id, htarget, hid, Or.inr ⟨why, hwhy', rfl, hleads⟩⟩
      | failed herr =>
          rw [hwhy] at herr
          cases herr

/-- An action that nothing refuses is all there is to look at. -/
theorem outcome_of_free (c : Contract σ ε) (now : Time) (s : σ)
    (hfree : ∀ state, c.state s = some state → c.eligible state = true →
      Outcome c now s (c.whole now s)) : Outcome c now s (c.whole now s) := by
  cases hwhy : refuses c.eligible (c.state s) with
  | some why =>
      obtain ⟨err, hwhole, herr⟩ : ∃ err, c.whole now s = (s, .error err) ∧ c.refusal err = some why :=
        c.whole_refuses hwhy
      rw [hwhole]
      exact .refused herr hwhy
  | none =>
      cases hstate : c.state s with
      | none =>
          rw [hstate] at hwhy
          cases hwhy
      | some state =>
          rw [hstate, refuses] at hwhy
          refine hfree state hstate ?_
          by_contra hnot
          rw [if_neg hnot] at hwhy
          cases hwhy

end Pages

theorem honours_memdriver : memdriver.Honours Memdriver.contract := by
  refine ⟨fun _ _ => rfl, fun now d action id => ?_⟩
  refine outcome_of_free (Memdriver.contract action id) now d fun state hstate heligible => ?_
  obtain ⟨row, hrow, rfl⟩ := Option.map_eq_some_iff.mp hstate
  have heligible' : Memdriver.eligible action row.state = true := heligible
  have hwhole : (Memdriver.contract action id).whole now d =
      ({ d with jobs := d.jobs.put (Memdriver.write now action row) },
        .ok (Memdriver.write now action row)) := by
    show d.operator now id action = _
    rw [Memdriver.operator_eq, Memdriver.operatorAction_eq, hrow]
    exact if_pos heligible'
  rw [hwhole]
  exact .took ⟨row, hrow, heligible, rfl, rfl⟩

theorem honours_pgdriver (pg : Pgdriver.Postgres) (depths : Visit QueueDepth) (ages : Visit QueueAge) :
    (pgdriver pg depths ages).Honours (Pgdriver.contract pg) := by
  refine ⟨fun _ _ => rfl, fun now db action id => ?_⟩
  refine outcome_of_free (Pgdriver.contract pg action id) now db fun state hstate heligible => ?_
  obtain ⟨job, hjob, rfl⟩ := Option.map_eq_some_iff.mp hstate
  have hwhole : (Pgdriver.contract pg action id).whole now db =
      db.operatorUpdate (db.operatorStatement now id action) fun db =>
        db.afterOperatorMiss id action.want <| some fun db =>
          db.operatorUpdate (db.operatorStatement now id action) fun db =>
            db.afterOperatorMiss id action.want none := Pgdriver.operator_eq db now id action
  rw [hwhole, Pgdriver.operatorStatement_hit now hjob heligible]
  -- only the index can stop it
  cases hcommit : Pgdriver.commit (db.jobs.put (Pgdriver.operatorSet now action job)) with
  | error err => exact .failed rfl
  | ok db' => exact .took ⟨job, hjob, heligible, Pgdriver.jobs_of_commit hcommit, rfl⟩

/-- Whatever is asked of the page, over either driver and from any store: the store changes
only through a post from the page itself that names a job, and the page that a post leads to
says what happened, that the action was done or why the store refused it, as long as the
filters posted with it can be read and the reads of that page succeed. -/
theorem pages_tell_what_happened (parseHost : Bytes → Option Bytes) (refresh : Duration) (now : Time)
    (r : Request) :
    (∀ d : Memdriver.Driver, Told memdriver Memdriver.contract parseHost now d r
      (serve memdriver parseHost refresh now d r).1 (serve memdriver parseHost refresh now d r).2) ∧
    ∀ (pg : Pgdriver.Postgres) (depths : Visit QueueDepth) (ages : Visit QueueAge)
      (db : Pgdriver.Database pg), Told (pgdriver pg depths ages) (Pgdriver.contract pg) parseHost now db r
        (serve (pgdriver pg depths ages) parseHost refresh now db r).1
        (serve (pgdriver pg depths ages) parseHost refresh now db r).2 :=
  ⟨fun d => honours_memdriver.told parseHost refresh now d r,
    fun pg depths ages db => (honours_pgdriver pg depths ages).told parseHost refresh now db r⟩

/-- The cancel button of job 1, with the limit changed to 0. -/
def cancelOne : Request :=
  ⟨[], ofChars ['o'], [], .post .cancel (ofChars ['1'])
    (setField Table.empty .limit (ofChars ['0']), none)⟩

/-- The filters do need to be readable: here the job is cancelled, and the page is about the
limit. -/
example :
    ∃ d row url,
      serve memdriver (fun _ => some []) 0 2
          (Memdriver.next Memdriver.new (.insert 1 ⟨[], [], [], 0, []⟩)) cancelOne =
        (d, .redirect url) ∧
      d.jobs.get? 1 = some row ∧ row.state = .cancelled ∧
      getPage memdriver 0 3 d (queryOf url) = .html 400 (.filters .limit) :=
  ⟨_, _, _, rfl, rfl, rfl, rfl⟩

end Drover.Web
