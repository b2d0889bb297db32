import Mathlib.Data.List.ReduceOption
import Mathlib.Tactic.Common
import Drover.Foundation.Bytes

set_option autoImplicit false

/-!
# Panics and errors (`errors`, `fmt`)

What a call comes to when it may panic, how `fmt` prints a value whose own method panics,
and the search of `errors.Is` and `errors.As` through what an error wraps.

An error is anything with an `Unwrap` method, which may return nothing, one error or
several, or panic; nothing says that unwrapping ends.  A call that may go on for ever is a
`Fuelled` one: it answers once it has fuel enough, and always the same from there on.
`search` follows the two functions of the standard library, and `Ends` says what a search
comes to when it comes to an end without a panic.
-/

namespace Drover.Go

open Drover.Foundation (Bytes)
open Drover.Foundation.Bytes (ofChars)

/-! ## Panics -/

/-- A value as `fmt` prints it with `%v`. -/
inductive Value where
  /-- `fmt` prints it itself -/
  | plain (text : Bytes)
  /-- its own method prints it -/
  | speaking (text : Bytes)
  /-- its own method panics -/
  | broken (nilPointer : Bool) (method : Bytes) (value : Value)
  deriving DecidableEq, Repr

/-- What a call comes to. -/
inductive Result (α : Type) where
  | returned (a : α)
  | panicked (value : Value)
  deriving DecidableEq, Repr

/-- The call returns. -/
def Result.returns {α : Type} : Result α → Prop
  | .returned _ => True
  | .panicked _ => False

/-- What follows a call that returns. -/
def Result.bind {α β : Type} (r : Result α) (f : α → Result β) : Result β :=
  match r with
  | .returned a => f a
  | .panicked v => .panicked v

/-- `catchPanic`: a panicking method of a nil pointer prints `<nil>`, any other prints the
value it panicked with, and that one's own method may not panic again. -/
def Value.print : Value → Result Bytes
  | .plain text => .returned text
  | .speaking text => .returned text
  | .broken true _ _ => .returned (ofChars ['<', 'n', 'i', 'l', '>'])
  | .broken false method value =>
      let say (text : Bytes) : Bytes :=
        ofChars ['%', '!', 'v', '(', 'P', 'A', 'N', 'I', 'C', '='] ++ method ++
          ofChars [' ', 'm', 'e', 't', 'h', 'o', 'd', ':', ' '] ++ text ++ ofChars [')']
      match value with
      | .plain text => .returned (say text)
      | .speaking text => .returned (say text)
      | .broken true _ _ => .returned (say (ofChars ['<', 'n', 'i', 'l', '>']))
      | .broken false _ value => .panicked value

/-! ## Calls that may not come back -/

/-- A call that answers once it is given fuel enough. -/
structure Fuelled (α : Type) where
  run : Nat → Option (Result α)
  /-- more fuel changes no answer -/
  stable : ∀ {n r}, run n = some r → run (n + 1) = some r

namespace Fuelled

variable {α β : Type}

/-- The call comes back with `a`. -/
def Returns (x : Fuelled α) (a : α) : Prop := ∃ n, x.run n = some (.returned a)

theorem run_of_le (x : Fuelled α) {m n : Nat} {r : Result α} (hle : m ≤ n) (h : x.run m = some r) :
    x.run n = some r := by
  induction hle with
  | refl => exact h
  | step _ ih => exact x.stable ih

/-- A call that needs no fuel. -/
def lift (r : Result α) : Fuelled α := ⟨fun _ => some r, id⟩

/-- One call after another. -/
def bind (x : Fuelled α) (f : α → Fuelled β) : Fuelled β where
  run n :=
    match x.run n with
    | some (.returned a) => (f a).run n
    | some (.panicked v) => some (.panicked v)
    | none => none
  stable := by
    intro n r h
    split at h
    · rename_i a hx
      rw [x.stable hx]
      exact (f a).stable h
    · rename_i v hx
      rw [x.stable hx]
      exact h
    · cases h

instance : Monad Fuelled where
  pure a := lift (.returned a)
  bind := bind

@[simp] theorem returns_lift {r : Result α} {a : α} : (lift r).Returns a ↔ r = .returned a := by
  simp [Returns, lift]

@[simp] theorem returns_pure {a b : α} : (pure a : Fuelled α).Returns b ↔ a = b := by
  show (lift (.returned a)).Returns b ↔ a = b
  simp

/-- Calls in a row come back when each does. -/
@[simp] theorem returns_bind {x : Fuelled α} {f : α → Fuelled β} {b : β} :
    (x >>= f).Returns b ↔ ∃ a, x.Returns a ∧ (f a).Returns b := by
  show (x.bind f).Returns b ↔ _
  constructor
  · rintro ⟨n, h⟩
    simp only [bind] at h
    split at h
    · rename_i a hx
      exact ⟨a, ⟨n, hx⟩, ⟨n, h⟩⟩
    · cases h
    · cases h
  · rintro ⟨a, ⟨m, hm⟩, n, hn⟩
    refine ⟨max m n, ?_⟩
    simp only [bind, x.run_of_le (Nat.le_max_left m n) hm]
    exact (f a).run_of_le (Nat.le_max_right m n) hn

end Fuelled

/-! ## What an error wraps -/

/-- The `Unwrap` method of an error, if it has one. -/
inductive Unwrap (ε : Type) where
  | none
  /-- `Unwrap() error` -/
  | one (r : Result (Option ε))
  /-- `Unwrap() []error` -/
  | many (r : Result (List (Option ε)))

variable {ε α : Type}

/-- The errors it yields. -/
def Unwrap.children : Unwrap ε → Result (List ε)
  | .none => .returned []
  | .one r => r.bind fun e => .returned e.toList
  | .many r => r.bind fun es => .returned es.reduceOption

/-- The loop over what `Unwrap() []error` returned; a nil in it is passed over. -/
def searchAll (f : ε → Option (Result (Option α))) : List (Option ε) → Option (Result (Option α))
  | [] => some (.returned none)
  | none :: es => searchAll f es
  | some e :: es =>
      match f e with
      | some (.returned none) => searchAll f es
      | r => r

/-- The search, out of fuel or with an answer. -/
def searchFuel (unwrap : ε → Unwrap ε) (probe : ε → Result (Option α)) :
    Nat → ε → Option (Result (Option α))
  | 0, _ => none
  | fuel + 1, e =>
      match probe e with
      | .panicked v => some (.panicked v)
      | .returned (some a) => some (.returned (some a))
      | .returned none =>
          match unwrap e with
          | .none => some (.returned none)
          | .one (.panicked v) => some (.panicked v)
          | .one (.returned none) => some (.returned none)
          | .one (.returned (some e)) => searchFuel unwrap probe fuel e
          | .many (.panicked v) => some (.panicked v)
          | .many (.returned es) => searchAll (searchFuel unwrap probe fuel) es

/-- Going through the errors in order, each followed by what it wraps, ends without a
panic: at the first that answers, or with none. -/
inductive Ends (unwrap : ε → Unwrap ε) (probe : ε → Result (Option α)) :
    List ε → Option α → Prop where
  | done : Ends unwrap probe [] none
  | hit {e : ε} {a : α} (es : List ε) (h : probe e = .returned (some a)) :
      Ends unwrap probe (e :: es) (some a)
  | on {e : ε} {children es : List ε} {r : Option α} (h : probe e = .returned none)
      (hchildren : (unwrap e).children = .returned children)
      (hrest : Ends unwrap probe (children ++ es) r) : Ends unwrap probe (e :: es) r

/-- A search of an error that wraps nothing ends with the error itself. -/
theorem ends_leaf_iff {unwrap : ε → Unwrap ε} {probe : ε → Result (Option α)} {e : ε}
    {r : Option α} (hunwrap : unwrap e = .none) :
    Ends unwrap probe [e] r ↔ probe e = .returned r := by
  have hchildren : (unwrap e).children = .returned [] := by rw [hunwrap]; rfl
  constructor
  · intro h
    cases h with
    | hit es hprobe => exact hprobe
    | on hprobe hsome hrest =>
        cases hchildren.symm.trans hsome
        cases hrest
        exact hprobe
  · intro h
    cases r with
    | none => exact .on h hchildren .done
    | some a => exact .hit [] h

section Search

variable {unwrap : ε → Unwrap ε} {probe : ε → Result (Option α)}

theorem searchAll_mono {f g : ε → Option (Result (Option α))}
    (hfg : ∀ e r, f e = some r → g e = some r) {es : List (Option ε)} {r : Result (Option α)}
    (h : searchAll f es = some r) : searchAll g es = some r := by
  induction es with
  | nil => exact h
  | cons e es ih =>
      cases e with
      | none => exact ih h
      | some e =>
          simp only [searchAll] at h ⊢
          cases hfe : f e with
          | none => rw [hfe] at h; cases h
          | some re =>
              rw [hfe] at h
              rw [hfg e re hfe]
              cases re with
              | panicked v => exact h
              | returned a =>
                  cases a with
                  | none => exact ih h
                  | some a => exact h

/-- More fuel changes no answer. -/
theorem searchFuel_stable {fuel : Nat} {e : ε} {r : Result (Option α)}
    (h : searchFuel unwrap probe fuel e = some r) : searchFuel unwrap probe (fuel + 1) e = some r := by
  induction fuel generalizing e r with
  | zero => cases h
  | succ fuel ih =>
      rw [searchFuel] at h ⊢
      split at h
      · exact h
      · exact h
      · split at h
        · exact h
        · exact h
        · exact h
        · exact ih h
        · exact h
        · exact searchAll_mono (fun e r => ih) h

theorem searchAll_append (f : ε → Option (Result (Option α))) (xs ys : List (Option ε)) :
    searchAll f (xs ++ ys) =
      match searchAll f xs with
      | some (.returned none) => searchAll f ys
      | r => r := by
  induction xs with
  | nil => rfl
  | cons x xs ih =>
      cases x with
      | none => exact ih
      | some e =>
          simp only [List.cons_append, searchAll]
          cases f e with
          | none => rfl
          | some r =>
              cases r with
              | panicked v => rfl
              | returned a =>
                  cases a with
                  | none => exact ih
                  | some a => rfl

theorem searchAll_singleton (f : ε → Option (Result (Option α))) (e : ε) :
    searchAll f [some e] = f e := by
  simp only [searchAll]
  split
  · rename_i h
    exact h.symm
  · rfl

theorem searchAll_reduceOption (f : ε → Option (Result (Option α))) (es : List (Option ε)) :
    searchAll f es = searchAll f (es.reduceOption.map some) := by
  induction es with
  | nil => rfl
  | cons e es ih =>
      cases e with
      | none => simpa [searchAll, List.reduceOption_cons_of_none] using ih
      | some e => simp [searchAll, List.reduceOption_cons_of_some, ih]

/-- An error that does not answer itself leaves it to those it wraps. -/
theorem searchFuel_succ {e : ε} {children : List ε} (hprobe : probe e = .returned none)
    (hchildren : (unwrap e).children = .returned children) (fuel : Nat) :
    searchFuel unwrap probe (fuel + 1) e =
      searchAll (searchFuel unwrap probe fuel) (children.map some) := by
  rw [searchFuel, hprobe]
  cases hunwrap : unwrap e with
  | none =>
      rw [hunwrap] at hchildren
      cases hchildren
      rfl
  | one r =>
      cases r with
      | panicked v => rw [hunwrap] at hchildren; cases hchildren
      | returned e' =>
          rw [hunwrap] at hchildren
          cases hchildren
          cases e' with
          | none => rfl
          | some e' => exact (searchAll_singleton _ e').symm
  | many r =>
      cases r with
      | panicked v => rw [hunwrap] at hchildren; cases hchildren
      | returned es =>
          rw [hunwrap] at hchildren
          cases hchildren
          exact searchAll_reduceOption _ es

/-- A search with enough fuel. -/
theorem Ends.searchAll {es : List ε} {r : Option α} (h : Ends unwrap probe es r) :
    ∃ fuel, searchAll (searchFuel unwrap probe fuel) (es.map some) = some (.returned r) := by
  induction h with
  | done => exact ⟨0, rfl⟩
  | hit es hprobe => exact ⟨1, by simp [Go.searchAll, searchFuel, hprobe]⟩
  | @on e children es r hprobe hchildren _ ih =>
      obtain ⟨fuel, hfuel⟩ := ih
      refine ⟨fuel + 1, ?_⟩
      rw [List.map_append, searchAll_append] at hfuel
      rw [List.map_cons, Go.searchAll, searchFuel_succ hprobe hchildren]
      split at hfuel
      · exact searchAll_mono (fun _ _ => searchFuel_stable) hfuel
      · exact hfuel

theorem ends_of_searchAll {fuel : Nat}
    (hsearch : ∀ {e : ε} {r : Option α}, searchFuel unwrap probe fuel e = some (.returned r) →
      ∀ es r', (r = none → Ends unwrap probe es r') → Ends unwrap probe (e :: es) (r.or r'))
    {os : List (Option ε)} {r : Option α}
    (h : searchAll (searchFuel unwrap probe fuel) os = some (.returned r)) (es : List ε) (r' : Option α)
    (hrest : r = none → Ends unwrap probe es r') :
    Ends unwrap probe (os.reduceOption ++ es) (r.or r') := by
  induction os with
  | nil =>
      cases h
      exact hrest rfl
  | cons o os ih =>
      cases o with
      | none => simpa [List.reduceOption_cons_of_none] using ih h
      | some e =>
          rw [List.reduceOption_cons_of_some, List.cons_append]
          simp only [searchAll] at h
          split at h
          · rename_i hnone
            have hall := ih h
            simpa using hsearch hnone _ _ fun _ => hall
          · rename_i hother
            cases r with
            | none => exact absurd h hother
            | some a => exact hsearch h _ r' nofun

/-- A search that returns has gone through the errors in order. -/
theorem ends_of_search {fuel : Nat} {e : ε} {r : Option α}
    (h : searchFuel unwrap probe fuel e = some (.returned r)) (es : List ε) (r' : Option α)
    (hrest : r = none → Ends unwrap probe es r') : Ends unwrap probe (e :: es) (r.or r') := by
  induction fuel generalizing e r es r' with
  | zero => cases h
  | succ fuel ih =>
      rw [searchFuel] at h
      split at h
      · cases h
      · rename_i hprobe
        cases h
        exact .hit es hprobe
      · rename_i hprobe
        split at h <;> rename_i hunwrap
        · cases h
          have hchildren : (unwrap e).children = .returned [] := by rw [hunwrap]; rfl
          exact .on hprobe hchildren (hrest rfl)
        · cases h
        · cases h
          have hchildren : (unwrap e).children = .returned [] := by rw [hunwrap]; rfl
          exact .on hprobe hchildren (hrest rfl)
        · exact .on hprobe (by rw [hunwrap]; rfl) (ih h es r' hrest)
        · cases h
        · exact .on hprobe (by rw [hunwrap]; rfl) (ends_of_searchAll ih h es r' hrest)

end Search

/-- `errors.Is` and `errors.As`: look at the error itself, then at what it wraps. -/
def search (unwrap : ε → Unwrap ε) (probe : ε → Result (Option α)) (e : ε) : Fuelled (Option α) :=
  ⟨fun fuel => searchFuel unwrap probe fuel e, searchFuel_stable⟩

/-- The search comes back exactly when going through the errors ends. -/
@[simp] theorem returns_search {unwrap : ε → Unwrap ε} {probe : ε → Result (Option α)} {e : ε}
    {r : Option α} : (search unwrap probe e).Returns r ↔ Ends unwrap probe [e] r := by
  constructor
  · rintro ⟨fuel, h⟩
    cases r with
    | none => exact ends_of_search h [] none fun _ => .done
    | some a => exact ends_of_search h [] none nofun
  · intro h
    obtain ⟨fuel, hfuel⟩ := h.searchAll
    refine ⟨fuel, ?_⟩
    rwa [List.map_singleton, searchAll_singleton] at hfuel

/-! ## Finite trees -/

/-- The errors of a forest, each followed by what it wraps; there is such a list when the trees
are finite and no `Unwrap` panics. -/
inductive Unfolds (unwrap : ε → Unwrap ε) : List ε → List ε → Prop where
  | nil : Unfolds unwrap [] []
  | node {e : ε} {children es below after : List ε}
      (hchildren : (unwrap e).children = .returned children)
      (hbelow : Unfolds unwrap children below) (hafter : Unfolds unwrap es after) :
      Unfolds unwrap (e :: es) (e :: (below ++ after))

/-- What a call found, nothing if it panicked. -/
def Result.found : Result (Option α) → Option α
  | .returned a => a
  | .panicked _ => none

theorem Ends.append {unwrap : ε → Unwrap ε} {probe : ε → Result (Option α)} {es fs : List ε}
    {r r' : Option α} (h : Ends unwrap probe es r) (h' : Ends unwrap probe fs r') :
    Ends unwrap probe (es ++ fs) (r.or r') := by
  induction h with
  | done => exact h'
  | hit es hprobe => exact .hit _ hprobe
  | on hprobe hchildren _ ih =>
      rw [List.append_assoc] at ih
      exact .on hprobe hchildren ih

/-- A search of finite trees ends with the first error that answers. -/
theorem Unfolds.ends {unwrap : ε → Unwrap ε} {probe : ε → Result (Option α)} {es nodes : List ε}
    (h : Unfolds unwrap es nodes) (hprobe : ∀ e ∈ nodes, (probe e).returns) :
    Ends unwrap probe es (nodes.findSome? fun e => (probe e).found) := by
  induction h with
  | nil => exact .done
  | @node e children es below after hchildren _ _ ihbelow ihafter =>
      have hbelow := ihbelow fun e he => hprobe e (by simp [he])
      have hafter := ihafter fun e he => hprobe e (by simp [he])
      have he := hprobe e (by simp)
      cases hfound : probe e with
      | panicked v => simp [hfound, Result.returns] at he
      | returned found =>
          cases found with
          | some a =>
              rw [List.findSome?_cons, hfound]
              exact .hit es hfound
          | none =>
              rw [List.findSome?_cons, hfound]
              show Ends unwrap probe (e :: es) (List.findSome? _ (below ++ after))
              rw [List.findSome?_append]
              exact .on hfound hchildren (hbelow.append hafter)

end Drover.Go
