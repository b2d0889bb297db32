import Mathlib.Data.List.Sort
import Drover.Foundation.Map
import Drover.Go.Strings

set_option autoImplicit false

/-!
# `net/url`: query strings

`Values.Encode` and `ParseQuery`, and that the second reads back what the first writes:
at every key the same values in the same order, whatever bytes the keys and the values are
made of.  Nothing in this file names a particular program.
-/

namespace Drover.Go

open Drover.Foundation
open Drover.Foundation.Bytes

/-! ## Escapes -/

/-- `"0123456789ABCDEF"[n]`. -/
def upperhex (n : Nat) : UInt8 := UInt8.ofNat (if n < 10 then 48 + n else 55 + n)

/-- `unhex`, where `ishex` holds. -/
def unhex (b : UInt8) : Option Nat :=
  if isDigit b then some (b.toNat - 48)
  else if ascii 'a' ≤ b ∧ b ≤ ascii 'f' then some (b.toNat - 87)
  else if ascii 'A' ≤ b ∧ b ≤ ascii 'F' then some (b.toNat - 55)
  else none

/-- The bytes that `shouldEscape` leaves alone in a query. -/
def unreserved (b : UInt8) : Bool :=
  (ascii 'a' ≤ b && b ≤ ascii 'z') || (ascii 'A' ≤ b && b ≤ ascii 'Z') || isDigit b ||
    b = ascii '-' || b = ascii '_' || b = ascii '.' || b = ascii '~'

def escapeByte (b : UInt8) : Bytes :=
  if b = ascii ' ' then [ascii '+']
  else if unreserved b then [b]
  else [ascii '%', upperhex (b.toNat / 16), upperhex (b.toNat % 16)]

/-- `QueryEscape`. -/
def queryEscape (s : Bytes) : Bytes := s.flatMap escapeByte

/-- `QueryUnescape`; `none` for its `EscapeError`. -/
def queryUnescape : Bytes → Option Bytes
  | [] => some []
  | b :: rest =>
      if b = ascii '%' then
        match rest with
        | hi :: lo :: rest =>
            match unhex hi, unhex lo with
            | some h, some l => (queryUnescape rest).map (UInt8.ofNat (16 * h + l) :: ·)
            | _, _ => none
        | _ => none
      else (queryUnescape rest).map ((if b = ascii '+' then ascii ' ' else b) :: ·)

theorem queryUnescape_cons {b : UInt8} (h : b ≠ ascii '%') (rest : Bytes) :
    queryUnescape (b :: rest) =
      (queryUnescape rest).map ((if b = ascii '+' then ascii ' ' else b) :: ·) := by
  rw [queryUnescape.eq_def]
  exact if_neg h

theorem queryUnescape_percent {hi lo : UInt8} {h l : Nat} (hhi : unhex hi = some h)
    (hlo : unhex lo = some l) (rest : Bytes) :
    queryUnescape (ascii '%' :: hi :: lo :: rest) =
      (queryUnescape rest).map (UInt8.ofNat (16 * h + l) :: ·) := by
  rw [queryUnescape.eq_def]
  simp only [if_true, hhi, hlo]

theorem unhex_upperhex {n : Nat} (h : n < 16) : unhex (upperhex n) = some n := by
  have hall : ∀ n < 16, unhex (upperhex n) = some n := by decide
  exact hall n h

theorem unreserved_upperhex {n : Nat} (h : n < 16) : unreserved (upperhex n) = true := by
  have hall : ∀ n < 16, unreserved (upperhex n) = true := by decide
  exact hall n h

/-- One byte is read back. -/
theorem queryUnescape_escapeByte (b : UInt8) (rest : Bytes) :
    queryUnescape (escapeByte b ++ rest) = (queryUnescape rest).map (b :: ·) := by
  unfold escapeByte
  split
  · rename_i hspace
    subst hspace
    rw [List.singleton_append, queryUnescape_cons (by decide), if_pos rfl]
  · split
    · rename_i hspace hunreserved
      have hpercent : b ≠ ascii '%' := by
        rintro rfl
        exact absurd hunreserved (by decide)
      have hplus : b ≠ ascii '+' := by
        rintro rfl
        exact absurd hunreserved (by decide)
      rw [List.singleton_append, queryUnescape_cons hpercent, if_neg hplus]
    · have hlt := b.toNat_lt
      have hhi : b.toNat / 16 < 16 := by omega
      have hlo : b.toNat % 16 < 16 := Nat.mod_lt _ (by omega)
      have hbyte : UInt8.ofNat (16 * (b.toNat / 16) + b.toNat % 16) = b := by
        rw [Nat.div_add_mod, UInt8.ofNat_toNat]
      rw [List.cons_append, List.cons_append, List.cons_append, List.nil_append,
        queryUnescape_percent (unhex_upperhex hhi) (unhex_upperhex hlo), hbyte]

theorem queryUnescape_queryEscape (s : Bytes) : queryUnescape (queryEscape s) = some s := by
  have happend : ∀ rest, queryUnescape (queryEscape s ++ rest) =
      (queryUnescape rest).map (s ++ ·) := by
    intro rest
    induction s with
    | nil =>
        rw [queryEscape, List.flatMap_nil, List.nil_append]
        simp
    | cons b s ih =>
        have hcons : queryEscape (b :: s) = escapeByte b ++ queryEscape s := rfl
        rw [hcons, List.append_assoc, queryUnescape_escapeByte, ih, Option.map_map]
        rfl
  simpa [queryUnescape] using happend []

/-- What an escaped string is made of. -/
theorem mem_queryEscape {s : Bytes} {b : UInt8} (h : b ∈ queryEscape s) :
    unreserved b = true ∨ b = ascii '+' ∨ b = ascii '%' := by
  obtain ⟨c, -, hb⟩ := List.mem_flatMap.mp h
  have hlt := c.toNat_lt
  unfold escapeByte at hb
  split at hb
  · exact Or.inr (Or.inl (List.mem_singleton.mp hb))
  · split at hb
    · rename_i hunreserved
      rw [List.mem_singleton.mp hb]
      exact Or.inl hunreserved
    · simp only [List.mem_cons, List.not_mem_nil, or_false] at hb
      rcases hb with rfl | rfl | rfl
      · exact Or.inr (Or.inr rfl)
      · exact Or.inl (unreserved_upperhex (by omega))
      · exact Or.inl (unreserved_upperhex (Nat.mod_lt _ (by omega)))

/-- None of the bytes that have a meaning in a query is in one. -/
theorem notMem_queryEscape {sep : UInt8} (hreserved : unreserved sep = false)
    (hplus : sep ≠ ascii '+') (hpercent : sep ≠ ascii '%') (s : Bytes) : sep ∉ queryEscape s := by
  intro h
  rcases mem_queryEscape h with hmem | hmem | hmem
  · rw [hreserved] at hmem
    cases hmem
  · exact hplus hmem
  · exact hpercent hmem

/-! ## Values -/

/-- `url.Values`: the values of each key, in order. -/
abbrev Values := Map Bytes (List Bytes)

namespace Values

/-- `v.Get(key)`: the first value, or the empty string. -/
def get (v : Values) (key : Bytes) : Bytes := ((Map.lookup v key).bind List.head?).getD []

/-- `v.Set(key, value)`. -/
def set (v : Values) (key value : Bytes) : Values := v.put (key, [value])

/-- `v[key] = append(v[key], value)`. -/
def add (v : Values) (key value : Bytes) : Values :=
  v.put (key, (Map.lookup v key).getD [] ++ [value])

/-- One pair as `Encode` writes it. -/
def pairText (pair : Bytes × Bytes) : Bytes := queryEscape pair.1 ++ ascii '=' :: queryEscape pair.2

/-- The pairs of a map, key by key. -/
def pairs (rows : List (Bytes × List Bytes)) : List (Bytes × Bytes) :=
  rows.flatMap fun row => row.2.map fun value => (row.1, value)

/-- `v.Encode()`: the pairs by key. -/
def encode (v : Values) : Bytes :=
  join (ascii '&') ((pairs (v.rows.insertionSort fun a b => a.1 ≤ b.1)).map pairText)

end Values

/-- The errors of `ParseQuery`. -/
inductive QueryError where
  /-- `invalid semicolon separator in query` -/
  | semicolon
  /-- an `EscapeError` -/
  | escape
  deriving DecidableEq, Repr

/-- One turn of the loop of `parseQuery`: a piece between two `&`. -/
def parsePiece (m : Values) (err : Option QueryError) (piece : Bytes) : Values × Option QueryError :=
  if ascii ';' ∈ piece then (m, some .semicolon)
  else if piece = [] then (m, err)
  else
    match queryUnescape (cut (ascii '=') piece).1, queryUnescape (cut (ascii '=') piece).2.1 with
    | some key, some value => (m.add key value, err)
    | _, _ => (m, err.or (some .escape))

/-- `ParseQuery`.  The loop stops where the query ends, so it does not see the empty piece
after a last `&`, which it would skip. -/
def parseQuery (query : Bytes) : Values × Option QueryError :=
  (split (ascii '&') query).foldl (fun s piece => parsePiece s.1 s.2 piece) (Table.empty, none)

namespace Values

theorem parsePiece_pairText (m : Values) (err : Option QueryError) (pair : Bytes × Bytes) :
    parsePiece m err (pairText pair) = (m.add pair.1 pair.2, err) := by
  have hsemicolon : ascii ';' ∉ pairText pair := by
    rw [pairText, List.mem_append, List.mem_cons, not_or, not_or]
    exact ⟨notMem_queryEscape rfl (by decide) (by decide) _, by decide,
      notMem_queryEscape rfl (by decide) (by decide) _⟩
  have hcut : cut (ascii '=') (pairText pair) = (queryEscape pair.1, queryEscape pair.2, true) :=
    cut_append (notMem_queryEscape rfl (by decide) (by decide) _) _
  rw [parsePiece, if_neg hsemicolon, if_neg (by simp [pairText]), hcut]
  simp only [queryUnescape_queryEscape]

/-- The pairs of an encoded map, read back. -/
theorem parseQuery_join (ps : List (Bytes × Bytes)) :
    parseQuery (join (ascii '&') (ps.map pairText)) =
      (ps.foldl (fun m pair => add m pair.1 pair.2) Table.empty, none) := by
  have hfold : ∀ (ps : List (Bytes × Bytes)) (m : Values),
      (ps.map pairText).foldl (fun s piece => parsePiece s.1 s.2 piece) (m, none) =
        (ps.foldl (fun m pair => add m pair.1 pair.2) m, none) := by
    intro ps
    induction ps with
    | nil => exact fun m => rfl
    | cons pair ps ih =>
        intro m
        rw [List.map_cons, List.foldl_cons, parsePiece_pairText, ih, List.foldl_cons]
  cases ps with
  | nil => rfl
  | cons pair ps =>
      rw [parseQuery, split_join (by simp), hfold]
      intro part hpart
      obtain ⟨p, -, rfl⟩ := List.mem_map.mp hpart
      rw [pairText, List.mem_append, List.mem_cons, not_or, not_or]
      exact ⟨notMem_queryEscape rfl (by decide) (by decide) _, by decide,
        notMem_queryEscape rfl (by decide) (by decide) _⟩

theorem lookup_add (m : Values) (key value k : Bytes) :
    Map.lookup (m.add key value) k =
      if key = k then some ((Map.lookup m k).getD [] ++ [value]) else Map.lookup m k := by
  rw [add, Map.lookup_put]
  split
  · rename_i heq
    rw [heq]
  · rfl

/-- The values that a list of pairs files under a key. -/
theorem getD_lookup_foldl_add (ps : List (Bytes × Bytes)) (m : Values) (k : Bytes) :
    (Map.lookup (ps.foldl (fun m pair => add m pair.1 pair.2) m) k).getD [] =
      (Map.lookup m k).getD [] ++ (ps.filter fun pair => pair.1 = k).map Prod.snd := by
  induction ps generalizing m with
  | nil => simp
  | cons pair ps ih =>
      rw [List.foldl_cons, ih, lookup_add]
      by_cases heq : pair.1 = k
      · simp [heq]
      · simp [heq]

/-- Key by key, the pairs of a map are its values. -/
theorem filter_pairs {rows : List (Bytes × List Bytes)} (hnodup : (rows.map Prod.fst).Nodup)
    (k : Bytes) :
    ((pairs rows).filter fun pair => pair.1 = k).map Prod.snd =
      ((rows.find? fun row => row.1 = k).map Prod.snd).getD [] := by
  induction rows with
  | nil => rfl
  | cons row rows ih =>
      rw [List.map_cons, List.nodup_cons] at hnodup
      have hcons : pairs (row :: rows) = row.2.map (fun value => (row.1, value)) ++ pairs rows := rfl
      rw [hcons, List.filter_append, List.map_append, ih hnodup.2, List.find?_cons]
      by_cases heq : row.1 = k
      · -- no other row has this key
        have hrest : rows.find? (fun row => decide (row.1 = k)) = none := by
          refine List.find?_eq_none.mpr fun other hother hsame => hnodup.1 ?_
          rw [heq, ← of_decide_eq_true hsame]
          exact List.mem_map_of_mem hother
        simp [heq, hrest, List.filter_map, Function.comp_def]
      · simp [heq, List.filter_map, Function.comp_def]

/-- The order of the rows of a map is of no account. -/
theorem find?_eq_of_perm {v : Values} {rows : List (Bytes × List Bytes)} (hperm : rows.Perm v.rows)
    (k : Bytes) : rows.find? (fun row => row.1 = k) = v.get? k := by
  have hnodup : (rows.map Prod.fst).Nodup := (hperm.map _).nodup_iff.mpr v.nodup
  have hget : ∀ row, Table.get? (⟨rows, hnodup⟩ : Values) k = some row ↔ v.get? k = some row := by
    intro row
    rw [Table.get?_eq_some_iff, Table.get?_eq_some_iff, hperm.mem_iff]
  exact Option.ext hget

/-- `ParseQuery` reads back what `Encode` writes. -/
theorem getD_lookup_parseQuery_encode (v : Values) (k : Bytes) :
    (Map.lookup (parseQuery v.encode).1 k).getD [] = (Map.lookup v k).getD [] := by
  have hperm := List.perm_insertionSort (fun a b : Bytes × List Bytes => a.1 ≤ b.1) v.rows
  rw [encode, parseQuery_join, getD_lookup_foldl_add, Map.lookup_empty, Option.getD_none,
    List.nil_append, filter_pairs ((hperm.map _).nodup_iff.mpr v.nodup), find?_eq_of_perm hperm]
  rfl

theorem get_eq (v : Values) (k : Bytes) : get v k = ((Map.lookup v k).getD []).head?.getD [] := by
  unfold get
  cases Map.lookup v k with
  | none => rfl
  | some values => rfl

theorem get_parseQuery_encode (v : Values) (k : Bytes) : get (parseQuery v.encode).1 k = get v k := by
  rw [get_eq, getD_lookup_parseQuery_encode, ← get_eq]

@[simp] theorem get_empty (k : Bytes) : get Table.empty k = [] := rfl

theorem get_set (v : Values) (key value k : Bytes) :
    get (v.set key value) k = if key = k then value else get v k := by
  unfold get set
  rw [Map.lookup_put]
  split <;> rfl

/-- `Encode` writes nothing that ends a query. -/
theorem notMem_encode {sep : UInt8} (hreserved : unreserved sep = false) (hplus : sep ≠ ascii '+')
    (hpercent : sep ≠ ascii '%') (hand : sep ≠ ascii '&') (heq : sep ≠ ascii '=') (v : Values) :
    sep ∉ v.encode := by
  have hjoin : ∀ parts : List Bytes, (∀ part ∈ parts, sep ∉ part) → sep ∉ join (ascii '&') parts := by
    intro parts
    induction parts with
    | nil => exact fun _ => List.not_mem_nil
    | cons part parts ih =>
        intro h
        rw [List.forall_mem_cons] at h
        cases parts with
        | nil => exact h.1
        | cons next parts =>
            rw [join, List.mem_append, List.mem_cons, not_or, not_or]
            · exact ⟨h.1, hand, ih h.2⟩
            · simp
  refine hjoin _ fun part hpart => ?_
  obtain ⟨pair, -, rfl⟩ := List.mem_map.mp hpart
  rw [pairText, List.mem_append, List.mem_cons, not_or, not_or]
  exact ⟨notMem_queryEscape hreserved hplus hpercent _, heq,
    notMem_queryEscape hreserved hplus hpercent _⟩

end Values

/-- `u.RawQuery` of a reference without a scheme. -/
def rawQuery (ref : Bytes) : Bytes := (cut (ascii '?') (cut (ascii '#') ref).1).2.1

/-- `u.Query()`: what `ParseQuery` could make of it. -/
def queryOf (ref : Bytes) : Values := (parseQuery (rawQuery ref)).1

/-- The query of a page. -/
theorem get_queryOf (page : Bytes) (hpage : ascii '?' ∉ page) (hfragment : ascii '#' ∉ page)
    (v : Values) (k : Bytes) : (queryOf (page ++ ascii '?' :: v.encode)).get k = v.get k := by
  have hnone : ascii '#' ∉ page ++ ascii '?' :: v.encode := by
    rw [List.mem_append, List.mem_cons, not_or, not_or]
    exact ⟨hfragment, by decide,
      Values.notMem_encode rfl (by decide) (by decide) (by decide) (by decide) v⟩
  rw [queryOf, rawQuery, cut_of_notMem hnone, cut_append hpage]
  exact Values.get_parseQuery_encode v k

end Drover.Go
