import Mathlib.Data.List.Basic

set_option autoImplicit false

/-!
# Slices

A slice is a window into a backing array: its address, where the window begins, its length
and its capacity.  Two slices with one address share memory, so writing through one may be
seen through the other.  `append` writes in place when there is room and copies to a new
array when there is not; how much room a new array gets is a parameter.

Nothing in this file names a particular program.
-/

namespace Drover.Go

/-- The backing arrays of one element type, by address. -/
abbrev Heap (α : Type) := List (List α)

/-- A slice. -/
structure Slice where
  addr : Nat
  off : Nat
  len : Nat
  cap : Nat
  deriving DecidableEq, Repr

/-- The nil slice. -/
def Slice.nil : Slice := ⟨0, 0, 0, 0⟩

/-- `s[:n]`. -/
def Slice.upTo (s : Slice) (n : Nat) : Slice := { s with len := n }

@[simp] theorem Slice.upTo_upTo (s : Slice) (m n : Nat) : (s.upTo m).upTo n = s.upTo n := rfl

/-- Appending to `s` does not write into the array of `t`: it is another one, or `s` has no
room. -/
def Slice.Apart (s t : Slice) : Prop := s.cap = 0 ∨ s.addr ≠ t.addr

namespace Heap

variable {α : Type}

/-- The array at an address. -/
def array (h : Heap α) (addr : Nat) : List α := h[addr]?.getD []

/-- The elements of a slice. -/
def read (h : Heap α) (s : Slice) : List α := ((h.array s.addr).drop s.off).take s.len

/-- The window of the slice lies in its array. -/
structure Valid (h : Heap α) (s : Slice) : Prop where
  len_le : s.len ≤ s.cap
  fits : s.off + s.cap ≤ (h.array s.addr).length

/-- The arrays with `xs` written into one of them. -/
def write (h : Heap α) (addr pos : Nat) (xs : List α) : Heap α :=
  h.modify addr fun array => array.take pos ++ xs ++ array.drop (pos + xs.length)

/-- `s[i] = x`. -/
def set (h : Heap α) (s : Slice) (i : Nat) (x : α) : Heap α := h.write s.addr (s.off + i) [x]

/-- `append(s, xs...)`; a new array has `spare` more elements than it needs. -/
def append [Inhabited α] (spare : Nat → Nat) (h : Heap α) (s : Slice) (xs : List α) :
    Heap α × Slice :=
  let need := s.len + xs.length
  if need ≤ s.cap then (h.write s.addr (s.off + s.len) xs, s.upTo need)
  else
    (h ++ [h.read s ++ xs ++ List.replicate (spare need) default],
      ⟨h.length, 0, need, need + spare need⟩)

/-! ## Writing -/

theorem array_write (h : Heap α) (addr pos : Nat) (xs : List α) :
    (h.write addr pos xs).array addr =
      if addr < h.length then
        (h.array addr).take pos ++ xs ++ (h.array addr).drop (pos + xs.length)
      else [] := by
  unfold array write
  rw [List.getElem?_modify_eq]
  split
  · rename_i hlt
    rw [List.getElem?_eq_getElem hlt]
    rfl
  · rename_i hge
    rw [List.getElem?_eq_none (Nat.not_lt.mp hge)]
    rfl

theorem array_write_of_ne (h : Heap α) {addr addr' : Nat} (hne : addr' ≠ addr) (pos : Nat)
    (xs : List α) : (h.write addr pos xs).array addr' = h.array addr' := by
  unfold array write
  rw [List.getElem?_modify_ne _ _ hne.symm]

/-- An address from which a slice reads something is allocated. -/
theorem lt_length_of_pos {h : Heap α} {s : Slice} (hs : h.Valid s) (hpos : 0 < s.off + s.cap) :
    s.addr < h.length := by
  by_contra hge
  have hfits := hs.fits
  rw [array, List.getElem?_eq_none (Nat.not_lt.mp hge)] at hfits
  exact absurd hfits (Nat.not_le.mpr hpos)

theorem length_read {h : Heap α} {s : Slice} (hs : h.Valid s) : (h.read s).length = s.len := by
  have hlen := hs.len_le
  have hfits := hs.fits
  rw [read, List.length_take, List.length_drop]
  omega

/-- Writing inside the array of a slice keeps the length of the array. -/
theorem length_array_write {h : Heap α} {addr pos : Nat} {xs : List α}
    (hfits : pos + xs.length ≤ (h.array addr).length) (addr' : Nat) :
    ((h.write addr pos xs).array addr').length = (h.array addr').length := by
  by_cases heq : addr' = addr
  · subst heq
    rw [array_write]
    split
    · rw [List.length_append, List.length_append, List.length_take, List.length_drop]
      omega
    · rename_i hge
      rw [array, List.getElem?_eq_none (Nat.not_lt.mp hge)]
      rfl
  · rw [array_write_of_ne h heq]

theorem Valid.write {h : Heap α} {t : Slice} (ht : h.Valid t) {addr pos : Nat} {xs : List α}
    (hfits : pos + xs.length ≤ (h.array addr).length) : (h.write addr pos xs).Valid t :=
  ⟨ht.len_le, by rw [length_array_write hfits]; exact ht.fits⟩

theorem read_write_of_ne (h : Heap α) {t : Slice} {addr : Nat} (hne : t.addr ≠ addr) (pos : Nat)
    (xs : List α) : (h.write addr pos xs).read t = h.read t := by
  rw [read, read, array_write_of_ne h hne]

/-- What a window of the array shows after a write into it. -/
theorem drop_array_write {h : Heap α} {s : Slice} (hs : h.Valid s) {pos : Nat} {xs : List α}
    (hpos : pos + xs.length ≤ s.cap) :
    ((h.write s.addr (s.off + pos) xs).array s.addr).drop s.off =
      ((h.array s.addr).drop s.off).take pos ++ xs ++
        ((h.array s.addr).drop s.off).drop (pos + xs.length) := by
  have hfits := hs.fits
  rw [array_write]
  split
  · have htake : ((h.array s.addr).take (s.off + pos)).length = s.off + pos := by
      rw [List.length_take]
      omega
    rw [List.append_assoc, List.drop_append_of_le_length (by omega), List.drop_take,
      Nat.add_sub_cancel_left, List.append_assoc, List.drop_drop, Nat.add_assoc]
  · -- no array, so no room, and nothing is written
    rename_i hge
    have harray : h.array s.addr = [] := by
      rw [array, List.getElem?_eq_none (Nat.not_lt.mp hge)]
      rfl
    rw [harray, List.length_nil] at hfits
    obtain rfl : xs = [] := List.length_eq_zero_iff.mp (by omega)
    simp [harray]

theorem read_set {h : Heap α} {s : Slice} (hs : h.Valid s) {i : Nat} (hi : i < s.len) (x : α) :
    (h.set s i x).read s = (h.read s).set i x := by
  have hlen := hs.len_le
  have hfits := hs.fits
  have hroom : i < ((h.array s.addr).drop s.off).length := by
    rw [List.length_drop]
    omega
  rw [read, set, drop_array_write hs (by simp; omega), read,
    ← List.take_set, List.set_eq_take_append_cons_drop, if_pos hroom]
  simp

theorem valid_set {h : Heap α} {s t : Slice} (hs : h.Valid s) (ht : h.Valid t) {i : Nat}
    (hi : i < s.len) (x : α) : (h.set s i x).Valid t := by
  have hlen := hs.len_le
  have hfits := hs.fits
  exact ht.write (by simp; omega)

theorem valid_upTo {h : Heap α} {s : Slice} (hs : h.Valid s) {n : Nat} (hn : n ≤ s.cap) :
    h.Valid (s.upTo n) :=
  ⟨hn, hs.fits⟩

theorem read_upTo {h : Heap α} {s : Slice} {n : Nat} (hn : n ≤ s.len) :
    h.read (s.upTo n) = (h.read s).take n := by
  rw [read, read, List.take_take, Nat.min_eq_left hn]
  rfl

/-! ## Appending -/

theorem array_concat_of_lt {h : Heap α} {xs : List α} {addr : Nat} (hlt : addr < h.length) :
    Heap.array (h ++ [xs]) addr = h.array addr := by
  rw [array, List.getElem?_append_left hlt]
  rfl

section Append

variable [Inhabited α] {spare : Nat → Nat} {h : Heap α} {s t : Slice}

theorem read_append (hs : h.Valid s) (xs : List α) :
    (h.append spare s xs).1.read (h.append spare s xs).2 = h.read s ++ xs := by
  have hlen := length_read hs
  unfold append
  dsimp only
  split
  · rename_i hroom
    have hfits := hs.fits
    have htake : (((h.array s.addr).drop s.off).take s.len).length = s.len := hlen
    have hsum : ((((h.array s.addr).drop s.off).take s.len) ++ xs).length = s.len + xs.length := by
      rw [List.length_append, htake]
    change (((h.write s.addr (s.off + s.len) xs).array s.addr).drop s.off).take
      (s.len + xs.length) = _
    rw [drop_array_write hs hroom, ← hsum, List.take_left]
    rfl
  · have hsum : (h.read s ++ xs).length = s.len + xs.length := by
      rw [List.length_append, hlen]
    rw [read, array, List.getElem?_concat_length, Option.getD_some, List.drop_zero]
    change List.take (s.len + xs.length) _ = _
    rw [← hsum, List.take_left]

theorem Valid.append (hs : h.Valid s) (ht : h.Valid t) (xs : List α) :
    (h.append spare s xs).1.Valid t := by
  unfold Heap.append
  dsimp only
  split
  · have hfits := hs.fits
    exact ht.write (by omega)
  · refine ⟨ht.len_le, ?_⟩
    by_cases hlt : t.addr < h.length
    · rw [array_concat_of_lt hlt]
      exact ht.fits
    · have hzero : ¬0 < t.off + t.cap := fun hpos => hlt (lt_length_of_pos ht hpos)
      omega

theorem valid_append (hs : h.Valid s) (xs : List α) :
    (h.append spare s xs).1.Valid (h.append spare s xs).2 := by
  by_cases hroom : s.len + xs.length ≤ s.cap
  · have hvalid : (h.append spare s xs).1.Valid s := hs.append hs xs
    unfold Heap.append at hvalid ⊢
    rw [if_pos hroom] at hvalid ⊢
    exact valid_upTo hvalid hroom
  · unfold Heap.append
    rw [if_neg hroom]
    refine ⟨Nat.le_add_right _ _, ?_⟩
    rw [array, List.getElem?_concat_length, Option.getD_some, List.length_append,
      List.length_append, List.length_replicate, length_read hs]
    exact Nat.le_of_eq (Nat.zero_add _)

/-- A slice of another array does not see an append, and the result is in another array too. -/
theorem append_apart (ht : h.Valid t) (hpos : 0 < t.off + t.cap) (hapart : s.Apart t)
    {xs : List α} (hxs : xs ≠ []) :
    (h.append spare s xs).1.read t = h.read t ∧ (h.append spare s xs).2.addr ≠ t.addr := by
  have hlt := lt_length_of_pos ht hpos
  have hlen := List.length_pos_of_ne_nil hxs
  unfold append
  dsimp only
  split
  · rename_i hroom
    have hne : s.addr ≠ t.addr := hapart.resolve_left (by omega)
    exact ⟨read_write_of_ne h hne.symm _ xs, hne⟩
  · refine ⟨?_, Nat.ne_of_gt hlt⟩
    rw [read, array_concat_of_lt hlt]
    rfl

end Append

end Heap

end Drover.Go
