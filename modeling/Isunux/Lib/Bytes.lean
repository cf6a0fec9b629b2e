import Mathlib.Data.List.Basic
import Mathlib.Tactic

/-! Byte arrays that are read and written at an offset. A write at or before the end
replaces what it covers and may reach past the end. -/
namespace Bytes

variable {α : Type*}

/-- `bs` written at `offset`. -/
def splice (c : List α) (offset : Nat) (bs : List α) : List α :=
  c.take offset ++ bs ++ c.drop (offset + bs.length)

/-- At most `count` elements from `offset` on. -/
def slice (c : List α) (offset count : Nat) : List α := (c.drop offset).take count

/-- The array that a function gives. -/
def table (n : Nat) (g : Nat → α) : List α := (List.range n).map g

@[simp] theorem table_length (n : Nat) (g : Nat → α) : (table n g).length = n := by simp [table]

@[simp] theorem table_getElem (n : Nat) (g : Nat → α) {i : Nat} (h : i < (table n g).length) :
    (table n g)[i] = g i := by simp [table]

theorem table_congr {n : Nat} {g h : Nat → α} (same : ∀ i, i < n → g i = h i) : table n g = table n h :=
  List.map_congr_left fun i mem => same i (List.mem_range.mp mem)

theorem slice_table (n offset count : Nat) (g : Nat → α) :
    slice (table n g) offset count = table (min count (n - offset)) fun i => g (offset + i) := by
  apply List.ext_getElem
  · simp [slice]
  · intro i h h'
    simp [slice]

theorem splice_table {n offset m : Nat} (inside : offset ≤ n) (g src : Nat → α) :
    splice (table n g) offset (table m src) =
      table (max n (offset + m)) fun i =>
        if offset ≤ i ∧ i < offset + m then src (i - offset) else g i := by
  have start : min offset n = offset := Nat.min_eq_left inside
  apply List.ext_getElem
  · simp only [splice, List.length_append, List.length_take, List.length_drop, table_length, start]
    omega
  · intro i h h'
    simp only [splice, table_getElem]
    by_cases below : i < offset
    · rw [List.getElem_append_left (by simp [start]; omega), List.getElem_append_left (by simp [start, below]),
        List.getElem_take, table_getElem, if_neg (by omega)]
    · by_cases within : i < offset + m
      · rw [List.getElem_append_left (by simp [start]; omega),
          List.getElem_append_right (by simp [start]; omega), table_getElem, if_pos ⟨by omega, within⟩]
        simp [start]
      · rw [List.getElem_append_right (by simp [start]; omega), List.getElem_drop, table_getElem,
          if_neg (by omega)]
        congr 1
        simp only [List.length_append, List.length_take, table_length, start]
        omega

end Bytes
