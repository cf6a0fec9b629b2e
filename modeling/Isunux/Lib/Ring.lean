import Mathlib.Tactic

/-! Ring buffers: `count` elements from slot `head` on, modulo the capacity. -/
namespace Ring

variable {α : Type*} {cap : Nat}

/-- The buffered elements, oldest first. -/
def contents (cap : Nat) (buf : Nat → α) (head count : Nat) : List α :=
  (List.range count).map fun i => buf ((head + i) % cap)

@[simp] theorem contents_zero (buf : Nat → α) (head : Nat) : contents cap buf head 0 = [] := rfl

@[simp] theorem length_contents (buf : Nat → α) (head count : Nat) :
    (contents cap buf head count).length = count := by
  simp [contents]

theorem slot_injective {head i j : Nat} (hi : i < cap) (hj : j < cap)
    (same : (head + i) % cap = (head + j) % cap) : i = j := by
  have h : i ≡ j [MOD cap] := Nat.ModEq.add_left_cancel' head same
  exact Nat.ModEq.eq_of_lt_of_lt h hi hj

theorem contents_push (buf : Nat → α) (head : Nat) {count : Nat} (room : count < cap) (a : α) :
    contents cap (Function.update buf ((head + count) % cap) a) head (count + 1) =
      contents cap buf head count ++ [a] := by
  unfold contents
  rw [List.range_succ, List.map_append, List.map_singleton, Function.update_self]
  congr 1
  apply List.map_congr_left
  intro i hi
  rw [List.mem_range] at hi
  apply Function.update_of_ne
  intro same
  have := slot_injective (by omega) room same
  omega

theorem contents_pop (buf : Nat → α) {head : Nat} (inside : head < cap) (count : Nat) :
    contents cap buf head (count + 1) = buf head :: contents cap buf ((head + 1) % cap) count := by
  unfold contents
  rw [List.range_succ_eq_map, List.map_cons, List.map_map, Nat.add_zero, Nat.mod_eq_of_lt inside]
  congr 1
  apply List.map_congr_left
  intro i _
  simp only [Function.comp_apply, Nat.mod_add_mod]
  congr 2
  omega

end Ring
