import Mathlib.Data.List.Nodup
import Mathlib.Logic.Function.Basic
import Mathlib.Tactic

/-! Singly linked chains in a table of next pointers. A chain is named by the list
of cells it runs through; the lemmas say which list it runs through after one
pointer has changed. -/
namespace Chain

variable {α : Type*} {next next' : α → Option α} {first : Option α} {xs ys : List α} {x p : α}

/-- Following the pointers from `first` visits exactly these cells and then ends. -/
def Spells (next : α → Option α) : Option α → List α → Prop
  | first, [] => first = none
  | first, x :: xs => first = some x ∧ Spells next (next x) xs

@[simp] theorem spells_nil : Spells next first [] ↔ first = none := Iff.rfl

@[simp] theorem spells_cons : Spells next first (x :: xs) ↔ first = some x ∧ Spells next (next x) xs :=
  Iff.rfl

theorem Spells.congr (h : Spells next first xs) (same : ∀ y ∈ xs, next' y = next y) :
    Spells next' first xs := by
  induction xs generalizing first with
  | nil => exact h
  | cons y ys ih =>
    refine ⟨h.1, ?_⟩
    rw [same y List.mem_cons_self]
    exact ih h.2 fun z hz => same z (List.mem_cons_of_mem y hz)

theorem Spells.unique (h : Spells next first xs) (h' : Spells next first ys) : xs = ys := by
  induction xs generalizing first ys with
  | nil =>
    cases ys with
    | nil => rfl
    | cons y ys => rw [spells_nil] at h; rw [h] at h'; cases h'.1
  | cons x xs ih =>
    cases ys with
    | nil => rw [spells_nil] at h'; rw [h'] at h; cases h.1
    | cons y ys =>
      have e : x = y := Option.some.inj (h.1.symm.trans h'.1)
      subst e
      rw [ih h.2 h'.2]

theorem Spells.suffix (h : Spells next first (xs ++ x :: ys)) : Spells next (some x) (x :: ys) := by
  induction xs generalizing first with
  | nil => exact ⟨rfl, h.2⟩
  | cons y xs ih => exact ih h.2

theorem Spells.nodup (h : Spells next first xs) : xs.Nodup := by
  induction xs generalizing first with
  | nil => exact List.nodup_nil
  | cons x xs ih =>
    refine List.nodup_cons.mpr ⟨fun again => ?_, ih h.2⟩
    obtain ⟨before, after, rfl⟩ := List.append_of_mem again
    have whole : Spells next (some x) (x :: (before ++ x :: after)) := ⟨rfl, h.2⟩
    have tail : Spells next (some x) (x :: after) := h.2.suffix
    have lengths := congrArg List.length (whole.unique tail)
    simp only [List.length_cons, List.length_append] at lengths
    omega

theorem Spells.graft (h : Spells next first (xs ++ p :: ys)) (same : ∀ y ∈ xs, next' y = next y)
    {zs : List α} (tail : Spells next' (next' p) zs) : Spells next' first (xs ++ p :: zs) := by
  induction xs generalizing first with
  | nil => exact ⟨h.1, tail⟩
  | cons x xs ih =>
    refine ⟨h.1, ?_⟩
    rw [same x List.mem_cons_self]
    exact ih h.2 fun y mem => same y (List.mem_cons_of_mem x mem)

/-- The cells met on the way, at most `fuel` of them. -/
def follow (next : α → Option α) : Nat → Option α → List α
  | 0, _ => []
  | _ + 1, none => []
  | fuel + 1, some x => x :: follow next fuel (next x)

theorem Spells.follow_eq (h : Spells next first xs) {fuel : Nat} (enough : xs.length ≤ fuel) :
    follow next fuel first = xs := by
  induction xs generalizing first fuel with
  | nil =>
    rw [spells_nil] at h
    subst h
    cases fuel <;> rfl
  | cons x xs ih =>
    cases fuel with
    | zero => simp at enough
    | succ fuel =>
      rw [h.1, follow, ih h.2 (by simpa using enough)]

variable [DecidableEq α]

theorem Spells.push (h : Spells next first xs) (fresh : x ∉ xs) :
    Spells (Function.update next x first) (some x) (x :: xs) := by
  refine ⟨rfl, ?_⟩
  rw [Function.update_self]
  refine h.congr fun y hy => Function.update_of_ne ?_ _ _
  rintro rfl
  exact fresh hy

theorem Spells.bypass (h : Spells next first (xs ++ p :: x :: ys)) (nodup : (xs ++ p :: x :: ys).Nodup) :
    Spells (Function.update next p (next x)) first (xs ++ p :: ys) := by
  induction xs generalizing first with
  | nil =>
    obtain ⟨hp, hx, rest⟩ := h
    refine ⟨hp, ?_⟩
    rw [Function.update_self]
    refine rest.congr fun y hy => Function.update_of_ne ?_ _ _
    rintro rfl
    simp only [List.nil_append, List.nodup_cons, List.mem_cons, not_or] at nodup
    exact nodup.1.2 hy
  | cons z zs ih =>
    obtain ⟨hz, rest⟩ := h
    simp only [List.cons_append, List.nodup_cons] at nodup
    refine ⟨hz, ?_⟩
    rw [Function.update_of_ne]
    · exact ih rest nodup.2
    · rintro rfl
      exact nodup.1 (by simp)

end Chain
