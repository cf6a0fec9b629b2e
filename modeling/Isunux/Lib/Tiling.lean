import Mathlib.Data.List.Pairwise
import Mathlib.Tactic

/-! Extents that lie one behind the other: each starts where the one before it ends. -/
namespace Tiling

variable {α : Type*} {start len start' len' : α → Nat} {lo hi : Nat} {b c : α} {bs : List α}

/-- The extents of a list fill a range from end to end. -/
def Tiles (start len : α → Nat) : Nat → List α → Nat → Prop
  | lo, [], hi => lo = hi
  | lo, b :: bs, hi => start b = lo ∧ Tiles start len (lo + len b) bs hi

theorem Tiles.le (h : Tiles start len lo bs hi) : lo ≤ hi := by
  induction bs generalizing lo with
  | nil => exact Nat.le_of_eq h
  | cons b bs ih =>
    have rest := ih h.2
    omega

theorem Tiles.within (h : Tiles start len lo bs hi) (mem : b ∈ bs) : lo ≤ start b ∧ start b + len b ≤ hi := by
  induction bs generalizing lo with
  | nil => nomatch mem
  | cons c bs ih =>
    obtain ⟨first, rest⟩ := h
    rcases List.mem_cons.mp mem with rfl | later
    · have := rest.le
      omega
    · have := ih rest later
      omega

theorem Tiles.pairwise (h : Tiles start len lo bs hi) : bs.Pairwise fun b c => start b + len b ≤ start c := by
  induction bs generalizing lo with
  | nil => exact .nil
  | cons b bs ih =>
    obtain ⟨first, rest⟩ := h
    refine List.pairwise_cons.mpr ⟨fun c mem => ?_, ih rest⟩
    have := rest.within mem
    omega

theorem Tiles.apart (h : Tiles start len lo bs hi) (hb : b ∈ bs) (hc : c ∈ bs) (distinct : b ≠ c) :
    start b + len b ≤ start c ∨ start c + len c ≤ start b := by
  have either : bs.Pairwise fun b c => start b + len b ≤ start c ∨ start c + len c ≤ start b :=
    h.pairwise.imp fun before => .inl before
  have : Std.Symm fun b c => start b + len b ≤ start c ∨ start c + len c ≤ start b := ⟨fun _ _ both => both.symm⟩
  exact either.forall hb hc distinct

theorem Tiles.snoc (h : Tiles start len lo bs hi) (behind : start b = hi) :
    Tiles start len lo (bs ++ [b]) (hi + len b) := by
  induction bs generalizing lo with
  | nil =>
    cases h
    exact ⟨behind, rfl⟩
  | cons c bs ih => exact ⟨h.1, ih h.2⟩

theorem Tiles.congr (h : Tiles start len lo bs hi) (starts : ∀ b ∈ bs, start' b = start b)
    (lens : ∀ b ∈ bs, len' b = len b) : Tiles start' len' lo bs hi := by
  induction bs generalizing lo with
  | nil => exact h
  | cons b bs ih =>
    obtain ⟨first, rest⟩ := h
    refine ⟨(starts b List.mem_cons_self).trans first, ?_⟩
    rw [lens b List.mem_cons_self]
    exact ih rest (fun c mem => starts c (List.mem_cons_of_mem b mem))
      fun c mem => lens c (List.mem_cons_of_mem b mem)

theorem Tiles.dvd {unit : Nat} (h : Tiles start len lo bs hi) (first : unit ∣ lo) (units : ∀ b ∈ bs, unit ∣ len b) :
    unit ∣ hi ∧ ∀ b ∈ bs, unit ∣ start b := by
  induction bs generalizing lo with
  | nil =>
    cases h
    exact ⟨first, by simp⟩
  | cons b bs ih =>
    obtain ⟨here, rest⟩ := h
    have next := ih rest (Nat.dvd_add first (units b List.mem_cons_self))
      fun c mem => units c (List.mem_cons_of_mem b mem)
    refine ⟨next.1, fun c mem => ?_⟩
    rcases List.mem_cons.mp mem with rfl | later
    · rw [here]
      exact first
    · exact next.2 c later

end Tiling
