import Mathlib.Logic.Function.Iterate
import Mathlib.Combinatorics.Pigeonhole
import Mathlib.Data.Finset.Card
import Mathlib.Tactic

/-! Walks along the links of a table that nothing vouches for: they may run in a circle.
A walk that only reads ends when it leaves the places it may be in. One that breaks each
link behind itself ends in any case, and has then been wherever the links led. -/
namespace Walk

section Reading

variable {α : Type*} {next : α → α} {inside : α → Prop} {x y : α}

/-- The walk from `x` comes to a place outside. -/
def Leaves (next : α → α) (inside : α → Prop) (x : α) : Prop := ∃ k, ¬ inside (next^[k] x)

theorem leaves_of_not (out : ¬ inside x) : Leaves next inside x := ⟨0, out⟩

theorem leaves_next (here : inside x) : Leaves next inside x ↔ Leaves next inside (next x) := by
  constructor
  · rintro ⟨k, out⟩
    cases k with
    | zero => exact absurd here out
    | succ k =>
      refine ⟨k, ?_⟩
      rw [Function.iterate_succ_apply] at out
      exact out
  · rintro ⟨k, out⟩
    refine ⟨k + 1, ?_⟩
    rw [Function.iterate_succ_apply]
    exact out

/-- What holds outside, and at a place if it holds at the next one, holds wherever a walk
that leaves can start. -/
theorem Leaves.rule (motive : α → Prop) (leaves : Leaves next inside x) (out : ∀ x, ¬ inside x → motive x)
    (step : ∀ x, inside x → motive (next x) → motive x) : motive x := by
  obtain ⟨k, ends⟩ := leaves
  induction k generalizing x with
  | zero => exact out x ends
  | succ k ih =>
    rw [Function.iterate_succ_apply] at ends
    by_cases here : inside x
    · exact step x here (ih ends)
    · exact out x here

/-- The places of the walk from `x`. -/
inductive Reached (next : α → α) (inside : α → Prop) (x : α) : α → Prop where
  | start : inside x → Reached next inside x x
  | step {y : α} : Reached next inside x y → inside (next y) → Reached next inside x (next y)

theorem Reached.first (h : Reached next inside x y) : inside x := by
  induction h with
  | start here => exact here
  | step _ _ ih => exact ih

theorem Reached.cons (here : inside x) (h : Reached next inside (next x) y) : Reached next inside x y := by
  induction h with
  | start there => exact .step (.start here) there
  | step _ there ih => exact .step ih there

theorem Reached.tail (h : Reached next inside x y) : y = x ∨ Reached next inside (next x) y := by
  induction h with
  | start => exact .inl rfl
  | @step y _ there ih =>
    rcases ih with rfl | later
    · exact .inr (.start there)
    · exact .inr (.step later there)

theorem Reached.only (stays : next x = x ∨ ¬ inside (next x)) (h : Reached next inside x y) : y = x := by
  induction h with
  | start => rfl
  | step _ there ih =>
    rw [ih] at there ⊢
    exact stays.resolve_right (not_not.mpr there)

theorem Reached.last (h : Reached next inside x y) : inside y := by
  cases h with
  | start here => exact here
  | step _ there => exact there

/-- A walk that goes on from `x` with the link of `x` broken reaches what it would have
reached anyway. -/
theorem reached_erase {zero : α} {next' : α → α} (out : ¬ inside zero) (here : inside x) (own : next' x = zero)
    (others : ∀ y, Reached next inside x y → y ≠ x → next' y = next y) :
    Reached next inside x y ↔ y = x ∨ Reached next' inside (next x) y := by
  constructor
  · intro reached
    induction reached with
    | start => exact .inl rfl
    | @step y before there ih =>
      refine .inr ?_
      by_cases same : y = x
      · rw [same] at there ⊢
        exact .start there
      · rw [← others y before same] at there ⊢
        exact .step (ih.resolve_left same) there
  · rintro (rfl | reached)
    · exact .start here
    · induction reached with
      | start there => exact .step (.start here) there
      | @step y _ there ih =>
        -- from `x` itself the broken link leads outside
        have apart : y ≠ x := by
          rintro rfl
          rw [own] at there
          exact out there
        rw [others y ih apart] at there ⊢
        exact .step ih there

/-- A walk over finitely many places has been everywhere it gets to after as many steps. -/
theorem iterate_early [DecidableEq α] {S : Finset α} {k : Nat}
    (inside : ∀ i ≤ k, next^[i] x ∈ S) : ∃ i < S.card, i ≤ k ∧ next^[i] x = next^[k] x := by
  induction k using Nat.strong_induction_on with
  | _ k ih =>
    by_cases early : k < S.card
    · exact ⟨k, early, Nat.le_refl k, rfl⟩
    · -- two of the first places are the same, and the walk between them can be left out
      have crowded : S.card < (Finset.range (S.card + 1)).card := by simp
      have lands : ∀ i ∈ Finset.range (S.card + 1), next^[i] x ∈ S := by
        intro i mem
        have := Finset.mem_range.mp mem
        exact inside i (by omega)
      obtain ⟨i, hi, j, hj, distinct, same⟩ := Finset.exists_ne_map_eq_of_card_lt_of_maps_to crowded lands
      rw [Finset.mem_range] at hi hj
      have shorter : ∀ a b, a < b → b ≤ k → next^[a] x = next^[b] x →
          ∃ i < S.card, i ≤ k ∧ next^[i] x = next^[k] x := by
        intro a b less low same
        have skip : next^[k - b + a] x = next^[k] x := by
          rw [Function.iterate_add_apply, same, ← Function.iterate_add_apply, Nat.sub_add_cancel low]
        obtain ⟨i, small, below, found⟩ := ih (k - b + a) (by omega) fun i le => inside i (by omega)
        exact ⟨i, small, by omega, found.trans skip⟩
      rcases Nat.lt_or_gt_of_ne distinct with less | more
      · exact shorter i j less (by omega) same
      · exact shorter j i more (by omega) same.symm

end Reading

section Breaking

variable {T α : Type*} (read : T → α → α) (erase : T → α → T) (inside : α → Prop) [DecidablePred inside]

/-- The walk that breaks the links it has followed. -/
def breaking : Nat → T → α → Option T
  | 0, _, _ => none
  | fuel + 1, t, x => if inside x then breaking fuel (erase t x) (read t x) else some t

variable {read erase inside} {zero : α} {t t' : T} {x y : α} {fuel : Nat}

/-- Every link it follows is one less, so it ends. -/
theorem breaking_ends (out : ¬ inside zero) (own : ∀ t x, inside x → read (erase t x) x = zero)
    (rest : ∀ t x y, read (erase t x) y = zero ∨ read (erase t x) y = read t y) [DecidableEq α] {S : Finset α}
    (covers : ∀ x, inside x → x ∈ S) (t : T) (x : α)
    (enough : (S.filter fun y => read t y ≠ zero).card + 2 ≤ fuel) :
    ∃ t', breaking read erase inside fuel t x = some t' := by
  induction fuel generalizing t x with
  | zero => omega
  | succ fuel ih =>
    rw [breaking]
    by_cases here : inside x
    · rw [if_pos here]
      by_cases broken : read t x = zero
      · -- the link was broken before: the next round is the last
        obtain ⟨n, rfl⟩ := Nat.exists_eq_succ_of_ne_zero (show fuel ≠ 0 by omega)
        rw [broken, breaking, if_neg out]
        exact ⟨_, rfl⟩
      · refine ih _ _ ?_
        have fewer : (S.filter fun y => read (erase t x) y ≠ zero) ⊂ S.filter fun y => read t y ≠ zero := by
          refine Finset.ssubset_iff_subset_ne.mpr ⟨fun y mem => ?_, fun same => ?_⟩
          · rw [Finset.mem_filter] at mem ⊢
            exact ⟨mem.1, (rest t x y).resolve_left mem.2 ▸ mem.2⟩
          · have mem : x ∈ S.filter fun y => read t y ≠ zero := Finset.mem_filter.mpr ⟨covers x here, broken⟩
            rw [← same, Finset.mem_filter] at mem
            exact mem.2 (own t x here)
        have less := Finset.card_lt_card fewer
        omega
    · rw [if_neg here]
      exact ⟨t, rfl⟩

omit [DecidablePred inside] in
theorem reached_spread {P : α → Prop} (out : ¬ inside zero) [DecidableEq α]
    (links : ∀ t x y, P x → P y → read (erase t x) y = if y = x then zero else read t y) (here : inside x)
    (all : ∀ y, Reached (read t) inside x y → P y) (y : α) :
    Reached (read t) inside x y ↔ y = x ∨ Reached (read (erase t x)) inside (read t x) y := by
  have px := all x (.start here)
  refine reached_erase out here ?_ fun z reached other => ?_
  · rw [links t x x px px, if_pos rfl]
  · rw [links t x z px (all z reached), if_neg other]

theorem breaking_rule [DecidableEq α] (I : T → Prop) {P : α → Prop} (out : ¬ inside zero)
    (links : ∀ t x y, P x → P y → read (erase t x) y = if y = x then zero else read t y)
    (keeps : ∀ t x, P x → I t → I (erase t x)) (all : ∀ y, Reached (read t) inside x y → P y) (start : I t)
    (ends : breaking read erase inside fuel t x = some t') : I t' := by
  induction fuel generalizing t x with
  | zero => cases ends
  | succ fuel ih =>
    rw [breaking] at ends
    by_cases here : inside x
    · rw [if_pos here] at ends
      have spread := reached_spread out links here all
      exact ih (fun z reached => all z ((spread z).mpr (.inr reached))) (keeps t x (all x (.start here)) start) ends
    · rw [if_neg here] at ends
      cases ends
      exact start

/-- Where erasing changes one link among those of `P`, exactly the links of the walk are
broken, also in what else is kept of the table. -/
theorem breaking_exact [DecidableEq α] {β : Type*} (look : T → α → β) {blank : β} {P : α → Prop} (out : ¬ inside zero)
    (links : ∀ t x y, P x → P y → read (erase t x) y = if y = x then zero else read t y)
    (looks : ∀ t x y, P x → P y → look (erase t x) y = if y = x then blank else look t y)
    (all : ∀ y, Reached (read t) inside x y → P y) (ends : breaking read erase inside fuel t x = some t') (py : P y) :
    (Reached (read t) inside x y → look t' y = blank) ∧
      (¬ Reached (read t) inside x y → look t' y = look t y) := by
  induction fuel generalizing t x with
  | zero => cases ends
  | succ fuel ih =>
    rw [breaking] at ends
    by_cases here : inside x
    · rw [if_pos here] at ends
      have px := all x (.start here)
      have spread := reached_spread out links here all
      obtain ⟨hit, miss⟩ := ih (fun z reached => all z ((spread z).mpr (.inr reached))) ends
      rw [looks t x y px py] at miss
      constructor
      · intro reached
        by_cases later : Reached (read (erase t x)) inside (read t x) y
        · exact hit later
        · rw [miss later, if_pos (((spread y).mp reached).resolve_right later)]
      · intro apart
        rw [spread, not_or] at apart
        rw [miss apart.2, if_neg apart.1]
    · rw [if_neg here] at ends
      cases ends
      exact ⟨fun reached => absurd reached.first here, fun _ => rfl⟩

theorem breaking_still (still : ∀ t x, erase t x = t) (t : T) (x : α) :
    (∀ fuel t', breaking read erase inside fuel t x = some t' → t' = t) ∧
      ((∃ fuel t', breaking read erase inside fuel t x = some t') ↔ Leaves (read t) inside x) := by
  refine ⟨fun fuel t' ends => ?_, ?_, fun leaves => ?_⟩
  · induction fuel generalizing x with
    | zero => cases ends
    | succ fuel ih =>
      rw [breaking, still] at ends
      by_cases here : inside x
      · rw [if_pos here] at ends
        exact ih _ ends
      · rw [if_neg here] at ends
        exact (Option.some.inj ends).symm
  · rintro ⟨fuel, t', ends⟩
    induction fuel generalizing x with
    | zero => cases ends
    | succ fuel ih =>
      rw [breaking, still] at ends
      by_cases here : inside x
      · rw [if_pos here] at ends
        exact (leaves_next here).mpr (ih _ ends)
      · exact leaves_of_not here
  · refine leaves.rule (fun x => ∃ fuel t', breaking read erase inside fuel t x = some t') ?_ ?_
    · intro x out
      exact ⟨1, t, if_neg out⟩
    · rintro x here ⟨fuel, t', ends⟩
      refine ⟨fuel + 1, t', ?_⟩
      rw [breaking, if_pos here, still]
      exact ends

end Breaking

end Walk
