import Isunux.Lib.Route

/-! Walks in a tree whose looks change a state: a look finds a child, finds none, or does not
come back. Where no look changes the state this is a walk. -/
namespace Route

section Treks

variable {α S N : Type} (up : S → N → N) (look : S → N → α → Option (S × Option N))

/-- What is left of a walk whose first part ended so. -/
def goOn (rest : S → N → Option (S × Option N)) : Option (S × Option N) → Option (S × Option N)
  | none => none
  | some (s, none) => some (s, none)
  | some (s, some n) => rest s n

def trek : S → N → List (Move α) → Option (S × Option N)
  | s, n, [] => some (s, some n)
  | s, n, .up :: ms => trek s (up s n) ms
  | s, n, .down a :: ms => goOn (fun s m => trek s m ms) (look s n a)

variable {up look} {s t : S} {n x : N} {ms ns : List (Move α)}

theorem goOn_goOn {f h : S → N → Option (S × Option N)} (r : Option (S × Option N)) :
    goOn h (goOn f r) = goOn (fun s n => goOn h (f s n)) r := by
  rcases r with _ | ⟨s, _ | n⟩ <;> rfl

theorem goOn_some {f : S → N → Option (S × Option N)} {r : Option (S × Option N)} {e : S × Option N} (found : e.2 ≠ none) :
    goOn f r = some e ↔ ∃ t m, r = some (t, some m) ∧ f t m = some e := by
  constructor
  · intro result
    rcases r with _ | ⟨t, _ | m⟩
    · cases result
    · cases result
      exact absurd rfl found
    · exact ⟨t, m, rfl, result⟩
  · rintro ⟨t, m, rfl, result⟩
    exact result

theorem trek_append : trek up look s n (ms ++ ns) = goOn (fun t m => trek up look t m ns) (trek up look s n ms) := by
  induction ms generalizing s n with
  | nil => rfl
  | cons m ms ih =>
    cases m with
    | up => exact ih
    | down a =>
      rw [List.cons_append, trek, trek, goOn_goOn]
      congr 1
      funext t m
      exact ih

/-- No look on the way changes the state; `child` is what they find. -/
def Still (up : S → N → N) (look : S → N → α → Option (S × Option N)) (child : N → α → Option N) (s : S) :
    N → List (Move α) → Prop
  | _, [] => True
  | n, .up :: ms => Still up look child s (up s n) ms
  | n, .down a :: ms => look s n a = some (s, child n a) ∧ ∀ m, child n a = some m → Still up look child s m ms

theorem Still.trek {child : N → α → Option N} (still : Still up look child s n ms) :
    trek up look s n ms = some (s, walk (up s) child n ms) := by
  induction ms generalizing n with
  | nil => rfl
  | cons m ms ih =>
    cases m with
    | up => exact ih still
    | down a =>
      obtain ⟨here, later⟩ := still
      rw [Route.trek, walk, here]
      cases step : child n a with
      | none => rfl
      | some m => exact ih (later m step)

/-- A trek that arrived guides two others over the same moves, which then do the same. The
states of the second are those of the first changed by `f`. -/
theorem trek_guided {R : S × N → S × N → Prop} {f : S → S}
    (ups : ∀ a b, R a b → R (a.1, up a.1 a.2) (b.1, up b.1 b.2) ∧ up (f b.1) b.2 = up b.1 b.2)
    (downs : ∀ a b c t m, R a b → look a.1 a.2 c = some (t, some m) →
      look (f b.1) b.2 c = (look b.1 b.2 c).map (fun r => (f r.1, r.2)) ∧
        ∀ t' m', look b.1 b.2 c = some (t', some m') → R (t, m) (t', m'))
    {s' : S} {n' : N} (start : R (s, n) (s', n')) (guide : trek up look s n ms = some (t, some x)) :
    trek up look (f s') n' ms = (trek up look s' n' ms).map (fun r => (f r.1, r.2)) ∧
      ∀ t' x', trek up look s' n' ms = some (t', some x') → R (t, x) (t', x') := by
  induction ms generalizing s n s' n' with
  | nil =>
    cases guide
    refine ⟨rfl, fun t' x' same => ?_⟩
    cases same
    exact start
  | cons m ms ih =>
    cases m with
    | up =>
      obtain ⟨related, same⟩ := ups _ _ start
      simp only [trek] at guide ⊢
      dsimp only at same
      rw [same]
      exact ih related guide
    | down a =>
      obtain ⟨u, m, step, later⟩ := (goOn_some (by simp)).mp guide
      obtain ⟨same, related⟩ := downs _ _ a u m start step
      dsimp only at same related
      simp only [trek]
      rw [same]
      cases step' : look s' n' a with
      | none => exact ⟨rfl, fun t' x' arrived => by cases arrived⟩
      | some e =>
        obtain ⟨u', found⟩ := e
        cases found with
        | none => exact ⟨rfl, fun t' x' arrived => by cases arrived⟩
        | some m' => exact ih (related u' m' step') later

end Treks

end Route
