import Mathlib.Tactic

/-! Loops over index ranges and runs of deterministic machines. A loop is a left
fold; its rule carries an assertion indexed by the number of rounds already made.
A run collects one answer per input, so two machines can be compared by answers. -/
namespace Run

theorem range_rule {S : Type*} (I : Nat → S → Prop) (body : S → Nat → S) (n : Nat) (s : S)
    (start : I 0 s) (step : ∀ i, i < n → ∀ t, I i t → I (i + 1) (body t i)) :
    I n ((List.range n).foldl body s) := by
  induction n with
  | zero => exact start
  | succ n ih =>
    rw [List.range_succ, List.foldl_append]
    exact step n (Nat.lt_succ_self n) _
      (ih fun i hi t ht => step i (Nat.lt_succ_of_lt hi) t ht)

theorem foldl_rule {S A : Type*} (I : S → Prop) (body : S → A → S) (xs : List A) (s : S)
    (start : I s) (step : ∀ a ∈ xs, ∀ t, I t → I (body t a)) : I (xs.foldl body s) := by
  induction xs generalizing s with
  | nil => exact start
  | cons a xs ih =>
    exact ih (body s a) (step a List.mem_cons_self s start)
      (fun b hb t ht => step b (List.mem_cons_of_mem a hb) t ht)

section Machine

variable {S A B : Type*}

/-- The state after a list of inputs, and the answers given on the way. -/
def run (step : S → A → S × B) : S → List A → S × List B
  | s, [] => (s, [])
  | s, a :: rest =>
    let t := step s a
    let u := run step t.1 rest
    (u.1, t.2 :: u.2)

@[simp] theorem run_nil (step : S → A → S × B) (s : S) : run step s [] = (s, []) := rfl

@[simp] theorem run_cons (step : S → A → S × B) (s : S) (a : A) (rest : List A) :
    run step s (a :: rest) =
      ((run step (step s a).1 rest).1, (step s a).2 :: (run step (step s a).1 rest).2) := rfl

theorem run_invariant (step : S → A → S × B) (I : S → Prop)
    (keeps : ∀ s a, I s → I (step s a).1) (s : S) (xs : List A) (start : I s) :
    I (run step s xs).1 := by
  induction xs generalizing s with
  | nil => exact start
  | cons a rest ih => exact ih _ (keeps s a start)

/-- Every step of the run meets a condition on the state it starts from. -/
def Along (step : S → A → S × B) (ok : S → A → Prop) : S → List A → Prop
  | _, [] => True
  | s, a :: rest => ok s a ∧ Along step ok (step s a).1 rest

instance decidableAlong (step : S → A → S × B) (ok : S → A → Prop) [∀ s a, Decidable (ok s a)] :
    ∀ s xs, Decidable (Along step ok s xs)
  | _, [] => isTrue trivial
  | s, a :: rest =>
    have := decidableAlong step ok (step s a).1 rest
    inferInstanceAs (Decidable (ok s a ∧ Along step ok (step s a).1 rest))

theorem along_append (step : S → A → S × B) (ok : S → A → Prop) (s : S) (xs ys : List A) :
    Along step ok s (xs ++ ys) ↔ Along step ok s xs ∧ Along step ok (run step s xs).1 ys := by
  induction xs generalizing s with
  | nil => exact ⟨fun later => ⟨trivial, later⟩, fun both => both.2⟩
  | cons a rest ih =>
    rw [List.cons_append, Along, Along, ih, and_assoc]
    rfl

/-- Under an invariant that a condition keeps, and where a promise holds at exactly the steps that
meet the condition, the promise holds along the same runs as the condition. -/
theorem along_iff {step : S → A → S × B} {ok meets : S → A → Prop} (I : S → Prop)
    (keeps : ∀ s a, I s → ok s a → I (step s a).1) (same : ∀ s a, I s → (meets s a ↔ ok s a)) {s : S} (start : I s)
    (xs : List A) : Along step meets s xs ↔ Along step ok s xs := by
  induction xs generalizing s with
  | nil => exact Iff.rfl
  | cons a rest ih =>
    rw [Along, Along, same s a start]
    exact and_congr_right fun permitted => ih (keeps s a start permitted)

theorem run_invariant_along (step : S → A → S × B) (ok : S → A → Prop) (I : S → Prop)
    (keeps : ∀ s a, I s → ok s a → I (step s a).1) (s : S) (xs : List A) (start : I s)
    (along : Along step ok s xs) : I (run step s xs).1 := by
  induction xs generalizing s with
  | nil => exact start
  | cons a rest ih => exact ih _ (keeps s a start along.1) along.2

/-- What an invariant gives at every permitted step holds at every step of a permitted run. -/
theorem Along.gives {step : S → A → S × B} {ok meets : S → A → Prop} (I : S → Prop)
    (keeps : ∀ s a, I s → ok s a → I (step s a).1) (gives : ∀ s a, I s → ok s a → meets s a) {s : S} {xs : List A}
    (start : I s) (along : Along step ok s xs) : Along step meets s xs := by
  induction xs generalizing s with
  | nil => exact trivial
  | cons a rest ih => exact ⟨gives s a start along.1, ih (keeps s a start along.1) along.2⟩

/-- Two machines related step by step give the same answers along every run that
does not fail. -/
theorem run_simulation {T : Type*} (step : S → A → S × B) (refStep : T → A → T × B)
    (failed : S → Prop) (R : S → T → Prop)
    (permanent : ∀ s a, failed s → failed (step s a).1)
    (keeps : ∀ s t a, R s t → ¬ failed (step s a).1 →
      R (step s a).1 (refStep t a).1 ∧ (step s a).2 = (refStep t a).2)
    (s : S) (t : T) (xs : List A) (start : R s t) (fine : ¬ failed (run step s xs).1) :
    R (run step s xs).1 (run refStep t xs).1 ∧ (run step s xs).2 = (run refStep t xs).2 := by
  induction xs generalizing s t with
  | nil => exact ⟨start, rfl⟩
  | cons a rest ih =>
    have ok : ¬ failed (step s a).1 := fun bad =>
      fine (run_invariant step failed permanent _ rest bad)
    have h := keeps s t a start ok
    have hr := ih _ _ h.1 fine
    exact ⟨hr.1, by simp only [run_cons, h.2, hr.2]⟩

/-- Under a condition on the first machine's steps, two related machines stay related and give
the same answers. -/
theorem run_simulation_along {T : Type*} (step : S → A → S × B) (refStep : T → A → T × B) (ok : S → A → Prop)
    (R : S → T → Prop)
    (keeps : ∀ s t a, R s t → ok s a → R (step s a).1 (refStep t a).1 ∧ (step s a).2 = (refStep t a).2)
    (s : S) (t : T) (xs : List A) (start : R s t) (along : Along step ok s xs) :
    R (run step s xs).1 (run refStep t xs).1 ∧ (run step s xs).2 = (run refStep t xs).2 := by
  induction xs generalizing s t with
  | nil => exact ⟨start, rfl⟩
  | cons a rest ih =>
    have h := keeps s t a start along.1
    have hr := ih _ _ h.1 along.2
    exact ⟨hr.1, by simp only [run_cons, h.2, hr.2]⟩

end Machine

end Run
