import Mathlib.Data.List.Nodup
import Mathlib.Data.List.Perm.Basic
import Mathlib.Data.List.Range
import Mathlib.Logic.Function.Iterate
import Mathlib.Tactic

/-! Closed walks in a table of next pointers: circular lists. A walk is named by
the cells it passes between its two ends. -/
namespace Tour

variable {α : Type*} {next next' : α → α} {a b c d t : α} {xs ys as bs : List α}

/-- From `a`, the pointers lead through exactly these cells and then to `b`. -/
def Path (next : α → α) : α → List α → α → Prop
  | a, [], b => next a = b
  | a, x :: xs, b => next a = x ∧ Path next x xs b

@[simp] theorem path_nil : Path next a [] b ↔ next a = b := Iff.rfl

@[simp] theorem path_cons {x : α} : Path next a (x :: xs) b ↔ next a = x ∧ Path next x xs b := Iff.rfl

theorem path_append : Path next a (xs ++ d :: ys) b ↔ Path next a xs d ∧ Path next d ys b := by
  induction xs generalizing a with
  | nil => exact Iff.rfl
  | cons x xs ih =>
    rw [List.cons_append, path_cons, path_cons, ih, and_assoc]

theorem Path.congr (h : Path next a xs b) (start : next' c = next a)
    (same : ∀ y ∈ xs, next' y = next y) : Path next' c xs b := by
  induction xs generalizing a c with
  | nil => exact start.trans h
  | cons x xs ih =>
    refine ⟨start.trans h.1, ?_⟩
    exact ih h.2 (same x List.mem_cons_self) fun y hy => same y (List.mem_cons_of_mem x hy)

theorem Path.iterate (h : Path next a xs b) (i : Nat) (hi : i < xs.length) :
    next^[i + 1] a = xs[i] := by
  induction xs generalizing a i with
  | nil => simp at hi
  | cons x xs ih =>
    rw [Function.iterate_succ_apply, h.1]
    cases i with
    | zero => rfl
    | succ i => exact ih h.2 i (by simpa using hi)

theorem Path.iterate_end (h : Path next a xs b) : next^[xs.length + 1] a = b := by
  induction xs generalizing a with
  | nil => exact h
  | cons x xs ih =>
    rw [List.length_cons, Function.iterate_succ_apply, h.1]
    exact ih h.2

/-- A circle seen from one of its cells: the walk comes back and meets no cell twice. -/
structure Circle (next : α → α) (c : α) (xs : List α) : Prop where
  path : Path next c xs c
  nodup : (c :: xs).Nodup

theorem Circle.turn (h : Circle next c (as ++ d :: bs)) : Circle next d (bs ++ c :: as) := by
  obtain ⟨there, back⟩ := path_append.mp h.path
  refine ⟨path_append.mpr ⟨back, there⟩, ?_⟩
  have perm : (d :: (bs ++ c :: as)).Perm (c :: (as ++ d :: bs)) := by
    rw [← List.cons_append, ← List.cons_append]
    exact List.perm_append_comm
  exact perm.nodup_iff.mpr h.nodup

theorem Circle.insert (h : Circle next c xs) (fresh : t ∉ c :: xs) (first : next' c = t)
    (second : next' t = next c) (same : ∀ y ∈ xs, next' y = next y) : Circle next' c (t :: xs) := by
  refine ⟨⟨first, h.path.congr second same⟩, ?_⟩
  rw [List.nodup_cons, List.nodup_cons]
  rw [List.mem_cons, not_or] at fresh
  have parts := List.nodup_cons.mp h.nodup
  exact ⟨by simpa [Ne.symm fresh.1] using parts.1, fresh.2, parts.2⟩

theorem Circle.remove (h : Circle next c (as ++ t :: bs))
    (skips : next' ((c :: as).getLast (List.cons_ne_nil c as)) = next t)
    (same : ∀ y, y ≠ (c :: as).getLast (List.cons_ne_nil c as) → next' y = next y) :
    Circle next' c (as ++ bs) := by
  have sub : (c :: (as ++ bs)).Sublist (c :: (as ++ t :: bs)) :=
    ((List.sublist_cons_self t bs).append_left as).cons_cons c
  refine ⟨?_, h.nodup.sublist sub⟩
  obtain ⟨there, back⟩ := path_append.mp h.path
  rcases List.eq_nil_or_concat as with rfl | ⟨as', q, rfl⟩
  · refine back.congr skips fun y hy => same y ?_
    rintro rfl
    have := (List.nodup_cons.mp h.nodup).1
    simp [hy] at this
  · have last : (c :: as'.concat q).getLast (List.cons_ne_nil _ _) = q := by simp
    rw [last] at skips same
    rw [List.concat_eq_append] at *
    rw [List.append_assoc] at h ⊢
    obtain ⟨there, before⟩ := path_append.mp there
    have nodup := h.nodup
    rw [← List.cons_append, List.singleton_append, List.nodup_append] at nodup
    refine path_append.mpr
      ⟨there.congr (same c ?_) fun y hy => same y ?_, back.congr skips fun y hy => same y ?_⟩
    · rintro rfl
      exact nodup.2.2 c List.mem_cons_self c List.mem_cons_self rfl
    · rintro rfl
      exact nodup.2.2 y (List.mem_cons_of_mem _ hy) y List.mem_cons_self rfl
    · rintro rfl
      have := (List.nodup_cons.mp nodup.2.1).1
      simp [hy] at this

/-- Every cell of a circle is met exactly once on one way round. -/
theorem Circle.visits (h : Circle next c xs) (ht : t ∈ c :: xs) :
    ∃! i, i < xs.length + 1 ∧ next^[i] c = t := by
  have at_ : ∀ i, (hi : i < (c :: xs).length) → next^[i] c = (c :: xs)[i] := by
    intro i hi
    cases i with
    | zero => rfl
    | succ i => exact h.path.iterate i (by simpa using hi)
  obtain ⟨i, hi, rfl⟩ := List.mem_iff_getElem.mp ht
  refine ⟨i, ⟨by simpa using hi, at_ i hi⟩, ?_⟩
  rintro j ⟨hj, same⟩
  have hj' : j < (c :: xs).length := by simpa using hj
  rw [at_ j hj'] at same
  exact (List.Nodup.getElem_inj_iff h.nodup).mp same

theorem Path.unique (h : Path next a xs b) (h' : Path next a ys b) (outside : b ∉ xs) (outside' : b ∉ ys) :
    xs = ys := by
  induction xs generalizing a ys with
  | nil =>
    cases ys with
    | nil => rfl
    | cons y ys => exact absurd (h.symm.trans h'.1) (fun same => outside' (same ▸ List.mem_cons_self))
  | cons x xs ih =>
    cases ys with
    | nil => exact absurd (h'.symm.trans h.1) (fun same => outside (same ▸ List.mem_cons_self))
    | cons y ys =>
      obtain rfl : x = y := h.1.symm.trans h'.1
      rw [ih h.2 h'.2 (fun mem => outside (List.mem_cons_of_mem x mem)) fun mem =>
        outside' (List.mem_cons_of_mem x mem)]

theorem Circle.unique (h : Circle next c xs) (h' : Circle next c ys) : xs = ys :=
  h.path.unique h'.path (List.nodup_cons.mp h.nodup).1 (List.nodup_cons.mp h'.nodup).1

/-- On the way round from `c`, and `c` itself comes last, these cells come before `t`. -/
def Waits (next : α → α) (c : α) (ahead : List α) (t : α) : Prop :=
  ∃ xs rest, Circle next c xs ∧ xs ++ [c] = ahead ++ t :: rest

variable {ahead : List α}

theorem Circle.waits (h : Circle next c xs) (mem : t ∈ c :: xs) : ∃ ahead, Waits next c ahead t := by
  have mem : t ∈ xs ++ [c] := by
    rw [List.mem_append, List.mem_singleton, or_comm]
    exact List.mem_cons.mp mem
  obtain ⟨ahead, rest, split⟩ := List.append_of_mem mem
  exact ⟨ahead, xs, rest, h, split⟩

theorem Waits.nodup (h : Waits next c ahead t) : ahead.Nodup := by
  obtain ⟨xs, rest, circle, split⟩ := h
  have nodup := (List.perm_append_singleton c xs).nodup_iff.mpr circle.nodup
  rw [split] at nodup
  exact (List.nodup_append.mp nodup).1

theorem Waits.length_lt (h : Waits next c ahead t) (circle : Circle next c xs) : ahead.length < xs.length + 1 := by
  obtain ⟨ys, rest, circle', split⟩ := h
  obtain rfl := circle.unique circle'
  have := congrArg List.length split
  simp only [List.length_append, List.length_cons, List.length_nil] at this
  omega

theorem Waits.turn (h : Waits next c ahead t) (circle : Circle next c (as ++ d :: bs)) (apart : t ∉ as ++ [d]) :
    ∃ later, ahead = as ++ d :: later ∧ Waits next d later t := by
  obtain ⟨ys, rest, circle', split⟩ := h
  obtain rfl := circle.unique circle'
  have split : (as ++ [d]) ++ (bs ++ [c]) = ahead ++ t :: rest := by simpa using split
  rcases List.append_eq_append_iff.mp split with ⟨later, rfl, tail⟩ | ⟨zs, eq, -⟩
  · refine ⟨later, by simp, bs ++ c :: as, rest ++ as ++ [d], circle.turn, ?_⟩
    have := congrArg (· ++ (as ++ [d])) tail
    simpa using this
  · cases zs with
    | nil =>
      rw [List.append_nil] at eq
      refine ⟨[], by simpa using eq.symm, bs ++ c :: as, rest ++ as ++ [d], circle.turn, ?_⟩
      rw [← eq, List.append_cancel_left_eq] at split
      have := congrArg (· ++ (as ++ [d])) split
      simpa using this
    | cons z zs =>
      exfalso
      rw [eq, List.append_assoc, List.append_cancel_left_eq, List.cons_append, List.cons.injEq] at split
      exact apart (by rw [eq, ← split.1]; simp)

theorem Waits.insert {u : α} (h : Waits next c ahead t) (circle : Circle next c xs) (fresh : u ∉ c :: xs)
    (first : next' c = u) (second : next' u = next c) (same : ∀ y ∈ xs, next' y = next y) :
    Waits next' c (u :: ahead) t := by
  obtain ⟨ys, rest, circle', split⟩ := h
  obtain rfl := circle.unique circle'
  exact ⟨u :: xs, rest, circle.insert fresh first second same, by rw [List.cons_append, split, List.cons_append]⟩

theorem Waits.remove {u : α} (h : Waits next c ahead t) (circle : Circle next c (as ++ u :: bs))
    (other : t ≠ u) (circle' : Circle next' c (as ++ bs)) :
    ∃ less, less.Sublist ahead ∧ Waits next' c less t := by
  obtain ⟨ys, rest, circle'', split⟩ := h
  obtain rfl := circle.unique circle''
  have split : as ++ u :: (bs ++ [c]) = ahead ++ t :: rest := by simpa using split
  rcases List.append_eq_append_iff.mp split with ⟨zs, rfl, tail⟩ | ⟨zs, rfl, tail⟩
  · cases zs with
    | nil => exact absurd (List.cons.inj tail).1.symm other
    | cons z zs =>
      obtain ⟨rfl, behind⟩ := List.cons.inj tail
      refine ⟨as ++ zs, (List.sublist_cons_self u zs).append_left as, as ++ bs, rest, circle', ?_⟩
      rw [List.append_assoc, behind]
      exact (List.append_assoc as zs (t :: rest)).symm
  · cases zs with
    | nil => exact absurd (List.cons.inj tail).1 other
    | cons z zs =>
      obtain ⟨rfl, tail⟩ := List.cons.inj tail
      refine ⟨ahead, .refl _, ahead ++ t :: zs ++ bs, zs ++ (bs ++ [c]), circle', ?_⟩
      simp

end Tour
