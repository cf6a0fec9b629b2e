import Isunux.Frames
import Isunux.Lib.Tour

/-! The ring of tasks. Both loops over it stop because following `next` from the
current task meets every task in use once and comes back. -/
namespace Isunux

def Kernel.next (k : Kernel) (t : Nat) : Nat := (k.tasks t).next

/-- From the current task, `next` leads once round all tasks in use. -/
def Ringed (k : Kernel) : Prop :=
  ∃ others, Tour.Circle k.next k.current others ∧ ∀ t, t ∈ k.current :: others ↔ t < k.taskCount

theorem Ringed.length {k : Kernel} {others : List Nat} (circle : Tour.Circle k.next k.current others)
    (all : ∀ t, t ∈ k.current :: others ↔ t < k.taskCount) : others.length + 1 = k.taskCount := by
  have perm : (k.current :: others).Perm (List.range k.taskCount) :=
    (List.perm_ext_iff_of_nodup circle.nodup List.nodup_range).mpr fun t => by
      rw [all, List.mem_range]
  simpa using perm.length_eq

/-- The ring read off as in the source: every task is met exactly once. -/
theorem Ringed.visits {k : Kernel} (r : Ringed k) :
    (∀ t, t < k.taskCount → ∃! i, i < k.taskCount ∧ k.next^[i] k.current = t) ∧
      k.next^[k.taskCount] k.current = k.current := by
  obtain ⟨others, circle, all⟩ := r
  have length := Ringed.length circle all
  constructor
  · intro t ht
    rw [← length]
    exact circle.visits ((all t).mpr ht)
  · rw [← length]
    exact circle.path.iterate_end

theorem Ringed.turn {k k' : Kernel} (r : Ringed k) (next : k'.next = k.next)
    (taskCount : k'.taskCount = k.taskCount) (current : k'.current < k.taskCount) : Ringed k' := by
  obtain ⟨others, circle, all⟩ := r
  by_cases same : k'.current = k.current
  · exact ⟨others, by rw [next, same]; exact circle, by rw [same, taskCount]; exact all⟩
  · have mem : k'.current ∈ others := by
      have := (all k'.current).mpr current
      rwa [List.mem_cons, or_iff_right same] at this
    obtain ⟨as, bs, rfl⟩ := List.append_of_mem mem
    refine ⟨bs ++ k.current :: as, by rw [next]; exact circle.turn, fun t => ?_⟩
    rw [taskCount, ← all]
    simp only [List.mem_cons, List.mem_append]
    tauto

theorem ringBefore_eq {tasks : Nat → Task} {current t : Nat} {as : List Nat} {iter fuel : Nat}
    (path : Tour.Path (fun i => (tasks i).next) iter as t) (away : ∀ x ∈ as, x ≠ t ∧ x ≠ current)
    (enough : as.length < fuel) :
    ringBefore tasks current t fuel iter = (iter :: as).getLast (List.cons_ne_nil iter as) := by
  induction as generalizing iter fuel with
  | nil =>
    obtain ⟨fuel, rfl⟩ : ∃ n, fuel = n + 1 := ⟨fuel - 1, by simp at enough; omega⟩
    rw [Tour.path_nil] at path
    simp [ringBefore, path]
  | cons x xs ih =>
    obtain ⟨fuel, rfl⟩ : ∃ n, fuel = n + 1 := ⟨fuel - 1, by simp at enough; omega⟩
    have first : (tasks iter).next = x := path.1
    rw [ringBefore, first, if_pos (away x List.mem_cons_self), List.getLast_cons_cons]
    exact ih path.2 (fun y hy => away y (List.mem_cons_of_mem x hy)) (by simpa using enough)

theorem pickNextReady_eq {tasks : Nat → Task} {start : Nat} {xs : List Nat} {iter fuel : Nat}
    (path : Tour.Path (fun i => (tasks i).next) iter xs start) (away : start ∉ xs)
    (enough : xs.length < fuel) :
    pickNextReady tasks start fuel (tasks iter).next =
      xs.find? fun t => (tasks t).state = .ready := by
  induction xs generalizing iter fuel with
  | nil =>
    obtain ⟨fuel, rfl⟩ : ∃ n, fuel = n + 1 := ⟨fuel - 1, by simp at enough; omega⟩
    rw [Tour.path_nil] at path
    simp [pickNextReady, path]
  | cons x xs ih =>
    obtain ⟨fuel, rfl⟩ : ∃ n, fuel = n + 1 := ⟨fuel - 1, by simp at enough; omega⟩
    rw [List.mem_cons, not_or] at away
    have first : (tasks iter).next = x := path.1
    rw [first, pickNextReady, if_neg (Ne.symm away.1)]
    by_cases ready : (tasks x).state = .ready
    · simp [ready]
    · rw [if_neg ready, List.find?_cons_of_neg (by simpa using ready)]
      exact ih path.2 away.2 (by simpa using enough)

theorem spliceTask_next {k : Kernel} {t : Nat} {others : List Nat}
    (circle : Tour.Circle k.next k.current others) (fresh : t ∉ k.current :: others) :
    (spliceTask k t).next k.current = t ∧ (spliceTask k t).next t = k.next k.current ∧
      ∀ y ∈ others, (spliceTask k t).next y = k.next y := by
  rw [List.mem_cons, not_or] at fresh
  refine ⟨?_, ?_, ?_⟩
  · show ((spliceTask k t).tasks k.current).next = t
    simp [spliceTask, Kernel.setTask]
  · show ((spliceTask k t).tasks t).next = (k.tasks k.current).next
    simp [spliceTask, Kernel.setTask, fresh.1]
  · intro y hy
    have hc : y ≠ k.current := by
      rintro rfl
      exact (List.nodup_cons.mp circle.nodup).1 hy
    have ht : y ≠ t := by
      rintro rfl
      exact fresh.2 hy
    show ((spliceTask k t).tasks y).next = (k.tasks y).next
    simp [spliceTask, Kernel.setTask, hc, ht]

theorem spliceTask_ringed {k : Kernel} {t : Nat} {others : List Nat}
    (circle : Tour.Circle k.next k.current others) (fresh : t ∉ k.current :: others)
    (all : ∀ u, u = t ∨ u ∈ k.current :: others ↔ u < k.taskCount) : Ringed (spliceTask k t) := by
  obtain ⟨first, second, same⟩ := spliceTask_next circle fresh
  refine ⟨t :: others, circle.insert fresh first second same, fun u => ?_⟩
  show u ∈ k.current :: t :: others ↔ u < k.taskCount
  rw [← all, List.mem_cons, List.mem_cons, List.mem_cons]
  tauto

theorem unlinkTaskFromRing_skips {k : Kernel} {t : Nat} {as bs : List Nat}
    (circle : Tour.Circle k.next k.current (as ++ t :: bs)) (few : as.length < maxTasks) :
    Tour.Circle (unlinkTaskFromRing k t).next k.current (as ++ bs) := by
  have nodup := circle.nodup
  have apart : t ≠ k.current := by
    rintro rfl
    exact (List.nodup_cons.mp nodup).1 (List.mem_append_right as List.mem_cons_self)
  have before : ringBefore k.tasks k.current t maxTasks k.current =
      (k.current :: as).getLast (List.cons_ne_nil _ _) := by
    refine ringBefore_eq (Tour.path_append.mp circle.path).1 ?_ few
    intro x hx
    rw [List.nodup_cons, List.nodup_append] at nodup
    refine ⟨nodup.2.2.2 x hx t List.mem_cons_self, ?_⟩
    rintro rfl
    exact nodup.1 (List.mem_append_left _ hx)
  have last : (k.tasks ((k.current :: as).getLast (List.cons_ne_nil _ _))).next = t := by
    have := (Tour.path_append.mp circle.path).1
    rcases List.eq_nil_or_concat as with rfl | ⟨as', q, rfl⟩
    · exact this
    · rw [List.concat_eq_append] at this
      have step := (Tour.path_append.mp this).2
      simpa [Kernel.next] using step
  have eq : unlinkTaskFromRing k t =
      k.setTask ((k.current :: as).getLast (List.cons_ne_nil _ _)) fun x =>
        { x with next := (k.tasks t).next } := by
    unfold unlinkTaskFromRing
    rw [if_neg apart]
    simp only [before]
    rw [if_pos last]
  refine circle.remove ?_ ?_
  · rw [eq]
    show ((k.setTask _ _).tasks _).next = (k.tasks t).next
    simp [Kernel.setTask]
  · intro y hy
    rw [eq]
    show ((k.setTask _ _).tasks y).next = (k.tasks y).next
    simp only [Kernel.setTask, Function.update_of_ne hy]

theorem unlinkTaskFromRing_circle {k : Kernel} {t : Nat} (r : Ringed k) (count : k.taskCount ≤ maxTasks)
    (bound : t < k.taskCount) (apart : t ≠ k.current) :
    ∃ others, Tour.Circle (unlinkTaskFromRing k t).next k.current others ∧ t ∉ k.current :: others ∧
      ∀ u, u = t ∨ u ∈ k.current :: others ↔ u < k.taskCount := by
  obtain ⟨others, circle, all⟩ := r
  have length := Ringed.length circle all
  have mem : t ∈ others := by
    have := (all t).mpr bound
    rwa [List.mem_cons, or_iff_right apart] at this
  obtain ⟨as, bs, rfl⟩ := List.append_of_mem mem
  have nodup := circle.nodup
  refine ⟨as ++ bs, unlinkTaskFromRing_skips circle ?_, ?_, ?_⟩
  · rw [List.length_append, List.length_cons] at length
    omega
  · rw [List.nodup_cons, List.nodup_append] at nodup
    simp only [List.mem_cons, List.mem_append, not_or]
    refine ⟨apart, fun h => nodup.2.2.2 t h t List.mem_cons_self rfl, ?_⟩
    exact (List.nodup_cons.mp nodup.2.2.1).1
  · intro u
    rw [← all]
    simp only [List.mem_cons, List.mem_append]
    tauto

theorem taskAllocRaw_current (k : Kernel) : (taskAllocRaw k).1.current = k.current := by
  unfold taskAllocRaw
  split
  · rfl
  · split
    · rfl
    · rename_i t _
      have := (unlinkTaskFromRing_rest k t).2.1
      simp only
      split <;> exact this

theorem taskAllocRaw_ringed {k : Kernel} (o : Ordered k) (r : Ringed k) : Ringed (taskAllocRaw k).1 := by
  unfold taskAllocRaw
  split
  · obtain ⟨others, circle, all⟩ := r
    refine @spliceTask_ringed _ _ others circle ?_ ?_
    · exact fun mem => lt_irrefl _ ((all _).mp mem)
    · intro u
      show u = k.taskCount ∨ u ∈ k.current :: others ↔ u < k.taskCount + 1
      rw [all]
      omega
  · rename_i full
    split
    · exact r
    · rename_i t found
      have dead := List.find?_some found
      simp only [decide_eq_true_eq] at dead
      have count := o.count_le
      have bound : t < k.taskCount := by
        have := List.mem_range.mp (List.mem_of_find?_eq_some found)
        omega
      obtain ⟨others, circle, out, all⟩ := unlinkTaskFromRing_circle r count bound dead.1
      obtain ⟨-, current, taskCount, -⟩ := unlinkTaskFromRing_rest k t
      simp only
      generalize unlinkTaskFromRing k t = k₁ at circle current taskCount ⊢
      rw [← current] at circle out all
      rw [← taskCount] at all
      split
      · exact @spliceTask_ringed _ _ others circle out all
      · exact @spliceTask_ringed _ _ others circle out all

end Isunux
