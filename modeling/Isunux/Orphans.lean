import Isunux.Histories

/-! Whether every process still has a parent that can wait for it. Nothing in process.c
gives the children of a dead process to another one, so it depends on who dies first. -/
namespace Isunux

/-- Nobody in the table has this pid for its parent. -/
def Childless (k : Kernel) (pid : Int) : Prop :=
  ∀ p, p < maxProcesses → (k.procs p).pid ≠ 0 → (k.procs p).parentPid ≠ pid

/-- Every process that was forked has a parent in the table, and it is alive. The first
process has the parent 0. -/
def Attended (k : Kernel) : Prop :=
  ∀ p, p < maxProcesses → (k.procs p).pid ≠ 0 → (k.procs p).parentPid ≠ 0 →
    ∃ q, k.Live q ∧ (k.procs q).pid = (k.procs p).parentPid

/-- Whoever an event kills has no child left. -/
def Orderly {σ : Type} (w : World σ) (e : Event σ) : Prop :=
  ∀ x ∈ eventNotes w e, x.isFatal x.pid = true → Childless w.kernel x.pid

instance (k : Kernel) (pid : Int) : Decidable (Childless k pid) := inferInstanceAs (Decidable (∀ _, _))

instance {σ : Type} (w : World σ) (e : Event σ) : Decidable (Orderly w e) :=
  inferInstanceAs (Decidable (∀ _ ∈ _, _))

section Families

variable {k k' : Kernel} {xs : List Note}

theorem Noted.before {p q : Nat} {x : Note} (one : Noted k k' p x) (pid : (k'.procs q).pid ≠ 0) :
    (k'.procs q).pid = (k.procs q).pid ∧ (k'.procs q).parentPid = (k.procs q).parentPid := by
  by_cases h : q = p
  · subst h
    obtain ⟨same, parent, -⟩ := one.now pid
    exact ⟨same, parent⟩
  · obtain ⟨same, parent, -⟩ := Process.status_eq (one.others q h)
    exact ⟨same, parent⟩

theorem Process.isZombie_eq {a b : Process} (h : a.status = b.status) : a.isZombie = b.isZombie := by
  simp only [Process.status, Prod.mk.injEq] at h
  exact h.2.2.2.1

theorem Unheard.live (u : Unheard k k') {q : Nat} (live : k.Live q) :
    k'.Live q ∧ (k'.procs q).pid = (k.procs q).pid := by
  have pid := (Process.status_eq (u.procs q)).1
  refine ⟨⟨live.bound, ?_, ?_⟩, pid⟩
  · rw [pid]
    exact live.pid
  · rw [Process.isZombie_eq (u.procs q)]
    exact live.awake

/-- A process stays alive unless the note tells of its end. -/
theorem Noted.live {p q : Nat} {x : Note} (one : Noted k k' p x) (live : k.Live q)
    (spared : q = p → x.isFatal (k.procs p).pid = false) :
    k'.Live q ∧ (k'.procs q).pid = (k.procs q).pid := by
  by_cases h : q = p
  · subst h
    have stays : (k'.procs q).pid ≠ 0 := by
      intro free
      have := live.awake
      rw [one.gone free] at this
      cases this
    obtain ⟨pid, -, life, -⟩ := one.now stays
    refine ⟨⟨live.bound, stays, ?_⟩, pid⟩
    by_contra zombie
    rw [Bool.not_eq_false] at zombie
    have notFatal := spared rfl
    have about := one.about
    have awake := live.awake
    unfold Process.life at life
    rw [if_pos zombie, if_neg (by rw [awake]; exact Bool.false_ne_true)] at life
    cases x with
    | fatal pid status =>
      simp only [Note.pid] at about
      simp [Note.isFatal, about] at notFatal
    | waited parent target pid status =>
      split at life
      · cases reported : (k.procs q).stopReported <;> rw [reported] at life <;> cases life
      · cases life
    | _ => split at life <;> cases life
  · have same := one.others q h
    have pid := (Process.status_eq same).1
    refine ⟨⟨live.bound, ?_, ?_⟩, pid⟩
    · rw [pid]
      exact live.pid
    · rw [Process.isZombie_eq same]
      exact live.awake

theorem Moves.childless {pid : Int} (m : Moves k k' xs) (unborn : ∀ b, .born pid b ∉ xs)
    (none : Childless k pid) : Childless k' pid := by
  induction m with
  | unheard same =>
    intro p bound occupied
    obtain ⟨pid', parent, -⟩ := Process.status_eq (same.procs p)
    rw [parent]
    exact none p bound (pid' ▸ occupied)
  | noted one =>
    intro p bound occupied
    obtain ⟨pid', parent⟩ := one.before occupied
    rw [parent]
    exact none p bound (pid' ▸ occupied)
  | born slot whose =>
    rename_i k parent i
    obtain ⟨-, -, eq⟩ := processAlloc_eq slot
    rw [eq]
    intro p bound occupied
    by_cases h : p = i
    · subst h
      simp only [Function.update_self]
      rintro rfl
      exact unborn _ List.mem_cons_self
    · simp only [Function.update_of_ne h] at occupied ⊢
      exact none p bound occupied
  | trans first second ih ih' =>
    exact ih' (fun b mem => unborn b (List.mem_append_right _ mem))
      (ih (fun b mem => unborn b (List.mem_append_left _ mem)) none)

theorem Moves.attended (m : Moves k k' xs)
    (orderly : ∀ x ∈ xs, x.isFatal x.pid = true → Childless k x.pid ∧ ∀ b, .born x.pid b ∉ xs)
    (a : Attended k) : Attended k' := by
  induction m with
  | unheard same =>
    intro p bound occupied forked
    obtain ⟨pid', parent, -⟩ := Process.status_eq (same.procs p)
    rw [parent] at forked ⊢
    obtain ⟨q, live, here⟩ := a p bound (pid' ▸ occupied) forked
    obtain ⟨live', pid⟩ := same.live live
    exact ⟨q, live', pid.trans here⟩
  | noted one =>
    rename_i k k' p₀ x
    intro p bound occupied forked
    obtain ⟨pid', parent⟩ := one.before occupied
    rw [parent] at forked ⊢
    rw [pid'] at occupied
    obtain ⟨q, live, here⟩ := a p bound occupied forked
    obtain ⟨live', pid⟩ := one.live live fun same => by
      by_contra fatal
      rw [Bool.not_eq_false, ← one.about] at fatal
      refine (orderly x List.mem_cons_self fatal).1 p bound occupied ?_
      rw [← here, same, one.about]
    exact ⟨q, live', pid.trans here⟩
  | born slot whose =>
    rename_i k parent i
    obtain ⟨-, vacant, eq⟩ := processAlloc_eq slot
    have keep : ∀ q, k.Live q → (processAlloc k parent).1.Live q ∧
        ((processAlloc k parent).1.procs q).pid = (k.procs q).pid := by
      intro q live
      have other : q ≠ i := by
        rintro rfl
        exact live.pid vacant
      have same : (processAlloc k parent).1.procs q = k.procs q := by
        rw [eq]
        exact Function.update_of_ne other _ _
      exact ⟨⟨live.bound, by rw [same]; exact live.pid, by rw [same]; exact live.awake⟩, by rw [same]⟩
    intro p bound occupied forked
    by_cases h : p = i
    · subst h
      have here : ((processAlloc k parent).1.procs p).parentPid = parent := by
        rw [eq]
        simp
      rw [here] at forked ⊢
      obtain ⟨q, live, same⟩ := whose.resolve_left forked
      obtain ⟨live', pid⟩ := keep q live
      exact ⟨q, live', pid.trans same⟩
    · have same : (processAlloc k parent).1.procs p = k.procs p := by
        rw [eq]
        exact Function.update_of_ne h _ _
      rw [same] at occupied forked ⊢
      obtain ⟨q, live, here⟩ := a p bound occupied forked
      obtain ⟨live', pid⟩ := keep q live
      exact ⟨q, live', pid.trans here⟩
  | trans first second ih ih' =>
    refine ih' (fun x mem fatal => ?_) (ih (fun x mem fatal => ?_) a)
    · obtain ⟨none, unborn⟩ := orderly x (List.mem_append_right _ mem) fatal
      exact ⟨first.childless (fun b inside => unborn b (List.mem_append_left _ inside)) none,
        fun b inside => unborn b (List.mem_append_right _ inside)⟩
    · obtain ⟨none, unborn⟩ := orderly x (List.mem_append_left _ mem) fatal
      exact ⟨none, fun b inside => unborn b (List.mem_append_left _ inside)⟩

end Families

section Steps

variable {σ : Type} (tree : FileTree σ) {w : World σ}

theorem heard_unborn {k : Kernel} {sig : Nat} {pids : List Int} {a b : Int} :
    Note.born a b ∉ heard k sig pids := by
  intro mem
  obtain ⟨pid, -, inside⟩ := List.mem_flatMap.mp mem
  split at inside
  · unfold signalNotes at inside
    split at inside
    · simp at inside
    split at inside
    · simp at inside
    split at inside <;> simp at inside
  · cases inside

theorem eventNotes_apart (w : World σ) (e : Event σ) :
    (∀ a b, .born a b ∉ eventNotes w e) ∨ ∀ x ∈ eventNotes w e, x.isFatal x.pid = false := by
  have begets : ∀ k parent, ∀ x ∈ bornNotes k parent, x.isFatal x.pid = false := by
    intro k parent x mem
    unfold bornNotes at mem
    split at mem
    · obtain rfl := List.mem_singleton.mp mem
      rfl
    · cases mem
  cases e with
  | timer => exact .inr fun x mem => by cases mem
  | resume => exact .inr fun x mem => by cases mem
  | elsewhere vm files => exact .inr fun x mem => by cases mem
  | spawn pml4 heap trampoline rip rsp =>
    refine .inr fun x mem => ?_
    simp only [eventNotes] at mem
    split at mem
    · cases mem
    · exact begets _ _ x mem
  | fault =>
    refine .inl fun a b mem => ?_
    simp only [eventNotes] at mem
    split at mem <;> simp at mem
  | scancode sc =>
    refine .inl fun a b mem => ?_
    simp only [eventNotes] at mem
    split at mem
    · split at mem
      · exact heard_unborn mem
      · cases mem
    · cases mem
  | syscall c =>
    simp only [eventNotes]
    split
    · cases c with
      | fork point frame => exact .inr fun x mem => begets _ _ x mem
      | exit code => exact .inl fun a b mem => by simp [syscallNotes] at mem
      | kill pid sig =>
        refine .inl fun a b mem => ?_
        simp only [syscallNotes] at mem
        split at mem
        · exact heard_unborn mem
        · cases mem
      | _ => exact .inr fun x mem => by cases mem
    · exact .inr fun x mem => by cases mem

theorem answerNotes_waited {e : Event σ} {a : Answer} {x : Note} (mem : x ∈ answerNotes w e a) :
    ∃ parent target pid status, x = .waited parent target pid status := by
  unfold answerNotes at mem
  split at mem
  · exact ⟨_, _, _, _, List.mem_singleton.mp mem⟩
  · cases mem

theorem worldStep_attended (s : w.Sound) (a : Attended w.kernel) (e : Event σ) (orderly : Orderly w e) :
    Attended (worldStep tree w e).1.kernel := by
  refine (event_moves tree s e).attended (fun x mem fatal => ?_) a
  have told : x ∈ eventNotes w e := by
    rcases List.mem_append.mp mem with told | answered
    · exact told
    · obtain ⟨_, _, _, _, rfl⟩ := answerNotes_waited answered
      cases fatal
  refine ⟨orderly x told fatal, fun b born => ?_⟩
  rcases List.mem_append.mp born with begot | answered
  · rcases eventNotes_apart w e with none | mild
    · exact none _ _ begot
    · rw [mild x told] at fatal
      cases fatal
  · obtain ⟨_, _, _, _, eq⟩ := answerNotes_waited answered
    cases eq

end Steps

theorem processWaitpid_reaps {k : Kernel} (o : Ordered k) {p q : Nat} (occupied : (k.procs p).pid ≠ 0)
    (zombie : (k.procs p).isZombie = true) (child : (k.procs p).parentPid = (k.procs q).pid) :
    processWaitpid k q (k.procs p).pid = (reap k p, .reports (k.procs p).pid (k.procs p).exitCode) := by
  have only : ∀ i, (k.procs q).isChild (k.procs p).pid (k.procs i) = true → i = p := by
    intro i isChild
    obtain ⟨here, -, matching⟩ := Process.isChild_iff.mp isChild
    have := (o.pids p).1
    rcases matching with all | same
    · omega
    · exact o.unique i p here same
  have inside : p ∈ List.range maxProcesses := by
    rw [List.mem_range]
    by_contra high
    exact occupied (o.vacant p (by omega))
  unfold processWaitpid
  rcases waitScan_cases k q (k.procs p).pid (List.range maxProcesses) false with
    ⟨i, -, isChild, -, eq⟩ | ⟨i, -, isChild, awake, -⟩ | ⟨-, none⟩
  · rw [eq, only i isChild]
  · rw [only i isChild, zombie] at awake
    cases awake
  · have quiet := none p inside (Process.isChild_iff.mpr ⟨occupied, child, .inr rfl⟩)
    rw [Process.reportable, zombie] at quiet
    cases quiet

/-- In every run in which nobody is killed or exits while it has children, every forked
process has a parent in the table that is alive, and if it is a zombie, a call of
`process_waitpid` by that parent reaps it. -/
theorem no_slot_stranded {σ : Type} (tree : FileTree σ) (vm : Vm) (hhdm : Word) (files : σ)
    (events : List (Event σ)) (orderly : Run.Along (worldStep tree) Orderly (bootWorld vm hhdm files) events) :
    let k : Kernel := (Run.run (worldStep tree) (bootWorld vm hhdm files) events).1.kernel
    ∀ p, (k.procs p).pid ≠ 0 → (k.procs p).parentPid ≠ 0 →
      ∃ q, k.Live q ∧ (k.procs q).pid = (k.procs p).parentPid ∧
        ((k.procs p).isZombie = true → processWaitpid k q (k.procs p).pid =
          (reap k p, .reports (k.procs p).pid (k.procs p).exitCode)) := by
  intro k p occupied forked
  obtain ⟨sound, attended⟩ : (Run.run (worldStep tree) (bootWorld vm hhdm files) events).1.Sound ∧
      Attended k := by
    refine Run.run_invariant_along (worldStep tree) Orderly (fun w => w.Sound ∧ Attended w.kernel)
      (fun w e inv ok => ?_) _ events ⟨bootWorld_sound vm hhdm files, fun p _ occupied => absurd rfl occupied⟩
      orderly
    exact ⟨worldStep_sound w e inv.1, worldStep_attended tree inv.1 inv.2 e ok⟩
  have good : Good _ _ k := sound.1
  have o := good.ordered
  have bound : p < maxProcesses := by
    by_contra high
    exact occupied (o.vacant p (by omega))
  obtain ⟨q, live, here⟩ := attended p bound occupied forked
  exact ⟨q, live, here, fun zombie => processWaitpid_reaps o occupied zombie here.symm⟩

/-- The first process is started and forks, and its child runs. -/
def forkingRun : List (Event Unit) :=
  [.spawn 1 0#64 0#64 0#64 0#64, .timer, .syscall (.fork 0#64 zeroFrameRegs), .timer]

def exitingRun : List (Event Unit) := forkingRun ++ [.syscall (.exit 3)]

theorem no_slot_stranded_exitingRun :
    let k : Kernel := (Run.run (worldStep oneFile) (bootWorld fullHouse.vm 0#64 ()) exitingRun).1.kernel
    (k.procs 1).isZombie = true ∧ ∃ q, k.Live q ∧ (k.procs q).pid = 1 ∧
      processWaitpid k q 2 = (reap k 1, .reports 2 (encodeExited 3)) := by
  have orderly : Run.Along (worldStep oneFile) Orderly (bootWorld fullHouse.vm 0#64 ()) exitingRun := by
    decide +kernel
  have attended := no_slot_stranded oneFile fullHouse.vm 0#64 () exitingRun orderly
  have child : let c := (Run.run (worldStep oneFile) (bootWorld fullHouse.vm 0#64 ()) exitingRun).1.kernel.procs 1
      c.isZombie = true ∧ c.pid = 2 ∧ c.parentPid = 1 ∧ c.exitCode = encodeExited 3 := by
    decide +kernel
  generalize (Run.run (worldStep oneFile) (bootWorld fullHouse.vm 0#64 ()) exitingRun).1.kernel = k
    at attended child ⊢
  obtain ⟨zombie, pid, parent, code⟩ := child
  obtain ⟨q, live, here, reaps⟩ := attended 1 (by rw [pid]; decide) (by rw [parent]; decide)
  refine ⟨zombie, q, live, here.trans parent, ?_⟩
  rw [← pid, ← code]
  exact reaps zombie

/-- The child forks and exits, and its parent waits for it: the grandchild's parent is
no longer in the table. -/
theorem reaped_parent_strands_child :
    let k : Kernel := (Run.run (worldStep oneFile) (bootWorld fullHouse.vm 0#64 ())
      (forkingRun ++ [.syscall (.fork 0#64 zeroFrameRegs), .syscall (.exit 0), .timer, .timer,
        .syscall (.waitpid (-1))])).1.kernel
    (k.procs 2).pid = 3 ∧ (k.procs 2).parentPid = 2 ∧ ∀ q, q < maxProcesses → (k.procs q).pid ≠ 2 := by
  decide +kernel

end Isunux
