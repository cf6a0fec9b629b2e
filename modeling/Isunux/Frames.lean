import Isunux.Scheduler

/-! What the calls of task.c and process.c leave alone. Everything but descriptors
is the core of a process; a quiet change touches descriptors, pipes and memory and
wakes sleepers, an edit also changes one process and the state of one task. -/
namespace Isunux

/-- A process without its descriptor table. -/
def Process.core (p : Process) : Process := { p with fds := fun _ => .zero }

theorem Process.core_eq {a b : Process} (h : a.core = b.core) :
    a.pml4 = b.pml4 ∧ a.fsBase = b.fsBase ∧ a.pid = b.pid ∧ a.parentPid = b.parentPid ∧
      a.exitCode = b.exitCode ∧ a.isZombie = b.isZombie ∧ a.isStopped = b.isStopped ∧
      a.stopSignal = b.stopSignal ∧ a.stopReported = b.stopReported ∧ a.task = b.task := by
  simp only [Process.core, Process.mk.injEq] at h
  tauto

theorem Process.identity_of_core {a b : Process} (h : a.core = b.core) : a.identity = b.identity := by
  obtain ⟨-, -, pid, -, -, zombie, -, -, -, task⟩ := Process.core_eq h
  simp only [Process.identity, pid, zombie, task]

/-- What `task_wake` does to a task it wakes. -/
def Task.wakened (x : Task) : Task := { x with state := .ready, waitChan := none }

def Task.SameOrWoken (x y : Task) : Prop := y = x ∨ (x.state = .blocked ∧ y = x.wakened)

theorem Task.SameOrWoken.refl (x : Task) : x.SameOrWoken x := .inl rfl

theorem Task.SameOrWoken.trans {x y z : Task} (h : x.SameOrWoken y) (h' : y.SameOrWoken z) :
    x.SameOrWoken z := by
  rcases h with rfl | ⟨blocked, rfl⟩
  · exact h'
  · rcases h' with rfl | ⟨absurd, -⟩
    · exact .inr ⟨blocked, rfl⟩
    · cases absurd

theorem Task.SameOrWoken.fields {x y : Task} (h : x.SameOrWoken y) :
    y.proc = x.proc ∧ y.next = x.next ∧ y.kernelStackTop = x.kernelStackTop ∧ y.rsp = x.rsp := by
  rcases h with rfl | ⟨-, rfl⟩ <;> exact ⟨rfl, rfl, rfl, rfl⟩

theorem Task.SameOrWoken.state {x y : Task} (h : x.SameOrWoken y) :
    y.state = x.state ∨ (x.state = .blocked ∧ y.state = .ready) := by
  rcases h with rfl | ⟨blocked, rfl⟩
  · exact .inl rfl
  · exact .inr ⟨blocked, rfl⟩

theorem Task.SameOrWoken.state_iff {x y : Task} (h : x.SameOrWoken y) {s : TaskState}
    (asleep : s ≠ .blocked) (awake : s ≠ .ready) : y.state = s ↔ x.state = s := by
  rcases h.state with same | ⟨blocked, ready⟩
  · rw [same]
  · rw [blocked, ready]
    exact ⟨fun h => absurd h.symm awake, fun h => absurd h.symm asleep⟩

structure Quiet (k k' : Kernel) : Prop where
  current : k'.current = k.current
  taskCount : k'.taskCount = k.taskCount
  nextPid : k'.nextPid = k.nextPid
  tasks : ∀ t, (k.tasks t).SameOrWoken (k'.tasks t)
  procs : ∀ p, (k'.procs p).core = (k.procs p).core

theorem Quiet.refl (k : Kernel) : Quiet k k :=
  ⟨rfl, rfl, rfl, fun _ => .refl _, fun _ => rfl⟩

theorem Quiet.trans {k₁ k₂ k₃ : Kernel} (h : Quiet k₁ k₂) (h' : Quiet k₂ k₃) : Quiet k₁ k₃ where
  current := h'.current.trans h.current
  taskCount := h'.taskCount.trans h.taskCount
  nextPid := h'.nextPid.trans h.nextPid
  tasks := fun t => (h.tasks t).trans (h'.tasks t)
  procs := fun p => (h'.procs p).trans (h.procs p)

theorem Quiet.steady {k k' : Kernel} (h : Quiet k k') : Steady k k' where
  current := fun c => by rw [h.current, h.taskCount]; exact c
  taskCount := h.taskCount
  nextPid := h.nextPid
  tasks := fun t =>
    ⟨(h.tasks t).fields.1, (h.tasks t).fields.2.1, (h.tasks t).state_iff (by decide) (by decide)⟩
  blocked := by
    intro t blocked
    rcases (h.tasks t).state with same | ⟨was, ready⟩
    · rw [← same]; exact blocked
    · exact was
  procs := fun p => Process.identity_of_core (h.procs p)

theorem Quiet.of_tables {k k' : Kernel} (current : k'.current = k.current)
    (taskCount : k'.taskCount = k.taskCount) (nextPid : k'.nextPid = k.nextPid)
    (tasks : k'.tasks = k.tasks) (procs : ∀ p, (k'.procs p).core = (k.procs p).core) : Quiet k k' :=
  ⟨current, taskCount, nextPid, fun t => by rw [tasks]; exact .refl _, procs⟩

theorem taskWake_quiet (k : Kernel) (c : Chan) : Quiet k (taskWake k c) := by
  refine ⟨rfl, rfl, rfl, fun t => ?_, fun _ => rfl⟩
  simp only [taskWake]
  split
  · rename_i h
    exact .inr ⟨h.2.1, rfl⟩
  · exact .refl _

theorem setFd_quiet (k : Kernel) (p fd : Nat) (e : FdEntry) : Quiet k (k.setFd p fd e) := by
  refine Quiet.of_tables rfl rfl rfl rfl fun q => ?_
  by_cases h : q = p
  · subst h; simp [Kernel.setFd, Kernel.setProc, Process.core]
  · simp [Kernel.setFd, Kernel.setProc, h]

theorem setPipe_quiet (k : Kernel) (i : Nat) (q : Pipe) : Quiet k (k.setPipe i q) :=
  Quiet.of_tables rfl rfl rfl rfl fun _ => rfl

theorem setVm_quiet (k : Kernel) (vm : Vm) : Quiet k { k with vm := vm } :=
  Quiet.of_tables rfl rfl rfl rfl fun _ => rfl

theorem vnodeDup_quiet (k : Kernel) (n : Option Vnode) : Quiet k (vnodeDup k n) := by
  unfold vnodeDup
  split
  · exact setPipe_quiet k _ _
  · exact setPipe_quiet k _ _
  · exact Quiet.refl k

theorem vnodeClose_quiet (k : Kernel) (n : Option Vnode) : Quiet k (vnodeClose k n) := by
  unfold vnodeClose
  split
  · rename_i i
    simp only
    split
    · exact (setPipe_quiet k i _).trans (taskWake_quiet _ _)
    · exact setPipe_quiet k i _
  · rename_i i
    simp only
    split
    · exact (setPipe_quiet k i _).trans (taskWake_quiet _ _)
    · exact setPipe_quiet k i _
  · exact Quiet.refl k

theorem FdMove.quiet {k k' : Kernel} (move : FdMove k k') : Quiet k k' := by
  cases move with
  | close p fd =>
    unfold processClose
    simp only
    split
    · exact Quiet.refl k
    · exact (vnodeClose_quiet k _).trans (setFd_quiet _ p fd _)
  | dup p fd q fd' e => exact (setFd_quiet k p fd e).trans (vnodeDup_quiet _ _)
  | put p fd e => exact setFd_quiet k p fd e
  | seek p fd e => exact setFd_quiet k p fd e
  | pipe i p r w e f =>
    exact ((setPipe_quiet k i _).trans (setFd_quiet _ p r e)).trans (setFd_quiet _ p w f)
  | spoil i =>
    exact ((setPipe_quiet k i _).trans (vnodeClose_quiet _ _)).trans (vnodeClose_quiet _ _)

theorem FdMoves.quiet {k k' : Kernel} (moves : FdMoves k k') : Quiet k k' := by
  induction moves with
  | refl => exact Quiet.refl k
  | tail _ move ih => exact ih.trans move.quiet

theorem wakeProcess_quiet (k : Kernel) (pid : Int) : Quiet k (wakeProcess k pid) := by
  unfold wakeProcess
  split
  · exact taskWake_quiet k _
  · exact Quiet.refl k

/-- The plain fields that `process_clone_into` copies. -/
def Process.copied (src : Process) (pml4 : Nat) (d : Process) : Process :=
  { d with
    pml4 := pml4, heapStart := src.heapStart, heapEnd := src.heapEnd, mmapNext := src.mmapNext
    uid := src.uid, gid := src.gid, fsBase := src.fsBase, cwd := src.cwd }

theorem processCloneInto_quiet (k : Kernel) (dst src pml4 : Nat) :
    Quiet (k.setProc dst ((k.procs src).copied pml4)) (processCloneInto k dst src pml4) := by
  unfold processCloneInto
  refine Run.foldl_rule (Quiet (k.setProc dst ((k.procs src).copied pml4))) _ _ _ (Quiet.refl _) ?_
  intro fd _ k' h
  refine h.trans ?_
  unfold cloneFd
  simp only
  split
  · exact (setFd_quiet k' dst fd _).trans (vnodeDup_quiet _ _)
  · exact setFd_quiet k' dst fd _

/-- One process changes by `f`, one task gets a new state, the rest is quiet. -/
structure Edited (k k' : Kernel) (p : Nat) (f : Process → Process) (t : Nat) (s : TaskState) : Prop where
  current : k'.current = k.current
  taskCount : k'.taskCount = k.taskCount
  nextPid : k'.nextPid = k.nextPid
  task : ∃ c, k'.tasks t = { k.tasks t with state := s, waitChan := c }
  tasks : ∀ u, u ≠ t → (k.tasks u).SameOrWoken (k'.tasks u)
  proc : (k'.procs p).core = (f (k.procs p)).core
  procs : ∀ q, q ≠ p → (k'.procs q).core = (k.procs q).core

theorem Edited.fields {k k' : Kernel} {p t : Nat} {f : Process → Process} {s : TaskState}
    (e : Edited k k' p f t s) (u : Nat) :
    (k'.tasks u).proc = (k.tasks u).proc ∧ (k'.tasks u).next = (k.tasks u).next ∧
      (k'.tasks u).kernelStackTop = (k.tasks u).kernelStackTop := by
  by_cases h : u = t
  · subst h
    obtain ⟨c, eq⟩ := e.task
    rw [eq]
    exact ⟨rfl, rfl, rfl⟩
  · have := (e.tasks u h).fields
    exact ⟨this.1, this.2.1, this.2.2.1⟩

theorem Edited.state {k k' : Kernel} {p t : Nat} {f : Process → Process} {s : TaskState}
    (e : Edited k k' p f t s) : (k'.tasks t).state = s := by
  obtain ⟨c, eq⟩ := e.task
  rw [eq]

theorem edited_of_steps {k k₁ k₂ : Kernel} {p t : Nat} {f : Process → Process} {s : TaskState}
    (before : Quiet k k₁) (local_ : ∀ a b : Process, a.core = b.core → (f a).core = (f b).core)
    (after : Quiet (k₁.setProc p f) k₂) :
    Edited k (k₂.setTask t fun x => { x with state := s }) p f t s := by
  refine ⟨after.current.trans before.current, after.taskCount.trans before.taskCount,
    after.nextPid.trans before.nextPid, ?_, ?_, ?_, ?_⟩
  · have kept := (before.tasks t).trans (after.tasks t)
    rcases kept with same | ⟨-, woken⟩
    · exact ⟨(k.tasks t).waitChan, by simp [Kernel.setTask, same]⟩
    · exact ⟨none, by simp [Kernel.setTask, woken, Task.wakened]⟩
  · intro u h
    simp only [Kernel.setTask, Function.update_of_ne h]
    exact (before.tasks u).trans (after.tasks u)
  · rw [setTask_procs, after.procs p]
    simp only [Kernel.setProc, Function.update_self]
    exact local_ _ _ (before.procs p)
  · intro q h
    rw [setTask_procs, after.procs q]
    simp only [Kernel.setProc, Function.update_of_ne h]
    exact before.procs q

/-- What becomes of a process that ends. -/
def Process.ended (code : Nat) (x : Process) : Process := { x with exitCode := code, isZombie := true }

def Process.suspended (x : Process) : Process :=
  { x with isStopped := true, stopSignal := sigtstp, stopReported := false }

def Process.continued (x : Process) : Process := { x with isStopped := false }

theorem processTerminate_edited (k : Kernel) (p t code : Nat) :
    Edited k (processTerminate k p t code) p (Process.ended code) t .terminated := by
  rw [processTerminate_eq, processMarkZombie_eq]
  refine edited_of_steps (closeAll_moves k p).quiet ?_ (wakeProcess_quiet _ _)
  intro a b h
  simp only [Process.core, Process.ended, Process.mk.injEq] at h ⊢
  tauto

theorem processSendSignal_cases {k : Kernel} {target sig : Nat} {r : Kernel × SelfAction}
    (h : processSendSignal k target sig = some r) :
    (r.1 = k ∧ (r.2 = .nothing ∨ r.2 = .unknown) ∧
      ((sig = sigkill ∨ sig = sigterm ∨ sig = sigint) → (k.procs target).isZombie = true) ∧
      (sig = sigtstp → (k.procs target).isZombie = true ∨ (k.procs target).isStopped = true) ∧
      (sig = sigcont → (k.procs target).isZombie = true ∨ (k.procs target).isStopped = false)) ∨
    ∃ t, (k.procs target).task = some t ∧ (k.procs target).isZombie = false ∧
      (((sig = sigkill ∨ sig = sigterm ∨ sig = sigint) ∧
          Edited k r.1 target (Process.ended (encodeSignaled sig)) t .terminated ∧
          r.2 = if t = k.current then .terminated else .nothing) ∨
        (sig = sigtstp ∧ (k.procs target).isStopped = false ∧
          Edited k r.1 target Process.suspended t .stopped ∧
          r.2 = if t = k.current then .stopped else .nothing) ∨
        (sig = sigcont ∧ (k.procs target).isStopped = true ∧
          Edited k r.1 target Process.continued t .ready ∧ r.2 = .nothing)) := by
  unfold processSendSignal at h
  simp only at h
  split at h
  · rename_i fatal
    split at h
    · rename_i zombie
      cases h
      exact .inl ⟨rfl, .inl rfl, fun _ => zombie, fun _ => .inl zombie, fun _ => .inl zombie⟩
    · rename_i awake
      obtain ⟨t, task, eq⟩ := Option.map_eq_some_iff.mp h
      subst eq
      exact .inr ⟨t, task, by simpa using awake,
        .inl ⟨fatal, processTerminate_edited k target t _, rfl⟩⟩
  rename_i mild
  split at h
  · rename_i tstp
    split at h
    · rename_i idle
      cases h
      exact .inl ⟨rfl, .inl rfl, fun f => absurd f mild, fun _ => idle,
        fun cont => absurd (tstp.symm.trans cont) (by decide)⟩
    · rename_i idle
      rw [not_or, Bool.not_eq_true, Bool.not_eq_true] at idle
      obtain ⟨t, task, eq⟩ := Option.map_eq_some_iff.mp h
      subst eq
      refine .inr ⟨t, task, idle.1, .inr (.inl ⟨tstp, idle.2, ?_, ?_⟩)⟩
      · refine edited_of_steps (Quiet.refl k) ?_ (wakeProcess_quiet _ _)
        intro a b h
        simp only [Process.core, Process.suspended, Process.mk.injEq] at h ⊢
        tauto
      · simp only [(wakeProcess_quiet _ _).current]
        rfl
  rename_i going
  split at h
  · rename_i cont
    split at h
    · rename_i zombie
      cases h
      exact .inl ⟨rfl, .inl rfl, fun f => absurd f mild, fun tstp => absurd tstp going,
        fun _ => .inl zombie⟩
    split at h
    · rename_i awake stopped
      obtain ⟨t, task, eq⟩ := Option.map_eq_some_iff.mp h
      subst eq
      refine .inr ⟨t, task, by simpa using awake, .inr (.inr ⟨cont, stopped, ?_, rfl⟩)⟩
      refine edited_of_steps (Quiet.refl k) ?_ (Quiet.refl _)
      intro a b h
      simp only [Process.core, Process.continued, Process.mk.injEq] at h ⊢
      tauto
    · rename_i moving
      cases h
      exact .inl ⟨rfl, .inl rfl, fun f => absurd f mild, fun tstp => absurd tstp going,
        fun _ => .inr (by simpa using moving)⟩
  rename_i other
  split at h
  · cases h
    exact .inl ⟨rfl, .inl rfl, fun f => absurd f mild, fun tstp => absurd tstp going,
      fun cont => absurd cont other⟩
  · cases h
    exact .inl ⟨rfl, .inr rfl, fun f => absurd f mild, fun tstp => absurd tstp going,
      fun cont => absurd cont other⟩

end Isunux
