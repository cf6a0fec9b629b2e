import Isunux.PipeEnds
import Isunux.Signals

/-! The task ring, the process table and the links between them. -/
namespace Isunux

/-- The ring stays inside the used part of the pool, pids are fresh and unique,
and live processes and their tasks point at each other. -/
structure Ordered (k : Kernel) : Prop where
  current_lt : k.current < k.taskCount
  count_le : k.taskCount ≤ maxTasks
  next_lt : ∀ t, t < k.taskCount → (k.tasks t).next < k.taskCount
  idle : ∀ t, (k.tasks t).state = .blocked → t < k.taskCount
  nextPid_pos : 0 < k.nextPid
  pids : ∀ p, 0 ≤ (k.procs p).pid ∧ (k.procs p).pid < k.nextPid
  unique : ∀ p q, (k.procs p).pid ≠ 0 → (k.procs p).pid = (k.procs q).pid → p = q
  vacant : ∀ p, maxProcesses ≤ p → (k.procs p).pid = 0
  owner : ∀ t p, (k.tasks t).state ≠ .terminated → (k.tasks t).proc = some p →
    (k.procs p).pid ≠ 0 ∧ (k.procs p).isZombie = false ∧ (k.procs p).task = some t
  task : ∀ p t, (k.procs p).pid ≠ 0 → (k.procs p).isZombie = false → (k.procs p).task = some t →
    t < k.taskCount ∧ (k.tasks t).state ≠ .terminated ∧ (k.tasks t).proc = some p

theorem Ordered.live {k : Kernel} (o : Ordered k) {t p : Nat} (awake : (k.tasks t).state ≠ .terminated)
    (proc : (k.tasks t).proc = some p) : k.Live p := by
  obtain ⟨pid, zombie, -⟩ := o.owner t p awake proc
  refine ⟨?_, pid, zombie⟩
  by_contra high
  exact pid (o.vacant p (by omega))

/-- Only states of tasks changed, and nobody was put to sleep, ended or revived. -/
structure Steady (k k' : Kernel) : Prop where
  current : k.current < k.taskCount → k'.current < k'.taskCount
  taskCount : k'.taskCount = k.taskCount
  nextPid : k'.nextPid = k.nextPid
  tasks : ∀ t, (k'.tasks t).proc = (k.tasks t).proc ∧ (k'.tasks t).next = (k.tasks t).next ∧
    ((k'.tasks t).state = .terminated ↔ (k.tasks t).state = .terminated)
  blocked : ∀ t, (k'.tasks t).state = .blocked → (k.tasks t).state = .blocked
  procs : ∀ p, (k'.procs p).identity = (k.procs p).identity

theorem Steady.refl (k : Kernel) : Steady k k :=
  ⟨id, rfl, rfl, fun _ => ⟨rfl, rfl, Iff.rfl⟩, fun _ => id, fun _ => rfl⟩

theorem Steady.trans {k₁ k₂ k₃ : Kernel} (h : Steady k₁ k₂) (h' : Steady k₂ k₃) : Steady k₁ k₃ where
  current := fun c => h'.current (h.current c)
  taskCount := h'.taskCount.trans h.taskCount
  nextPid := h'.nextPid.trans h.nextPid
  tasks := fun t => ⟨(h'.tasks t).1.trans (h.tasks t).1, (h'.tasks t).2.1.trans (h.tasks t).2.1,
    (h'.tasks t).2.2.trans (h.tasks t).2.2⟩
  blocked := fun t b => h.blocked t (h'.blocked t b)
  procs := fun p => (h'.procs p).trans (h.procs p)

theorem Process.identity_eq {a b : Process} (h : a.identity = b.identity) :
    a.pid = b.pid ∧ a.isZombie = b.isZombie ∧ a.task = b.task := by
  simpa [Process.identity] using h

theorem Steady.ordered {k k' : Kernel} (s : Steady k k') (o : Ordered k) : Ordered k' := by
  have ids := fun p => Process.identity_eq (s.procs p)
  refine ⟨s.current o.current_lt, ?_, ?_, ?_, ?_, ?_, ?_, ?_, ?_, ?_⟩
  · rw [s.taskCount]; exact o.count_le
  · intro t ht
    rw [(s.tasks t).2.1, s.taskCount] at *
    exact o.next_lt t ht
  · intro t blocked
    rw [s.taskCount]
    exact o.idle t (s.blocked t blocked)
  · rw [s.nextPid]; exact o.nextPid_pos
  · intro p
    rw [(ids p).1, s.nextPid]
    exact o.pids p
  · intro p q
    rw [(ids p).1, (ids q).1]
    exact o.unique p q
  · intro p hp
    rw [(ids p).1]
    exact o.vacant p hp
  · intro t p awake proc
    rw [Ne, (s.tasks t).2.2] at awake
    rw [(s.tasks t).1] at proc
    rw [(ids p).1, (ids p).2.1, (ids p).2.2]
    exact o.owner t p awake proc
  · intro p t
    rw [(ids p).1, (ids p).2.1, (ids p).2.2, s.taskCount, Ne, Ne, (s.tasks t).2.2, (s.tasks t).1]
    exact o.task p t

theorem taskWake_steady (k : Kernel) (c : Chan) : Steady k (taskWake k c) := by
  refine ⟨id, rfl, rfl, fun t => ?_, fun t => ?_, fun _ => rfl⟩
  · simp only [taskWake]
    split
    · rename_i h
      simp [h.2.1]
    · exact ⟨rfl, rfl, Iff.rfl⟩
  · simp only [taskWake]
    split
    · intro h
      cases h
    · exact id

theorem pickNextReady_spec {tasks : Nat → Task} {bound start : Nat}
    (closed : ∀ t, t < bound → (tasks t).next < bound) (fuel t next : Nat) (ht : t < bound)
    (h : pickNextReady tasks start fuel t = some next) :
    next < bound ∧ (tasks next).state = .ready := by
  induction fuel generalizing t with
  | zero => cases h
  | succ fuel ih =>
    unfold pickNextReady at h
    split at h
    · cases h
    split at h
    · rename_i ready
      cases h
      exact ⟨ht, ready⟩
    · exact ih (tasks t).next (closed t ht) h

theorem setState_steady (k : Kernel) (t : Nat) (s : TaskState) (f : Task → Task)
    (state : (f (k.tasks t)).state = s) (proc : (f (k.tasks t)).proc = (k.tasks t).proc)
    (next : (f (k.tasks t)).next = (k.tasks t).next) (awake : s ≠ .blocked) (going : s ≠ .terminated)
    (was : (k.tasks t).state ≠ .terminated) : Steady k (k.setTask t f) := by
  refine ⟨id, rfl, rfl, fun u => ?_, fun u => ?_, fun _ => rfl⟩
  · by_cases h : u = t
    · subst h
      simp [Kernel.setTask, state, proc, next, going, was]
    · simp [Kernel.setTask, h]
  · by_cases h : u = t
    · subst h
      simp [Kernel.setTask, state, awake]
    · simp [Kernel.setTask, h]

theorem yield_steady {k : Kernel} (o : Ordered k) : Steady k (yield k) := by
  unfold yield
  simp only
  -- the current task gives up the processor
  set k₁ := if (k.tasks k.current).state = .running then
    k.setTask k.current fun x => { x with state := .ready } else k with hk₁
  have parked : Steady k k₁ ∧ k₁.current = k.current := by
    rw [hk₁]
    split
    · rename_i running
      exact ⟨setState_steady k _ .ready _ rfl rfl rfl (by decide) (by decide) (by rw [running]; decide),
        rfl⟩
    · exact ⟨Steady.refl k, rfl⟩
  obtain ⟨steady, current⟩ := parked
  have o₁ := steady.ordered o
  refine steady.trans ?_
  split
  · rename_i next picked
    have first : (k₁.tasks k.current).next < k₁.taskCount :=
      o₁.next_lt _ (current ▸ o₁.current_lt)
    obtain ⟨bound, ready⟩ := pickNextReady_spec o₁.next_lt _ _ _ first picked
    have run := setState_steady k₁ next .running (fun x => { x with state := .running }) rfl rfl rfl
      (by decide) (by decide) (by rw [ready]; decide)
    exact ⟨fun _ => bound, rfl, rfl, run.tasks, run.blocked, run.procs⟩
  · split
    · rename_i ready
      exact setState_steady k₁ _ .running _ rfl rfl rfl (by decide) (by decide) (by rw [ready]; decide)
    · exact Steady.refl k₁

theorem setProc_steady (k : Kernel) (p : Nat) (f : Process → Process)
    (same : (f (k.procs p)).identity = (k.procs p).identity) : Steady k (k.setProc p f) := by
  refine ⟨id, rfl, rfl, fun _ => ⟨rfl, rfl, Iff.rfl⟩, fun _ => id, fun q => ?_⟩
  by_cases h : q = p
  · subst h; simpa [Kernel.setProc] using same
  · simp [Kernel.setProc, h]

theorem setFd_steady (k : Kernel) (p fd : Nat) (e : FdEntry) : Steady k (k.setFd p fd e) :=
  setProc_steady k p _ rfl

theorem setPipe_steady (k : Kernel) (i : Nat) (q : Pipe) : Steady k (k.setPipe i q) :=
  ⟨id, rfl, rfl, fun _ => ⟨rfl, rfl, Iff.rfl⟩, fun _ => id, fun _ => rfl⟩

theorem vnodeDup_steady (k : Kernel) (n : Option Vnode) : Steady k (vnodeDup k n) := by
  unfold vnodeDup
  split
  · exact setPipe_steady k _ _
  · exact setPipe_steady k _ _
  · exact Steady.refl k

theorem vnodeClose_steady (k : Kernel) (n : Option Vnode) : Steady k (vnodeClose k n) := by
  unfold vnodeClose
  split
  · rename_i i
    simp only
    split
    · exact (setPipe_steady k i _).trans (taskWake_steady _ _)
    · exact setPipe_steady k i _
  · rename_i i
    simp only
    split
    · exact (setPipe_steady k i _).trans (taskWake_steady _ _)
    · exact setPipe_steady k i _
  · exact Steady.refl k

theorem FdMove.steady {k k' : Kernel} (move : FdMove k k') : Steady k k' := by
  cases move with
  | close p fd =>
    unfold processClose
    simp only
    split
    · exact Steady.refl k
    · exact (vnodeClose_steady k _).trans (setFd_steady _ p fd _)
  | dup p fd q fd' e => exact (setFd_steady k p fd e).trans (vnodeDup_steady _ _)
  | put p fd e => exact setFd_steady k p fd e
  | seek p fd e => exact setFd_steady k p fd e
  | pipe i p r w e f =>
    exact ((setPipe_steady k i _).trans (setFd_steady _ p r e)).trans (setFd_steady _ p w f)
  | spoil i =>
    exact ((setPipe_steady k i _).trans (vnodeClose_steady _ _)).trans (vnodeClose_steady _ _)

theorem FdMoves.steady {k k' : Kernel} (moves : FdMoves k k') : Steady k k' := by
  induction moves with
  | refl => exact Steady.refl k
  | tail _ move ih => exact ih.trans move.steady

/-! Processes and tasks that come and go. -/

theorem processMarkZombie_eq (k : Kernel) (p code : Nat) :
    processMarkZombie k p code =
      wakeProcess (k.setProc p fun x => { x with exitCode := code, isZombie := true })
        (k.procs p).parentPid := by
  have same : ((k.setProc p fun x => { x with exitCode := code, isZombie := true }).procs p).parentPid
      = (k.procs p).parentPid := by simp [Kernel.setProc]
  rw [← same]
  rfl

theorem processTerminate_eq (k : Kernel) (p t code : Nat) :
    processTerminate k p t code =
      (processMarkZombie (closeAll k p) p code).setTask t fun x => { x with state := .terminated } := rfl

theorem wakeProcess_steady (k : Kernel) (pid : Int) : Steady k (wakeProcess k pid) := by
  unfold wakeProcess
  split
  · exact taskWake_steady k _
  · exact Steady.refl k

theorem Ordered.bury {k k' : Kernel} (o : Ordered k) {p t : Nat} (live : k.Live p)
    (task : (k.procs p).task = some t) (current : k'.current = k.current)
    (count : k'.taskCount = k.taskCount) (nextPid : k'.nextPid = k.nextPid)
    (tasks : ∀ u, (k'.tasks u).proc = (k.tasks u).proc ∧ (k'.tasks u).next = (k.tasks u).next ∧
      ((k'.tasks u).state = .terminated ↔ u = t ∨ (k.tasks u).state = .terminated) ∧
      ((k'.tasks u).state = .blocked → (k.tasks u).state = .blocked))
    (others : ∀ q, q ≠ p → (k'.procs q).identity = (k.procs q).identity)
    (zombie : (k'.procs p).pid = (k.procs p).pid ∧ (k'.procs p).isZombie = true) : Ordered k' := by
  have pid : ∀ q, (k'.procs q).pid = (k.procs q).pid := by
    intro q
    by_cases h : q = p
    · subst h; exact zombie.1
    · exact (Process.identity_eq (others q h)).1
  have mine := o.task p t live.pid live.awake task
  refine ⟨?_, ?_, ?_, ?_, ?_, ?_, ?_, ?_, ?_, ?_⟩
  · rw [current, count]; exact o.current_lt
  · rw [count]; exact o.count_le
  · intro u hu
    rw [(tasks u).2.1, count] at *
    exact o.next_lt u hu
  · intro u blocked
    rw [count]
    exact o.idle u ((tasks u).2.2.2 blocked)
  · rw [nextPid]; exact o.nextPid_pos
  · intro q
    rw [pid, nextPid]
    exact o.pids q
  · intro q r
    rw [pid, pid]
    exact o.unique q r
  · intro q hq
    rw [pid]
    exact o.vacant q hq
  · intro u q awake proc
    rw [Ne, (tasks u).2.2.1, not_or] at awake
    rw [(tasks u).1] at proc
    obtain ⟨hpid, hzombie, htask⟩ := o.owner u q awake.2 proc
    have other : q ≠ p := by
      rintro rfl
      rw [task] at htask
      exact awake.1 (Option.some.inj htask).symm
    obtain ⟨h₁, h₂, h₃⟩ := Process.identity_eq (others q other)
    rw [h₁, h₂, h₃]
    exact ⟨hpid, hzombie, htask⟩
  · intro q u hpid hzombie htask
    have other : q ≠ p := by
      rintro rfl
      rw [zombie.2] at hzombie
      cases hzombie
    obtain ⟨h₁, h₂, h₃⟩ := Process.identity_eq (others q other)
    rw [h₁] at hpid
    rw [h₂] at hzombie
    rw [h₃] at htask
    obtain ⟨bound, awake, proc⟩ := o.task q u hpid hzombie htask
    refine ⟨by rw [count]; exact bound, ?_, by rw [(tasks u).1]; exact proc⟩
    rw [Ne, (tasks u).2.2.1, not_or]
    refine ⟨?_, awake⟩
    rintro rfl
    rw [mine.2.2] at proc
    exact other (Option.some.inj proc).symm

theorem processTerminate_ordered {k : Kernel} (o : Ordered k) {p t : Nat} (live : k.Live p)
    (task : (k.procs p).task = some t) (code : Nat) : Ordered (processTerminate k p t code) := by
  have closed := (closeAll_moves k p).steady
  have same := Process.identity_eq (closed.procs p)
  have live₁ := live.keep (closeAll_lives k p)
  set k₁ := closeAll k p with hk₁
  set k₂ := k₁.setProc p fun x => { x with exitCode := code, isZombie := true } with hk₂
  have woken := wakeProcess_steady k₂ (k₁.procs p).parentPid
  have eq : processTerminate k p t code = (wakeProcess k₂ (k₁.procs p).parentPid).setTask t
      fun x => { x with state := .terminated } := by
    rw [processTerminate_eq, processMarkZombie_eq]
  have current : (wakeProcess k₂ (k₁.procs p).parentPid).current = k₁.current := by
    unfold wakeProcess
    split <;> rfl
  rw [eq]
  refine (closed.ordered o).bury live₁ (by rw [same.2.2]; exact task) current woken.taskCount
    woken.nextPid ?_ ?_ ?_
  · intro u
    by_cases h : u = t
    · subst h
      simp only [Kernel.setTask, Function.update_self, true_or, reduceCtorEq, false_implies, and_true]
      exact ⟨(woken.tasks u).1, (woken.tasks u).2.1⟩
    · simp only [Kernel.setTask, Function.update_of_ne h, h, false_or]
      exact ⟨(woken.tasks u).1, (woken.tasks u).2.1, (woken.tasks u).2.2, woken.blocked u⟩
  · intro q h
    have := woken.procs q
    simp only [setTask_procs]
    rw [this, hk₂]
    simp [Kernel.setProc, h]
  · have := Process.identity_eq (woken.procs p)
    simp only [setTask_procs]
    rw [this.1, this.2.1, hk₂]
    simp [Kernel.setProc]

theorem processAlloc_ordered {k : Kernel} (o : Ordered k) (parent : Int) :
    Ordered (processAlloc k parent).1 := by
  cases slot : (processAlloc k parent).2 with
  | none =>
    rw [processAlloc_failed slot]
    exact o
  | some i =>
    obtain ⟨bound, vacant, eq⟩ := processAlloc_eq slot
    have entry : (processAlloc k parent).1.procs i =
        { Process.zero with pid := k.nextPid, parentPid := parent } := by rw [eq]; simp
    have others : ∀ q, q ≠ i → (processAlloc k parent).1.procs q = k.procs q := by
      intro q h
      rw [eq]
      simp [h]
    have rest : (processAlloc k parent).1.tasks = k.tasks ∧
        (processAlloc k parent).1.taskCount = k.taskCount ∧
        (processAlloc k parent).1.current = k.current ∧
        (processAlloc k parent).1.nextPid = k.nextPid + 1 := by
      rw [eq]
      exact ⟨rfl, rfl, rfl, rfl⟩
    obtain ⟨tasks, count, current, nextPid⟩ := rest
    clear eq
    generalize processAlloc k parent = r at *
    have pos := o.nextPid_pos
    refine ⟨?_, ?_, ?_, ?_, ?_, ?_, ?_, ?_, ?_, ?_⟩
    · rw [current, count]; exact o.current_lt
    · rw [count]; exact o.count_le
    · rw [tasks, count]; exact o.next_lt
    · rw [tasks, count]; exact o.idle
    · omega
    · intro q
      by_cases h : q = i
      · subst h
        rw [entry, nextPid]
        simp only
        omega
      · rw [others q h, nextPid]
        have := o.pids q
        omega
    · intro q q' hpid same
      by_cases h : q = i
      · by_cases h' : q' = i
        · rw [h, h']
        · subst h
          rw [entry, others q' h'] at same
          simp only at same
          have := (o.pids q').2
          omega
      · by_cases h' : q' = i
        · subst h'
          rw [entry, others q h] at same
          simp only at same
          have := (o.pids q).2
          omega
        · rw [others q h] at hpid same
          rw [others q' h'] at same
          exact o.unique q q' hpid same
    · intro q hq
      rw [others q (by omega)]
      exact o.vacant q hq
    · intro u q awake proc
      rw [tasks] at awake proc
      have link := o.owner u q awake proc
      have h : q ≠ i := by
        rintro rfl
        exact link.1 vacant
      rw [others q h]
      exact link
    · intro q u hpid hzombie htask
      rw [tasks, count]
      have h : q ≠ i := by
        rintro rfl
        rw [entry] at htask
        cases htask
      rw [others q h] at hpid hzombie htask
      exact o.task q u hpid hzombie htask

/-- A slot of the pool that no live task occupies is spliced in behind the
current one. -/
theorem Ordered.splice {k₀ k : Kernel} (o : Ordered k₀) {t : Nat} (procs : k.procs = k₀.procs)
    (nextPid : k.nextPid = k₀.nextPid) (current : k.current = k₀.current)
    (count_le : k.taskCount ≤ maxTasks) (grows : k₀.taskCount ≤ k.taskCount) (bound : t < k.taskCount)
    (apart : t ≠ k₀.current) (free : k₀.taskCount ≤ t ∨ (k₀.tasks t).state = .terminated)
    (covers : ∀ u, u < k.taskCount → u ≠ t → u < k₀.taskCount)
    (tasks : ∀ u, u ≠ t → (k.tasks u).proc = (k₀.tasks u).proc ∧
      (k.tasks u).state = (k₀.tasks u).state)
    (next : ∀ u, u < k₀.taskCount → (k.tasks u).next < k.taskCount) : Ordered (spliceTask k t) := by
  have here : ∀ u, u ≠ t → ((spliceTask k t).tasks u).proc = (k₀.tasks u).proc ∧
      ((spliceTask k t).tasks u).state = (k₀.tasks u).state := by
    intro u h
    by_cases hc : u = k.current
    · subst hc
      simpa [spliceTask, Kernel.setTask, h] using tasks _ h
    · simpa [spliceTask, Kernel.setTask, h, hc] using tasks u h
  have new : ((spliceTask k t).tasks t).proc = none ∧ ((spliceTask k t).tasks t).state = .ready := by
    have hc : t ≠ k.current := current ▸ apart
    simp [spliceTask, Kernel.setTask, hc]
  have procs' : (spliceTask k t).procs = k₀.procs := procs
  refine ⟨?_, count_le, ?_, ?_, ?_, ?_, ?_, ?_, ?_, ?_⟩
  · have : (spliceTask k t).current = k₀.current := current
    have hc := o.current_lt
    show (spliceTask k t).current < k.taskCount
    omega
  · intro u hu
    have hu : u < k.taskCount := hu
    show ((spliceTask k t).tasks u).next < k.taskCount
    by_cases hc : u = k.current
    · subst hc
      simpa [spliceTask, Kernel.setTask] using bound
    · by_cases h : u = t
      · subst h
        have := next k.current (by rw [current]; exact o.current_lt)
        simpa [spliceTask, Kernel.setTask, hc] using this
      · have := next u (covers u hu h)
        simpa [spliceTask, Kernel.setTask, hc, h] using this
  · intro u blocked
    by_cases h : u = t
    · subst h
      rw [new.2] at blocked
      cases blocked
    · rw [(here u h).2] at blocked
      have := o.idle u blocked
      show u < k.taskCount
      omega
  · show 0 < k.nextPid
    rw [nextPid]; exact o.nextPid_pos
  · intro q
    have := o.pids q
    rw [procs']
    show _ ∧ _ < k.nextPid
    rw [nextPid]
    exact this
  · rw [procs']; exact o.unique
  · rw [procs']; exact o.vacant
  · intro u q awake proc
    by_cases h : u = t
    · subst h
      rw [new.1] at proc
      cases proc
    · rw [Ne, (here u h).2] at awake
      rw [(here u h).1] at proc
      rw [procs']
      exact o.owner u q awake proc
  · intro q u hpid hzombie htask
    rw [procs'] at hpid hzombie htask
    obtain ⟨low, awake, proc⟩ := o.task q u hpid hzombie htask
    have h : u ≠ t := by
      rintro rfl
      rcases free with high | dead
      · omega
      · exact awake dead
    rw [(here u h).1, (here u h).2]
    refine ⟨?_, awake, proc⟩
    show u < k.taskCount
    omega

/-- A task that moved in the ring at most. -/
def Task.Relinked (a b : Task) : Prop := ∃ n, b = { a with next := n }

theorem unlinkTaskFromRing_tasks {k : Kernel} (o : Ordered k) {t : Nat} (bound : t < k.taskCount)
    (u : Nat) :
    (k.tasks u).Relinked ((unlinkTaskFromRing k t).tasks u) ∧
      (u < k.taskCount → ((unlinkTaskFromRing k t).tasks u).next < k.taskCount) := by
  unfold unlinkTaskFromRing
  split
  · exact ⟨⟨_, rfl⟩, o.next_lt u⟩
  · simp only
    split
    · by_cases h : u = ringBefore k.tasks k.current t maxTasks k.current
      · subst h
        simp only [Kernel.setTask, Function.update_self]
        exact ⟨⟨_, rfl⟩, fun _ => o.next_lt t bound⟩
      · simp only [Kernel.setTask, Function.update_of_ne h]
        exact ⟨⟨_, rfl⟩, o.next_lt u⟩
    · exact ⟨⟨_, rfl⟩, o.next_lt u⟩

theorem unlinkTaskFromRing_rest (k : Kernel) (t : Nat) :
    (unlinkTaskFromRing k t).nextPid = k.nextPid ∧ (unlinkTaskFromRing k t).current = k.current ∧
      (unlinkTaskFromRing k t).taskCount = k.taskCount ∧ (unlinkTaskFromRing k t).pipes = k.pipes := by
  unfold unlinkTaskFromRing
  split
  · exact ⟨rfl, rfl, rfl, rfl⟩
  · simp only
    split <;> exact ⟨rfl, rfl, rfl, rfl⟩

theorem spliceTask_tasks (k : Kernel) {t u : Nat} (h : u ≠ t) :
    (k.tasks u).Relinked ((spliceTask k t).tasks u) := by
  by_cases hc : u = k.current
  · subst hc
    exact ⟨t, by simp [spliceTask, Kernel.setTask, h]⟩
  · exact ⟨(k.tasks u).next, by simp [spliceTask, Kernel.setTask, h, hc]⟩

/-- What `task_alloc_raw` does when it finds a slot. -/
structure Spliced (k k' : Kernel) (t : Nat) : Prop where
  ordered : Ordered k'
  bound : t < k'.taskCount
  grows : k.taskCount ≤ k'.taskCount
  free : k.taskCount ≤ t ∨ (k.tasks t).state = .terminated
  fresh : (k'.tasks t).proc = none ∧ (k'.tasks t).state = .ready
  others : ∀ u, u ≠ t → (k.tasks u).Relinked (k'.tasks u)
  procs : k'.procs = k.procs
  pipes : k'.pipes = k.pipes

theorem spliceTask_fresh {k : Kernel} {t : Nat} (apart : t ≠ k.current) :
    ((spliceTask k t).tasks t).proc = none ∧ ((spliceTask k t).tasks t).state = .ready := by
  simp [spliceTask, Kernel.setTask, apart]

theorem taskAllocRaw_spliced {k : Kernel} (o : Ordered k) {t : Nat}
    (h : (taskAllocRaw k).2 = some t) : Spliced k (taskAllocRaw k).1 t := by
  unfold taskAllocRaw at h ⊢
  split
  · rename_i room
    rw [if_pos room] at h
    cases h
    have apart : k.taskCount ≠ k.current := by have := o.current_lt; omega
    refine ⟨?_, ?_, ?_, .inl le_rfl, spliceTask_fresh apart, fun u h => spliceTask_tasks _ h, rfl, rfl⟩
    · refine o.splice rfl rfl rfl room (Nat.le_succ _) (Nat.lt_succ_self _) apart (.inl le_rfl) ?_
        (fun _ _ => ⟨rfl, rfl⟩) ?_
      · intro u hu h
        simp only at hu
        omega
      · intro u hu
        have := o.next_lt u hu
        simp only
        omega
    · exact Nat.lt_succ_self _
    · exact Nat.le_succ _
  · rename_i full
    rw [if_neg full] at h
    have count : k.taskCount = maxTasks := by have := o.count_le; omega
    split
    · rename_i none
      rw [none] at h
      cases h
    · rename_i t' found
      rw [found] at h
      cases h
      have dead := List.find?_some found
      simp only [decide_eq_true_eq] at dead
      have bound : t < k.taskCount := by
        rw [count]
        exact List.mem_range.mp (List.mem_of_find?_eq_some found)
      obtain ⟨nextPid, current, taskCount, pipes⟩ := unlinkTaskFromRing_rest k t
      have ring := fun u => unlinkTaskFromRing_tasks o bound u
      have procs := unlinkTaskFromRing_procs k t
      -- freeing the old stack leaves the tables alone
      have finish : ∀ k₁ : Kernel, k₁.tasks = (unlinkTaskFromRing k t).tasks → k₁.procs = k.procs →
          k₁.nextPid = k.nextPid → k₁.current = k.current → k₁.taskCount = k.taskCount →
          k₁.pipes = k.pipes → Spliced k (spliceTask k₁ t) t := by
        intro k₁ tasks₁ procs₁ nextPid₁ current₁ taskCount₁ pipes₁
        refine ⟨?_, ?_, ?_, .inr dead.2, spliceTask_fresh (current₁ ▸ dead.1), ?_, procs₁, pipes₁⟩
        · refine o.splice procs₁ nextPid₁ current₁ ?_ ?_ ?_ dead.1 (.inr dead.2) ?_ ?_ ?_
          · rw [taskCount₁]; exact o.count_le
          · rw [taskCount₁]
          · rw [taskCount₁]; exact bound
          · intro u hu _
            rwa [taskCount₁] at hu
          · intro u _
            obtain ⟨n, hn⟩ := (ring u).1
            rw [tasks₁, hn]
            exact ⟨rfl, rfl⟩
          · intro u hu
            rw [tasks₁, taskCount₁]
            exact (ring u).2 hu
        · show t < k₁.taskCount
          rw [taskCount₁]; exact bound
        · show k.taskCount ≤ k₁.taskCount
          rw [taskCount₁]
        · intro u h
          obtain ⟨n, hn⟩ := (ring u).1
          obtain ⟨m, hm⟩ := spliceTask_tasks k₁ h
          exact ⟨m, by rw [hm, tasks₁, hn]⟩
      simp only
      split
      · exact finish _ rfl procs nextPid current taskCount pipes
      · exact finish _ rfl procs nextPid current taskCount pipes

theorem taskAllocRaw_failed {k : Kernel} (h : (taskAllocRaw k).2 = none) : (taskAllocRaw k).1 = k := by
  unfold taskAllocRaw at h ⊢
  split
  · rename_i room
    rw [if_pos room] at h
    cases h
  · rename_i full
    rw [if_neg full] at h
    split
    · rfl
    · rename_i found
      rw [found] at h
      cases h

theorem Ordered.link {k k' : Kernel} (o : Ordered k) {t p : Nat} (bound : t < k.taskCount)
    (fresh : (k.tasks t).proc = none ∧ (k.tasks t).state = .ready) (live : k.Live p)
    (alone : (k.procs p).task = none) (current : k'.current = k.current)
    (count : k'.taskCount = k.taskCount) (nextPid : k'.nextPid = k.nextPid)
    (task : (k'.tasks t).proc = some p ∧ (k'.tasks t).state = .ready ∧
      (k'.tasks t).next = (k.tasks t).next)
    (tasks : ∀ u, u ≠ t → k'.tasks u = k.tasks u)
    (proc : (k'.procs p).identity = ((k.procs p).pid, (k.procs p).isZombie, some t))
    (procs : ∀ q, q ≠ p → k'.procs q = k.procs q) : Ordered k' := by
  simp only [Process.identity, Prod.mk.injEq] at proc
  have pid : ∀ q, (k'.procs q).pid = (k.procs q).pid := by
    intro q
    by_cases h : q = p
    · subst h; exact proc.1
    · rw [procs q h]
  refine ⟨?_, ?_, ?_, ?_, ?_, ?_, ?_, ?_, ?_, ?_⟩
  · rw [current, count]; exact o.current_lt
  · rw [count]; exact o.count_le
  · intro u hu
    rw [count] at hu ⊢
    by_cases h : u = t
    · subst h
      rw [task.2.2]
      exact o.next_lt u hu
    · rw [tasks u h]
      exact o.next_lt u hu
  · intro u blocked
    rw [count]
    by_cases h : u = t
    · subst h; exact bound
    · rw [tasks u h] at blocked
      exact o.idle u blocked
  · rw [nextPid]; exact o.nextPid_pos
  · intro q
    rw [pid, nextPid]
    exact o.pids q
  · intro q r
    rw [pid, pid]
    exact o.unique q r
  · intro q hq
    rw [pid]
    exact o.vacant q hq
  · intro u q awake hproc
    by_cases h : u = t
    · subst h
      rw [task.1] at hproc
      cases hproc
      rw [proc.1, proc.2.1, proc.2.2]
      exact ⟨live.pid, live.awake, rfl⟩
    · rw [tasks u h] at awake hproc
      have link := o.owner u q awake hproc
      have other : q ≠ p := by
        rintro rfl
        rw [alone] at link
        exact absurd link.2.2 (by simp)
      rw [procs q other]
      exact link
  · intro q u hpid hzombie htask
    by_cases h : q = p
    · subst h
      rw [proc.2.2] at htask
      cases htask
      exact ⟨by rw [count]; exact bound, by rw [task.2.1]; decide, task.1⟩
    · rw [procs q h] at hpid hzombie htask
      have link := o.task q u hpid hzombie htask
      have other : u ≠ t := by
        rintro rfl
        rw [fresh.1] at link
        exact absurd link.2.2 (by simp)
      rw [tasks u other, count]
      exact link

theorem Ordered.clear {k k' : Kernel} (o : Ordered k) {i : Nat} (zombie : (k.procs i).isZombie = true)
    (current : k'.current = k.current) (count : k'.taskCount = k.taskCount)
    (nextPid : k'.nextPid = k.nextPid) (tasks : k'.tasks = k.tasks)
    (cleared : (k'.procs i).pid = 0) (procs : ∀ q, q ≠ i → k'.procs q = k.procs q) : Ordered k' := by
  refine ⟨?_, ?_, ?_, ?_, ?_, ?_, ?_, ?_, ?_, ?_⟩
  · rw [current, count]; exact o.current_lt
  · rw [count]; exact o.count_le
  · rw [tasks, count]; exact o.next_lt
  · rw [tasks, count]; exact o.idle
  · rw [nextPid]; exact o.nextPid_pos
  · intro q
    rw [nextPid]
    by_cases h : q = i
    · subst h
      rw [cleared]
      exact ⟨le_rfl, o.nextPid_pos⟩
    · rw [procs q h]
      exact o.pids q
  · intro q r hpid same
    have hq : q ≠ i := fun h => hpid (h ▸ cleared)
    have hr : r ≠ i := fun h => hpid (same.trans (h ▸ cleared))
    rw [procs q hq] at hpid same
    rw [procs r hr] at same
    exact o.unique q r hpid same
  · intro q hq
    by_cases h : q = i
    · subst h; exact cleared
    · rw [procs q h]
      exact o.vacant q hq
  · intro u q awake proc
    rw [tasks] at awake proc
    have link := o.owner u q awake proc
    have h : q ≠ i := by
      rintro rfl
      rw [zombie] at link
      exact absurd link.2.1 (by decide)
    rw [procs q h]
    exact link
  · intro q u hpid hzombie htask
    have h : q ≠ i := fun h => hpid (h ▸ cleared)
    rw [procs q h] at hpid hzombie htask
    rw [tasks, count]
    exact o.task q u hpid hzombie htask

end Isunux
