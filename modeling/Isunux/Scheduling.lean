import Isunux.NoLostWakeup
import Isunux.TaskRing

/-! The scheduler under any sequence of its calls: which task runs, which ones are
stopped, and which kernel stacks are given back. -/
namespace Isunux

def taskStackPages : Nat := 4

def taskCreate (k : Kernel) (trampoline : Word) : Kernel × Option Nat :=
  match taskAllocRaw k with
  | (k, none) => (k, none)
  | (k, some t) =>
    let a := pmmAllocPages k.vm.pmm taskStackPages
    if a.2 = 0 then (k, none)
    else
      let top := k.hhdm + pageAddr (a.2 + taskStackPages)
      let stack := [0#64, 0#64, 0#64, 0#64, 0#64, 0#64, trampoline, 0#64]
      let k := { k with
        vm := { k.vm with pmm := a.1, mem := storeAtEnd k.vm.mem (a.2 + taskStackPages - 1) stack } }
      (k.setTask t fun x =>
        { x with
          stackPhys := a.2, stackPages := taskStackPages, kernelStackTop := top
          rsp := top - BitVec.ofNat 64 (8 * stack.length) }, some t)

/-! `yield` in two halves. -/

/-- The current task gives up the processor. -/
def giveUp (k : Kernel) : Kernel :=
  if (k.tasks k.current).state = .running then
    k.setTask k.current fun x => { x with state := .ready }
  else k

/-- The task that `yield` switches to. -/
def yieldsTo (k : Kernel) : Option Nat :=
  pickNextReady (giveUp k).tasks k.current maxTasks ((giveUp k).tasks k.current).next

/-- `yield` ends in its loop around `sti; hlt`. -/
def yieldHalts (k : Kernel) : Bool :=
  (yieldsTo k).isNone && decide (((giveUp k).tasks k.current).state ≠ .ready)

theorem yield_eq (k : Kernel) :
    yield k = match yieldsTo k with
      | some next => { (giveUp k).setTask next (fun x => { x with state := .running }) with current := next }
      | none =>
        if ((giveUp k).tasks k.current).state = .ready then
          (giveUp k).setTask k.current fun x => { x with state := .running }
        else giveUp k := rfl

/-- The slot whose old task `task_alloc_raw` throws away, and its stack with it. -/
def recycles (k : Kernel) : Option Nat :=
  if k.taskCount < maxTasks then none else findTerminatedTask k

/-- Where `do_fork` calls `task_alloc_raw`, and for which child. -/
def forkPrepared (k : Kernel) : Option (Kernel × Nat) :=
  match k.currentProcess with
  | none => none
  | some parent =>
    match processAlloc k (k.procs parent).pid with
    | (_, none) => none
    | (k, some child) =>
      let space := vmmNewAddressSpace k.vm
      let vm := vmmCloneLowerHalf space.1 space.2 (k.procs parent).pml4
      some (processCloneInto { k with vm := vm } child parent space.2, child)

theorem doFork_prepared {k k₁ : Kernel} {child : Nat} (h : forkPrepared k = some (k₁, child))
    (point : Word) (frame : TrapFrame) : doFork k point frame = forkTask k₁ child point frame := by
  unfold forkPrepared at h
  unfold doFork
  cases hp : k.currentProcess with
  | none =>
    rw [hp] at h
    cases h
  | some parent =>
    rw [hp] at h
    simp only at h ⊢
    cases made : processAlloc k (k.procs parent).pid with
    | mk k' child =>
      rw [made] at h
      cases child with
      | none => cases h
      | some i =>
        cases h
        rfl

/-- The kernel, and beside it how many tasks each slot has held so far and the
tasks (slot and number) whose stack was freed. -/
structure Sched where
  kernel : Kernel
  born : Nat → Nat
  freed : List (Nat × Nat)

/-- A call of `task_alloc_raw` in the state `k`. -/
def Sched.allocates (s : Sched) (k : Kernel) : Sched :=
  { s with
    born := match (taskAllocRaw k).2 with
      | some t => Function.update s.born t (s.born t + 1)
      | none => s.born
    freed := match recycles k with
      | some t => (t, s.born t) :: s.freed
      | none => s.freed }

/-- The calls of task.c and process.c that touch tasks, in any order. `finish` is
the end of `task_entry_trampoline`; `elsewhere` is anything that touches only
memory, pipes and descriptors. -/
inductive SchedOp where
  | allocRaw
  | create (trampoline : Word)
  | createUser (p : Nat) (trampoline entryRip entryRsp : Word)
  | alloc (parentPid : Int)
  | fork (returnPoint : Word) (frame : TrapFrame)
  | yield
  | block (chan : Chan)
  | wake (chan : Chan)
  | terminate (p code : Nat)
  | finish
  | signal (target sig : Nat)
  | reap (p : Nat)
  | elsewhere (vm : Vm) (pipes : Nat → Pipe) (fds : Nat → Nat → FdEntry)

/-- One call. A call that nobody makes in the state it is for changes nothing:
`main` neither sleeps nor ends, only a running task sleeps or ends itself, and
`task_create_user` is for a process without a task. -/
def schedStep (s : Sched) (op : SchedOp) : Sched × Unit :=
  let k := s.kernel
  let running := (k.tasks k.current).state = .running
  match op with
  | .allocRaw => ({ s.allocates k with kernel := (taskAllocRaw k).1 }, ())
  | .create trampoline => ({ s.allocates k with kernel := (taskCreate k trampoline).1 }, ())
  | .createUser p trampoline rip rsp =>
    if p < maxProcesses ∧ (k.procs p).pid ≠ 0 ∧ (k.procs p).isZombie = false ∧ (k.procs p).task = none then
      ({ s.allocates k with kernel := (taskCreateUser k p trampoline rip rsp).1 }, ())
    else (s, ())
  | .alloc parentPid => ({ s with kernel := (processAlloc k parentPid).1 }, ())
  | .fork point frame =>
    if running then
      match forkPrepared k with
      | some (k₁, _) => ({ s.allocates k₁ with kernel := (doFork k point frame).1 }, ())
      | none => ({ s with kernel := (doFork k point frame).1 }, ())
    else (s, ())
  | .yield => ({ s with kernel := Isunux.yield k }, ())
  | .block chan =>
    if running ∧ k.current ≠ 0 then ({ s with kernel := taskSleep k chan }, ()) else (s, ())
  | .wake chan => ({ s with kernel := taskWake k chan }, ())
  | .terminate p code =>
    match (k.procs p).task with
    | some t =>
      if p < maxProcesses ∧ (k.procs p).pid ≠ 0 ∧ (k.procs p).isZombie = false then
        ({ s with kernel := processTerminate k p t code }, ())
      else (s, ())
    | none => (s, ())
  | .finish =>
    if running ∧ k.current ≠ 0 ∧ k.currentProcess = none then
      ({ s with kernel := k.setTask k.current fun x => { x with state := .terminated } }, ())
    else (s, ())
  | .signal target sig =>
    if target < maxProcesses ∧ (k.procs target).pid ≠ 0 then
      match processSendSignal k target sig with
      | some r => ({ s with kernel := r.1 }, ())
      | none => (s, ())
    else (s, ())
  | .reap p =>
    if (k.procs p).isZombie = true then ({ s with kernel := Isunux.reap k p }, ()) else (s, ())
  | .elsewhere vm pipes fds =>
    ({ s with
      kernel := { k with vm := vm, pipes := pipes, procs := fun p => { k.procs p with fds := fds p } } }, ())

/-- The scheduler after `task_init`. -/
def bootSched (vm : Vm) (hhdm : Word) : Sched := ⟨bootKernel vm hhdm, fun _ => 0, []⟩

/-- Who runs, who is stopped, and that `main` is always there to go on. -/
structure Roles (k : Kernel) : Prop where
  ordered : Ordered k
  ring : Ringed k
  running : ∀ t, (k.tasks t).state = .running → t = k.current
  main : ((k.tasks 0).state = .ready ∨ (k.tasks 0).state = .running) ∧ (k.tasks 0).proc = none
  stopped : ∀ p, (k.procs p).pid ≠ 0 → (k.procs p).isZombie = false →
    ((k.procs p).isStopped = true ↔
      ∃ t, (k.procs p).task = some t ∧ (k.tasks t).state = .stopped)

section Roles

variable {k k' : Kernel}

theorem Steady.ringed (s : Steady k k') (o : Ordered k) (r : Ringed k) : Ringed k' :=
  r.turn (funext fun t => (s.tasks t).2.1) s.taskCount (s.taskCount ▸ s.current o.current_lt)

theorem Roles.steady (r : Roles k) (s : Steady k k') (flags : ∀ p, (k'.procs p).isStopped = (k.procs p).isStopped)
    (stopped : ∀ t, (k'.tasks t).state = .stopped ↔ (k.tasks t).state = .stopped)
    (running : ∀ t, (k'.tasks t).state = .running → t = k'.current)
    (main : (k'.tasks 0).state = .ready ∨ (k'.tasks 0).state = .running) : Roles k' := by
  refine ⟨s.ordered r.ordered, s.ringed r.ordered r.ring, running, ⟨main, ?_⟩, ?_⟩
  · rw [(s.tasks 0).1]
    exact r.main.2
  · intro p
    obtain ⟨pid, zombie, task⟩ := Process.identity_eq (s.procs p)
    rw [pid, zombie, task, flags]
    simp only [stopped]
    exact r.stopped p

theorem Roles.quiet (r : Roles k) (q : Quiet k k') : Roles k' := by
  refine r.steady q.steady (fun p => (Process.core_eq (q.procs p)).2.2.2.2.2.2.1)
    (fun t => (q.tasks t).state_iff (by decide) (by decide)) ?_ ?_
  · intro t h
    rw [q.current]
    exact r.running t (((q.tasks t).state_iff (by decide) (by decide)).mp h)
  · rcases (q.tasks 0).state with same | ⟨-, ready⟩
    · rw [same]
      exact r.main.1
    · exact .inl ready

theorem Roles.setProc (r : Roles k) (p : Nat) {f : Process → Process}
    (same : (f (k.procs p)).identity = (k.procs p).identity)
    (flag : (f (k.procs p)).isStopped = (k.procs p).isStopped) : Roles (k.setProc p f) := by
  refine r.steady (setProc_steady k p f same) (fun q => ?_) (fun _ => Iff.rfl) r.running r.main.1
  by_cases h : q = p
  · subst h; simp [Kernel.setProc, flag]
  · simp [Kernel.setProc, h]

theorem giveUp_rest (k : Kernel) : (giveUp k).current = k.current ∧ (giveUp k).next = k.next ∧
    (∀ t, t ≠ k.current → (giveUp k).tasks t = k.tasks t) ∧
    (((giveUp k).tasks k.current).state = .ready ∧ (k.tasks k.current).state = .running ∨
      (k.tasks k.current).state ≠ .running ∧ giveUp k = k) := by
  unfold giveUp
  split
  · rename_i running
    refine ⟨rfl, ?_, fun t h => ?_, .inl ⟨by simp [Kernel.setTask], running⟩⟩
    · funext t
      by_cases h : t = k.current
      · subst h; simp [Kernel.next, Kernel.setTask]
      · simp [Kernel.next, Kernel.setTask, h]
    · simp [Kernel.setTask, h]
  · rename_i other
    exact ⟨rfl, rfl, fun _ _ => rfl, .inr ⟨other, rfl⟩⟩

theorem giveUp_pick {others : List Nat} (circle : Tour.Circle k.next k.current others) {fuel : Nat}
    (enough : others.length < fuel) :
    pickNextReady (giveUp k).tasks k.current fuel ((giveUp k).tasks k.current).next =
      others.find? fun t => (k.tasks t).state = .ready := by
  obtain ⟨-, next, same, -⟩ := giveUp_rest k
  have away := (List.nodup_cons.mp circle.nodup).1
  rw [@pickNextReady_eq _ _ others _ _ (next.symm ▸ circle.path :) away enough]
  refine List.find?_congr fun t mem => ?_
  rw [same t]
  rintro rfl
  exact away mem

/-- It stops, however long it is allowed to go on. -/
theorem Ringed.pick (r : Ringed k) (count : k.taskCount ≤ maxTasks) :
    ∃ others, (∀ t, t ∈ k.current :: others ↔ t < k.taskCount) ∧ k.current ∉ others ∧
      ∀ fuel, maxTasks ≤ fuel →
        pickNextReady (giveUp k).tasks k.current fuel ((giveUp k).tasks k.current).next =
          others.find? fun t => (k.tasks t).state = .ready := by
  obtain ⟨others, circle, all⟩ := r
  have length := Ringed.length circle all
  exact ⟨others, all, (List.nodup_cons.mp circle.nodup).1, fun fuel enough => giveUp_pick circle (by omega)⟩

theorem Roles.picks (r : Roles k) {next : Nat} (h : yieldsTo k = some next) :
    next < k.taskCount ∧ next ≠ k.current ∧ (k.tasks next).state = .ready := by
  obtain ⟨others, all, away, pick⟩ := r.ring.pick r.ordered.count_le
  have found := (pick maxTasks le_rfl).symm.trans h
  have mem := List.mem_of_find?_eq_some found
  refine ⟨(all next).mp (List.mem_cons_of_mem _ mem), ?_, by simpa using List.find?_some found⟩
  rintro rfl
  exact away mem

theorem Roles.never_halts (r : Roles k) : yieldHalts k = false := by
  unfold yieldHalts
  rw [Bool.and_eq_false_iff]
  by_cases zero : k.current = 0
  · right
    rw [decide_eq_false_iff_not, not_not]
    rcases (giveUp_rest k).2.2.2 with ⟨ready, -⟩ | ⟨other, same⟩
    · exact ready
    · rw [same, zero]
      rw [zero] at other
      exact r.main.1.resolve_right other
  · left
    obtain ⟨others, all, away, pick⟩ := r.ring.pick r.ordered.count_le
    have ready : (k.tasks 0).state = .ready := by
      refine r.main.1.resolve_right fun running => ?_
      exact zero (r.running 0 running).symm
    have mem : 0 ∈ others := by
      have := (all 0).mpr (Nat.zero_lt_of_lt r.ordered.current_lt)
      rwa [List.mem_cons, or_iff_right (Ne.symm zero)] at this
    rw [Option.isNone_eq_false_iff, yieldsTo, pick maxTasks le_rfl, List.find?_isSome]
    exact ⟨0, mem, by simpa using ready⟩

theorem Roles.yield_eq (r : Roles k) : ∃ next, next < k.taskCount ∧
    ((giveUp k).tasks next).state = .ready ∧ (next ≠ k.current → yieldsTo k = some next) ∧
    (next = k.current → yieldsTo k = none) ∧
    yield k = { (giveUp k).setTask next (fun x => { x with state := .running }) with current := next } := by
  rw [Isunux.yield_eq]
  cases picked : yieldsTo k with
  | some next =>
    obtain ⟨bound, other, ready⟩ := r.picks picked
    refine ⟨next, bound, ?_, fun _ => rfl, fun same => absurd same other, rfl⟩
    rw [(giveUp_rest k).2.2.1 next other]
    exact ready
  | none =>
    have halts := r.never_halts
    have ready : ((giveUp k).tasks k.current).state = .ready := by
      simpa [yieldHalts, picked] using halts
    refine ⟨k.current, r.ordered.current_lt, ready, fun h => absurd rfl h, fun _ => rfl, ?_⟩
    simp only [ready, if_true]
    rw [← (giveUp_rest k).1]
    rfl

theorem Roles.yield (r : Roles k) : Roles (yield k) := by
  obtain ⟨next, -, ready, -, -, eq⟩ := r.yield_eq
  obtain ⟨-, -, same, now⟩ := giveUp_rest k
  have state : ∀ t, ((Isunux.yield k).tasks t).state =
      if t = next then .running else ((giveUp k).tasks t).state := by
    intro t
    rw [eq]
    by_cases h : t = next
    · subst h; simp [Kernel.setTask]
    · simp [Kernel.setTask, h]
  -- giving up and being picked are moves between RUNNING and READY
  have before : ∀ t, ((giveUp k).tasks t).state = (k.tasks t).state ∨
      ((giveUp k).tasks t).state = .ready ∧ (k.tasks t).state = .running := by
    intro t
    by_cases h : t = k.current
    · subst h
      rcases now with moved | ⟨-, still⟩
      · exact .inr moved
      · exact .inl (by rw [still])
    · exact .inl (by rw [same t h])
  refine r.steady (yield_steady r.ordered) (fun p => by rw [(yield_rest k).2.1]) ?_ ?_ ?_
  · intro t
    rw [state]
    split
    · rename_i h
      subst h
      rcases before t with h | ⟨-, h⟩
      · rw [← h, ready]
        decide
      · rw [h]
    · rcases before t with h | ⟨h, h'⟩
      · rw [h]
      · rw [h, h']
        decide
  · intro t running
    have current : (Isunux.yield k).current = next := by rw [eq]
    rw [current]
    rw [state] at running
    split at running
    · assumption
    · rename_i h
      rcases before t with h' | ⟨h', -⟩
      · rw [h'] at running
        have := r.running t running
        subst this
        rcases now with ⟨moved, -⟩ | ⟨other, -⟩
        · rw [moved] at h'
          rw [← h'] at running
          cases running
        · exact absurd running other
      · rw [h'] at running
        cases running
  · rw [state]
    split
    · exact .inr rfl
    · rcases before 0 with h | ⟨h, -⟩
      · rw [h]
        exact r.main.1
      · exact .inl h

theorem Roles.edited (r : Roles k) {p t : Nat} {f : Process → Process} {s : TaskState}
    (e : Edited k k' p f t s) (ordered : Ordered k') (live : (k.procs p).pid ≠ 0)
    (awake : (k.procs p).isZombie = false) (task : (k.procs p).task = some t) (still : s ≠ .running)
    (agrees : (f (k.procs p)).isZombie = false →
      (f (k.procs p)).task = some t ∧ ((f (k.procs p)).isStopped = true ↔ s = .stopped)) :
    Roles k' := by
  obtain ⟨bound, going, mine⟩ := r.ordered.task p t live awake task
  have other : t ≠ 0 := by
    rintro rfl
    rw [r.main.2] at mine
    cases mine
  refine ⟨ordered, ?_, ?_, ⟨?_, ?_⟩, ?_⟩
  · refine r.ring.turn (funext fun u => (e.fields u).2.1) e.taskCount ?_
    rw [e.current]
    exact r.ordered.current_lt
  · intro u running
    rw [e.current]
    by_cases h : u = t
    · subst h
      rw [e.state] at running
      exact absurd running still
    · exact r.running u (((e.tasks u h).state_iff (by decide) (by decide)).mp running)
  · rcases (e.tasks 0 (Ne.symm other)).state with same | ⟨-, ready⟩
    · rw [same]
      exact r.main.1
    · exact .inl ready
  · rw [(e.fields 0).1]
    exact r.main.2
  · intro q pid zombie
    by_cases h : q = p
    · subst h
      obtain ⟨-, -, -, -, -, zombie', stopped', -, -, task'⟩ := Process.core_eq e.proc
      rw [zombie'] at zombie
      obtain ⟨mine, iff⟩ := agrees zombie
      rw [stopped', task', mine, iff]
      constructor
      · rintro rfl
        exact ⟨t, rfl, e.state⟩
      · rintro ⟨u, eq, stopped⟩
        cases eq
        rw [← stopped, e.state]
    · obtain ⟨-, -, pid', -, -, zombie', stopped', -, -, task'⟩ := Process.core_eq (e.procs q h)
      rw [pid'] at pid
      rw [zombie'] at zombie
      rw [stopped', task', r.stopped q pid zombie]
      refine exists_congr fun u => and_congr_right fun hu => ?_
      have apart : u ≠ t := by
        rintro rfl
        have := (r.ordered.task q u pid zombie hu).2.2
        rw [mine] at this
        exact h (Option.some.inj this).symm
      exact ((e.tasks u apart).state_iff (by decide) (by decide)).symm

theorem Roles.park (r : Roles k) {f : Task → Task} (running : (k.tasks k.current).state = .running)
    (notMain : k.current ≠ 0) (proc : (f (k.tasks k.current)).proc = (k.tasks k.current).proc)
    (next : (f (k.tasks k.current)).next = (k.tasks k.current).next)
    (state : (f (k.tasks k.current)).state = .blocked ∨
      (f (k.tasks k.current)).state = .terminated ∧ (k.tasks k.current).proc = none) :
    Roles (k.setTask k.current f) := by
  have o := r.ordered
  have here : (k.setTask k.current f).tasks k.current = f (k.tasks k.current) := by simp [Kernel.setTask]
  have there : ∀ u, u ≠ k.current → (k.setTask k.current f).tasks u = k.tasks u := by
    intro u h
    simp [Kernel.setTask, h]
  have procs : ∀ u, ((k.setTask k.current f).tasks u).proc = (k.tasks u).proc := by
    intro u
    by_cases h : u = k.current
    · subst h; rw [here, proc]
    · rw [there u h]
  have links : (k.setTask k.current f).next = k.next := by
    funext u
    by_cases h : u = k.current
    · subst h; simp [Kernel.next, here, next]
    · simp [Kernel.next, there u h]
  -- a task that a live process points at does not end here
  have lives : ∀ p u, (k.procs p).pid ≠ 0 → (k.procs p).isZombie = false → (k.procs p).task = some u →
      ((k.setTask k.current f).tasks u).state ≠ .terminated := by
    intro p u pid zombie task
    obtain ⟨-, going, mine⟩ := o.task p u pid zombie task
    by_cases h : u = k.current
    · subst h
      rw [here]
      rcases state with blocked | ⟨-, alone⟩
      · rw [blocked]; decide
      · rw [alone] at mine; cases mine
    · rw [there u h]; exact going
  refine ⟨⟨o.current_lt, o.count_le, ?_, ?_, o.nextPid_pos, o.pids, o.unique, o.vacant, ?_, ?_⟩,
    r.ring.turn links rfl o.current_lt, ?_, ⟨?_, by rw [procs]; exact r.main.2⟩, ?_⟩
  · intro u hu
    have := congrFun links u
    simp only [Kernel.next] at this
    rw [this]
    exact o.next_lt u hu
  · intro u blocked
    by_cases h : u = k.current
    · subst h; exact o.current_lt
    · rw [there u h] at blocked; exact o.idle u blocked
  · intro u p going mine
    rw [procs] at mine
    refine o.owner u p ?_ mine
    by_cases h : u = k.current
    · subst h; rw [running]; decide
    · rwa [there u h] at going
  · intro p u pid zombie task
    obtain ⟨bound, -, mine⟩ := o.task p u pid zombie task
    exact ⟨bound, lives p u pid zombie task, by rw [procs]; exact mine⟩
  · intro u now
    by_cases h : u = k.current
    · exact h
    · rw [there u h] at now; exact r.running u now
  · rw [there 0 (Ne.symm notMain)]
    exact r.main.1
  · intro p pid zombie
    show (k.procs p).isStopped = true ↔ _
    rw [r.stopped p pid zombie]
    refine exists_congr fun u => and_congr_right fun _ => ?_
    by_cases h : u = k.current
    · subst h
      rw [here, running]
      rcases state with state | ⟨state, -⟩ <;> rw [state] <;> decide
    · rw [there u h]

theorem Roles.terminate (r : Roles k) {p t : Nat} (live : k.Live p) (task : (k.procs p).task = some t)
    (code : Nat) : Roles (processTerminate k p t code) := by
  refine r.edited (processTerminate_edited k p t code) (processTerminate_ordered r.ordered live task code)
    live.pid live.awake task (by decide) ?_
  intro h
  cases h

theorem Edited.steady {p t : Nat} {f : Process → Process} {s : TaskState} (e : Edited k k' p f t s)
    (same : (f (k.procs p)).identity = (k.procs p).identity) (awake : s ≠ .blocked)
    (going : s ≠ .terminated) (was : (k.tasks t).state ≠ .terminated) : Steady k k' where
  current := fun c => by rw [e.current, e.taskCount]; exact c
  taskCount := e.taskCount
  nextPid := e.nextPid
  tasks := by
    intro u
    refine ⟨(e.fields u).1, (e.fields u).2.1, ?_⟩
    by_cases h : u = t
    · subst h
      rw [e.state]
      exact ⟨fun h => absurd h going, fun h => absurd h was⟩
    · exact (e.tasks u h).state_iff (by decide) (by decide)
  blocked := by
    intro u blocked
    by_cases h : u = t
    · subst h
      rw [e.state] at blocked
      exact absurd blocked awake
    · rcases (e.tasks u h).state with same | ⟨was, -⟩
      · rw [← same]; exact blocked
      · exact was
  procs := by
    intro q
    by_cases h : q = p
    · subst h
      rw [Process.identity_of_core e.proc, same]
    · exact Process.identity_of_core (e.procs q h)

theorem Roles.signal (r : Roles k) {target sig : Nat} (live : (k.procs target).pid ≠ 0)
    (bound : target < maxProcesses) {x : Kernel × SelfAction}
    (h : processSendSignal k target sig = some x) : Roles x.1 := by
  rcases processSendSignal_cases h with ⟨same, -⟩ | ⟨t, task, awake, effect⟩
  · rw [same]
    exact r
  have going := (r.ordered.task target t live awake task).2.1
  rcases effect with ⟨fatal, edited, -⟩ | ⟨-, -, edited, -⟩ | ⟨-, -, edited, -⟩
  · have eq : x.1 = processTerminate k target t (encodeSignaled sig) := by
      unfold processSendSignal at h
      simp only [if_pos fatal, awake, task, Bool.false_eq_true, if_false, Option.map_some,
        Option.some.injEq] at h
      rw [← h]
    rw [eq]
    exact r.terminate ⟨bound, live, awake⟩ task _
  · refine r.edited edited ((edited.steady rfl (by decide) (by decide) going).ordered r.ordered) live
      awake task (by decide) fun _ => ⟨task, ?_⟩
    simp [Process.suspended]
  · refine r.edited edited ((edited.steady rfl (by decide) (by decide) going).ordered r.ordered) live
      awake task (by decide) fun _ => ⟨task, ?_⟩
    simp [Process.continued]

theorem Roles.alloc (r : Roles k) (parent : Int) : Roles (processAlloc k parent).1 := by
  cases slot : (processAlloc k parent).2 with
  | none =>
    rw [processAlloc_failed slot]
    exact r
  | some i =>
    have ordered := processAlloc_ordered r.ordered parent
    obtain ⟨-, -, eq⟩ := processAlloc_eq slot
    rw [eq] at ordered ⊢
    refine ⟨ordered, r.ring, r.running, r.main, fun p pid zombie => ?_⟩
    by_cases h : p = i
    · subst h
      simp [Process.zero]
    · simp only [Function.update_of_ne h] at pid zombie ⊢
      exact r.stopped p pid zombie

theorem Spliced.ne_going {t : Nat} (s : Spliced k k' t) {u : Nat} (low : u < k.taskCount)
    (going : (k.tasks u).state ≠ .terminated) : u ≠ t := by
  rintro rfl
  rcases s.free with high | dead
  · omega
  · exact going dead

theorem Roles.main_ne (r : Roles k) {t : Nat} (s : Spliced k k' t) : 0 ≠ t := by
  refine s.ne_going (Nat.zero_lt_of_lt r.ordered.current_lt) ?_
  rcases r.main.1 with h | h <;> rw [h] <;> decide

theorem Roles.spliced (r : Roles k) {t : Nat} (slot : (taskAllocRaw k).2 = some t) :
    Roles (taskAllocRaw k).1 := by
  have s := taskAllocRaw_spliced r.ordered slot
  have ring := taskAllocRaw_ringed r.ordered r.ring
  have current : (taskAllocRaw k).1.current = k.current := taskAllocRaw_current k
  have zero := r.main_ne s
  have same : ∀ u, u ≠ t → ((taskAllocRaw k).1.tasks u).state = (k.tasks u).state ∧
      ((taskAllocRaw k).1.tasks u).proc = (k.tasks u).proc := by
    intro u h
    obtain ⟨n, eq⟩ := s.others u h
    rw [eq]
    exact ⟨rfl, rfl⟩
  refine ⟨s.ordered, ring, ?_, ⟨?_, ?_⟩, ?_⟩
  · intro u running
    rw [current]
    have h : u ≠ t := by
      rintro rfl
      rw [s.fresh.2] at running
      cases running
    rw [(same u h).1] at running
    exact r.running u running
  · rw [(same 0 zero).1]
    exact r.main.1
  · rw [(same 0 zero).2]
    exact r.main.2
  · intro p pid zombie
    rw [s.procs] at pid zombie ⊢
    rw [r.stopped p pid zombie]
    refine exists_congr fun u => and_congr_right fun task => ?_
    obtain ⟨low, going, -⟩ := r.ordered.task p u pid zombie task
    rw [(same u (s.ne_going low going)).1]

theorem Roles.allocRaw (r : Roles k) : Roles (taskAllocRaw k).1 := by
  cases slot : (taskAllocRaw k).2 with
  | none =>
    rw [taskAllocRaw_failed slot]
    exact r
  | some t => exact r.spliced slot

theorem Roles.furnish (r : Roles k) {t : Nat} {f : Task → Task} (ready : (k.tasks t).state = .ready)
    (state : (f (k.tasks t)).state = .ready) (proc : (f (k.tasks t)).proc = (k.tasks t).proc)
    (next : (f (k.tasks t)).next = (k.tasks t).next) : Roles (k.setTask t f) := by
  have steady := setState_steady k t .ready f state proc next (by decide) (by decide)
    (by rw [ready]; decide)
  have states : ∀ u, ((k.setTask t f).tasks u).state = (k.tasks u).state := by
    intro u
    by_cases h : u = t
    · subst h; simp [Kernel.setTask, state, ready]
    · simp [Kernel.setTask, h]
  refine r.steady steady (fun _ => rfl) (fun u => by rw [states]) (fun u running => ?_) ?_
  · rw [states] at running
    exact r.running u running
  · rw [states]
    exact r.main.1

theorem Roles.link (r : Roles k) {t p : Nat} (bound : t < k.taskCount)
    (fresh : (k.tasks t).proc = none ∧ (k.tasks t).state = .ready) (other : t ≠ 0) (live : k.Live p)
    (alone : (k.procs p).task = none) :
    Roles ((k.setTask t fun x => { x with proc := some p }).setProc p fun x =>
      { x with task := some t }) := by
  have tasks : ∀ u, u ≠ t → ((k.setTask t fun x => { x with proc := some p }).setProc p fun x =>
      { x with task := some t }).tasks u = k.tasks u := by
    intro u h
    simp [Kernel.setTask, Kernel.setProc, h]
  have states : ∀ u, (((k.setTask t fun x => { x with proc := some p }).setProc p fun x =>
      { x with task := some t }).tasks u).state = (k.tasks u).state := by
    intro u
    by_cases h : u = t
    · subst h; simp [Kernel.setTask, Kernel.setProc]
    · rw [tasks u h]
  have links : ((k.setTask t fun x => { x with proc := some p }).setProc p fun x =>
      { x with task := some t }).next = k.next := by
    funext u
    by_cases h : u = t
    · subst h; simp [Kernel.next, Kernel.setTask, Kernel.setProc]
    · simp only [Kernel.next, tasks u h]
  refine ⟨?_, r.ring.turn links rfl r.ordered.current_lt, ?_, ⟨?_, ?_⟩, ?_⟩
  · refine r.ordered.link bound fresh live alone rfl rfl rfl ?_ tasks ?_ ?_
    · simp [Kernel.setTask, Kernel.setProc, fresh.2]
    · simp [Kernel.setTask, Kernel.setProc, Process.identity]
    · intro q h
      simp [Kernel.setTask, Kernel.setProc, h]
  · intro u running
    rw [states] at running
    exact r.running u running
  · rw [states]
    exact r.main.1
  · rw [tasks 0 (Ne.symm other)]
    exact r.main.2
  · intro q pid zombie
    simp only [states]
    by_cases h : q = p
    · subst h
      have idle := r.stopped q live.pid live.awake
      simp only [alone, reduceCtorEq, false_and, exists_false, iff_false] at idle
      simp only [Kernel.setProc, Kernel.setTask, Function.update_self, Option.some.injEq]
      refine ⟨fun stopped => absurd stopped idle, ?_⟩
      rintro ⟨u, rfl, stopped⟩
      rw [fresh.2] at stopped
      cases stopped
    · simp only [Kernel.setProc, Kernel.setTask, Function.update_of_ne h] at pid zombie ⊢
      exact r.stopped q pid zombie

/-- A task for a process that has none: the common part of `do_fork` and
`task_create_user`. -/
theorem Roles.linked (r : Roles k) {k₁ : Kernel} {t p : Nat} (made : taskAllocRaw k = (k₁, some t))
    (live : k.Live p) (alone : (k.procs p).task = none) :
    Roles ((k₁.setTask t fun x => { x with proc := some p }).setProc p fun x =>
        { x with task := some t }) ∧
      (((k₁.setTask t fun x => { x with proc := some p }).setProc p fun x =>
        { x with task := some t }).tasks t).state = .ready := by
  have slot : (taskAllocRaw k).2 = some t := by rw [made]
  have r₁ := r.spliced slot
  have s := taskAllocRaw_spliced r.ordered slot
  have zero := r.main_ne s
  rw [made] at r₁ s
  simp only at r₁ s
  refine ⟨r₁.link s.bound s.fresh (Ne.symm zero) ⟨live.bound, ?_, ?_⟩ ?_, ?_⟩
  · rw [s.procs]; exact live.pid
  · rw [s.procs]; exact live.awake
  · rw [s.procs]; exact alone
  · simp [Kernel.setTask, Kernel.setProc, s.fresh.2]

theorem Roles.forkTask (r : Roles k) {child : Nat} (live : k.Live child)
    (alone : (k.procs child).task = none) (point : Word) (frame : TrapFrame) :
    Roles (forkTask k child point frame).1 := by
  unfold Isunux.forkTask
  split
  · rename_i k' failed
    have same := taskAllocRaw_failed (k := k) (by rw [failed])
    rw [failed] at same
    exact same ▸ r
  · rename_i k' t made
    obtain ⟨r₂, ready⟩ := r.linked made live alone
    simp only
    generalize (k'.setTask t fun x => { x with proc := some child }).setProc child
      (fun x => { x with task := some t }) = k₂ at r₂ ready ⊢
    split
    · exact r₂
    · dsimp only
      exact (r₂.quiet (setVm_quiet k₂ _)).furnish ready rfl rfl rfl

theorem Roles.createUser (r : Roles k) {p : Nat} (live : k.Live p) (alone : (k.procs p).task = none)
    (trampoline rip rsp : Word) : Roles (taskCreateUser k p trampoline rip rsp).1 := by
  unfold taskCreateUser
  split
  · rename_i k' failed
    have same := taskAllocRaw_failed (k := k) (by rw [failed])
    rw [failed] at same
    exact same ▸ r
  · rename_i k' t made
    obtain ⟨r₂, ready⟩ := r.linked made live alone
    simp only
    generalize (k'.setTask t fun x => { x with proc := some p }).setProc p
      (fun x => { x with task := some t }) = k₂ at r₂ ready ⊢
    have r₃ := r₂.furnish (f := fun x => { x with userEntryRip := rip, userEntryRsp := rsp }) ready ready
      rfl rfl
    have ready₃ : ((k₂.setTask t fun x => { x with userEntryRip := rip, userEntryRsp := rsp }).tasks
        t).state = .ready := by simp [Kernel.setTask, ready]
    generalize k₂.setTask t (fun x => { x with userEntryRip := rip, userEntryRsp := rsp }) = k₃
      at r₃ ready₃ ⊢
    split
    · exact r₃
    · dsimp only
      exact (r₃.quiet (setVm_quiet k₃ _)).furnish ready₃ ready₃ rfl rfl

theorem Roles.create (r : Roles k) (trampoline : Word) : Roles (taskCreate k trampoline).1 := by
  unfold taskCreate
  split
  · rename_i k' failed
    have same := taskAllocRaw_failed (k := k) (by rw [failed])
    rw [failed] at same
    exact same ▸ r
  · rename_i k' t made
    have slot : (taskAllocRaw k).2 = some t := by rw [made]
    have r₁ := r.spliced slot
    have ready := (taskAllocRaw_spliced r.ordered slot).fresh.2
    rw [made] at r₁ ready
    simp only at r₁ ready ⊢
    split
    · exact r₁
    · dsimp only
      exact (r₁.quiet (setVm_quiet k' _)).furnish ready ready rfl rfl

theorem Roles.forkPrepared (r : Roles k) {k₁ : Kernel} {child : Nat}
    (h : forkPrepared k = some (k₁, child)) :
    Roles k₁ ∧ k₁.Live child ∧ (k₁.procs child).task = none := by
  unfold Isunux.forkPrepared at h
  split at h
  · cases h
  · rename_i parent _
    have r₁ := r.alloc (k.procs parent).pid
    split at h
    · cases h
    · rename_i k' i made
      have slot : (processAlloc k (k.procs parent).pid).2 = some i := by rw [made]
      have new := processAlloc_newborn r.ordered slot
      rw [made] at r₁ new
      simp only [Option.some.injEq, Prod.mk.injEq] at h
      obtain ⟨rfl, rfl⟩ := h
      generalize vmmCloneLowerHalf (vmmNewAddressSpace k'.vm).1 (vmmNewAddressSpace k'.vm).2
        (k'.procs parent).pml4 = vm
      have quiet := processCloneInto_quiet { k' with vm := vm } i parent (vmmNewAddressSpace k'.vm).2
      have r₂ := (r₁.quiet (setVm_quiet k' vm)).setProc i
        (f := (k'.procs parent).copied (vmmNewAddressSpace k'.vm).2) rfl rfl
      have child : ((Kernel.setProc { k' with vm := vm } i
          ((k'.procs parent).copied (vmmNewAddressSpace k'.vm).2)).procs i).identity =
          (k'.procs i).identity := by simp [Kernel.setProc, Process.copied, Process.identity]
      obtain ⟨pid, zombie, task⟩ :=
        Process.identity_eq ((Process.identity_of_core (quiet.procs i)).trans child)
      refine ⟨r₂.quiet quiet, ⟨new.live.bound, ?_, ?_⟩, ?_⟩
      · rw [pid]; exact new.live.pid
      · rw [zombie]; exact new.live.awake
      · rw [task]; exact new.alone

theorem doFork_unprepared (h : forkPrepared k = none) (point : Word) (frame : TrapFrame) :
    (doFork k point frame).1 = k := by
  unfold forkPrepared at h
  unfold doFork
  cases hp : k.currentProcess with
  | none => rfl
  | some parent =>
    rw [hp] at h
    simp only at h ⊢
    cases made : processAlloc k (k.procs parent).pid with
    | mk k' child =>
      cases child with
      | none =>
        have same : (processAlloc k (k.procs parent).pid).1 = k := processAlloc_failed (by rw [made])
        rw [made] at same
        exact same
      | some i =>
        rw [made] at h
        cases h

theorem Roles.fork (r : Roles k) (point : Word) (frame : TrapFrame) : Roles (doFork k point frame).1 := by
  cases prepared : Isunux.forkPrepared k with
  | none =>
    rw [doFork_unprepared prepared]
    exact r
  | some x =>
    obtain ⟨k₁, child⟩ := x
    obtain ⟨r₁, live, alone⟩ := r.forkPrepared prepared
    rw [doFork_prepared prepared]
    exact r₁.forkTask live alone point frame

theorem Roles.reap (r : Roles k) {p : Nat} (zombie : (k.procs p).isZombie = true) : Roles (reap k p) := by
  have others : ∀ q, q ≠ p → (Isunux.reap k p).procs q = k.procs q := by
    intro q h
    simp [Isunux.reap, Kernel.setProc, h]
  have gone : (Isunux.reap k p).procs p = .zero := by simp [Isunux.reap, Kernel.setProc]
  refine ⟨r.ordered.clear zombie rfl rfl rfl rfl (by rw [gone]; rfl) others, r.ring, r.running, r.main,
    fun q pid awake => ?_⟩
  have h : q ≠ p := by
    rintro rfl
    rw [gone] at pid
    exact pid rfl
  rw [others q h] at pid awake ⊢
  exact r.stopped q pid awake

theorem bootKernel_roles (vm : Vm) (hhdm : Word) : Roles (bootKernel vm hhdm) := by
  refine ⟨(bootWorld_sound vm hhdm ()).1.ordered, ⟨[], ⟨rfl, by simp⟩, ?_⟩, ?_, ⟨.inr rfl, rfl⟩, ?_⟩
  · intro t
    show t ∈ [0] ↔ t < 1
    simp
  · intro t running
    by_contra h
    have h : t ≠ 0 := h
    simp [bootKernel, h] at running
  · intro p pid
    exact absurd rfl pid

/-- What `task_alloc_raw` recycles is ended, not current, and handed out again
with nothing of its old context. -/
theorem recycles_spec {t : Nat} (h : recycles k = some t) :
    (k.tasks t).state = .terminated ∧ t ≠ k.current ∧ (taskAllocRaw k).2 = some t ∧
      ((taskAllocRaw k).1.tasks t).rsp = 0#64 ∧ ((taskAllocRaw k).1.tasks t).stackPhys = 0 ∧
      ((taskAllocRaw k).1.tasks t).stackPages = 0 := by
  unfold recycles at h
  split at h
  · cases h
  rename_i full
  have dead := List.find?_some h
  simp only [decide_eq_true_eq] at dead
  have current := (unlinkTaskFromRing_rest k t).2.1
  have fresh : ∀ k₁ : Kernel, k₁.current = k.current → ((spliceTask k₁ t).tasks t).rsp = 0#64 ∧
      ((spliceTask k₁ t).tasks t).stackPhys = 0 ∧ ((spliceTask k₁ t).tasks t).stackPages = 0 := by
    intro k₁ same
    have apart : t ≠ k₁.current := same ▸ dead.1
    simp [spliceTask, Kernel.setTask, apart]
  refine ⟨dead.2, dead.1, ?_⟩
  unfold taskAllocRaw
  rw [if_neg full, h]
  simp only
  split
  · exact ⟨trivial, fresh _ current⟩
  · exact ⟨trivial, fresh _ current⟩

end Roles

/-- Beside the roles: no task in use is one whose stack was freed. -/
structure Sched.Sound (s : Sched) : Prop where
  roles : Roles s.kernel
  gone : ∀ x ∈ s.freed, x.2 < s.born x.1

theorem Sched.allocates_gone {s : Sched} (gone : ∀ x ∈ s.freed, x.2 < s.born x.1) (k : Kernel) :
    ∀ x ∈ (s.allocates k).freed, x.2 < (s.allocates k).born x.1 := by
  have grows : ∀ t, s.born t ≤ (s.allocates k).born t := by
    intro t
    simp only [Sched.allocates]
    cases (taskAllocRaw k).2 with
    | none => exact le_rfl
    | some u =>
      by_cases h : t = u
      · subst h; simp
      · simp [h]
  have older : ∀ x ∈ s.freed, x.2 < (s.allocates k).born x.1 := fun x hx =>
    (gone x hx).trans_le (grows x.1)
  intro x hx
  cases reused : recycles k with
  | none =>
    simp only [Sched.allocates, reused] at hx
    exact older x hx
  | some t =>
    simp only [Sched.allocates, reused, List.mem_cons] at hx
    rcases hx with rfl | hx
    · simp [Sched.allocates, (recycles_spec reused).2.2.1]
    · exact older x hx

theorem schedStep_sound (s : Sched) (op : SchedOp) (h : s.Sound) : (schedStep s op).1.Sound := by
  obtain ⟨r, gone⟩ := h
  cases op with
  | allocRaw => exact ⟨r.allocRaw, Sched.allocates_gone gone _⟩
  | create trampoline => exact ⟨r.create trampoline, Sched.allocates_gone gone _⟩
  | createUser p trampoline rip rsp =>
    simp only [schedStep]
    split
    · rename_i ok
      exact ⟨r.createUser ⟨ok.1, ok.2.1, ok.2.2.1⟩ ok.2.2.2 trampoline rip rsp,
        Sched.allocates_gone gone _⟩
    · exact ⟨r, gone⟩
  | alloc parent => exact ⟨r.alloc parent, gone⟩
  | fork point frame =>
    simp only [schedStep]
    split
    · split
      · exact ⟨r.fork point frame, Sched.allocates_gone gone _⟩
      · exact ⟨r.fork point frame, gone⟩
    · exact ⟨r, gone⟩
  | yield => exact ⟨r.yield, gone⟩
  | block chan =>
    simp only [schedStep]
    split
    · rename_i ok
      refine ⟨?_, gone⟩
      dsimp only [taskSleep]
      exact r.park ok.1 ok.2 rfl rfl (.inl rfl)
    · exact ⟨r, gone⟩
  | wake chan => exact ⟨r.quiet (taskWake_quiet _ chan), gone⟩
  | terminate p code =>
    simp only [schedStep]
    split
    · rename_i t task
      split
      · rename_i ok
        exact ⟨r.terminate ⟨ok.1, ok.2.1, ok.2.2⟩ task code, gone⟩
      · exact ⟨r, gone⟩
    · exact ⟨r, gone⟩
  | finish =>
    simp only [schedStep]
    split
    · rename_i ok
      refine ⟨?_, gone⟩
      dsimp only
      exact r.park ok.1 ok.2.1 rfl rfl (.inr ⟨rfl, ok.2.2⟩)
    · exact ⟨r, gone⟩
  | signal target sig =>
    simp only [schedStep]
    split
    · rename_i ok
      split
      · rename_i x sent
        exact ⟨r.signal ok.2 ok.1 sent, gone⟩
      · exact ⟨r, gone⟩
    · exact ⟨r, gone⟩
  | reap p =>
    simp only [schedStep]
    split
    · rename_i zombie
      exact ⟨r.reap zombie, gone⟩
    · exact ⟨r, gone⟩
  | elsewhere vm pipes fds =>
    exact ⟨r.quiet (Quiet.of_tables rfl rfl rfl rfl fun _ => rfl), gone⟩

/-- The scheduler in every state of every run: the ring is whole, at most the
current task is RUNNING, stopped processes are those whose task is STOPPED,
`yield` switches to READY tasks only and never halts, its search needs no bound,
and `task_alloc_raw` frees the stack of an ended task that no later `yield`
switches to. -/
theorem scheduler_well_formed (vm : Vm) (hhdm : Word) (ops : List SchedOp) :
    let s := (Run.run schedStep (bootSched vm hhdm) ops).1
    let k := s.kernel
    (∀ t, t < k.taskCount → ∃! i, i < k.taskCount ∧ k.next^[i] k.current = t) ∧
    k.next^[k.taskCount] k.current = k.current ∧
    (∀ t, t < k.taskCount → (k.tasks t).state = .running → t = k.current) ∧
    (∀ p, p < maxProcesses → (k.procs p).pid ≠ 0 → (k.procs p).isZombie = false →
      ((k.procs p).isStopped = true ↔
        ∃ t, (k.procs p).task = some t ∧ (k.tasks t).state = .stopped)) ∧
    (∀ next, yieldsTo k = some next → (k.tasks next).state = .ready ∧ (next, s.born next) ∉ s.freed) ∧
    yieldHalts k = false ∧
    (∀ fuel, maxTasks ≤ fuel →
      pickNextReady (giveUp k).tasks k.current fuel ((giveUp k).tasks k.current).next = yieldsTo k) ∧
    (∀ t, recycles k = some t → (k.tasks t).state = .terminated ∧ t ≠ k.current ∧
      ((taskAllocRaw k).1.tasks t).rsp = 0#64 ∧ ((taskAllocRaw k).1.tasks t).stackPhys = 0) := by
  intro s k
  have sound : s.Sound := Run.run_invariant schedStep Sched.Sound schedStep_sound _ ops
    ⟨bootKernel_roles vm hhdm, by simp [bootSched]⟩
  have r : Roles k := sound.roles
  refine ⟨r.ring.visits.1, r.ring.visits.2, fun t _ => r.running t, fun p _ => r.stopped p, ?_,
    r.never_halts, ?_, ?_⟩
  · intro next picked
    exact ⟨(r.picks picked).2.2, fun freed => lt_irrefl _ (sound.gone _ freed)⟩
  · obtain ⟨others, -, -, pick⟩ := r.ring.pick r.ordered.count_le
    intro fuel enough
    rw [pick fuel enough, yieldsTo, pick maxTasks le_rfl]
  · intro t reused
    obtain ⟨dead, apart, -, rsp, stack, -⟩ := recycles_spec reused
    exact ⟨dead, apart, rsp, stack⟩

end Isunux
