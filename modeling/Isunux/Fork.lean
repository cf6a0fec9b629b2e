import Isunux.Kernel

/-! `do_fork`, fork.c, and what a failed call leaves behind. -/
namespace Isunux

/-- `interrupt_frame_t`, in memory order. -/
structure TrapFrame where
  r15 : Word
  r14 : Word
  r13 : Word
  r12 : Word
  r11 : Word
  r10 : Word
  r9 : Word
  r8 : Word
  rbp : Word
  rdi : Word
  rsi : Word
  rdx : Word
  rcx : Word
  rbx : Word
  rax : Word
  intNo : Word
  errCode : Word
  rip : Word
  cs : Word
  rflags : Word
  rsp : Word
  ss : Word

def TrapFrame.words (f : TrapFrame) : List Word :=
  [f.r15, f.r14, f.r13, f.r12, f.r11, f.r10, f.r9, f.r8, f.rbp, f.rdi, f.rsi, f.rdx, f.rcx, f.rbx,
    f.rax, f.intNo, f.errCode, f.rip, f.cs, f.rflags, f.rsp, f.ss]

def forkKstackPages : Nat := 4

/-- The hand-built stack of the child: callee-saved registers, the return address
`syscall_return_point`, and the parent's frame with `rax` zero. -/
def childStack (returnPoint : Word) (frame : TrapFrame) : List Word :=
  [0#64, 0#64, 0#64, 0#64, 0#64, 0#64, returnPoint] ++ { frame with rax := 0#64 }.words

def storeAtEnd (mem : PhysMem) (f : Nat) (words : List Word) : PhysMem :=
  Function.update mem f fun i =>
    if 512 - words.length ≤ i then (words[i - (512 - words.length)]?).getD (mem f i) else mem f i

/-- `do_fork` from the allocation of the child's task on. -/
def forkTask (k : Kernel) (child : Nat) (returnPoint : Word) (frame : TrapFrame) : Kernel × Int :=
  match taskAllocRaw k with
  | (k, none) => (k, -eagain)
  | (k, some childTask) =>
    let k := (k.setTask childTask fun t => { t with proc := some child }).setProc child fun c =>
      { c with task := some childTask }
    let a := pmmAllocPages k.vm.pmm forkKstackPages
    if a.2 = 0 then (k, -enomem)
    else
      let top := k.hhdm + pageAddr (a.2 + forkKstackPages)
      let stack := childStack returnPoint frame
      let k := { k with
        vm := { k.vm with pmm := a.1, mem := storeAtEnd k.vm.mem (a.2 + forkKstackPages - 1) stack } }
      (k.setTask childTask fun t =>
        { t with
          stackPhys := a.2, stackPages := forkKstackPages, kernelStackTop := top
          rsp := top - BitVec.ofNat 64 (8 * stack.length), state := .ready },
        (k.procs child).pid)

def doFork (k : Kernel) (returnPoint : Word) (frame : TrapFrame) : Kernel × Int :=
  match k.currentProcess with
  | none => (k, -einval)
  | some parent =>
    match processAlloc k (k.procs parent).pid with
    | (k, none) => (k, -eagain)
    | (k, some child) =>
      let space := vmmNewAddressSpace k.vm
      let vm := vmmCloneLowerHalf space.1 space.2 (k.procs parent).pml4
      forkTask (processCloneInto { k with vm := vm } child parent space.2) child returnPoint frame

/-- The leaf entry of an address in a process, as `vmm_get_pte` finds it. -/
def Kernel.entry (k : Kernel) (p : Nat) (v : Word) : Option Word :=
  (vmmGetPte k.vm.mem (k.procs p).pml4 v).map fun s => k.vm.mem s.1 s.2

/-- Nothing a failed fork must keep has changed. -/
structure SameForFork (k k' : Kernel) : Prop where
  table : ∀ i, i < maxProcesses → k'.procs i = k.procs i
  ring : k'.current = k.current ∧ k'.taskCount = k.taskCount ∧
    ∀ t, t < maxTasks → k'.tasks t = k.tasks t
  refcounts : ∀ i, i < maxPipes → (k'.pipes i).readRefcount = (k.pipes i).readRefcount ∧
    (k'.pipes i).writeRefcount = (k.pipes i).writeRefcount
  pages : ∀ f, k'.vm.pmm.bitmap f = k.vm.pmm.bitmap f
  entries : ∀ p, k.currentProcess = some p → ∀ v, k'.entry p v = k.entry p v

/-- A task is in the ring if the current one leads to it. -/
def InRing (k : Kernel) (t : Nat) : Prop := ∃ m, (fun i => (k.tasks i).next)^[m] k.current = t

/-- Live processes and their tasks point at each other, and a task that can be
scheduled has a stack to switch to. -/
structure Linked (k : Kernel) : Prop where
  tasks : ∀ i, i < maxProcesses → (k.procs i).pid ≠ 0 → (k.procs i).isZombie = false →
    ∃ t, (k.procs i).task = some t ∧ (k.tasks t).proc = some i
  resumable : ∀ t, InRing k t → (k.tasks t).state = .ready → (k.tasks t).rsp ≠ 0#64

def Process.identity (p : Process) : Int × Bool × Option Nat := (p.pid, p.isZombie, p.task)

theorem setFd_identity (k : Kernel) (p fd i : Nat) (e : FdEntry) :
    ((k.setFd p fd e).procs i).identity = (k.procs i).identity := by
  by_cases h : i = p
  · subst h; simp [Kernel.setFd, Kernel.setProc, Process.identity]
  · simp [Kernel.setFd, Kernel.setProc, h]

theorem cloneFd_identity (dst src : Nat) (k : Kernel) (fd i : Nat) :
    ((cloneFd dst src k fd).procs i).identity = (k.procs i).identity := by
  unfold cloneFd
  simp only
  split
  · rw [vnodeDup_procs]; exact setFd_identity k dst fd i _
  · exact setFd_identity k dst fd i _

theorem processCloneInto_identity (k : Kernel) (dst src pml4 i : Nat) :
    ((processCloneInto k dst src pml4).procs i).identity = (k.procs i).identity := by
  unfold processCloneInto
  refine Run.foldl_rule (fun k' => (k'.procs i).identity = (k.procs i).identity) _ _ _ ?_
    fun fd _ k' h => (cloneFd_identity dst src k' fd i).trans h
  by_cases h : i = dst
  · subst h; simp [Kernel.setProc, Process.identity]
  · simp [Kernel.setProc, h]

theorem unlinkTaskFromRing_procs (k : Kernel) (t : Nat) :
    (unlinkTaskFromRing k t).procs = k.procs := by
  unfold unlinkTaskFromRing
  split
  · rfl
  · simp only
    split <;> rfl

theorem taskAllocRaw_procs (k : Kernel) : (taskAllocRaw k).1.procs = k.procs := by
  unfold taskAllocRaw
  split
  · rfl
  · split
    · rfl
    · simp only [spliceTask, Kernel.setTask]
      split <;> exact unlinkTaskFromRing_procs k _

theorem taskAllocRaw_some {k : Kernel} {t : Nat} (h : (taskAllocRaw k).2 = some t) :
    ((taskAllocRaw k).1.tasks t).state = .ready ∧ ((taskAllocRaw k).1.tasks t).rsp = 0#64 ∧
      ((taskAllocRaw k).1.tasks (taskAllocRaw k).1.current).next = t := by
  have splice : ∀ k : Kernel, ((spliceTask k t).tasks t).state = .ready ∧
      ((spliceTask k t).tasks t).rsp = 0#64 ∧
      ((spliceTask k t).tasks (spliceTask k t).current).next = t := by
    intro k
    unfold spliceTask
    by_cases same : t = k.current
    · subst same; simp [Kernel.setTask]
    · simp [Kernel.setTask, same]
  unfold taskAllocRaw at h ⊢
  split
  · rename_i room
    rw [if_pos room] at h
    cases h
    exact splice _
  · rename_i full
    rw [if_neg full] at h
    split
    · rename_i absent
      rw [absent] at h
      cases h
    · rename_i t' found
      rw [found] at h
      cases h
      exact splice _

/-- Once the child has its slot, a failing rest of `do_fork` leaves it there
without a task, or with a task that has no stack. -/
theorem forkTask_failed {k : Kernel} {child : Nat} {point : Word} {frame : TrapFrame} {pid : Int}
    (identity : (k.procs child).identity = (pid, false, none)) (live : 0 < pid)
    (failed : (forkTask k child point frame).2 < 0) :
    ((forkTask k child point frame).1.procs child).pid = pid ∧
      ((forkTask k child point frame).1.procs child).isZombie = false ∧
      (((forkTask k child point frame).1.procs child).task = none ∨
        ∃ t, InRing (forkTask k child point frame).1 t ∧
          ((forkTask k child point frame).1.tasks t).state = .ready ∧
          ((forkTask k child point frame).1.tasks t).rsp = 0#64) := by
  simp only [Process.identity, Prod.mk.injEq] at identity
  obtain ⟨hpid, hzombie, htask⟩ := identity
  have procs := taskAllocRaw_procs k
  unfold forkTask at failed ⊢
  split
  · rename_i k' none
    rw [none] at procs
    simp only at procs
    rw [procs]
    exact ⟨hpid, hzombie, .inl htask⟩
  · rename_i k' t some
    have fresh := taskAllocRaw_some (k := k) (t := t) (by rw [some])
    rw [some] at procs fresh
    simp only at procs fresh
    simp only [some] at failed
    by_cases empty : (pmmAllocPages k'.vm.pmm forkKstackPages).2 = 0
    · simp only [Kernel.setProc, Kernel.setTask, empty, if_true, Function.update_self, procs]
      refine ⟨hpid, hzombie, .inr ⟨t, ⟨1, ?_⟩, ?_, ?_⟩⟩
      · by_cases same : k'.current = t
        · subst same; simpa using fresh.2.2
        · simpa [same] using fresh.2.2
      · simpa using fresh.1
      · simpa using fresh.2.1
    · simp only [Kernel.setProc, Kernel.setTask, empty, if_false, Function.update_self, procs] at failed
      omega

theorem doFork_stranded {k : Kernel} {point : Word} {frame : TrapFrame} (pids : 0 < k.nextPid)
    (failed : (doFork k point frame).2 < 0)
    (late : ¬ (k.currentProcess = none ∨ ∀ i, i < maxProcesses → (k.procs i).pid ≠ 0)) :
    ∃ i, i < maxProcesses ∧ (k.procs i).pid = 0 ∧ ((doFork k point frame).1.procs i).pid = k.nextPid ∧
      ((doFork k point frame).1.procs i).isZombie = false ∧
      (((doFork k point frame).1.procs i).task = none ∨
        ∃ t, InRing (doFork k point frame).1 t ∧ ((doFork k point frame).1.tasks t).state = .ready ∧
          ((doFork k point frame).1.tasks t).rsp = 0#64) := by
  rw [not_or] at late
  unfold doFork at failed ⊢
  cases current : k.currentProcess with
  | none => exact False.elim (late.1 current)
  | some parent =>
    simp only [current] at failed ⊢
    cases slot : (processAlloc k (k.procs parent).pid).2 with
    | none => exact False.elim (late.2 (processAlloc_none.mp slot))
    | some child =>
      obtain ⟨bound, vacant, entry⟩ := processAlloc_some slot
      have pair : processAlloc k (k.procs parent).pid =
          ((processAlloc k (k.procs parent).pid).1, some child) := by rw [← slot]
      rw [pair] at failed ⊢
      simp only at failed ⊢
      have identity := processCloneInto_identity
        { (processAlloc k (k.procs parent).pid).1 with
          vm := vmmCloneLowerHalf (vmmNewAddressSpace (processAlloc k (k.procs parent).pid).1.vm).1
            (vmmNewAddressSpace (processAlloc k (k.procs parent).pid).1.vm).2
            ((processAlloc k (k.procs parent).pid).1.procs parent).pml4 } child parent
        (vmmNewAddressSpace (processAlloc k (k.procs parent).pid).1.vm).2 child
      rw [entry] at identity
      obtain ⟨hpid, hzombie, broken⟩ := forkTask_failed identity pids failed
      exact ⟨child, bound, vacant, hpid, hzombie, broken⟩

/-- A failed fork leaves no trace exactly when it failed before a process slot
was taken. -/
theorem failed_fork_clean_iff (k : Kernel) (point : Word) (frame : TrapFrame) (pids : 0 < k.nextPid)
    (failed : (doFork k point frame).2 < 0) :
    (SameForFork k (doFork k point frame).1 ∧ (Linked k → Linked (doFork k point frame).1)) ↔
      (k.currentProcess = none ∨ ∀ i, i < maxProcesses → (k.procs i).pid ≠ 0) := by
  constructor
  · rintro ⟨same, -⟩
    by_contra late
    obtain ⟨i, bound, vacant, hpid, -⟩ := doFork_stranded pids failed late
    rw [same.table i bound, vacant] at hpid
    omega
  · intro early
    have idle : (doFork k point frame).1 = k := by
      unfold doFork
      cases current : k.currentProcess with
      | none => rfl
      | some parent =>
        have full := early.resolve_left (by rw [current]; simp)
        have slot : (processAlloc k (k.procs parent).pid).2 = none := processAlloc_none.mpr full
        have pair : processAlloc k (k.procs parent).pid = (k, none) :=
          Prod.ext (processAlloc_failed slot) slot
        simp only [pair]
    rw [idle]
    exact ⟨⟨fun _ _ => rfl, ⟨rfl, rfl, fun _ _ => rfl⟩, fun _ _ => ⟨rfl, rfl⟩, fun _ => rfl,
      fun _ _ _ => rfl⟩, id⟩

theorem failed_fork_breaks_links (k : Kernel) (point : Word) (frame : TrapFrame)
    (pids : 0 < k.nextPid) (failed : (doFork k point frame).2 < 0)
    (late : ¬ (k.currentProcess = none ∨ ∀ i, i < maxProcesses → (k.procs i).pid ≠ 0)) :
    ¬ Linked (doFork k point frame).1 := by
  obtain ⟨i, bound, -, hpid, hzombie, broken⟩ := doFork_stranded pids failed late
  intro linked
  rcases broken with lost | ⟨t, inRing, ready, nowhere⟩
  · obtain ⟨t, ht, -⟩ := linked.tasks i bound (by omega) hzombie
    rw [lost] at ht
    cases ht
  · exact linked.resumable t inRing ready nowhere

/-- `main` and fifteen processes fill the task pool; one process slot is free. -/
def fullHouse : Kernel where
  vm :=
    { pmm := .small 32#6 (fun f => decide (f = 0)) (fun f => if f = 0 then 1 else 0) 31 1
      mem := fun _ _ => 0#64
      kernelPml4 := 0 }
  hhdm := 0#64
  tasks := fun i =>
    ⟨1#64, 0, 0, 0#64, 0#64, 0#64, if i = 1 then .running else .ready, none,
      if i = 0 then none else some (i - 1), (i + 1) % 16⟩
  taskCount := 16
  current := 1
  procs := fun i =>
    if i < 15 then { Process.zero with pid := i + 1, parentPid := i, task := some (i + 1) }
    else Process.zero
  processCount := 15
  nextPid := 16
  pipes := fun _ => ⟨fun _ => 0#8, 0, 0, 0, 0, false⟩

def zeroFrameRegs : TrapFrame :=
  ⟨0#64, 0#64, 0#64, 0#64, 0#64, 0#64, 0#64, 0#64, 0#64, 0#64, 0#64, 0#64, 0#64, 0#64, 0#64, 0#64,
    0#64, 0#64, 0#64, 0#64, 0#64, 0#64⟩

theorem fullHouse_fork : (doFork fullHouse 0#64 zeroFrameRegs).2 = -eagain := by decide +kernel

theorem failed_fork_clean_fullHouse :
    (SameForFork fullHouse (doFork fullHouse 0#64 zeroFrameRegs).1 ∧
      (Linked fullHouse → Linked (doFork fullHouse 0#64 zeroFrameRegs).1)) ↔
      (fullHouse.currentProcess = none ∨ ∀ i, i < maxProcesses → (fullHouse.procs i).pid ≠ 0) :=
  failed_fork_clean_iff fullHouse 0#64 zeroFrameRegs (by decide) (by rw [fullHouse_fork]; decide)

/-- A fork that fails for want of a task slot leaves its child in the table. -/
theorem failed_fork_leaves_child :
    (doFork fullHouse 0#64 zeroFrameRegs).2 < 0 ∧
      ¬ SameForFork fullHouse (doFork fullHouse 0#64 zeroFrameRegs).1 ∧
      ¬ Linked (doFork fullHouse 0#64 zeroFrameRegs).1 := by
  have failed : (doFork fullHouse 0#64 zeroFrameRegs).2 < 0 := by rw [fullHouse_fork]; decide
  have late : ¬ (fullHouse.currentProcess = none ∨
      ∀ i, i < maxProcesses → (fullHouse.procs i).pid ≠ 0) := by decide
  refine ⟨failed, ?_, failed_fork_breaks_links _ _ _ (by decide) failed late⟩
  intro same
  obtain ⟨i, bound, vacant, hpid, -⟩ := doFork_stranded (by decide) failed late
  rw [same.table i bound, vacant] at hpid
  exact absurd hpid (by decide)

end Isunux
