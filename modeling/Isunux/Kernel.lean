import Isunux.Pipe
import Isunux.Vmm

/-! Tasks, processes and their descriptors: task.c, process.c and fork.c. Pool
entries are named by their index and pointers between them are indices too. -/
namespace Isunux

def maxTasks : Nat := 16
def maxProcesses : Nat := 16
def maxFds : Nat := 16
def maxPipes : Nat := 16

/-! errno.h, fcntl.h and syscall.h -/

def ebadf : Int := 9
def echild : Int := 10
def eagain : Int := 11
def enomem : Int := 12
def eacces : Int := 13
def eexist : Int := 17
def einval : Int := 22
def enfile : Int := 23
def emfile : Int := 24

def oRdonly : Nat := 0
def oWronly : Nat := 1
def oRdwr : Nat := 2

def sigint : Nat := 2
def sigkill : Nat := 9
def sigterm : Nat := 15
def sigchld : Nat := 17
def sigcont : Nat := 18
def sigtstp : Nat := 20

def encodeExited (code : Nat) : Nat := (code &&& 0xff) <<< 8
def encodeSignaled (sig : Nat) : Nat := sig &&& 0x7f
def encodeStopped (sig : Nat) : Nat := ((sig &&& 0xff) <<< 8) ||| 0x7f

inductive TaskState where
  | ready | running | blocked | stopped | terminated
  deriving DecidableEq, Repr

/-- What a task can sleep on: the address of a pipe, of a process, or of
`kbd_wait_chan`. -/
inductive Chan where
  | pipe (i : Nat)
  | process (i : Nat)
  | keyboard
  deriving DecidableEq, Repr

structure Task where
  rsp : Word
  stackPhys : Nat
  stackPages : Nat
  kernelStackTop : Word
  userEntryRip : Word
  userEntryRsp : Word
  state : TaskState
  waitChan : Option Chan
  proc : Option Nat
  next : Nat
  deriving DecidableEq

/-- What a descriptor points at: one end of a pipe, or a node of the file tree.
Only pipe ends have `dup` and `close` hooks. -/
inductive Vnode where
  | pipeRead (i : Nat)
  | pipeWrite (i : Nat)
  | node (id : Nat)
  deriving DecidableEq, Repr

structure FdEntry where
  node : Option Vnode
  offset : Word
  used : Bool
  accessMode : Nat
  deriving DecidableEq

def FdEntry.zero : FdEntry := ⟨none, 0#64, false, 0⟩

structure Process where
  pml4 : Nat
  fds : Nat → FdEntry
  heapStart : Word
  heapEnd : Word
  mmapNext : Word
  cwd : List Char
  uid : Word
  gid : Word
  fsBase : Word
  pid : Int
  parentPid : Int
  exitCode : Nat
  isZombie : Bool
  isStopped : Bool
  stopSignal : Nat
  stopReported : Bool
  task : Option Nat

/-- A slot after `k_memset`. -/
def Process.zero : Process :=
  ⟨0, fun _ => .zero, 0#64, 0#64, 0#64, [], 0#64, 0#64, 0#64, 0, 0, 0, false, false, 0, false, none⟩

structure Kernel where
  vm : Vm
  hhdm : Word
  tasks : Nat → Task
  taskCount : Nat
  current : Nat
  procs : Nat → Process
  processCount : Int
  nextPid : Int
  pipes : Nat → Pipe

/-! task.c -/

def Kernel.setTask (k : Kernel) (t : Nat) (f : Task → Task) : Kernel :=
  { k with tasks := Function.update k.tasks t (f (k.tasks t)) }

def Kernel.setProc (k : Kernel) (i : Nat) (f : Process → Process) : Kernel :=
  { k with procs := Function.update k.procs i (f (k.procs i)) }

/-- The walk of `unlink_task_from_ring` to the task before `t`. -/
def ringBefore (tasks : Nat → Task) (current t : Nat) : Nat → Nat → Nat
  | 0, iter => iter
  | fuel + 1, iter =>
    if (tasks iter).next ≠ t ∧ (tasks iter).next ≠ current then
      ringBefore tasks current t fuel (tasks iter).next
    else iter

def unlinkTaskFromRing (k : Kernel) (t : Nat) : Kernel :=
  if t = k.current then k
  else
    let iter := ringBefore k.tasks k.current t maxTasks k.current
    if (k.tasks iter).next = t then k.setTask iter fun x => { x with next := (k.tasks t).next } else k

def findTerminatedTask (k : Kernel) : Option Nat :=
  (List.range maxTasks).find? fun i => i ≠ k.current ∧ (k.tasks i).state = .terminated

/-- The tail of `task_alloc_raw`: a fresh READY task right behind the current one. -/
def spliceTask (k : Kernel) (t : Nat) : Kernel :=
  let fresh : Task :=
    ⟨0#64, 0, 0, 0#64, 0#64, 0#64, .ready, none, none, (k.tasks k.current).next⟩
  (k.setTask t fun _ => fresh).setTask k.current fun x => { x with next := t }

def taskAllocRaw (k : Kernel) : Kernel × Option Nat :=
  if k.taskCount < maxTasks then
    (spliceTask { k with taskCount := k.taskCount + 1 } k.taskCount, some k.taskCount)
  else
    match findTerminatedTask k with
    | none => (k, none)
    | some t =>
      let old := k.tasks t
      let k := unlinkTaskFromRing k t
      let k :=
        if old.stackPhys ≠ 0 ∧ old.stackPages ≠ 0 then
          { k with vm := { k.vm with pmm := pmmFreePages k.vm.pmm old.stackPhys old.stackPages } }
        else k
      (spliceTask k t, some t)

/-- `task_wake`: every task sleeping on the channel becomes READY. -/
def taskWake (k : Kernel) (chan : Chan) : Kernel :=
  { k with
    tasks := fun i =>
      if i < k.taskCount ∧ (k.tasks i).state = .blocked ∧ (k.tasks i).waitChan = some chan then
        { k.tasks i with state := .ready, waitChan := none }
      else k.tasks i }

/-- `pick_next_ready`: the first READY task after `from`. -/
def pickNextReady (tasks : Nat → Task) (start : Nat) : Nat → Nat → Option Nat
  | 0, _ => none
  | fuel + 1, t =>
    if t = start then none
    else if (tasks t).state = .ready then some t
    else pickNextReady tasks start fuel (tasks t).next

/-- `yield` up to the switch: the state in which the next task continues. Without
any READY task the current one goes on, or the processor halts in its place. -/
def yield (k : Kernel) : Kernel :=
  let prev := k.current
  let k :=
    if (k.tasks prev).state = .running then k.setTask prev fun x => { x with state := .ready } else k
  match pickNextReady k.tasks prev maxTasks (k.tasks prev).next with
  | some next => { k.setTask next (fun x => { x with state := .running }) with current := next }
  | none =>
    if (k.tasks prev).state = .ready then k.setTask prev fun x => { x with state := .running } else k

/-- `task_block` up to its call of `yield`. -/
def taskSleep (k : Kernel) (chan : Chan) : Kernel :=
  k.setTask k.current fun x => { x with waitChan := some chan, state := .blocked }

/-! Descriptor hooks, pipe.c. -/

def Kernel.setPipe (k : Kernel) (i : Nat) (p : Pipe) : Kernel :=
  { k with pipes := Function.update k.pipes i p }

def vnodeDup (k : Kernel) : Option Vnode → Kernel
  | some (.pipeRead i) => k.setPipe i (pipeReadDup (k.pipes i))
  | some (.pipeWrite i) => k.setPipe i (pipeWriteDup (k.pipes i))
  | _ => k

def vnodeClose (k : Kernel) : Option Vnode → Kernel
  | some (.pipeRead i) =>
    let c := pipeReadClose (k.pipes i)
    let k := k.setPipe i c.1
    if c.2 then taskWake k (.pipe i) else k
  | some (.pipeWrite i) =>
    let c := pipeWriteClose (k.pipes i)
    let k := k.setPipe i c.1
    if c.2 then taskWake k (.pipe i) else k
  | _ => k

/-! process.c -/

def processAlloc (k : Kernel) (parentPid : Int) : Kernel × Option Nat :=
  match (List.range maxProcesses).find? fun i => (k.procs i).pid = 0 with
  | none => (k, none)
  | some i =>
    ({ k with
        procs := Function.update k.procs i { Process.zero with pid := k.nextPid, parentPid := parentPid }
        nextPid := k.nextPid + 1
        processCount := k.processCount + 1 }, some i)

def Kernel.setFd (k : Kernel) (p fd : Nat) (e : FdEntry) : Kernel :=
  k.setProc p fun x => { x with fds := Function.update x.fds fd e }

/-- One round of the descriptor loop of `process_clone_into`. -/
def cloneFd (dst src : Nat) (k : Kernel) (fd : Nat) : Kernel :=
  let e := (k.procs src).fds fd
  let k := k.setFd dst fd e
  if e.used then vnodeDup k e.node else k

def processCloneInto (k : Kernel) (dst src newPml4 : Nat) : Kernel :=
  let s := k.procs src
  let k := k.setProc dst fun d =>
    { d with
      pml4 := newPml4, heapStart := s.heapStart, heapEnd := s.heapEnd, mmapNext := s.mmapNext
      uid := s.uid, gid := s.gid, fsBase := s.fsBase, cwd := s.cwd }
  (List.range maxFds).foldl (cloneFd dst src) k

def Kernel.currentProcess (k : Kernel) : Option Nat := (k.tasks k.current).proc

def processClose (k : Kernel) (p fd : Nat) : Kernel × Int :=
  let e := (k.procs p).fds fd
  if fd ≥ maxFds ∨ e.used = false then (k, -ebadf)
  else
    let k := vnodeClose k e.node
    (k.setFd p fd { e with used := false, node := none, offset := 0#64 }, 0)

/-- `process_dup2`. The access mode of the slot is left as it was. -/
def processDup2 (k : Kernel) (p oldfd newfd : Nat) : Kernel × Int :=
  if oldfd ≥ maxFds ∨ ((k.procs p).fds oldfd).used = false then (k, -ebadf)
  else if newfd ≥ maxFds then (k, -ebadf)
  else if oldfd = newfd then (k, newfd)
  else
    let k := if ((k.procs p).fds newfd).used then (processClose k p newfd).1 else k
    let node := ((k.procs p).fds oldfd).node
    let k := k.setFd p newfd
      { (k.procs p).fds newfd with node := node, offset := 0#64, used := true }
    (vnodeDup k node, newfd)

def findFreeFd (k : Kernel) (p start : Nat) : Option Nat :=
  (List.range' start (maxFds - start)).find? fun fd => ((k.procs p).fds fd).used = false

/-- `process_pipe` with `pipe_create`. -/
def processPipe (k : Kernel) (p : Nat) : Kernel × Int × Option (Nat × Nat) :=
  match (List.range maxPipes).find? fun i => (k.pipes i).inUse = false with
  | none => (k, -enfile, none)
  | some i =>
    let k := k.setPipe i pipeCreate
    let ends : Option (Nat × Nat) :=
      (findFreeFd k p 3).bind fun r => (findFreeFd k p (r + 1)).map fun w => (r, w)
    match ends with
    | none => (vnodeClose (vnodeClose k (some (.pipeRead i))) (some (.pipeWrite i)), -emfile, none)
    | some (r, w) =>
      let k := k.setFd p r { (k.procs p).fds r with node := some (.pipeRead i), offset := 0#64, used := true }
      let k := k.setFd p w { (k.procs p).fds w with node := some (.pipeWrite i), offset := 0#64, used := true }
      (k, 0, some (r, w))

def processFindByPid (k : Kernel) (pid : Int) : Option Nat :=
  if pid ≤ 0 then none else (List.range maxProcesses).find? fun i => (k.procs i).pid = pid

def processMarkZombie (k : Kernel) (p exitCode : Nat) : Kernel :=
  let k := k.setProc p fun x => { x with exitCode := exitCode, isZombie := true }
  match processFindByPid k (k.procs p).parentPid with
  | some parent => taskWake k (.process parent)
  | none => k

def processTerminate (k : Kernel) (p task exitCode : Nat) : Kernel :=
  let k := (List.range maxFds).foldl (fun k fd => (processClose k p fd).1) k
  (processMarkZombie k p exitCode).setTask task fun x => { x with state := .terminated }

/-! None of the hooks touches the process table. -/

@[simp] theorem taskWake_procs (k : Kernel) (c : Chan) : (taskWake k c).procs = k.procs := rfl

@[simp] theorem setPipe_procs (k : Kernel) (i : Nat) (p : Pipe) : (k.setPipe i p).procs = k.procs := rfl

@[simp] theorem setTask_procs (k : Kernel) (t : Nat) (f : Task → Task) :
    (k.setTask t f).procs = k.procs := rfl

@[simp] theorem vnodeDup_procs (k : Kernel) (v : Option Vnode) : (vnodeDup k v).procs = k.procs := by
  unfold vnodeDup
  split <;> rfl

@[simp] theorem vnodeClose_procs (k : Kernel) (v : Option Vnode) : (vnodeClose k v).procs = k.procs := by
  unfold vnodeClose
  split
  · simp only; split <;> rfl
  · simp only; split <;> rfl
  · rfl

/-! `process_alloc` takes the first free slot, or none. -/

theorem processAlloc_none {k : Kernel} {parent : Int} :
    (processAlloc k parent).2 = none ↔ ∀ i, i < maxProcesses → (k.procs i).pid ≠ 0 := by
  unfold processAlloc
  split
  · rename_i absent
    simpa using absent
  · rename_i i found
    have := List.find?_some found
    have bound := List.mem_of_find?_eq_some found
    simp only [decide_eq_true_eq] at this
    simp only [reduceCtorEq, false_iff]
    exact fun h => h i (List.mem_range.mp bound) this

theorem processAlloc_failed {k : Kernel} {parent : Int} (h : (processAlloc k parent).2 = none) :
    (processAlloc k parent).1 = k := by
  unfold processAlloc at h ⊢
  split
  · rfl
  · rename_i found
    rw [found] at h
    cases h

theorem processAlloc_eq {k : Kernel} {parent : Int} {i : Nat}
    (h : (processAlloc k parent).2 = some i) :
    i < maxProcesses ∧ (k.procs i).pid = 0 ∧
      (processAlloc k parent).1 =
        { k with
          procs := Function.update k.procs i { Process.zero with pid := k.nextPid, parentPid := parent }
          nextPid := k.nextPid + 1
          processCount := k.processCount + 1 } := by
  unfold processAlloc at h ⊢
  split
  · rename_i absent
    rw [absent] at h
    cases h
  · rename_i j found
    rw [found] at h
    cases h
    have := List.find?_some found
    simp only [decide_eq_true_eq] at this
    exact ⟨List.mem_range.mp (List.mem_of_find?_eq_some found), this, rfl⟩

theorem processAlloc_some {k : Kernel} {parent : Int} {i : Nat}
    (h : (processAlloc k parent).2 = some i) :
    i < maxProcesses ∧ (k.procs i).pid = 0 ∧
      (processAlloc k parent).1.procs i =
        { Process.zero with pid := k.nextPid, parentPid := parent } := by
  obtain ⟨bound, vacant, eq⟩ := processAlloc_eq h
  exact ⟨bound, vacant, by rw [eq]; simp⟩

end Isunux
