import Isunux.Fork

/-! Signals, termination and waiting for children: process.c, and the parts of
syscall.c and exceptions.c that call it. -/
namespace Isunux

def esrch : Int := 3
def sigsegv : Nat := 11

/-- `task_wake` on the process with a pid, if there is one. -/
def wakeProcess (k : Kernel) (pid : Int) : Kernel :=
  match processFindByPid k pid with
  | some p => taskWake k (.process p)
  | none => k

/-- What the caller of `process_send_signal` has to do for its own task. -/
inductive SelfAction where
  | nothing | terminated | stopped | unknown
  deriving DecidableEq

/-- `process_send_signal`. A target without a task would be dereferenced through
NULL, which halts the machine. -/
def processSendSignal (k : Kernel) (target sig : Nat) : Option (Kernel × SelfAction) :=
  let p := k.procs target
  if sig = sigkill ∨ sig = sigterm ∨ sig = sigint then
    if p.isZombie then some (k, .nothing)
    else
      p.task.map fun t =>
        (processTerminate k target t (encodeSignaled sig),
          if t = k.current then .terminated else .nothing)
  else if sig = sigtstp then
    if p.isZombie ∨ p.isStopped then some (k, .nothing)
    else
      let k := k.setProc target fun x =>
        { x with isStopped := true, stopSignal := sigtstp, stopReported := false }
      let k := wakeProcess k p.parentPid
      p.task.map fun t =>
        (k.setTask t fun x => { x with state := .stopped },
          if t = k.current then .stopped else .nothing)
  else if sig = sigcont then
    if p.isZombie then some (k, .nothing)
    else if p.isStopped then
      p.task.map fun t =>
        ((k.setProc target fun x => { x with isStopped := false }).setTask t fun x =>
          { x with state := .ready }, .nothing)
    else some (k, .nothing)
  else if sig = sigchld then some (k, .nothing)
  else some (k, .unknown)

/-- The loop of `process_signal_foreground`. The last action that concerns the
current task counts. -/
def signalEach (sig : Nat) : List Int → Kernel → SelfAction → Option (Kernel × SelfAction)
  | [], k, self => some (k, self)
  | pid :: rest, k, self =>
    match processFindByPid k pid with
    | none => signalEach sig rest k self
    | some target =>
      match processSendSignal k target sig with
      | none => none
      | some (k, action) =>
        signalEach sig rest k
          (if action = .terminated ∨ action = .stopped then action else self)

/-- The `yield` that follows an action on the current task. A terminated task is
never picked again, so the endless loop of yields is one. -/
def afterAction (k : Kernel) : SelfAction → Kernel
  | .terminated => yield k
  | .stopped => yield k
  | _ => k

def processSignalForeground (k : Kernel) (pids : List Int) (sig : Nat) : Option Kernel :=
  (signalEach sig pids k .nothing).map fun r => afterAction r.1 r.2

def foregroundMaxPids : Nat := 8

def processSetForeground (pids : List Int) : List Int := pids.take foregroundMaxPids

def sysKill (k : Kernel) (pid : Int) (sig : Nat) : Option (Kernel × Int) :=
  match processFindByPid k pid with
  | none => some (k, -esrch)
  | some target =>
    (processSendSignal k target sig).map fun r =>
      (afterAction r.1 r.2, if r.2 = .unknown then -einval else 0)

/-- `sys_exit` and `terminate_current_process`: the current process ends with a
status and its task yields for good. -/
def endCurrent (k : Kernel) (p status : Nat) : Kernel := yield (processTerminate k p k.current status)

/-- The children that `process_waitpid` looks at. -/
def Process.isChild (self : Process) (target : Int) (p : Process) : Bool :=
  decide (p.pid ≠ 0 ∧ p.parentPid = self.pid ∧ (target = -1 ∨ p.pid = target))

def Process.reportable (p : Process) : Bool := p.isZombie || (p.isStopped && !p.stopReported)

/-- Reaping a zombie: its address space goes and its slot is cleared. -/
def reap (k : Kernel) (i : Nat) : Kernel :=
  { k.setProc i (fun _ => .zero) with
    vm := vmmDestroyAddressSpace k.vm (k.procs i).pml4
    processCount := k.processCount - 1 }

inductive WaitEnd where
  | reports (pid : Int) (status : Nat)
  | noChild
  | sleeps
  deriving DecidableEq

/-- One scan of the table by `process_waitpid`; the flag is `found_any_child`. -/
def waitScan (k : Kernel) (self : Nat) (target : Int) : List Nat → Bool → Kernel × WaitEnd
  | [], found => (k, if found then .sleeps else .noChild)
  | i :: rest, found =>
    let p := k.procs i
    if (k.procs self).isChild target p = false then waitScan k self target rest found
    else if p.isZombie then (reap k i, .reports p.pid p.exitCode)
    else if p.isStopped && !p.stopReported then
      (k.setProc i fun x => { x with stopReported := true },
        .reports p.pid (encodeStopped p.stopSignal))
    else waitScan k self target rest true

/-- A segment of `process_waitpid`. -/
def processWaitpid (k : Kernel) (self : Nat) (target : Int) : Kernel × WaitEnd :=
  waitScan k self target (List.range maxProcesses) false

/-! task.c and kernel.c: the first process. -/

def userKstackPages : Nat := 4

def taskCreateUser (k : Kernel) (p : Nat) (trampoline entryRip entryRsp : Word) : Kernel × Option Nat :=
  match taskAllocRaw k with
  | (k, none) => (k, none)
  | (k, some t) =>
    let k := (k.setTask t fun x => { x with proc := some p }).setProc p fun x =>
      { x with task := some t }
    let k := k.setTask t fun x => { x with userEntryRip := entryRip, userEntryRsp := entryRsp }
    let a := pmmAllocPages k.vm.pmm userKstackPages
    if a.2 = 0 then (k, none)
    else
      let top := k.hhdm + pageAddr (a.2 + userKstackPages)
      let stack := [0#64, 0#64, 0#64, 0#64, 0#64, 0#64, trampoline, 0#64]
      let k := { k with
        vm := { k.vm with pmm := a.1, mem := storeAtEnd k.vm.mem (a.2 + userKstackPages - 1) stack } }
      (k.setTask t fun x =>
        { x with
          stackPhys := a.2, stackPages := userKstackPages, kernelStackTop := top
          rsp := top - BitVec.ofNat 64 (8 * stack.length) }, some t)

/-- The tables after `task_init`: `main` alone in the ring. -/
def bootKernel (vm : Vm) (hhdm : Word) : Kernel where
  vm := vm
  hhdm := hhdm
  tasks := fun t =>
    ⟨0#64, 0, 0, 0#64, 0#64, 0#64, if t = 0 then .running else .ready, none, none, 0⟩
  taskCount := 1
  current := 0
  procs := fun _ => .zero
  processCount := 0
  nextPid := 1
  pipes := fun _ => ⟨fun _ => 0#8, 0, 0, 0, 0, false⟩

end Isunux
