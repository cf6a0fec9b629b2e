import Isunux.Keyboard
import Isunux.Scheduler

/-! Sleeping and waking. A call that sleeps is cut at its `task_block`: the task
keeps the call it is inside of, and goes on with it when it is scheduled again.
System calls run with interrupts masked, so a segment is one step. -/
namespace Isunux

/-- A call that can sleep, with its arguments and how far it is. -/
inductive Call where
  | pipeRead (p fd i count : Nat)
  | pipeWrite (p fd i : Nat) (src : Nat → BitVec 8) (count n : Nat)
  | waitpid (self : Nat) (target : Int)
  | keyboardRead (fd : Option (Nat × Nat)) (count : Nat)

/-- What `task_block` is called with. -/
def Call.chan : Call → Chan
  | .pipeRead _ _ i _ => .pipe i
  | .pipeWrite _ _ i _ _ _ => .pipe i
  | .waitpid self _ => .process self
  | .keyboardRead _ _ => .keyboard

/-- What the call sleeps for has come about. -/
def Call.ready (k : Kernel) (kb : Keyboard) : Call → Prop
  | .pipeRead _ _ i _ => 0 < (k.pipes i).count ∨ (k.pipes i).writeRefcount = 0
  | .pipeWrite _ _ i _ _ _ => (k.pipes i).count < pipeBufSize ∨ (k.pipes i).readRefcount = 0
  | .waitpid self target =>
    ∃ i, i < maxProcesses ∧ (k.procs self).isChild target (k.procs i) = true ∧
      (k.procs i).reportable = true
  | .keyboardRead _ _ => ¬ kb.Empty

structure World (σ : Type) where
  kernel : Kernel
  files : σ
  keyboard : Keyboard
  foreground : List Int
  calls : Nat → Option Call

inductive Answer where
  | nothing
  | returns (r : Int)
  | reads (bytes : List (BitVec 8))
  | waited (pid : Int) (status : Nat)
  | halted

/-- `task_block` for the call that the current task is in. -/
def World.sleep {σ : Type} (w : World σ) (c : Call) : World σ :=
  { w with
    kernel := yield (taskSleep w.kernel c.chan)
    calls := Function.update w.calls w.kernel.current (some c) }

def World.finish {σ : Type} (w : World σ) : World σ :=
  { w with calls := Function.update w.calls w.kernel.current none }

/-- The end of `process_read` and `process_write`. -/
def advance (k : Kernel) (p fd : Nat) (n : Int) : Kernel :=
  if 0 < n then
    k.setFd p fd { (k.procs p).fds fd with offset := ((k.procs p).fds fd).offset + BitVec.ofInt 64 n }
  else k

/-- One segment of a call, by the current task. -/
def runCall {σ : Type} (w : World σ) : Call → World σ × Answer
  | .pipeRead p fd i count =>
    let s := pipeRead (w.kernel.pipes i) count
    let k := w.kernel.setPipe i s.pipe
    let k := if s.wake then taskWake k (.pipe i) else k
    match s.result with
    | none => ({ w with kernel := k }.sleep (.pipeRead p fd i count), .nothing)
    | some bytes =>
      ({ w with kernel := advance k p fd (toLong bytes.length) }.finish, .reads bytes)
  | .pipeWrite p fd i src count n =>
    let s := pipeWrite (w.kernel.pipes i) src count n
    let k := w.kernel.setPipe i s.pipe
    let k := if s.wake then taskWake k (.pipe i) else k
    match s.result with
    | none => ({ w with kernel := k }.sleep (.pipeWrite p fd i src count s.n), .nothing)
    | some r => ({ w with kernel := advance k p fd r }.finish, .returns r)
  | .waitpid self target =>
    let r := processWaitpid w.kernel self target
    match r.2 with
    | .sleeps => ({ w with kernel := r.1 }.sleep (.waitpid self target), .nothing)
    | .noChild => ({ w with kernel := r.1 }.finish, .returns (-echild))
    | .reports pid status => ({ w with kernel := r.1 }.finish, .waited pid status)
  | .keyboardRead fd count =>
    let r := keyboardRead w.keyboard count
    match r.2 with
    | none => ({ w with keyboard := r.1 }.sleep (.keyboardRead fd count), .nothing)
    | some bytes =>
      let k :=
        match fd with
        | some (p, fd) => advance w.kernel p fd (toLong bytes.length)
        | none => w.kernel
      ({ w with kernel := k, keyboard := r.1 }.finish, .reads bytes)

/-- The system calls that touch tasks, processes, descriptors or the terminal.
The result of a transfer to or from a node that is neither a pipe nor the console
comes with the call; `load` reads /dev/tty the way exec.c reads a program. -/
inductive Syscall where
  | read (fd count : Nat) (other : Int)
  | write (fd : Nat) (src : Nat → BitVec 8) (count : Nat) (other : Int)
  | opens (path : List Char) (flags : Nat)
  | close (fd : Nat)
  | dup2 (oldfd newfd : Nat)
  | pipe
  | fork (returnPoint : Word) (frame : TrapFrame)
  | waitpid (target : Int)
  | exit (code : Nat)
  | kill (pid : Int) (sig : Nat)
  | setForeground (pids : List Int)
  | setRaw (enable : Bool)
  | setEcho (enable : Bool)
  | load (count : Nat)

section Machine

variable {σ : Type} (tree : FileTree σ)

def runTransfer (w : World σ) (p fd : Nat) (t : Transfer) (other : Int)
    (pipes : Vnode → Option Call) (console : Option Call) : World σ × Answer :=
  match t with
  | .refused e => (w, .returns e)
  | .crashes => (w, .halted)
  | .performs v _ =>
    match pipes v with
    | some c => runCall w c
    | none =>
      match if v = .node tree.console then console else none with
      | some c => runCall w c
      | none => ({ w with kernel := advance w.kernel p fd other }, .returns other)

/-- A system call of process `p`. -/
def syscall (w : World σ) (p : Nat) : Syscall → World σ × Answer
  | .read fd count other =>
    runTransfer tree w p fd (processRead tree w.kernel w.files p fd) other
      (fun v => match v with
        | .pipeRead i => some (.pipeRead p fd i count)
        | _ => none)
      (some (.keyboardRead (some (p, fd)) count))
  | .write fd src count other =>
    runTransfer tree w p fd (processWrite tree w.kernel w.files p fd) other
      (fun v => match v with
        | .pipeWrite i => some (.pipeWrite p fd i src count 0)
        | _ => none)
      none
  | .opens path flags =>
    let r := processOpen tree w.kernel w.files p path flags
    ({ w with kernel := r.1, files := r.2.1 }, .returns r.2.2)
  | .close fd =>
    let r := processClose w.kernel p fd
    ({ w with kernel := r.1 }, .returns r.2)
  | .dup2 oldfd newfd =>
    let r := processDup2 w.kernel p oldfd newfd
    ({ w with kernel := r.1 }, .returns r.2)
  | .pipe =>
    let r := processPipe w.kernel p
    ({ w with kernel := r.1 }, .returns r.2.1)
  | .fork returnPoint frame =>
    let r := doFork w.kernel returnPoint frame
    ({ w with kernel := r.1 }, .returns r.2)
  | .waitpid target => runCall w (.waitpid p target)
  | .exit code => ({ w with kernel := endCurrent w.kernel p (encodeExited code) }, .nothing)
  | .kill pid sig =>
    match sysKill w.kernel pid sig with
    | none => (w, .halted)
    | some r => ({ w with kernel := r.1 }, .returns r.2)
  | .setForeground pids => ({ w with foreground := processSetForeground pids }, .returns 0)
  | .setRaw enable => ({ w with keyboard := ttySetRaw w.keyboard enable }, .returns 0)
  | .setEcho enable => ({ w with keyboard := ttySetEcho w.keyboard enable }, .returns 0)
  | .load count => runCall w (.keyboardRead none count)

/-- What can happen next: an interrupt, a fault or system call of the running
task, its return into a call it slept in, the start of a first process by `main`,
or anything that touches only memory and the file tree. -/
inductive Event (σ : Type) where
  | timer
  | scancode (sc : BitVec 8)
  | fault
  | syscall (c : Syscall)
  | resume
  | spawn (pml4 : Nat) (heapStart trampoline entryRip entryRsp : Word)
  | elsewhere (vm : Vm) (files : σ)

/-- The interrupt handler of the keyboard. -/
def keyboardIrq (w : World σ) (sc : BitVec 8) : World σ × Answer :=
  let r := keyboardHandleScancode w.keyboard sc
  match r.2 with
  | .nothing => ({ w with keyboard := r.1 }, .nothing)
  | .wake => ({ w with keyboard := r.1, kernel := taskWake w.kernel .keyboard }, .nothing)
  | .signal sig =>
    match processSignalForeground w.kernel w.foreground sig with
    | none => (w, .halted)
    | some k => ({ w with keyboard := r.1, kernel := k }, .nothing)

/-- `process_alloc(0)`, `process_init` and `task_create_user` in kernel.c. -/
def spawnFirst (k : Kernel) (pml4 : Nat) (heapStart trampoline entryRip entryRsp : Word) : Kernel :=
  match processAlloc k 0 with
  | (k, none) => k
  | (k, some p) => (taskCreateUser (processInit tree k p pml4 heapStart) p trampoline entryRip entryRsp).1

def event (w : World σ) : Event σ → World σ × Answer
  | .timer => ({ w with kernel := yield w.kernel }, .nothing)
  | .scancode sc => keyboardIrq w sc
  | .elsewhere vm files => ({ w with kernel := { w.kernel with vm := vm }, files := files }, .nothing)
  | .spawn pml4 heapStart trampoline entryRip entryRsp =>
    match w.kernel.currentProcess with
    | some _ => (w, .nothing)
    | none =>
      ({ w with kernel := spawnFirst tree w.kernel pml4 heapStart trampoline entryRip entryRsp },
        .nothing)
  | .fault =>
    match w.kernel.currentProcess, (w.kernel.tasks w.kernel.current).state with
    | some p, .running => ({ w with kernel := endCurrent w.kernel p (encodeSignaled sigsegv) }, .nothing)
    | _, _ => (w, .nothing)
  | .syscall c =>
    match w.kernel.currentProcess, (w.kernel.tasks w.kernel.current).state,
        w.calls w.kernel.current with
    | some p, .running, none => syscall tree w p c
    | _, _, _ => (w, .nothing)
  | .resume =>
    match (w.kernel.tasks w.kernel.current).state, w.calls w.kernel.current with
    | .running, some c => runCall w c
    | _, _ => (w, .nothing)

/-- A terminated task never returns into the call it was in. -/
def World.settle (w : World σ) : World σ :=
  { w with
    calls := fun t => if (w.kernel.tasks t).state = .terminated then none else w.calls t }

def worldStep (w : World σ) (e : Event σ) : World σ × Answer :=
  let r := event tree w e
  (r.1.settle, r.2)

/-- The machine after `task_init`. -/
def bootWorld (vm : Vm) (hhdm : Word) (files : σ) : World σ where
  kernel := bootKernel vm hhdm
  files := files
  keyboard := .initial
  foreground := []
  calls := fun _ => none

end Machine

end Isunux
