import Isunux.ExecCommit
import Isunux.Scheduling

/-! The registers that a task runs with: CR3, the FS base and the stack in the TSS. They are
loaded by `yield`, `do_exec`, `arch_prctl` and `vmm_clone_lower_half`, and meanwhile other
calls give address spaces back. -/
namespace Isunux

/-- The kernel and these registers. `destroyed` are the PML4s on which
`vmm_destroy_address_space` was called and which were not handed out again since; `stale`
says that CR3 has held one of them. -/
structure Machine where
  kernel : Kernel
  cr3 : Nat
  fsBase : Word
  rsp0 : Word
  destroyed : List Nat
  stale : Bool

/-- `vmm_activate`. -/
def Machine.activate (m : Machine) (pml4 : Nat) : Machine :=
  { m with cr3 := pml4, stale := m.stale || decide (pml4 ∈ m.destroyed) }

def Machine.destroys (m : Machine) (pml4 : Nat) : Machine :=
  { m with destroyed := pml4 :: m.destroyed, stale := m.stale || decide (m.cr3 = pml4) }

def Machine.creates (m : Machine) (pml4 : Nat) : Machine :=
  { m with destroyed := m.destroyed.filter fun f => f ≠ pml4 }

/-- The addresses that the processor takes for a base: bits 47 to 63 are equal. -/
def takenBase (v : Word) : Bool := v.toNat < 2 ^ 47 || 2 ^ 64 - 2 ^ 47 ≤ v.toNat

/-- `wrmsr(MSR_FS_BASE, v)`. A fault in here is one of the kernel, which halts. -/
def Machine.wrmsrFsBase (m : Machine) (v : Word) : Option Machine :=
  if takenBase v then some { m with fsBase := v } else none

/-- `yield`, with what it loads before it switches. -/
def Machine.yield (m : Machine) : Option Machine :=
  let k := m.kernel
  match yieldsTo k with
  | none => some { m with kernel := Isunux.yield k }
  | some next =>
    let m := { m with kernel := Isunux.yield k, rsp0 := (k.tasks next).kernelStackTop }
    match (k.tasks next).proc with
    | none => some (m.activate k.vm.kernelPml4)
    | some p => (m.wrmsrFsBase (k.procs p).fsBase).map fun m => m.activate (k.procs p).pml4

/-- `arch_prctl(ARCH_SET_FS, addr)`. -/
def Machine.archSetFs (m : Machine) (p : Nat) (addr : Word) : Option Machine :=
  { m with kernel := m.kernel.setProc p fun x => { x with fsBase := addr } }.wrmsrFsBase addr

/-- `do_fork`. The clone ends with a reload of CR3. -/
def Machine.fork (m : Machine) (p : Nat) (returnPoint : Word) (frame : TrapFrame) : Machine :=
  let k := m.kernel
  let r := doFork k returnPoint frame
  match (processAlloc k (k.procs p).pid).2 with
  | none => { m with kernel := r.1 }
  | some _ =>
    { (m.creates (vmmNewAddressSpace k.vm).2).activate (k.procs p).pml4 with kernel := r.1 }

def clearedSlot (k k' : Kernel) : Option Nat :=
  (List.range maxProcesses).find? fun i => (k.procs i).pid ≠ 0 ∧ (k'.procs i).pid = 0

/-- A segment of `process_waitpid`, up to the switch if it sleeps. -/
def Machine.waitpid (m : Machine) (p : Nat) (target : Int) : Option Machine :=
  let k := m.kernel
  let r := processWaitpid k p target
  let m :=
    match clearedSlot k r.1 with
    | some i => { m with kernel := r.1 }.destroys (k.procs i).pml4
    | none => { m with kernel := r.1 }
  match r.2 with
  | .sleeps => { m with kernel := taskSleep r.1 (.process p) }.yield
  | _ => some m

def Machine.afterAction (m : Machine) : SelfAction → Option Machine
  | .terminated => m.yield
  | .stopped => m.yield
  | _ => some m

/-- `sys_exit` and `terminate_current_process`. -/
def Machine.endCurrent (m : Machine) (p status : Nat) : Option Machine :=
  { m with kernel := processTerminate m.kernel p m.kernel.current status }.yield

/-- `sys_kill`. -/
def Machine.kill (m : Machine) (pid : Int) (sig : Nat) : Option Machine :=
  match processFindByPid m.kernel pid with
  | none => some m
  | some target =>
    (processSendSignal m.kernel target sig).bind fun r => { m with kernel := r.1 }.afterAction r.2

def Machine.signalForeground (m : Machine) (pids : List Int) (sig : Nat) : Option Machine :=
  (signalEach sig pids m.kernel .nothing).bind fun r => { m with kernel := r.1 }.afterAction r.2

section Steps

variable {σ F : Type} (tree : FileTree σ) (fs : Foreign F) (elsewhere : F → Nat → FileReader)

/-- `do_exec`. When it commits, the old address space goes last. -/
def Machine.exec (m : Machine) (p : Nat) (frame : TrapFrame) (files : Files F) (path : List Char)
    (argv envp : List CString) (seed : Word) : Machine :=
  let r := doExec fs elsewhere ⟨m.kernel, ⟨m.cr3, m.fsBase⟩, frame⟩ files path argv envp seed
  let now := { m with kernel := r.1.kernel, fsBase := r.1.cpu.fsBase }
  if r.2 = 0 then
    ((now.creates r.1.cpu.cr3).activate r.1.cpu.cr3).destroys (m.kernel.procs p).pml4
  else now

/-- What can happen next. `signals` is the keyboard's interrupt, `spawns` the first process
with the memory its program was loaded into, and `works` anything that touches only
memory, pipes and descriptors. -/
inductive CpuOp (F : Type) where
  | yield
  | archSetFs (addr : Word)
  | fork (returnPoint : Word) (frame : TrapFrame)
  | exec (frame : TrapFrame) (files : Files F) (path : List Char) (argv envp : List CString) (seed : Word)
  | exit (status : Nat)
  | kill (pid : Int) (sig : Nat)
  | waitpid (target : Int)
  | block (chan : Chan)
  | wake (chan : Chan)
  | signals (pids : List Int) (sig : Nat)
  | spawns (pmm : Pmm) (mem : PhysMem) (heapStart trampoline entryRip entryRsp : Word)
  | works (pmm : Pmm) (mem : PhysMem) (pipes : Nat → Pipe) (fds : Nat → Nat → FdEntry)

/-- The process that can make a system call now. -/
def Kernel.caller (k : Kernel) : Option Nat :=
  if (k.tasks k.current).state = .running then k.currentProcess else none

/-- The memory of the machine, without the place of the kernel's own tables. -/
def Kernel.setMemory (k : Kernel) (pmm : Pmm) (mem : PhysMem) : Kernel :=
  { k with vm := { k.vm with pmm := pmm, mem := mem } }

/-- One step, or nothing if the machine halts. A call that nobody can make now changes
nothing. -/
def cpuStep (m : Machine) : CpuOp F → Option Machine
  | .yield => m.yield
  | .archSetFs addr => m.kernel.caller.elim (some m) fun p => m.archSetFs p addr
  | .fork point frame => m.kernel.caller.elim (some m) fun p => some (m.fork p point frame)
  | .exec frame files path argv envp seed =>
    m.kernel.caller.elim (some m) fun p => some (m.exec fs elsewhere p frame files path argv envp seed)
  | .exit status => m.kernel.caller.elim (some m) fun p => m.endCurrent p status
  | .kill pid sig => m.kernel.caller.elim (some m) fun _ => m.kill pid sig
  | .waitpid target => m.kernel.caller.elim (some m) fun p => m.waitpid p target
  | .block chan =>
    m.kernel.caller.elim (some m) fun _ => { m with kernel := taskSleep m.kernel chan }.yield
  | .wake chan => some { m with kernel := taskWake m.kernel chan }
  | .signals pids sig => m.signalForeground pids sig
  | .spawns pmm mem heapStart trampoline rip rsp =>
    match m.kernel.currentProcess with
    | some _ => some m
    | none =>
      let pml4 := (vmmNewAddressSpace m.kernel.vm).2
      let k := spawnFirst tree (m.kernel.setMemory pmm mem) pml4 heapStart trampoline rip rsp
      some { m.creates pml4 with kernel := k }
  | .works pmm mem pipes fds =>
    let k := m.kernel.setMemory pmm mem
    some { m with
      kernel := { k with pipes := pipes, procs := fun p => { k.procs p with fds := fds p } } }

/-- The machine after `task_init`: CR3 has the kernel's own tables. -/
def bootMachine (vm : Vm) (hhdm fsBase : Word) : Machine :=
  ⟨bootKernel vm hhdm, vm.kernelPml4, fsBase, 0#64, [], false⟩

def cpuRun (s : Option Machine) (op : CpuOp F) : Option Machine × Unit :=
  (s.bind fun m => cpuStep tree fs elsewhere m op, ())

/-- No process has this page for its PML4, and neither has the kernel. -/
def Unused (k : Kernel) (f : Nat) : Prop :=
  f ≠ k.vm.kernelPml4 ∧ ∀ p, p < maxProcesses → (k.procs p).pid ≠ 0 → (k.procs p).pml4 ≠ f

/-- The page that a step gets from `vmm_new_address_space`. -/
def spaceMade (m : Machine) : CpuOp F → Option Nat
  | .fork _ _ =>
    m.kernel.caller.bind fun p => (processAlloc m.kernel (m.kernel.procs p).pid).2.map fun _ =>
      (vmmNewAddressSpace m.kernel.vm).2
  | .exec frame files path _ _ _ =>
    m.kernel.caller.bind fun _ =>
      (execProgram fs elsewhere ⟨m.kernel, ⟨m.cr3, m.fsBase⟩, frame⟩ files path).map fun x =>
        (vmmNewAddressSpace x.2.1).2
  | .spawns _ _ _ _ _ _ => some (vmmNewAddressSpace m.kernel.vm).2
  | _ => none

/-- A step that makes an address space makes it in a page that no other one has. -/
def MakesApart (s : Option Machine) (op : CpuOp F) : Prop :=
  ∀ m ∈ s, ∀ f ∈ spaceMade fs elsewhere m op, Unused m.kernel f

instance (k : Kernel) (f : Nat) : Decidable (Unused k f) := inferInstanceAs (Decidable (_ ∧ _))

instance (s : Option Machine) (op : CpuOp F) : Decidable (MakesApart fs elsewhere s op) :=
  inferInstanceAs (Decidable (∀ m ∈ s, ∀ f ∈ spaceMade fs elsewhere m op, Unused m.kernel f))

end Steps

/-- The registers are those of the current task. -/
def Machine.Loaded (m : Machine) : Prop :=
  match m.kernel.currentProcess with
  | some p =>
    m.cr3 = (m.kernel.procs p).pml4 ∧ m.fsBase = (m.kernel.procs p).fsBase ∧
      m.rsp0 = (m.kernel.tasks m.kernel.current).kernelStackTop
  | none => m.cr3 = m.kernel.vm.kernelPml4


/-! Where the kernel's own tables are is settled in `vmm_init`. -/

section KernelTables

variable {s t u : Vm}

def SameTables (s t : Vm) : Prop := t.kernelPml4 = s.kernelPml4

theorem getOrCreateTable_same (s : Vm) (f i : Nat) : SameTables s (getOrCreateTable s f i).1 := by
  unfold getOrCreateTable
  split <;> rfl

theorem vmmMap4kIn_same (s : Vm) (pml4 : Nat) (v : Word) (frame : Nat) (flags : Word) :
    SameTables s (vmmMap4kIn s pml4 v frame flags) := by
  unfold vmmMap4kIn
  exact ((getOrCreateTable_same _ _ _).trans (getOrCreateTable_same _ _ _)).trans (getOrCreateTable_same _ _ _)

theorem SameTables.loop {body : Vm → Nat → Vm} (round : ∀ s i, SameTables s (body s i)) (xs : List Nat) (s : Vm) :
    SameTables s (xs.foldl body s) :=
  Run.foldl_rule (SameTables s) body xs s rfl fun i _ t same => (round t i).trans same

theorem cloneLeaf_same (dest i j k pt : Nat) (s : Vm) (l : Nat) : SameTables s (cloneLeaf dest i j k pt s l) := by
  unfold cloneLeaf
  dsimp only
  split
  · refine (vmmMap4kIn_same _ _ _ _ _).trans ?_
    split <;> rfl
  · rfl

theorem vmmCloneLowerHalf_same (s : Vm) (dest src : Nat) : SameTables s (vmmCloneLowerHalf s dest src) := by
  have pd : ∀ i j pd s k, SameTables s (clonePd dest i j pd s k) := by
    intro i j pd s k
    unfold clonePd
    split
    · split
      · rfl
      · exact .loop (fun s l => cloneLeaf_same dest i j k _ s l) _ s
    · rfl
  have pdpt : ∀ i pdpt s j, SameTables s (clonePdpt dest i pdpt s j) := by
    intro i pdpt s j
    unfold clonePdpt
    split
    · exact .loop (pd i j _) _ s
    · rfl
  refine .loop (fun s i => ?_) _ s
  unfold clonePml4
  split
  · exact .loop (pdpt i _) _ s
  · rfl

theorem loadSegment_same (data : ElfData) (pml4 : Nat) (ph : Phdr) (s : Vm) :
    SameTables s (loadSegment data pml4 ph s).1 := by
  unfold loadSegment
  dsimp only
  split
  · rfl
  · exact .loop (fun s p => vmmMap4kIn_same s _ _ _ _) _ _

theorem loadSegments_same (data : ElfData) (pml4 n i : Nat) (st : ElfProgress) :
    SameTables st.vm (loadSegments data pml4 n i st).1.vm := by
  induction n generalizing i st with
  | zero => rfl
  | succ n ih =>
    rw [loadSegments]
    dsimp only
    have here := loadSegment_same data pml4 (phdr data i) st.vm
    split
    · exact ih (i + 1) st
    split
    · exact (ih (i + 1) _).trans here
    · exact here

theorem execSpace_same (s : Vm) (b : FileBuffer) : SameTables s (execSpace s b).1 := by
  unfold execSpace elfLoad
  dsimp only
  split
  · exact loadSegments_same _ _ _ _ _
  · rfl

theorem readFileLoop_same {file : Vm → FileReader} (fuel : Nat) (s : Vm) (b : FileBuffer)
    {r : Vm × Option FileBuffer} (done : readFileLoop file fuel s b = some r) : SameTables s r.1 := by
  induction fuel generalizing s b with
  | zero => cases done
  | succ fuel ih =>
    rw [readFileLoop] at done
    split at done
    · cases done
      rfl
    · cases done
      rfl
    · dsimp only at done
      split at done
      · split at done
        · cases done
          rfl
        · exact (ih _ _ done).trans rfl
      · exact (ih _ _ done).trans rfl

theorem vfsReadFileAlloc_same (file : Vm → FileReader) (s : Vm) : SameTables s (vfsReadFileAlloc file s).1 := by
  unfold vfsReadFileAlloc
  dsimp only
  split
  · rfl
  · cases done : readFileLoop file (s.pmm.totalPages * 4096 + 1)
        { s with pmm := (pmmAllocPages s.pmm vfsReadInitialPages).1 }
        ⟨(pmmAllocPages s.pmm vfsReadInitialPages).2, vfsReadInitialPages, 0⟩ with
    | none => rfl
    | some r => exact (readFileLoop_same _ _ _ done).trans rfl

end KernelTables


/-- What the registers come from is as before, and nobody new has come. -/
structure Retained (k k' : Kernel) : Prop where
  tables : k'.vm.kernelPml4 = k.vm.kernelPml4
  current : k'.current = k.current
  task : (k'.tasks k.current).proc = (k.tasks k.current).proc ∧
    (k'.tasks k.current).kernelStackTop = (k.tasks k.current).kernelStackTop
  ended : (k.tasks k.current).state = .terminated → (k'.tasks k.current).state = .terminated
  procs : ∀ p, (k'.procs p).pid ≠ 0 → (k.procs p).pid ≠ 0 ∧ (k'.procs p).pml4 = (k.procs p).pml4 ∧
    (k'.procs p).fsBase = (k.procs p).fsBase

section Keeping

variable {k k' : Kernel}

theorem Retained.refl (k : Kernel) : Retained k k := ⟨rfl, rfl, ⟨rfl, rfl⟩, id, fun _ pid => ⟨pid, rfl, rfl⟩⟩

theorem Retained.trans {k'' : Kernel} (h : Retained k k') (h' : Retained k' k'') : Retained k k'' := by
  obtain ⟨proc, top⟩ := h'.task
  have ended := h'.ended
  rw [h.current] at proc top ended
  refine ⟨h'.tables.trans h.tables, h'.current.trans h.current,
    ⟨proc.trans h.task.1, top.trans h.task.2⟩, fun was => ended (h.ended was), fun p pid => ?_⟩
  obtain ⟨pid', pml4', fs'⟩ := h'.procs p pid
  obtain ⟨pid, pml4, fs⟩ := h.procs p pid'
  exact ⟨pid, pml4'.trans pml4, fs'.trans fs⟩

theorem Process.kept_of_core {a b : Process} (h : a.core = b.core) (pid : a.pid ≠ 0) :
    b.pid ≠ 0 ∧ a.pml4 = b.pml4 ∧ a.fsBase = b.fsBase := by
  obtain ⟨pml4, fs, same, -⟩ := Process.core_eq h
  exact ⟨same ▸ pid, pml4, fs⟩

theorem Quiet.kept (q : Quiet k k') (vm : k'.vm.kernelPml4 = k.vm.kernelPml4) : Retained k k' := by
  have task := (q.tasks k.current).fields
  refine ⟨vm, q.current, ⟨task.1, task.2.2.1⟩, fun was => ?_, fun p => Process.kept_of_core (q.procs p)⟩
  exact ((q.tasks k.current).state_iff (by decide) (by decide)).mpr was

theorem Edited.kept {p t : Nat} {f : Process → Process} {s : TaskState} (e : Edited k k' p f t s)
    (vm : k'.vm = k.vm) (going : (k.tasks t).state ≠ .terminated) (pid : (f (k.procs p)).pid = (k.procs p).pid)
    (pml4 : (f (k.procs p)).pml4 = (k.procs p).pml4) (fs : (f (k.procs p)).fsBase = (k.procs p).fsBase) :
    Retained k k' := by
  have task := e.fields k.current
  refine ⟨by rw [vm], e.current, ⟨task.1, task.2.2⟩, fun was => ?_, fun q pid' => ?_⟩
  · have other : k.current ≠ t := fun same => going (same ▸ was)
    exact ((e.tasks _ other).state_iff (by decide) (by decide)).mpr was
  · by_cases h : q = p
    · subst h
      obtain ⟨pid', pml4', fs'⟩ := Process.kept_of_core e.proc pid'
      exact ⟨pid ▸ pid', pml4'.trans pml4, fs'.trans fs⟩
    · exact Process.kept_of_core (e.procs q h) pid'

/-! Neither descriptors nor signals have to do with memory. -/

theorem vnodeClose_vm (k : Kernel) (n : Option Vnode) : (vnodeClose k n).vm = k.vm := by
  unfold vnodeClose
  split
  · dsimp only
    split <;> rfl
  · dsimp only
    split <;> rfl
  · rfl

theorem vnodeDup_vm (k : Kernel) (n : Option Vnode) : (vnodeDup k n).vm = k.vm := by
  unfold vnodeDup
  split <;> rfl

theorem closeAll_vm (k : Kernel) (p : Nat) : (closeAll k p).vm = k.vm := by
  refine Run.foldl_rule (fun k' => k'.vm = k.vm) _ _ k rfl fun fd _ k' same => Eq.trans ?_ same
  unfold processClose
  dsimp only
  split
  · rfl
  · exact vnodeClose_vm k' _

theorem wakeProcess_vm (k : Kernel) (pid : Int) : (wakeProcess k pid).vm = k.vm := by
  unfold wakeProcess
  split <;> rfl

theorem processTerminate_vm (k : Kernel) (p t code : Nat) : (processTerminate k p t code).vm = k.vm := by
  rw [processTerminate_eq, processMarkZombie_eq]
  exact (wakeProcess_vm _ _).trans (closeAll_vm k p)

theorem processSendSignal_vm {target sig : Nat} {r : Kernel × SelfAction}
    (sent : processSendSignal k target sig = some r) : r.1.vm = k.vm := by
  unfold processSendSignal at sent
  dsimp only at sent
  split at sent
  · split at sent
    · cases sent
      rfl
    · obtain ⟨t, -, rfl⟩ := Option.map_eq_some_iff.mp sent
      exact processTerminate_vm k target t _
  split at sent
  · split at sent
    · cases sent
      rfl
    · obtain ⟨t, -, rfl⟩ := Option.map_eq_some_iff.mp sent
      exact wakeProcess_vm _ _
  split at sent
  · split at sent
    · cases sent
      rfl
    split at sent
    · obtain ⟨t, -, rfl⟩ := Option.map_eq_some_iff.mp sent
      rfl
    · cases sent
      rfl
  split at sent <;> (cases sent; rfl)

theorem Roles.signal_kept (r : Roles k) {target sig : Nat} {x : Kernel × SelfAction}
    (sent : processSendSignal k target sig = some x) (pid : (k.procs target).pid ≠ 0) : Retained k x.1 := by
  have vm := processSendSignal_vm sent
  rcases processSendSignal_cases sent with ⟨same, -⟩ | ⟨t, task, awake, effect⟩
  · rw [same]
    exact .refl k
  have going := (r.ordered.task target t pid awake task).2.1
  rcases effect with ⟨-, edited, -⟩ | ⟨-, -, edited, -⟩ | ⟨-, -, edited, -⟩
  · exact edited.kept vm going rfl rfl rfl
  · exact edited.kept vm going rfl rfl rfl
  · exact edited.kept vm going rfl rfl rfl

theorem Roles.terminate_kept (r : Roles k) {p t : Nat} (pid : (k.procs p).pid ≠ 0)
    (awake : (k.procs p).isZombie = false) (task : (k.procs p).task = some t) (code : Nat) :
    Retained k (processTerminate k p t code) :=
  (processTerminate_edited k p t code).kept (processTerminate_vm k p t code)
    (r.ordered.task p t pid awake task).2.1 rfl rfl rfl

theorem Roles.signals (r : Roles k) {sig : Nat} (pids : List Int) {self : SelfAction}
    {x : Kernel × SelfAction} (sent : signalEach sig pids k self = some x) : Roles x.1 ∧ Retained k x.1 := by
  induction pids generalizing k self with
  | nil =>
    cases sent
    exact ⟨r, .refl k⟩
  | cons pid rest ih =>
    rw [signalEach] at sent
    split at sent
    · exact ih r sent
    · rename_i target found
      obtain ⟨bound, here, nonzero⟩ := processFindByPid_some found
      have occupied : (k.procs target).pid ≠ 0 := here ▸ nonzero
      split at sent
      · cases sent
      · rename_i k' action one
        obtain ⟨roles, kept⟩ := ih (r.signal occupied bound one) sent
        exact ⟨roles, (r.signal_kept one occupied).trans kept⟩


/-! New tasks and new processes. -/

theorem setTask_kept (k : Kernel) {t : Nat} (apart : t ≠ k.current) (f : Task → Task) : Retained k (k.setTask t f) := by
  have same : (k.setTask t f).tasks k.current = k.tasks k.current := Function.update_of_ne (Ne.symm apart) _ _
  exact ⟨rfl, rfl, ⟨congrArg Task.proc same, congrArg Task.kernelStackTop same⟩,
    (congrArg Task.state same).trans, fun _ pid => ⟨pid, rfl, rfl⟩⟩

theorem setProc_kept (k : Kernel) (p : Nat) {f : Process → Process} (pid : (f (k.procs p)).pid = (k.procs p).pid)
    (pml4 : (f (k.procs p)).pml4 = (k.procs p).pml4) (fs : (f (k.procs p)).fsBase = (k.procs p).fsBase) :
    Retained k (k.setProc p f) := by
  refine ⟨rfl, rfl, ⟨rfl, rfl⟩, id, fun q pid' => ?_⟩
  by_cases h : q = p
  · subst h
    simp only [Kernel.setProc, Function.update_self] at pid' ⊢
    exact ⟨pid ▸ pid', pml4, fs⟩
  · simp only [Kernel.setProc, Function.update_of_ne h] at pid' ⊢
    exact ⟨pid', trivial, trivial⟩

theorem setVm_kept (k : Kernel) {vm : Vm} (same : SameTables k.vm vm) : Retained k { k with vm := vm } :=
  (setVm_quiet k vm).kept same

theorem Retained.furnished (h : Retained k k') {vm : Vm} (same : SameTables k'.vm vm) {t : Nat} (apart : t ≠ k'.current)
    (f : Task → Task) : Retained k ({ k' with vm := vm }.setTask t f) :=
  (h.trans (setVm_kept k' same)).trans (setTask_kept _ (by exact apart) f)

theorem taskAllocRaw_kept (o : Ordered k) :
    Retained k (taskAllocRaw k).1 ∧ ∀ t, (taskAllocRaw k).2 = some t → t ≠ (taskAllocRaw k).1.current := by
  cases slot : (taskAllocRaw k).2 with
  | none =>
    rw [taskAllocRaw_failed slot]
    exact ⟨.refl k, fun t h => by cases h⟩
  | some t =>
    have s := taskAllocRaw_spliced o slot
    have current := taskAllocRaw_current k
    have apart : t ≠ k.current := by
      unfold taskAllocRaw at slot
      split at slot
      · cases slot
        have := o.current_lt
        omega
      split at slot
      · cases slot
      · rename_i found
        cases slot
        have dead := List.find?_some found
        simp only [decide_eq_true_eq] at dead
        exact dead.1
    have vm : SameTables k.vm (taskAllocRaw k).1.vm := by
      have unlinked : ∀ t, (unlinkTaskFromRing k t).vm = k.vm := by
        intro t
        unfold unlinkTaskFromRing
        split
        · rfl
        · dsimp only
          split <;> rfl
      unfold taskAllocRaw
      split
      · rfl
      split
      · rfl
      · rename_i u _
        have same : (unlinkTaskFromRing k u).vm.kernelPml4 = k.vm.kernelPml4 := by rw [unlinked u]
        dsimp only [spliceTask, Kernel.setTask]
        split <;> exact same
    obtain ⟨n, here⟩ := s.others k.current (Ne.symm apart)
    have task : ((taskAllocRaw k).1.tasks k.current).proc = (k.tasks k.current).proc ∧
        ((taskAllocRaw k).1.tasks k.current).kernelStackTop = (k.tasks k.current).kernelStackTop ∧
        ((taskAllocRaw k).1.tasks k.current).state = (k.tasks k.current).state := by
      rw [here]
      exact ⟨rfl, rfl, rfl⟩
    refine ⟨⟨vm, current, ⟨task.1, task.2.1⟩, task.2.2.trans, fun p pid => ?_⟩, fun u h => ?_⟩
    · rw [s.procs] at pid ⊢
      exact ⟨pid, rfl, rfl⟩
    · cases h
      rw [current]
      exact apart

theorem linked_kept (o : Ordered k) {t : Nat} (made : taskAllocRaw k = (k', some t)) (p : Nat) :
    Retained k ((k'.setTask t fun x => { x with proc := some p }).setProc p fun x => { x with task := some t }) ∧
      t ≠ ((k'.setTask t fun x => { x with proc := some p }).setProc p fun x =>
        { x with task := some t }).current := by
  have raw := taskAllocRaw_kept o
  rw [made] at raw
  have apart : t ≠ k'.current := raw.2 t rfl
  exact ⟨(raw.1.trans (setTask_kept k' apart _)).trans (setProc_kept _ p rfl rfl rfl), apart⟩

theorem forkTask_kept (o : Ordered k) (child : Nat) (point : Word) (frame : TrapFrame) :
    Retained k (forkTask k child point frame).1 := by
  unfold Isunux.forkTask
  split
  · rename_i k' failed
    have raw := (taskAllocRaw_kept o).1
    rwa [failed] at raw
  · rename_i k' t made
    obtain ⟨linked, other⟩ := linked_kept o made child
    simp only
    generalize (k'.setTask t fun x => { x with proc := some child }).setProc child
      (fun x => { x with task := some t }) = k₂ at linked other ⊢
    split
    · exact linked
    · dsimp only
      refine linked.furnished ?_ other _
      rfl

theorem taskCreateUser_kept (o : Ordered k) (p : Nat) (trampoline rip rsp : Word) :
    Retained k (taskCreateUser k p trampoline rip rsp).1 := by
  unfold taskCreateUser
  split
  · rename_i k' failed
    have raw := (taskAllocRaw_kept o).1
    rwa [failed] at raw
  · rename_i k' t made
    obtain ⟨linked, other⟩ := linked_kept o made p
    simp only
    generalize (k'.setTask t fun x => { x with proc := some p }).setProc p
      (fun x => { x with task := some t }) = k₂ at linked other ⊢
    have entered := linked.trans (setTask_kept k₂ other fun x =>
      { x with userEntryRip := rip, userEntryRsp := rsp })
    have other' : t ≠ (k₂.setTask t fun x => { x with userEntryRip := rip, userEntryRsp := rsp }).current := other
    generalize k₂.setTask t (fun x => { x with userEntryRip := rip, userEntryRsp := rsp }) = k₃
      at entered other' ⊢
    split
    · exact entered
    · dsimp only
      refine entered.furnished ?_ other' _
      rfl

theorem processCloneInto_vm (k : Kernel) (dst src pml4 : Nat) : (processCloneInto k dst src pml4).vm = k.vm := by
  unfold processCloneInto
  refine Run.foldl_rule (fun k' : Kernel => k'.vm = k.vm) _ _ _ rfl fun fd _ k' same => Eq.trans ?_ same
  unfold cloneFd
  dsimp only
  split
  · exact vnodeDup_vm _ _
  · rfl

/-- What `do_fork` does before it asks for a task, when there is a slot for the child. -/
theorem forkPrepared_eq {p : Nat} (caller : k.currentProcess = some p) :
    forkPrepared k = (processAlloc k (k.procs p).pid).2.map fun child =>
      (processCloneInto { (processAlloc k (k.procs p).pid).1 with
        vm := vmmCloneLowerHalf (vmmNewAddressSpace (processAlloc k (k.procs p).pid).1.vm).1
          (vmmNewAddressSpace (processAlloc k (k.procs p).pid).1.vm).2
          ((processAlloc k (k.procs p).pid).1.procs p).pml4 } child p
        (vmmNewAddressSpace (processAlloc k (k.procs p).pid).1.vm).2, child) := by
  unfold forkPrepared
  generalize k.currentProcess = running at caller ⊢
  subst caller
  dsimp only
  generalize processAlloc k (k.procs p).pid = made
  obtain ⟨k', _ | child⟩ := made
  · rfl
  · rfl

/-- `do_fork` puts the child's address space into a free slot, and what else it does does not
matter here. -/
theorem doFork_kept (r : Roles k) {p : Nat} (caller : k.currentProcess = some p) (point : Word)
    (frame : TrapFrame) :
    match (processAlloc k (k.procs p).pid).2 with
    | none => (doFork k point frame).1 = k
    | some i => (k.procs i).pid = 0 ∧ ∃ x : Process, x.pml4 = (vmmNewAddressSpace k.vm).2 ∧
        Retained (k.setProc i fun _ => x) (doFork k point frame).1 := by
  cases slot : (processAlloc k (k.procs p).pid).2 with
  | none =>
    refine doFork_unprepared ?_ point frame
    rw [forkPrepared_eq caller, slot]
    rfl
  | some i =>
    obtain ⟨-, vacant, eq⟩ := processAlloc_eq slot
    have prepared : forkPrepared k = some (processCloneInto { (processAlloc k (k.procs p).pid).1 with
        vm := vmmCloneLowerHalf (vmmNewAddressSpace k.vm).1 (vmmNewAddressSpace k.vm).2
          ((processAlloc k (k.procs p).pid).1.procs p).pml4 } i p (vmmNewAddressSpace k.vm).2, i) := by
      rw [forkPrepared_eq caller, slot, eq]
      rfl
    have roles := (r.forkPrepared prepared).1
    have tables : SameTables k.vm (vmmCloneLowerHalf (vmmNewAddressSpace k.vm).1 (vmmNewAddressSpace k.vm).2
        ((processAlloc k (k.procs p).pid).1.procs p).pml4) :=
      (vmmCloneLowerHalf_same (vmmNewAddressSpace k.vm).1 _ _).trans rfl
    rw [doFork_prepared prepared]
    generalize vmmCloneLowerHalf (vmmNewAddressSpace k.vm).1 (vmmNewAddressSpace k.vm).2
      ((processAlloc k (k.procs p).pid).1.procs p).pml4 = vm at roles tables ⊢
    refine ⟨vacant, ((processAlloc k (k.procs p).pid).1.procs p).copied (vmmNewAddressSpace k.vm).2
      ((processAlloc k (k.procs p).pid).1.procs i), rfl, Retained.trans ?_ (forkTask_kept roles.ordered i point frame)⟩
    refine Retained.trans ?_ ((processCloneInto_quiet _ i p _).kept ?_)
    · rw [eq]
      refine ⟨tables, rfl, ⟨rfl, rfl⟩, id, fun q pid => ?_⟩
      by_cases h : q = i
      · subst h
        simp only [Kernel.setProc, Function.update_self] at pid ⊢
        exact ⟨pid, trivial, trivial⟩
      · simp only [Kernel.setProc, Function.update_of_ne h] at pid ⊢
        exact ⟨pid, trivial, trivial⟩
    · rw [processCloneInto_vm]
      rfl

theorem spawnFirst_kept {σ : Type} (tree : FileTree σ) (r : Roles k) (pml4 : Nat)
    (heap trampoline rip rsp : Word) :
    Roles (spawnFirst tree k pml4 heap trampoline rip rsp) ∧
      (spawnFirst tree k pml4 heap trampoline rip rsp = k ∨
        ∃ i, (k.procs i).pid = 0 ∧ ∃ x : Process, x.pml4 = pml4 ∧
          Retained (k.setProc i fun _ => x) (spawnFirst tree k pml4 heap trampoline rip rsp)) := by
  unfold spawnFirst
  have alloc := r.alloc 0
  split
  · rename_i k' failed
    have same := @processAlloc_failed k 0 (by rw [failed])
    rw [failed] at same
    obtain rfl : k' = k := same
    exact ⟨r, .inl rfl⟩
  · rename_i k' i made
    have slot : (processAlloc k 0).2 = some i := by rw [made]
    obtain ⟨-, vacant, eq⟩ := processAlloc_eq slot
    have new := processAlloc_newborn r.ordered slot
    rw [made] at eq new alloc
    dsimp only at eq new alloc
    -- `process_init` fills in plain fields and three descriptors
    let f : Process → Process := fun x =>
      { x with
        pml4 := pml4, heapStart := heap, heapEnd := heap, mmapNext := 0x40000000#64
        cwd := ['/'], uid := 0#64, gid := 0#64, fsBase := 0#64 }
    have quiet : Quiet (k'.setProc i f) (processInit tree k' i pml4 heap) :=
      ((setFd_quiet (k'.setProc i f) i 0 _).trans (setFd_quiet _ i 1 _)).trans (setFd_quiet _ i 2 _)
    have roles := (alloc.setProc i (f := f) rfl rfl).quiet quiet
    have same : ((processInit tree k' i pml4 heap).procs i).identity = (k'.procs i).identity := by
      rw [Process.identity_of_core (quiet.procs i)]
      simp [Kernel.setProc, Process.identity, f]
    obtain ⟨pid, zombie, task⟩ := Process.identity_eq same
    refine ⟨roles.createUser ⟨new.live.bound, ?_, ?_⟩ ?_ trampoline rip rsp, .inr ⟨i, vacant, f (k'.procs i), rfl,
      Retained.trans ?_ (taskCreateUser_kept roles.ordered i trampoline rip rsp)⟩⟩
    · rw [pid]
      exact new.live.pid
    · rw [zombie]
      exact new.live.awake
    · rw [task]
      exact new.alone
    · refine Retained.trans ?_ (quiet.kept rfl)
      rw [eq]
      refine ⟨rfl, rfl, ⟨rfl, rfl⟩, id, fun q occupied => ?_⟩
      by_cases h : q = i
      · subst h
        simp only [Kernel.setProc, Function.update_self] at occupied ⊢
        exact ⟨occupied, trivial, trivial⟩
      · simp only [Kernel.setProc, Function.update_of_ne h] at occupied ⊢
        exact ⟨occupied, trivial, trivial⟩

end Keeping

section Committing

variable {c : Caller} {p : Nat} {argv envp : List (List (BitVec 8))} {seed : Word}

/-- `do_exec` fails with other memory, or it moves the process to the address space `f`. -/
def ExecEnds (c : Caller) (p f : Nat) (r : Caller × Int) : Prop :=
  (r.2 ≠ 0 ∧ ∃ vm, SameTables c.kernel.vm vm ∧ r.1 = c.setVm vm) ∨
  (r.2 = 0 ∧ r.1.cpu = ⟨f, 0#64⟩ ∧ ∃ vm heap, SameTables c.kernel.vm vm ∧
    r.1.kernel = { c.kernel.setProc p (fun x =>
      { x with pml4 := f, heapStart := heap, heapEnd := heap, fsBase := 0#64 }) with vm := vm })

theorem ExecEnds.failed (p f : Nat) (vm : Vm) (same : SameTables c.kernel.vm vm) {e : Int} (negative : e ≠ 0) :
    ExecEnds c p f (c.setVm vm, e) := .inl ⟨negative, vm, same, rfl⟩

theorem ExecEnds.after {f : Nat} {s : Vm} {r : Caller × Int} (h : ExecEnds (c.setVm s) p f r)
    (same : SameTables c.kernel.vm s) : ExecEnds c p f r := by
  rcases h with ⟨failed, vm, tables, eq⟩ | ⟨done, cpu, vm, heap, tables, eq⟩
  · exact .inl ⟨failed, vm, tables.trans same, eq⟩
  · exact .inr ⟨done, cpu, vm, heap, tables.trans same, eq⟩

theorem execLoaded_ends (c : Caller) (p f : Nat) (image : Option ElfImage) (argv envp : List (List (BitVec 8)))
    (seed : Word) : ExecEnds c p f (execLoaded c p f image argv envp seed) := by
  cases image with
  | none => exact ExecEnds.failed p f c.kernel.vm rfl (by decide)
  | some image =>
    rw [execLoaded, execCommit]
    dsimp only
    split
    · refine ExecEnds.failed p f _ ?_ (by decide)
      rfl
    · refine .inr ⟨rfl, rfl, _, image.highestVaddr, ?_, rfl⟩
      exact .loop (fun s i => vmmMap4kIn_same s _ _ _ _) _ _

theorem execFile_ends (c : Caller) (p : Nat) (file : Vm → FileReader) (argv envp : List (List (BitVec 8)))
    (seed : Word) : ∃ f, ExecEnds c p f (execFile c p file argv envp seed) ∧
      ((execFile c p file argv envp seed).2 = 0 → ∃ b, (vfsReadFileAlloc file c.kernel.vm).2 = some b ∧
        f = (vmmNewAddressSpace (vfsReadFileAlloc file c.kernel.vm).1).2) := by
  have read := vfsReadFileAlloc_same file c.kernel.vm
  unfold execFile
  dsimp only
  split
  · exact ⟨0, .failed p 0 _ read (by decide), fun h => by cases h⟩
  · rename_i b found
    split
    · exact ⟨0, .failed p 0 (vfsReadFileFree (vfsReadFileAlloc file c.kernel.vm).1 b) read (by decide),
        fun h => by cases h⟩
    · refine ⟨_, ExecEnds.after (execLoaded_ends _ p _ _ argv envp seed) ?_, fun _ => ⟨b, found, rfl⟩⟩
      exact (execSpace_same _ b).trans read

variable {F : Type} (fs : Foreign F) (elsewhere : F → Nat → FileReader)

theorem doExec_ends (c : Caller) (files : Files F) (path : List Char) (argv envp : List CString) (seed : Word)
    {p : Nat} (caller : c.kernel.currentProcess = some p) :
    ∃ f, ExecEnds c p f (doExec fs elsewhere c files path argv envp seed) ∧
      ((doExec fs elsewhere c files path argv envp seed).2 = 0 →
        ∃ x, execProgram fs elsewhere c files path = some x ∧ f = (vmmNewAddressSpace x.2.1).2) := by
  have idle : ∀ e : Int, e ≠ 0 → ∃ f, ExecEnds c p f (c, e) ∧ ((c, e).2 = 0 →
      ∃ x, execProgram fs elsewhere c files path = some x ∧ f = (vmmNewAddressSpace x.2.1).2) :=
    fun e negative => ⟨0, .inl ⟨negative, c.kernel.vm, rfl, rfl⟩, fun h => absurd h negative⟩
  unfold doExec
  have proc : (c.kernel.tasks c.kernel.current).proc = some p := caller
  rw [proc]
  dsimp only
  split
  · exact idle _ (by decide)
  · rename_i node found
    split
    · exact idle _ (by decide)
    split
    · exact idle _ (by decide)
    · obtain ⟨f, ends, space⟩ := execFile_ends c p (files.reader elsewhere node)
        (stage maxExecArgs execArgMaxlen argv) (stage maxExecEnvs execEnvMaxlen envp) seed
      refine ⟨f, ends, fun done => ?_⟩
      obtain ⟨b, read, same⟩ := space done
      refine ⟨(p, _, b), ?_, same⟩
      unfold execProgram
      rw [caller, Option.bind_some, found, Option.bind_some, read]
      rfl

end Committing

end Isunux
