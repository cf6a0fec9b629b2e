import Mathlib.Data.Finset.Card
import Mathlib.Order.Interval.Finset.Nat
import Isunux.Children
import Isunux.Frames
import Isunux.PipeEnds
import Isunux.Shell

/-! `run_pipeline` of the shell, bin/sh/main.c, and the descriptors it leaves open. -/
namespace Isunux

/-- A process has the same descriptors open as before, and is as much alive. -/
structure SameOpen (p : Nat) (k k' : Kernel) : Prop where
  used : ∀ fd, ((k'.procs p).fds fd).used = ((k.procs p).fds fd).used
  pid : (k'.procs p).pid = (k.procs p).pid
  isZombie : (k'.procs p).isZombie = (k.procs p).isZombie

/-- What interrupts and other processes do between two system calls of a process
that is still there for the second. -/
structure Elsewhere (p : Nat) where
  act : Kernel → Kernel
  leaves : ∀ k, k.Live p → SameOpen p k (act k)

/-- `sys_waitpid`: a scan of the table each time the caller runs. -/
def awaitChild (p : Nat) (pid : Int) : List (Elsewhere p) → Kernel → Option Kernel
  | [], _ => none
  | e :: rest, k =>
    match processWaitpid (e.act k) p pid with
    | (k, .sleeps) => awaitChild p pid rest k
    | (k, _) => some k

/-- The system calls of `run_builtin`. The console's mode and its set of foreground
processes are no part of the tables. -/
inductive BuiltinCall (p : Nat) where
  | exit
  | chdir (cwd : List Char)
  | kill (pid : Int) (sig : Nat)
  | waitpid (pid : Int) (naps : List (Elsewhere p))
  | elsewhere (e : Elsewhere p)

/-- `none` if the call never returns to the shell. -/
def builtinCall {p : Nat} (k : Kernel) : BuiltinCall p → Option Kernel
  | .exit => none
  | .chdir cwd => some (k.setProc p fun x => { x with cwd := cwd })
  | .kill pid sig => (sysKill k pid sig).bind fun r => if (r.1.procs p).isZombie then none else some r.1
  | .waitpid pid naps => awaitChild p pid naps k
  | .elsewhere e => some (e.act k)

/-- What the shell does not decide itself in a call of `run_pipeline`: the calls its word
makes if it names a builtin, what goes on between the system calls, and the frames that
they push. -/
structure PipelineRun (p : Nat) where
  builtin : Option (List (BuiltinCall p))
  beforePipe : Nat → Elsewhere p
  beforeFork : Nat → Elsewhere p
  beforeClose : Nat → Elsewhere p
  beforeWait : Int → List (Elsewhere p)
  frame : Nat → Word × TrapFrame

section Shell

variable {p : Nat} (run : PipelineRun p)

/-- `run_builtin`; the outer `none` is its answer 0. -/
def runBuiltin (s : Stage) (k : Kernel) : Option (Option Kernel) :=
  if s.argc = 0 then some (some k) else run.builtin.map fun calls => calls.foldlM builtinCall k

/-- The loop over `sys_pipe`, with the ends of the pipes it opened or none. -/
def openPipes : Nat → Kernel → Kernel × Option (List (Nat × Nat))
  | 0, k => (k, some [])
  | n + 1, k =>
    match openPipes n k with
    | (k, none) => (k, none)
    | (k, some pipes) =>
      match processPipe ((run.beforePipe n).act k) p with
      | (k, _, none) => (k, none)
      | (k, _, some ends) => (k, some (pipes ++ [ends]))

/-- The loop over `sys_fork`. A child that gets 0 ends in `sys_execve` or `sys_exit`. -/
def forkStages : Nat → Kernel → Option (Kernel × List Int)
  | 0, k => some (k, [])
  | n + 1, k =>
    match forkStages n k with
    | none => none
    | some (k, pids) =>
      let r := doFork ((run.beforeFork n).act k) (run.frame n).1 (run.frame n).2
      if r.2 = 0 then none else some (r.1, pids ++ [if 0 < r.2 then r.2 else -1])

def closeEnd (k : Kernel) (fd : Nat) : Kernel := (processClose ((run.beforeClose fd).act k) p fd).1

def closePipes (pipes : List (Nat × Nat)) (k : Kernel) : Kernel :=
  pipes.foldl (fun k ends => closeEnd run (closeEnd run k ends.1) ends.2) k

/-- One round of the loop over `sys_waitpid`. -/
def waitStage (k : Kernel) (pid : Int) : Option Kernel :=
  if pid ≤ 0 then some k else awaitChild p pid (run.beforeWait pid) k

/-- `run_pipeline` past the builtins. -/
def runStages (n : Nat) (background : Bool) (k : Kernel) : Option Kernel :=
  match openPipes run (n - 1) k with
  | (k, none) => some k
  | (k, some pipes) =>
    (forkStages run n k).bind fun r =>
      let k := closePipes run pipes r.1
      if background then some k else r.2.foldlM (waitStage run) k

def runPipeline (stages : List Stage) (background : Bool) (k : Kernel) : Option Kernel :=
  match stages with
  | [s] =>
    match runBuiltin run s k with
    | some handled => handled
    | none => if s.argc = 0 then some k else runStages run 1 background k
  | stages => runStages run stages.length background k

/-- The state in which a `sys_pipe` of the loop is made. -/
def atPipe : Nat → Kernel → Kernel
  | 0, k => (run.beforePipe 0).act k
  | i + 1, k => (run.beforePipe (i + 1)).act (processPipe (atPipe i k) p).1

end Shell

/-- `pipe_create` finds a slot. -/
def Kernel.PipeSlot (k : Kernel) : Prop := ∃ i, i < maxPipes ∧ (k.pipes i).inUse = false

/-- The descriptors `process_pipe` can take. -/
def Kernel.freeFds (k : Kernel) (p : Nat) : Finset Nat :=
  (Finset.Ico 3 maxFds).filter fun fd => ((k.procs p).fds fd).used = false

section SameOpen

variable {p : Nat} {k k' : Kernel}

theorem SameOpen.refl (p : Nat) (k : Kernel) : SameOpen p k k := ⟨fun _ => rfl, rfl, rfl⟩

theorem SameOpen.trans {k'' : Kernel} (h : SameOpen p k k') (h' : SameOpen p k' k'') : SameOpen p k k'' :=
  ⟨fun fd => (h'.used fd).trans (h.used fd), h'.pid.trans h.pid, h'.isZombie.trans h.isZombie⟩

theorem SameOpen.live (h : SameOpen p k k') (live : k.Live p) : k'.Live p :=
  ⟨live.bound, by rw [h.pid]; exact live.pid, by rw [h.isZombie]; exact live.awake⟩

theorem SameOpen.of_eq (h : k'.procs p = k.procs p) : SameOpen p k k' := by
  constructor <;> simp [h]

theorem SameOpen.freeFds (h : SameOpen p k k') : k'.freeFds p = k.freeFds p := by
  simp only [Kernel.freeFds, h.used]

theorem SameOpen.setProc_ne {q : Nat} (apart : p ≠ q) (k : Kernel) (f : Process → Process) :
    SameOpen p k (k.setProc q f) :=
  .of_eq (by simp [Kernel.setProc, apart])

theorem SameOpen.setProc (p q : Nat) (k : Kernel) {f : Process → Process} (fds : ∀ x, (f x).fds = x.fds)
    (pid : ∀ x, (f x).pid = x.pid) (isZombie : ∀ x, (f x).isZombie = x.isZombie) :
    SameOpen p k (k.setProc q f) := by
  by_cases same : p = q
  · subst same
    constructor <;> simp [Kernel.setProc, fds, pid, isZombie]
  · exact .setProc_ne same k f

end SameOpen

section Others

variable {p q : Nat} {k k' : Kernel}

theorem SameOpen.close (apart : p ≠ q) (k : Kernel) (fd : Nat) : SameOpen p k (processClose k q fd).1 := by
  refine ⟨fun fd' => ?_, (processClose_lives k q fd p).1, (processClose_lives k q fd p).2⟩
  rcases processClose_fds k q fd p fd' with same | ⟨here, -⟩
  · rw [same]
  · exact absurd here apart

theorem SameOpen.wakeProcess (p : Nat) (k : Kernel) (pid : Int) : SameOpen p k (wakeProcess k pid) := by
  unfold Isunux.wakeProcess
  split
  · exact .of_eq rfl
  · exact .refl p k

theorem SameOpen.terminate (apart : p ≠ q) (k : Kernel) (task code : Nat) :
    SameOpen p k (processTerminate k q task code) := by
  have closed : SameOpen p k (closeAll k q) :=
    Run.foldl_rule (SameOpen p k) _ _ k (.refl p k) fun fd _ k' h => h.trans (.close apart k' fd)
  rw [processTerminate_eq, processMarkZombie_eq]
  apply closed.trans
  apply (SameOpen.setProc_ne apart (closeAll k q) fun x => { x with exitCode := code, isZombie := true }).trans
  apply (SameOpen.wakeProcess p _ _).trans
  exact .of_eq rfl

theorem yield_procs (k : Kernel) : (yield k).procs = k.procs := by
  unfold yield
  simp only
  split <;> split <;> (try split) <;> rfl

theorem SameOpen.afterAction (p : Nat) (k : Kernel) (action : SelfAction) :
    SameOpen p k (afterAction k action) := by
  cases action with
  | nothing => exact .refl p k
  | unknown => exact .refl p k
  | terminated => exact .of_eq (congrFun (yield_procs k) p)
  | stopped => exact .of_eq (congrFun (yield_procs k) p)

theorem processSendSignal_same {target sig : Nat} {r : Kernel × SelfAction}
    (sent : processSendSignal k target sig = some r) (awake : (r.1.procs p).isZombie = false) :
    SameOpen p k r.1 := by
  unfold processSendSignal at sent
  simp only at sent
  split at sent
  · split at sent
    · cases sent
      exact .refl p k
    · obtain ⟨t, -, rfl⟩ := Option.map_eq_some_iff.mp sent
      by_cases apart : p = target
      · subst apart
        have zombie : ((processTerminate k p t (encodeSignaled sig)).procs p).isZombie = true := by
          have ended := (processTerminate_edited k p t (encodeSignaled sig)).proc
          simp only [Process.core, Process.ended, Process.mk.injEq] at ended
          tauto
        rw [zombie] at awake
        cases awake
      · exact .terminate apart k t _
  split at sent
  · split at sent
    · cases sent
      exact .refl p k
    · obtain ⟨t, -, rfl⟩ := Option.map_eq_some_iff.mp sent
      apply (SameOpen.setProc p target k (f := fun x =>
        { x with isStopped := true, stopSignal := sigtstp, stopReported := false })
        (fun _ => rfl) (fun _ => rfl) (fun _ => rfl)).trans
      apply (SameOpen.wakeProcess p _ _).trans
      exact .of_eq rfl
  split at sent
  · split at sent
    · cases sent
      exact .refl p k
    · split at sent
      · obtain ⟨t, -, rfl⟩ := Option.map_eq_some_iff.mp sent
        apply (SameOpen.setProc p target k (f := fun x => { x with isStopped := false })
          (fun _ => rfl) (fun _ => rfl) (fun _ => rfl)).trans
        exact .of_eq rfl
      · cases sent
        exact .refl p k
  split at sent
  · cases sent
    exact .refl p k
  · cases sent
    exact .refl p k

theorem sysKill_same {pid : Int} {sig : Nat} {r : Kernel × Int} (sent : sysKill k pid sig = some r)
    (awake : (r.1.procs p).isZombie = false) : SameOpen p k r.1 := by
  unfold sysKill at sent
  split at sent
  · cases sent
    exact .refl p k
  · obtain ⟨⟨k', action⟩, signal, rfl⟩ := Option.map_eq_some_iff.mp sent
    have after := SameOpen.afterAction p k' action
    simp only [after.isZombie] at awake
    exact (processSendSignal_same signal awake).trans after

theorem processWaitpid_same (live : k.Live p) (self : Nat) (target : Int) :
    SameOpen p k (processWaitpid k self target).1 := by
  unfold processWaitpid
  rcases waitScan_cases k self target (List.range maxProcesses) false with
    ⟨i, -, -, zombie, eq⟩ | ⟨i, -, -, -, -, -, eq⟩ | ⟨eq, -⟩
  · have apart : p ≠ i := by
      rintro rfl
      rw [live.awake] at zombie
      cases zombie
    rw [eq]
    have cleared : SameOpen p k (k.setProc i fun _ => .zero) := .setProc_ne apart k _
    exact cleared.trans (.of_eq rfl)
  · rw [eq]
    exact .setProc p i k (f := fun x => { x with stopReported := true })
      (fun _ => rfl) (fun _ => rfl) (fun _ => rfl)
  · rw [eq]
    exact .refl p k

theorem SameOpen.cloneInto (apart : p ≠ q) (k : Kernel) (src pml4 : Nat) :
    SameOpen p k (processCloneInto k q src pml4) := by
  unfold processCloneInto
  refine Run.foldl_rule (SameOpen p k) _ _ _ (.setProc_ne apart k _) fun fd _ k' h => h.trans ?_
  have put : SameOpen p k' (k'.setFd q fd ((k'.procs src).fds fd)) := .setProc_ne apart k' _
  unfold cloneFd
  simp only
  split
  · exact put.trans (.of_eq (by rw [vnodeDup_procs]))
  · exact put

theorem SameOpen.forkTask (apart : p ≠ q) (k : Kernel) (point : Word) (frame : TrapFrame) :
    SameOpen p k (forkTask k q point frame).1 := by
  have procs := taskAllocRaw_procs k
  unfold Isunux.forkTask
  split
  · rename_i k' none
    rw [none] at procs
    exact .of_eq (congrFun procs p)
  · rename_i k' t found
    rw [found] at procs
    have named : SameOpen p k ((k'.setTask t fun x => { x with proc := some q }).setProc q fun c =>
        { c with task := some t }) := by
      have allocated : SameOpen p k k' := .of_eq (congrFun procs p)
      have owned : SameOpen p k' (k'.setTask t fun x => { x with proc := some q }) := .of_eq rfl
      exact allocated.trans (owned.trans (.setProc_ne apart _ _))
    simp only
    split
    · exact named
    · exact named.trans (.of_eq rfl)

theorem SameOpen.child (apart : p ≠ q) (k : Kernel) (vm : Vm) (parent space : Nat) (point : Word)
    (frame : TrapFrame) :
    SameOpen p k (Isunux.forkTask (processCloneInto { k with vm := vm } q parent space) q point frame).1 := by
  have moved : SameOpen p k { k with vm := vm } := .of_eq rfl
  have cloned := SameOpen.cloneInto apart { k with vm := vm } parent space
  have tasked := SameOpen.forkTask apart (processCloneInto { k with vm := vm } q parent space) point frame
  exact moved.trans (cloned.trans tasked)

theorem doFork_same (live : k.Live p) (point : Word) (frame : TrapFrame) :
    SameOpen p k (doFork k point frame).1 := by
  unfold doFork
  split
  · exact .refl p k
  rename_i parent _
  split
  · rename_i k' full
    have eq : k' = k := by
      have none : (processAlloc k (k.procs parent).pid).2 = none := by rw [full]
      have same := processAlloc_failed none
      rw [full] at same
      exact same
    rw [eq]
    exact .refl p k
  · rename_i k' child taken
    have slot : (processAlloc k (k.procs parent).pid).2 = some child := by rw [taken]
    obtain ⟨-, vacant, eq⟩ := processAlloc_eq slot
    rw [taken] at eq
    have apart : p ≠ child := by
      rintro rfl
      exact live.pid vacant
    have alloc : SameOpen p k k' := .of_eq (by
      have procs := congrFun (congrArg Kernel.procs eq) p
      simpa only [Function.update_of_ne apart] using procs)
    exact alloc.trans (.child apart k' _ parent _ point frame)

end Others

section Pipes

variable {p : Nat} {k k' : Kernel}

theorem mem_freeFds {fd : Nat} :
    fd ∈ k.freeFds p ↔ (3 ≤ fd ∧ fd < maxFds) ∧ ((k.procs p).fds fd).used = false := by
  simp [Kernel.freeFds]

theorem findFreeFd_exists {start fd : Nat} (from_start : start ≤ fd) (bound : fd < maxFds)
    (free : ((k.procs p).fds fd).used = false) : ∃ m, findFreeFd k p start = some m ∧ m ≤ fd := by
  cases found : findFreeFd k p start with
  | none =>
    have none_free := List.find?_eq_none.mp found fd
      (List.mem_range'_1.mpr ⟨from_start, by omega⟩)
    simp [free] at none_free
  | some m =>
    refine ⟨m, rfl, ?_⟩
    obtain ⟨-, -, first⟩ := List.find?_range'_eq_some.mp found
    by_contra later
    have := first fd from_start (Nat.lt_of_not_le later)
    simp [free] at this

/-- `process_pipe` takes two free descriptors. -/
structure Takes (p a b : Nat) (k k' : Kernel) : Prop where
  apart : a ≠ b
  fst : a ∈ k.freeFds p
  snd : b ∈ k.freeFds p
  used : ∀ fd, ((k'.procs p).fds fd).used = true ↔ ((k.procs p).fds fd).used = true ∨ fd = a ∨ fd = b
  pid : (k'.procs p).pid = (k.procs p).pid
  isZombie : (k'.procs p).isZombie = (k.procs p).isZombie

theorem Takes.live {a b : Nat} (t : Takes p a b k k') (live : k.Live p) : k'.Live p :=
  ⟨live.bound, by rw [t.pid]; exact live.pid, by rw [t.isZombie]; exact live.awake⟩

theorem Takes.freeFds {a b : Nat} (t : Takes p a b k k') :
    k'.freeFds p = ((k.freeFds p).erase a).erase b := by
  ext fd
  have used := t.used fd
  rw [Finset.mem_erase, Finset.mem_erase, mem_freeFds, mem_freeFds]
  cases now : ((k'.procs p).fds fd).used <;> cases before : ((k.procs p).fds fd).used <;>
    simp [now, before] at used ⊢ <;> tauto

theorem Takes.card {a b : Nat} (t : Takes p a b k k') : (k'.freeFds p).card + 2 = (k.freeFds p).card := by
  rw [t.freeFds, Finset.card_erase_of_mem (Finset.mem_erase.mpr ⟨t.apart.symm, t.snd⟩),
    Finset.card_erase_of_mem t.fst]
  have two : 1 < (k.freeFds p).card := Finset.one_lt_card.mpr ⟨a, t.fst, b, t.snd, t.apart⟩
  omega

theorem processPipe_takes {a b : Nat} (live : k.Live p) (made : (processPipe k p).2.2 = some (a, b)) :
    Takes p a b k (processPipe k p).1 := by
  rcases processPipe_cases k p with ⟨-, none⟩ | ⟨i, a', b', first, second, ends, fds⟩
  · rw [none] at made
    cases made
  rw [ends] at made
  cases made
  obtain ⟨low, high, free⟩ := findFreeFd_some first
  obtain ⟨low', high', free'⟩ := findFreeFd_some second
  have same := Process.identity_of_core ((processPipe_moves live).quiet.procs p)
  simp only [Process.identity, Prod.mk.injEq] at same
  refine ⟨by omega, mem_freeFds.mpr ⟨⟨low, high⟩, free⟩, mem_freeFds.mpr ⟨⟨by omega, high'⟩, free'⟩, ?_,
    same.1, same.2.1⟩
  intro fd
  rw [fds p fd]
  by_cases snd : fd = b
  · simp [snd]
  · by_cases fst : fd = a
    · simp [fst, show a ≠ b by omega]
    · simp [fst, snd]

/-- `process_pipe` succeeds on a free slot of the table of pipes and two free descriptors. -/
theorem processPipe_made_iff (live : k.Live p) :
    (processPipe k p).2.2 ≠ none ↔ k.PipeSlot ∧ 2 ≤ (k.freeFds p).card := by
  constructor
  · intro made
    obtain ⟨⟨a, b⟩, ends⟩ := Option.ne_none_iff_exists'.mp made
    have takes := processPipe_takes live ends
    refine ⟨?_, Finset.one_lt_card.mpr ⟨a, takes.fst, b, takes.snd, takes.apart⟩⟩
    unfold processPipe at ends
    split at ends
    · cases ends
    · rename_i i found
      exact ⟨i, List.mem_range.mp (List.mem_of_find?_eq_some found), by
        simpa using List.find?_some found⟩
  · rintro ⟨⟨i, bound, unused⟩, two⟩
    -- the lower of two free descriptors is found first, and leaves the higher one
    have lower : ∃ a b, a < b ∧ a ∈ k.freeFds p ∧ b ∈ k.freeFds p := by
      obtain ⟨a, ha, b, hb, apart⟩ := Finset.one_lt_card.mp two
      rcases Nat.lt_or_gt_of_ne apart with lt | gt
      · exact ⟨a, b, lt, ha, hb⟩
      · exact ⟨b, a, gt, hb, ha⟩
    obtain ⟨a, b, lt, ha, hb⟩ := lower
    rw [mem_freeFds] at ha hb
    obtain ⟨r, first, below⟩ := findFreeFd_exists ha.1.1 ha.1.2 ha.2
    have higher : r + 1 ≤ b := by omega
    obtain ⟨w, second, -⟩ := findFreeFd_exists higher hb.1.2 hb.2
    unfold processPipe
    split
    · rename_i full
      have := List.find?_eq_none.mp full i (List.mem_range.mpr bound)
      simp [unused] at this
    · rename_i j _
      have same : ∀ start, findFreeFd (k.setPipe j pipeCreate) p start = findFreeFd k p start :=
        fun _ => rfl
      simp [same, first, second]

theorem processPipe_failed (failed : (processPipe k p).2.2 = none) : SameOpen p k (processPipe k p).1 := by
  rcases processPipe_cases k p with ⟨same, -⟩ | ⟨i, a, b, -, -, ends, -⟩
  · exact .of_eq (congrFun same p)
  · rw [ends] at failed
    cases failed

def fdsOf (pipes : List (Nat × Nat)) : List Nat := pipes.flatMap fun ends => [ends.1, ends.2]

/-- After some pipes were opened: what is in use was in use before or is an end of these. -/
structure Opened (p : Nat) (k : Kernel) (pipes : List (Nat × Nat)) (k' : Kernel) : Prop where
  live : k'.Live p
  free : ∀ fd ∈ fdsOf pipes, fd ∈ k.freeFds p
  used : ∀ fd, ((k'.procs p).fds fd).used = true ↔ ((k.procs p).fds fd).used = true ∨ fd ∈ fdsOf pipes
  card : (k'.freeFds p).card + 2 * pipes.length = (k.freeFds p).card

theorem Opened.start (live : k.Live p) : Opened p k [] k :=
  ⟨live, by simp [fdsOf], by simp [fdsOf], by simp⟩

theorem Opened.same {k'' : Kernel} {pipes : List (Nat × Nat)} (o : Opened p k pipes k')
    (same : SameOpen p k' k'') : Opened p k pipes k'' :=
  ⟨same.live o.live, o.free, fun fd => by rw [same.used]; exact o.used fd,
    by rw [same.freeFds]; exact o.card⟩

theorem Opened.takes {k'' : Kernel} {pipes : List (Nat × Nat)} {a b : Nat} (o : Opened p k pipes k')
    (t : Takes p a b k' k'') : Opened p k (pipes ++ [(a, b)]) k'' := by
  have unused : ∀ fd, fd ∈ k'.freeFds p → fd ∈ k.freeFds p := by
    intro fd free
    rw [mem_freeFds] at free ⊢
    have used := o.used fd
    rw [free.2] at used
    refine ⟨free.1, ?_⟩
    cases before : ((k.procs p).fds fd).used with
    | false => rfl
    | true => simp [before] at used
  refine ⟨t.live o.live, ?_, ?_, ?_⟩
  · intro fd mem
    simp only [fdsOf, List.flatMap_append, List.mem_append, List.flatMap_cons, List.flatMap_nil,
      List.append_nil, List.mem_cons, List.not_mem_nil, or_false] at mem
    rcases mem with before | rfl | rfl
    · exact o.free fd before
    · exact unused _ t.fst
    · exact unused _ t.snd
  · intro fd
    rw [t.used, o.used]
    simp [fdsOf, or_assoc]
  · have taken := t.card
    have before := o.card
    rw [List.length_append, List.length_singleton]
    omega

variable (run : PipelineRun p)

/-- The `i`-th `sys_pipe` finds what it needs. -/
def PipelineRun.Served (k : Kernel) (i : Nat) : Prop :=
  (atPipe run i k).PipeSlot ∧ 2 * (i + 1) ≤ (k.freeFds p).card

/-- The loop over `sys_pipe` opens all pipes, or some and then stops at one it cannot have. -/
theorem openPipes_cases (live : k.Live p) (n : Nat) :
    (∃ pipes, (openPipes run n k).2 = some pipes ∧ pipes.length = n ∧
      Opened p k pipes (openPipes run n k).1 ∧
      (run.beforePipe n).act (openPipes run n k).1 = atPipe run n k ∧ ∀ i < n, run.Served k i) ∨
    ∃ pipes, (openPipes run n k).2 = none ∧ pipes.length < n ∧
      Opened p k pipes (openPipes run n k).1 ∧ ¬ run.Served k pipes.length ∧
      ∀ i < pipes.length, run.Served k i := by
  induction n with
  | zero => exact .inl ⟨[], rfl, rfl, .start live, rfl, by simp⟩
  | succ n ih =>
    rcases ih with ⟨pipes, made, length, opened, same, served⟩ | ⟨pipes, failed, short, rest⟩
    · have reached : Opened p k pipes (atPipe run n k) := by
        rw [← same]
        exact opened.same ((run.beforePipe n).leaves _ opened.live)
      have needs := processPipe_made_iff reached.live
      have card := reached.card
      have eq : openPipes run (n + 1) k =
          match processPipe (atPipe run n k) p with
          | (k, _, none) => (k, none)
          | (k, _, some ends) => (k, some (pipes ++ [ends])) := by
        have pair : openPipes run n k = ((openPipes run n k).1, some pipes) := Prod.ext rfl made
        rw [openPipes, pair]
        simp only [same]
      cases result : processPipe (atPipe run n k) p with
      | mk k' rest =>
        obtain ⟨code, ends⟩ := rest
        rw [result] at eq needs
        cases ends with
        | none =>
          have failed := processPipe_failed (k := atPipe run n k) (p := p) (by rw [result])
          rw [result] at failed
          refine .inr ⟨pipes, by rw [eq], by omega, by rw [eq]; exact reached.same failed, ?_, ?_⟩
          · rw [length]
            rintro ⟨slot, enough⟩
            exact needs.mpr ⟨slot, by omega⟩ rfl
          · rw [length]
            exact served
        | some ends =>
          obtain ⟨a, b⟩ := ends
          have takes := processPipe_takes (a := a) (b := b) reached.live (by rw [result])
          have got := needs.mp (by simp)
          refine .inl ⟨pipes ++ [(a, b)], by rw [eq], by simp [length], ?_, ?_, ?_⟩
          · rw [eq]
            rw [result] at takes
            exact reached.takes takes
          · rw [eq, atPipe, result]
          · intro i below
            rcases Nat.lt_succ_iff_lt_or_eq.mp below with earlier | rfl
            · exact served i earlier
            · exact ⟨got.1, by omega⟩
    · have stays : openPipes run (n + 1) k = ((openPipes run n k).1, none) := by
        have pair : openPipes run n k = ((openPipes run n k).1, none) := Prod.ext rfl failed
        rw [openPipes, pair]
      rw [stays]
      exact .inr ⟨pipes, rfl, by omega, rest⟩

theorem closeEnd_used (live : k.Live p) {fd : Nat} (bound : fd < maxFds) :
    (closeEnd run k fd).Live p ∧ ∀ fd', (((closeEnd run k fd).procs p).fds fd').used = true ↔
      ((k.procs p).fds fd').used = true ∧ fd' ≠ fd := by
  have before := (run.beforeClose fd).leaves k live
  refine ⟨(before.live live).keep (processClose_lives _ p fd), fun fd' => ?_⟩
  rw [← before.used fd']
  unfold closeEnd processClose
  simp only
  split
  · rename_i refused
    have unused := refused.resolve_left (by omega)
    by_cases same : fd' = fd
    · subst same; simp [unused]
    · simp [same]
  · rw [setFd_fds, vnodeClose_procs]
    by_cases same : fd' = fd
    · simp [same]
    · simp [same]

theorem closePipes_used (pipes : List (Nat × Nat)) (bound : ∀ fd ∈ fdsOf pipes, fd < maxFds)
    (live : k.Live p) :
    (closePipes run pipes k).Live p ∧ ∀ fd, (((closePipes run pipes k).procs p).fds fd).used = true ↔
      ((k.procs p).fds fd).used = true ∧ fd ∉ fdsOf pipes := by
  induction pipes generalizing k with
  | nil => exact ⟨live, fun fd => by simp [closePipes, fdsOf]⟩
  | cons ends pipes ih =>
    have mem : ∀ fd, fd ∈ fdsOf (ends :: pipes) ↔ fd = ends.1 ∨ fd = ends.2 ∨ fd ∈ fdsOf pipes := by
      intro fd
      simp [fdsOf]
    obtain ⟨live₁, first⟩ := closeEnd_used run live (bound ends.1 ((mem _).mpr (.inl rfl)))
    obtain ⟨live₂, second⟩ := closeEnd_used run live₁ (bound ends.2 ((mem _).mpr (.inr (.inl rfl))))
    obtain ⟨live₃, rest⟩ := ih (fun fd h => bound fd ((mem fd).mpr (.inr (.inr h)))) live₂
    refine ⟨live₃, fun fd => ?_⟩
    rw [mem fd]
    apply (rest fd).trans
    rw [second, first]
    tauto

end Pipes

section Whole

variable {p : Nat} {k k' : Kernel} (run : PipelineRun p)

theorem awaitChild_same (live : k.Live p) {pid : Int} {naps : List (Elsewhere p)}
    (back : awaitChild p pid naps k = some k') : SameOpen p k k' := by
  induction naps generalizing k with
  | nil => cases back
  | cons e rest ih =>
    have awake := e.leaves k live
    have scanned := processWaitpid_same (awake.live live) p pid
    rw [awaitChild] at back
    split at back
    · rename_i k₁ slept
      rw [slept] at scanned
      have asleep := awake.trans scanned
      exact asleep.trans (ih (asleep.live live) back)
    · rename_i k₁ _ _ told
      rw [told] at scanned
      cases back
      exact awake.trans scanned

theorem builtinCall_same (live : k.Live p) {c : BuiltinCall p} (back : builtinCall k c = some k') :
    SameOpen p k k' := by
  cases c with
  | exit => cases back
  | chdir cwd =>
    cases back
    exact .setProc p p k (f := fun x => { x with cwd := cwd }) (fun _ => rfl) (fun _ => rfl) (fun _ => rfl)
  | kill pid sig =>
    obtain ⟨r, sent, stays⟩ := Option.bind_eq_some_iff.mp back
    split at stays
    · cases stays
    · rename_i awake
      cases stays
      exact sysKill_same sent (Bool.not_eq_true _ ▸ awake)
  | waitpid pid naps => exact awaitChild_same live back
  | elsewhere e =>
    cases back
    exact e.leaves k live

theorem foldlM_same {A : Type} (call : Kernel → A → Option Kernel)
    (same : ∀ k a k', k.Live p → call k a = some k' → SameOpen p k k') (as : List A) (live : k.Live p)
    (back : as.foldlM call k = some k') : SameOpen p k k' := by
  induction as generalizing k with
  | nil =>
    cases back
    exact .refl p _
  | cons a as ih =>
    rw [List.foldlM_cons] at back
    obtain ⟨k₁, first, rest⟩ := Option.bind_eq_some_iff.mp back
    have step := same k a k₁ live first
    exact step.trans (ih (step.live live) rest)

theorem waitStage_same (k : Kernel) (pid : Int) (k' : Kernel) (live : k.Live p)
    (back : waitStage run k pid = some k') : SameOpen p k k' := by
  unfold waitStage at back
  split at back
  · cases back
    exact .refl p k
  · exact awaitChild_same live back

theorem forkStages_same (live : k.Live p) (n : Nat) {r : Kernel × List Int}
    (back : forkStages run n k = some r) : SameOpen p k r.1 := by
  induction n generalizing r with
  | zero =>
    cases back
    exact .refl p k
  | succ n ih =>
    rw [forkStages] at back
    split at back
    · cases back
    · rename_i k₁ pids before
      have same := ih before
      have other := (run.beforeFork n).leaves k₁ (same.live live)
      simp only at back
      split at back
      · cases back
      · cases back
        exact same.trans (other.trans (doFork_same (other.live (same.live live)) _ _))

/-- Past the builtins: everything that was opened is closed again, unless a pipe is refused
after another was made. -/
theorem runStages_same_iff (live : k.Live p) {n : Nat} {background : Bool}
    (back : runStages run n background k = some k') :
    (∀ fd, ((k'.procs p).fds fd).used = ((k.procs p).fds fd).used) ↔
      (∀ i, i + 1 < n → run.Served k i) ∨ ¬ run.Served k 0 := by
  rcases openPipes_cases run live (n - 1) with
    ⟨pipes, made, -, opened, -, served⟩ | ⟨pipes, failed, short, opened, refused, served⟩
  · have pair : openPipes run (n - 1) k = ((openPipes run (n - 1) k).1, some pipes) := Prod.ext rfl made
    rw [runStages, pair] at back
    obtain ⟨⟨k₁, pids⟩, forked, rest⟩ := Option.bind_eq_some_iff.mp back
    have forks := forkStages_same run opened.live n forked
    obtain ⟨live₂, closed⟩ := closePipes_used run pipes
      (fun fd mem => (mem_freeFds.mp (opened.free fd mem)).1.2) (forks.live opened.live)
    have waited : SameOpen p (closePipes run pipes k₁) k' := by
      split at rest
      · cases rest
        exact .refl p _
      · exact foldlM_same (waitStage run) (waitStage_same run) pids live₂ rest
    refine iff_of_true (fun fd => ?_) (.inl fun i below => served i (by omega))
    rw [waited.used, Bool.eq_iff_iff, closed, forks.used, opened.used]
    constructor
    · rintro ⟨used | mem, outside⟩
      · exact used
      · exact absurd mem outside
    · intro used
      refine ⟨.inl used, fun mem => ?_⟩
      rw [(mem_freeFds.mp (opened.free fd mem)).2] at used
      cases used
  · have pair : openPipes run (n - 1) k = ((openPipes run (n - 1) k).1, none) := Prod.ext rfl failed
    rw [runStages, pair] at back
    cases back
    cases pipes with
    | nil =>
      refine iff_of_true (fun fd => ?_) (.inr refused)
      rw [Bool.eq_iff_iff, opened.used]
      simp [fdsOf]
    | cons ends pipes =>
      -- the first end of the first pipe stays open
      apply iff_of_false
      · intro same
        have mem : ends.1 ∈ fdsOf (ends :: pipes) := by simp [fdsOf]
        have used := (opened.used ends.1).mpr (.inr mem)
        rw [same, (mem_freeFds.mp (opened.free ends.1 mem)).2] at used
        cases used
      · rintro (all | first)
        · exact refused (all _ (by omega))
        · exact first (served 0 (by simp))

/-- A call of `run_pipeline` that returns leaves the shell with the descriptors it had, exactly
when every `sys_pipe` or not even the first finds a pipe and two descriptors. -/
theorem no_descriptor_leak_iff (stages : List Stage) (background : Bool) (live : k.Live p)
    (returns : runPipeline run stages background k = some k') :
    (∀ fd, ((k'.procs p).fds fd).used = ((k.procs p).fds fd).used) ↔
      (∀ i, i + 1 < stages.length → run.Served k i) ∨ ¬ run.Served k 0 := by
  unfold runPipeline at returns
  split at returns
  · rename_i s
    have alone : ∀ i, i + 1 < [s].length → run.Served k i := by simp
    unfold runBuiltin at returns
    by_cases empty : s.argc = 0
    · simp only [empty, if_true, Option.some.injEq] at returns
      subst returns
      exact iff_of_true (fun _ => rfl) (.inl alone)
    · cases word : run.builtin with
      | none =>
        simp only [empty, if_false, word, Option.map_none] at returns
        exact runStages_same_iff run live returns
      | some calls =>
        simp only [empty, if_false, word, Option.map_some] at returns
        have handled := foldlM_same builtinCall (fun k c k' live => builtinCall_same live) calls live returns
        exact iff_of_true handled.used (.inl alone)
  · exact runStages_same_iff run live returns

end Whole

/-- Nothing else happens between the calls. -/
def idle (p : Nat) : Elsewhere p := ⟨id, fun k _ => .refl p k⟩

def quietRun : PipelineRun 0 where
  builtin := none
  beforePipe := fun _ => idle 0
  beforeFork := fun _ => idle 0
  beforeClose := fun _ => idle 0
  beforeWait := fun _ => []
  frame := fun _ => (0#64, zeroFrameRegs)

/-- The shell has the console open three times, and no process can be made. -/
def crowdedShell : Kernel :=
  { fullHouse with
    procs := fun i =>
      { fullHouse.procs i with fds := fun fd => { FdEntry.zero with used := decide (fd < 3) } } }

def plainStage : Stage := ⟨fun _ => none, 1, none, none⟩

theorem crowdedShell_live : crowdedShell.Live 0 := ⟨by decide, by decide, by decide⟩

theorem two_stages_leave_none :
    ∃ k', runPipeline quietRun [plainStage, plainStage] true crowdedShell = some k' ∧
      ((∀ fd, ((k'.procs 0).fds fd).used = ((crowdedShell.procs 0).fds fd).used) ↔
        (∀ i, i + 1 < 2 → quietRun.Served crowdedShell i) ∨ ¬ quietRun.Served crowdedShell 0) := by
  have returns : (runPipeline quietRun [plainStage, plainStage] true crowdedShell).isSome := by
    decide +kernel
  obtain ⟨k', back⟩ := Option.isSome_iff_exists.mp returns
  exact ⟨k', back, no_descriptor_leak_iff quietRun [plainStage, plainStage] true crowdedShell_live back⟩

/-- Eight stages need fourteen descriptors, and a shell has thirteen: twelve stay open. -/
theorem eighth_stage_leaks :
    ∃ k', runPipeline quietRun (List.replicate maxStages plainStage) false crowdedShell = some k' ∧
      (∀ fd, fd < 15 → ((k'.procs 0).fds fd).used = true) ∧
      ¬ ∀ fd, ((k'.procs 0).fds fd).used = ((crowdedShell.procs 0).fds fd).used := by
  have returns : ((runPipeline quietRun (List.replicate maxStages plainStage) false crowdedShell).map
      fun k : Kernel => (List.range 15).all fun fd => ((k.procs 0).fds fd).used) = some true := by
    decide +kernel
  obtain ⟨k', back, used⟩ := Option.map_eq_some_iff.mp returns
  have full : ∀ fd, fd < 15 → ((k'.procs 0).fds fd).used = true := by
    simpa using used
  refine ⟨k', back, full, fun same => ?_⟩
  have third := same 3
  rw [full 3 (by decide)] at third
  exact absurd third (by decide)

end Isunux
