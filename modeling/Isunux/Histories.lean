import Isunux.Lives
import Isunux.Runs
import Isunux.Scheduling

/-! What a step of the machine does to the table of processes, as far as pids, parents
and states go: nothing, a new child, or a change to one process that can be written down
as a note. Everything about families and about `process_waitpid` follows from that. -/
namespace Isunux

/-- What the flags of a process say about its life. -/
def Process.life (p : Process) : Life :=
  if p.isZombie then .dead p.exitCode else if p.isStopped then .stopped p.stopReported else .alive

/-- A signal, as far as a parent can learn of it. -/
def signalNotes (pid : Int) (sig : Nat) : List Note :=
  if sig = sigkill ∨ sig = sigterm ∨ sig = sigint then [.fatal pid (encodeSignaled sig)]
  else if sig = sigtstp then [.suspend pid]
  else if sig = sigcont then [.resume pid]
  else []

/-- A signal to each of these pids that is in the table. -/
def heard (k : Kernel) (sig : Nat) (pids : List Int) : List Note :=
  pids.flatMap fun pid => if (processFindByPid k pid).isSome then signalNotes pid sig else []

/-- `process_alloc` gives out the next pid. -/
def bornNotes (k : Kernel) (parent : Int) : List Note :=
  if (processAlloc k parent).2.isSome then [.born parent k.nextPid] else []

section History

variable {σ : Type} (tree : FileTree σ)

def syscallNotes (k : Kernel) (p : Nat) : Syscall → List Note
  | .exit code => [.fatal (k.procs p).pid (encodeExited code)]
  | .kill pid sig => if (sysKill k pid sig).isSome then heard k sig [pid] else []
  | .fork _ _ => bornNotes k (k.procs p).pid
  | _ => []

/-- What happens to processes at an event, before any answer. -/
def eventNotes (w : World σ) : Event σ → List Note
  | .fault =>
    match w.kernel.currentProcess, (w.kernel.tasks w.kernel.current).state with
    | some p, .running => [.fatal (w.kernel.procs p).pid (encodeSignaled sigsegv)]
    | _, _ => []
  | .spawn _ _ _ _ _ =>
    match w.kernel.currentProcess with
    | some _ => []
    | none => bornNotes w.kernel 0
  | .scancode sc =>
    match (keyboardHandleScancode w.keyboard sc).2 with
    | .signal sig =>
      if (processSignalForeground w.kernel w.foreground sig).isSome then heard w.kernel sig w.foreground
      else []
    | _ => []
  | .syscall c =>
    match w.kernel.currentProcess, (w.kernel.tasks w.kernel.current).state,
        w.calls w.kernel.current with
    | some p, .running, none => syscallNotes w.kernel p c
    | _, _, _ => []
  | _ => []

/-- The process that an event lets scan for children, and for whom it looks. -/
def waiter (w : World σ) : Event σ → Option (Nat × Int)
  | .syscall (.waitpid target) =>
    match w.kernel.currentProcess, (w.kernel.tasks w.kernel.current).state,
        w.calls w.kernel.current with
    | some p, .running, none => some (p, target)
    | _, _, _ => none
  | .resume =>
    match (w.kernel.tasks w.kernel.current).state, w.calls w.kernel.current with
    | .running, some (.waitpid self target) => some (self, target)
    | _, _ => none
  | _ => none

def answerNotes (w : World σ) (e : Event σ) (a : Answer) : List Note :=
  match waiter w e, a with
  | some (self, target), .waited pid status => [.waited (w.kernel.procs self).pid target pid status]
  | _, _ => []

end History

/-- What `process_waitpid` reads of a process. -/
def Process.status (p : Process) : Int × Int × Nat × Bool × Bool × Nat × Bool :=
  (p.pid, p.parentPid, p.exitCode, p.isZombie, p.isStopped, p.stopSignal, p.stopReported)

/-- Neither pids nor anything a parent can learn changes. -/
structure Unheard (k k' : Kernel) : Prop where
  nextPid : k'.nextPid = k.nextPid
  procs : ∀ p, (k'.procs p).status = (k.procs p).status

/-- What `process_waitpid` may answer about a process. -/
def Said (p : Process) : Note → Prop
  | .waited parent target _ status =>
    p.parentPid = parent ∧ (target = -1 ∨ p.pid = target) ∧
      (p.life = .dead status ∨
        p.life = .stopped false ∧ p.isStopped = true ∧ status = encodeStopped p.stopSignal)
  | _ => True

/-- One process has changed in the way a note tells. -/
structure Noted (k k' : Kernel) (p : Nat) (x : Note) : Prop where
  occupied : (k.procs p).pid ≠ 0
  alone : ∀ q, (k.procs q).pid = (k.procs p).pid → q = p
  old : (k.procs p).pid < k.nextPid
  about : x.pid = (k.procs p).pid
  nextPid : k'.nextPid = k.nextPid
  others : ∀ q, q ≠ p → (k'.procs q).status = (k.procs q).status
  now : (k'.procs p).pid ≠ 0 → (k'.procs p).pid = (k.procs p).pid ∧
    (k'.procs p).parentPid = (k.procs p).parentPid ∧ (k'.procs p).life = (k.procs p).life.on x ∧
    ((k'.procs p).isStopped = true → (k'.procs p).stopSignal = sigtstp ∨
      (k.procs p).isStopped = true ∧ (k'.procs p).stopSignal = (k.procs p).stopSignal)
  gone : (k'.procs p).pid = 0 → (k.procs p).isZombie = true
  said : Said (k.procs p) x

/-- What happens to the table of processes, with the notes. -/
inductive Moves : Kernel → Kernel → List Note → Prop where
  | unheard {k k' : Kernel} (same : Unheard k k') : Moves k k' []
  | noted {k k' : Kernel} {p : Nat} {x : Note} (one : Noted k k' p x) : Moves k k' [x]
  | born {k : Kernel} {parent : Int} {i : Nat} (slot : (processAlloc k parent).2 = some i)
      (whose : parent = 0 ∨ ∃ q, k.Live q ∧ (k.procs q).pid = parent) :
      Moves k (processAlloc k parent).1 [.born parent k.nextPid]
  | trans {k k' k'' : Kernel} {xs ys : List Note} (first : Moves k k' xs) (second : Moves k' k'' ys) :
      Moves k k'' (xs ++ ys)

section Moves

variable {k k' : Kernel}

theorem Process.status_eq {a b : Process} (h : a.status = b.status) :
    a.pid = b.pid ∧ a.parentPid = b.parentPid ∧ a.isStopped = b.isStopped ∧
      a.stopSignal = b.stopSignal ∧ a.life = b.life := by
  simp only [Process.status, Prod.mk.injEq] at h
  obtain ⟨pid, parent, code, zombie, stopped, signal, told⟩ := h
  exact ⟨pid, parent, stopped, signal, by simp only [Process.life, code, zombie, stopped, told]⟩

theorem Process.status_of_core {a b : Process} (h : a.core = b.core) : a.status = b.status := by
  obtain ⟨-, -, pid, parent, code, zombie, stopped, signal, told, -⟩ := Process.core_eq h
  simp only [Process.status, pid, parent, code, zombie, stopped, signal, told]

theorem Quiet.unheard (q : Quiet k k') : Unheard k k' :=
  ⟨q.nextPid, fun p => Process.status_of_core (q.procs p)⟩

theorem Unheard.trans {k'' : Kernel} (h : Unheard k k') (h' : Unheard k' k'') : Unheard k k'' :=
  ⟨h'.nextPid.trans h.nextPid, fun p => (h'.procs p).trans (h.procs p)⟩

theorem Unheard.of_procs (nextPid : k'.nextPid = k.nextPid) (procs : k'.procs = k.procs) : Unheard k k' :=
  ⟨nextPid, fun _ => by rw [procs]⟩

theorem Moves.refl (k : Kernel) : Moves k k [] := .unheard (.of_procs rfl rfl)

theorem Moves.quietly {k'' : Kernel} {xs : List Note} (m : Moves k k' xs) (u : Unheard k' k'') :
    Moves k k'' xs := by
  simpa using m.trans (.unheard u)

theorem Noted.of_ordered {p : Nat} {x : Note} (o : Ordered k) (occupied : (k.procs p).pid ≠ 0)
    (about : x.pid = (k.procs p).pid) (nextPid : k'.nextPid = k.nextPid)
    (others : ∀ q, q ≠ p → (k'.procs q).status = (k.procs q).status)
    (now : (k'.procs p).pid ≠ 0 → (k'.procs p).pid = (k.procs p).pid ∧
      (k'.procs p).parentPid = (k.procs p).parentPid ∧ (k'.procs p).life = (k.procs p).life.on x ∧
      ((k'.procs p).isStopped = true → (k'.procs p).stopSignal = sigtstp ∨
        (k.procs p).isStopped = true ∧ (k'.procs p).stopSignal = (k.procs p).stopSignal))
    (gone : (k'.procs p).pid = 0 → (k.procs p).isZombie = true) (said : Said (k.procs p) x) :
    Noted k k' p x :=
  ⟨occupied, fun q same => o.unique q p (same ▸ occupied) same, (o.pids p).2, about, nextPid, others, now,
    gone, said⟩

theorem Moves.edited (o : Ordered k) {p u : Nat} {f : Process → Process} {s : TaskState} {x : Note}
    (e : Edited k k' p f u s) (occupied : (k.procs p).pid ≠ 0) (about : x.pid = (k.procs p).pid)
    (pid : (f (k.procs p)).pid = (k.procs p).pid)
    (parent : (f (k.procs p)).parentPid = (k.procs p).parentPid)
    (life : (f (k.procs p)).life = (k.procs p).life.on x)
    (signal : (f (k.procs p)).isStopped = true → (f (k.procs p)).stopSignal = sigtstp ∨
      (k.procs p).isStopped = true ∧ (f (k.procs p)).stopSignal = (k.procs p).stopSignal)
    (said : Said (k.procs p) x) : Moves k k' [x] := by
  obtain ⟨pid', parent', stopped', signal', life'⟩ := Process.status_eq (Process.status_of_core e.proc)
  refine .noted (Noted.of_ordered o occupied about e.nextPid
    (fun q h => Process.status_of_core (e.procs q h)) (fun _ => ?_) (fun free => ?_) said)
  · rw [pid', parent', stopped', signal', life']
    exact ⟨pid, parent, life, signal⟩
  · rw [pid', pid] at free
    exact absurd free occupied

theorem Moves.terminate (o : Ordered k) {p : Nat} (live : k.Live p) (u code : Nat) :
    Moves k (processTerminate k p u code) [.fatal (k.procs p).pid code] := by
  refine .edited o (processTerminate_edited k p u code) live.pid rfl rfl rfl ?_
    (fun stopped => .inr ⟨stopped, rfl⟩) trivial
  have awake := live.awake
  cases stopped : (k.procs p).isStopped <;> simp [Process.life, Process.ended, Life.on, awake, stopped]

theorem Moves.idle (o : Ordered k) {p : Nat} {x : Note} (occupied : (k.procs p).pid ≠ 0)
    (about : x.pid = (k.procs p).pid) (same : (k.procs p).life.on x = (k.procs p).life)
    (said : Said (k.procs p) x) : Moves k k [x] :=
  .noted (.of_ordered o occupied about rfl (fun _ _ => rfl)
    (fun _ => ⟨rfl, rfl, same.symm, fun stopped => .inr ⟨stopped, rfl⟩⟩) (fun free => absurd free occupied) said)

theorem Moves.alloc (k : Kernel) {parent : Int}
    (whose : parent = 0 ∨ ∃ q, k.Live q ∧ (k.procs q).pid = parent) :
    Moves k (processAlloc k parent).1 (bornNotes k parent) := by
  cases slot : (processAlloc k parent).2 with
  | none =>
    rw [processAlloc_failed slot]
    simpa [bornNotes, slot] using Moves.refl k
  | some i => simpa [bornNotes, slot] using Moves.born slot whose

theorem Moves.signal (o : Ordered k) {target sig : Nat} {r : Kernel × SelfAction}
    (h : processSendSignal k target sig = some r) (occupied : (k.procs target).pid ≠ 0) :
    Moves k r.1 (signalNotes (k.procs target).pid sig) := by
  rcases processSendSignal_cases h with ⟨same, -, fatal, tstp, cont⟩ | ⟨u, task, awake, effect⟩
  · rw [same]
    unfold signalNotes
    split
    · rename_i sent
      exact .idle o occupied rfl (by simp [Process.life, fatal sent, Life.on]) trivial
    split
    · rename_i sent
      refine .idle o occupied rfl ?_ trivial
      rcases tstp sent with zombie | stopped
      · simp [Process.life, zombie, Life.on]
      · cases zombie : (k.procs target).isZombie <;> simp [Process.life, stopped, zombie, Life.on]
    split
    · rename_i sent
      refine .idle o occupied rfl ?_ trivial
      rcases cont sent with zombie | moving
      · simp [Process.life, zombie, Life.on]
      · cases zombie : (k.procs target).isZombie <;> simp [Process.life, moving, zombie, Life.on]
    · exact .refl k
  · rcases effect with ⟨sent, edited, -⟩ | ⟨sent, moving, edited, -⟩ | ⟨sent, stopped, edited, -⟩
    · have notes_eq : signalNotes (k.procs target).pid sig =
          [.fatal (k.procs target).pid (encodeSignaled sig)] := if_pos sent
      rw [notes_eq]
      refine .edited o edited occupied rfl rfl rfl ?_ (fun stopped => .inr ⟨stopped, rfl⟩) trivial
      cases stopped : (k.procs target).isStopped <;>
        simp [Process.life, Process.ended, Life.on, awake, stopped]
    · subst sent
      refine .edited o edited occupied rfl rfl rfl ?_ (fun _ => .inl rfl) trivial
      simp [Process.life, Process.suspended, Life.on, awake, moving]
    · subst sent
      refine .edited o edited occupied rfl rfl rfl ?_ (fun h => by cases h) trivial
      simp [Process.life, Process.continued, Life.on, awake, stopped]

theorem Process.isChild_iff {self p : Process} {target : Int} :
    self.isChild target p = true ↔ p.pid ≠ 0 ∧ p.parentPid = self.pid ∧ (target = -1 ∨ p.pid = target) := by
  simp [Process.isChild]

theorem Moves.waitpid (o : Ordered k) (self : Nat) (target : Int) :
    Moves k (processWaitpid k self target).1
      (match (processWaitpid k self target).2 with
        | .reports pid status => [.waited (k.procs self).pid target pid status]
        | _ => []) := by
  unfold processWaitpid
  rcases waitScan_cases k self target (List.range maxProcesses) false with
    ⟨i, -, child, zombie, eq⟩ | ⟨i, -, child, awake, stopped, unreported, eq⟩ | ⟨eq, -⟩
  · obtain ⟨occupied, parent, matching⟩ := Process.isChild_iff.mp child
    rw [eq]
    refine .noted (.of_ordered o occupied rfl rfl (fun q h => ?_) (fun h => absurd ?_ h) (fun _ => zombie)
      ⟨parent, matching, .inl ?_⟩)
    · simp [reap, Kernel.setProc, h]
    · simp [reap, Kernel.setProc, Process.zero]
    · rw [Process.life, if_pos zombie]
  · obtain ⟨occupied, parent, matching⟩ := Process.isChild_iff.mp child
    have told : (k.procs i).life = .stopped false := by
      simp [Process.life, awake, stopped, unreported]
    rw [eq]
    refine .noted (.of_ordered o occupied rfl rfl (fun q h => ?_) (fun _ => ?_) (fun free => ?_)
      ⟨parent, matching, .inr ⟨told, stopped, rfl⟩⟩)
    · simp [Kernel.setProc, h]
    · rw [told]
      simp [Kernel.setProc, Process.life, awake, stopped, Life.on]
    · exact absurd (by simpa [Kernel.setProc] using free) occupied
  · rw [eq]
    split <;> exact .refl k

end Moves

theorem yield_unheard (k : Kernel) : Unheard k (yield k) := by
  refine Unheard.of_procs ?_ (yield_rest k).2.1
  unfold yield
  simp only
  split <;> split <;> (try split) <;> rfl

theorem afterAction_unheard (k : Kernel) (a : SelfAction) : Unheard k (afterAction k a) := by
  cases a with
  | nothing => exact (Quiet.refl k).unheard
  | unknown => exact (Quiet.refl k).unheard
  | terminated => exact yield_unheard k
  | stopped => exact yield_unheard k

section Events

variable {σ : Type} (tree : FileTree σ) {w : World σ}

theorem sleep_unheard (k : Kernel) (c : Chan) : Unheard k (yield (taskSleep k c)) := by
  have marked : Unheard k (taskSleep k c) := Unheard.of_procs rfl rfl
  exact marked.trans (yield_unheard _)

theorem advance_unheard (k : Kernel) (p fd : Nat) (n : Int) : Unheard k (advance k p fd n) := by
  unfold advance
  split
  · exact (setFd_quiet k p fd _).unheard
  · exact (Quiet.refl k).unheard

theorem pipeSegment_unheard (k : Kernel) (i : Nat) (q : Pipe) (wake : Bool) :
    Unheard k (if wake then taskWake (k.setPipe i q) (.pipe i) else k.setPipe i q) := by
  split
  · exact ((setPipe_quiet k i q).trans (taskWake_quiet _ _)).unheard
  · exact (setPipe_quiet k i q).unheard

/-- What a segment of a call tells. -/
def callNotes (k : Kernel) : Call → Answer → List Note
  | .waitpid self target, .waited pid status => [.waited (k.procs self).pid target pid status]
  | _, _ => []

theorem runCall_moves (o : Ordered w.kernel) (c : Call) :
    Moves w.kernel (runCall w c).1.kernel (callNotes w.kernel c (runCall w c).2) := by
  cases c with
  | pipeRead p fd i count =>
    simp only [callNotes]
    refine .unheard ?_
    simp only [runCall]
    have seg := pipeSegment_unheard w.kernel i (pipeRead (w.kernel.pipes i) count).pipe
      (pipeRead (w.kernel.pipes i) count).wake
    split
    · exact seg.trans (sleep_unheard _ _)
    · exact seg.trans (advance_unheard _ p fd _)
  | pipeWrite p fd i src count n =>
    simp only [callNotes]
    refine .unheard ?_
    simp only [runCall]
    have seg := pipeSegment_unheard w.kernel i (pipeWrite (w.kernel.pipes i) src count n).pipe
      (pipeWrite (w.kernel.pipes i) src count n).wake
    split
    · exact seg.trans (sleep_unheard _ _)
    · exact seg.trans (advance_unheard _ p fd _)
  | waitpid self target =>
    have told := Moves.waitpid o self target
    simp only [runCall]
    cases ends : (processWaitpid w.kernel self target).2 with
    | sleeps =>
      rw [ends] at told
      simp only [callNotes]
      exact told.quietly (sleep_unheard _ _)
    | noChild =>
      rw [ends] at told
      exact told
    | reports pid status =>
      rw [ends] at told
      exact told
  | keyboardRead fd count =>
    simp only [callNotes]
    refine .unheard ?_
    simp only [runCall]
    split
    · exact sleep_unheard _ _
    · cases fd with
      | none => exact (Quiet.refl _).unheard
      | some x => exact advance_unheard _ _ _ _

theorem runTransfer_moves (o : Ordered w.kernel) (p fd : Nat) (x : Transfer)
    (other : Int) (pipes : Vnode → Option Call) (console : Option Call)
    (mute : ∀ c a, (∃ v, pipes v = some c) ∨ console = some c → callNotes w.kernel c a = []) :
    Moves w.kernel (runTransfer tree w p fd x other pipes console).1.kernel [] := by
  have call : ∀ c, (∃ v, pipes v = some c) ∨ console = some c →
      Moves w.kernel (runCall w c).1.kernel [] := by
    intro c from_
    have told := runCall_moves o c
    rwa [mute c _ from_] at told
  unfold runTransfer
  split
  · exact .refl _
  · exact .refl _
  · rename_i v _
    split
    · rename_i c found
      exact call c (.inl ⟨v, found⟩)
    · split
      · rename_i c found
        refine call c (.inr ?_)
        split at found
        · exact found
        · cases found
      · exact .unheard (advance_unheard _ p fd other)

theorem processSendSignal_pids {k : Kernel} {target sig : Nat} {r : Kernel × SelfAction}
    (h : processSendSignal k target sig = some r) (p : Nat) : (r.1.procs p).pid = (k.procs p).pid := by
  have edited : ∀ {f : Process → Process} {u : Nat} {s : TaskState}, Edited k r.1 target f u s →
      (f (k.procs target)).pid = (k.procs target).pid → (r.1.procs p).pid = (k.procs p).pid := by
    intro f u s e same
    by_cases h : p = target
    · subst h
      rw [(Process.core_eq e.proc).2.2.1, same]
    · rw [(Process.core_eq (e.procs p h)).2.2.1]
  rcases processSendSignal_cases h with ⟨same, -⟩ | ⟨u, -, -, ⟨-, e, -⟩ | ⟨-, -, e, -⟩ | ⟨-, -, e, -⟩⟩
  · rw [same]
  · exact edited e rfl
  · exact edited e rfl
  · exact edited e rfl

theorem heard_congr {k k' : Kernel} (same : ∀ p, (k'.procs p).pid = (k.procs p).pid) (sig : Nat)
    (pids : List Int) : heard k' sig pids = heard k sig pids := by
  have find : ∀ pid, processFindByPid k' pid = processFindByPid k pid := by
    intro pid
    unfold processFindByPid
    split
    · rfl
    · refine List.find?_congr fun i _ => ?_
      rw [same i]
  simp only [heard, find]

theorem heard_cons {k : Kernel} (sig : Nat) (pid : Int) (rest : List Int) :
    heard k sig (pid :: rest) =
      (if (processFindByPid k pid).isSome then signalNotes pid sig else []) ++ heard k sig rest := by
  simp [heard]

theorem signalEach_moves {sig : Nat} {kb : Keyboard} {calls : Nat → Option Call} (pids : List Int)
    {k : Kernel} (g : Good kb calls k) (self : SelfAction) {r : Kernel × SelfAction}
    (h : signalEach sig pids k self = some r) : Moves k r.1 (heard k sig pids) := by
  induction pids generalizing k self with
  | nil =>
    cases h
    exact .refl k
  | cons pid rest ih =>
    rw [heard_cons]
    unfold signalEach at h
    split at h
    · rename_i none
      rw [none]
      exact ih g self h
    · rename_i target found
      obtain ⟨bound, here, pos⟩ := processFindByPid_some found
      split at h
      · cases h
      · rename_i k' action sent
        have occupied : (k.procs target).pid ≠ 0 := by rw [here]; exact pos
        have told := Moves.signal g.ordered sent occupied
        rw [here] at told
        have rest_told := ih (g.signal bound occupied sent) _ h
        rw [heard_congr (processSendSignal_pids sent)] at rest_told
        rw [found]
        exact told.trans rest_told

theorem sysKill_moves {kb : Keyboard} {calls : Nat → Option Call} {k : Kernel} (g : Good kb calls k)
    {pid : Int} {sig : Nat} {r : Kernel × Int} (h : sysKill k pid sig = some r) :
    Moves k r.1 (heard k sig [pid]) := by
  unfold sysKill at h
  split at h
  · rename_i none
    cases h
    simpa [heard, none] using Moves.refl k
  · rename_i target found
    obtain ⟨bound, here, pos⟩ := processFindByPid_some found
    obtain ⟨x, sent, rfl⟩ := Option.map_eq_some_iff.mp h
    have told := Moves.signal g.ordered sent (by rw [here]; exact pos)
    rw [here] at told
    simpa [heard, found] using told.quietly (afterAction_unheard x.1 x.2)

theorem setProc_unheard (k : Kernel) (p : Nat) {f : Process → Process}
    (same : (f (k.procs p)).status = (k.procs p).status) : Unheard k (k.setProc p f) := by
  refine ⟨rfl, fun q => ?_⟩
  by_cases h : q = p
  · subst h; simpa [Kernel.setProc] using same
  · simp [Kernel.setProc, h]

theorem taskAllocRaw_unheard (k : Kernel) : Unheard k (taskAllocRaw k).1 := by
  refine Unheard.of_procs ?_ (taskAllocRaw_procs k)
  unfold taskAllocRaw
  split
  · rfl
  · split
    · rfl
    · rename_i t _
      have := (unlinkTaskFromRing_rest k t).1
      simp only
      split <;> exact this

theorem forkTask_unheard (k : Kernel) (child : Nat) (point : Word) (frame : TrapFrame) :
    Unheard k (forkTask k child point frame).1 := by
  have alloc := taskAllocRaw_unheard k
  unfold forkTask
  split
  · rename_i k' made
    rw [made] at alloc
    exact alloc
  · rename_i k' t made
    rw [made] at alloc
    refine alloc.trans ?_
    have linked : Unheard k' ((k'.setTask t fun x => { x with proc := some child }).setProc child fun c =>
        { c with task := some t }) := by
      refine ⟨rfl, fun q => ?_⟩
      by_cases h : q = child
      · subst h; simp [Kernel.setProc, Kernel.setTask, Process.status]
      · simp [Kernel.setProc, Kernel.setTask, h]
    simp only
    split
    · exact linked
    · exact linked.trans (Unheard.of_procs rfl rfl)

theorem fork_moves {k : Kernel} {p : Nat} (live : k.Live p) (current : k.currentProcess = some p)
    (point : Word) (frame : TrapFrame) :
    Moves k (doFork k point frame).1 (bornNotes k (k.procs p).pid) := by
  have born := Moves.alloc k (.inr ⟨p, live, rfl⟩)
  unfold doFork
  rw [current]
  simp only
  split
  · rename_i k' made
    rw [made] at born
    exact born
  · rename_i k' child made
    rw [made] at born
    generalize vmmCloneLowerHalf (vmmNewAddressSpace k'.vm).1 (vmmNewAddressSpace k'.vm).2
      (k'.procs p).pml4 = vm
    have copied := (born.quietly (setVm_quiet k' vm).unheard).quietly (setProc_unheard _ child
      (f := (k'.procs p).copied (vmmNewAddressSpace k'.vm).2) rfl)
    have cloned := copied.quietly
      (processCloneInto_quiet { k' with vm := vm } child p (vmmNewAddressSpace k'.vm).2).unheard
    exact cloned.quietly (forkTask_unheard _ child point frame)

theorem taskCreateUser_unheard (k : Kernel) (p : Nat) (trampoline rip rsp : Word) :
    Unheard k (taskCreateUser k p trampoline rip rsp).1 := by
  have alloc := taskAllocRaw_unheard k
  unfold taskCreateUser
  split
  · rename_i k' made
    rw [made] at alloc
    exact alloc
  · rename_i k' t made
    rw [made] at alloc
    refine alloc.trans ?_
    have linked : Unheard k' ((k'.setTask t fun x => { x with proc := some p }).setProc p fun c =>
        { c with task := some t }) := by
      refine ⟨rfl, fun q => ?_⟩
      by_cases h : q = p
      · subst h; simp [Kernel.setProc, Kernel.setTask, Process.status]
      · simp [Kernel.setProc, Kernel.setTask, h]
    simp only
    split
    · exact linked.trans (Unheard.of_procs rfl rfl)
    · exact linked.trans (Unheard.of_procs rfl rfl)

theorem spawn_moves (k : Kernel) (pml4 : Nat) (heap trampoline rip rsp : Word) :
    Moves k (spawnFirst tree k pml4 heap trampoline rip rsp) (bornNotes k 0) := by
  have born := @Moves.alloc k 0 (.inl rfl)
  unfold spawnFirst
  split
  · rename_i k' made
    rw [made] at born
    exact born
  · rename_i k' p made
    rw [made] at born
    refine Moves.quietly ?_ (taskCreateUser_unheard _ p trampoline rip rsp)
    have fields := born.quietly (setProc_unheard k' p
      (f := fun x =>
        { x with
          pml4 := pml4, heapStart := heap, heapEnd := heap, mmapNext := 0x40000000#64
          cwd := ['/'], uid := 0#64, gid := 0#64, fsBase := 0#64 }) rfl)
    exact fields.quietly (((setFd_quiet _ p 0 _).trans (setFd_quiet _ p 1 _)).trans
      (setFd_quiet _ p 2 _)).unheard

theorem syscall_moves (s : w.Sound) {p : Nat} (current : w.kernel.currentProcess = some p)
    (running : (w.kernel.tasks w.kernel.current).state = .running) (c : Syscall) :
    Moves w.kernel (syscall tree w p c).1.kernel (syscallNotes w.kernel p c ++
      match c with
      | .waitpid target => callNotes w.kernel (.waitpid p target) (syscall tree w p c).2
      | _ => []) := by
  have good : Good w.keyboard w.calls w.kernel := s.1
  have o := good.ordered
  have awake : (w.kernel.tasks w.kernel.current).state ≠ .terminated := by rw [running]; decide
  have live : w.kernel.Live p := o.live awake current
  cases c with
  | read fd count other =>
    refine runTransfer_moves tree o p fd _ other _ _ ?_
    rintro c a (⟨v, h⟩ | h)
    · split at h
      · cases h; rfl
      · cases h
    · cases h; rfl
  | write fd src count other =>
    refine runTransfer_moves tree o p fd _ other _ _ ?_
    rintro c a (⟨v, h⟩ | h)
    · split at h
      · cases h; rfl
      · cases h
    · cases h
  | opens path flags => exact .unheard (processOpen_moves tree live w.files path flags).quiet.unheard
  | close fd => exact .unheard (FdMove.close p fd).quiet.unheard
  | dup2 oldfd newfd => exact .unheard (processDup2_moves live oldfd newfd).quiet.unheard
  | pipe => exact .unheard (processPipe_moves live).quiet.unheard
  | fork point frame => simpa [syscall, syscallNotes] using fork_moves live current point frame
  | waitpid target => exact runCall_moves o (.waitpid p target)
  | exit code =>
    exact (Moves.terminate o live w.kernel.current (encodeExited code)).quietly (yield_unheard _)
  | kill pid sig =>
    simp only [syscall, syscallNotes, List.append_nil]
    cases sent : sysKill w.kernel pid sig with
    | none => exact .refl _
    | some r => exact sysKill_moves good sent
  | setForeground pids => exact .refl _
  | setRaw enable => exact .refl _
  | setEcho enable => exact .refl _
  | load count => exact runCall_moves o (.keyboardRead none count)

theorem answerNotes_eq {e : Event σ} {self : Nat} {target : Int} (who : waiter w e = some (self, target))
    (a : Answer) : answerNotes w e a = callNotes w.kernel (.waitpid self target) a := by
  unfold answerNotes
  rw [who]
  cases a <;> rfl

theorem answerNotes_nothing (e : Event σ) : answerNotes w e .nothing = [] := by
  unfold answerNotes
  split
  · rename_i h
    cases h
  · rfl

theorem event_moves (s : w.Sound) (e : Event σ) :
    Moves w.kernel (worldStep tree w e).1.kernel
      (eventNotes w e ++ answerNotes w e (worldStep tree w e).2) := by
  have good : Good w.keyboard w.calls w.kernel := s.1
  have o := good.ordered
  show Moves w.kernel (event tree w e).1.kernel (eventNotes w e ++ answerNotes w e (event tree w e).2)
  cases e with
  | timer => exact .unheard (yield_unheard _)
  | elsewhere vm files => exact .unheard (setVm_quiet _ vm).unheard
  | scancode sc =>
    simp only [eventNotes, answerNotes, waiter, event, keyboardIrq, List.append_nil]
    split
    · rename_i h
      rw [h]
      exact .refl _
    · rename_i h
      rw [h]
      exact .unheard (taskWake_quiet _ _).unheard
    · rename_i sig h
      rw [h]
      simp only
      cases sent : processSignalForeground w.kernel w.foreground sig with
      | none => exact .refl _
      | some k =>
        obtain ⟨r, each, rfl⟩ := Option.map_eq_some_iff.mp sent
        exact (signalEach_moves w.foreground good .nothing each).quietly (afterAction_unheard r.1 r.2)
  | spawn pml4 heap trampoline rip rsp =>
    simp only [eventNotes, answerNotes, waiter, event, List.append_nil]
    cases w.kernel.currentProcess with
    | some p => exact .refl _
    | none => exact spawn_moves tree _ pml4 heap trampoline rip rsp
  | fault =>
    simp only [eventNotes, answerNotes, waiter, event, List.append_nil]
    cases current : w.kernel.currentProcess with
    | none => exact .refl _
    | some p =>
      cases running : (w.kernel.tasks w.kernel.current).state with
      | running =>
        have live : w.kernel.Live p := o.live (by rw [running]; decide) current
        exact (Moves.terminate o live w.kernel.current (encodeSignaled sigsegv)).quietly (yield_unheard _)
      | _ => exact .refl _
  | syscall c =>
    by_cases ready : ∃ p, w.kernel.currentProcess = some p ∧
        (w.kernel.tasks w.kernel.current).state = .running ∧ w.calls w.kernel.current = none
    · obtain ⟨p, current, running, idle⟩ := ready
      have told := syscall_moves tree s current running c
      have step : event tree w (.syscall c) = syscall tree w p c := by
        simp [event, current, running, idle]
      have heard : eventNotes w (.syscall c) = syscallNotes w.kernel p c := by
        simp [eventNotes, current, running, idle]
      rw [step, heard]
      cases c with
      | waitpid target =>
        have who : waiter w (.syscall (.waitpid target)) = some (p, target) := by
          simp [waiter, current, running, idle]
        rwa [answerNotes_eq who]
      | _ => simpa [answerNotes, waiter] using told
    · have step : event tree w (.syscall c) = (w, .nothing) := by
        simp only [event]
        split
        · rename_i p h₁ h₂ h₃
          exact absurd ⟨p, h₁, h₂, h₃⟩ ready
        · rfl
      have heard : eventNotes w (.syscall c) = [] := by
        simp only [eventNotes]
        split
        · rename_i p h₁ h₂ h₃
          exact absurd ⟨p, h₁, h₂, h₃⟩ ready
        · rfl
      rw [step, heard, answerNotes_nothing]
      exact .refl _
  | resume =>
    simp only [eventNotes, List.nil_append]
    by_cases ready : ∃ c, (w.kernel.tasks w.kernel.current).state = .running ∧
        w.calls w.kernel.current = some c
    · obtain ⟨c, running, call⟩ := ready
      have told := runCall_moves o c
      have step : event tree w .resume = runCall w c := by simp [event, running, call]
      rw [step]
      cases c with
      | waitpid self target =>
        have who : waiter w .resume = some (self, target) := by simp [waiter, running, call]
        rwa [answerNotes_eq who]
      | _ => simpa [answerNotes, waiter, running, call, callNotes] using told
    · have step : event tree w .resume = (w, .nothing) := by
        simp only [event]
        split
        · rename_i c h₁ h₂
          exact absurd ⟨c, h₁, h₂⟩ ready
        · rfl
      rw [step, answerNotes_nothing]
      exact .refl _

end Events

end Isunux
