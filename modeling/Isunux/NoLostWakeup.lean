import Isunux.Children

/-! No task stays asleep once what it waits for has come about. -/
namespace Isunux

section Segments

variable {kb : Keyboard} {calls : Nat → Option Call} {k : Kernel}

theorem Good.pipeSegment (g : Good kb calls k) (i : Nat) (q : Pipe) (wake : Bool)
    (ends : (k.pipes i).SameEnds q) (fits : q.Fits) (quiet : wake = false → q = k.pipes i) :
    Good kb calls (if wake then taskWake (k.setPipe i q) (.pipe i) else k.setPipe i q) := by
  cases wake with
  | false =>
    have same : k.setPipe i q = k := by
      rw [quiet rfl, Kernel.setPipe, Function.update_eq_self]
    rw [same]
    exact g
  | true =>
    refine g.calm (setPipe_wake_calm g.ordered i q) (g.counted.congr rfl fun j => ?_)
      (setPipe_fits g.fits fits i)
    simp only [taskWake, Kernel.setPipe]
    by_cases h : j = i
    · subst h; simpa [Pipe.SameEnds] using ends
    · simp [h]

theorem Good.advance (g : Good kb calls k) (p fd : Nat) (n : Int) :
    Good kb calls (advance k p fd n) := by
  unfold Isunux.advance
  split
  · exact g.move (.single (.seek p fd _ rfl rfl))
  · exact g

theorem advance_tasks (k : Kernel) (p fd : Nat) (n : Int) :
    (advance k p fd n).tasks = k.tasks ∧ (advance k p fd n).current = k.current := by
  unfold advance
  split <;> exact ⟨rfl, rfl⟩

theorem Good.keyboard (g : Good kb calls k) {kb' : Keyboard} (empty : kb.Empty → kb'.Empty) :
    Good kb' calls k := by
  refine ⟨g.ordered, g.counted, g.fits, g.owned, fun t blocked => ?_⟩
  obtain ⟨c, call, wait, waits⟩ := g.asleep t blocked
  refine ⟨c, call, wait, ?_⟩
  cases c with
  | keyboardRead fd count =>
    have was : kb.Empty := not_not.mp waits
    exact not_not.mpr (empty was)
  | pipeRead p fd i count => exact waits
  | pipeWrite p fd i src count n => exact waits
  | waitpid self target => exact waits

theorem Good.keyboardWake (g : Good kb calls k) (kb' : Keyboard) :
    Good kb' calls (taskWake k .keyboard) := by
  have g' := g.wake .keyboard
  refine ⟨g'.ordered, g'.counted, g'.fits, g'.owned, fun t blocked => ?_⟩
  obtain ⟨c, call, wait, waits⟩ := g'.asleep t blocked
  refine ⟨c, call, wait, ?_⟩
  cases c with
  | keyboardRead fd count => exact absurd wait (taskWake_gone g.ordered.idle blocked)
  | pipeRead p fd i count => exact waits
  | pipeWrite p fd i src count n => exact waits
  | waitpid self target => exact waits

theorem wakePipe_current (k : Kernel) (i : Nat) (q : Pipe) (wake : Bool)
    (running : (k.tasks k.current).state = .running) :
    let k' := if wake then taskWake (k.setPipe i q) (.pipe i) else k.setPipe i q
    k'.current = k.current ∧ (k'.tasks k.current).state = .running ∧
      (k'.tasks k.current).proc = (k.tasks k.current).proc := by
  cases wake with
  | false => exact ⟨rfl, running, rfl⟩
  | true =>
    refine ⟨rfl, ?_, ?_⟩ <;> simp [taskWake, Kernel.setPipe, running]

end Segments

section Worlds

variable {σ : Type} {w : World σ}

def World.Good (w : World σ) : Prop := Isunux.Good w.keyboard w.calls w.kernel

theorem World.Good.done (g : w.Good) (awake : (w.kernel.tasks w.kernel.current).state ≠ .blocked) :
    w.finish.Good := Isunux.Good.finish g awake

theorem runCall_good (g : w.Good) (running : (w.kernel.tasks w.kernel.current).state = .running)
    (c : Call) (own : c.ownedBy (w.kernel.tasks w.kernel.current).proc) : (runCall w c).1.Good := by
  cases c with
  | pipeRead p fd i count =>
    obtain ⟨ends, fits, quiet, sleeps⟩ := pipeRead_segment (w.kernel.pipes i) (g.fits i) count
    have g₁ := g.pipeSegment i _ _ ends fits quiet
    obtain ⟨current, running₁, -⟩ := wakePipe_current w.kernel i
      (pipeRead (w.kernel.pipes i) count).pipe (pipeRead (w.kernel.pipes i) count).wake running
    unfold runCall
    simp only
    split
    · rename_i asleep
      obtain ⟨silent, empty, writers⟩ := sleeps asleep
      have same := quiet silent
      simp only [silent, Bool.false_eq_true, if_false, same] at g₁ ⊢
      have idle : w.kernel.setPipe i (w.kernel.pipes i) = w.kernel := by
        rw [Kernel.setPipe, Function.update_eq_self]
      rw [idle]
      refine Isunux.Good.sleep (c := .pipeRead p fd i count) g running own ?_
      rintro (data | eof)
      · omega
      · exact writers eof
    · refine World.Good.done (g₁.advance p fd _) ?_
      simp only [advance_tasks, current]
      rw [running₁]
      decide
  | pipeWrite p fd i src count n =>
    obtain ⟨ends, fits, quiet, sleeps⟩ := pipeWrite_segment (w.kernel.pipes i) (g.fits i) src count n
    have g₁ := g.pipeSegment i _ _ ends fits quiet
    obtain ⟨current, running₁, proc⟩ := wakePipe_current w.kernel i
      (pipeWrite (w.kernel.pipes i) src count n).pipe (pipeWrite (w.kernel.pipes i) src count n).wake
      running
    unfold runCall
    simp only
    split
    · rename_i asleep
      obtain ⟨woke, full, readers⟩ := sleeps asleep
      refine Isunux.Good.sleep (c := .pipeWrite p fd i src count _) g₁ ?_ trivial ?_
      · rw [current]
        exact running₁
      · simp only [woke, if_true]
        rintro (room | broken)
        · simp only [taskWake, Kernel.setPipe, Function.update_self] at room
          omega
        · simp only [taskWake, Kernel.setPipe, Function.update_self] at broken
          exact readers broken
    · refine World.Good.done (g₁.advance p fd _) ?_
      simp only [advance_tasks, current]
      rw [running₁]
      decide
  | waitpid self target =>
    have g₁ := g.waitpid self target
    obtain ⟨tasks, current⟩ := processWaitpid_tasks w.kernel self target
    have awake : ((processWaitpid w.kernel self target).1.tasks
        (processWaitpid w.kernel self target).1.current).state ≠ .blocked := by
      rw [tasks, current, running]
      decide
    unfold runCall
    simp only
    split
    · rename_i asleep
      obtain ⟨same, waits⟩ : _ ∧ ¬ (Call.waitpid self target).ready _ w.keyboard :=
        processWaitpid_sleeps asleep
      rw [same]
      exact Isunux.Good.sleep (c := .waitpid self target) g running own waits
    · exact World.Good.done g₁ awake
    · exact World.Good.done g₁ awake
  | keyboardRead fd count =>
    unfold runCall
    simp only
    split
    · rename_i asleep
      obtain ⟨same, empty⟩ := keyboardRead_sleeps asleep
      rw [same]
      exact Isunux.Good.sleep (c := .keyboardRead fd count) g running trivial (not_not.mpr empty)
    · rename_i bytes got
      have queue : w.keyboard.Empty → (keyboardRead w.keyboard count).1.Empty := by
        intro empty
        have caught : w.keyboard.tail = w.keyboard.head := empty
        unfold keyboardRead kbdQueuePop at got
        rw [if_pos caught] at got
        cases got
      have g₁ := g.keyboard queue
      cases fd with
      | none =>
        refine World.Good.done g₁ ?_
        simp only
        rw [running]
        decide
      | some at' =>
        refine World.Good.done (g₁.advance at'.1 at'.2 _) ?_
        simp only [advance_tasks]
        rw [running]
        decide

variable {tree : FileTree σ}

theorem runTransfer_good (g : w.Good) (running : (w.kernel.tasks w.kernel.current).state = .running)
    (p fd : Nat) (t : Transfer) (other : Int) {pipes : Vnode → Option Call} {console : Option Call}
    (free : ∀ v c, pipes v = some c → c.ownedBy (w.kernel.tasks w.kernel.current).proc)
    (free' : ∀ c, console = some c → c.ownedBy (w.kernel.tasks w.kernel.current).proc) :
    (runTransfer tree w p fd t other pipes console).1.Good := by
  unfold runTransfer
  split
  · exact g
  · exact g
  · rename_i v _
    split
    · rename_i c call
      exact runCall_good g running c (free v c call)
    · split
      · rename_i c call
        refine runCall_good g running c (free' c ?_)
        split at call
        · exact call
        · cases call
      · exact g.advance p fd other

theorem syscall_good (g : w.Good) (dead : ∀ t, (w.kernel.tasks t).state = .terminated → w.calls t = none)
    {p : Nat} (running : (w.kernel.tasks w.kernel.current).state = .running)
    (proc : w.kernel.currentProcess = some p) (c : Syscall) : (syscall tree w p c).1.Good := by
  have live : w.kernel.Live p := g.ordered.live (by rw [running]; decide) proc
  cases c with
  | read fd count other =>
    refine runTransfer_good g running p fd _ other ?_ ?_
    · intro v c call
      split at call
      · cases call; trivial
      · cases call
    · rintro c ⟨⟩
      trivial
  | write fd src count other =>
    refine runTransfer_good g running p fd _ other ?_ ?_
    · intro v c call
      split at call
      · cases call; trivial
      · cases call
    · rintro c ⟨⟩
  | opens path flags => exact g.move (processOpen_moves tree live w.files path flags)
  | close fd => exact g.move (.single (.close p fd))
  | dup2 oldfd newfd => exact g.move (processDup2_moves live oldfd newfd)
  | pipe => exact g.move (processPipe_moves live)
  | fork point frame => exact g.fork dead point frame
  | waitpid target => exact runCall_good g running (.waitpid p target) proc
  | exit code => exact g.endCurrent running proc _
  | kill pid sig =>
    unfold syscall
    simp only
    split
    · exact g
    · rename_i r sent
      exact g.kill sent
  | setForeground pids => exact g
  | setRaw enable => exact g.keyboard id
  | setEcho enable => exact g.keyboard id
  | load count => exact runCall_good g running (.keyboardRead none count) trivial

theorem keyboardIrq_good (g : w.Good) (sc : BitVec 8) : (keyboardIrq w sc).1.Good := by
  unfold keyboardIrq
  simp only
  split
  · rename_i quiet
    exact g.keyboard (keyboardHandleScancode_quiet (by rw [quiet]; decide))
  · exact g.keyboardWake _
  · rename_i sig quiet
    split
    · exact g
    · rename_i k' sent
      have g₁ := g.signalForeground sent
      exact g₁.keyboard (keyboardHandleScancode_quiet (by rw [quiet]; simp))

theorem event_good (g : w.Good) (dead : ∀ t, (w.kernel.tasks t).state = .terminated → w.calls t = none)
    (e : Event σ) : (event tree w e).1.Good := by
  cases e with
  | timer => exact g.yield
  | scancode sc => exact keyboardIrq_good g sc
  | fault =>
    unfold event
    simp only
    split
    · rename_i p proc running
      exact g.endCurrent running proc _
    · exact g
  | syscall c =>
    unfold event
    simp only
    split
    · rename_i p proc running _
      exact syscall_good g dead running proc c
    · exact g
  | resume =>
    unfold event
    simp only
    split
    · rename_i c running call
      exact runCall_good g running c (g.owned _ c call).2
    · exact g
  | spawn pml4 heap trampoline rip rsp =>
    unfold event
    simp only
    split
    · exact g
    · exact g.spawn tree dead pml4 heap trampoline rip rsp
  | elsewhere vm files => exact g.vm vm

theorem settle_good (g : w.Good) : w.settle.Good := by
  refine Isunux.Good.leave g (fun t c call => ?_) fun t blocked => ?_
  · simp only [World.settle] at call
    split at call
    · cases call
    · exact call
  · simp only [World.settle]
    rw [if_neg]
    rw [show (w.kernel.tasks t).state = _ from blocked]
    decide

/-- What holds of the machine between any two steps. -/
def World.Sound (w : World σ) : Prop :=
  w.Good ∧ ∀ t, (w.kernel.tasks t).state = .terminated → w.calls t = none

theorem worldStep_sound (w : World σ) (e : Event σ) (s : w.Sound) : (worldStep tree w e).1.Sound := by
  refine ⟨settle_good (event_good s.1 s.2 e), fun t ended => ?_⟩
  exact if_pos ended

theorem bootWorld_sound (vm : Vm) (hhdm : Word) (files : σ) : (bootWorld vm hhdm files).Sound := by
  have states : ∀ t, ((bootKernel vm hhdm).tasks t).state = .running ∨
      ((bootKernel vm hhdm).tasks t).state = .ready := by
    intro t
    simp only [bootKernel]
    split
    · exact .inl rfl
    · exact .inr rfl
  have quiet : ∀ t, ((bootKernel vm hhdm).tasks t).state ≠ .blocked ∧
      ((bootKernel vm hhdm).tasks t).state ≠ .terminated := by
    intro t
    rcases states t with h | h <;> rw [h] <;> decide
  have empty : ∀ v, ends (bootKernel vm hhdm).procs v = 0 := by
    intro v
    refine Finset.sum_eq_zero fun x _ => ?_
    exact FdEntry.refers_unused rfl v
  refine ⟨⟨⟨Nat.one_pos, show 1 ≤ 16 by decide, ?_, ?_, Int.one_pos, ?_, ?_, ?_, ?_, ?_⟩,
    ⟨?_, ?_, ?_, ?_⟩, ?_, ?_, ?_⟩, ?_⟩
  · exact fun t _ => Nat.one_pos
  · exact fun t b => absurd b (quiet t).1
  · exact fun p => ⟨le_rfl, Int.one_pos⟩
  · exact fun p q h => absurd rfl h
  · exact fun p _ => rfl
  · exact fun t p _ h => nomatch h
  · exact fun p t h => absurd rfl h
  · intro v pipe
    simp only [bootWorld, empty]
    cases v with
    | node id => exact pipe.elim
    | pipeRead i => rfl
    | pipeWrite i => rfl
  · exact fun i => ⟨fun _ => ⟨rfl, rfl⟩, fun _ => rfl⟩
  · exact fun p _ fd => rfl
  · exact fun p fd h => nomatch h
  · exact fun i => ⟨show 0 < 4096 by decide, Nat.zero_le _⟩
  · exact fun t c h => nomatch h
  · exact fun t b => absurd b (quiet t).1
  · exact fun t b => absurd b (quiet t).2

/-- In every state of every run, a BLOCKED task is inside one of the sleeping
calls, and what that call waits for has not come about. -/
theorem no_lost_wakeup (tree : FileTree σ) (vm : Vm) (hhdm : Word) (files : σ) (events : List (Event σ)) :
    let w := (Run.run (worldStep tree) (bootWorld vm hhdm files) events).1
    ∀ t, (w.kernel.tasks t).state = .blocked →
      ∃ c, w.calls t = some c ∧ ¬ c.ready w.kernel w.keyboard := by
  intro w t blocked
  have sound : w.Sound := Run.run_invariant (worldStep tree) World.Sound worldStep_sound _ events
    (bootWorld_sound vm hhdm files)
  obtain ⟨c, call, -, waits⟩ := sound.1.asleep t blocked
  exact ⟨c, call, waits⟩

end Worlds

/-- The first process reads the console and finds nothing typed. -/
example : ((Run.run (worldStep oneFile) (bootWorld fullHouse.vm 0#64 ())
    [.spawn 0 0#64 0#64 0#64 0#64, .timer, .syscall (.read 0 1 0)]).1.kernel.tasks 1).state =
    .blocked := by decide +kernel

end Isunux
