import Isunux.Registers

/-! The registers are always those of the task that runs, and CR3 never holds an address
space that was given back, as long as no two processes get the same page for a PML4. -/
namespace Isunux

/-- Address spaces in use: no two processes have the same one, and none was given back. -/
structure Separate (k : Kernel) (gone : List Nat) : Prop where
  apart : ∀ p q, (k.procs p).pid ≠ 0 → (k.procs q).pid ≠ 0 → (k.procs p).pml4 = (k.procs q).pml4 → p = q
  user : ∀ p, (k.procs p).pid ≠ 0 → (k.procs p).pml4 ≠ k.vm.kernelPml4
  alive : ∀ p, (k.procs p).pid ≠ 0 → (k.procs p).pml4 ∉ gone
  tables : k.vm.kernelPml4 ∉ gone

section Spaces

variable {k k' : Kernel} {gone : List Nat}

theorem Separate.of_procs (s : Separate k gone) (tables : k'.vm.kernelPml4 = k.vm.kernelPml4)
    (procs : ∀ p, (k'.procs p).pid ≠ 0 → (k.procs p).pid ≠ 0 ∧ (k'.procs p).pml4 = (k.procs p).pml4) :
    Separate k' gone := by
  refine ⟨fun p q hp hq same => ?_, fun p hp => ?_, fun p hp => ?_, tables ▸ s.tables⟩
  · rw [(procs p hp).2, (procs q hq).2] at same
    exact s.apart p q (procs p hp).1 (procs q hq).1 same
  · rw [(procs p hp).2, tables]
    exact s.user p (procs p hp).1
  · rw [(procs p hp).2]
    exact s.alive p (procs p hp).1

theorem Separate.kept (s : Separate k gone) (h : Retained k k') : Separate k' gone :=
  s.of_procs h.tables fun p pid => ⟨(h.procs p pid).1, (h.procs p pid).2.1⟩

theorem Separate.given (s : Separate k gone) (o : Ordered k) {f : Nat} (unused : Unused k f) (i : Nat)
    {g : Process → Process} (pml4 : (g (k.procs i)).pml4 = f) :
    Separate (k.setProc i g) (gone.filter fun x => x ≠ f) := by
  have here : (k.setProc i g).procs i = g (k.procs i) := Function.update_self _ _ _
  have there : ∀ p, p ≠ i → (k.setProc i g).procs p = k.procs p := fun p h => Function.update_of_ne h _ _
  have other : ∀ p, p ≠ i → ((k.setProc i g).procs p).pid ≠ 0 → ((k.setProc i g).procs p).pml4 ≠ f := by
    intro p h pid
    rw [there p h] at pid ⊢
    refine unused.2 p ?_ pid
    by_contra high
    exact pid (o.vacant p (by omega))
  refine ⟨fun p q hp hq same => ?_, fun p hp => ?_, fun p hp mem => ?_, fun mem => ?_⟩
  · by_cases h : p = i
    · by_cases h' : q = i
      · rw [h, h']
      · rw [h, here, pml4] at same
        exact absurd same.symm (other q h' hq)
    · by_cases h' : q = i
      · rw [h', here, pml4] at same
        exact absurd same (other p h hp)
      · rw [there p h, there q h'] at *
        exact s.apart p q hp hq same
  · by_cases h : p = i
    · rw [h, here, pml4]
      exact unused.1
    · rw [there p h] at hp ⊢
      exact s.user p hp
  · have kept := (List.mem_filter.mp mem)
    by_cases h : p = i
    · rw [h, here, pml4] at kept
      simp at kept
    · rw [there p h] at hp kept
      exact s.alive p hp kept.1
  · exact s.tables (List.mem_filter.mp mem).1

theorem Separate.destroys (s : Separate k gone) {f : Nat} (tables : k.vm.kernelPml4 ≠ f)
    (unused : ∀ p, (k.procs p).pid ≠ 0 → (k.procs p).pml4 ≠ f) : Separate k (f :: gone) := by
  refine ⟨s.apart, s.user, fun p pid mem => ?_, fun mem => ?_⟩
  · rcases List.mem_cons.mp mem with same | older
    · exact unused p pid same
    · exact s.alive p pid older
  · rcases List.mem_cons.mp mem with same | older
    · exact tables same
    · exact s.tables older

end Spaces

/-- What holds between any two steps. -/
structure Machine.Sound (m : Machine) : Prop where
  roles : Roles m.kernel
  separate : Separate m.kernel m.destroyed
  cr3 : m.cr3 ∉ m.destroyed
  never : m.stale = false
  loaded : (m.kernel.tasks m.kernel.current).state ≠ .terminated → m.Loaded

section Machines

variable {m m' : Machine} {k' : Kernel}

theorem Machine.loaded_some {p : Nat} (proc : m.kernel.currentProcess = some p) :
    m.Loaded ↔ m.cr3 = (m.kernel.procs p).pml4 ∧ m.fsBase = (m.kernel.procs p).fsBase ∧
      m.rsp0 = (m.kernel.tasks m.kernel.current).kernelStackTop := by
  unfold Machine.Loaded
  rw [proc]

theorem Machine.loaded_none (proc : m.kernel.currentProcess = none) :
    m.Loaded ↔ m.cr3 = m.kernel.vm.kernelPml4 := by
  unfold Machine.Loaded
  rw [proc]

theorem Machine.Loaded.kept (l : m.Loaded) (h : Retained m.kernel k') (o : Ordered k')
    (awake : (k'.tasks k'.current).state ≠ .terminated) : { m with kernel := k' }.Loaded := by
  have proc : k'.currentProcess = m.kernel.currentProcess := by
    unfold Kernel.currentProcess
    rw [h.current, h.task.1]
  cases here : m.kernel.currentProcess with
  | none =>
    rw [Machine.loaded_none here] at l
    rw [here] at proc
    refine (Machine.loaded_none proc).mpr (l.trans h.tables.symm)
  | some p =>
    rw [here] at proc
    obtain ⟨cr3, fs, top⟩ := (Machine.loaded_some here).mp l
    obtain ⟨-, pml4, base⟩ := h.procs p (o.live awake proc).pid
    refine (Machine.loaded_some proc).mpr ⟨cr3.trans pml4.symm, fs.trans base.symm, ?_⟩
    dsimp only
    rw [h.current, h.task.2]
    exact top

theorem Machine.Sound.kept (s : m.Sound) (h : Retained m.kernel k') (r : Roles k') :
    { m with kernel := k' }.Sound := by
  refine ⟨r, s.separate.kept h, s.cr3, s.never, fun awake => ?_⟩
  refine (s.loaded fun was => awake ?_).kept h r.ordered awake
  rw [show k'.current = m.kernel.current from h.current]
  exact h.ended was

theorem Machine.Sound.caller (s : m.Sound) {p : Nat} (caller : m.kernel.caller = some p) :
    (m.kernel.tasks m.kernel.current).state = .running ∧ m.kernel.currentProcess = some p ∧ m.kernel.Live p ∧
      (m.kernel.procs p).task = some m.kernel.current ∧ m.Loaded := by
  unfold Kernel.caller at caller
  split at caller
  · rename_i running
    have awake : (m.kernel.tasks m.kernel.current).state ≠ .terminated := by
      rw [running]
      decide
    exact ⟨running, caller, s.roles.ordered.live awake caller, (s.roles.ordered.owner _ p awake caller).2.2,
      s.loaded awake⟩
  · cases caller

theorem Machine.wrmsrFsBase_some {v : Word} (done : m.wrmsrFsBase v = some m') : m' = { m with fsBase := v } := by
  unfold Machine.wrmsrFsBase at done
  split at done
  · exact (Option.some.inj done).symm
  · cases done

theorem yield_tasks (r : Roles m.kernel) (t : Nat) :
    ((Isunux.yield m.kernel).tasks t).proc = (m.kernel.tasks t).proc ∧
      ((Isunux.yield m.kernel).tasks t).kernelStackTop = (m.kernel.tasks t).kernelStackTop := by
  have parked : ((giveUp m.kernel).tasks t).proc = (m.kernel.tasks t).proc ∧
      ((giveUp m.kernel).tasks t).kernelStackTop = (m.kernel.tasks t).kernelStackTop := by
    unfold giveUp
    split
    · by_cases h : t = m.kernel.current
      · subst h
        simp [Kernel.setTask]
      · simp [Kernel.setTask, h]
    · exact ⟨rfl, rfl⟩
  obtain ⟨next, -, -, -, -, eq⟩ := r.yield_eq
  rw [eq]
  by_cases h : t = next
  · subst h
    simpa [Kernel.setTask] using parked
  · simpa [Kernel.setTask, h] using parked

theorem yield_vm (r : Roles m.kernel) : (Isunux.yield m.kernel).vm = m.kernel.vm := by
  obtain ⟨next, -, -, -, -, eq⟩ := r.yield_eq
  rw [eq]
  unfold giveUp
  split <;> rfl

theorem Machine.Sound.yield (s : m.Sound) (done : m.yield = some m') : m'.Sound := by
  have r := s.roles
  obtain ⟨next, -, ready, picked, stays, eq⟩ := r.yield_eq
  have procs := (yield_rest m.kernel).2.1
  have tasks := yield_tasks r
  have vm := yield_vm r
  have current : (Isunux.yield m.kernel).current = next := by rw [eq]
  have separate : Separate (Isunux.yield m.kernel) m.destroyed :=
    s.separate.of_procs (by rw [vm]) fun p pid => by
      rw [procs] at pid ⊢
      exact ⟨pid, rfl⟩
  unfold Machine.yield at done
  dsimp only at done
  by_cases same : next = m.kernel.current
  · -- nobody else is READY, and the current task goes on
    rw [stays same] at done
    cases done
    refine s.kept ⟨by rw [vm], current.trans same, tasks _, fun was => ?_, fun p pid => ?_⟩ r.yield
    · rw [same] at ready
      rcases (giveUp_rest m.kernel).2.2.2 with ⟨-, running⟩ | ⟨-, still⟩
      · rw [running] at was
        cases was
      · rw [still, was] at ready
        cases ready
    · rw [procs] at pid ⊢
      exact ⟨pid, rfl, rfl⟩
  · rw [picked same] at done
    dsimp only at done
    have awake := (r.picks (picked same)).2.2
    cases proc : (m.kernel.tasks next).proc with
    | none =>
      rw [proc] at done
      cases done
      refine ⟨r.yield, separate, s.separate.tables, ?_, fun _ => ?_⟩
      · simp [Machine.activate, s.never, s.separate.tables]
      · refine (Machine.loaded_none ?_).mpr ?_
        · dsimp only [Machine.activate, Kernel.currentProcess]
          rw [current, (tasks next).1, proc]
        · dsimp only [Machine.activate]
          rw [vm]
    | some p =>
      rw [proc] at done
      obtain ⟨m₁, loaded, rfl⟩ := Option.map_eq_some_iff.mp done
      rw [Machine.wrmsrFsBase_some loaded]
      have live := r.ordered.live (by rw [awake]; decide) proc
      have alive := s.separate.alive p live.pid
      refine ⟨r.yield, separate, alive, ?_, fun _ => ?_⟩
      · simp [Machine.activate, s.never, alive]
      · have here : (Isunux.yield m.kernel).currentProcess = some p := by
          unfold Kernel.currentProcess
          rw [current, (tasks next).1, proc]
        refine (Machine.loaded_some here).mpr ?_
        dsimp only [Machine.activate]
        rw [procs, current, (tasks next).2]
        exact ⟨rfl, rfl, rfl⟩

theorem Machine.Sound.afterAction (s : m.Sound) {a : SelfAction} (done : m.afterAction a = some m') : m'.Sound := by
  cases a with
  | terminated => exact s.yield done
  | stopped => exact s.yield done
  | nothing =>
    cases done
    exact s
  | unknown =>
    cases done
    exact s

theorem Machine.Sound.archSetFs (s : m.Sound) {p : Nat} {addr : Word} (caller : m.kernel.caller = some p)
    (done : m.archSetFs p addr = some m') : m'.Sound := by
  obtain ⟨-, proc, -, -, loaded⟩ := s.caller caller
  obtain ⟨cr3, -, top⟩ := (Machine.loaded_some proc).mp loaded
  have roles : Roles (m.kernel.setProc p fun x => { x with fsBase := addr }) := s.roles.setProc p rfl rfl
  rw [Machine.wrmsrFsBase_some done]
  refine ⟨roles, s.separate.of_procs rfl fun q pid => ?_, s.cr3, s.never, fun _ => ?_⟩
  · by_cases h : q = p
    · subst h
      simp only [Kernel.setProc, Function.update_self] at pid ⊢
      exact ⟨pid, trivial⟩
    · simp only [Kernel.setProc, Function.update_of_ne h] at pid ⊢
      exact ⟨pid, trivial⟩
  · let now : Machine :=
      { m with kernel := m.kernel.setProc p fun x => { x with fsBase := addr }, fsBase := addr }
    refine (Machine.loaded_some (m := now) proc).mpr ?_
    simp only [now, Kernel.setProc, Function.update_self]
    exact ⟨cr3, trivial, top⟩

theorem Machine.Sound.populated (s : m.Sound) {i f : Nat} {x : Process} (vacant : (m.kernel.procs i).pid = 0)
    (pml4 : x.pml4 = f) (unused : Unused m.kernel f) (r : Roles k')
    (h : Retained (m.kernel.setProc i fun _ => x) k') : { m.creates f with kernel := k' }.Sound := by
  have separate := s.separate.given s.roles.ordered unused i (g := fun _ => x) pml4
  refine ⟨r, separate.kept h, fun mem => s.cr3 (List.mem_filter.mp mem).1, s.never, fun awake => ?_⟩
  have before : (m.kernel.tasks m.kernel.current).state ≠ .terminated := fun was => by
    refine awake ?_
    rw [show k'.current = m.kernel.current from h.current]
    exact h.ended was
  let now : Machine := { m.creates f with kernel := m.kernel.setProc i fun _ => x }
  have still : now.Loaded := by
    have loaded := s.loaded before
    cases proc : m.kernel.currentProcess with
    | none => exact (Machine.loaded_none (m := now) proc).mpr ((Machine.loaded_none proc).mp loaded)
    | some p =>
      refine (Machine.loaded_some (m := now) proc).mpr ?_
      have other : p ≠ i := by
        rintro rfl
        exact (s.roles.ordered.live before proc).pid vacant
      simp only [now, Kernel.setProc, Function.update_of_ne other]
      exact (Machine.loaded_some proc).mp loaded
  exact still.kept h r.ordered awake

theorem Machine.Sound.fork (s : m.Sound) {p : Nat} (caller : m.kernel.caller = some p) (point : Word)
    (frame : TrapFrame)
    (unused : ∀ i, (processAlloc m.kernel (m.kernel.procs p).pid).2 = some i →
      Unused m.kernel (vmmNewAddressSpace m.kernel.vm).2) : (m.fork p point frame).Sound := by
  obtain ⟨-, proc, live, -, loaded⟩ := s.caller caller
  have kept := doFork_kept s.roles proc point frame
  have roles := s.roles.fork point frame
  unfold Machine.fork
  dsimp only
  cases slot : (processAlloc m.kernel (m.kernel.procs p).pid).2 with
  | none =>
    rw [slot] at kept
    dsimp only at kept ⊢
    rw [kept]
    exact s
  | some i =>
    rw [slot] at kept
    obtain ⟨vacant, x, pml4, kept⟩ := kept
    have made := s.populated vacant pml4 (unused i slot) roles kept
    -- the clone reloads CR3 with what it holds
    have cr3 := ((Machine.loaded_some proc).mp loaded).1
    have same : (m.creates (vmmNewAddressSpace m.kernel.vm).2).activate (m.kernel.procs p).pml4 =
        m.creates (vmmNewAddressSpace m.kernel.vm).2 := by
      have alive : (m.kernel.procs p).pml4 ∉ (m.creates (vmmNewAddressSpace m.kernel.vm).2).destroyed :=
        fun mem => s.separate.alive p live.pid (List.mem_filter.mp mem).1
      unfold Machine.activate
      rw [decide_eq_false alive, Bool.or_false, ← cr3]
      rfl
    dsimp only
    rw [same]
    exact made

theorem Machine.Sound.endCurrent (s : m.Sound) {p : Nat} {status : Nat} (caller : m.kernel.caller = some p)
    (done : m.endCurrent p status = some m') : m'.Sound := by
  obtain ⟨-, -, live, task, -⟩ := s.caller caller
  have kept := s.roles.terminate_kept live.pid live.awake task status
  exact (s.kept kept (s.roles.terminate live task status)).yield done

theorem Machine.Sound.kill (s : m.Sound) {pid : Int} {sig : Nat} (done : m.kill pid sig = some m') : m'.Sound := by
  unfold Machine.kill at done
  split at done
  · cases done
    exact s
  · rename_i target found
    obtain ⟨bound, here, nonzero⟩ := processFindByPid_some found
    have occupied : (m.kernel.procs target).pid ≠ 0 := here ▸ nonzero
    obtain ⟨x, sent, done⟩ := Option.bind_eq_some_iff.mp done
    exact (s.kept (s.roles.signal_kept sent occupied) (s.roles.signal occupied bound sent)).afterAction done

theorem Machine.Sound.signalForeground (s : m.Sound) {pids : List Int} {sig : Nat}
    (done : m.signalForeground pids sig = some m') : m'.Sound := by
  obtain ⟨x, sent, done⟩ := Option.bind_eq_some_iff.mp done
  obtain ⟨roles, kept⟩ := s.roles.signals pids sent
  exact (s.kept kept roles).afterAction done

theorem Machine.Sound.block (s : m.Sound) {p : Nat} (caller : m.kernel.caller = some p) (chan : Chan)
    (done : { m with kernel := taskSleep m.kernel chan }.yield = some m') : m'.Sound := by
  obtain ⟨running, proc, -⟩ := s.caller caller
  have notMain : m.kernel.current ≠ 0 := by
    intro zero
    have := s.roles.main.2
    rw [← zero] at this
    exact absurd (this.symm.trans proc) (by simp)
  have roles : Roles (taskSleep m.kernel chan) := s.roles.park running notMain rfl rfl (.inl rfl)
  refine (s.kept ?_ roles).yield done
  refine ⟨rfl, rfl, ?_, fun was => ?_, fun q pid => ⟨pid, rfl, rfl⟩⟩
  · simp [taskSleep, Kernel.setTask]
  · rw [running] at was
    cases was

theorem clearedSlot_some {k : Kernel} {i : Nat} (bound : i < maxProcesses) (was : (k.procs i).pid ≠ 0)
    (now : (k'.procs i).pid = 0) (others : ∀ j, j ≠ i → (k'.procs j).pid = (k.procs j).pid) :
    clearedSlot k k' = some i := by
  unfold clearedSlot
  cases found : (List.range maxProcesses).find? fun i => (k.procs i).pid ≠ 0 ∧ (k'.procs i).pid = 0 with
  | none =>
    have missed := List.find?_eq_none.mp found i (List.mem_range.mpr bound)
    simp [was, now] at missed
  | some j =>
    have hit := List.find?_some found
    simp only [decide_eq_true_eq] at hit
    by_contra h
    have apart : j ≠ i := fun same => h (by rw [same])
    exact hit.1 ((others j apart).symm.trans hit.2)

theorem clearedSlot_none {k : Kernel} (same : ∀ j, (k'.procs j).pid = (k.procs j).pid) : clearedSlot k k' = none := by
  unfold clearedSlot
  refine List.find?_eq_none.mpr fun j _ => ?_
  rw [same j]
  simp

theorem Machine.Sound.waitpid (s : m.Sound) {p : Nat} {target : Int} (caller : m.kernel.caller = some p)
    (done : m.waitpid p target = some m') : m'.Sound := by
  obtain ⟨-, proc, live, -, loaded⟩ := s.caller caller
  unfold Machine.waitpid processWaitpid at done
  dsimp only at done
  rcases waitScan_cases m.kernel p target (List.range maxProcesses) false with
    ⟨i, mem, child, zombie, eq⟩ | ⟨i, -, -, awake, stopped, -, eq⟩ | ⟨eq, -⟩
  · -- a zombie is reaped, and its address space goes
    have occupied := (of_decide_eq_true child).1
    have others : ∀ j, j ≠ i → (reap m.kernel i).procs j = m.kernel.procs j := fun j h => by
      simp [reap, Kernel.setProc, h]
    have empty : ((reap m.kernel i).procs i).pid = 0 := by simp [reap, Kernel.setProc, Process.zero]
    have slot := clearedSlot_some (List.mem_range.mp mem) occupied empty fun j h => by rw [others j h]
    rw [eq] at done
    dsimp only at done
    rw [slot] at done
    cases done
    have kept : Retained m.kernel (reap m.kernel i) := by
      refine ⟨rfl, rfl, ⟨rfl, rfl⟩, id, fun q pid => ?_⟩
      have h : q ≠ i := by
        rintro rfl
        exact pid empty
      rw [others q h] at pid ⊢
      exact ⟨pid, rfl, rfl⟩
    have reaped := s.kept kept (s.roles.reap zombie)
    have other : p ≠ i := by
      rintro rfl
      rw [live.awake] at zombie
      cases zombie
    have cr3 : m.cr3 ≠ (m.kernel.procs i).pml4 := by
      rw [((Machine.loaded_some proc).mp loaded).1]
      exact fun same => other (s.separate.apart p i live.pid occupied same)
    refine ⟨reaped.roles, reaped.separate.destroys (Ne.symm (s.separate.user i occupied)) fun q pid same => ?_,
      fun mem => ?_, ?_, reaped.loaded⟩
    · have h : q ≠ i := by
        rintro rfl
        exact pid empty
      have here : (reap m.kernel i).procs q = m.kernel.procs q := others q h
      dsimp only at pid same
      rw [here] at pid same
      exact h (s.separate.apart q i pid occupied same)
    · rcases List.mem_cons.mp mem with same | older
      · exact cr3 same
      · exact s.cr3 older
    · simp [Machine.destroys, s.never, cr3]
  · -- a stop is reported
    have same : ∀ j, (((m.kernel.setProc i fun x => { x with stopReported := true }).procs j).pid) =
        (m.kernel.procs j).pid := by
      intro j
      by_cases h : j = i
      · subst h
        simp [Kernel.setProc]
      · simp [Kernel.setProc, h]
    rw [eq] at done
    dsimp only at done
    rw [clearedSlot_none same] at done
    cases done
    exact s.kept (setProc_kept m.kernel i rfl rfl rfl) (s.roles.setProc i rfl rfl)
  · rw [eq] at done
    dsimp only at done
    rw [clearedSlot_none fun _ => rfl] at done
    dsimp only at done
    split at done
    · exact s.block caller _ done
    · cases done
      exact s

section Programs

variable {σ F : Type} (tree : FileTree σ) (fs : Foreign F) (elsewhere : F → Nat → FileReader)

theorem Machine.Sound.exec (s : m.Sound) {p : Nat} (caller : m.kernel.caller = some p) (frame : TrapFrame)
    (files : Files F) (path : List Char) (argv envp : List CString) (seed : Word)
    (unused : ∀ x, execProgram fs elsewhere ⟨m.kernel, ⟨m.cr3, m.fsBase⟩, frame⟩ files path = some x →
      Unused m.kernel (vmmNewAddressSpace x.2.1).2) :
    (m.exec fs elsewhere p frame files path argv envp seed).Sound := by
  obtain ⟨-, proc, live, -, loaded⟩ := s.caller caller
  obtain ⟨f, ends, space⟩ :=
    doExec_ends fs elsewhere ⟨m.kernel, ⟨m.cr3, m.fsBase⟩, frame⟩ files path argv envp seed proc
  unfold Machine.exec
  dsimp only
  rcases ends with ⟨failed, vm, tables, eq⟩ | ⟨committed, cpu, vm, heap, tables, eq⟩
  · rw [if_neg failed, eq]
    exact s.kept (setVm_kept m.kernel tables) (s.roles.quiet (setVm_quiet m.kernel vm))
  · obtain ⟨x, program, rfl⟩ := space committed
    have fresh := unused x program
    rw [if_pos committed, cpu, eq]
    generalize (vmmNewAddressSpace x.2.1).2 = f at fresh ⊢
    let g : Process → Process := fun x =>
      { x with pml4 := f, heapStart := heap, heapEnd := heap, fsBase := 0#64 }
    have roles : Roles { m.kernel.setProc p g with vm := vm } :=
      (s.roles.setProc p (f := g) rfl rfl).quiet (setVm_quiet _ vm)
    have separate : Separate { m.kernel.setProc p g with vm := vm } (m.destroyed.filter fun y => y ≠ f) :=
      (s.separate.given s.roles.ordered fresh p rfl).of_procs tables fun _ pid => ⟨pid, rfl⟩
    have here : (m.kernel.setProc p g).procs p = g (m.kernel.procs p) := Function.update_self _ _ _
    have old : f ≠ (m.kernel.procs p).pml4 := Ne.symm (fresh.2 p live.bound live.pid)
    have born : f ∉ m.destroyed.filter fun y => y ≠ f := by simp
    refine ⟨roles, separate.destroys ?_ fun q pid same => ?_, fun mem => ?_, ?_, fun _ => ?_⟩
    · rw [show ({ m.kernel.setProc p g with vm := vm } : Kernel).vm.kernelPml4 = m.kernel.vm.kernelPml4 from tables]
      exact Ne.symm (s.separate.user p live.pid)
    · by_cases h : q = p
      · subst h
        exact old ((congrArg Process.pml4 here).symm.trans same)
      · have there : (m.kernel.setProc p g).procs q = m.kernel.procs q := Function.update_of_ne h _ _
        have pid' : ((m.kernel.setProc p g).procs q).pid ≠ 0 := pid
        have same' : ((m.kernel.setProc p g).procs q).pml4 = (m.kernel.procs p).pml4 := same
        rw [there] at pid' same'
        exact h (s.separate.apart q p pid' live.pid same')
    · rcases List.mem_cons.mp mem with same | older
      · exact old same
      · exact born older
    · simp [Machine.destroys, Machine.activate, Machine.creates, s.never, old]
    · let now : Machine := ⟨{ m.kernel.setProc p g with vm := vm }, f, 0#64, m.rsp0, m.destroyed, m.stale⟩
      have top := ((Machine.loaded_some proc).mp loaded).2.2
      have still : now.Loaded := by
        refine (Machine.loaded_some (m := now) proc).mpr ?_
        dsimp only [now]
        rw [here]
        exact ⟨rfl, rfl, top⟩
      exact still

/-- A system call, unless nobody can make one now. -/
theorem Machine.Sound.called (s : m.Sound) {call : Nat → Option Machine}
    (done : m.kernel.caller.elim (some m) call = some m')
    (each : ∀ p, m.kernel.caller = some p → call p = some m' → m'.Sound) : m'.Sound := by
  cases caller : m.kernel.caller with
  | none =>
    rw [caller] at done
    cases done
    exact s
  | some p =>
    rw [caller] at done
    exact each p caller done

theorem cpuStep_sound (s : m.Sound) (op : CpuOp F) (apart : ∀ f ∈ spaceMade fs elsewhere m op, Unused m.kernel f)
    (done : cpuStep tree fs elsewhere m op = some m') : m'.Sound := by
  cases op with
  | yield => exact s.yield done
  | archSetFs addr => exact s.called done fun p caller done => s.archSetFs caller done
  | fork point frame =>
    refine s.called done fun p caller done => ?_
    cases done
    refine s.fork caller point frame fun i slot => apart _ ?_
    simp only [spaceMade]
    rw [caller, Option.bind_some, slot]
    rfl
  | exec frame files path argv envp seed =>
    refine s.called done fun p caller done => ?_
    cases done
    refine s.exec fs elsewhere caller frame files path argv envp seed fun x program => apart _ ?_
    simp only [spaceMade]
    rw [caller, Option.bind_some, program]
    rfl
  | exit status => exact s.called done fun p caller done => s.endCurrent caller done
  | kill pid sig => exact s.called done fun p caller done => s.kill done
  | waitpid target => exact s.called done fun p caller done => s.waitpid caller done
  | block chan => exact s.called done fun p caller done => s.block caller chan done
  | wake chan =>
    cases done
    exact s.kept ((taskWake_quiet m.kernel chan).kept rfl) (s.roles.quiet (taskWake_quiet m.kernel chan))
  | signals pids sig => exact s.signalForeground done
  | spawns pmm mem heap trampoline rip rsp =>
    unfold cpuStep at done
    cases proc : m.kernel.currentProcess with
    | some p =>
      rw [proc] at done
      cases done
      exact s
    | none =>
      rw [proc] at done
      cases done
      have loaded : Quiet m.kernel (m.kernel.setMemory pmm mem) := setVm_quiet m.kernel _
      have s' := s.kept (loaded.kept rfl) (s.roles.quiet loaded)
      have unused : Unused (m.kernel.setMemory pmm mem) (vmmNewAddressSpace m.kernel.vm).2 := apart _ rfl
      obtain ⟨roles, same | ⟨i, vacant, x, pml4, kept⟩⟩ :=
        spawnFirst_kept tree s'.roles (vmmNewAddressSpace m.kernel.vm).2 heap trampoline rip rsp
      · dsimp only at same ⊢
        rw [same]
        refine ⟨s'.roles, ⟨s'.separate.apart, s'.separate.user, fun p pid mem => ?_, fun mem => ?_⟩, fun mem => ?_,
          s'.never, s'.loaded⟩
        · exact s'.separate.alive p pid (List.mem_filter.mp mem).1
        · exact s'.separate.tables (List.mem_filter.mp mem).1
        · exact s'.cr3 (List.mem_filter.mp mem).1
      · exact s'.populated vacant pml4 unused roles kept
  | works pmm mem pipes fds =>
    cases done
    have quiet : Quiet m.kernel
        { m.kernel.setMemory pmm mem with
          pipes := pipes, procs := fun p => { m.kernel.procs p with fds := fds p } } :=
      Quiet.of_tables rfl rfl rfl rfl fun _ => rfl
    exact s.kept (quiet.kept rfl) (s.roles.quiet quiet)

theorem bootMachine_sound (vm : Vm) (hhdm fsBase : Word) : (bootMachine vm hhdm fsBase).Sound :=
  ⟨bootKernel_roles vm hhdm, ⟨fun _ _ pid => absurd rfl pid, fun _ pid => absurd rfl pid,
    fun _ pid => absurd rfl pid, List.not_mem_nil⟩, List.not_mem_nil, rfl, fun _ => rfl⟩

/-- In every run in which no address space is made in a page that is already a PML4 in use, CR3,
the FS base and the stack in the TSS belong to the current task whenever it has a process and
has not ended, and CR3 never holds an address space that was destroyed. -/
theorem registers_match_task (vm : Vm) (hhdm fsBase : Word) (ops : List (CpuOp F))
    (apart : Run.Along (cpuRun tree fs elsewhere) (MakesApart fs elsewhere) (some (bootMachine vm hhdm fsBase)) ops)
    (m : Machine) (reached : (Run.run (cpuRun tree fs elsewhere) (some (bootMachine vm hhdm fsBase)) ops).1 = some m) :
    (∀ p, m.kernel.currentProcess = some p → (m.kernel.tasks m.kernel.current).state ≠ .terminated →
      m.cr3 = (m.kernel.procs p).pml4 ∧ m.fsBase = (m.kernel.procs p).fsBase ∧
        m.rsp0 = (m.kernel.tasks m.kernel.current).kernelStackTop) ∧
    m.cr3 ∉ m.destroyed ∧ m.stale = false := by
  have sound : ∀ m ∈ (Run.run (cpuRun tree fs elsewhere) (some (bootMachine vm hhdm fsBase)) ops).1, m.Sound := by
    refine Run.run_invariant_along (cpuRun tree fs elsewhere) (MakesApart fs elsewhere)
      (fun s => ∀ m ∈ s, m.Sound) (fun s op inv ok m' made => ?_) _ ops ?_ apart
    · obtain ⟨m, here, done⟩ := Option.bind_eq_some_iff.mp made
      exact cpuStep_sound tree fs elsewhere (inv m here) op (ok m here) done
    · rintro m ⟨⟩
      exact bootMachine_sound vm hhdm fsBase
  have s := sound m reached
  exact ⟨fun p proc awake => (Machine.loaded_some proc).mp (s.loaded awake), s.cr3, s.never⟩

end Programs

end Machines

/-- A page that the allocator had is no PML4 of anyone, if those are marked as used. So the address
spaces of a run can only meet in page 0, which a failed allocation answers. -/
theorem unused_of_held {k : Kernel} (tables : Held k.vm.pmm k.vm.kernelPml4)
    (spaces : ∀ p, (k.procs p).pid ≠ 0 → Held k.vm.pmm (k.procs p).pml4) (ok : (vmmNewAddressSpace k.vm).2 ≠ 0) :
    Unused k (vmmNewAddressSpace k.vm).2 := by
  have handed := pmmAllocPage_handed ok
  have free : ¬ Held k.vm.pmm (vmmNewAddressSpace k.vm).2 := fun held => by
    have marked := held handed.bound
    rw [show k.vm.pmm.bitmap (vmmNewAddressSpace k.vm).2 = false from handed.clear] at marked
    cases marked
  exact ⟨fun same => free (same ▸ tables), fun p _ pid same => free (same ▸ spaces p pid)⟩

/-- Thirty-two pages, of which these are free. -/
def onlyFree (free : List Nat) : Pmm :=
  .small 32#6 (fun f => decide (f ∉ free)) (fun f => if f ∈ free then 0 else 1) free.length (32 - free.length)

/-- The tables of a first process whose program is one page. -/
def loadedMem : PhysMem := fun f i =>
  if (f, i) = (2, 0) then tableEntry 7
  else if (f, i) = (7, 0) then tableEntry 8
  else if (f, i) = (8, 2) then tableEntry 9
  else if (f, i) = (9, 0) then pageAddr 10 ||| (ptePresent ||| pteUser)
  else 0#64

/-- `task_init` is done, and only these pages are free. -/
def bootWith (free : List Nat) : Machine := bootMachine ⟨onlyFree free, fun _ _ => 0#64, 1⟩ 0#64 0#64

/-- The first process runs, with these pages left. -/
def shellRuns (free : List Nat) (mem : PhysMem) : List (CpuOp Unit) :=
  [.spawns (onlyFree free) mem 0x401000#64 0#64 0x400000#64 0#64, .yield]

/-- It sets its FS base and forks, and its child exits and is waited for. -/
def childComesAndGoes : List (CpuOp Unit) :=
  shellRuns [3, 4, 5, 6, 11, 12, 13, 14, 15] (fun _ _ => 0#64) ++
    [.archSetFs 0x7000#64, .fork 0#64 zeroFrameRegs, .yield, .exit 0, .yield, .waitpid (-1)]

set_option maxRecDepth 20000 in
theorem registers_match_task_child :
    ∃ m, (Run.run (cpuRun oneFile consoleOnly noReader) (some (bootWith [2])) childComesAndGoes).1 = some m ∧
      m.cr3 = (m.kernel.procs 0).pml4 ∧ m.fsBase = (m.kernel.procs 0).fsBase ∧
      m.rsp0 = (m.kernel.tasks 1).kernelStackTop ∧ m.cr3 ∉ m.destroyed ∧ m.stale = false := by
  have apart : Run.Along (cpuRun oneFile consoleOnly noReader) (MakesApart consoleOnly noReader)
      (some (bootWith [2])) childComesAndGoes := by
    decide +kernel
  have runs : (Run.run (cpuRun oneFile consoleOnly noReader) (some (bootWith [2])) childComesAndGoes).1.map
      (fun m => (m.kernel.currentProcess, m.kernel.current, (m.kernel.tasks m.kernel.current).state)) =
        some (some 0, 1, .running) := by
    decide +kernel
  obtain ⟨m, reached, same⟩ := Option.map_eq_some_iff.mp runs
  simp only [Prod.mk.injEq] at same
  obtain ⟨proc, current, running⟩ := same
  obtain ⟨loaded, gone, never⟩ :=
    registers_match_task oneFile consoleOnly noReader _ _ _ childComesAndGoes apart m reached
  obtain ⟨cr3, fs, top⟩ := loaded 0 proc (by rw [running]; decide)
  exact ⟨m, reached, cr3, fs, current ▸ top, gone, never⟩

/-- With no page left, two forked children both get page 0 for a PML4. When one of them was
killed and reaped, the other one runs in the address space that was destroyed. -/
def childrenShareZero : List (CpuOp Unit) :=
  shellRuns [3, 4, 5, 6] loadedMem ++
    [.fork 0#64 zeroFrameRegs, .fork 0#64 zeroFrameRegs, .kill 2 sigkill, .waitpid 2, .yield]

set_option maxRecDepth 20000 in
theorem reaped_sibling_leaves_cr3_destroyed :
    (Run.run (cpuRun oneFile consoleOnly noReader) (some (bootWith [2])) childrenShareZero).1.map
      (fun m => (m.kernel.currentProcess, m.cr3, m.destroyed, m.stale)) = some (some 2, 0, [0], true) := by
  decide +kernel

end Isunux
