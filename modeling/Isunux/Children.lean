import Isunux.Sleeping

/-! Waiting for children, going to sleep, and new processes, under the invariant of
the sleepers. -/
namespace Isunux

section Waiting

variable {kb : Keyboard} {calls : Nat → Option Call} {k : Kernel}

theorem Counted.clear {k' : Kernel} (c : Counted k) {i : Nat} {e : Process}
    (dead : (k.procs i).pid = 0 ∨ (k.procs i).isZombie = true) (pipes : k'.pipes = k.pipes)
    (procs : k'.procs = Function.update k.procs i e) (empty : ∀ fd, (e.fds fd).used = false) :
    Counted k' := by
  have unused := c.closed i dead
  refine c.relabel pipes (fun q fd => ?_) fun q gone fd => ?_
  · rw [procs]
    by_cases h : q = i
    · subst h
      simp [unused fd, empty fd]
    · simp [h]
  · rw [procs] at gone
    by_cases h : q = i
    · subst h; exact unused fd
    · simp only [Function.update_of_ne h] at gone
      exact c.closed q gone fd

theorem Good.reap (g : Good kb calls k) {i : Nat} (zombie : (k.procs i).isZombie = true) :
    Good kb calls (reap k i) := by
  refine ⟨?_, ?_, g.fits, g.owned, g.asleep.hushed g.owned ⟨fun _ b => ⟨b, rfl⟩, ?_, ?_⟩⟩
  · refine g.ordered.clear zombie rfl rfl rfl rfl ?_ fun q h => ?_
    · simp [Isunux.reap, Kernel.setProc, Process.zero]
    · simp [Isunux.reap, Kernel.setProc, h]
  · exact g.counted.clear (.inr zombie) rfl rfl fun _ => rfl
  · exact fun _ _ _ _ => ⟨rfl, id, id⟩
  · intro t s blocked _ proc target j _ child reportable
    have live := (g.ordered.owner t s (by rw [show (k.tasks t).state = _ from blocked]; decide) proc)
    have hs : s ≠ i := by
      rintro rfl
      rw [zombie] at live
      exact absurd live.2.1 (by decide)
    have hj : j ≠ i := by
      rintro rfl
      simp [Isunux.reap, Kernel.setProc, Process.isChild, Process.zero] at child
    simp only [Isunux.reap, Kernel.setProc, Function.update_of_ne hs, Function.update_of_ne hj]
      at child reportable
    exact ⟨child, reportable⟩

/-- What one scan of `process_waitpid` finds: a zombie, a stop nobody was told of,
or nothing to tell. -/
theorem waitScan_cases (k : Kernel) (self : Nat) (target : Int) (is : List Nat) (found : Bool) :
    (∃ i ∈ is, (k.procs self).isChild target (k.procs i) = true ∧ (k.procs i).isZombie = true ∧
      waitScan k self target is found = (reap k i, .reports (k.procs i).pid (k.procs i).exitCode)) ∨
    (∃ i ∈ is, (k.procs self).isChild target (k.procs i) = true ∧ (k.procs i).isZombie = false ∧
      (k.procs i).isStopped = true ∧ (k.procs i).stopReported = false ∧
      waitScan k self target is found = (k.setProc i fun x => { x with stopReported := true },
        .reports (k.procs i).pid (encodeStopped (k.procs i).stopSignal))) ∨
    (waitScan k self target is found =
        (k, if found || is.any fun i => (k.procs self).isChild target (k.procs i) then .sleeps
          else .noChild) ∧
      ∀ i ∈ is, (k.procs self).isChild target (k.procs i) = true → (k.procs i).reportable = false) := by
  induction is generalizing found with
  | nil => exact .inr (.inr ⟨by simp [waitScan], by simp⟩)
  | cons i rest ih =>
    rw [waitScan]
    split
    · rename_i stranger
      rcases ih found with ⟨j, hj, h⟩ | ⟨j, hj, h⟩ | ⟨same, none⟩
      · exact .inl ⟨j, List.mem_cons_of_mem i hj, h⟩
      · exact .inr (.inl ⟨j, List.mem_cons_of_mem i hj, h⟩)
      · refine .inr (.inr ⟨by rw [same, List.any_cons, stranger, Bool.false_or], fun j hj child => ?_⟩)
        rcases List.mem_cons.mp hj with rfl | hj
        · rw [stranger] at child
          cases child
        · exact none j hj child
    rename_i child
    rw [Bool.not_eq_false] at child
    split
    · rename_i zombie
      exact .inl ⟨i, List.mem_cons_self, child, zombie, rfl⟩
    rename_i awake
    rw [Bool.not_eq_true] at awake
    split
    · rename_i news
      rw [Bool.and_eq_true, Bool.not_eq_true'] at news
      exact .inr (.inl ⟨i, List.mem_cons_self, child, awake, news.1, news.2, rfl⟩)
    · rename_i reported
      rcases ih true with ⟨j, hj, h⟩ | ⟨j, hj, h⟩ | ⟨same, none⟩
      · exact .inl ⟨j, List.mem_cons_of_mem i hj, h⟩
      · exact .inr (.inl ⟨j, List.mem_cons_of_mem i hj, h⟩)
      · refine .inr (.inr ⟨by rw [same, List.any_cons, child]; simp, fun j hj child => ?_⟩)
        rcases List.mem_cons.mp hj with rfl | hj
        · rw [Bool.not_eq_true] at reported
          simp [Process.reportable, awake, reported]
        · exact none j hj child

theorem Good.waitpid (g : Good kb calls k) (self : Nat) (target : Int) :
    Good kb calls (processWaitpid k self target).1 := by
  unfold processWaitpid
  rcases waitScan_cases k self target (List.range maxProcesses) false with
    ⟨i, -, -, zombie, eq⟩ | ⟨i, -, -, -, -, -, eq⟩ | ⟨eq, -⟩
  · rw [eq]
    exact g.reap zombie
  · rw [eq]
    exact g.setProc i (fun x => { x with stopReported := true }) rfl rfl
      (by simp only [Process.reportable]; grind) rfl
  · rw [eq]
    exact g

theorem processWaitpid_sleeps {self : Nat} {target : Int}
    (h : (processWaitpid k self target).2 = .sleeps) :
    (processWaitpid k self target).1 = k ∧ ¬ (Call.waitpid self target).ready k kb := by
  unfold processWaitpid at h ⊢
  rcases waitScan_cases k self target (List.range maxProcesses) false with
    ⟨i, -, -, -, eq⟩ | ⟨i, -, -, -, -, -, eq⟩ | ⟨eq, none⟩
  · rw [eq] at h
    cases h
  · rw [eq] at h
    cases h
  · refine ⟨by rw [eq], ?_⟩
    rintro ⟨i, hi, child, reportable⟩
    rw [none i (List.mem_range.mpr hi) child] at reportable
    cases reportable

theorem processWaitpid_tasks (k : Kernel) (self : Nat) (target : Int) :
    (processWaitpid k self target).1.tasks = k.tasks ∧
      (processWaitpid k self target).1.current = k.current := by
  unfold processWaitpid
  rcases waitScan_cases k self target (List.range maxProcesses) false with
    ⟨i, -, -, -, eq⟩ | ⟨i, -, -, -, -, -, eq⟩ | ⟨eq, -⟩
  · rw [eq]; exact ⟨rfl, rfl⟩
  · rw [eq]; exact ⟨rfl, rfl⟩
  · rw [eq]; exact ⟨rfl, rfl⟩

theorem Good.sleep (g : Good kb calls k) {c : Call} (running : (k.tasks k.current).state = .running)
    (own : c.ownedBy (k.tasks k.current).proc) (waits : ¬ c.ready k kb) :
    Good kb (Function.update calls k.current (some c)) (Isunux.yield (taskSleep k c.chan)) := by
  have o := g.ordered
  have task : ∀ t, ((taskSleep k c.chan).tasks t).proc = (k.tasks t).proc ∧
      ((taskSleep k c.chan).tasks t).next = (k.tasks t).next ∧
      (((taskSleep k c.chan).tasks t).state = .terminated ↔ (k.tasks t).state = .terminated) := by
    intro t
    by_cases h : t = k.current
    · subst h; simp [taskSleep, Kernel.setTask, running]
    · simp [taskSleep, Kernel.setTask, h]
  refine Good.yield ⟨⟨o.current_lt, o.count_le, ?_, ?_, o.nextPid_pos, o.pids, o.unique, o.vacant,
    ?_, ?_⟩, g.counted.congr rfl fun _ => ⟨rfl, rfl, rfl⟩, g.fits, ?_, ?_⟩
  · intro t ht
    rw [(task t).2.1]
    exact o.next_lt t ht
  · intro t blocked
    by_cases h : t = k.current
    · subst h; exact o.current_lt
    · simp only [taskSleep, Kernel.setTask, Function.update_of_ne h] at blocked
      exact o.idle t blocked
  · intro t p awake proc
    rw [Ne, (task t).2.2] at awake
    rw [(task t).1] at proc
    exact o.owner t p awake proc
  · intro p t pid zombie link
    rw [Ne, (task t).2.2, (task t).1]
    exact o.task p t pid zombie link
  · intro t c' call
    rw [(task t).1]
    by_cases h : t = k.current
    · subst h
      simp only [Function.update_self, Option.some.injEq] at call
      subst call
      exact ⟨o.current_lt, own⟩
    · rw [Function.update_of_ne h] at call
      exact g.owned t c' call
  · intro t blocked
    by_cases h : t = k.current
    · subst h
      exact ⟨c, by simp, by simp [taskSleep, Kernel.setTask], waits⟩
    · simp only [taskSleep, Kernel.setTask, Function.update_of_ne h] at blocked
      obtain ⟨c', call, wait, waits'⟩ := g.asleep t blocked
      refine ⟨c', by rw [Function.update_of_ne h]; exact call, ?_, waits'⟩
      simpa only [taskSleep, Kernel.setTask, Function.update_of_ne h] using wait

theorem Good.leave (g : Good kb calls k) {calls' : Nat → Option Call}
    (fewer : ∀ t c, calls' t = some c → calls t = some c)
    (kept : ∀ t, (k.tasks t).state = .blocked → calls' t = calls t) : Good kb calls' k := by
  refine ⟨g.ordered, g.counted, g.fits, fun t c call => g.owned t c (fewer t c call), ?_⟩
  intro t blocked
  obtain ⟨c, call, rest⟩ := g.asleep t blocked
  exact ⟨c, (kept t blocked).trans call, rest⟩

theorem Good.finish (g : Good kb calls k) {t : Nat} (awake : (k.tasks t).state ≠ .blocked) :
    Good kb (Function.update calls t none) k := by
  refine g.leave (fun u c call => ?_) fun u blocked => ?_
  · by_cases h : u = t
    · subst h; simp at call
    · rwa [Function.update_of_ne h] at call
  · have h : u ≠ t := by
      rintro rfl
      exact awake blocked
    rw [Function.update_of_ne h]

end Waiting

section Forking

variable {kb : Keyboard} {calls : Nat → Option Call} {k : Kernel}

theorem Good.vm (g : Good kb calls k) (vm : Vm) : Good kb calls { k with vm := vm } :=
  g.calm (Calm.ofTasks ⟨id, rfl, rfl, fun _ => ⟨rfl, rfl, Iff.rfl⟩, fun _ => id, fun _ => rfl⟩ rfl rfl
    fun _ _ => rfl) (g.counted.congr rfl fun _ => ⟨rfl, rfl, rfl⟩) g.fits

theorem Good.alloc (g : Good kb calls k) (parent : Int) : Good kb calls (processAlloc k parent).1 := by
  cases slot : (processAlloc k parent).2 with
  | none =>
    rw [processAlloc_failed slot]
    exact g
  | some i =>
    have ordered := processAlloc_ordered g.ordered parent
    obtain ⟨-, vacant, eq⟩ := processAlloc_eq slot
    rw [eq] at ordered ⊢
    refine ⟨ordered, ?_, g.fits, g.owned, g.asleep.hushed g.owned ⟨fun _ b => ⟨b, rfl⟩, ?_, ?_⟩⟩
    · exact g.counted.clear (.inl vacant) rfl rfl fun _ => rfl
    · exact fun _ _ _ _ => ⟨rfl, id, id⟩
    · intro t s blocked _ proc target j _ child reportable
      have live := g.ordered.owner t s (by rw [show (k.tasks t).state = _ from blocked]; decide) proc
      have hs : s ≠ i := by
        rintro rfl
        exact live.1 vacant
      have hj : j ≠ i := by
        rintro rfl
        simp [Process.reportable, Process.zero] at reportable
      simp only [Function.update_of_ne hs, Function.update_of_ne hj] at child reportable
      exact ⟨child, reportable⟩

/-- A process right after `process_alloc`. -/
structure Newborn (k : Kernel) (p : Nat) : Prop where
  live : k.Live p
  alone : (k.procs p).task = none
  empty : ∀ fd, ((k.procs p).fds fd).used = false

theorem processAlloc_newborn (o : Ordered k) {parent : Int} {i : Nat}
    (slot : (processAlloc k parent).2 = some i) : Newborn (processAlloc k parent).1 i := by
  obtain ⟨bound, -, entry⟩ := processAlloc_some slot
  have := o.nextPid_pos
  refine ⟨⟨bound, ?_, ?_⟩, ?_, ?_⟩
  · rw [entry]
    simp only
    omega
  · rw [entry]; rfl
  · rw [entry]; rfl
  · intro fd
    rw [entry]; rfl

theorem processCloneInto_moves {child : Nat} (new : Newborn k child) (src pml4 : Nat) :
    ∃ f : Process → Process, (f (k.procs child)).identity = (k.procs child).identity ∧
      (f (k.procs child)).parentPid = (k.procs child).parentPid ∧
      (f (k.procs child)).reportable = (k.procs child).reportable ∧
      (f (k.procs child)).fds = (k.procs child).fds ∧
      FdMoves (k.setProc child f) (processCloneInto k child src pml4) := by
  refine ⟨fun d =>
    { d with
      pml4 := pml4, heapStart := (k.procs src).heapStart, heapEnd := (k.procs src).heapEnd
      mmapNext := (k.procs src).mmapNext, uid := (k.procs src).uid, gid := (k.procs src).gid
      fsBase := (k.procs src).fsBase, cwd := (k.procs src).cwd }, rfl, rfl, rfl, rfl, ?_⟩
  refine cloneFds_moves ⟨new.live.bound, ?_, ?_⟩ ?_
  · simpa [Kernel.setProc] using new.live.pid
  · simpa [Kernel.setProc] using new.live.awake
  · simpa [Kernel.setProc] using new.empty

theorem Good.cloneInto (g : Good kb calls k) {child : Nat} (new : Newborn k child) (src pml4 : Nat) :
    Good kb calls (processCloneInto k child src pml4) ∧
      Steady k (processCloneInto k child src pml4) := by
  obtain ⟨f, same, parent, less, fds, moves⟩ := processCloneInto_moves new src pml4
  have g₁ := g.setProc child f same parent (by rw [less]; exact id) fds
  exact ⟨g₁.move moves, (setProc_steady k child f same).trans moves.steady⟩

theorem Good.spliced (g : Good kb calls k)
    (dead : ∀ t, (k.tasks t).state = .terminated → calls t = none) {t : Nat}
    (slot : (taskAllocRaw k).2 = some t) : Good kb calls (taskAllocRaw k).1 ∧ calls t = none := by
  have s := taskAllocRaw_spliced g.ordered slot
  have idle : calls t = none := by
    rcases s.free with high | ended
    · cases call : calls t with
      | none => rfl
      | some c =>
        have := (g.owned t c call).1
        omega
    · exact dead t ended
  have awake : ∀ u, ((taskAllocRaw k).1.tasks u).state = .blocked → u ≠ t := by
    rintro u blocked rfl
    rw [s.fresh.2] at blocked
    cases blocked
  refine ⟨⟨s.ordered, ?_, ?_, ?_, ?_⟩, idle⟩
  · exact g.counted.congr s.procs fun i => by rw [s.pipes]; exact ⟨rfl, rfl, rfl⟩
  · intro i
    rw [s.pipes]
    exact g.fits i
  · intro u c call
    have h : u ≠ t := by
      rintro rfl
      rw [idle] at call
      cases call
    obtain ⟨n, eq⟩ := s.others u h
    obtain ⟨bound, own⟩ := g.owned u c call
    rw [eq]
    exact ⟨bound.trans_le s.grows, own⟩
  · refine g.asleep.hushed g.owned ⟨fun u blocked => ?_, fun u i _ _ => ?_, ?_⟩
    · obtain ⟨n, eq⟩ := s.others u (awake u blocked)
      rw [eq] at blocked ⊢
      exact ⟨blocked, rfl⟩
    · rw [s.pipes]
      exact ⟨rfl, id, id⟩
    · intro u p _ _ _ target i _ child reportable
      rw [s.procs] at child reportable
      exact ⟨child, reportable⟩

theorem Good.link (g : Good kb calls k) {t p : Nat} (idle : calls t = none) (bound : t < k.taskCount)
    (fresh : (k.tasks t).proc = none ∧ (k.tasks t).state = .ready) (live : k.Live p)
    (alone : (k.procs p).task = none) :
    Good kb calls ((k.setTask t fun x => { x with proc := some p }).setProc p fun x =>
      { x with task := some t }) := by
  have tasks : ∀ u, u ≠ t → ((k.setTask t fun x => { x with proc := some p }).setProc p fun x =>
      { x with task := some t }).tasks u = k.tasks u := by
    intro u h
    simp [Kernel.setTask, Kernel.setProc, h]
  have procs : ∀ q, (((k.setTask t fun x => { x with proc := some p }).setProc p fun x =>
        { x with task := some t }).procs q).fds = (k.procs q).fds ∧
      (((k.setTask t fun x => { x with proc := some p }).setProc p fun x =>
        { x with task := some t }).procs q).pid = (k.procs q).pid ∧
      (((k.setTask t fun x => { x with proc := some p }).setProc p fun x =>
        { x with task := some t }).procs q).isZombie = (k.procs q).isZombie ∧
      (((k.setTask t fun x => { x with proc := some p }).setProc p fun x =>
        { x with task := some t }).procs q).parentPid = (k.procs q).parentPid ∧
      (((k.setTask t fun x => { x with proc := some p }).setProc p fun x =>
        { x with task := some t }).procs q).reportable = (k.procs q).reportable := by
    intro q
    by_cases h : q = p
    · subst h; simp [Kernel.setTask, Kernel.setProc, Process.reportable]
    · simp [Kernel.setTask, Kernel.setProc, h]
  have awake : ∀ u, (((k.setTask t fun x => { x with proc := some p }).setProc p fun x =>
      { x with task := some t }).tasks u).state = .blocked → u ≠ t := by
    rintro u blocked rfl
    simp [Kernel.setTask, Kernel.setProc, fresh.2] at blocked
  refine ⟨?_, ?_, g.fits, ?_, ?_⟩
  · refine g.ordered.link bound fresh live alone rfl rfl rfl ?_ tasks ?_ ?_
    · simp [Kernel.setTask, Kernel.setProc, fresh.2]
    · simp [Kernel.setTask, Kernel.setProc, Process.identity]
    · intro q h
      simp [Kernel.setTask, Kernel.setProc, h]
  · refine g.counted.relabel rfl (fun q fd => ?_) fun q dead => ?_
    · rw [(procs q).1]
      exact ⟨rfl, fun _ => rfl⟩
    · rw [(procs q).2.1, (procs q).2.2.1] at dead
      exact g.counted.closed q dead
  · intro u c call
    have h : u ≠ t := by
      rintro rfl
      rw [idle] at call
      cases call
    rw [tasks u h]
    exact g.owned u c call
  · refine g.asleep.hushed g.owned ⟨fun u blocked => ?_, fun _ _ _ _ => ⟨rfl, id, id⟩, ?_⟩
    · have same := tasks u (awake u blocked)
      rw [same] at blocked ⊢
      exact ⟨blocked, rfl⟩
    · intro u s _ _ _ target i _ child reportable
      rw [isChild_congr (procs s).2.1 (procs i).2.1 (procs i).2.2.2.1] at child
      rw [(procs i).2.2.2.2] at reportable
      exact ⟨child, reportable⟩

theorem Good.forkTask (g : Good kb calls k)
    (dead : ∀ t, (k.tasks t).state = .terminated → calls t = none) {child : Nat}
    (live : k.Live child) (alone : (k.procs child).task = none) (point : Word) (frame : TrapFrame) :
    Good kb calls (forkTask k child point frame).1 := by
  unfold Isunux.forkTask
  split
  · rename_i k' failed
    have same := taskAllocRaw_failed (k := k) (by rw [failed])
    rw [failed] at same
    exact same ▸ g
  · rename_i k' t made
    have slot : (taskAllocRaw k).2 = some t := by rw [made]
    obtain ⟨g₁, idle⟩ := g.spliced dead slot
    have s := taskAllocRaw_spliced g.ordered slot
    rw [made] at g₁ s
    simp only at g₁ s
    have g₂ := g₁.link idle s.bound s.fresh
      ⟨live.bound, by rw [s.procs]; exact live.pid, by rw [s.procs]; exact live.awake⟩
      (by rw [s.procs]; exact alone)
    have ready : (((k'.setTask t fun x => { x with proc := some child }).setProc child fun x =>
        { x with task := some t }).tasks t).state = .ready := by
      simp [Kernel.setTask, Kernel.setProc, s.fresh.2]
    simp only
    generalize (k'.setTask t fun x => { x with proc := some child }).setProc child
      (fun x => { x with task := some t }) = k₂ at g₂ ready ⊢
    split
    · exact g₂
    · dsimp only
      refine Good.setTask (g₂.vm _) t .ready _ ?_ ?_ ?_ (by decide) (by decide) ?_
      · rfl
      · rfl
      · rfl
      · simp only [ready]
        decide

theorem Good.fork (g : Good kb calls k)
    (dead : ∀ t, (k.tasks t).state = .terminated → calls t = none) (point : Word)
    (frame : TrapFrame) : Good kb calls (doFork k point frame).1 := by
  unfold doFork
  split
  · exact g
  · rename_i parent _
    have g₁ := g.alloc (k.procs parent).pid
    split
    · rename_i k' failed
      rw [failed] at g₁
      exact g₁
    · rename_i k' child made
      have slot : (processAlloc k (k.procs parent).pid).2 = some child := by rw [made]
      have new := processAlloc_newborn g.ordered slot
      have eq := (processAlloc_eq slot).2.2
      rw [made] at g₁ new eq
      simp only at g₁ new eq ⊢
      have dead' : ∀ t, (k'.tasks t).state = .terminated → calls t = none := by
        rw [eq]
        exact dead
      clear eq made
      generalize vmmCloneLowerHalf (vmmNewAddressSpace k'.vm).1 (vmmNewAddressSpace k'.vm).2
        (k'.procs parent).pml4 = vm
      have newborn : Newborn { k' with vm := vm } child :=
        ⟨⟨new.live.bound, new.live.pid, new.live.awake⟩, new.alone, new.empty⟩
      obtain ⟨g₂, steady⟩ := (g₁.vm vm).cloneInto newborn parent (vmmNewAddressSpace k'.vm).2
      obtain ⟨pid, zombie, task⟩ := Process.identity_eq (steady.procs child)
      refine g₂.forkTask ?_ ⟨new.live.bound, ?_, ?_⟩ ?_ point frame
      · intro t ended
        exact dead' t ((steady.tasks t).2.2.mp ended)
      · rw [pid]; exact new.live.pid
      · rw [zombie]; exact new.live.awake
      · rw [task]; exact new.alone

theorem Good.createUser (g : Good kb calls k)
    (dead : ∀ t, (k.tasks t).state = .terminated → calls t = none) {p : Nat} (live : k.Live p)
    (alone : (k.procs p).task = none) (trampoline rip rsp : Word) :
    Good kb calls (taskCreateUser k p trampoline rip rsp).1 := by
  unfold taskCreateUser
  split
  · rename_i k' failed
    have same := taskAllocRaw_failed (k := k) (by rw [failed])
    rw [failed] at same
    exact same ▸ g
  · rename_i k' t made
    have slot : (taskAllocRaw k).2 = some t := by rw [made]
    obtain ⟨g₁, idle⟩ := g.spliced dead slot
    have s := taskAllocRaw_spliced g.ordered slot
    rw [made] at g₁ s
    simp only at g₁ s
    have g₂ := g₁.link idle s.bound s.fresh
      ⟨live.bound, by rw [s.procs]; exact live.pid, by rw [s.procs]; exact live.awake⟩
      (by rw [s.procs]; exact alone)
    have ready : (((k'.setTask t fun x => { x with proc := some p }).setProc p fun x =>
        { x with task := some t }).tasks t).state = .ready := by
      simp [Kernel.setTask, Kernel.setProc, s.fresh.2]
    simp only
    generalize (k'.setTask t fun x => { x with proc := some p }).setProc p
      (fun x => { x with task := some t }) = k₂ at g₂ ready ⊢
    have g₃ := g₂.setTask t .ready (fun x => { x with userEntryRip := rip, userEntryRsp := rsp }) ready
      rfl rfl (by decide) (by decide) (by rw [ready]; decide)
    have ready₃ : ((k₂.setTask t fun x => { x with userEntryRip := rip, userEntryRsp := rsp }).tasks
        t).state = .ready := by simp [Kernel.setTask, ready]
    generalize k₂.setTask t (fun x => { x with userEntryRip := rip, userEntryRsp := rsp }) = k₃
      at g₃ ready₃ ⊢
    split
    · exact g₃
    · dsimp only
      refine Good.setTask (g₃.vm _) t .ready _ ?_ ?_ ?_ (by decide) (by decide) ?_
      · exact ready₃
      · rfl
      · rfl
      · simp only [ready₃]
        decide

theorem processInit_moves {σ : Type} (tree : FileTree σ) {p : Nat} (new : Newborn k p) (pml4 : Nat)
    (heap : Word) :
    ∃ f : Process → Process, (f (k.procs p)).identity = (k.procs p).identity ∧
      (f (k.procs p)).parentPid = (k.procs p).parentPid ∧
      (f (k.procs p)).reportable = (k.procs p).reportable ∧ (f (k.procs p)).fds = (k.procs p).fds ∧
      FdMoves (k.setProc p f) (processInit tree k p pml4 heap) := by
  refine ⟨fun x =>
    { x with
      pml4 := pml4, heapStart := heap, heapEnd := heap, mmapNext := 0x40000000#64
      cwd := ['/'], uid := 0#64, gid := 0#64, fsBase := 0#64 }, rfl, rfl, rfl, rfl, ?_⟩
  have live : (k.setProc p fun x =>
      { x with
        pml4 := pml4, heapStart := heap, heapEnd := heap, mmapNext := 0x40000000#64
        cwd := ['/'], uid := 0#64, gid := 0#64, fsBase := 0#64 }).Live p :=
    ⟨new.live.bound, by simpa [Kernel.setProc] using new.live.pid,
      by simpa [Kernel.setProc] using new.live.awake⟩
  have free : ∀ fd, (((k.setProc p fun x =>
      { x with
        pml4 := pml4, heapStart := heap, heapEnd := heap, mmapNext := 0x40000000#64
        cwd := ['/'], uid := 0#64, gid := 0#64, fsBase := 0#64 }).procs p).fds fd).used = false := by
    simpa [Kernel.setProc] using new.empty
  unfold processInit
  simp only
  generalize (k.setProc p fun x =>
    { x with
      pml4 := pml4, heapStart := heap, heapEnd := heap, mmapNext := 0x40000000#64
      cwd := ['/'], uid := 0#64, gid := 0#64, fsBase := 0#64 }) = k₀ at live free ⊢
  have step : ∀ (k : Kernel) (fd : Nat), k.Live p → fd < maxFds → ((k.procs p).fds fd).used = false →
      FdMove k (k.setFd p fd ⟨some (.node tree.console), 0#64, true, oRdwr⟩) := by
    intro k fd live hfd unused
    refine .put p fd _ live.bound hfd unused fun _ => ⟨⟨live.pid, live.awake⟩, ?_⟩
    rintro v ⟨⟩
    exact id
  have live₁ := live.keep (setFd_lives k₀ p 0 ⟨some (.node tree.console), 0#64, true, oRdwr⟩)
  have live₂ := live₁.keep (setFd_lives _ p 1 ⟨some (.node tree.console), 0#64, true, oRdwr⟩)
  refine ((Relation.ReflTransGen.single (step k₀ 0 live (by decide) (free 0))).tail
    (step _ 1 live₁ (by decide) ?_)).tail (step _ 2 live₂ (by decide) ?_)
  · rw [setFd_fds, if_neg (by omega)]
    exact free 1
  · rw [setFd_fds, if_neg (by omega), setFd_fds, if_neg (by omega)]
    exact free 2

theorem Good.spawn {σ : Type} (tree : FileTree σ) (g : Good kb calls k)
    (dead : ∀ t, (k.tasks t).state = .terminated → calls t = none) (pml4 : Nat)
    (heap trampoline rip rsp : Word) :
    Good kb calls (spawnFirst tree k pml4 heap trampoline rip rsp) := by
  unfold spawnFirst
  have g₁ := g.alloc 0
  split
  · rename_i k' failed
    rw [failed] at g₁
    exact g₁
  · rename_i k' p made
    have slot : (processAlloc k 0).2 = some p := by rw [made]
    have new := processAlloc_newborn g.ordered slot
    have eq := (processAlloc_eq slot).2.2
    rw [made] at g₁ new eq
    simp only at g₁ new eq
    have dead' : ∀ t, (k'.tasks t).state = .terminated → calls t = none := by
      rw [eq]
      exact dead
    clear eq made
    obtain ⟨f, same, parent, less, fds, moves⟩ := processInit_moves tree new pml4 heap
    have g₂ := (g₁.setProc p f same parent (by rw [less]; exact id) fds).move moves
    have steady := (setProc_steady k' p f same).trans moves.steady
    obtain ⟨pid, zombie, task⟩ := Process.identity_eq (steady.procs p)
    refine g₂.createUser ?_ ⟨new.live.bound, ?_, ?_⟩ ?_ trampoline rip rsp
    · intro t ended
      exact dead' t ((steady.tasks t).2.2.mp ended)
    · rw [pid]; exact new.live.pid
    · rw [zombie]; exact new.live.awake
    · rw [task]; exact new.alone

end Forking

end Isunux
