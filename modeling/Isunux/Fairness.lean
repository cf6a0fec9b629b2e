import Isunux.Scheduling
import Isunux.Spaces

/-! How long a READY task waits. Every switch goes to a task that is before it in
the ring, and takes all up to that one out of its way; only new tasks come before it. -/
namespace Isunux

def Kernel.Waits (k : Kernel) (ahead : List Nat) (t : Nat) : Prop := Tour.Waits k.next k.current ahead t

/-- The same pointers and the same current task. -/
structure SameRing (k k' : Kernel) : Prop where
  next : k'.next = k.next
  current : k'.current = k.current

def Awake (k k' : Kernel) : Prop := ∀ t, (k'.tasks t).state = .blocked → (k.tasks t).state = .blocked

section Waiting

variable {k k' k₁ k₂ k₃ : Kernel} {ahead : List Nat} {t u : Nat}

theorem SameRing.refl (k : Kernel) : SameRing k k := ⟨rfl, rfl⟩

theorem SameRing.trans (h : SameRing k₁ k₂) (h' : SameRing k₂ k₃) : SameRing k₁ k₃ :=
  ⟨h'.next.trans h.next, h'.current.trans h.current⟩

theorem SameRing.waits (h : SameRing k k') (waits : k.Waits ahead t) : k'.Waits ahead t := by
  unfold Kernel.Waits
  rw [h.next, h.current]
  exact waits

theorem SameRing.setTask (k : Kernel) (u : Nat) (f : Task → Task) (next : (f (k.tasks u)).next = (k.tasks u).next) :
    SameRing k (k.setTask u f) := by
  refine ⟨funext fun t => ?_, rfl⟩
  by_cases h : t = u
  · subst h
    simpa [Kernel.next, Kernel.setTask] using next
  · simp [Kernel.next, Kernel.setTask, h]

theorem Quiet.sameRing (q : Quiet k k') : SameRing k k' :=
  ⟨funext fun t => (q.tasks t).fields.2.1, q.current⟩

theorem Edited.sameRing {p : Nat} {f : Process → Process} {s : TaskState} (e : Edited k k' p f u s) :
    SameRing k k' :=
  ⟨funext fun t => (e.fields t).2.1, e.current⟩

theorem Awake.refl (k : Kernel) : Awake k k := fun _ => id

theorem Awake.trans (h : Awake k₁ k₂) (h' : Awake k₂ k₃) : Awake k₁ k₃ := fun t blocked => h t (h' t blocked)

theorem Awake.setTask (k : Kernel) (u : Nat) (f : Task → Task)
    (state : (f (k.tasks u)).state = .blocked → (k.tasks u).state = .blocked) : Awake k (k.setTask u f) := by
  intro t blocked
  by_cases h : t = u
  · subst h
    exact state (by simpa [Kernel.setTask] using blocked)
  · simpa [Kernel.setTask, h] using blocked

theorem Quiet.awake (q : Quiet k k') : Awake k k' := q.steady.blocked

theorem Edited.awake {p : Nat} {f : Process → Process} {s : TaskState} (e : Edited k k' p f u s)
    (state : s ≠ .blocked) : Awake k k' := by
  intro t blocked
  by_cases h : t = u
  · subst h
    rw [e.state] at blocked
    exact absurd blocked state
  · rcases (e.tasks t h).state with same | ⟨was, -⟩
    · rwa [same] at blocked
    · exact was

theorem sameRing_furnish (k : Kernel) (vm : Vm) (u : Nat) (f : Task → Task)
    (next : (f (k.tasks u)).next = (k.tasks u).next)
    (state : (f (k.tasks u)).state = .blocked → (k.tasks u).state = .blocked) :
    SameRing k ({ k with vm := vm }.setTask u f) ∧ Awake k ({ k with vm := vm }.setTask u f) := by
  have stored : SameRing k { k with vm := vm } := ⟨rfl, rfl⟩
  exact ⟨stored.trans (.setTask _ u f next), Awake.trans (fun _ => id) (.setTask _ u f state)⟩

/-! New tasks. What the callers of `task_alloc_raw` add to it does not move the ring. -/

theorem taskCreate_ring (k : Kernel) (trampoline : Word) :
    SameRing (taskAllocRaw k).1 (taskCreate k trampoline).1 ∧ Awake (taskAllocRaw k).1 (taskCreate k trampoline).1 := by
  unfold taskCreate
  split
  · rename_i made
    rw [made]
    exact ⟨.refl _, .refl _⟩
  · rename_i k' t made
    rw [made]
    dsimp only
    split
    · exact ⟨.refl _, .refl _⟩
    · dsimp only
      exact sameRing_furnish k' _ t _ (by rfl) (by exact id)

theorem linked_ring (k : Kernel) (t p : Nat) :
    SameRing k ((k.setTask t fun x => { x with proc := some p }).setProc p fun x => { x with task := some t }) ∧
      Awake k ((k.setTask t fun x => { x with proc := some p }).setProc p fun x => { x with task := some t }) :=
  ⟨(SameRing.setTask k t (fun x => { x with proc := some p }) rfl).trans ⟨rfl, rfl⟩,
    (Awake.setTask k t (fun x => { x with proc := some p }) id).trans fun _ => id⟩

theorem forkTask_ring (k : Kernel) (child : Nat) (point : Word) (frame : TrapFrame) :
    SameRing (taskAllocRaw k).1 (forkTask k child point frame).1 ∧
      Awake (taskAllocRaw k).1 (forkTask k child point frame).1 := by
  unfold forkTask
  split
  · rename_i made
    rw [made]
    exact ⟨.refl _, .refl _⟩
  · rename_i k' t made
    rw [made]
    obtain ⟨ring, awake⟩ := linked_ring k' t child
    dsimp only
    generalize (k'.setTask t fun x => { x with proc := some child }).setProc child
      (fun x => { x with task := some t }) = k₂ at ring awake ⊢
    split
    · exact ⟨ring, awake⟩
    · dsimp only
      refine ⟨ring.trans (sameRing_furnish k₂ _ t _ ?_ ?_).1, awake.trans (sameRing_furnish k₂ _ t _ ?_ ?_).2⟩
      · rfl
      · exact fun same => by cases same
      · rfl
      · exact fun same => by cases same

theorem taskCreateUser_ring (k : Kernel) (p : Nat) (trampoline rip rsp : Word) :
    SameRing (taskAllocRaw k).1 (taskCreateUser k p trampoline rip rsp).1 ∧
      Awake (taskAllocRaw k).1 (taskCreateUser k p trampoline rip rsp).1 := by
  unfold taskCreateUser
  split
  · rename_i made
    rw [made]
    exact ⟨.refl _, .refl _⟩
  · rename_i k' t made
    rw [made]
    obtain ⟨ring, awake⟩ := linked_ring k' t p
    dsimp only
    generalize (k'.setTask t fun x => { x with proc := some p }).setProc p
      (fun x => { x with task := some t }) = k₂ at ring awake ⊢
    have entry := sameRing_furnish k₂ k₂.vm t (fun x => { x with userEntryRip := rip, userEntryRsp := rsp }) rfl id
    have ring := ring.trans entry.1
    have awake := awake.trans entry.2
    split
    · exact ⟨ring, awake⟩
    · dsimp only
      refine ⟨ring.trans (sameRing_furnish _ _ t _ ?_ ?_).1, awake.trans (sameRing_furnish _ _ t _ ?_ ?_).2⟩
      · rfl
      · exact id
      · rfl
      · exact id

theorem processAlloc_tasks (k : Kernel) (parent : Int) :
    (processAlloc k parent).1.tasks = k.tasks ∧ (processAlloc k parent).1.current = k.current := by
  cases slot : (processAlloc k parent).2 with
  | none =>
    rw [processAlloc_failed slot]
    exact ⟨rfl, rfl⟩
  | some i =>
    obtain ⟨-, -, eq⟩ := processAlloc_eq slot
    rw [eq]
    exact ⟨rfl, rfl⟩

theorem forkPrepared_ring {child : Nat} (h : forkPrepared k = some (k₁, child)) :
    SameRing k k₁ ∧ Awake k k₁ ∧ ∀ t, (k.tasks t).state = .ready → (k₁.tasks t).state = .ready := by
  unfold forkPrepared at h
  split at h
  · cases h
  · rename_i parent _
    split at h
    · cases h
    · rename_i k' i made
      have alloc := processAlloc_tasks k (k.procs parent).pid
      rw [made] at alloc
      dsimp only at alloc
      simp only [Option.some.injEq, Prod.mk.injEq] at h
      obtain ⟨rfl, rfl⟩ := h
      generalize vmmCloneLowerHalf (vmmNewAddressSpace k'.vm).1 (vmmNewAddressSpace k'.vm).2
        (k'.procs parent).pml4 = vm
      have quiet := processCloneInto_quiet { k' with vm := vm } i parent (vmmNewAddressSpace k'.vm).2
      have start : SameRing k (Kernel.setProc { k' with vm := vm } i
          ((k'.procs parent).copied (vmmNewAddressSpace k'.vm).2)) :=
        ⟨by funext t; simp only [Kernel.next, Kernel.setProc, alloc.1], alloc.2⟩
      refine ⟨start.trans quiet.sameRing, fun t blocked => ?_, fun t ready => ?_⟩
      · have := quiet.awake t blocked
        simpa only [Kernel.setProc, alloc.1] using this
      · have before : ((Kernel.setProc { k' with vm := vm } i
            ((k'.procs parent).copied (vmmNewAddressSpace k'.vm).2)).tasks t).state = .ready := by
          simpa only [Kernel.setProc, alloc.1] using ready
        rcases (quiet.tasks t).state with same | ⟨-, now⟩
        · rw [same, before]
        · exact now

theorem taskAllocRaw_waits (o : Ordered k) (r : Ringed k) (waits : k.Waits ahead t)
    (going : (k.tasks t).state ≠ .terminated) :
    ∃ later, (taskAllocRaw k).1.Waits later t ∧ ((taskAllocRaw k).2 = none → later = ahead) ∧
      ∀ u, (taskAllocRaw k).2 = some u → ∃ less, less.Sublist ahead ∧ later = u :: less := by
  obtain ⟨others, circle, all⟩ := r
  unfold taskAllocRaw
  split
  · have fresh : k.taskCount ∉ k.current :: others := fun mem => lt_irrefl _ ((all _).mp mem)
    obtain ⟨first, second, same⟩ := @spliceTask_next { k with taskCount := k.taskCount + 1 } k.taskCount others circle fresh
    refine ⟨k.taskCount :: ahead, waits.insert circle fresh first second same, fun none => (by cases none), fun u slot => ?_⟩
    cases slot
    exact ⟨ahead, .refl _, rfl⟩
  · rename_i full
    split
    · exact ⟨ahead, waits, fun _ => rfl, fun u slot => by cases slot⟩
    · rename_i u found
      have dead := List.find?_some found
      simp only [decide_eq_true_eq] at dead
      have count := o.count_le
      have mem : u ∈ others := by
        have low := List.mem_range.mp (List.mem_of_find?_eq_some found)
        have := (all u).mpr (by omega)
        rwa [List.mem_cons, or_iff_right dead.1] at this
      have length := Ringed.length circle all
      obtain ⟨as, bs, rfl⟩ := List.append_of_mem mem
      have nodup := circle.nodup
      have without : Tour.Circle (unlinkTaskFromRing k u).next k.current (as ++ bs) := by
        refine unlinkTaskFromRing_skips circle ?_
        rw [List.length_append, List.length_cons] at length
        omega
      have other : t ≠ u := by
        rintro rfl
        exact going dead.2
      obtain ⟨less, sub, waits⟩ := Tour.Waits.remove waits circle other without
      have fresh : u ∉ k.current :: (as ++ bs) := by
        rw [List.nodup_cons, List.nodup_append] at nodup
        simp only [List.mem_cons, List.mem_append, not_or]
        refine ⟨dead.1, fun h => nodup.2.2.2 u h u List.mem_cons_self rfl, ?_⟩
        exact (List.nodup_cons.mp nodup.2.2.1).1
      obtain ⟨-, current, -, -⟩ := unlinkTaskFromRing_rest k u
      -- freeing the old stack leaves the ring alone
      have finish : ∀ k₁ : Kernel, k₁.tasks = (unlinkTaskFromRing k u).tasks → k₁.current = k.current →
          (spliceTask k₁ u).Waits (u :: less) t := by
        intro k₁ tasks₁ current₁
        have next₁ : k₁.next = (unlinkTaskFromRing k u).next := by
          funext v
          simp only [Kernel.next, tasks₁]
        rw [← next₁, ← current₁] at without waits
        rw [← current₁] at fresh
        obtain ⟨first, second, same⟩ := spliceTask_next without fresh
        exact waits.insert without fresh first second same
      refine ⟨u :: less, ?_, fun none => (by cases none), fun v slot => ?_⟩
      · simp only
        split
        · exact finish _ rfl current
        · exact finish _ rfl current
      · cases slot
        exact ⟨less, sub, rfl⟩

theorem taskAllocRaw_awake (o : Ordered k) : Awake k (taskAllocRaw k).1 := by
  cases slot : (taskAllocRaw k).2 with
  | none =>
    rw [taskAllocRaw_failed slot]
    exact .refl k
  | some u =>
    have s := taskAllocRaw_spliced o slot
    intro t blocked
    by_cases h : t = u
    · subst h
      rw [s.fresh.2] at blocked
      cases blocked
    · obtain ⟨n, eq⟩ := s.others t h
      rwa [eq] at blocked

/-- `yield` switches to a task before `t`, and those before that one come after `t` now. -/
theorem Roles.yield_waits (r : Roles k) (waits : k.Waits ahead t) (ready : (k.tasks t).state = .ready)
    (still : ((Isunux.yield k).tasks t).state = .ready) :
    ∃ d as later, yieldsTo k = some d ∧ ahead = as ++ d :: later ∧ (Isunux.yield k).Waits later t := by
  obtain ⟨next, -, -, other, same, eq⟩ := r.yield_eq
  have apart : t ≠ next := by
    rintro rfl
    rw [eq] at still
    simp [Kernel.setTask] at still
  obtain ⟨others, circle, all⟩ := r.ring
  have length := Ringed.length circle all
  have count := r.ordered.count_le
  have pick : yieldsTo k = others.find? fun t => (k.tasks t).state = .ready := giveUp_pick circle (by omega)
  obtain ⟨ys, rest, circle', split⟩ := waits
  obtain rfl := circle.unique circle'
  by_cases stays : next = k.current
  · -- then nobody else is READY
    have none := same stays
    rw [pick, List.find?_eq_none] at none
    have mem : t ∈ others ++ [k.current] := by rw [split]; simp
    rw [List.mem_append, List.mem_singleton, ← stays, or_iff_left apart] at mem
    exact absurd (decide_eq_true ready) (none t mem)
  · have switches := other stays
    obtain ⟨-, as, bs, rfl, before⟩ := List.find?_eq_some_iff_append.mp (pick.symm.trans switches)
    have out : t ∉ as ++ [next] := by
      rw [List.mem_append, List.mem_singleton, not_or]
      refine ⟨fun mem => ?_, apart⟩
      have := before t mem
      simp [ready] at this
    obtain ⟨later, eq', waits⟩ := Tour.Waits.turn ⟨_, rest, circle, split⟩ circle out
    refine ⟨next, as, later, switches, eq', ?_⟩
    have links : (Isunux.yield k).next = k.next := funext fun u => ((yield_steady r.ordered).tasks u).2.1
    have current : (Isunux.yield k).current = next := by rw [eq]
    unfold Kernel.Waits
    rw [links, current]
    exact waits

end Waiting

/-- The calls that give up the processor. -/
def SchedOp.switches : SchedOp → Nat
  | .yield => 1
  | _ => 0

/-- The tasks, by slot and number, that a call switches to. -/
def picked (s : Sched) : SchedOp → List (Nat × Nat)
  | .yield => (yieldsTo s.kernel).toList.map fun t => (t, s.born t)
  | _ => []

/-- How many tasks were put into the pool so far. -/
def Sched.tasksMade (s : Sched) : Nat := ∑ t ∈ Finset.range maxTasks, s.born t

/-- What a call does to the tasks that come before a waiting one. -/
structure Nearer (s s' : Sched) (op : SchedOp) (ahead later : List Nat) : Prop where
  born : ∀ u, s.born u ≤ s'.born u
  known : ∀ u ∈ later, s.born u < s'.born u ∨ u ∈ ahead ∧ s.born u = s'.born u
  picks : ∀ x ∈ picked s op, x.1 ∈ ahead ∧ x.1 ∉ later ∧ x.2 = s.born x.1 ∧ s'.born x.1 = s.born x.1
  shorter : later.length + op.switches + s.tasksMade ≤ ahead.length + s'.tasksMade

section Steps

variable {s : Sched} {k : Kernel} {op : SchedOp} {ahead : List Nat} {t : Nat}

theorem Nearer.same {k' : Kernel} (ring : SameRing s.kernel k') (waits : s.kernel.Waits ahead t)
    (idle : op.switches = 0) (nobody : picked s op = []) :
    ∃ later, k'.Waits later t ∧ Nearer s { s with kernel := k' } op ahead later := by
  refine ⟨ahead, ring.waits waits, fun _ => le_rfl, fun u mem => .inr ⟨mem, rfl⟩, ?_, ?_⟩
  · rw [nobody]
    exact fun x mem => absurd mem List.not_mem_nil
  · rw [idle]
    exact le_rfl

theorem Nearer.allocates {k' : Kernel} (r : Roles k) (waits : k.Waits ahead t) (going : (k.tasks t).state ≠ .terminated)
    (ring : SameRing (taskAllocRaw k).1 k') (idle : op.switches = 0) (nobody : picked s op = []) :
    ∃ later, k'.Waits later t ∧ Nearer s { s.allocates k with kernel := k' } op ahead later := by
  obtain ⟨later, waits', failed, made⟩ := taskAllocRaw_waits r.ordered r.ring waits going
  refine ⟨later, ring.waits waits', ?_⟩
  have picks : ∀ x ∈ picked s op, x.1 ∈ ahead ∧ x.1 ∉ later ∧ x.2 = s.born x.1 ∧
      (s.allocates k).born x.1 = s.born x.1 := by
    rw [nobody]
    exact fun x mem => absurd mem List.not_mem_nil
  cases slot : (taskAllocRaw k).2 with
  | none =>
    have born : (s.allocates k).born = s.born := by simp only [Sched.allocates, slot]
    rw [failed slot] at picks ⊢
    refine ⟨fun _ => born ▸ le_rfl, fun u mem => .inr ⟨mem, born ▸ rfl⟩, picks, ?_⟩
    simp only [Sched.tasksMade, born, idle, Nat.add_zero, le_refl]
  | some u =>
    have born : (s.allocates k).born = Function.update s.born u (s.born u + 1) := by
      simp only [Sched.allocates, slot]
    have grows : ∀ v, s.born v ≤ (s.allocates k).born v := by
      intro v
      rw [born]
      by_cases h : v = u
      · subst h; simp
      · simp [h]
    have low : u < maxTasks := by
      have spliced := taskAllocRaw_spliced r.ordered slot
      exact spliced.bound.trans_le spliced.ordered.count_le
    have one : s.born u < (s.allocates k).born u := by simp [born]
    have total : s.tasksMade < ∑ v ∈ Finset.range maxTasks, (s.allocates k).born v :=
      Finset.sum_lt_sum (fun v _ => grows v) ⟨u, Finset.mem_range.mpr low, one⟩
    obtain ⟨less, sub, rfl⟩ := made u slot
    refine ⟨grows, fun v mem => ?_, picks, ?_⟩
    · by_cases h : v = u
      · subst h
        exact .inl one
      · have kept := (List.mem_cons.mp mem).resolve_left h
        refine .inr ⟨sub.subset kept, ?_⟩
        simp [born, h]
    · have := sub.length_le
      show (u :: less).length + op.switches + s.tasksMade ≤ ahead.length + ∑ v ∈ Finset.range maxTasks, (s.allocates k).born v
      rw [List.length_cons, idle]
      omega

/-- While a task is READY, every call brings it nearer or puts a new task before it. -/
theorem schedStep_waits (sound : s.Sound) (op : SchedOp) (waits : s.kernel.Waits ahead t)
    (ready : (s.kernel.tasks t).state = .ready) (still : ((schedStep s op).1.kernel.tasks t).state = .ready) :
    ∃ later, (schedStep s op).1.kernel.Waits later t ∧ Nearer s (schedStep s op).1 op ahead later := by
  have r := sound.roles
  have going : (s.kernel.tasks t).state ≠ .terminated := by rw [ready]; decide
  have idle : ∀ op, op.switches = 0 → picked s op = [] →
      ∃ later, s.kernel.Waits later t ∧ Nearer s s op ahead later := fun op =>
    Nearer.same (.refl _) waits
  cases op with
  | allocRaw => exact Nearer.allocates r waits going (.refl _) rfl rfl
  | create trampoline => exact Nearer.allocates r waits going (taskCreate_ring _ _).1 rfl rfl
  | createUser p trampoline rip rsp =>
    simp only [schedStep]
    split
    · exact Nearer.allocates r waits going (taskCreateUser_ring _ _ _ _ _).1 rfl rfl
    · exact idle _ rfl rfl
  | alloc parent =>
    obtain ⟨tasks, current⟩ := processAlloc_tasks s.kernel parent
    exact Nearer.same ⟨congrArg (fun tasks t => (tasks t).next) tasks, current⟩ waits rfl rfl
  | fork point frame =>
    simp only [schedStep]
    split
    · split
      · rename_i k₁ child prepared
        have r₁ := (r.forkPrepared prepared).1
        obtain ⟨ring, -, readies⟩ := forkPrepared_ring prepared
        rw [doFork_prepared prepared]
        exact Nearer.allocates r₁ (ring.waits waits) (by rw [readies t ready]; decide) (forkTask_ring _ _ _ _).1 rfl rfl
      · rename_i prepared
        rw [doFork_unprepared prepared]
        exact idle _ rfl rfl
    · exact idle _ rfl rfl
  | yield =>
    obtain ⟨d, as, later, switches, rfl, waits'⟩ := r.yield_waits waits ready still
    have nodup := waits.nodup
    refine ⟨later, waits', fun _ => le_rfl, fun u mem => .inr ⟨?_, rfl⟩, fun x mem => ?_, ?_⟩
    · exact List.mem_append_right as (List.mem_cons_of_mem d mem)
    · simp only [picked, switches, Option.toList_some, List.map_cons, List.map_nil, List.mem_singleton] at mem
      subst mem
      refine ⟨by simp, fun mem => ?_, rfl, rfl⟩
      exact (List.nodup_cons.mp (List.nodup_append.mp nodup).2.1).1 mem
    · show later.length + 1 + s.tasksMade ≤ (as ++ d :: later).length + s.tasksMade
      rw [List.length_append, List.length_cons]
      omega
  | block chan =>
    simp only [schedStep]
    split
    · have ring := SameRing.setTask s.kernel s.kernel.current (fun x => { x with waitChan := some chan, state := .blocked }) rfl
      exact Nearer.same ring waits rfl rfl
    · exact idle _ rfl rfl
  | wake chan => exact Nearer.same (taskWake_quiet _ chan).sameRing waits rfl rfl
  | terminate p code =>
    simp only [schedStep]
    split
    · split
      · exact Nearer.same (processTerminate_edited _ _ _ _).sameRing waits rfl rfl
      · exact idle _ rfl rfl
    · exact idle _ rfl rfl
  | finish =>
    simp only [schedStep]
    split
    · have ring := SameRing.setTask s.kernel s.kernel.current (fun x => { x with state := .terminated }) rfl
      exact Nearer.same ring waits rfl rfl
    · exact idle _ rfl rfl
  | signal target sig =>
    simp only [schedStep]
    split
    · split
      · rename_i x sent
        refine Nearer.same ?_ waits rfl rfl
        rcases processSendSignal_cases sent with ⟨same, -⟩ | ⟨u, -, -, ⟨-, edited, -⟩ | ⟨-, -, edited, -⟩ | ⟨-, -, edited, -⟩⟩
        · rw [same]
          exact .refl _
        · exact edited.sameRing
        · exact edited.sameRing
        · exact edited.sameRing
      · exact idle _ rfl rfl
    · exact idle _ rfl rfl
  | reap p =>
    simp only [schedStep]
    split
    · exact Nearer.same ⟨rfl, rfl⟩ waits rfl rfl
    · exact idle _ rfl rfl
  | elsewhere vm pipes fds => exact Nearer.same ⟨rfl, rfl⟩ waits rfl rfl

theorem schedStep_awake (sound : s.Sound) (op : SchedOp) (ready : (s.kernel.tasks t).state = .ready) :
    ((schedStep s op).1.kernel.tasks t).state ≠ .blocked := by
  have r := sound.roles
  have awake : ∀ {k' : Kernel}, Awake s.kernel k' → (k'.tasks t).state ≠ .blocked := by
    intro k' awake blocked
    have := awake t blocked
    rw [ready] at this
    cases this
  cases op with
  | allocRaw => exact awake (taskAllocRaw_awake r.ordered)
  | create trampoline => exact awake ((taskAllocRaw_awake r.ordered).trans (taskCreate_ring _ _).2)
  | createUser p trampoline rip rsp =>
    simp only [schedStep]
    split
    · exact awake ((taskAllocRaw_awake r.ordered).trans (taskCreateUser_ring _ _ _ _ _).2)
    · exact awake (.refl _)
  | alloc parent =>
    refine awake fun u blocked => ?_
    rwa [schedStep, (processAlloc_tasks s.kernel parent).1] at blocked
  | fork point frame =>
    simp only [schedStep]
    split
    · split
      · rename_i k₁ child prepared
        have r₁ := (r.forkPrepared prepared).1
        obtain ⟨-, before, -⟩ := forkPrepared_ring prepared
        rw [doFork_prepared prepared]
        exact awake (before.trans ((taskAllocRaw_awake r₁.ordered).trans (forkTask_ring _ _ _ _).2))
      · rename_i prepared
        rw [doFork_unprepared prepared]
        exact awake (.refl _)
    · exact awake (.refl _)
  | yield => exact awake (yield_steady r.ordered).blocked
  | block chan =>
    simp only [schedStep]
    split
    · rename_i running
      have other : t ≠ s.kernel.current := by
        rintro rfl
        rw [running.1] at ready
        cases ready
      simp [taskSleep, Kernel.setTask, other, ready]
    · exact awake (.refl _)
  | wake chan => exact awake (taskWake_quiet _ chan).awake
  | terminate p code =>
    simp only [schedStep]
    split
    · split
      · exact awake ((processTerminate_edited _ _ _ _).awake (by decide))
      · exact awake (.refl _)
    · exact awake (.refl _)
  | finish =>
    simp only [schedStep]
    split
    · exact awake (Awake.setTask _ _ (fun x => { x with state := .terminated }) fun same => by cases same)
    · exact awake (.refl _)
  | signal target sig =>
    simp only [schedStep]
    split
    · split
      · rename_i x sent
        rcases processSendSignal_cases sent with ⟨same, -⟩ | ⟨u, -, -, ⟨-, edited, -⟩ | ⟨-, -, edited, -⟩ | ⟨-, -, edited, -⟩⟩
        · rw [same]
          exact awake (.refl _)
        · exact awake (edited.awake (by decide))
        · exact awake (edited.awake (by decide))
        · exact awake (edited.awake (by decide))
      · exact awake (.refl _)
    · exact awake (.refl _)
  | reap p =>
    simp only [schedStep]
    split
    · exact awake fun u => id
    · exact awake (.refl _)
  | elsewhere vm pipes fds => exact awake fun u => id

end Steps

/-! Runs -/

/-- The tasks that a run switches to, in order. -/
def pickedAlong : Sched → List SchedOp → List (Nat × Nat)
  | _, [] => []
  | s, op :: ops => picked s op ++ pickedAlong (schedStep s op).1 ops

def switchesAlong (ops : List SchedOp) : Nat := (ops.map SchedOp.switches).sum

/-- The task is READY before every call of the run and after the last. -/
def StaysReady (t : Nat) (s : Sched) (ops : List SchedOp) : Prop :=
  ∀ n, n ≤ ops.length → ((Run.run schedStep s (ops.take n)).1.kernel.tasks t).state = .ready

section Runs

variable {s : Sched} {op : SchedOp} {ops : List SchedOp} {ahead : List Nat} {t : Nat}

theorem StaysReady.start (h : StaysReady t s ops) : (s.kernel.tasks t).state = .ready :=
  h 0 (Nat.zero_le _)

theorem StaysReady.tail (h : StaysReady t s (op :: ops)) : StaysReady t (schedStep s op).1 ops := by
  intro n le
  have := h (n + 1) (Nat.succ_le_succ le)
  rwa [List.take_succ_cons, Run.run_cons] at this

/-- As long as the task waits, a switch brings it nearer, and nothing else does but new tasks. -/
theorem StaysReady.nearer (h : StaysReady t s ops) (sound : s.Sound) (waits : s.kernel.Waits ahead t) :
    switchesAlong ops + s.tasksMade ≤ ahead.length + (Run.run schedStep s ops).1.tasksMade := by
  induction ops generalizing s ahead with
  | nil => exact Nat.add_le_add_right (Nat.zero_le _) _
  | cons op ops ih =>
    obtain ⟨later, waits', near⟩ := schedStep_waits sound op waits h.start h.tail.start
    have rest := ih h.tail (schedStep_sound s op sound) waits'
    have := near.shorter
    rw [Run.run_cons, switchesAlong, List.map_cons, List.sum_cons]
    rw [switchesAlong] at rest
    dsimp only
    omega

theorem StaysReady.picks (h : StaysReady t s ops) (sound : s.Sound) (waits : s.kernel.Waits ahead t) :
    (pickedAlong s ops).Nodup ∧
      ∀ x ∈ pickedAlong s ops, x.1 ∈ ahead ∧ x.2 = s.born x.1 ∨ s.born x.1 < x.2 := by
  induction ops generalizing s ahead with
  | nil => exact ⟨List.nodup_nil, fun x mem => absurd mem List.not_mem_nil⟩
  | cons op ops ih =>
    obtain ⟨later, waits', near⟩ := schedStep_waits sound op waits h.start h.tail.start
    obtain ⟨nodup, rest⟩ := ih h.tail (schedStep_sound s op sound) waits'
    have single : (picked s op).Nodup := by
      cases op <;> simp only [picked, List.nodup_nil]
      cases yieldsTo s.kernel <;> simp
    refine ⟨List.nodup_append.mpr ⟨single, nodup, fun x here y there => ?_⟩, fun x mem => ?_⟩
    · rintro rfl
      obtain ⟨-, out, number, same⟩ := near.picks x here
      rcases rest x there with ⟨mem, -⟩ | newer
      · exact out mem
      · omega
    · rcases List.mem_append.mp mem with here | there
      · obtain ⟨before, -, number, -⟩ := near.picks x here
        exact .inl ⟨before, number⟩
      · rcases rest x there with ⟨mem, number⟩ | newer
        · rcases near.known x.1 mem with newer | ⟨before, same⟩
          · exact .inr (by omega)
          · exact .inl ⟨before, number.trans same.symm⟩
        · exact .inr ((near.born x.1).trans_lt newer)

theorem Roles.waits {k : Kernel} (r : Roles k) (low : t < k.taskCount) :
    ∃ ahead, k.Waits ahead t ∧ ahead.length < k.taskCount := by
  obtain ⟨others, circle, all⟩ := r.ring
  obtain ⟨ahead, waits⟩ := circle.waits ((all t).mpr low)
  exact ⟨ahead, waits, (waits.length_lt circle).trans_eq (Ringed.length circle all)⟩

theorem ready_until (sound : s.Sound) (ready : (s.kernel.tasks t).state = .ready) :
    StaysReady t s ops ∨ ∃ n, n ≤ ops.length ∧
      let state := ((Run.run schedStep s (ops.take n)).1.kernel.tasks t).state
      state = .running ∨ state = .stopped ∨ state = .terminated := by
  induction ops generalizing s with
  | nil =>
    refine .inl fun n _ => ?_
    rw [List.take_nil]
    exact ready
  | cons op ops ih =>
    have awake := schedStep_awake sound op ready
    by_cases still : ((schedStep s op).1.kernel.tasks t).state = .ready
    · rcases ih (schedStep_sound s op sound) still with stays | ⟨n, le, left⟩
      · refine .inl fun n le => ?_
        cases n with
        | zero => exact ready
        | succ n =>
          rw [List.take_succ_cons, Run.run_cons]
          exact stays n (Nat.le_of_succ_le_succ le)
      · refine .inr ⟨n + 1, Nat.succ_le_succ le, ?_⟩
        rw [List.take_succ_cons, Run.run_cons]
        exact left
    · refine .inr ⟨1, Nat.succ_le_succ (Nat.zero_le _), ?_⟩
      have now : Run.run schedStep s ((op :: ops).take 1) = ((schedStep s op).1, [(schedStep s op).2]) := rfl
      rw [now]
      dsimp only
      cases state : ((schedStep s op).1.kernel.tasks t).state with
      | ready => exact absurd state still
      | blocked => exact absurd state awake
      | running => exact .inl rfl
      | stopped => exact .inr (.inl rfl)
      | terminated => exact .inr (.inr rfl)

end Runs

theorem bootSched_sound (vm : Vm) (hhdm : Word) (ops : List SchedOp) :
    (Run.run schedStep (bootSched vm hhdm) ops).1.Sound :=
  Run.run_invariant schedStep Sched.Sound schedStep_sound _ ops ⟨bootKernel_roles vm hhdm, by simp [bootSched]⟩

/-- From any state of any run, a READY task is run after at most as many switches as there are
tasks, counting those made meanwhile, unless a signal stops or ends it. -/
theorem ready_task_gets_its_turn (vm : Vm) (hhdm : Word) (before ops : List SchedOp) (t : Nat) :
    let s := (Run.run schedStep (bootSched vm hhdm) before).1
    t < s.kernel.taskCount → (s.kernel.tasks t).state = .ready →
    s.kernel.taskCount + (Run.run schedStep s ops).1.tasksMade ≤ switchesAlong ops + s.tasksMade →
    ∃ n, n ≤ ops.length ∧
      let state := ((Run.run schedStep s (ops.take n)).1.kernel.tasks t).state
      state = .running ∨ state = .stopped ∨ state = .terminated := by
  intro s low ready enough
  have sound : s.Sound := bootSched_sound vm hhdm before
  refine (ready_until sound ready).resolve_left fun stays => ?_
  obtain ⟨ahead, waits, few⟩ := sound.roles.waits low
  have := stays.nearer sound waits
  omega

/-- `main` has created two tasks and still runs. -/
def twoCreated : Sched := (Run.run schedStep (bootSched smallVm 0#64) [.create 0#64, .create 0#64]).1

theorem ready_task_gets_its_turn_first : ∃ n, n ≤ 3 ∧
    let state := ((Run.run schedStep twoCreated ([.yield, .yield, .yield].take n)).1.kernel.tasks 1).state
    state = .running ∨ state = .stopped ∨ state = .terminated :=
  ready_task_gets_its_turn smallVm 0#64 [.create 0#64, .create 0#64] [.yield, .yield, .yield] 1 (by decide +kernel)
    (by decide +kernel) (by decide +kernel)

/-- While a task waits READY, no other task is switched to twice. A slot that is recycled holds
another task. -/
theorem nobody_overtakes_twice (vm : Vm) (hhdm : Word) (before ops : List SchedOp) (t : Nat) :
    let s := (Run.run schedStep (bootSched vm hhdm) before).1
    t < s.kernel.taskCount → StaysReady t s ops → (pickedAlong s ops).Nodup := by
  intro s low stays
  have sound : s.Sound := bootSched_sound vm hhdm before
  obtain ⟨ahead, waits, -⟩ := sound.roles.waits low
  exact (stays.picks sound waits).1

/-- The task that was created first comes last in the ring. -/
def threeCreated : Sched := (Run.run schedStep (bootSched smallVm 0#64) [.create 0#64, .create 0#64, .create 0#64]).1

theorem nobody_overtakes_twice_first : (pickedAlong threeCreated [.yield, .yield, .create 0#64]).Nodup :=
  nobody_overtakes_twice smallVm 0#64 [.create 0#64, .create 0#64, .create 0#64] [.yield, .yield, .create 0#64] 1
    (by decide +kernel) (by unfold StaysReady; decide +kernel)

end Isunux
