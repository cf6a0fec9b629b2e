import Isunux.Wakeups

/-! What may happen around sleeping tasks: the invariant that no sleeper is ready,
and the steps that keep it. -/
namespace Isunux

def Call.ownedBy (proc : Option Nat) : Call → Prop
  | .waitpid self _ => proc = some self
  | _ => True

/-- Every BLOCKED task is inside a call, on that call's channel, and what the
call waits for has not come about. -/
def Asleep (kb : Keyboard) (calls : Nat → Option Call) (k : Kernel) : Prop :=
  ∀ t, (k.tasks t).state = .blocked →
    ∃ c, calls t = some c ∧ (k.tasks t).waitChan = some c.chan ∧ ¬ c.ready k kb

structure Good (kb : Keyboard) (calls : Nat → Option Call) (k : Kernel) : Prop where
  ordered : Ordered k
  counted : Counted k
  fits : ∀ i, (k.pipes i).Fits
  owned : ∀ t c, calls t = some c → t < k.taskCount ∧ c.ownedBy (k.tasks t).proc
  asleep : Asleep kb calls k

/-- Nobody is put to sleep, and for those who go on sleeping nothing they wait
for comes about. -/
structure Hushed (k k' : Kernel) : Prop where
  sleepers : ∀ t, (k'.tasks t).state = .blocked →
    (k.tasks t).state = .blocked ∧ (k'.tasks t).waitChan = (k.tasks t).waitChan
  pipes : ∀ t i, (k'.tasks t).state = .blocked → (k'.tasks t).waitChan = some (.pipe i) →
    (k'.pipes i).count = (k.pipes i).count ∧
      ((k'.pipes i).writeRefcount = 0 → (k.pipes i).writeRefcount = 0) ∧
      ((k'.pipes i).readRefcount = 0 → (k.pipes i).readRefcount = 0)
  children : ∀ t s, (k'.tasks t).state = .blocked → (k'.tasks t).waitChan = some (.process s) →
    (k.tasks t).proc = some s → ∀ target i, i < maxProcesses →
      (k'.procs s).isChild target (k'.procs i) = true → (k'.procs i).reportable = true →
      (k.procs s).isChild target (k.procs i) = true ∧ (k.procs i).reportable = true

theorem Asleep.hushed {kb : Keyboard} {calls : Nat → Option Call} {k k' : Kernel}
    (asleep : Asleep kb calls k)
    (owned : ∀ t c, calls t = some c → t < k.taskCount ∧ c.ownedBy (k.tasks t).proc)
    (h : Hushed k k') : Asleep kb calls k' := by
  intro t blocked
  obtain ⟨before, chan⟩ := h.sleepers t blocked
  obtain ⟨c, call, wait, waits⟩ := asleep t before
  refine ⟨c, call, chan.trans wait, ?_⟩
  have own := (owned t c call).2
  cases c with
  | pipeRead p fd i count =>
    obtain ⟨count, writers, -⟩ := h.pipes t i blocked (chan.trans wait)
    rintro (data | eof)
    · exact waits (.inl (count ▸ data))
    · exact waits (.inr (writers eof))
  | pipeWrite p fd i src count n =>
    obtain ⟨count, -, readers⟩ := h.pipes t i blocked (chan.trans wait)
    rintro (room | broken)
    · exact waits (.inl (count ▸ room))
    · exact waits (.inr (readers broken))
  | waitpid self target =>
    rintro ⟨i, hi, child, reportable⟩
    obtain ⟨child', reportable'⟩ :=
      h.children t self blocked (chan.trans wait) own target i hi child reportable
    exact waits ⟨i, hi, child', reportable'⟩
  | keyboardRead fd count => exact waits

/-- A step that keeps the tables in order and lets sleepers sleep. -/
structure Calm (k k' : Kernel) : Prop extends Steady k k', Hushed k k'

theorem Calm.refl (k : Kernel) : Calm k k :=
  { Steady.refl k with
    sleepers := fun _ b => ⟨b, rfl⟩
    pipes := fun _ _ _ _ => ⟨rfl, id, id⟩
    children := fun _ _ _ _ _ _ _ _ c r => ⟨c, r⟩ }

theorem Calm.trans {k₁ k₂ k₃ : Kernel} (h : Calm k₁ k₂) (h' : Calm k₂ k₃) : Calm k₁ k₃ := by
  refine { h.toSteady.trans h'.toSteady with sleepers := ?_, pipes := ?_, children := ?_ }
  · intro t blocked
    have later := h'.sleepers t blocked
    have earlier := h.sleepers t later.1
    exact ⟨earlier.1, later.2.trans earlier.2⟩
  · intro t i blocked chan
    have later := h'.sleepers t blocked
    obtain ⟨c, w, r⟩ := h'.pipes t i blocked chan
    obtain ⟨c', w', r'⟩ := h.pipes t i later.1 (later.2 ▸ chan)
    exact ⟨c.trans c', fun z => w' (w z), fun z => r' (r z)⟩
  · intro t s blocked chan proc target i hi child reportable
    have later := h'.sleepers t blocked
    have proc₂ := (h.tasks t).1.trans proc
    obtain ⟨c, r⟩ := h'.children t s blocked chan proc₂ target i hi child reportable
    exact h.children t s later.1 (later.2 ▸ chan) proc target i hi c r

theorem Good.calm {kb : Keyboard} {calls : Nat → Option Call} {k k' : Kernel} (g : Good kb calls k)
    (c : Calm k k') (counted : Counted k') (fits : ∀ i, (k'.pipes i).Fits) : Good kb calls k' := by
  refine ⟨c.toSteady.ordered g.ordered, counted, fits, ?_, g.asleep.hushed g.owned c.toHushed⟩
  intro t call h
  obtain ⟨bound, own⟩ := g.owned t call h
  rw [c.taskCount, (c.tasks t).1]
  exact ⟨bound, own⟩

section Calming

theorem Calm.ofTasks {k k' : Kernel} (steady : Steady k k') (pipes : k'.pipes = k.pipes)
    (procs : k'.procs = k.procs)
    (sleepers : ∀ t, (k'.tasks t).state = .blocked → (k'.tasks t).waitChan = (k.tasks t).waitChan) :
    Calm k k' := by
  refine { steady with sleepers := ?_, pipes := ?_, children := ?_ }
  · exact fun t b => ⟨steady.blocked t b, sleepers t b⟩
  · intro t i _ _
    rw [pipes]
    exact ⟨rfl, id, id⟩
  · intro t s _ _ _ target i _ child reportable
    rw [procs] at child reportable
    exact ⟨child, reportable⟩

theorem taskWake_calm (k : Kernel) (c : Chan) : Calm k (taskWake k c) := by
  refine Calm.ofTasks (taskWake_steady k c) rfl rfl fun t => ?_
  simp only [taskWake]
  split
  · intro h
    cases h
  · exact fun _ => rfl

theorem taskWake_gone {k : Kernel} (idle : ∀ t, (k.tasks t).state = .blocked → t < k.taskCount)
    {c : Chan} {t : Nat} (blocked : ((taskWake k c).tasks t).state = .blocked) :
    ((taskWake k c).tasks t).waitChan ≠ some c := by
  simp only [taskWake] at blocked ⊢
  split at blocked
  · cases blocked
  · rename_i asleep
    rw [if_neg asleep]
    intro chan
    exact asleep ⟨idle t blocked, blocked, chan⟩

theorem yield_rest (k : Kernel) : (yield k).pipes = k.pipes ∧ (yield k).procs = k.procs ∧
    ∀ t, ((yield k).tasks t).waitChan = (k.tasks t).waitChan := by
  have set : ∀ (k : Kernel) (t : Nat) (s : TaskState) (u : Nat),
      ((k.setTask t fun x => { x with state := s }).tasks u).waitChan = (k.tasks u).waitChan := by
    intro k t s u
    by_cases h : u = t
    · subst h; simp [Kernel.setTask]
    · simp [Kernel.setTask, h]
  unfold yield
  simp only
  split
  · split
    · exact ⟨rfl, rfl, fun u => (set _ _ _ u).trans (set k _ _ u)⟩
    · exact ⟨rfl, rfl, fun u => set k _ _ u⟩
  · split
    · split
      · exact ⟨rfl, rfl, fun u => (set _ _ _ u).trans (set k _ _ u)⟩
      · exact ⟨rfl, rfl, fun u => set k _ _ u⟩
    · split
      · exact ⟨rfl, rfl, fun u => set k _ _ u⟩
      · exact ⟨rfl, rfl, fun _ => rfl⟩

theorem yield_calm {k : Kernel} (o : Ordered k) : Calm k (yield k) :=
  Calm.ofTasks (yield_steady o) (yield_rest k).1 (yield_rest k).2.1 fun t _ => (yield_rest k).2.2 t

theorem setPipe_calm (k : Kernel) (i : Nat) (q : Pipe)
    (same : ∀ t, (k.tasks t).state = .blocked → (k.tasks t).waitChan = some (.pipe i) →
      q.count = (k.pipes i).count ∧ (q.writeRefcount = 0 → (k.pipes i).writeRefcount = 0) ∧
        (q.readRefcount = 0 → (k.pipes i).readRefcount = 0)) : Calm k (k.setPipe i q) := by
  refine { setPipe_steady k i q with sleepers := ?_, pipes := ?_, children := ?_ }
  · exact fun _ b => ⟨b, rfl⟩
  · intro t j blocked chan
    by_cases h : j = i
    · subst h
      simpa [Kernel.setPipe] using same t blocked chan
    · simp [Kernel.setPipe, h]
  · exact fun _ _ _ _ _ _ _ _ c r => ⟨c, r⟩

/-- Whatever happens to a pipe, its sleepers are woken. -/
theorem setPipe_wake_calm {k : Kernel} (o : Ordered k) (i : Nat) (q : Pipe) :
    Calm k (taskWake (k.setPipe i q) (.pipe i)) := by
  refine { (setPipe_steady k i q).trans (taskWake_steady _ _) with
    sleepers := ?_, pipes := ?_, children := ?_ }
  · exact (taskWake_calm (k.setPipe i q) (.pipe i)).sleepers
  · intro t j blocked chan
    have h : j ≠ i := by
      rintro rfl
      exact taskWake_gone (k := k.setPipe j q) o.idle blocked chan
    simp [taskWake, Kernel.setPipe, h]
  · exact fun _ _ _ _ _ _ _ _ c r => ⟨c, r⟩

theorem isChild_congr {a b c d : Process} (self : a.pid = b.pid) (pid : c.pid = d.pid)
    (parent : c.parentPid = d.parentPid) (target : Int) : a.isChild target c = b.isChild target d := by
  simp only [Process.isChild, self, pid, parent]

theorem setFd_calm (k : Kernel) (p fd : Nat) (e : FdEntry) : Calm k (k.setFd p fd e) := by
  have same : ∀ q, ((k.setFd p fd e).procs q).pid = (k.procs q).pid ∧
      ((k.setFd p fd e).procs q).parentPid = (k.procs q).parentPid ∧
      ((k.setFd p fd e).procs q).reportable = (k.procs q).reportable := by
    intro q
    by_cases h : q = p
    · subst h; simp [Kernel.setFd, Kernel.setProc, Process.reportable]
    · simp [Kernel.setFd, Kernel.setProc, h]
  refine { setFd_steady k p fd e with sleepers := ?_, pipes := ?_, children := ?_ }
  · exact fun _ b => ⟨b, rfl⟩
  · exact fun _ _ _ _ => ⟨rfl, id, id⟩
  · intro t s _ _ _ target i _ child reportable
    rw [isChild_congr (same s).1 (same i).1 (same i).2.1] at child
    rw [(same i).2.2] at reportable
    exact ⟨child, reportable⟩

theorem vnodeClose_calm {k : Kernel} (o : Ordered k) (n : Option Vnode) : Calm k (vnodeClose k n) := by
  unfold vnodeClose
  split
  · rename_i i
    simp only
    split
    · exact setPipe_wake_calm o i _
    · rename_i last
      refine setPipe_calm k i _ fun _ _ _ => ⟨rfl, id, fun zero => ?_⟩
      exact absurd (decide_eq_true zero) last
  · rename_i i
    simp only
    split
    · exact setPipe_wake_calm o i _
    · rename_i last
      refine setPipe_calm k i _ fun _ _ _ => ⟨rfl, fun zero => ?_, id⟩
      exact absurd (decide_eq_true zero) last
  · exact Calm.refl k

theorem vnodeDup_calm {k : Kernel} (nonneg : ∀ v : Vnode, v.IsEnd → 0 ≤ k.endCount v)
    (n : Option Vnode) : Calm k (vnodeDup k n) := by
  unfold vnodeDup
  split
  · rename_i i
    refine setPipe_calm k i _ fun _ _ _ => ⟨rfl, id, fun zero => ?_⟩
    have := nonneg (.pipeRead i) trivial
    simp only [Kernel.endCount, pipeReadDup] at this zero
    omega
  · rename_i i
    refine setPipe_calm k i _ fun _ _ _ => ⟨rfl, fun zero => ?_, id⟩
    have := nonneg (.pipeWrite i) trivial
    simp only [Kernel.endCount, pipeWriteDup] at this zero
    omega
  · exact Calm.refl k

theorem Good.nobody {kb : Keyboard} {calls : Nat → Option Call} {k : Kernel} (g : Good kb calls k)
    {i t : Nat} (vacant : (k.pipes i).inUse = false) (blocked : (k.tasks t).state = .blocked) :
    (k.tasks t).waitChan ≠ some (.pipe i) := by
  obtain ⟨noReaders, noWriters⟩ := (g.counted.inUse i).mp vacant
  obtain ⟨c, -, wait, waits⟩ := g.asleep t blocked
  rw [wait]
  intro chan
  cases c with
  | pipeRead p fd j count =>
    cases chan
    exact waits (.inr noWriters)
  | pipeWrite p fd j src count n =>
    cases chan
    exact waits (.inr noReaders)
  | waitpid self target => cases chan
  | keyboardRead fd count => cases chan

theorem FdMove.calm {kb : Keyboard} {calls : Nat → Option Call} {k k' : Kernel}
    (g : Good kb calls k) (move : FdMove k k') : Calm k k' := by
  have nonneg : ∀ v : Vnode, v.IsEnd → 0 ≤ k.endCount v := by
    intro v pipe
    rw [g.counted.counts v pipe]
    exact Int.natCast_nonneg _
  cases move with
  | close p fd =>
    unfold processClose
    simp only
    split
    · exact Calm.refl k
    · exact (vnodeClose_calm g.ordered _).trans (setFd_calm _ p fd _)
  | dup p fd q fd' e =>
    refine (setFd_calm k p fd e).trans (vnodeDup_calm ?_ _)
    intro v pipe
    rw [setFd_endCount]
    exact nonneg v pipe
  | put p fd e => exact setFd_calm k p fd e
  | seek p fd e => exact setFd_calm k p fd e
  | pipe i p r w e f vacant =>
    have fresh := setPipe_calm k i pipeCreate fun t b c => absurd c (g.nobody vacant b)
    exact (fresh.trans (setFd_calm _ p r e)).trans (setFd_calm _ p w f)
  | spoil i vacant =>
    have fresh := setPipe_calm k i pipeCreate fun t b c => absurd c (g.nobody vacant b)
    have o₁ := fresh.toSteady.ordered g.ordered
    have closed := vnodeClose_calm o₁ (some (.pipeRead i))
    exact (fresh.trans closed).trans (vnodeClose_calm (closed.toSteady.ordered o₁) _)

theorem vnodeClose_fits {k : Kernel} (fits : ∀ i, (k.pipes i).Fits) (n : Option Vnode) (i : Nat) :
    ((vnodeClose k n).pipes i).Fits := by
  rw [vnodeClose_pipes]
  split
  · rename_i j
    by_cases h : i = j
    · subst h
      rw [Function.update_self]
      exact ⟨(fits i).head_lt, (fits i).count_le⟩
    · rw [Function.update_of_ne h]
      exact fits i
  · rename_i j
    by_cases h : i = j
    · subst h
      rw [Function.update_self]
      exact ⟨(fits i).head_lt, (fits i).count_le⟩
    · rw [Function.update_of_ne h]
      exact fits i
  · exact fits i

theorem setPipe_fits {k : Kernel} (fits : ∀ i, (k.pipes i).Fits) {q : Pipe} (new : q.Fits) (j i : Nat) :
    ((k.setPipe j q).pipes i).Fits := by
  by_cases h : i = j
  · subst h; simpa [Kernel.setPipe] using new
  · simpa [Kernel.setPipe, h] using fits i

theorem pipeCreate_fits : pipeCreate.Fits := ⟨by decide, by decide⟩

theorem FdMove.fits {k k' : Kernel} (move : FdMove k k') (fits : ∀ i, (k.pipes i).Fits) (i : Nat) :
    (k'.pipes i).Fits := by
  cases move with
  | close p fd =>
    unfold processClose
    simp only
    split
    · exact fits i
    · exact vnodeClose_fits fits _ i
  | dup p fd q fd' e =>
    unfold vnodeDup
    split
    · rename_i j _
      exact setPipe_fits (k := k.setFd p fd e) (q := pipeReadDup (k.pipes j)) fits
        ⟨(fits j).head_lt, (fits j).count_le⟩ j i
    · rename_i j _
      exact setPipe_fits (k := k.setFd p fd e) (q := pipeWriteDup (k.pipes j)) fits
        ⟨(fits j).head_lt, (fits j).count_le⟩ j i
    · exact fits i
  | put p fd e => exact fits i
  | seek p fd e => exact fits i
  | pipe j p r w e f => exact setPipe_fits fits pipeCreate_fits j i
  | spoil j =>
    exact vnodeClose_fits (vnodeClose_fits (setPipe_fits fits pipeCreate_fits j) _) _ i

theorem Good.move {kb : Keyboard} {calls : Nat → Option Call} {k k' : Kernel} (g : Good kb calls k)
    (moves : FdMoves k k') : Good kb calls k' := by
  induction moves with
  | refl => exact g
  | tail _ move ih => exact ih.calm (move.calm ih) (move.counted ih.counted) (move.fits ih.fits)

theorem Good.wake {kb : Keyboard} {calls : Nat → Option Call} {k : Kernel} (g : Good kb calls k)
    (c : Chan) : Good kb calls (taskWake k c) :=
  g.calm (taskWake_calm k c) (g.counted.congr rfl fun _ => ⟨rfl, rfl, rfl⟩) g.fits

theorem Good.yield {kb : Keyboard} {calls : Nat → Option Call} {k : Kernel} (g : Good kb calls k) :
    Good kb calls (yield k) := by
  obtain ⟨pipes, procs, -⟩ := yield_rest k
  refine g.calm (yield_calm g.ordered) (g.counted.congr procs fun i => ?_) fun i => ?_
  · rw [pipes]
    exact ⟨rfl, rfl, rfl⟩
  · rw [pipes]
    exact g.fits i

end Calming

section Signals

variable {kb : Keyboard} {calls : Nat → Option Call} {k : Kernel}

theorem processFindByPid_eq (unique : ∀ p q, (k.procs p).pid ≠ 0 → (k.procs p).pid = (k.procs q).pid →
    p = q) {s : Nat} (bound : s < maxProcesses) (pos : 0 < (k.procs s).pid) :
    processFindByPid k (k.procs s).pid = some s := by
  unfold processFindByPid
  rw [if_neg (by omega)]
  rw [List.find?_range_eq_some]
  refine ⟨by simp, List.mem_range.mpr bound, fun j hj => ?_⟩
  simp only [decide_eq_false_iff_not, Bool.not_eq_eq_eq_not, Bool.not_true]
  intro same
  have := unique s j (by omega) same.symm
  omega

theorem wakeProcess_rest (k : Kernel) (pid : Int) :
    (wakeProcess k pid).procs = k.procs ∧ (wakeProcess k pid).pipes = k.pipes ∧
      (wakeProcess k pid).current = k.current ∧ (wakeProcess k pid).taskCount = k.taskCount := by
  unfold wakeProcess
  split <;> exact ⟨rfl, rfl, rfl, rfl⟩

theorem wakeProcess_sleepers (k : Kernel) (pid : Int) (t : Nat)
    (blocked : ((wakeProcess k pid).tasks t).state = .blocked) :
    (k.tasks t).state = .blocked ∧ ((wakeProcess k pid).tasks t).waitChan = (k.tasks t).waitChan := by
  unfold wakeProcess at blocked ⊢
  split
  · rename_i p found
    rw [found] at blocked
    exact (taskWake_calm k (.process p)).sleepers t blocked
  · rename_i found
    rw [found] at blocked
    exact ⟨blocked, rfl⟩

/-- Whatever changes about a process, its parent is woken. -/
theorem setProc_wake_hushed (o : Ordered k) (p : Nat) (f : Process → Process)
    (pid : (f (k.procs p)).pid = (k.procs p).pid)
    (parent : (f (k.procs p)).parentPid = (k.procs p).parentPid) :
    Hushed k (wakeProcess (k.setProc p f) (k.procs p).parentPid) := by
  obtain ⟨procs, pipes, -, -⟩ := wakeProcess_rest (k.setProc p f) (k.procs p).parentPid
  have sleepers := wakeProcess_sleepers (k.setProc p f) (k.procs p).parentPid
  have pids : ∀ q, ((k.setProc p f).procs q).pid = (k.procs q).pid ∧
      ((k.setProc p f).procs q).parentPid = (k.procs q).parentPid := by
    intro q
    by_cases h : q = p
    · subst h; simpa [Kernel.setProc] using ⟨pid, parent⟩
    · simp [Kernel.setProc, h]
  refine ⟨sleepers, ?_, ?_⟩
  · intro t i _ _
    rw [pipes]
    exact ⟨rfl, id, id⟩
  · intro t s blocked chan proc target i _ child reportable
    rw [procs] at child reportable
    rw [isChild_congr (pids s).1 (pids i).1 (pids i).2] at child
    by_cases h : i = p
    · -- the parent of the changed process cannot be asleep any more
      subst h
      have before : (k.tasks t).state = .blocked := (sleepers t blocked).1
      have live := o.live (t := t) (by rw [before]; decide) proc
      have pos : 0 < (k.procs s).pid := by
        have := (o.pids s).1
        have := live.pid
        omega
      have mine : (k.procs i).parentPid = (k.procs s).pid := by
        simp only [Process.isChild, decide_eq_true_eq] at child
        exact child.2.1
      have found : processFindByPid (k.setProc i f) (k.procs i).parentPid = some s := by
        rw [mine, ← (pids s).1]
        refine processFindByPid_eq ?_ live.bound (by rw [(pids s).1]; exact pos)
        intro q r
        rw [(pids q).1, (pids r).1]
        exact o.unique q r
      have woken : wakeProcess (k.setProc i f) (k.procs i).parentPid =
          taskWake (k.setProc i f) (.process s) := by
        unfold wakeProcess
        rw [found]
      rw [woken] at blocked chan
      exact absurd chan (taskWake_gone (k := k.setProc i f) o.idle blocked)
    · refine ⟨child, ?_⟩
      simpa [Kernel.setProc, h] using reportable

theorem setProc_calm (k : Kernel) (p : Nat) (f : Process → Process)
    (same : (f (k.procs p)).identity = (k.procs p).identity)
    (parent : (f (k.procs p)).parentPid = (k.procs p).parentPid)
    (less : (f (k.procs p)).reportable = true → (k.procs p).reportable = true) :
    Calm k (k.setProc p f) := by
  have pids : ∀ q, ((k.setProc p f).procs q).pid = (k.procs q).pid ∧
      ((k.setProc p f).procs q).parentPid = (k.procs q).parentPid ∧
      (((k.setProc p f).procs q).reportable = true → (k.procs q).reportable = true) := by
    intro q
    by_cases h : q = p
    · subst h
      simpa [Kernel.setProc] using ⟨(Process.identity_eq same).1, parent, less⟩
    · simp [Kernel.setProc, h]
  refine { setProc_steady k p f same with sleepers := ?_, pipes := ?_, children := ?_ }
  · exact fun _ b => ⟨b, rfl⟩
  · exact fun _ _ _ _ => ⟨rfl, id, id⟩
  · intro t s _ _ _ target i _ child reportable
    rw [isChild_congr (pids s).1 (pids i).1 (pids i).2.1] at child
    exact ⟨child, (pids i).2.2 reportable⟩

/-- The counters do not look at anything of a process but its life and its
descriptors. -/
theorem Counted.relabel {k' : Kernel} (c : Counted k) (pipes : k'.pipes = k.pipes)
    (fds : ∀ p fd, ((k'.procs p).fds fd).used = ((k.procs p).fds fd).used ∧
      ∀ v, ((k'.procs p).fds fd).refers v = ((k.procs p).fds fd).refers v)
    (closed : ∀ p, ((k'.procs p).pid = 0 ∨ (k'.procs p).isZombie = true) →
      ∀ fd, ((k.procs p).fds fd).used = false) : Counted k' := by
  have counts : ∀ v, k'.endCount v = k.endCount v := by
    intro v
    cases v <;> simp only [Kernel.endCount, pipes]
  refine ⟨?_, ?_, ?_, ?_⟩
  · intro v pipe
    rw [counts, c.counts v pipe, ends_congr k.procs k'.procs v fun p fd => (fds p fd).2 v]
  · intro i
    rw [counts, counts, pipes]
    exact c.inUse i
  · intro p dead fd
    rw [(fds p fd).1]
    exact closed p dead fd
  · intro p fd used
    rw [(fds p fd).1] at used
    exact c.within p fd used

theorem setProc_counted (c : Counted k) (p : Nat) (f : Process → Process)
    (same : (f (k.procs p)).identity = (k.procs p).identity)
    (fds : (f (k.procs p)).fds = (k.procs p).fds) : Counted (k.setProc p f) := by
  have each : ∀ q, ((k.setProc p f).procs q).fds = (k.procs q).fds ∧
      ((k.setProc p f).procs q).identity = (k.procs q).identity := by
    intro q
    by_cases h : q = p
    · subst h; simpa [Kernel.setProc] using ⟨fds, same⟩
    · simp [Kernel.setProc, h]
  refine c.relabel rfl (fun q fd => by rw [(each q).1]; exact ⟨rfl, fun _ => rfl⟩) fun q dead => ?_
  have ids := Process.identity_eq (each q).2
  rw [ids.1, ids.2.1] at dead
  exact c.closed q dead

theorem Good.setTask (g : Good kb calls k) (t : Nat) (s : TaskState) (f : Task → Task)
    (state : (f (k.tasks t)).state = s) (proc : (f (k.tasks t)).proc = (k.tasks t).proc)
    (next : (f (k.tasks t)).next = (k.tasks t).next) (awake : s ≠ .blocked) (going : s ≠ .terminated)
    (was : (k.tasks t).state ≠ .terminated) : Good kb calls (k.setTask t f) := by
  refine g.calm (Calm.ofTasks (setState_steady k t s f state proc next awake going was) rfl rfl ?_)
    (g.counted.congr rfl fun _ => ⟨rfl, rfl, rfl⟩) g.fits
  intro u blocked
  by_cases h : u = t
  · subst h
    simp only [Kernel.setTask, Function.update_self, state] at blocked
    exact absurd blocked awake
  · simp [Kernel.setTask, h]

theorem Good.setProc (g : Good kb calls k) (p : Nat) (f : Process → Process)
    (same : (f (k.procs p)).identity = (k.procs p).identity)
    (parent : (f (k.procs p)).parentPid = (k.procs p).parentPid)
    (less : (f (k.procs p)).reportable = true → (k.procs p).reportable = true)
    (fds : (f (k.procs p)).fds = (k.procs p).fds) : Good kb calls (k.setProc p f) :=
  g.calm (setProc_calm k p f same parent less) (setProc_counted g.counted p f same fds) g.fits

theorem Good.stop (g : Good kb calls k) (p : Nat) (f : Process → Process)
    (same : (f (k.procs p)).identity = (k.procs p).identity)
    (parent : (f (k.procs p)).parentPid = (k.procs p).parentPid)
    (fds : (f (k.procs p)).fds = (k.procs p).fds) :
    Good kb calls (wakeProcess (k.setProc p f) (k.procs p).parentPid) := by
  obtain ⟨procs, pipes, -, -⟩ := wakeProcess_rest (k.setProc p f) (k.procs p).parentPid
  have steady := (setProc_steady k p f same).trans (wakeProcess_steady _ (k.procs p).parentPid)
  have hushed := setProc_wake_hushed g.ordered p f (Process.identity_eq same).1 parent
  refine g.calm { steady with
      sleepers := hushed.sleepers, pipes := hushed.pipes, children := hushed.children } ?_ ?_
  · refine (setProc_counted g.counted p f same fds).congr procs fun i => ?_
    rw [pipes]
    exact ⟨rfl, rfl, rfl⟩
  · intro i
    rw [pipes]
    exact g.fits i

theorem Good.terminate (g : Good kb calls k) {p t : Nat} (live : k.Live p)
    (task : (k.procs p).task = some t) (code : Nat) : Good kb calls (processTerminate k p t code) := by
  have ordered := processTerminate_ordered g.ordered live task code
  have g₁ := g.move (closeAll_moves k p)
  have closed : ∀ fd, (((closeAll k p).procs p).fds fd).used = false := by
    intro fd
    by_cases h : fd < maxFds
    · exact closeAll_closed k p fd h
    · by_contra used
      exact h (g₁.counted.within p fd (by simpa using used)).2
  have eq : processTerminate k p t code =
      (wakeProcess ((closeAll k p).setProc p fun x => { x with exitCode := code, isZombie := true })
        ((closeAll k p).procs p).parentPid).setTask t fun x => { x with state := .terminated } := by
    rw [processTerminate_eq, processMarkZombie_eq]
  rw [eq] at ordered ⊢
  clear eq
  generalize closeAll k p = k₁ at g₁ closed ordered ⊢
  have hushed := setProc_wake_hushed g₁.ordered p
    (fun x => { x with exitCode := code, isZombie := true }) rfl rfl
  have steady := wakeProcess_steady (k₁.setProc p fun x => { x with exitCode := code, isZombie := true })
    (k₁.procs p).parentPid
  obtain ⟨procs, pipes, -, count⟩ := wakeProcess_rest
    (k₁.setProc p fun x => { x with exitCode := code, isZombie := true }) (k₁.procs p).parentPid
  generalize wakeProcess (k₁.setProc p fun x => { x with exitCode := code, isZombie := true })
    (k₁.procs p).parentPid = k₂ at hushed steady procs pipes count ordered ⊢
  have others : ∀ u, ((k₂.setTask t fun x => { x with state := .terminated }).tasks u).state = .blocked →
      (k₂.setTask t fun x => { x with state := .terminated }).tasks u = k₂.tasks u := by
    intro u blocked
    by_cases h : u = t
    · subst h
      simp [Kernel.setTask] at blocked
    · simp [Kernel.setTask, h]
  refine ⟨ordered, ?_, ?_, ?_, ?_⟩
  · refine g₁.counted.relabel pipes (fun q fd => ?_) fun q dead => ?_
    · simp only [setTask_procs, procs]
      by_cases h : q = p
      · subst h; simp [Kernel.setProc]
      · simp [Kernel.setProc, h]
    · simp only [setTask_procs, procs] at dead
      by_cases h : q = p
      · subst h; exact closed
      · simp only [Kernel.setProc, Function.update_of_ne h] at dead
        exact g₁.counted.closed q dead
  · intro i
    simp only [Kernel.setTask, pipes]
    exact g₁.fits i
  · intro u c call
    obtain ⟨bound, own⟩ := g₁.owned u c call
    refine ⟨?_, ?_⟩
    · show u < k₂.taskCount
      rw [count]
      exact bound
    · have proc : ((k₂.setTask t fun x => { x with state := .terminated }).tasks u).proc =
          (k₂.tasks u).proc := by
        by_cases h : u = t
        · subst h; simp [Kernel.setTask]
        · simp [Kernel.setTask, h]
      rw [proc, (steady.tasks u).1]
      exact own
  · refine g₁.asleep.hushed g₁.owned ⟨fun u blocked => ?_, fun u i blocked chan => ?_, ?_⟩
    · have same := others u blocked
      rw [same] at blocked ⊢
      exact hushed.sleepers u blocked
    · have same := others u blocked
      rw [same] at blocked chan
      exact hushed.pipes u i blocked chan
    · intro u s blocked chan
      have same := others u blocked
      rw [same] at blocked chan
      exact hushed.children u s blocked chan

theorem processFindByPid_some {pid : Int} {p : Nat} (h : processFindByPid k pid = some p) :
    p < maxProcesses ∧ (k.procs p).pid = pid ∧ pid ≠ 0 := by
  unfold processFindByPid at h
  split at h
  · cases h
  · have found := List.find?_some h
    simp only [decide_eq_true_eq] at found
    exact ⟨List.mem_range.mp (List.mem_of_find?_eq_some h), found, by omega⟩

theorem Good.signal (g : Good kb calls k) {target sig : Nat} (bound : target < maxProcesses)
    (pid : (k.procs target).pid ≠ 0) {r : Kernel × SelfAction}
    (h : processSendSignal k target sig = some r) : Good kb calls r.1 := by
  unfold processSendSignal at h
  simp only at h
  split at h
  · -- SIGKILL, SIGTERM, SIGINT
    split at h
    · cases h; exact g
    · rename_i awake
      simp only [Bool.not_eq_true] at awake
      obtain ⟨t, task, rfl⟩ := Option.map_eq_some_iff.mp h
      exact g.terminate ⟨bound, pid, awake⟩ task _
  split at h
  · -- SIGTSTP
    split at h
    · cases h; exact g
    · rename_i going
      simp only [not_or, Bool.not_eq_true] at going
      obtain ⟨t, task, rfl⟩ := Option.map_eq_some_iff.mp h
      have link := g.ordered.task target t pid going.1 task
      have stopped := g.stop target
        (fun x => { x with isStopped := true, stopSignal := sigtstp, stopReported := false })
        rfl rfl rfl
      refine stopped.setTask t .stopped (fun x => { x with state := .stopped }) rfl rfl rfl (by decide)
        (by decide) ?_
      have steady := (wakeProcess_steady (k.setProc target fun x =>
        { x with isStopped := true, stopSignal := sigtstp, stopReported := false })
        (k.procs target).parentPid).tasks t
      rw [Ne, steady.2.2]
      exact link.2.1
  split at h
  · -- SIGCONT
    split at h
    · cases h; exact g
    · rename_i awake
      simp only [Bool.not_eq_true] at awake
      split at h
      · obtain ⟨t, task, rfl⟩ := Option.map_eq_some_iff.mp h
        have link := g.ordered.task target t pid awake task
        have continued := g.setProc target (fun x => { x with isStopped := false }) rfl rfl
          (by simp [Process.reportable, awake]) rfl
        exact continued.setTask t .ready (fun x => { x with state := .ready }) rfl rfl rfl (by decide)
          (by decide) link.2.1
      · cases h; exact g
  split at h
  · cases h; exact g
  · cases h; exact g

theorem Good.afterAction (g : Good kb calls k) (a : SelfAction) : Good kb calls (afterAction k a) := by
  cases a with
  | terminated => exact g.yield
  | stopped => exact g.yield
  | nothing => exact g
  | unknown => exact g

theorem Good.signalEach {sig : Nat} (pids : List Int) (g : Good kb calls k) (self : SelfAction)
    {r : Kernel × SelfAction} (h : signalEach sig pids k self = some r) : Good kb calls r.1 := by
  induction pids generalizing k self with
  | nil =>
    cases h
    exact g
  | cons pid rest ih =>
    unfold Isunux.signalEach at h
    split at h
    · exact ih g self h
    · rename_i target found
      obtain ⟨bound, here, pos⟩ := processFindByPid_some found
      split at h
      · cases h
      · rename_i k' action sent
        exact ih (g.signal bound (by rw [here]; exact pos) sent) _ h

theorem Good.signalForeground (g : Good kb calls k) {pids : List Int} {sig : Nat} {k' : Kernel}
    (h : processSignalForeground k pids sig = some k') : Good kb calls k' := by
  obtain ⟨r, sent, rfl⟩ := Option.map_eq_some_iff.mp h
  exact (Good.signalEach pids g .nothing sent).afterAction r.2

theorem Good.kill (g : Good kb calls k) {pid : Int} {sig : Nat} {r : Kernel × Int}
    (h : sysKill k pid sig = some r) : Good kb calls r.1 := by
  unfold sysKill at h
  split at h
  · cases h; exact g
  · rename_i target found
    obtain ⟨bound, here, pos⟩ := processFindByPid_some found
    obtain ⟨s, sent, rfl⟩ := Option.map_eq_some_iff.mp h
    exact (g.signal bound (by rw [here]; exact pos) sent).afterAction s.2

theorem Good.endCurrent (g : Good kb calls k) {p : Nat}
    (running : (k.tasks k.current).state = .running) (proc : k.currentProcess = some p)
    (status : Nat) : Good kb calls (endCurrent k p status) := by
  have awake : (k.tasks k.current).state ≠ .terminated := by rw [running]; decide
  have live := g.ordered.live awake proc
  have task := (g.ordered.owner k.current p awake proc).2.2
  exact (g.terminate live task status).yield

end Signals

end Isunux
