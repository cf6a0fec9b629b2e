import Isunux.Fds

/-! The reference counts of pipe ends against the descriptor tables. -/
namespace Isunux

def FdEntry.refers (e : FdEntry) (v : Vnode) : Nat := if e.used = true ∧ e.node = some v then 1 else 0

def slots : Finset (Nat × Nat) := Finset.range maxProcesses ×ˢ Finset.range maxFds

/-- How many used slots of all tables point at the vnode. -/
def ends (procs : Nat → Process) (v : Vnode) : Nat :=
  ∑ x ∈ slots, ((procs x.1).fds x.2).refers v

/-- The counter a pipe keeps for one of its ends. -/
def Kernel.endCount (k : Kernel) : Vnode → Int
  | .pipeRead i => (k.pipes i).readRefcount
  | .pipeWrite i => (k.pipes i).writeRefcount
  | .node _ => 0

def Vnode.IsEnd : Vnode → Prop
  | .node _ => False
  | _ => True

structure Counted (k : Kernel) : Prop where
  counts : ∀ v : Vnode, v.IsEnd → k.endCount v = ends k.procs v
  inUse : ∀ i, (k.pipes i).inUse = false ↔
    k.endCount (.pipeRead i) = 0 ∧ k.endCount (.pipeWrite i) = 0
  closed : ∀ p, ((k.procs p).pid = 0 ∨ (k.procs p).isZombie = true) →
    ∀ fd, ((k.procs p).fds fd).used = false
  within : ∀ p fd, ((k.procs p).fds fd).used = true → p < maxProcesses ∧ fd < maxFds

@[simp] theorem FdEntry.refers_unused {e : FdEntry} (h : e.used = false) (v : Vnode) :
    e.refers v = 0 := by simp [FdEntry.refers, h]

theorem ends_change (procs procs' : Nat → Process) {p fd : Nat} (hp : p < maxProcesses)
    (hfd : fd < maxFds) (v : Vnode)
    (others : ∀ p' fd', ¬ (p' = p ∧ fd' = fd) →
      ((procs' p').fds fd').refers v = ((procs p').fds fd').refers v) :
    ends procs' v + ((procs p).fds fd).refers v = ends procs v + ((procs' p).fds fd).refers v := by
  have mem : (p, fd) ∈ slots := by simp [slots, hp, hfd]
  have rest : ∑ x ∈ slots.erase (p, fd), ((procs' x.1).fds x.2).refers v =
      ∑ x ∈ slots.erase (p, fd), ((procs x.1).fds x.2).refers v := by
    refine Finset.sum_congr rfl fun x hx => others x.1 x.2 ?_
    rintro ⟨h₁, h₂⟩
    exact Finset.ne_of_mem_erase hx (Prod.ext h₁ h₂)
  have before := Finset.add_sum_erase slots (fun x => ((procs x.1).fds x.2).refers v) mem
  have after := Finset.add_sum_erase slots (fun x => ((procs' x.1).fds x.2).refers v) mem
  simp only at before after
  unfold ends
  omega

theorem ends_congr (procs procs' : Nat → Process) (v : Vnode)
    (same : ∀ p fd, ((procs' p).fds fd).refers v = ((procs p).fds fd).refers v) :
    ends procs' v = ends procs v := Finset.sum_congr rfl fun x _ => same x.1 x.2

theorem Counted.endCount_pos {k : Kernel} (c : Counted k) {p fd : Nat} {v : Vnode} (pipe : v.IsEnd)
    (used : ((k.procs p).fds fd).used = true) (node : ((k.procs p).fds fd).node = some v) :
    0 < k.endCount v := by
  rw [c.counts v pipe]
  obtain ⟨hp, hfd⟩ := c.within p fd used
  have one : ((k.procs p).fds fd).refers v = 1 := if_pos ⟨used, node⟩
  have le := Finset.single_le_sum (f := fun x : Nat × Nat => ((k.procs x.1).fds x.2).refers v)
    (fun _ _ => Nat.zero_le _) (show (p, fd) ∈ slots by simp [slots, hp, hfd])
  simp only [one] at le
  have : 1 ≤ ends k.procs v := le
  omega

section Hooks

theorem vnodeDup_endCount (k : Kernel) (n : Option Vnode) {v : Vnode} (pipe : v.IsEnd) :
    (vnodeDup k n).endCount v = k.endCount v + if n = some v then 1 else 0 := by
  cases n with
  | none => simp [vnodeDup]
  | some u =>
    cases u with
    | node id =>
      cases v with
      | node id' => exact pipe.elim
      | _ => simp [vnodeDup]
    | pipeRead j =>
      cases v with
      | node id' => exact pipe.elim
      | pipeRead i =>
        by_cases h : i = j
        · subst h; simp [vnodeDup, Kernel.endCount, Kernel.setPipe, pipeReadDup]
        · simp [vnodeDup, Kernel.endCount, Kernel.setPipe, h, Ne.symm h]
      | pipeWrite i =>
        by_cases h : i = j
        · subst h; simp [vnodeDup, Kernel.endCount, Kernel.setPipe, pipeReadDup]
        · simp [vnodeDup, Kernel.endCount, Kernel.setPipe, h]
    | pipeWrite j =>
      cases v with
      | node id' => exact pipe.elim
      | pipeRead i =>
        by_cases h : i = j
        · subst h; simp [vnodeDup, Kernel.endCount, Kernel.setPipe, pipeWriteDup]
        · simp [vnodeDup, Kernel.endCount, Kernel.setPipe, h]
      | pipeWrite i =>
        by_cases h : i = j
        · subst h; simp [vnodeDup, Kernel.endCount, Kernel.setPipe, pipeWriteDup]
        · simp [vnodeDup, Kernel.endCount, Kernel.setPipe, h, Ne.symm h]

theorem vnodeDup_inUse (k : Kernel) (n : Option Vnode) (i : Nat) :
    ((vnodeDup k n).pipes i).inUse = (k.pipes i).inUse := by
  unfold vnodeDup
  split
  · rename_i j
    by_cases h : i = j
    · subst h; simp [Kernel.setPipe, pipeReadDup]
    · simp [Kernel.setPipe, h]
  · rename_i j
    by_cases h : i = j
    · subst h; simp [Kernel.setPipe, pipeWriteDup]
    · simp [Kernel.setPipe, h]
  · rfl

theorem vnodeClose_pipes (k : Kernel) (n : Option Vnode) :
    (vnodeClose k n).pipes = match n with
      | some (.pipeRead i) => Function.update k.pipes i (pipeReadClose (k.pipes i)).1
      | some (.pipeWrite i) => Function.update k.pipes i (pipeWriteClose (k.pipes i)).1
      | _ => k.pipes := by
  cases n with
  | none => rfl
  | some v =>
    cases v with
    | node id => rfl
    | pipeRead i => simp only [vnodeClose]; split <;> rfl
    | pipeWrite i => simp only [vnodeClose]; split <;> rfl

theorem vnodeClose_endCount (k : Kernel) (n : Option Vnode) {v : Vnode} (pipe : v.IsEnd) :
    (vnodeClose k n).endCount v = k.endCount v - if n = some v then 1 else 0 := by
  cases n with
  | none => simp [vnodeClose]
  | some u =>
    cases u with
    | node id =>
      cases v with
      | node id' => exact pipe.elim
      | _ => simp [vnodeClose]
    | pipeRead j =>
      cases v with
      | node id' => exact pipe.elim
      | pipeRead i =>
        by_cases h : i = j
        · subst h; simp [vnodeClose_pipes, Kernel.endCount, pipeReadClose]
        · simp [vnodeClose_pipes, Kernel.endCount, h, Ne.symm h]
      | pipeWrite i =>
        by_cases h : i = j
        · subst h; simp [vnodeClose_pipes, Kernel.endCount, pipeReadClose]
        · simp [vnodeClose_pipes, Kernel.endCount, h]
    | pipeWrite j =>
      cases v with
      | node id' => exact pipe.elim
      | pipeRead i =>
        by_cases h : i = j
        · subst h; simp [vnodeClose_pipes, Kernel.endCount, pipeWriteClose]
        · simp [vnodeClose_pipes, Kernel.endCount, h]
      | pipeWrite i =>
        by_cases h : i = j
        · subst h; simp [vnodeClose_pipes, Kernel.endCount, pipeWriteClose]
        · simp [vnodeClose_pipes, Kernel.endCount, h, Ne.symm h]

theorem vnodeClose_inUse (k : Kernel) (n : Option Vnode) {i : Nat}
    (right : (k.pipes i).inUse = false ↔
      k.endCount (.pipeRead i) = 0 ∧ k.endCount (.pipeWrite i) = 0)
    (held : ∀ v, n = some v → v.IsEnd → 0 < k.endCount v) :
    ((vnodeClose k n).pipes i).inUse = false ↔
      (vnodeClose k n).endCount (.pipeRead i) = 0 ∧ (vnodeClose k n).endCount (.pipeWrite i) = 0 := by
  have other : (vnodeClose k n).pipes i = k.pipes i → (((vnodeClose k n).pipes i).inUse = false ↔
      (vnodeClose k n).endCount (.pipeRead i) = 0 ∧
        (vnodeClose k n).endCount (.pipeWrite i) = 0) := by
    intro same
    simp only [Kernel.endCount, same] at right ⊢
    exact right
  cases n with
  | none => exact right
  | some v =>
    cases v with
    | node id => exact right
    | pipeRead j =>
      by_cases h : i = j
      · subst h
        have pos := held _ rfl trivial
        have live : (k.pipes i).inUse = true := by
          rw [← Bool.not_eq_false, right]
          omega
        simp only [Kernel.endCount] at pos
        simp [vnodeClose_pipes, Kernel.endCount, pipeReadClose, live]
      · exact other (by simp [vnodeClose_pipes, h])
    | pipeWrite j =>
      by_cases h : i = j
      · subst h
        have pos := held _ rfl trivial
        have live : (k.pipes i).inUse = true := by
          rw [← Bool.not_eq_false, right]
          omega
        simp only [Kernel.endCount] at pos
        simp [vnodeClose_pipes, Kernel.endCount, pipeWriteClose, live]
      · exact other (by simp [vnodeClose_pipes, h])

end Hooks

/-- Who is alive, in one table and the other. -/
def SameLives (k k' : Kernel) : Prop :=
  ∀ p, (k'.procs p).pid = (k.procs p).pid ∧ (k'.procs p).isZombie = (k.procs p).isZombie

theorem Counted.slot {k k' : Kernel} (c : Counted k) {p fd : Nat} (hp : p < maxProcesses)
    (hfd : fd < maxFds)
    (others : ∀ p' fd', ¬ (p' = p ∧ fd' = fd) → (k'.procs p').fds fd' = (k.procs p').fds fd')
    (lives : SameLives k k')
    (owner : ((k'.procs p).fds fd).used = true → (k.procs p).pid ≠ 0 ∧ (k.procs p).isZombie = false)
    (moved : ∀ v : Vnode, v.IsEnd → k'.endCount v + (((k.procs p).fds fd).refers v : Int) =
      k.endCount v + ((k'.procs p).fds fd).refers v)
    (inUse : ∀ i, (k'.pipes i).inUse = false ↔
      k'.endCount (.pipeRead i) = 0 ∧ k'.endCount (.pipeWrite i) = 0) : Counted k' := by
  refine ⟨?_, inUse, ?_, ?_⟩
  · intro v pipe
    have now := moved v pipe
    have before := c.counts v pipe
    have change := ends_change k.procs k'.procs hp hfd v
      fun p' fd' h => by rw [others p' fd' h]
    omega
  · intro q dead fd'
    rw [(lives q).1, (lives q).2] at dead
    by_cases h : q = p ∧ fd' = fd
    · obtain ⟨rfl, rfl⟩ := h
      by_contra used
      obtain ⟨live, awake⟩ := owner (by simpa using used)
      rcases dead with h | h
      · exact live h
      · rw [awake] at h
        cases h
    · rw [others q fd' h]
      exact c.closed q dead fd'
  · intro q fd' used
    by_cases h : q = p ∧ fd' = fd
    · obtain ⟨rfl, rfl⟩ := h
      exact ⟨hp, hfd⟩
    · rw [others q fd' h] at used
      exact c.within q fd' used

theorem Counted.congr {k k' : Kernel} (c : Counted k) (procs : k'.procs = k.procs)
    (counts : ∀ i, (k'.pipes i).readRefcount = (k.pipes i).readRefcount ∧
      (k'.pipes i).writeRefcount = (k.pipes i).writeRefcount ∧
      (k'.pipes i).inUse = (k.pipes i).inUse) : Counted k' := by
  have same : ∀ v, k'.endCount v = k.endCount v := by
    intro v
    cases v with
    | node id => rfl
    | pipeRead i => exact (counts i).1
    | pipeWrite i => exact (counts i).2.1
  refine ⟨?_, ?_, ?_, ?_⟩
  · intro v pipe
    rw [same, procs]
    exact c.counts v pipe
  · intro i
    rw [same, same, (counts i).2.2]
    exact c.inUse i
  · rw [procs]
    exact c.closed
  · rw [procs]
    exact c.within

theorem setFd_lives (k : Kernel) (p fd : Nat) (e : FdEntry) : SameLives k (k.setFd p fd e) := by
  intro q
  by_cases h : q = p
  · subst h; simp [Kernel.setFd, Kernel.setProc]
  · simp [Kernel.setFd, Kernel.setProc, h]

theorem setFd_endCount (k : Kernel) (p fd : Nat) (e : FdEntry) (v : Vnode) :
    (k.setFd p fd e).endCount v = k.endCount v := by
  cases v <;> rfl

theorem Counted.close {k : Kernel} (c : Counted k) (p fd : Nat) : Counted (processClose k p fd).1 := by
  unfold processClose
  simp only
  split
  · exact c
  · rename_i held
    rw [not_or, Bool.not_eq_false] at held
    obtain ⟨low, used⟩ := held
    have bound := c.within p fd used
    have alive : ∀ v, ((k.procs p).fds fd).node = some v → v.IsEnd → 0 < k.endCount v :=
      fun v node pipe => c.endCount_pos pipe used node
    refine c.slot bound.1 bound.2 ?_ ?_ ?_ ?_ ?_
    · intro p' fd' h
      rw [setFd_fds, if_neg h, vnodeClose_procs]
    · intro q
      have := setFd_lives (vnodeClose k ((k.procs p).fds fd).node) p fd
        { (k.procs p).fds fd with used := false, node := none, offset := 0#64 } q
      rwa [vnodeClose_procs] at this
    · rw [setFd_fds, if_pos ⟨rfl, rfl⟩]
      simp
    · intro v pipe
      rw [setFd_fds, if_pos ⟨rfl, rfl⟩, setFd_endCount, vnodeClose_endCount k _ pipe]
      simp only [FdEntry.refers, used, true_and, Bool.false_eq_true, false_and, if_false]
      split <;> simp
    · intro i
      simp only [setFd_endCount]
      exact vnodeClose_inUse k _ (c.inUse i) alive

/-- The moves that the calls of process.c make on the descriptor tables. -/
inductive FdMove (k : Kernel) : Kernel → Prop where
  | close (p fd : Nat) : FdMove k (processClose k p fd).1
  | dup (p fd q fd' : Nat) (e : FdEntry) (hp : p < maxProcesses) (hfd : fd < maxFds)
      (free : ((k.procs p).fds fd).used = false)
      (live : (k.procs p).pid ≠ 0 ∧ (k.procs p).isZombie = false) (used : e.used = true)
      (source : ((k.procs q).fds fd').used = true) (node : e.node = ((k.procs q).fds fd').node) :
      FdMove k (vnodeDup (k.setFd p fd e) e.node)
  | put (p fd : Nat) (e : FdEntry) (hp : p < maxProcesses) (hfd : fd < maxFds)
      (free : ((k.procs p).fds fd).used = false)
      (plain : e.used = true → ((k.procs p).pid ≠ 0 ∧ (k.procs p).isZombie = false) ∧
        ∀ v, e.node = some v → ¬ v.IsEnd) :
      FdMove k (k.setFd p fd e)
  | seek (p fd : Nat) (e : FdEntry) (used : e.used = ((k.procs p).fds fd).used)
      (node : e.node = ((k.procs p).fds fd).node) : FdMove k (k.setFd p fd e)
  | pipe (i p r w : Nat) (e f : FdEntry) (vacant : (k.pipes i).inUse = false)
      (hp : p < maxProcesses) (hr : r < maxFds) (hw : w < maxFds) (apart : r ≠ w)
      (freeRead : ((k.procs p).fds r).used = false) (freeWrite : ((k.procs p).fds w).used = false)
      (live : (k.procs p).pid ≠ 0 ∧ (k.procs p).isZombie = false)
      (reading : e.used = true ∧ e.node = some (.pipeRead i))
      (writing : f.used = true ∧ f.node = some (.pipeWrite i)) :
      FdMove k (((k.setPipe i pipeCreate).setFd p r e).setFd p w f)
  | spoil (i : Nat) (vacant : (k.pipes i).inUse = false) :
      FdMove k (vnodeClose (vnodeClose (k.setPipe i pipeCreate) (some (.pipeRead i)))
        (some (.pipeWrite i)))

/-- A free slot of a live process is filled with what another slot holds, and
the hook called. -/
theorem Counted.dup {k : Kernel} (c : Counted k) {p fd q fd' : Nat} (e : FdEntry)
    (hp : p < maxProcesses) (hfd : fd < maxFds) (free : ((k.procs p).fds fd).used = false)
    (live : (k.procs p).pid ≠ 0 ∧ (k.procs p).isZombie = false) (used : e.used = true)
    (source : ((k.procs q).fds fd').used = true) (node : e.node = ((k.procs q).fds fd').node) :
    Counted (vnodeDup (k.setFd p fd e) e.node) := by
  refine c.slot hp hfd ?_ ?_ ?_ ?_ ?_
  · intro p' fd'' h
    rw [vnodeDup_procs, setFd_fds, if_neg h]
  · intro r
    rw [vnodeDup_procs]
    exact setFd_lives k p fd e r
  · exact fun _ => live
  · intro v pipe
    rw [vnodeDup_procs, setFd_fds, if_pos ⟨rfl, rfl⟩, vnodeDup_endCount _ _ pipe, setFd_endCount,
      FdEntry.refers_unused free]
    simp only [FdEntry.refers, used, true_and]
    split <;> simp
  · intro i
    rw [vnodeDup_inUse, vnodeDup_endCount _ _ (v := .pipeRead i) trivial,
      vnodeDup_endCount _ _ (v := .pipeWrite i) trivial, setFd_endCount, setFd_endCount]
    have right := c.inUse i
    have readers : e.node = some (.pipeRead i) → 0 < k.endCount (.pipeRead i) :=
      fun h => c.endCount_pos trivial source (node ▸ h)
    have writers : e.node = some (.pipeWrite i) → 0 < k.endCount (.pipeWrite i) :=
      fun h => c.endCount_pos trivial source (node ▸ h)
    show (k.pipes i).inUse = false ↔ _
    rw [right]
    by_cases hr : e.node = some (.pipeRead i)
    · have := readers hr
      simp only [hr, if_true, Option.some.injEq, reduceCtorEq, if_false]
      omega
    · by_cases hw : e.node = some (.pipeWrite i)
      · have := writers hw
        simp only [hw, if_true, Option.some.injEq, reduceCtorEq, if_false]
        omega
      · simp [hr, hw]

theorem Counted.put {k : Kernel} (c : Counted k) {p fd : Nat} (e : FdEntry)
    (hp : p < maxProcesses) (hfd : fd < maxFds) (free : ((k.procs p).fds fd).used = false)
    (plain : e.used = true → ((k.procs p).pid ≠ 0 ∧ (k.procs p).isZombie = false) ∧
      ∀ v, e.node = some v → ¬ v.IsEnd) : Counted (k.setFd p fd e) := by
  refine c.slot hp hfd ?_ (setFd_lives k p fd e) ?_ ?_ ?_
  · intro p' fd' h
    rw [setFd_fds, if_neg h]
  · rw [setFd_fds, if_pos ⟨rfl, rfl⟩]
    exact fun used => (plain used).1
  · intro v pipe
    have nothing : e.refers v = 0 := if_neg fun h => (plain h.1).2 v h.2 pipe
    rw [setFd_fds, if_pos ⟨rfl, rfl⟩, setFd_endCount, FdEntry.refers_unused free, nothing]
  · intro i
    rw [setFd_endCount, setFd_endCount]
    exact c.inUse i

theorem Counted.seek {k : Kernel} (c : Counted k) {p fd : Nat} (e : FdEntry)
    (used : e.used = ((k.procs p).fds fd).used) (node : e.node = ((k.procs p).fds fd).node) :
    Counted (k.setFd p fd e) := by
  have same : ∀ q fd', (((k.setFd p fd e).procs q).fds fd').used = ((k.procs q).fds fd').used ∧
      (((k.setFd p fd e).procs q).fds fd').node = ((k.procs q).fds fd').node := by
    intro q fd'
    rw [setFd_fds]
    split
    · rename_i h
      rw [h.1, h.2]
      exact ⟨used, node⟩
    · exact ⟨rfl, rfl⟩
  refine ⟨?_, ?_, ?_, ?_⟩
  · intro v pipe
    have kept : ends (k.setFd p fd e).procs v = ends k.procs v := by
      refine ends_congr _ _ v fun q fd' => ?_
      rw [FdEntry.refers, (same q fd').1, (same q fd').2, FdEntry.refers]
    rw [setFd_endCount, c.counts v pipe, kept]
  · intro i
    rw [setFd_endCount, setFd_endCount]
    exact c.inUse i
  · intro q dead fd'
    rw [(setFd_lives k p fd e q).1, (setFd_lives k p fd e q).2] at dead
    rw [(same q fd').1]
    exact c.closed q dead fd'
  · intro q fd' h
    rw [(same q fd').1] at h
    exact c.within q fd' h

theorem setPipe_endCount (k : Kernel) (i : Nat) (q : Pipe) (v : Vnode) :
    (k.setPipe i q).endCount v =
      if v = .pipeRead i then q.readRefcount
      else if v = .pipeWrite i then q.writeRefcount else k.endCount v := by
  cases v with
  | node id => rfl
  | pipeRead j =>
    by_cases h : j = i
    · subst h; simp [Kernel.endCount, Kernel.setPipe]
    · simp [Kernel.endCount, Kernel.setPipe, h]
  | pipeWrite j =>
    by_cases h : j = i
    · subst h; simp [Kernel.endCount, Kernel.setPipe]
    · simp [Kernel.endCount, Kernel.setPipe, h]

theorem Counted.pipe {k : Kernel} (c : Counted k) {i p r w : Nat} (e f : FdEntry)
    (vacant : (k.pipes i).inUse = false) (hp : p < maxProcesses) (hr : r < maxFds) (hw : w < maxFds)
    (apart : r ≠ w) (freeRead : ((k.procs p).fds r).used = false)
    (freeWrite : ((k.procs p).fds w).used = false)
    (live : (k.procs p).pid ≠ 0 ∧ (k.procs p).isZombie = false)
    (reading : e.used = true ∧ e.node = some (.pipeRead i))
    (writing : f.used = true ∧ f.node = some (.pipeWrite i)) :
    Counted (((k.setPipe i pipeCreate).setFd p r e).setFd p w f) := by
  obtain ⟨noReaders, noWriters⟩ := (c.inUse i).mp vacant
  -- the counters rise one end at a time
  have half : Counted ((k.setPipe i { pipeCreate with writeRefcount := 0 }).setFd p r e) := by
    refine c.slot hp hr ?_ ?_ (fun _ => live) ?_ ?_
    · intro p' fd' h
      rw [setFd_fds, if_neg h, setPipe_procs]
    · exact setFd_lives (k.setPipe i { pipeCreate with writeRefcount := 0 }) p r e
    · intro v pipe
      rw [setFd_fds, if_pos ⟨rfl, rfl⟩, setFd_endCount, setPipe_endCount,
        FdEntry.refers_unused freeRead]
      simp only [FdEntry.refers, reading, true_and, Option.some.injEq]
      by_cases h₁ : v = .pipeRead i
      · subst h₁; simp [pipeCreate, noReaders]
      · by_cases h₂ : v = .pipeWrite i
        · subst h₂; simp [noWriters]
        · simp [h₁, h₂, Ne.symm h₁]
    · intro j
      rw [setFd_endCount, setFd_endCount, setPipe_endCount, setPipe_endCount]
      by_cases h : j = i
      · subst h; simp [Kernel.setFd, Kernel.setProc, Kernel.setPipe, pipeCreate]
      · simpa [Kernel.setFd, Kernel.setProc, Kernel.setPipe, h] using c.inUse j
  have table : ∀ p' fd', ((((k.setPipe i pipeCreate).setFd p r e).setFd p w f).procs p').fds fd' =
      if p' = p ∧ fd' = w then f
      else (((k.setPipe i { pipeCreate with writeRefcount := 0 }).setFd p r e).procs p').fds fd' := by
    intro p' fd'
    rw [setFd_fds]
    rfl
  have before : ((((k.setPipe i { pipeCreate with writeRefcount := 0 }).setFd p r e).procs p).fds w).used
      = false := by
    rw [setFd_fds, if_neg (fun h => apart h.2.symm), setPipe_procs]
    exact freeWrite
  refine half.slot hp hw ?_ ?_ ?_ ?_ ?_
  · intro p' fd' h
    rw [table, if_neg h]
  · exact setFd_lives ((k.setPipe i pipeCreate).setFd p r e) p w f
  · intro _
    rw [(setFd_lives (k.setPipe i { pipeCreate with writeRefcount := 0 }) p r e p).1,
      (setFd_lives (k.setPipe i { pipeCreate with writeRefcount := 0 }) p r e p).2]
    exact live
  · intro v pipe
    rw [table, if_pos ⟨rfl, rfl⟩, FdEntry.refers_unused before]
    simp only [setFd_endCount, setPipe_endCount, FdEntry.refers, writing, true_and, Option.some.injEq]
    by_cases h₁ : v = .pipeRead i
    · subst h₁; simp
    · by_cases h₂ : v = .pipeWrite i
      · subst h₂; simp [pipeCreate]
      · simp [h₁, h₂, Ne.symm h₂]
  · intro j
    simp only [setFd_endCount, setPipe_endCount]
    by_cases h : j = i
    · subst h; simp [Kernel.setFd, Kernel.setProc, Kernel.setPipe, pipeCreate]
    · simpa [Kernel.setFd, Kernel.setProc, Kernel.setPipe, h] using c.inUse j

theorem Counted.spoil {k : Kernel} (c : Counted k) {i : Nat} (vacant : (k.pipes i).inUse = false) :
    Counted (vnodeClose (vnodeClose (k.setPipe i pipeCreate) (some (.pipeRead i)))
      (some (.pipeWrite i))) := by
  obtain ⟨noReaders, noWriters⟩ := (c.inUse i).mp vacant
  simp only [Kernel.endCount] at noReaders noWriters
  refine c.congr (by simp) fun j => ?_
  rw [vnodeClose_pipes, vnodeClose_pipes]
  by_cases h : j = i
  · subst h
    simp [Kernel.setPipe, pipeCreate, pipeReadClose, pipeWriteClose, vacant, noReaders, noWriters]
  · simp [Kernel.setPipe, h]

theorem FdMove.counted {k k' : Kernel} (move : FdMove k k') (c : Counted k) : Counted k' := by
  cases move with
  | close p fd => exact c.close p fd
  | dup p fd q fd' e hp hfd free live used source node =>
    exact c.dup e hp hfd free live used source node
  | put p fd e hp hfd free plain => exact c.put e hp hfd free plain
  | seek p fd e used node => exact c.seek e used node
  | pipe i p r w e f vacant hp hr hw apart freeRead freeWrite live reading writing =>
    exact c.pipe e f vacant hp hr hw apart freeRead freeWrite live reading writing
  | spoil i vacant => exact c.spoil vacant

abbrev FdMoves : Kernel → Kernel → Prop := Relation.ReflTransGen FdMove

theorem FdMoves.counted {k k' : Kernel} (moves : FdMoves k k') (c : Counted k) : Counted k' := by
  induction moves with
  | refl => exact c
  | tail _ move ih => exact move.counted ih

theorem processClose_lives (k : Kernel) (p fd : Nat) : SameLives k (processClose k p fd).1 := by
  unfold processClose
  simp only
  split
  · exact fun _ => ⟨rfl, rfl⟩
  · have := setFd_lives (vnodeClose k ((k.procs p).fds fd).node) p fd
      { (k.procs p).fds fd with used := false, node := none, offset := 0#64 }
    simpa only [SameLives, vnodeClose_procs] using this

/-- The calls below are made for a live process. -/
structure Kernel.Live (k : Kernel) (p : Nat) : Prop where
  bound : p < maxProcesses
  pid : (k.procs p).pid ≠ 0
  awake : (k.procs p).isZombie = false

theorem Kernel.Live.keep {k k' : Kernel} {p : Nat} (live : k.Live p) (same : SameLives k k') :
    k'.Live p :=
  ⟨live.bound, by rw [(same p).1]; exact live.pid, by rw [(same p).2]; exact live.awake⟩

theorem processDup2_moves {k : Kernel} {p : Nat} (live : k.Live p) (oldfd newfd : Nat) :
    FdMoves k (processDup2 k p oldfd newfd).1 := by
  unfold processDup2
  split
  · exact .refl
  rename_i held
  rw [not_or, Bool.not_eq_false] at held
  split
  · exact .refl
  rename_i low
  split
  · exact .refl
  rename_i apart
  simp only
  set k₁ := if ((k.procs p).fds newfd).used then (processClose k p newfd).1 else k with hk₁
  have emptied : FdMoves k k₁ ∧ SameLives k k₁ ∧ ((k₁.procs p).fds newfd).used = false ∧
      (k₁.procs p).fds oldfd = (k.procs p).fds oldfd := by
    rw [hk₁]
    split
    · rename_i used
      refine ⟨.single (.close p newfd), processClose_lives k p newfd, ?_, ?_⟩
      · unfold processClose
        have open' : ¬ (newfd ≥ maxFds ∨ ((k.procs p).fds newfd).used = false) := by
          rw [used]
          simp only [Bool.true_eq_false, or_false]
          exact low
        simp only [open', if_false]
        rw [setFd_fds, if_pos ⟨rfl, rfl⟩]
      · rcases processClose_fds k p newfd p oldfd with h | ⟨-, h, -⟩
        · exact h
        · exact absurd h apart
    · rename_i unused
      exact ⟨.refl, fun _ => ⟨rfl, rfl⟩, by simpa using unused, rfl⟩
  obtain ⟨moves, lives, free, kept⟩ := emptied
  have live' := live.keep lives
  refine moves.tail ?_
  exact FdMove.dup p newfd p oldfd _ live.bound (by omega) free ⟨live'.pid, live'.awake⟩ rfl
    (by rw [kept]; exact held.2) rfl

theorem processPipe_moves {k : Kernel} {p : Nat} (live : k.Live p) : FdMoves k (processPipe k p).1 := by
  unfold processPipe
  split
  · exact .refl
  · rename_i i found
    have vacant : (k.pipes i).inUse = false := by simpa using List.find?_some found
    have same : ∀ start, findFreeFd (k.setPipe i pipeCreate) p start = findFreeFd k p start :=
      fun _ => rfl
    simp only [same]
    cases first : findFreeFd k p 3 with
    | none => exact .single (.spoil i vacant)
    | some r =>
      cases second : findFreeFd k p (r + 1) with
      | none =>
        simp only [Option.bind_some, second, Option.map_none]
        exact .single (.spoil i vacant)
      | some w =>
        obtain ⟨-, hr, freeRead⟩ := findFreeFd_some first
        obtain ⟨gap, hw, freeWrite⟩ := findFreeFd_some second
        simp only [Option.bind_some, second, Option.map_some]
        exact .single (.pipe i p r w _ _ vacant live.bound hr hw (by omega) freeRead freeWrite
          ⟨live.pid, live.awake⟩ ⟨rfl, rfl⟩ ⟨rfl, rfl⟩)

theorem processOpen_moves {σ : Type} (tree : FileTree σ) {k : Kernel} {p : Nat} (live : k.Live p)
    (files : σ) (path : List Char) (flags : Nat) :
    FdMoves k (processOpen tree k files p path flags).1 := by
  rcases processOpen_cases tree k files p path flags with
    ⟨same, -⟩ | ⟨node, fd, start, -, free, kernel, -⟩
  · rw [same]
  · obtain ⟨-, hfd, unused⟩ := findFreeFd_some free
    rw [kernel]
    refine .single (.put p fd _ live.bound hfd unused fun _ => ⟨⟨live.pid, live.awake⟩, ?_⟩)
    rintro v ⟨⟩
    exact id

theorem cloneFd_move {k : Kernel} {dst : Nat} (live : k.Live dst) (src : Nat) {fd : Nat}
    (hfd : fd < maxFds) (free : ((k.procs dst).fds fd).used = false) :
    FdMove k (cloneFd dst src k fd) := by
  unfold cloneFd
  simp only
  split
  · rename_i used
    exact .dup dst fd src fd _ live.bound hfd free ⟨live.pid, live.awake⟩ used used rfl
  · rename_i unused
    exact .put dst fd _ live.bound hfd free fun used => absurd used unused

theorem cloneFd_lives (dst src : Nat) (k : Kernel) (fd : Nat) : SameLives k (cloneFd dst src k fd) := by
  unfold cloneFd
  simp only
  have := setFd_lives k dst fd ((k.procs src).fds fd)
  split
  · simpa only [SameLives, vnodeDup_procs] using this
  · exact this

theorem cloneFds_moves {k : Kernel} {dst src : Nat} (live : k.Live dst)
    (free : ∀ fd, ((k.procs dst).fds fd).used = false) :
    FdMoves k ((List.range maxFds).foldl (cloneFd dst src) k) := by
  have loop := Run.range_rule
    (fun n k' => FdMoves k k' ∧ SameLives k k' ∧ ∀ fd, n ≤ fd → ((k'.procs dst).fds fd).used = false)
    (cloneFd dst src) maxFds k ⟨.refl, fun _ => ⟨rfl, rfl⟩, fun fd _ => free fd⟩ ?_
  · exact loop.1
  · rintro n hn k' ⟨moves, lives, rest⟩
    refine ⟨moves.tail (cloneFd_move (live.keep lives) src hn (rest n le_rfl)), ?_, ?_⟩
    · intro q
      have := cloneFd_lives dst src k' n q
      rw [this.1, this.2]
      exact lives q
    · intro fd hfd
      have : ¬ (dst = dst ∧ fd = n) := by omega
      rw [cloneFd_fds, if_neg this]
      exact rest fd (by omega)

/-- The loop of `process_terminate` over the descriptors. -/
def closeAll (k : Kernel) (p : Nat) : Kernel :=
  (List.range maxFds).foldl (fun k fd => (processClose k p fd).1) k

theorem closeAll_moves (k : Kernel) (p : Nat) : FdMoves k (closeAll k p) :=
  Run.foldl_rule (FdMoves k) _ _ k .refl fun fd _ _ moves => moves.tail (.close p fd)

theorem closeAll_lives (k : Kernel) (p : Nat) : SameLives k (closeAll k p) := by
  refine Run.foldl_rule (SameLives k) _ _ k (fun _ => ⟨rfl, rfl⟩) fun fd _ k' lives q => ?_
  have := processClose_lives k' p fd q
  rw [this.1, this.2]
  exact lives q

theorem closeAll_closed (k : Kernel) (p fd : Nat) (hfd : fd < maxFds) :
    (((closeAll k p).procs p).fds fd).used = false := by
  have loop := Run.range_rule
    (fun n k' => ∀ fd, fd < n → (((k' : Kernel).procs p).fds fd).used = false)
    (fun k fd => (processClose k p fd).1) maxFds k (fun _ h => absurd h (Nat.not_lt_zero _)) ?_
  · exact loop fd hfd
  · intro n hn k' rest fd' hfd'
    by_cases h : fd' = n
    · subst h
      unfold processClose
      simp only
      split
      · rename_i closed
        exact closed.resolve_left (by omega)
      · rw [setFd_fds, if_pos ⟨rfl, rfl⟩]
    · have old := rest fd' (by omega)
      by_contra used
      have same := processClose_fewer k' p n p fd' (by simpa using used)
      rw [same] at used
      exact used old

end Isunux
