import Isunux.NoLostWakeup

/-! What the invariant of the whole machine says about descriptors and tasks, in
every state of every run. -/
namespace Isunux

section Runs

variable {σ : Type} (tree : FileTree σ) (vm : Vm) (hhdm : Word) (files : σ) (events : List (Event σ))

theorem run_sound :
    (Run.run (worldStep tree) (bootWorld vm hhdm files) events).1.Sound :=
  Run.run_invariant (worldStep tree) World.Sound worldStep_sound _ events
    (bootWorld_sound vm hhdm files)

/-- How many used entries of the descriptor tables of occupied process slots have
this node. -/
def fdCount (k : Kernel) (v : Vnode) : Nat :=
  (slots.filter fun x => (k.procs x.1).pid ≠ 0 ∧ ((k.procs x.1).fds x.2).used = true ∧
    ((k.procs x.1).fds x.2).node = some v).card

theorem Counted.ends_eq {k : Kernel} (c : Counted k) (v : Vnode) : ends k.procs v = fdCount k v := by
  unfold ends fdCount
  rw [Finset.card_filter]
  refine Finset.sum_congr rfl fun x _ => ?_
  unfold FdEntry.refers
  by_cases used : ((k.procs x.1).fds x.2).used = true
  · have occupied : (k.procs x.1).pid ≠ 0 := by
      intro free
      rw [c.closed x.1 (.inl free) x.2] at used
      cases used
    simp [used, occupied]
  · simp [used]

theorem Counted.refcounts {k : Kernel} (c : Counted k) (i : Nat) :
    (k.pipes i).readRefcount = fdCount k (.pipeRead i) ∧
      (k.pipes i).writeRefcount = fdCount k (.pipeWrite i) := by
  constructor
  · rw [← c.ends_eq]
    exact c.counts (.pipeRead i) trivial
  · rw [← c.ends_eq]
    exact c.counts (.pipeWrite i) trivial

theorem fdCount_pos {k : Kernel} (c : Counted k) {v : Vnode} {p fd : Nat}
    (used : ((k.procs p).fds fd).used = true) (node : ((k.procs p).fds fd).node = some v) :
    0 < fdCount k v := by
  obtain ⟨hp, hfd⟩ := c.within p fd used
  refine Finset.card_pos.mpr ⟨(p, fd), Finset.mem_filter.mpr ⟨by simp [slots, hp, hfd], ?_, used, node⟩⟩
  intro free
  rw [c.closed p (.inl free) fd] at used
  cases used

/-- The two counters of every pipe slot are the numbers of open descriptors, the
slot is in use exactly while one of them is positive, and a slot that
`pipe_create` can take is one nobody refers to. -/
theorem pipe_refcounts_exact (i : Nat) :
    let k : Kernel := (Run.run (worldStep tree) (bootWorld vm hhdm files) events).1.kernel
    (k.pipes i).readRefcount = fdCount k (.pipeRead i) ∧
    (k.pipes i).writeRefcount = fdCount k (.pipeWrite i) ∧
    0 ≤ (k.pipes i).readRefcount ∧ 0 ≤ (k.pipes i).writeRefcount ∧
    ((k.pipes i).inUse = true ↔ 0 < (k.pipes i).readRefcount + (k.pipes i).writeRefcount) ∧
    ((k.pipes i).inUse = false → ∀ p fd, ((k.procs p).fds fd).used = true →
      ((k.procs p).fds fd).node ≠ some (.pipeRead i) ∧
        ((k.procs p).fds fd).node ≠ some (.pipeWrite i)) := by
  intro k
  have counted : Counted k := (run_sound tree vm hhdm files events).1.counted
  obtain ⟨readers, writers⟩ := counted.refcounts i
  have vacant : (k.pipes i).inUse = false ↔
      (k.pipes i).readRefcount = 0 ∧ (k.pipes i).writeRefcount = 0 := counted.inUse i
  refine ⟨readers, writers, by omega, by omega, ?_, fun free p fd used => ⟨fun node => ?_, fun node => ?_⟩⟩
  · rw [← Bool.not_eq_false, vacant]
    omega
  · have := fdCount_pos counted used node
    have := (vacant.mp free).1
    omega
  · have := fdCount_pos counted used node
    have := (vacant.mp free).2
    omega

end Runs

end Isunux
