import Isunux.Histories

/-! The history of a run, and that `process_waitpid` tells each child's parent the
truth about it once. -/
namespace Isunux

section History

variable {σ : Type} (tree : FileTree σ)

structure Story (σ : Type) where
  world : World σ
  notes : List Note

/-- A step of the machine, written down. -/
def storyStep (s : Story σ) (e : Event σ) : Story σ × Answer :=
  let r := worldStep tree s.world e
  (⟨r.1, s.notes ++ eventNotes s.world e ++ answerNotes s.world e r.2⟩, r.2)

def bootStory (vm : Vm) (hhdm : Word) (files : σ) : Story σ := ⟨bootWorld vm hhdm files, []⟩

end History

/-- The table and the history agree about every process. -/
structure Tells (k : Kernel) (notes : List Note) : Prop where
  known : ∀ p, (k.procs p).pid ≠ 0 → lifeOf (k.procs p).pid notes = (k.procs p).life ∧
    .born (k.procs p).parentPid (k.procs p).pid ∈ notes ∧
    ((k.procs p).isStopped = true → (k.procs p).stopSignal = sigtstp)
  past : ∀ x ∈ notes, x.pid < k.nextPid
  truthful : Truthful notes

section Tells

variable {k k' : Kernel} {notes : List Note}

theorem Tells.unheard (t : Tells k notes) (u : Unheard k k') : Tells k' notes := by
  refine ⟨fun p => ?_, by rw [u.nextPid]; exact t.past, t.truthful⟩
  obtain ⟨pid, parent, stopped, signal, life⟩ := Process.status_eq (u.procs p)
  rw [pid, parent, stopped, signal, life]
  exact t.known p

theorem Tells.noted (t : Tells k notes) {p : Nat} {x : Note} (one : Noted k k' p x) :
    Tells k' (notes ++ [x]) := by
  obtain ⟨was, born, signal⟩ := t.known p one.occupied
  have legal : Legal notes x := by
    have said := one.said
    have about := one.about
    cases x with
    | waited parent target pid status =>
      obtain ⟨whose, matching, told⟩ := said
      obtain rfl : pid = (k.procs p).pid := about
      refine ⟨whose ▸ born, matching, ?_⟩
      rcases told with dead | ⟨stop, stopped, rfl⟩
      · exact .inl (was.trans dead)
      · exact .inr ⟨was.trans stop, by rw [signal stopped]⟩
    | _ => trivial
  refine ⟨fun q pid => ?_, ?_, t.truthful.snoc legal⟩
  · by_cases h : q = p
    · subst h
      obtain ⟨same, parent, life, signal'⟩ := one.now pid
      rw [same, parent, lifeOf_snoc, if_pos one.about, was, life]
      refine ⟨rfl, List.mem_append_left _ born, fun stopped => ?_⟩
      rcases signal' stopped with new | ⟨before, same⟩
      · exact new
      · rw [same, signal before]
    · obtain ⟨pid', parent, stopped, signal', life⟩ := Process.status_eq (one.others q h)
      rw [pid'] at pid ⊢
      obtain ⟨was', born', known⟩ := t.known q pid
      have apart : ¬ x.pid = (k.procs q).pid := fun same => h (one.alone q (same.symm.trans one.about))
      rw [parent, stopped, signal', lifeOf_snoc, if_neg apart, was', life]
      exact ⟨rfl, List.mem_append_left _ born', known⟩
  · intro y hy
    rw [one.nextPid]
    rcases List.mem_append.mp hy with hy | hy
    · exact t.past y hy
    · obtain rfl : y = x := by simpa using hy
      rw [one.about]
      exact one.old

theorem Tells.born (t : Tells k notes) {parent : Int} {i : Nat} (slot : (processAlloc k parent).2 = some i) :
    Tells (processAlloc k parent).1 (notes ++ [.born parent k.nextPid]) := by
  obtain ⟨-, -, eq⟩ := processAlloc_eq slot
  rw [eq]
  refine ⟨fun p pid => ?_, ?_, t.truthful.snoc trivial⟩
  · by_cases h : p = i
    · subst h
      have fresh : lifeOf k.nextPid notes = .alive :=
        lifeOf_absent fun x hx => (t.past x hx).ne
      simp [lifeOf_snoc, Note.pid, fresh, Life.on, Process.life, Process.zero]
    · simp only [Function.update_of_ne h] at pid ⊢
      obtain ⟨was, born, known⟩ := t.known p pid
      have older : ¬ (Note.born parent k.nextPid).pid = (k.procs p).pid := by
        intro same
        have := t.past _ born
        simp only [Note.pid] at same this
        omega
      rw [lifeOf_snoc, if_neg older]
      exact ⟨was, List.mem_append_left _ born, known⟩
  · intro y hy
    rcases List.mem_append.mp hy with hy | hy
    · have := t.past y hy
      simp only
      omega
    · obtain rfl : y = _ := by simpa using hy
      simp [Note.pid]

/-- Whatever happens to the table is in the history. -/
theorem Tells.moves {xs : List Note} (m : Moves k k' xs) (t : Tells k notes) : Tells k' (notes ++ xs) := by
  induction m generalizing notes with
  | unheard same => simpa using t.unheard same
  | noted one => exact t.noted one
  | born slot whose => exact t.born slot
  | trans first second ih ih' => simpa using ih' (ih t)

/-- `process_waitpid` gives up exactly when it has no child to wait for. -/
theorem processWaitpid_noChild (k : Kernel) (self : Nat) (target : Int) :
    (processWaitpid k self target).2 = .noChild ↔
      ∀ i, i < maxProcesses → (k.procs self).isChild target (k.procs i) = false := by
  unfold processWaitpid
  rcases waitScan_cases k self target (List.range maxProcesses) false with
    ⟨i, hi, child, -, eq⟩ | ⟨i, hi, child, -, -, -, eq⟩ | ⟨eq, -⟩
  · rw [eq]
    simp only [reduceCtorEq, false_iff, not_forall]
    exact ⟨i, List.mem_range.mp hi, by simp [child]⟩
  · rw [eq]
    simp only [reduceCtorEq, false_iff, not_forall]
    exact ⟨i, List.mem_range.mp hi, by simp [child]⟩
  · rw [eq]
    simp only [Bool.false_or]
    split
    · rename_i any
      obtain ⟨i, hi, child⟩ := List.any_eq_true.mp any
      simp only [reduceCtorEq, false_iff, not_forall]
      exact ⟨i, List.mem_range.mp hi, by simp [child]⟩
    · rename_i none
      simp only [true_iff]
      intro i hi
      by_contra child
      exact none (List.any_eq_true.mpr ⟨i, List.mem_range.mpr hi, by simpa using child⟩)

end Tells

section Events

variable {σ : Type} (tree : FileTree σ)

theorem bootStory_tells (vm : Vm) (hhdm : Word) : Tells (bootKernel vm hhdm) [] :=
  ⟨fun _ pid => absurd rfl pid, by simp, fun before x h => by simp at h⟩

theorem story_tells (vm : Vm) (hhdm : Word) (files : σ) (events : List (Event σ)) :
    let s := (Run.run (storyStep tree) (bootStory vm hhdm files) events).1
    s.world.Sound ∧ Tells s.world.kernel s.notes := by
  refine Run.run_invariant (storyStep tree) (fun s => s.world.Sound ∧ Tells s.world.kernel s.notes) ?_ _
    events ⟨bootWorld_sound vm hhdm files, bootStory_tells vm hhdm⟩
  rintro s e ⟨sound, tells⟩
  refine ⟨worldStep_sound s.world e sound, ?_⟩
  simpa [storyStep] using Tells.moves (event_moves tree sound e) tells

theorem waiter_answer (w : World σ) {e : Event σ} {self : Nat} {target : Int}
    (who : waiter w e = some (self, target)) :
    (worldStep tree w e).2 = .returns (-echild) ↔
      (processWaitpid w.kernel self target).2 = .noChild := by
  have step : (worldStep tree w e).2 = (runCall w (.waitpid self target)).2 := by
    cases e with
    | syscall c =>
      cases c with
      | waitpid target' =>
        simp only [waiter] at who
        split at who
        · rename_i p current running idle
          cases who
          simp [worldStep, event, syscall, current, running, idle]
        · cases who
      | _ => cases who
    | resume =>
      simp only [waiter] at who
      split at who
      · rename_i self' target' running call
        cases who
        simp [worldStep, event, running, call]
      · cases who
    | _ => cases who
  rw [step]
  simp only [runCall]
  split
  · rename_i h
    simp [h]
  · rename_i h
    simp [h]
  · rename_i h
    simp [h]

/-- In the history of every run, what `process_waitpid` answers to a parent about a
child is either its end, with the status of the first fatal event, after which the
child is never answered again, or a stop that was neither told before nor continued
nor followed by the end. And it says there is no child exactly when there is none. -/
theorem child_status_once_and_true (vm : Vm) (hhdm : Word) (files : σ) (events : List (Event σ)) :
    let s := (Run.run (storyStep tree) (bootStory vm hhdm files) events).1
    (∀ before after parent target pid status,
      s.notes = before ++ .waited parent target pid status :: after →
      .born parent pid ∈ before ∧ (target = -1 ∨ pid = target) ∧
      ((before.find? (·.isFatal pid) = some (.fatal pid status) ∧
          ∀ x ∈ after, x.isWaited pid = false) ∨
        (status = encodeStopped sigtstp ∧ (∀ x ∈ before, x.isFatal pid = false) ∧
          ∃ earlier since, before = earlier ++ .suspend pid :: since ∧
            (∀ a b, earlier = a ++ .suspend pid :: b → .resume pid ∈ b) ∧
            .resume pid ∉ since ∧ ∀ x ∈ since, x.isWaited pid = false))) ∧
    ∀ e self target, waiter s.world e = some (self, target) →
      ((worldStep tree s.world e).2 = .returns (-echild) ↔
        ¬ ∃ i, i < maxProcesses ∧ (s.world.kernel.procs i).pid ≠ 0 ∧
          (s.world.kernel.procs i).parentPid = (s.world.kernel.procs self).pid ∧
          (target = -1 ∨ (s.world.kernel.procs i).pid = target)) := by
  intro s
  obtain ⟨-, tells⟩ := story_tells tree vm hhdm files events
  constructor
  · intro before after parent target pid status eq
    have truthful : Truthful (before ++ .waited parent target pid status :: after) := eq ▸ tells.truthful
    obtain ⟨born, matching, life⟩ := truthful before (.waited parent target pid status) (by simp)
    refine ⟨born, matching, ?_⟩
    have explained := lifeOf_explained pid before
    rcases life with dead | ⟨stopped, rfl⟩
    · rw [dead] at explained
      exact .inl ⟨explained, truthful.last_word dead⟩
    · rw [stopped] at explained
      obtain ⟨alive, earlier, since, split, first, on, untold⟩ := explained
      exact .inr ⟨rfl, alive, earlier, since, split, first, on, untold rfl⟩
  · intro e self target who
    rw [waiter_answer tree s.world who, processWaitpid_noChild]
    simp only [← Bool.not_eq_true, Process.isChild_iff]
    push Not
    rfl

end Events

end Isunux
