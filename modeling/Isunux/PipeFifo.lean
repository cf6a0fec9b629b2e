import Isunux.Pipe

/-! Any number of tasks on one pipe. A task is outside, asleep in `pipe_read`, or
asleep in `pipe_write` with some bytes behind it; it may continue at any time. -/
namespace Isunux

/-- Where a task is in its call. Each call of `pipe_write` has a number of its own. -/
inductive PipeCall where
  | outside
  | reading (count : Word)
  | writing (id : Nat) (src : Nat → BitVec 8) (count : Word) (n : Nat)

/-- The last three fields record history: the bytes put into the pipe with the
call that put them, the bytes given to readers, and the calls of `pipe_write`
that returned, with their buffer and value. -/
structure PipeSystem where
  pipe : Pipe
  calls : Nat → PipeCall
  nextId : Nat
  inserted : List (Nat × BitVec 8)
  handed : List (BitVec 8)
  returned : List (Nat × (Nat → BitVec 8) × Int)

inductive PipeEvent where
  | read (task : Nat) (count : Word)
  | write (task : Nat) (src : Nat → BitVec 8) (count : Word)
  | resume (task : Nat)
  | readDup
  | readClose
  | writeDup
  | writeClose

inductive PipeAnswer where
  | silent
  | readReturned (count : Word) (data : List (BitVec 8)) (ret : Int)
  | writeReturned (ret : Int)

/-- Run a segment of `pipe_read` in a task. -/
def PipeSystem.runRead (s : PipeSystem) (task : Nat) (count : Word) : PipeSystem × PipeAnswer :=
  let r := pipeRead s.pipe count.toNat
  match r.result with
  | none =>
    ({ s with pipe := r.pipe, calls := Function.update s.calls task (.reading count) }, .silent)
  | some data =>
    ({ s with
        pipe := r.pipe
        calls := Function.update s.calls task .outside
        handed := s.handed ++ data }, .readReturned count data (toLong data.length))

/-- Run a segment of `pipe_write` in a task. -/
def PipeSystem.runWrite (s : PipeSystem) (task id : Nat) (src : Nat → BitVec 8) (count : Word)
    (n : Nat) : PipeSystem × PipeAnswer :=
  let w := pipeWrite s.pipe src count.toNat n
  let inserted := s.inserted ++ (List.range' n (w.n - n)).map fun i => (id, src i)
  match w.result with
  | none =>
    ({ s with
        pipe := w.pipe
        calls := Function.update s.calls task (.writing id src count w.n)
        inserted := inserted }, .silent)
  | some ret =>
    ({ s with
        pipe := w.pipe
        calls := Function.update s.calls task .outside
        inserted := inserted
        returned := s.returned ++ [(id, src, ret)] }, .writeReturned ret)

def pipeStep (s : PipeSystem) : PipeEvent → PipeSystem × PipeAnswer
  | .read task count =>
    match s.calls task with
    | .outside => s.runRead task count
    | _ => (s, .silent)
  | .write task src count =>
    match s.calls task with
    | .outside => PipeSystem.runWrite { s with nextId := s.nextId + 1 } task s.nextId src count 0
    | _ => (s, .silent)
  | .resume task =>
    match s.calls task with
    | .outside => (s, .silent)
    | .reading count => s.runRead task count
    | .writing id src count n => s.runWrite task id src count n
  | .readDup => ({ s with pipe := pipeReadDup s.pipe }, .silent)
  | .readClose => ({ s with pipe := (pipeReadClose s.pipe).1 }, .silent)
  | .writeDup => ({ s with pipe := pipeWriteDup s.pipe }, .silent)
  | .writeClose => ({ s with pipe := (pipeWriteClose s.pipe).1 }, .silent)

def PipeSystem.start : PipeSystem := ⟨pipeCreate, fun _ => .outside, 0, [], [], []⟩

/-- The bytes one call has put into the pipe. -/
def PipeSystem.by (s : PipeSystem) (id : Nat) : List (BitVec 8) :=
  (s.inserted.filter fun e => e.1 == id).map Prod.snd

structure PipeInv (s : PipeSystem) : Prop where
  fits : s.pipe.Fits
  fifo : s.handed ++ s.pipe.buffered = s.inserted.map Prod.snd
  running : ∀ t id src count n, s.calls t = .writing id src count n →
    id < s.nextId ∧ n ≤ count.toNat ∧ s.by id = (List.range n).map src
  sole : ∀ t t' id src count n src' count' n', s.calls t = .writing id src count n →
    s.calls t' = .writing id src' count' n' → t = t'
  finished : ∀ id src ret, (id, src, ret) ∈ s.returned →
    id < s.nextId ∧ (0 ≤ ret → s.by id = (List.range ret.toNat).map src) ∧
      ∀ t src' count n, s.calls t ≠ .writing id src' count n
  fresh : ∀ id, s.nextId ≤ id → s.by id = []

theorem toLong_nonneg {n : Nat} (small : n < 2 ^ 64) (h : 0 ≤ toLong n) : (toLong n).toNat = n := by
  unfold toLong at h ⊢
  rw [BitVec.toInt_eq_toNat_cond] at h ⊢
  rw [BitVec.toNat_ofNat, Nat.mod_eq_of_lt small] at h ⊢
  split at h
  · rename_i low
    rw [if_pos low]
    simp
  · omega

theorem pipeWrite_spec (p : Pipe) (src : Nat → BitVec 8) {count n : Nat} (fits : p.Fits)
    (started : n ≤ count) :
    (pipeWrite p src count n).pipe.Fits ∧ n ≤ (pipeWrite p src count n).n ∧
      (pipeWrite p src count n).n ≤ count ∧
      (pipeWrite p src count n).pipe.buffered =
        p.buffered ++ (List.range' n ((pipeWrite p src count n).n - n)).map src ∧
      ∀ ret, (pipeWrite p src count n).result = some ret →
        ret = toLong (pipeWrite p src count n).n ∨ ret = -1 := by
  obtain ⟨fits', lo, hi, ring, -⟩ := pipeFill_spec src (count - n) n p fits
  unfold pipeWrite
  split <;> rename_i q m h <;> rw [h] at fits' lo hi ring
  · exact ⟨fits', lo, by simp only at hi ⊢; omega, ring, by rintro _ ⟨⟩; exact .inl rfl⟩
  · refine ⟨fits', lo, by simp only at hi ⊢; omega, ring, ?_⟩
    rintro _ ⟨⟩
    split
    · exact .inl rfl
    · exact .inr rfl
  · exact ⟨fits', lo, by simp only at hi ⊢; omega, ring, by rintro _ ⟨⟩⟩

theorem by_append (s : PipeSystem) (id id' : Nat) (src : Nat → BitVec 8) (is : List Nat) :
    ((s.inserted ++ is.map fun i => (id, src i)).filter fun e => e.1 == id').map Prod.snd =
      s.by id' ++ if id = id' then is.map src else [] := by
  rw [List.filter_append, List.map_append]
  congr 1
  by_cases same : id = id'
  · subst same
    rw [if_pos rfl, List.filter_eq_self.mpr (by simp), List.map_map]
    rfl
  · rw [if_neg same, List.filter_eq_nil_iff.mpr (by simp [same])]
    rfl

theorem PipeInv.runRead {s : PipeSystem} (inv : PipeInv s) (task : Nat) (count : Word) :
    PipeInv (s.runRead task count).1 := by
  -- a reader's own place in its call is no place in `pipe_write`
  have calls : ∀ c : PipeCall, (∀ id src k n, c ≠ .writing id src k n) → ∀ t id src k n,
      Function.update s.calls task c t = .writing id src k n → s.calls t = .writing id src k n := by
    intro c plain t id src k n h
    by_cases ht : t = task
    · subst ht
      rw [Function.update_self] at h
      exact False.elim (plain id src k n h)
    · rwa [Function.update_of_ne ht] at h
  have keep : ∀ (c : PipeCall), (∀ id src k n, c ≠ .writing id src k n) → ∀ (p : Pipe)
      (handed : List (BitVec 8)), p.Fits → handed ++ p.buffered = s.inserted.map Prod.snd →
      PipeInv { s with pipe := p, calls := Function.update s.calls task c, handed := handed } := by
    intro c plain p handed fits fifo
    refine ⟨fits, fifo, ?_, ?_, ?_, inv.fresh⟩
    · exact fun t id src k n h => inv.running t id src k n (calls c plain t id src k n h)
    · intro t t' id src k n src' k' n' h h'
      exact inv.sole t t' id src k n src' k' n' (calls c plain _ _ _ _ _ h) (calls c plain _ _ _ _ _ h')
    · intro id src ret h
      obtain ⟨old, value, gone⟩ := inv.finished id src ret h
      exact ⟨old, value, fun t src' k n h => gone t src' k n (calls c plain _ _ _ _ _ h)⟩
  by_cases empty : s.pipe.count = 0
  · by_cases eof : s.pipe.writeRefcount = 0
    · have h := keep .outside (by simp) s.pipe (s.handed ++ []) inv.fits
        (by rw [List.append_nil]; exact inv.fifo)
      simpa [PipeSystem.runRead, pipeRead, empty, eof] using h
    · have h := keep (.reading count) (by simp) s.pipe s.handed inv.fits inv.fifo
      simpa [PipeSystem.runRead, pipeRead, empty, eof] using h
  · obtain ⟨fits, ring, -⟩ := pipeDrain_spec count.toNat s.pipe inv.fits
    have h := keep .outside (by simp) (pipeDrain count.toNat s.pipe).1
      (s.handed ++ (pipeDrain count.toNat s.pipe).2) fits
      (by rw [List.append_assoc, ← ring]; exact inv.fifo)
    simpa [PipeSystem.runRead, pipeRead, empty] using h

theorem PipeInv.runWrite {s : PipeSystem} (inv : PipeInv s) (task id : Nat) (src : Nat → BitVec 8)
    (count : Word) (n : Nat) (started : n ≤ count.toNat) (known : id < s.nextId)
    (mine : s.by id = (List.range n).map src)
    (alone : ∀ t src' k m, s.calls t = .writing id src' k m → t = task)
    (open' : ∀ src' ret, (id, src', ret) ∉ s.returned) :
    PipeInv (s.runWrite task id src count n).1 := by
  obtain ⟨fits, lo, hi, ring, value⟩ := pipeWrite_spec s.pipe src inv.fits started
  set w := pipeWrite s.pipe src count.toNat n with hw
  set ins := s.inserted ++ (List.range' n (w.n - n)).map fun i => (id, src i) with hins
  have fifo : s.handed ++ w.pipe.buffered = ins.map Prod.snd := by
    rw [ring, ← List.append_assoc, inv.fifo, hins, List.map_append, List.map_map]
    rfl
  have tagged : ∀ id', (ins.filter fun e => e.1 == id').map Prod.snd =
      s.by id' ++ if id = id' then (List.range' n (w.n - n)).map src else [] :=
    fun id' => by_append s id id' src _
  have whole : (ins.filter fun e => e.1 == id).map Prod.snd = (List.range w.n).map src := by
    have pieces := List.range'_append_1 (s := 0) (m := n) (n := w.n - n)
    rw [Nat.zero_add, Nat.add_sub_cancel' lo] at pieces
    rw [tagged, if_pos rfl, mine, ← List.map_append, List.range_eq_range', List.range_eq_range', pieces]
  have elsewhere : ∀ id', id' ≠ id → (ins.filter fun e => e.1 == id').map Prod.snd = s.by id' := by
    intro id' hne
    rw [tagged, if_neg (Ne.symm hne), List.append_nil]
  have fresh : ∀ id', s.nextId ≤ id' → (ins.filter fun e => e.1 == id').map Prod.snd = [] := by
    intro id' h
    rw [elsewhere id' (by omega)]
    exact inv.fresh id' h
  have oldReturned : ∀ id' src' ret, (id', src', ret) ∈ s.returned → id' ≠ id := by
    rintro id' src' ret h rfl
    exact open' src' ret h
  -- after the segment: the other tasks where they were, this one where `c` says
  have others : ∀ (c : PipeCall) t id' src' k m, t ≠ task →
      Function.update s.calls task c t = .writing id' src' k m → id' ≠ id := by
    rintro c t id' src' k m ht h rfl
    simp only [Function.update_of_ne ht] at h
    exact ht (alone t src' k m h)
  unfold PipeSystem.runWrite
  simp only [← hw, ← hins]
  split
  · rename_i asleep
    refine ⟨fits, fifo, ?_, ?_, ?_, fresh⟩
    · intro t id' src' k m h
      by_cases ht : t = task
      · subst ht
        simp only [Function.update_self] at h
        cases h
        exact ⟨known, hi, whole⟩
      · have hne := others _ t id' src' k m ht h
        simp only [Function.update_of_ne ht] at h
        obtain ⟨old, le, bytes⟩ := inv.running t id' src' k m h
        exact ⟨old, le, (elsewhere id' hne).trans bytes⟩
    · intro t t' id' src₁ k₁ m₁ src₂ k₂ m₂ h₁ h₂
      by_cases ht : t = task
      · by_cases ht' : t' = task
        · rw [ht, ht']
        · subst ht
          have hne := others _ t' id' src₂ k₂ m₂ ht' h₂
          simp only [Function.update_self] at h₁
          cases h₁
          exact False.elim (hne rfl)
      · by_cases ht' : t' = task
        · subst ht'
          have hne := others _ t id' src₁ k₁ m₁ ht h₁
          simp only [Function.update_self] at h₂
          cases h₂
          exact False.elim (hne rfl)
        · simp only [Function.update_of_ne ht] at h₁
          simp only [Function.update_of_ne ht'] at h₂
          exact inv.sole t t' id' src₁ k₁ m₁ src₂ k₂ m₂ h₁ h₂
    · intro id' src' ret h
      have hne := oldReturned id' src' ret h
      obtain ⟨old, value, gone⟩ := inv.finished id' src' ret h
      refine ⟨old, fun pos => (elsewhere id' hne).trans (value pos), ?_⟩
      intro t src'' k m h'
      by_cases ht : t = task
      · subst ht
        simp only [Function.update_self] at h'
        cases h'
        exact hne rfl
      · simp only [Function.update_of_ne ht] at h'
        exact gone t src'' k m h'
  · rename_i ret result
    have left : ∀ t id' src' k m, Function.update s.calls task .outside t = .writing id' src' k m →
        t ≠ task ∧ s.calls t = .writing id' src' k m := by
      intro t id' src' k m h
      by_cases ht : t = task
      · subst ht
        simp only [Function.update_self] at h
        cases h
      · simp only [Function.update_of_ne ht] at h
        exact ⟨ht, h⟩
    refine ⟨fits, fifo, ?_, ?_, ?_, fresh⟩
    · intro t id' src' k m h
      obtain ⟨ht, hold⟩ := left t id' src' k m h
      obtain ⟨old, le, bytes⟩ := inv.running t id' src' k m hold
      exact ⟨old, le, (elsewhere id' (others _ t id' src' k m ht h)).trans bytes⟩
    · intro t t' id' src₁ k₁ m₁ src₂ k₂ m₂ h₁ h₂
      exact inv.sole t t' id' src₁ k₁ m₁ src₂ k₂ m₂ (left _ _ _ _ _ h₁).2 (left _ _ _ _ _ h₂).2
    · intro id' src' ret' h
      rcases List.mem_append.mp h with h | h
      · obtain ⟨old, value, gone⟩ := inv.finished id' src' ret' h
        exact ⟨old, fun pos => (elsewhere id' (oldReturned id' src' ret' h)).trans (value pos),
          fun t src'' k m h' => gone t src'' k m (left _ _ _ _ _ h').2⟩
      · rw [List.mem_singleton] at h
        cases h
        refine ⟨known, ?_, ?_⟩
        · intro pos
          rcases value ret result with rfl | rfl
          · rw [toLong_nonneg (Nat.lt_of_le_of_lt hi count.isLt) pos]
            exact whole
          · omega
        · intro t src'' k m h'
          obtain ⟨ht, hold⟩ := left _ _ _ _ _ h'
          exact ht (alone t src'' k m hold)

theorem PipeInv.start : PipeInv PipeSystem.start := by
  refine ⟨⟨by decide, by decide⟩, rfl, ?_, ?_, ?_, fun _ _ => rfl⟩
  · intro t id src count n h
    cases h
  · intro t t' id src count n src' count' n' h
    cases h
  · intro id src ret h
    cases h

/-- Reference counts do not enter the invariant. -/
theorem PipeInv.recount {s : PipeSystem} (inv : PipeInv s) {p : Pipe} (buf : p.buf = s.pipe.buf)
    (head : p.head = s.pipe.head) (count : p.count = s.pipe.count) :
    PipeInv { s with pipe := p } := by
  refine ⟨⟨?_, ?_⟩, ?_, inv.running, inv.sole, inv.finished, inv.fresh⟩
  · rw [head]; exact inv.fits.head_lt
  · rw [count]; exact inv.fits.count_le
  · rw [Pipe.buffered, buf, head, count]; exact inv.fifo

theorem pipeStep_inv (s : PipeSystem) (e : PipeEvent) (inv : PipeInv s) : PipeInv (pipeStep s e).1 := by
  cases e with
  | read task count =>
    simp only [pipeStep]
    split
    · exact inv.runRead task count
    · exact inv
  | write task src count =>
    simp only [pipeStep]
    split
    · -- a new call: nothing was ever entered under its number
      have next : PipeInv { s with nextId := s.nextId + 1 } :=
        ⟨inv.fits, inv.fifo,
          fun t id src count n h =>
            let ⟨old, rest⟩ := inv.running t id src count n h; ⟨Nat.lt_succ_of_lt old, rest⟩,
          inv.sole,
          fun id src ret h =>
            let ⟨old, rest⟩ := inv.finished id src ret h; ⟨Nat.lt_succ_of_lt old, rest⟩,
          fun id h => inv.fresh id (Nat.le_of_succ_le h)⟩
      refine next.runWrite task s.nextId src count 0 (Nat.zero_le _) (Nat.lt_succ_self _) ?_ ?_ ?_
      · exact inv.fresh s.nextId le_rfl
      · intro t src' k m h
        exact False.elim (Nat.lt_irrefl _ (inv.running t _ src' k m h).1)
      · intro src' ret h
        exact Nat.lt_irrefl _ (inv.finished _ src' ret h).1
    · exact inv
  | resume task =>
    simp only [pipeStep]
    split
    · exact inv
    · exact inv.runRead task _
    · rename_i id src count n here
      obtain ⟨known, le, mine⟩ := inv.running task id src count n here
      refine inv.runWrite task id src count n le known mine ?_ ?_
      · intro t src' k m h
        exact inv.sole t task id _ _ _ _ _ _ h here
      · intro src' ret h
        exact (inv.finished id src' ret h).2.2 task src count n here
  | readDup => exact inv.recount rfl rfl rfl
  | readClose => exact inv.recount rfl rfl rfl
  | writeDup => exact inv.recount rfl rfl rfl
  | writeClose => exact inv.recount rfl rfl rfl

theorem toLong_small {n : Nat} (h : n < 2 ^ 63) : toLong n = n := by
  unfold toLong
  rw [BitVec.toInt_eq_toNat_cond, BitVec.toNat_ofNat, Nat.mod_eq_of_lt (by omega), if_pos (by omega)]

theorem PipeInv.read_zero {s : PipeSystem} (inv : PipeInv s) (task : Nat) (k count : Word)
    (data : List (BitVec 8)) (nonzero : count ≠ 0#64)
    (h : (s.runRead task k).2 = .readReturned count data 0) :
    (s.runRead task k).1.pipe.count = 0 ∧ (s.runRead task k).1.pipe.writeRefcount = 0 := by
  by_cases empty : s.pipe.count = 0
  · by_cases eof : s.pipe.writeRefcount = 0
    · simp [PipeSystem.runRead, pipeRead, empty, eof]
    · simp [PipeSystem.runRead, pipeRead, empty, eof] at h
  · obtain ⟨-, -, -, -, len⟩ := pipeDrain_spec k.toNat s.pipe inv.fits
    simp only [PipeSystem.runRead, pipeRead, empty, if_false, PipeAnswer.readReturned.injEq] at h
    obtain ⟨rfl, -, zero⟩ := h
    have bound := inv.fits.count_le
    rw [len, toLong_small (by simp only [pipeBufSize] at bound; omega)] at zero
    have : k.toNat ≠ 0 := fun h => nonzero (BitVec.eq_of_toNat_eq h)
    omega

/-- FIFO integrity of a pipe under every interleaving. -/
theorem pipe_fifo_integrity (events : List PipeEvent) :
    let s := (Run.run pipeStep PipeSystem.start events).1
    s.handed ++ s.pipe.buffered = s.inserted.map Prod.snd ∧
      s.pipe.head < pipeBufSize ∧ s.pipe.count ≤ pipeBufSize ∧
      (∀ id src ret, (id, src, ret) ∈ s.returned → 0 ≤ ret →
        s.by id = (List.range ret.toNat).map src) ∧
      ∀ e count data, (pipeStep s e).2 = .readReturned count data 0 → count ≠ 0#64 →
        (pipeStep s e).1.pipe.count = 0 ∧ (pipeStep s e).1.pipe.writeRefcount = 0 := by
  intro s
  have inv : PipeInv s := Run.run_invariant pipeStep PipeInv pipeStep_inv _ events PipeInv.start
  refine ⟨inv.fifo, inv.fits.head_lt, inv.fits.count_le, ?_, ?_⟩
  · exact fun id src ret h => (inv.finished id src ret h).2.1
  · intro e count data h nonzero
    cases e with
    | read task k =>
      simp only [pipeStep] at h ⊢
      split at h
      · exact inv.read_zero task k count data nonzero h
      · cases h
    | write task src k =>
      simp only [pipeStep] at h
      split at h
      · unfold PipeSystem.runWrite at h
        simp only at h
        split at h <;> cases h
      · cases h
    | resume task =>
      simp only [pipeStep] at h ⊢
      split at h
      · cases h
      · exact inv.read_zero task _ count data nonzero h
      · unfold PipeSystem.runWrite at h
        simp only at h
        split at h <;> cases h
    | readDup => cases h
    | readClose => cases h
    | writeDup => cases h
    | writeClose => cases h

end Isunux
