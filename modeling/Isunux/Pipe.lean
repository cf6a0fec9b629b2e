import Isunux.Lib.Ring
import Isunux.Lib.Run
import Isunux.Memory

/-! Pipes, pipe.c. A call runs without interruption from its start, or from its
return out of `task_block`, to the next `task_block` or to its end; these pieces
are called segments. -/
namespace Isunux

def pipeBufSize : Nat := 4096

structure Pipe where
  buf : Nat → BitVec 8
  head : Nat
  count : Nat
  readRefcount : Int
  writeRefcount : Int
  inUse : Bool

/-- What `pipe_create` makes of a pool slot. -/
def pipeCreate : Pipe := ⟨fun _ => 0#8, 0, 0, 1, 1, true⟩

def Pipe.buffered (p : Pipe) : List (BitVec 8) := Ring.contents pipeBufSize p.buf p.head p.count

/-- `(long)n`. -/
def toLong (n : Nat) : Int := (BitVec.ofNat 64 n).toInt

/-- The copying loop of `pipe_read`; the number counts down `count - n`. -/
def pipeDrain : Nat → Pipe → Pipe × List (BitVec 8)
  | 0, p => (p, [])
  | left + 1, p =>
    if p.count = 0 then (p, [])
    else
      let r := pipeDrain left { p with head := (p.head + 1) % pipeBufSize, count := p.count - 1 }
      (r.1, p.buf p.head :: r.2)

/-- A segment of `pipe_read`: what it leaves in the pipe, whether it called
`task_wake`, and the bytes it returns unless it sleeps. -/
structure ReadSegment where
  pipe : Pipe
  wake : Bool
  result : Option (List (BitVec 8))

def pipeRead (p : Pipe) (count : Nat) : ReadSegment :=
  if p.count = 0 then
    if p.writeRefcount = 0 then ⟨p, false, some []⟩ else ⟨p, false, none⟩
  else
    let d := pipeDrain count p
    ⟨d.1, true, some d.2⟩

/-- Why the loop of `pipe_write` stopped. -/
inductive FillEnd where
  | done | broken | full
  deriving DecidableEq

/-- The loop of `pipe_write` from byte `n` on; the first number counts down
`count - n`. -/
def pipeFill (src : Nat → BitVec 8) : Nat → Nat → Pipe → Pipe × Nat × FillEnd
  | 0, n, p => (p, n, .done)
  | left + 1, n, p =>
    if p.readRefcount = 0 then (p, n, .broken)
    else if p.count = pipeBufSize then (p, n, .full)
    else
      pipeFill src left (n + 1)
        { p with
          buf := Function.update p.buf ((p.head + p.count) % pipeBufSize) (src n)
          count := p.count + 1 }

/-- A segment of `pipe_write` that has `n` bytes behind it when it sleeps or
returns. -/
structure WriteSegment where
  pipe : Pipe
  wake : Bool
  n : Nat
  result : Option Int

def pipeWrite (p : Pipe) (src : Nat → BitVec 8) (count n : Nat) : WriteSegment :=
  match pipeFill src (count - n) n p with
  | (q, m, .done) => ⟨q, true, m, some (toLong m)⟩
  | (q, m, .broken) => ⟨q, false, m, some (if 0 < m then toLong m else -1)⟩
  | (q, m, .full) => ⟨q, true, m, none⟩

def pipeReadDup (p : Pipe) : Pipe := { p with readRefcount := p.readRefcount + 1 }
def pipeWriteDup (p : Pipe) : Pipe := { p with writeRefcount := p.writeRefcount + 1 }

/-- The close hooks, with whether they call `task_wake`. -/
def pipeReadClose (p : Pipe) : Pipe × Bool :=
  let q := { p with readRefcount := p.readRefcount - 1 }
  ({ q with inUse := if q.readRefcount = 0 ∧ q.writeRefcount = 0 then false else q.inUse },
    decide (q.readRefcount = 0))

def pipeWriteClose (p : Pipe) : Pipe × Bool :=
  let q := { p with writeRefcount := p.writeRefcount - 1 }
  ({ q with inUse := if q.readRefcount = 0 ∧ q.writeRefcount = 0 then false else q.inUse },
    decide (q.writeRefcount = 0))

/-! What the loops do to the ring. -/

/-- Head and count stay inside the buffer. -/
structure Pipe.Fits (p : Pipe) : Prop where
  head_lt : p.head < pipeBufSize
  count_le : p.count ≤ pipeBufSize

theorem pipeDrain_spec (left : Nat) (p : Pipe) (fits : p.Fits) :
    (pipeDrain left p).1.Fits ∧ p.buffered = (pipeDrain left p).2 ++ (pipeDrain left p).1.buffered ∧
      (pipeDrain left p).1.readRefcount = p.readRefcount ∧
      (pipeDrain left p).1.writeRefcount = p.writeRefcount ∧
      (pipeDrain left p).2.length = min left p.count := by
  induction left generalizing p with
  | zero => exact ⟨fits, rfl, rfl, rfl, by simp [pipeDrain]⟩
  | succ left ih =>
    unfold pipeDrain
    split
    · rename_i empty
      exact ⟨fits, rfl, rfl, rfl, by simp [empty]⟩
    · rename_i some
      have next : Pipe.Fits { p with head := (p.head + 1) % pipeBufSize, count := p.count - 1 } :=
        ⟨Nat.mod_lt _ (by decide), by have := fits.count_le; simp only; omega⟩
      obtain ⟨fits', split', reads, writes, len⟩ := ih _ next
      refine ⟨fits', ?_, reads, writes, ?_⟩
      · have pop := Ring.contents_pop p.buf fits.head_lt (p.count - 1)
        rw [Nat.sub_add_cancel (by omega)] at pop
        rw [Pipe.buffered, pop, List.cons_append, ← split']
        rfl
      · rw [List.length_cons, len]
        simp only
        omega

theorem pipeFill_spec (src : Nat → BitVec 8) (left n : Nat) (p : Pipe) (fits : p.Fits) :
    let r := pipeFill src left n p
    r.1.Fits ∧ n ≤ r.2.1 ∧ r.2.1 ≤ n + left ∧
      r.1.buffered = p.buffered ++ (List.range' n (r.2.1 - n)).map src ∧
      r.1.readRefcount = p.readRefcount ∧ r.1.writeRefcount = p.writeRefcount ∧
      (r.2.2 = .done → r.2.1 = n + left) ∧
      (r.2.2 = .broken → p.readRefcount = 0 ∧ r.1 = p) ∧
      (r.2.2 = .full → p.readRefcount ≠ 0 ∧ r.1.count = pipeBufSize) := by
  induction left generalizing n p with
  | zero => simp [pipeFill, fits]
  | succ left ih =>
    unfold pipeFill
    split
    · rename_i none
      simp [fits, none]
    · rename_i readers
      split
      · rename_i full
        simp [fits, full, readers]
      · rename_i room
        have room : p.count < pipeBufSize := by
          have := fits.count_le
          omega
        obtain ⟨fits', lo, hi, ring, reads, writes, done, broken, full⟩ := ih (n + 1)
          { p with
            buf := Function.update p.buf ((p.head + p.count) % pipeBufSize) (src n)
            count := p.count + 1 } ⟨fits.head_lt, room⟩
        refine ⟨fits', by omega, by omega, ?_, reads, writes, ?_, ?_, ?_⟩
        · rw [ring, Pipe.buffered]
          simp only
          rw [Ring.contents_push p.buf p.head room, List.append_assoc, Pipe.buffered]
          have : ∀ m, n + 1 ≤ m → m - n = (m - (n + 1)) + 1 := by omega
          rw [this _ lo, List.range'_succ]
          rfl
        · intro h
          have := done h
          omega
        · intro h
          exact False.elim (readers (broken h).1)
        · intro h
          exact ⟨readers, (full h).2⟩

/-- Moving bytes leaves the references to the pipe alone. -/
def Pipe.SameEnds (p q : Pipe) : Prop :=
  q.readRefcount = p.readRefcount ∧ q.writeRefcount = p.writeRefcount ∧ q.inUse = p.inUse

theorem pipeDrain_ends (left : Nat) (p : Pipe) : p.SameEnds (pipeDrain left p).1 := by
  induction left generalizing p with
  | zero => exact ⟨rfl, rfl, rfl⟩
  | succ left ih =>
    unfold pipeDrain
    split
    · exact ⟨rfl, rfl, rfl⟩
    · exact ih { p with head := (p.head + 1) % pipeBufSize, count := p.count - 1 }

theorem pipeFill_ends (src : Nat → BitVec 8) (left n : Nat) (p : Pipe) :
    p.SameEnds (pipeFill src left n p).1 := by
  induction left generalizing n p with
  | zero => exact ⟨rfl, rfl, rfl⟩
  | succ left ih =>
    unfold pipeFill
    split
    · exact ⟨rfl, rfl, rfl⟩
    split
    · exact ⟨rfl, rfl, rfl⟩
    · exact ih (n + 1)
        { p with
          buf := Function.update p.buf ((p.head + p.count) % pipeBufSize) (src n)
          count := p.count + 1 }

/-- A segment of `pipe_read` sleeps on an empty pipe with writers, and wakes the
others whenever it takes anything. -/
theorem pipeRead_segment (p : Pipe) (fits : p.Fits) (count : Nat) :
    p.SameEnds (pipeRead p count).pipe ∧ (pipeRead p count).pipe.Fits ∧
      ((pipeRead p count).wake = false → (pipeRead p count).pipe = p) ∧
      ((pipeRead p count).result = none →
        (pipeRead p count).wake = false ∧ p.count = 0 ∧ p.writeRefcount ≠ 0) := by
  unfold pipeRead
  split
  · rename_i empty
    split
    · exact ⟨⟨rfl, rfl, rfl⟩, fits, fun _ => rfl, by simp⟩
    · rename_i writers
      exact ⟨⟨rfl, rfl, rfl⟩, fits, fun _ => rfl, fun _ => ⟨rfl, empty, writers⟩⟩
  · exact ⟨pipeDrain_ends count p, (pipeDrain_spec count p fits).1, by simp, by simp⟩

/-- A segment of `pipe_write` sleeps on a full pipe with readers, after waking
the others. -/
theorem pipeWrite_segment (p : Pipe) (fits : p.Fits) (src : Nat → BitVec 8) (count n : Nat) :
    p.SameEnds (pipeWrite p src count n).pipe ∧ (pipeWrite p src count n).pipe.Fits ∧
      ((pipeWrite p src count n).wake = false → (pipeWrite p src count n).pipe = p) ∧
      ((pipeWrite p src count n).result = none → (pipeWrite p src count n).wake = true ∧
        (pipeWrite p src count n).pipe.count = pipeBufSize ∧
        (pipeWrite p src count n).pipe.readRefcount ≠ 0) := by
  have ends := pipeFill_ends src (count - n) n p
  have spec := pipeFill_spec src (count - n) n p fits
  unfold pipeWrite
  split
  · rename_i q m fill
    rw [fill] at ends spec
    exact ⟨ends, spec.1, by simp, by simp⟩
  · rename_i q m fill
    rw [fill] at ends spec
    exact ⟨ends, spec.1, fun _ => (spec.2.2.2.2.2.2.2.1 rfl).2, by simp⟩
  · rename_i q m fill
    rw [fill] at ends spec
    obtain ⟨readers, full⟩ := spec.2.2.2.2.2.2.2.2 rfl
    exact ⟨ends, spec.1, by simp, fun _ => ⟨rfl, full, by rw [ends.1]; exact readers⟩⟩

end Isunux
