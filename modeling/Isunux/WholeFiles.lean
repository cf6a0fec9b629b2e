import Isunux.ExecStack
import Isunux.ExecAtomic

/-! Whole files in one buffer. However often the buffer has doubled, it starts with what
was read so far; a file that ends where the buffer does is doubled once more before the
read that brings nothing. -/
namespace Isunux

open Bytes

/-- The `ops->read` of a file answers `min(count, size - offset)` bytes of one content, for
as long as the pages in use keep theirs. -/
def Serves (s₀ : Vm) (file : Vm → FileReader) (content : List (BitVec 8)) : Prop :=
  ∀ s, (∀ f, Held s₀.pmm f → s.mem f = s₀.mem f) → ∀ count offset, count + offset < 2 ^ 63 →
    (file s).read count offset = .ok (slice content offset count)

/-- The bytes a caller of `vfs_read_file_alloc` finds in its buffer. -/
def bufferBytes (mem : PhysMem) (b : FileBuffer) : List (BitVec 8) := table b.total (bufferByte mem b.phys)

structure Filled (s : Vm) (b : FileBuffer) (content : List (BitVec 8)) : Prop where
  bytes : bufferBytes s.mem b = content.take b.total
  total : b.total ≤ content.length

/-- `vfs_read_file_alloc` with so many rounds of its loop, or nothing when it has not ended. -/
def vfsReadFileRounds (file : Vm → FileReader) (fuel : Nat) (s : Vm) : Option (Vm × Option FileBuffer) :=
  if (pmmAllocPages s.pmm vfsReadInitialPages).2 = 0 then
    some ({ s with pmm := (pmmAllocPages s.pmm vfsReadInitialPages).1 }, none)
  else
    readFileLoop file fuel { s with pmm := (pmmAllocPages s.pmm vfsReadInitialPages).1 }
      ⟨(pmmAllocPages s.pmm vfsReadInitialPages).2, vfsReadInitialPages, 0⟩

/-- The file in a buffer of `b.pages` new pages, which `vfs_read_file_free` gives back, or
nothing and not one page more. -/
def ReadsWhole (s : Vm) (content : List (BitVec 8)) (r : Vm × Option FileBuffer) : Prop :=
  match r.2 with
  | none => Restored s.pmm r.1.pmm
  | some b =>
    (b.total = content.length ∧ bufferBytes r.1.mem b = content) ∧
      Lent s.pmm r.1.pmm b.phys (b.phys + b.pages) ∧ Restored s.pmm (vfsReadFileFree r.1 b).pmm

section Whole

variable {s₀ s : Vm} {b : FileBuffer} {file : Vm → FileReader} {content : List (BitVec 8)}

theorem Serves.answer (serves : Serves s₀ file content) (h : Reading s₀ s b) :
    (file s).read (b.pages * 4096 - b.total) b.total = .ok (slice content b.total (b.pages * 4096 - b.total)) := by
  have small := h.small
  have room := h.room
  have most := s₀.pmm.total_le
  unfold maxPages at most
  exact serves s h.mem _ _ (by omega)

theorem Reading.appended (h : Reading s₀ s b) {bytes : List (BitVec 8)}
    (inside : b.total + bytes.length ≤ b.pages * 4096) :
    bufferBytes (fillBuffer s.mem b.phys b.total bytes) { b with total := b.total + bytes.length } =
      bufferBytes s.mem b ++ bytes := by
  have small := h.small
  have room := h.room
  have most := s₀.pmm.total_le
  unfold maxPages at most
  unfold bufferBytes
  have old : (table b.total (bufferByte s.mem b.phys)).length = b.total := table_length _ _
  apply List.ext_getElem
  · rw [table_length, List.length_append, old]
  intro o low low'
  rw [table_length] at low
  dsimp only at low
  rw [table_getElem, fillBuffer_byte _ _ _ (by omega) (by omega)]
  by_cases before : o < b.total
  · rw [if_neg (by omega), List.getElem_append_left (by omega)]
    exact (table_getElem _ _ _).symm
  · have new : o - b.total < bytes.length := by omega
    rw [if_pos (by omega), List.getElem_append_right (by omega), List.getD_eq_getElem?_getD, List.getElem?_eq_getElem new, Option.getD_some]
    simp only [old]

theorem Filled.append (filled : Filled s b content) (h : Reading s₀ s b) :
    Filled { s with mem := fillBuffer s.mem b.phys b.total (slice content b.total (b.pages * 4096 - b.total)) }
      { b with total := b.total + (slice content b.total (b.pages * 4096 - b.total)).length } content := by
  have total := filled.total
  have length : (slice content b.total (b.pages * 4096 - b.total)).length =
      min (b.pages * 4096 - b.total) (content.length - b.total) := by
    rw [slice, List.length_take, List.length_drop]
  have room := h.room
  refine ⟨?_, by dsimp only; omega⟩
  rw [h.appended (by omega), filled.bytes]
  dsimp only
  rw [List.take_add, length]
  unfold slice
  congr 1
  rw [List.take_eq_take_iff, List.length_drop]
  omega

theorem Filled.copied {total : Nat} {mem : PhysMem} (filled : bufferBytes mem { b with total := total } = content.take total)
    {q : Pmm} {first n : Nat}
    (lent : Lent s₀.pmm s.pmm b.phys (b.phys + b.pages)) (larger : Lent s.pmm q first (first + n))
    (inside : total ≤ b.pages * 4096) (fits : total ≤ n * 4096) :
    bufferBytes (copyBuffer mem first b.phys total) ⟨first, n, total⟩ = content.take total := by
  rw [← filled]
  refine table_congr fun o low => copyBuffer_byte mem (fun i j hi hj same => ?_) low
  have used := (lent.fresh (b.phys + j / 4096) (by omega) (by omega)).2.2.1
  have clear := (larger.fresh (first + i / 4096) (by omega) (by omega)).2.1
  rw [same, used] at clear
  cases clear

theorem readFileLoop_mono {fuel fuel' : Nat} {r : Vm × Option FileBuffer} (done : readFileLoop file fuel s b = some r)
    (more : fuel ≤ fuel') : readFileLoop file fuel' s b = some r := by
  induction fuel generalizing s b fuel' with
  | zero => cases done
  | succ fuel ih =>
    cases fuel' with
    | zero => omega
    | succ fuel' =>
      have fewer := Nat.le_of_succ_le_succ more
      rw [readFileLoop] at done ⊢
      cases answer : (file s).read (b.pages * 4096 - b.total) b.total with
      | error e =>
        rw [answer] at done
        exact done
      | ok bytes =>
        rw [answer] at done
        cases bytes with
        | nil => exact done
        | cons byte rest =>
          dsimp only at done ⊢
          by_cases full : b.total + (byte :: rest).length = b.pages * 4096
          · rw [if_pos full] at done ⊢
            by_cases failed : (pmmAllocPages s.pmm (b.pages * 2)).2 = 0
            · rw [if_pos failed] at done ⊢
              exact done
            · rw [if_neg failed] at done ⊢
              exact ih done fewer
          · rw [if_neg full] at done ⊢
            exact ih done fewer

/-- The loop keeps what it has read, and it ends with the buffer only at the end of the file. -/
theorem readFileLoop_exact (serves : Serves s₀ file content) {fuel : Nat}
    {r : Vm × Option FileBuffer} (h : Reading s₀ s b) (filled : Filled s b content)
    (done : readFileLoop file fuel s b = some r) : ∀ b', r.2 = some b' →
      b'.total = content.length ∧ bufferBytes r.1.mem b' = content := by
  induction fuel generalizing s b with
  | zero => cases done
  | succ fuel ih =>
    have room := h.room
    have answer := serves.answer h
    have further := filled.append h
    have length : (slice content b.total (b.pages * 4096 - b.total)).length =
        min (b.pages * 4096 - b.total) (content.length - b.total) := by
      rw [slice, List.length_take, List.length_drop]
    rw [readFileLoop, answer] at done
    generalize slice content b.total (b.pages * 4096 - b.total) = bytes at done further length
    cases bytes with
    | nil =>
      -- nothing is left, and there was room for more
      cases done
      rintro b' ⟨⟩
      rw [List.length_nil] at length
      have total := filled.total
      have whole : b.total = content.length := by omega
      exact ⟨whole, by rw [filled.bytes, whole, List.take_length]⟩
    | cons byte rest =>
      dsimp only at done
      generalize byte :: rest = bytes at done further length
      have inside : b.total + bytes.length ≤ b.pages * 4096 := by omega
      by_cases full : b.total + bytes.length = b.pages * 4096
      · rw [if_pos full] at done
        have fits : b.total + bytes.length ≤ b.pages * 2 * 4096 :=
          inside.trans (Nat.mul_le_mul_right _ (Nat.le_mul_of_pos_right _ Nat.two_pos))
        by_cases failed : (pmmAllocPages s.pmm (b.pages * 2)).2 = 0
        · rw [if_pos failed] at done
          cases done
          rintro b' ⟨⟩
        · rw [if_neg failed] at done
          have copied := Filled.copied further.bytes h.lent (pmmAllocPages_lent failed) inside fits
          exact ih (h.doubled full failed) ⟨copied, further.total⟩ done
      · rw [if_neg full] at done
        exact ih (h.filled (by omega)) further done

theorem vfsReadFileAlloc_ends (zero : Held s.pmm 0) {fuel : Nat} (enough : s.pmm.totalPages * 4096 < fuel) :
    vfsReadFileRounds file fuel s = some (vfsReadFileAlloc file s) := by
  unfold vfsReadFileRounds vfsReadFileAlloc
  by_cases failed : (pmmAllocPages s.pmm vfsReadInitialPages).2 = 0
  · rw [if_pos failed]
    exact congrArg some (if_pos failed).symm
  · rw [if_neg failed]
    obtain ⟨r, ends, -⟩ := @readFileLoop_reads _ _ _ file zero _ (Reading.first failed) (Nat.le_refl _)
    have whole : vfsReadFileAlloc file s = r := by
      unfold vfsReadFileAlloc
      rw [if_neg failed]
      exact congrArg (Option.getD · _) ends
    exact (readFileLoop_mono ends enough).trans (congrArg some whole.symm)

theorem Serves.readWhole (serves : Serves s file content) (zero : Held s.pmm 0) :
    ReadsWhole s content (vfsReadFileAlloc file s) := by
  have reads := vfsReadFileAlloc_reads file zero
  have ends := @vfsReadFileAlloc_ends _ file zero _ (Nat.lt_succ_self _)
  generalize vfsReadFileAlloc file s = r at reads ends
  obtain ⟨t, b⟩ := r
  cases b with
  | none => exact reads.1
  | some b =>
    by_cases failed : (pmmAllocPages s.pmm vfsReadInitialPages).2 = 0
    · rw [vfsReadFileRounds, if_pos failed] at ends
      cases ends
    · rw [vfsReadFileRounds, if_neg failed] at ends
      have start : Filled { s with pmm := (pmmAllocPages s.pmm vfsReadInitialPages).1 }
          ⟨(pmmAllocPages s.pmm vfsReadInitialPages).2, vfsReadInitialPages, 0⟩ content := ⟨rfl, Nat.zero_le _⟩
      exact ⟨readFileLoop_exact serves (Reading.first failed) start ends b rfl, reads.lent, reads.lent.free⟩

/-- A file that is served is read whole or not at all, and reading it ends. -/
theorem whole_file_read_exact (file : Vm → FileReader) (s : Vm) (content : List (BitVec 8)) (zero : Held s.pmm 0)
    (serves : Serves s file content) :
    (∀ fuel, s.pmm.totalPages * 4096 < fuel → vfsReadFileRounds file fuel s = some (vfsReadFileAlloc file s)) ∧
      ReadsWhole s content (vfsReadFileAlloc file s) :=
  ⟨fun _ => vfsReadFileAlloc_ends zero, serves.readWhole zero⟩

end Whole

def byteFile (content : List (BitVec 8)) : FileReader where
  read count offset := .ok (slice content offset count)
  bounded count offset bytes h := by
    cases h
    exact List.length_take_le _ _

theorem byteFile_serves (s : Vm) (content : List (BitVec 8)) : Serves s (fun _ => byteFile content) content :=
  fun _ _ _ _ _ => rfl

/-- Zeros that fill the first buffer to its last byte. -/
def fullBuffer : List (BitVec 8) := List.replicate (vfsReadInitialPages * 4096) 0

theorem whole_file_read_fullBuffer :
    ReadsWhole sixteenPages fullBuffer (vfsReadFileAlloc (fun _ => byteFile fullBuffer) sixteenPages) := by
  have zero : Held sixteenPages.pmm 0 := fun _ => rfl
  have whole := whole_file_read_exact (fun _ => byteFile fullBuffer) sixteenPages fullBuffer zero
    (byteFile_serves _ _)
  generalize vfsReadFileAlloc (fun _ => byteFile fullBuffer) sixteenPages = r at whole ⊢
  exact whole.2

section Tmpfs

variable {F : Type} {files : Files F} {kids : Nat → List Nat} {R : Nat → Prop} {lent : Nat → Bool} {i : Nat}

/-- A file of the store serves its contents, since its pages are in use. -/
theorem Stored.serves (h : Stored files kids R lent) (furnished : Furnished files kids R)
    (live : Live files.tmp kids R i) (fits : (files.tmp.nodes i).Fits) (elsewhere : F → Nat → FileReader) {s : Vm}
    (mem : s.mem = files.mem) (pmm : s.pmm = files.pmm) :
    Serves s (files.reader elsewhere (.tmp i)) (contents files i) := by
  intro t same count offset small
  have plain : ∀ n, n < 2 ^ 63 → (BitVec.ofNat 64 n).toNat = n := fun n low =>
    (BitVec.toNat_ofNat n 64).trans (Nat.mod_eq_of_lt (low.trans (by decide)))
  have kept : contents { files with mem := t.mem } i = contents files i := by
    obtain ⟨f, data⟩ := Option.isSome_iff_exists.mp (h.sized i live).buffer
    refine contents_congr rfl rfl (h.sized i live) fits fun g lower upper => ?_
    rw [data, Option.getD_some] at lower upper
    have nonzero : f ≠ 0 := by
      rintro rfl
      exact furnished.2 i live data
    have used := (h.used i live g ⟨f, data, nonzero, lower, upper⟩).used
    exact (same g (fun _ => pmm ▸ used)).trans (congrFun mem g)
  change Except.ok (tmpfsFileRead { files with mem := t.mem } i _ _) = _
  rw [tmpfsFileRead_eq, kept, plain count (by omega), plain offset (by omega)]

theorem Stored.readWhole (h : Stored files kids R lent) (furnished : Furnished files kids R)
    (live : Live files.tmp kids R i) (fits : (files.tmp.nodes i).Fits) (elsewhere : F → Nat → FileReader) {s : Vm}
    (mem : s.mem = files.mem) (pmm : s.pmm = files.pmm) :
    ReadsWhole s (contents files i) (vfsReadFileAlloc (files.reader elsewhere (.tmp i)) s) :=
  (h.serves furnished live fits elsewhere mem pmm).readWhole (pmm ▸ furnished.1)

end Tmpfs

end Isunux
