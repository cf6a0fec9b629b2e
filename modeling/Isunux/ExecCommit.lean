import Isunux.ExecSpace
import Isunux.ExecAtomic

/-! Committed calls of `do_exec`: how much memory they take, and what they leave in the
machine once they cannot fail any more. -/
namespace Isunux

section Budget

variable {s t u : Vm} {n m : Nat}

theorem loadSegment_spends (data : ElfData) (pml4 : Nat) (ph : Phdr) (s : Vm) :
    Spends (4 * ph.numPages) s (loadSegment data pml4 ph s).1 := by
  unfold loadSegment
  dsimp only
  by_cases failed : (pmmAllocPages s.pmm ph.numPages).2 = 0
  · rw [if_pos failed]
    exact (allocPages_spends s ph.numPages s.mem).more (by omega)
  · rw [if_neg failed]
    have sum : ph.numPages + 3 * ph.numPages = 4 * ph.numPages := by omega
    rw [← sum]
    exact (allocPages_spends s ph.numPages _).trans (mapPages_spends _ _ _ _ _ _)

theorem loadSegments_spends (data : ElfData) (pml4 n i : Nat) (st : ElfProgress) :
    Spends (4 * (pagesBefore data (i + n) - pagesBefore data i)) st.vm (loadSegments data pml4 n i st).1.vm := by
  induction n generalizing i st with
  | zero =>
    rw [Nat.add_zero, Nat.sub_self]
    exact .refl _
  | succ n ih =>
    have next : i + 1 + n = i + (n + 1) := by omega
    have rest := fun st => ih (i + 1) st
    rw [next] at rest
    by_cases loaded : (phdr data i).Loaded
    · have here := loadSegment_spends data pml4 (phdr data i) st.vm
      have more := @pagesBefore_mono data _ _ (show i + 1 ≤ i + (n + 1) by omega)
      rw [pagesBefore_loaded loaded] at rest more
      cases ok : (loadSegment data pml4 (phdr data i) st.vm).2 with
      | true =>
        rw [loadSegments_loaded loaded ok]
        exact (here.trans (rest (st.past data (phdr data i) _))).more (by omega)
      | false =>
        rw [loadSegments_failed loaded ok]
        exact here.more (by omega)
    · rw [loadSegments_skipped loaded]
      rw [pagesBefore_skipped loaded] at rest
      exact rest st

theorem elfLoad_spends (s : Vm) (pml4 : Nat) (data : ElfData) (size : Word) :
    Spends (4 * pagesBefore data (ePhnum data)) s (elfLoad s pml4 data size).1 := by
  unfold elfLoad
  cases elfAccepted data size with
  | true =>
    have all := loadSegments_spends data pml4 (ePhnum data) 0 ⟨s, 0#64, 0#64⟩
    rw [Nat.zero_add, show pagesBefore data 0 = 0 from rfl, Nat.sub_zero] at all
    exact all
  | false => exact (Spends.refl s).more (Nat.zero_le _)

/-- Pages enough for the segments, three tables for each page of them and of the stack,
the PML4 and the stack. -/
theorem execMapped_backed {s : Vm} {b : FileBuffer} (zero : Held s.pmm 0) (nonzero : b.phys ≠ 0)
    (enough : 4 * pagesBefore (execData s b) (ePhnum (execData s b)) + 17 ≤ freeFrames s.pmm) :
    (execMapped s.unflagged b).1.pmm.exhausted = false := by
  have space : Spends 1 s.unflagged (vmmNewAddressSpace s.unflagged).1 := allocPage_spends s.unflagged _
  have loaded := space.trans (elfLoad_spends _ (vmmNewAddressSpace s.unflagged).2 (execData s.unflagged b)
    (BitVec.ofNat 64 b.total))
  have freed := loaded.trans (freePages_spends _ b.pages nonzero)
  have stack := freed.trans (allocPages_spends (execSpace s.unflagged b).1 userStackPages
    (execSpace s.unflagged b).1.mem)
  have all := stack.trans (mapPages_spends _ (execSpace s.unflagged b).2.1 userStackBase (pteWrite ||| pteUser)
    (pmmAllocPages (execSpace s.unflagged b).1.pmm userStackPages).2 userStackPages)
  refine all.fine zero ?_ rfl
  rw [execData_unflagged, show userStackPages = 4 from rfl]
  have total : freeFrames s.unflagged.pmm = freeFrames s.pmm := rfl
  omega

end Budget

section Committed

variable {c : Caller} {p : Nat} {file : Vm → FileReader} {argv envp : List (List (BitVec 8))} {seed : Word}

/-- What a committed call leaves: `b` is the file's buffer and `image` what the loader
said. -/
structure Committed (c c' : Caller) (p : Nat) (file : Vm → FileReader) (argv envp : List (List (BitVec 8)))
    (seed : Word) (b : FileBuffer) (image : ElfImage) : Prop where
  read : (vfsReadFileAlloc file c.kernel.vm).2 = some b
  loaded : (execSpace (vfsReadFileAlloc file c.kernel.vm).1 b).2.2 = some image
  stack : (pmmAllocPages (execSpace (vfsReadFileAlloc file c.kernel.vm).1 b).1.pmm userStackPages).2 ≠ 0
  mem : c'.kernel.vm.mem = (buildInitialStack (execMapped (vfsReadFileAlloc file c.kernel.vm).1 b).2.2
    userStackBase (userStackPages * 4096) argv envp
    ⟨image.entry, image.phdrVaddr, image.phentsize, image.phnum, seed⟩
    (execMapped (vfsReadFileAlloc file c.kernel.vm).1 b).1.mem).1
  rsp : c'.frame.rsp = (buildInitialStack (execMapped (vfsReadFileAlloc file c.kernel.vm).1 b).2.2
    userStackBase (userStackPages * 4096) argv envp
    ⟨image.entry, image.phdrVaddr, image.phentsize, image.phnum, seed⟩
    (execMapped (vfsReadFileAlloc file c.kernel.vm).1 b).1.mem).2
  pml4 : (c'.kernel.procs p).pml4 = (execMapped (vfsReadFileAlloc file c.kernel.vm).1 b).2.1
  heap : (c'.kernel.procs p).heapStart = image.highestVaddr

theorem execFile_committed (done : (execFile c p file argv envp seed).2 = 0) :
    ∃ b image, Committed c (execFile c p file argv envp seed).1 p file argv envp seed b image := by
  cases read : (vfsReadFileAlloc file c.kernel.vm).2 with
  | none =>
    rw [execFile] at done
    dsimp only at done
    rw [read] at done
    cases done
  | some b =>
    have split : execFile c p file argv envp seed =
        if b.total = 0 then (c.setVm (vfsReadFileFree (vfsReadFileAlloc file c.kernel.vm).1 b), -enoexec)
        else execLoaded (c.setVm (execSpace (vfsReadFileAlloc file c.kernel.vm).1 b).1) p
          (execSpace (vfsReadFileAlloc file c.kernel.vm).1 b).2.1
          (execSpace (vfsReadFileAlloc file c.kernel.vm).1 b).2.2 argv envp seed := by
      rw [execFile]
      dsimp only
      rw [read]
    rw [split] at done ⊢
    by_cases empty : b.total = 0
    · rw [if_pos empty] at done
      cases done
    rw [if_neg empty] at done ⊢
    cases loaded : (execSpace (vfsReadFileAlloc file c.kernel.vm).1 b).2.2 with
    | none =>
      rw [loaded] at done
      cases done
    | some image =>
      rw [loaded] at done
      unfold execLoaded execCommit at done ⊢
      dsimp only at done ⊢
      by_cases none : (pmmAllocPages (execSpace (vfsReadFileAlloc file c.kernel.vm).1 b).1.pmm userStackPages).2 = 0
      · have none' : (pmmAllocPages (c.setVm (execSpace (vfsReadFileAlloc file c.kernel.vm).1 b).1).kernel.vm.pmm
            userStackPages).2 = 0 := none
        rw [if_pos none'] at done
        cases done
      · have some : ¬ (pmmAllocPages (c.setVm (execSpace (vfsReadFileAlloc file c.kernel.vm).1 b).1).kernel.vm.pmm
            userStackPages).2 = 0 := none
        rw [if_neg some]
        refine ⟨b, image, read, loaded, none, rfl, rfl, ?_, ?_⟩
        · dsimp only [Kernel.setProc]
          rw [Function.update_self]
          rfl
        · dsimp only [Kernel.setProc]
          rw [Function.update_self]

theorem stage_length (count maxlen : Nat) (strings : List CString) :
    (stage count maxlen strings).length = min count strings.length := by
  rw [stage, List.length_map, List.length_take]

theorem stage_short {count maxlen : Nat} {strings : List CString} (positive : 0 < maxlen) {s : List (BitVec 8)} (mem : s ∈ stage count maxlen strings) :
    s.length < maxlen := by
  obtain ⟨str, -, rfl⟩ := List.mem_map.mp mem
  rw [List.length_take]
  omega

theorem ReadTo.reading {s₀ : Vm} {r : Vm × Option FileBuffer} {b : FileBuffer} (h : ReadTo s₀ r)
    (some : r.2 = some b) : Reading s₀ r.1 b := by
  rw [ReadTo, some] at h
  exact h

variable {F : Type} (fs : Foreign F) (elsewhere : F → Nat → FileReader)

/-- The program that a call finds and reads: the caller, the machine with the file read,
and the file's buffer. -/
def execProgram (c : Caller) (files : Files F) (path : List Char) : Option (Nat × Vm × FileBuffer) :=
  c.kernel.currentProcess.bind fun p =>
  (vfsResolvePathCwd fs files (c.kernel.procs p).cwd path).bind fun node =>
  (vfsReadFileAlloc (files.reader elsewhere node) c.kernel.vm).2.map fun b =>
    (p, (vfsReadFileAlloc (files.reader elsewhere node) c.kernel.vm).1, b)

/-- Every table that the call makes gets a page. -/
def ExecBacked (s : Vm) (b : FileBuffer) : Prop := (execMapped s.unflagged b).1.pmm.exhausted = false

variable {fs elsewhere}

theorem execProgram_some {files : Files F} {path : List Char} {p : Nat} {s : Vm} {b : FileBuffer}
    (program : execProgram fs elsewhere c files path = some (p, s, b)) :
    ∃ node, c.kernel.currentProcess = some p ∧
      vfsResolvePathCwd fs files (c.kernel.procs p).cwd path = some node ∧
      s = (vfsReadFileAlloc (files.reader elsewhere node) c.kernel.vm).1 ∧
      (vfsReadFileAlloc (files.reader elsewhere node) c.kernel.vm).2 = some b := by
  rw [execProgram, Option.bind_eq_some_iff] at program
  obtain ⟨p', here, program⟩ := program
  rw [Option.bind_eq_some_iff] at program
  obtain ⟨node, found, program⟩ := program
  rw [Option.map_eq_some_iff] at program
  obtain ⟨b', read, same⟩ := program
  cases same
  exact ⟨node, here, found, rfl, read⟩

theorem doExec_committed {files : Files F} {path : List Char} {argv envp : List CString} {s : Vm}
    {b : FileBuffer} (program : execProgram fs elsewhere c files path = some (p, s, b))
    (done : (doExec fs elsewhere c files path argv envp seed).2 = 0) :
    ∃ file image, s = (vfsReadFileAlloc file c.kernel.vm).1 ∧
      Committed c (doExec fs elsewhere c files path argv envp seed).1 p file
        (stage maxExecArgs execArgMaxlen argv) (stage maxExecEnvs execEnvMaxlen envp) seed b image := by
  obtain ⟨node, here, found, state, read⟩ := execProgram_some program
  have whole : doExec fs elsewhere c files path argv envp seed = execFile c p (files.reader elsewhere node)
      (stage maxExecArgs execArgMaxlen argv) (stage maxExecEnvs execEnvMaxlen envp) seed := by
    unfold doExec Kernel.currentProcess at *
    dsimp only at done ⊢
    rw [here] at done ⊢
    dsimp only at done ⊢
    rw [found] at done ⊢
    dsimp only at done ⊢
    by_cases readable : files.readable fs node = false
    · rw [if_pos readable] at done
      cases done
    rw [if_neg readable] at done ⊢
    by_cases allowed : vfsCheckPerm (files.ownerOf fs node) (c.kernel.procs p).uid (c.kernel.procs p).gid 1#64 =
        false
    · rw [if_pos allowed] at done
      cases done
    rw [if_neg allowed]
  rw [whole] at done ⊢
  obtain ⟨b', image, committed⟩ := execFile_committed done
  have same : b' = b := Option.some.inj (committed.read.symm.trans read)
  subst same
  exact ⟨_, image, state, committed⟩

theorem Committed.stackLaid {c' : Caller} {argv envp : List CString} {b : FileBuffer} {image : ElfImage}
    (h : Committed c c' p file (stage maxExecArgs execArgMaxlen argv) (stage maxExecEnvs execEnvMaxlen envp) seed
      b image) :
    ∃ start, c'.frame.rsp = userStackBase + BitVec.ofNat 64 start ∧
      StackLaid c'.kernel.vm.mem (execMapped (vfsReadFileAlloc file c.kernel.vm).1 b).2.2 userStackBase
        (userStackPages * 4096) (stage maxExecArgs execArgMaxlen argv) (stage maxExecEnvs execEnvMaxlen envp)
        ⟨image.entry, image.phdrVaddr, image.phentsize, image.phnum, seed⟩ start ∧
      ∀ f, ¬ ((execMapped (vfsReadFileAlloc file c.kernel.vm).1 b).2.2 ≤ f ∧
          f < (execMapped (vfsReadFileAlloc file c.kernel.vm).1 b).2.2 + userStackPages) →
        c'.kernel.vm.mem f = (execMapped (vfsReadFileAlloc file c.kernel.vm).1 b).1.mem f := by
  have fewA : (stage maxExecArgs execArgMaxlen argv).length ≤ 8 := by
    rw [stage_length]
    exact Nat.min_le_left _ _
  have fewE : (stage maxExecEnvs execEnvMaxlen envp).length ≤ 16 := by
    rw [stage_length]
    exact Nat.min_le_left _ _
  have roomA := roomOf_le fewA fun _ => stage_short (by decide)
  have roomE := roomOf_le fewE fun _ => stage_short (by decide)
  have sizes : execArgMaxlen = 64 ∧ execEnvMaxlen = 128 ∧ userStackPages * 4096 = 16384 := ⟨rfl, rfl, rfl⟩
  obtain ⟨start, rsp, laid, frame⟩ := @buildInitialStack_laid _ (userStackPages * 4096) _ _ _ _
    fewA fewE (by omega) (by omega)
    (execMapped (vfsReadFileAlloc file c.kernel.vm).1 b).1.mem
  rw [← h.mem] at laid frame
  exact ⟨start, h.rsp.trans rsp, laid, fun f off => frame userStackPages f le_rfl off⟩

end Committed

/-- A machine of sixteen pages with a program in the page of its file. -/
def programVm (data : ElfData) : Vm :=
  { sixteenPages with mem := fun f i => if f = 3 then field64 data (BitVec.ofNat 64 (8 * i)) else 0#64 }

def programRead (data : ElfData) : Vm :=
  (vfsReadFileAlloc ((oneProgram 120#64).reader noReader (.tmp 1)) (programVm data)).1

theorem programVm_program {data : ElfData}
    (read : (vfsReadFileAlloc ((oneProgram 120#64).reader noReader (.tmp 1)) (programVm data)).2 =
      some ⟨4, 4, 120⟩) :
    execProgram consoleOnly noReader (loneCaller (programVm data)) (oneProgram 120#64) ['/', 'a'] =
      some (0, programRead data, ⟨4, 4, 120⟩) := by
  have cwd : ((loneCaller (programVm data)).kernel.procs 0).cwd = ['/'] := rfl
  have found : vfsResolvePathCwd consoleOnly (oneProgram 120#64) ['/'] ['/', 'a'] = some (.tmp 1) := by
    decide +kernel
  have here : (loneCaller (programVm data)).kernel.currentProcess = some 0 := rfl
  rw [execProgram, here, Option.bind_some, cwd, found, Option.bind_some]
  rw [show (loneCaller (programVm data)).kernel.vm = programVm data from rfl, read]
  rfl

end Isunux
