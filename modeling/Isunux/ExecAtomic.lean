import Isunux.FileBuffers
import Isunux.ElfBounds
import Isunux.TmpfsIntegrity

/-! Failed calls of `do_exec`. The file's buffer is always given back, but from
`vmm_new_address_space` on nothing is: a call that fails later leaves the new tables
and segments in use. -/
namespace Isunux

open Radix

section Pages

variable {p q : Pmm}

theorem freeFrames_lt (total : q.totalPages = p.totalPages)
    (used : ∀ f, p.bitmap f = true → q.bitmap f = true) {f : Nat} (bound : f < p.totalPages)
    (clear : p.bitmap f = false) (taken : q.bitmap f = true) : freeFrames q < freeFrames p := by
  apply Finset.card_lt_card
  rw [Finset.ssubset_iff_of_subset]
  · refine ⟨f, Finset.mem_filter.mpr ⟨Finset.mem_range.mpr bound, clear⟩, fun mem => ?_⟩
    rw [(Finset.mem_filter.mp mem).2] at taken
    cases taken
  · intro g hg
    rw [Finset.mem_filter, Finset.mem_range] at hg ⊢
    rw [total] at hg
    refine ⟨hg.1, ?_⟩
    by_contra before
    rw [used g (by simpa using before)] at hg
    cases hg.2

theorem pmmAllocPages_none (none : freeFrames p = 0) (n : Nat) : pmmAllocPages p n = (p, 0) := by
  rcases pmmAllocPages_cases p n with e | ⟨start, sized, bound, clear, -⟩
  · exact e
  · have mem : start ∈ (Finset.range p.totalPages).filter fun f => p.bitmap f = false := by
      rw [Finset.mem_filter, Finset.mem_range]
      exact ⟨by omega, clear start le_rfl (by omega)⟩
    rw [Finset.card_eq_zero.mp none] at mem
    cases mem

end Pages

section Loader

variable {s : Vm} {data : ElfData} {pml4 : Nat}

theorem loadSegments_idle {n i : Nat} (st : ElfProgress) (none : freeFrames st.vm.pmm = 0) :
    (loadSegments data pml4 n i st).1.vm = st.vm := by
  induction n generalizing i with
  | zero => rfl
  | succ n ih =>
    rw [loadSegments]
    dsimp only
    by_cases skip : (phdr data i).type ≠ ptLoad ∨ (phdr data i).memsz = 0#64
    · rw [if_pos skip]
      exact ih
    · have failed : loadSegment data pml4 (phdr data i) st.vm = (st.vm, false) := by
        rw [loadSegment, pmmAllocPages_none none]
        dsimp only
        rw [if_pos rfl]
      rw [if_neg skip, failed, if_neg Bool.false_ne_true]

theorem elfLoad_idle (none : freeFrames s.pmm = 0) (size : Word) : (elfLoad s pml4 data size).1 = s := by
  unfold elfLoad
  cases elfAccepted data size with
  | true => exact loadSegments_idle ⟨s, 0#64, 0#64⟩ none
  | false => rfl

end Loader

section Spaces

variable {s : Vm} {mem : PhysMem} {pml4 : Nat} {v : Word}

theorem userChild_some {e : Word} {f : Nat} (h : userChild e = some f) : pteChild e = some f := by
  unfold userChild at h
  unfold pteChild
  cases present : hasBits e ptePresent with
  | false =>
    rw [present] at h
    cases h
  | true =>
    cases user : hasBits e pteUser with
    | false =>
      rw [present, user] at h
      cases h
    | true =>
      rw [present, user] at h
      exact h

theorem userLeaf_held (held : PathHeld s pml4 (tablePath v))
    (same : ∀ f, f ≠ 0 → Held s.pmm f → mem f = s.mem f) : userLeaf mem pml4 v = userLeaf s.mem pml4 v := by
  have at_ : ∀ q f, q <+: tablePath v → reach s.mem pml4 q = some f → mem f = s.mem f :=
    fun q f part here => same f (held q part f here).1 (held q part f here).2
  have top := at_ [] pml4 (List.nil_prefix) rfl
  unfold userLeaf
  rw [top]
  congr 1
  cases first : userChild (s.mem pml4 (pml4Idx v)) with
  | none => rfl
  | some pdpt =>
    have path₁ : reach s.mem pml4 [pml4Idx v] = some pdpt := by
      rw [← List.nil_append [pml4Idx v], reach_snoc]
      exact userChild_some first
    have same₁ := at_ _ pdpt ⟨[pdptIdx v, pdIdx v], rfl⟩ path₁
    rw [Option.bind_some, Option.bind_some, same₁]
    cases second : userChild (s.mem pdpt (pdptIdx v)) with
    | none => rfl
    | some pd =>
      have path₂ : reach s.mem pml4 ([pml4Idx v] ++ [pdptIdx v]) = some pd := by
        rw [reach_snoc, path₁]
        exact userChild_some second
      have same₂ := at_ _ pd ⟨[pdIdx v], rfl⟩ path₂
      rw [Option.bind_some, Option.bind_some, same₂]
      cases third : userChild (s.mem pd (pdIdx v)) with
      | none => rfl
      | some pt =>
        have path₃ : reach s.mem pml4 ([pml4Idx v, pdptIdx v] ++ [pdIdx v]) = some pt := by
          rw [reach_snoc]
          rw [show reach s.mem pml4 [pml4Idx v, pdptIdx v] = some pd from path₂]
          exact userChild_some third
        have same₃ := at_ _ pt ⟨[], rfl⟩ path₃
        rw [Option.bind_some, Option.bind_some, same₃]

variable {s₀ : Vm} {b : FileBuffer}

theorem Reading.space_leaks (h : Reading s₀ s b) (zero : Held s₀.pmm 0) (free : 0 < freeFrames s.pmm)
    {q : Pmm} (grown : Grown (vmmNewAddressSpace s).1.pmm q) :
    freeFrames (pmmFreePages q b.phys b.pages) < freeFrames s₀.pmm := by
  have alloc : Grown s.pmm q := (pmmAllocPage_grown s.pmm).trans grown
  obtain ⟨bound, clear, after⟩ := pmmAllocPage_fresh (pmmAllocPage_ok (h.lent.grown.held zero) free)
  have back := fun f => h.lent.free_later alloc (f := f)
  have used : (vmmNewAddressSpace s).1.pmm.bitmap (pmmAllocPage s.pmm).2 = true := by
    rw [vmmNewAddressSpace]
    dsimp only
    rw [after]
    exact Function.update_self _ _ _
  refine freeFrames_lt ?_ (fun f inUse => ((back f).1 inUse).1) (h.lent.total ▸ bound) ?_ ?_
  · rw [pmmFreePages_total, alloc.total, h.lent.total]
  · by_contra before
    rw [h.lent.used (by simpa using before)] at clear
    cases clear
  · rw [(back _).2.1 clear]
    exact (grown.used _ used).1

/-- Frame 0 is never part of the buffer. -/
theorem Reading.zero_free (h : Reading s₀ s b) (zero : Held s.pmm 0) {q : Pmm} (grown : Grown s.pmm q) :
    Held (pmmFreePages q b.phys b.pages) 0 := by
  intro bound
  have nonzero := h.nonzero
  rw [pmmFreePages_total] at bound
  rw [(pmmFreePages_other q (by omega)).1]
  exact grown.held zero bound

theorem newSpace_idle (zero : Held s.pmm 0) (none : freeFrames s.pmm = 0) :
    (vmmNewAddressSpace s).1.pmm = { s.pmm with exhausted := true } ∧
      ∀ f, f ≠ 0 → (vmmNewAddressSpace s).1.mem f = s.mem f := by
  have failed : (pmmAllocPage s.pmm).2 = 0 := by
    by_contra ok
    obtain ⟨bound, clear, -⟩ := pmmAllocPage_fresh ok
    have taken := freeFrames_take s.pmm bound clear
    omega
  refine ⟨(pmmAllocPage_zero zero failed).2, fun f other => ?_⟩
  rw [vmmNewAddressSpace]
  dsimp only
  rw [failed, Function.update_of_ne other, zeroFrame, Function.update_of_ne other]

end Spaces

section Exec

variable {F : Type} (fs : Foreign F) (elsewhere : F → Nat → FileReader)

/-- Everything that a failed call has to leave as it was: the process and the rest of
the kernel's tables, the registers, the mappings and the number of free pages. -/
structure Undone (c c' : Caller) : Prop where
  kernel : { c'.kernel with vm := c.kernel.vm } = c.kernel
  cpu : c'.cpu = c.cpu
  frame : c'.frame = c.frame
  mappings : ∀ p, c.kernel.currentProcess = some p → ∀ v,
    userLeaf c'.kernel.vm.mem (c.kernel.procs p).pml4 v = userLeaf c.kernel.vm.mem (c.kernel.procs p).pml4 v
  pages : freeFrames c'.kernel.vm.pmm = freeFrames c.kernel.vm.pmm

/-- The call gives up before it makes an address space, or has no page to make it of. -/
def MakesNoSpace (c : Caller) (files : Files F) (path : List Char) : Prop :=
  ∀ p node, c.kernel.currentProcess = some p →
    vfsResolvePathCwd fs files (c.kernel.procs p).cwd path = some node →
    files.readable fs node = true →
    vfsCheckPerm (files.ownerOf fs node) (c.kernel.procs p).uid (c.kernel.procs p).gid 1#64 = true →
    ∀ b, (vfsReadFileAlloc (files.reader elsewhere node) c.kernel.vm).2 = some b →
      b.total = 0 ∨ freeFrames (vfsReadFileAlloc (files.reader elsewhere node) c.kernel.vm).1.pmm = 0

/-- The tables of the caller's low half are pages in use. -/
def TablesHeld (c : Caller) : Prop :=
  ∀ p, c.kernel.currentProcess = some p → ∀ v, lowHalf v = true →
    PathHeld c.kernel.vm (c.kernel.procs p).pml4 (tablePath v)

variable {fs elsewhere} {c : Caller}

theorem Undone.refl (c : Caller) : Undone c c := ⟨rfl, rfl, rfl, fun _ _ _ => rfl, rfl⟩

theorem Undone.setVm {s : Vm} (tables : TablesHeld c) (pages : Restored c.kernel.vm.pmm s.pmm)
    (mem : ∀ f, f ≠ 0 → Held c.kernel.vm.pmm f → s.mem f = c.kernel.vm.mem f) : Undone c (c.setVm s) := by
  refine ⟨rfl, rfl, rfl, fun p here v => ?_, pages.freeFrames⟩
  by_cases low : lowHalf v = true
  · exact userLeaf_held (tables p here v low) mem
  · rw [userLeaf, userLeaf, if_neg low, if_neg low]

theorem execLoaded_failed {p pml4 : Nat} {image : Option ElfImage} {argv envp : List (List (BitVec 8))}
    {seed : Word} (zero : Held c.kernel.vm.pmm 0) (failed : (execLoaded c p pml4 image argv envp seed).2 < 0) :
    (execLoaded c p pml4 image argv envp seed).1 = c := by
  cases image with
  | none => rfl
  | some image =>
    unfold execLoaded execCommit at failed ⊢
    dsimp only at failed ⊢
    by_cases none : (pmmAllocPages c.kernel.vm.pmm userStackPages).2 = 0
    · rw [if_pos none, pmmAllocPages_failed zero none]
      rfl
    · rw [if_neg none] at failed
      exact absurd failed (Int.lt_irrefl 0)

/-- A failed call on a file: it must not have come to the new address space. -/
theorem execFile_undone_iff {p : Nat} {file : Vm → FileReader} {argv envp : List (List (BitVec 8))}
    {seed : Word} (zero : Held c.kernel.vm.pmm 0) (tables : TablesHeld c)
    (failed : (execFile c p file argv envp seed).2 < 0) :
    Undone c (execFile c p file argv envp seed).1 ↔
      ∀ b, (vfsReadFileAlloc file c.kernel.vm).2 = some b →
        b.total = 0 ∨ freeFrames (vfsReadFileAlloc file c.kernel.vm).1.pmm = 0 := by
  have reads := vfsReadFileAlloc_reads file zero
  unfold execFile at failed ⊢
  generalize vfsReadFileAlloc file c.kernel.vm = r at reads failed ⊢
  obtain ⟨s, result⟩ := r
  cases result with
  | none => exact iff_of_true (.setVm tables reads.1 fun f _ held => reads.2.1 f held) fun b h => nomatch h
  | some b =>
    have h : Reading c.kernel.vm s b := reads
    dsimp only at failed ⊢
    by_cases empty : b.total = 0
    · rw [if_pos empty]
      refine iff_of_true (.setVm tables h.lent.free fun f _ held => h.mem f held) fun b' e => .inl ?_
      cases e
      exact empty
    rw [if_neg empty] at failed ⊢
    have held := h.lent.grown.held zero
    have loaded := elfLoad_grown (vmmNewAddressSpace s).1 (vmmNewAddressSpace s).2
      (bufferData (vmmNewAddressSpace s).1.mem b) (BitVec.ofNat 64 b.total)
    have ends := execLoaded_failed (h.zero_free held ((pmmAllocPage_grown s.pmm).trans loaded)) failed
    rw [ends]
    by_cases none : freeFrames s.pmm = 0
    · refine iff_of_true ?_ fun b' _ => .inr none
      obtain ⟨pages, frames⟩ := newSpace_idle held none
      have idle :=
        @elfLoad_idle ((vmmNewAddressSpace s).1) (bufferData (vmmNewAddressSpace s).1.mem b)
          ((vmmNewAddressSpace s).2) (by rw [pages]; exact none) (BitVec.ofNat 64 b.total)
      rw [execSpace]
      dsimp only
      rw [idle]
      refine .setVm tables ?_ fun f nonzero used => (frames f nonzero).trans (h.mem f used)
      have lent : Lent c.kernel.vm.pmm { s.pmm with exhausted := true } b.phys (b.phys + b.pages) :=
        ⟨h.lent.total, h.lent.fresh, h.lent.bitmap, h.lent.refcount⟩
      rw [vfsReadFileFree, pages]
      exact lent.free
    · refine iff_of_false (fun undone => ?_) fun all => (all b rfl).elim empty none
      have leaks := h.space_leaks zero (Nat.pos_of_ne_zero none) loaded
      have same := undone.pages
      exact absurd same (Nat.ne_of_lt leaks)

variable (fs elsewhere)

/-- A failed call leaves everything as it was exactly when it has not come to the new
address space. -/
theorem failed_exec_atomic_iff (c : Caller) (files : Files F) (path : List Char) (argv envp : List CString)
    (seed : Word) (zero : Held c.kernel.vm.pmm 0) (tables : TablesHeld c)
    (failed : (doExec fs elsewhere c files path argv envp seed).2 < 0) :
    Undone c (doExec fs elsewhere c files path argv envp seed).1 ↔ MakesNoSpace fs elsewhere c files path := by
  unfold doExec at failed ⊢
  unfold MakesNoSpace Kernel.currentProcess
  dsimp only at failed ⊢
  cases task : (c.kernel.tasks c.kernel.current).proc with
  | none => exact iff_of_true (.refl c) fun p node h => nomatch h
  | some p =>
    rw [task] at failed
    dsimp only at failed ⊢
    cases found : vfsResolvePathCwd fs files (c.kernel.procs p).cwd path with
    | none =>
      refine iff_of_true (.refl c) fun p' node h found' => ?_
      cases h
      rw [found] at found'
      cases found'
    | some node =>
      rw [found] at failed
      dsimp only at failed ⊢
      by_cases readable : files.readable fs node = false
      · rw [if_pos readable]
        refine iff_of_true (.refl c) fun p' node' h found' readable' => ?_
        cases h
        rw [found] at found'
        cases found'
        rw [readable] at readable'
        cases readable'
      rw [if_neg readable] at failed ⊢
      by_cases allowed : vfsCheckPerm (files.ownerOf fs node) (c.kernel.procs p).uid (c.kernel.procs p).gid 1#64 =
          false
      · rw [if_pos allowed]
        refine iff_of_true (.refl c) fun p' node' h found' _ allowed' => ?_
        cases h
        rw [found] at found'
        cases found'
        rw [allowed] at allowed'
        cases allowed'
      rw [if_neg allowed] at failed ⊢
      rw [execFile_undone_iff zero tables failed]
      constructor
      · intro all p' node' h found' _ _ b read
        cases h
        rw [found] at found'
        cases found'
        exact all b read
      · intro all b read
        exact all p node rfl found (by simpa using readable) (by simpa using allowed) b read

end Exec

/-- Sixteen pages. Pages 1 and 2 are the kernel's PML4 and that of the caller, page 3 is
the page of a file. -/
def sixteenPages : Vm where
  pmm := .small 16#6 (fun f => f < 4) (fun _ => 1) 12 4
  mem := fun _ _ => 0#64
  kernelPml4 := 1

/-- A process in the root directory. -/
def loneCaller (vm : Vm) : Caller where
  kernel :=
    { fullHouse with
      vm := vm
      procs := fun _ => { Process.zero with pml4 := 2, cwd := ['/'], pid := 1 } }
  cpu := ⟨2, 0#64⟩
  frame := zeroFrameRegs

/-- One executable file `/a` of so many bytes, in page 3. -/
def oneProgram (size : Word) : Files Unit where
  tmp :=
    { nodes := fun i =>
        if i = 0 then { tmpfsInit.nodes 0 with firstChild := some 1 }
        else { TmpfsNode.zero with name := ['a'], mode := 0o755#64, data := some 3, size := size, capacity := 4096#64 }
      count := 2 }
  pmm := sixteenPages.pmm
  mem := sixteenPages.mem
  other := ()
  devDir := 0
  mntDir := 0

/-- A reader for a machine whose only other file system has no readable file. -/
def noReader : Unit → Nat → FileReader := fun _ _ => ⟨fun _ _ => .error (-einval), fun _ _ _ h => nomatch h⟩

theorem loneCaller_tables : TablesHeld (loneCaller sixteenPages) := by
  intro p _ v _
  exact PathHeld.empty _ two_ne_zero (fun _ => rfl) rfl

theorem garbage_program_refused :
    (doExec consoleOnly noReader (loneCaller sixteenPages) (oneProgram 1#64) ['/', 'a'] [] [] 1#64).2 = -enoexec := by
  decide +kernel

theorem failed_exec_atomic_loneCaller :
    Undone (loneCaller sixteenPages)
      (doExec consoleOnly noReader (loneCaller sixteenPages) (oneProgram 1#64) ['/', 'a'] [] [] 1#64).1 ↔
      MakesNoSpace consoleOnly noReader (loneCaller sixteenPages) (oneProgram 1#64) ['/', 'a'] :=
  failed_exec_atomic_iff consoleOnly noReader (loneCaller sixteenPages) (oneProgram 1#64) ['/', 'a'] [] [] 1#64
    (fun _ => rfl) loneCaller_tables (by rw [garbage_program_refused]; decide)

/-- A file of one byte is no program. The call says so and keeps a page. -/
theorem failed_exec_keeps_page :
    let r := doExec consoleOnly noReader (loneCaller sixteenPages) (oneProgram 1#64) ['/', 'a'] [] [] 1#64
    r.2 = -enoexec ∧ freeFrames r.1.kernel.vm.pmm = 11 ∧ freeFrames sixteenPages.pmm = 12 ∧
      ¬ Undone (loneCaller sixteenPages) r.1 := by
  intro r
  have kept : freeFrames r.1.kernel.vm.pmm = 11 := by decide +kernel
  have before : freeFrames sixteenPages.pmm = 12 := by decide +kernel
  refine ⟨garbage_program_refused, kept, before, fun undone => ?_⟩
  have same : freeFrames r.1.kernel.vm.pmm = freeFrames sixteenPages.pmm := undone.pages
  omega

end Isunux
