import Isunux.ExecArgs

/-! The program image after `do_exec`. The stack goes to a fixed address in the middle of
the range that segments are loaded into, and `do_exec` maps it without looking: what the
program finds is decided by where its segments end. -/
namespace Isunux

open Radix

def StackPage (x : Nat) : Prop := 0x5fc ≤ x ∧ x < 0x600

/-- The segments leave the stack alone. The heap starts in the page behind the last of
them, so the last one may not end right below the stack either. -/
structure StackClear (data : ElfData) : Prop where
  segments : ∀ i < ePhnum data, (phdr data i).Loaded →
    (phdr data i).vaddr.toNat + (phdr data i).memsz.toNat ≤ 0x5fc000 ∨ 0x600000 ≤ (phdr data i).vaddr.toNat
  heap : (∃ i < ePhnum data, (phdr data i).Loaded ∧
      0x5fb000 < (phdr data i).vaddr.toNat + (phdr data i).memsz.toNat ∧
      (phdr data i).vaddr.toNat + (phdr data i).memsz.toNat ≤ 0x5fc000) →
    ∃ i < ePhnum data, (phdr data i).Loaded ∧ 0x600000 ≤ (phdr data i).vaddr.toNat

section Geometry

variable {data : ElfData} {size x : Word} {ph : Phdr}

theorem Phdr.byte_toNat (low : ph.vaddr.toNat + ph.memsz.toNat ≤ 2 ^ 47) {o : Nat} (inside : o < ph.memsz.toNat) :
    (ph.vaddr + BitVec.ofNat 64 o).toNat = ph.vaddr.toNat + o := by
  rw [BitVec.toNat_add, BitVec.toNat_ofNat]
  omega

theorem Phdr.clear_iff (some : 0 < ph.memsz.toNat) :
    (∀ x, ph.Touches x → ¬ StackPage x) ↔
      ph.vaddr.toNat + ph.memsz.toNat ≤ 0x5fc000 ∨ 0x600000 ≤ ph.vaddr.toNat := by
  unfold Phdr.Touches StackPage
  constructor
  · intro clear
    by_contra within
    exact clear (max (ph.vaddr.toNat / 4096) 0x5fc) (by omega) (by omega)
  · rintro clear x touched stack
    omega

theorem HighestBefore.clear_iff (file : ImageFile data size) (h : HighestBefore data (ePhnum data) x)
    (segments : ∀ i < ePhnum data, (phdr data i).Loaded →
      (phdr data i).vaddr.toNat + (phdr data i).memsz.toNat ≤ 0x5fc000 ∨ 0x600000 ≤ (phdr data i).vaddr.toNat) :
    ¬ StackPage (vpn x) ↔
      ((∃ i < ePhnum data, (phdr data i).Loaded ∧
        0x5fb000 < (phdr data i).vaddr.toNat + (phdr data i).memsz.toNat ∧
        (phdr data i).vaddr.toNat + (phdr data i).memsz.toNat ≤ 0x5fc000) →
      ∃ i < ePhnum data, (phdr data i).Loaded ∧ 0x600000 ≤ (phdr data i).vaddr.toNat) := by
  obtain ⟨⟨-, above⟩, -⟩ := h.isLeast file
  rw [vpn, StackPage]
  constructor
  · rintro clear ⟨i, bound, loaded, later, -⟩
    have aboveI := above i bound loaded
    -- the end of the image is beyond the stack, and so is the segment that ends there
    rcases h.reached with zero | ⟨j, boundJ, loadedJ, rfl⟩
    · rw [zero] at aboveI
      have : (0#64).toNat = 0 := rfl
      omega
    · refine ⟨j, boundJ, loadedJ, ?_⟩
      have ends := Phdr.segEnd_toNat (file.low j boundJ loadedJ)
      have clearJ := segments j boundJ loadedJ
      omega
  · intro heap stack
    rcases h.reached with zero | ⟨j, boundJ, loadedJ, rfl⟩
    · rw [zero] at stack
      have : (0#64).toNat = 0 := rfl
      omega
    · have ends := Phdr.segEnd_toNat (file.low j boundJ loadedJ)
      have clearJ := segments j boundJ loadedJ
      have some := loadedJ.memsz_pos
      obtain ⟨i, bound, loaded, beyond⟩ := heap ⟨j, boundJ, loadedJ, by omega, by omega⟩
      have aboveI := above i bound loaded
      have someI := loaded.memsz_pos
      omega

end Geometry

section Loading

variable {data : ElfData} {pml4 n i : Nat} {st : ElfProgress}

theorem loadSegments_highest (h : HighestBefore data i st.highestEnd) (rest : i + n = ePhnum data)
    (ok : (loadSegments data pml4 n i st).2 = true) :
    HighestBefore data (ePhnum data) (loadSegments data pml4 n i st).1.highestEnd := by
  induction n generalizing i st with
  | zero =>
    rw [Nat.add_zero] at rest
    subst rest
    exact h
  | succ n ih =>
    by_cases loaded : (phdr data i).Loaded
    · cases here : (loadSegment data pml4 (phdr data i) st.vm).2 with
      | true =>
        rw [loadSegments_loaded loaded here] at ok ⊢
        exact ih (h.load loaded) (by omega) ok
      | false =>
        rw [loadSegments_failed loaded here] at ok
        cases ok
    · rw [loadSegments_skipped loaded] at ok ⊢
      exact ih (h.skip loaded) (by omega) ok

/-- A loader that has come to its end with no allocation failed was given all it asked for. -/
theorem supplied_of_loaded (ok : (loadSegments data pml4 n i st).2 = true)
    (fine : (loadSegments data pml4 n i st).1.vm.pmm.exhausted = false) : Supplied data pml4 n i st.vm := by
  induction n generalizing i st with
  | zero => trivial
  | succ n ih =>
    rw [Supplied]
    by_cases loaded : (phdr data i).Loaded
    · rw [if_pos loaded]
      cases here : (loadSegment data pml4 (phdr data i) st.vm).2 with
      | true =>
        rw [loadSegments_loaded loaded here] at ok fine
        refine ⟨fun failed => ?_, ?_, ih ok fine⟩
        · rw [loadSegment, if_pos failed] at here
          cases here
        · by_contra flag
          rw [loadSegments_exhausted (eq_true_of_ne_false flag)] at fine
          cases fine
      | false =>
        rw [loadSegments_failed loaded here] at ok
        cases ok
    · rw [if_neg loaded]
      rw [loadSegments_skipped loaded] at ok fine
      exact ih ok fine

theorem elfLoad_highest {s : Vm} {size : Word} {image : ElfImage}
    (done : (elfLoad s pml4 data size).2 = some image) : HighestBefore data (ePhnum data) image.highestVaddr := by
  obtain ⟨accepted, all, -⟩ := elfLoad_done (Option.isSome_of_eq_some done)
  rw [elfLoad, if_pos accepted] at done
  dsimp only at done
  rw [all, if_pos rfl] at done
  rw [← Option.some.inj done]
  exact @loadSegments_highest _ _ _ _ ⟨s, 0#64, 0#64⟩ ⟨fun j low => absurd low (Nat.not_lt_zero j), .inl rfl⟩ (Nat.zero_add _) all

end Loading

section Mapping

variable {s₀ s : Vm} {b : FileBuffer} {size : Word}

theorem stack_vpn {p : Nat} (hp : p < userStackPages) : StackPage (vpn (pageOfRange userStackBase p)) := by
  have base : userStackBase.toNat = 6275072 := rfl
  have four : userStackPages = 4 := rfl
  rw [StackPage, vpn, pageOfRange, BitVec.toNat_add, BitVec.toNat_ofNat, base]
  omega

theorem StackClear.slots {data : ElfData} (clear : StackClear data) (file : ImageFile data size) {i p : Nat}
    (bound : i < ePhnum data) (loaded : (phdr data i).Loaded) {v : Word} (page : (phdr data i).Page v)
    (hp : p < userStackPages) :
    ¬ (tablePath v = tablePath (pageOfRange userStackBase p) ∧ ptIdx v = ptIdx (pageOfRange userStackBase p)) := by
  intro same
  obtain ⟨low, touched⟩ := file.page_touched bound loaded page
  rw [(same_slot_iff low (pageOfRange_low stack_low hp)).mp same] at touched
  exact (Phdr.clear_iff loaded.memsz_pos).mpr (clear.segments i bound loaded) _ touched (stack_vpn hp)

theorem newSpace_image {data : ElfData} (file : ImageFile data size)
    (fineSpace : (vmmNewAddressSpace s).1.pmm.exhausted = false)
    (all : (loadSegments data (vmmNewAddressSpace s).2 (ePhnum data) 0 ⟨(vmmNewAddressSpace s).1, 0#64, 0#64⟩).2 =
      true)
    (fineLoad : (loadSegments data (vmmNewAddressSpace s).2 (ePhnum data) 0
      ⟨(vmmNewAddressSpace s).1, 0#64, 0#64⟩).1.vm.pmm.exhausted = false) :
    let t := (loadSegments data (vmmNewAddressSpace s).2 (ePhnum data) 0 ⟨(vmmNewAddressSpace s).1, 0#64, 0#64⟩).1
    let roots := only (vmmNewAddressSpace s).2
    (∃ L, Sound (freeAtStart s.pmm) roots t.vm L) ∧
      (∀ i < ePhnum data, (phdr data i).Loaded → Placed roots 0 data t.vm.mem (phdr data i)) ∧
      ∀ v, lowHalf v = true → (∀ i < ePhnum data, (phdr data i).Loaded → ¬ (phdr data i).Touches (vpn v)) →
        leafWord roots t.vm.mem 0 (tablePath v) (ptIdx v) = none := by
  intro t roots
  obtain ⟨⟨L, space⟩, vacant⟩ := newSpace_sound fineSpace
  have start : ImageBefore (freeAtStart s.pmm) roots 0 data (vmmNewAddressSpace s).1 0
      ⟨(vmmNewAddressSpace s).1, 0#64, 0#64⟩ :=
    ⟨⟨L, space⟩, fun j low => absurd low (Nat.not_lt_zero j), ⟨fun _ _ _ _ _ _ => rfl,
      fun _ _ _ _ _ _ _ => rfl⟩, ⟨fun j low => absurd low (Nat.not_lt_zero j), .inl rfl⟩⟩
  obtain ⟨-, sound, placed, other, -⟩ := start.loop file (Nat.zero_add _) rfl
    (fun v ⟨i, bound, here, page⟩ =>
      vacant 0 _ _ (tablePath_low (lowHalf_idx (file.page_touched bound here page).1)) rfl)
    (supplied_of_loaded all fineLoad)
  refine ⟨sound, placed, fun v low out => ?_⟩
  rw [other.slots 0 _ _ (tablePath_low (lowHalf_idx low)) rfl ?_, vacant 0 _ _ (tablePath_low (lowHalf_idx low)) rfl]
  rintro v' ⟨i, bound, here, page⟩ slot
  obtain ⟨low', touched⟩ := file.page_touched bound here page
  rw [← (same_slot_iff low low').mp slot.2] at touched
  exact out i bound here touched

section Beside

variable {K : Type*} {roots : K → Option Nat} {scope : Nat → Prop} {t : Vm} {L : Finset (Ref K × Nat)} {k : K}
  {data : ElfData} {ph : Phdr} {base : Word} {phys n : Nat}

/-- A segment is not moved by a block that is mapped beside it, and it shares no page with
the block. -/
theorem Placed.beside (placed : Placed roots k data t.mem ph)
    (w : Sound (fun f => scope f ∧ ¬ (phys ≤ f ∧ f < phys + n)) roots t L) {kind : Kind} {mem mem' : PhysMem}
    (mapped : BlockMapped (fun f => scope f ∧ ¬ (phys ≤ f ∧ f < phys + n)) roots k base kind phys n t.mem mem)
    (low : ph.Low) (apart : ∀ v, ph.Page v → ∀ p < n, ¬ SlotOf k (pageOfRange base p) k (tablePath v) (ptIdx v))
    (off : ∀ f, ¬ (phys ≤ f ∧ f < phys + n) → mem' f = mem f)
    (words : ∀ q l, LowPath (q ++ [l]) → leafWord roots mem' k q l = leafWord roots mem k q l) :
    Placed roots k data mem' ph := by
  intro p hp
  obtain ⟨f, small, here, bytes⟩ := placed p hp
  have lowLeaf := tablePath_low (lowHalf_idx (pageOfRange_low low hp))
  have inside : scope f ∧ ¬ (phys ≤ f ∧ f < phys + n) := w.owned.accounts.balanced.within _
    (w.owned.mem_of_at lowLeaf (at_leaf.mpr ⟨_, here, leafEntry_frame small _⟩))
  have kept := mapped.data k _ _ _ lowLeaf rfl here
  rw [leafEntry_frame small] at kept
  refine ⟨f, small, ?_, fun o ho => ?_⟩
  · rw [words _ _ lowLeaf, mapped.rest k _ _ lowLeaf rfl (apart _ ⟨p, hp, rfl⟩), here]
  · rw [off f inside.2, kept]
    exact bytes o ho

end Beside

/-- The image and the stack of a program whose segments leave the stack alone: both are in
place, and filling the stack changes neither. -/
theorem Reading.imageMapped (h : Reading s₀ s b) (file : ImageFile (execData s b) size)
    (clear : StackClear (execData s b)) (loaded : (execSpace s b).2.2.isSome = true)
    (ok : (pmmAllocPages (execSpace s b).1.pmm userStackPages).2 ≠ 0)
    (fine : (execMapped s b).1.pmm.exhausted = false) :
    let phys := (execMapped s b).2.2
    let roots := only (execMapped s b).2.1
    ∃ scope L, Sound scope roots (execMapped s b).1 L ∧ StackMapped roots (execMapped s b).1.mem phys ∧
      ∀ mem : PhysMem, (∀ f, ¬ (phys ≤ f ∧ f < phys + userStackPages) → mem f = (execMapped s b).1.mem f) →
        ∀ i < ePhnum (execData s b), (phdr (execData s b) i).Loaded →
          Placed roots 0 (execData s b) mem (phdr (execData s b) i) := by
  intro phys roots
  obtain ⟨fineLoad, fineSpace⟩ := execMapped_fine fine
  obtain ⟨-, all, same⟩ := @elfLoad_done _ _ (execData s b) _ loaded
  rw [same] at fineLoad
  obtain ⟨⟨L, sound⟩, placed, vacant⟩ := newSpace_image file fineSpace all fineLoad
  rw [← same] at sound placed vacant
  -- the buffer goes back to the allocator and the stack is allocated
  have grown := (pmmAllocPage_grown s.pmm).trans
    (elfLoad_grown (vmmNewAddressSpace s).1 (vmmNewAddressSpace s).2 (execData s b) (BitVec.ofNat 64 b.total))
  have back := sound.giveBack (h.apart (fun _ free => free) grown)
  obtain ⟨lent, block, inScope⟩ := back.lend ok
  obtain ⟨L', mapped, pages, -⟩ := lent.mapPages (k := 0) rfl
    ⟨fun f lo hi => ⟨inScope f lo hi, (block f lo hi).2.1, (block f lo hi).2.2.1⟩,
      fun f lo hi => (block f lo hi).2.2.2⟩ stack_low
    (fun p hp => vacant _ (pageOfRange_low stack_low hp) fun i bound here touched =>
      (Phdr.clear_iff here.memsz_pos).mpr (clear.segments i bound here) _ touched (stack_vpn hp))
    stack_flags fine
  have stack : StackMapped roots (execMapped s b).1.mem phys := fun p hp =>
    ⟨small_of_bound (block _ (Nat.le_add_right _ p) (Nat.add_lt_add_left hp _)).2.1, pages.pages p hp⟩
  refine ⟨_, L', mapped, stack, fun mem off i bound here => ?_⟩
  obtain ⟨-, words⟩ := mapped.fillStack stack off
  have there : Placed roots 0 (execData s b) (execSpace s b).1.mem (phdr (execData s b) i) := placed i bound here
  exact Placed.beside (t := { (execSpace s b).1 with
    pmm := (pmmAllocPages (execSpace s b).1.pmm userStackPages).1 }) there lent pages (Phdr.low_of_low (file.low i bound here))
    (fun v page p hp slot => clear.slots file bound here page hp slot.2) off (words 0)

end Mapping

/-- What a program is to find once `do_exec` has committed to it: segments and heap that
are no part of the stack, the bytes of its image, and the stack as `build_initial_stack`
made it. -/
structure Delivered (data : ElfData) (argv envp : List CString) (seed : Word) (image : ElfImage) (c' : Caller)
    (p : Nat) : Prop where
  segments : ∀ i < ePhnum data, (phdr data i).Loaded → ∀ x, (phdr data i).Touches x → ¬ StackPage x
  heap : ¬ StackPage (vpn (c'.kernel.procs p).heapStart)
  bytes : ∀ i < ePhnum data, (phdr data i).Loaded → ∀ b < (phdr data i).memsz.toNat,
    userRead c'.kernel.vm (c'.kernel.procs p).pml4 ((phdr data i).vaddr + BitVec.ofNat 64 b) =
      some (if b < (phdr data i).filesz.toNat then data ((phdr data i).offset + BitVec.ofNat 64 b) else 0)
  stack : ∃ phys mem,
    let r := buildInitialStack phys userStackBase (userStackPages * 4096) (stage maxExecArgs execArgMaxlen argv)
      (stage maxExecEnvs execEnvMaxlen envp)
      ⟨image.entry, image.phdrVaddr, image.phentsize, image.phnum, seed⟩ mem
    c'.frame.rsp = r.2 ∧ ∀ o < userStackPages * 4096,
      userRead c'.kernel.vm (c'.kernel.procs p).pml4 (userStackBase + BitVec.ofNat 64 o) =
        some (bufferByte r.1 phys o)

section Exec

variable {F : Type} (fs : Foreign F) (elsewhere : F → Nat → FileReader)
  {c : Caller} {files : Files F} {path : List Char} {argv envp : List CString}
  {seed : Word} {p : Nat} {s : Vm} {b : FileBuffer}

theorem Delivered.clear {data : ElfData} {size : Word} {image : ElfImage} {c' : Caller}
    (file : ImageFile data size) (highest : HighestBefore data (ePhnum data) (c'.kernel.procs p).heapStart)
    (h : Delivered data argv envp seed image c' p) : StackClear data := by
  have segments := fun i bound loaded => (Phdr.clear_iff loaded.memsz_pos).mp
    (h.segments i bound loaded)
  exact ⟨segments, (highest.clear_iff file segments).mp h.heap⟩

theorem doExec_delivers (zero : Held c.kernel.vm.pmm 0)
    (program : execProgram fs elsewhere c files path = some (p, s, b))
    (file : ImageFile (execData s b) (BitVec.ofNat 64 b.total))
    (done : (doExec fs elsewhere c files path argv envp seed).2 = 0) (backed : ExecBacked s b)
    (clear : StackClear (execData s b)) {image : ElfImage} (loaded : (execSpace s b).2.2 = some image) :
    Delivered (execData s b) argv envp seed image (doExec fs elsewhere c files path argv envp seed).1 p := by
  obtain ⟨reader, image', rfl, committed⟩ := doExec_committed program done
  obtain rfl : image = image' := Option.some.inj (loaded.symm.trans committed.loaded)
  have reading := (vfsReadFileAlloc_reads reader zero).reading committed.read
  obtain ⟨start, rsp, laid, off⟩ := committed.stackLaid
  have agree := (agree_unflagged (vfsReadFileAlloc reader c.kernel.vm).1).execMapped b
  have spaces := (agree_unflagged (vfsReadFileAlloc reader c.kernel.vm).1).execSpace b
  have block := spaces.1.allocPages userStackPages
  have same := execData_unflagged (vfsReadFileAlloc reader c.kernel.vm).1 b
  obtain ⟨scope, L, sound, stack, placed⟩ := reading.unflagged.imageMapped (by rw [same]; exact file)
    (by rw [same]; exact clear) (by rw [← spaces.2.2, committed.loaded]; rfl)
    (by rw [← block.1]; exact committed.stack) backed
  rw [← agree.2] at sound stack placed
  have fill : ∀ f, _ → _ := fun f out => (off f out).trans (congrFun agree.1 f)
  have reads := fun o inside => sound.readStack stack (s := (doExec fs elsewhere c files path argv envp seed).1.kernel.vm)
    fill (o := o) inside
  have whole := placed _ fill
  obtain ⟨filled, -⟩ := sound.fillStack stack fill
  rw [same] at whole
  have heap : HighestBefore (execData (vfsReadFileAlloc reader c.kernel.vm).1 b)
      (ePhnum (execData (vfsReadFileAlloc reader c.kernel.vm).1 b)) image.highestVaddr :=
    elfLoad_highest committed.loaded
  refine ⟨fun i bound here => (Phdr.clear_iff here.memsz_pos).mpr (clear.segments i bound here), ?_,
    fun i bound here o low => ?_, _, _, committed.rsp, fun o inside => ?_⟩
  · rw [committed.heap]
    exact (heap.clear_iff file clear.segments).mpr clear.heap
  · have lowI := file.low i bound here
    have place := Phdr.byte_toNat lowI low
    obtain ⟨-, -, -, byte⟩ := Placed.reads file filled rfl bound here (whole i bound here)
      (v := (phdr (execData _ b) i).vaddr + BitVec.ofNat 64 o)
      (by rw [lowHalf, decide_eq_true_eq, place]; omega)
      (by rw [Phdr.Touches, vpn, place]; omega)
    rw [committed.pml4]
    refine byte.trans ?_
    rw [place, Nat.add_sub_cancel_left]
    exact congrArg some (if_congr (by omega) rfl rfl)
  · rw [committed.pml4, reads o inside, committed.mem]

/-- A program is delivered exactly when its segments leave the stack and the page below it
alone, given memory for the page tables; four pages for each page of the segments and
seventeen more are enough of that. -/
theorem exec_delivers_iff (c : Caller) (files : Files F) (path : List Char) (argv envp : List CString)
    (seed : Word) (p : Nat) (s : Vm) (b : FileBuffer) (zero : Held c.kernel.vm.pmm 0)
    (program : execProgram fs elsewhere c files path = some (p, s, b))
    (file : ImageFile (execData s b) (BitVec.ofNat 64 b.total))
    (done : (doExec fs elsewhere c files path argv envp seed).2 = 0) :
    let c' := (doExec fs elsewhere c files path argv envp seed).1
    ∃ image, (execSpace s b).2.2 = some image ∧
      (Delivered (execData s b) argv envp seed image c' p → StackClear (execData s b)) ∧
      (ExecBacked s b → StackClear (execData s b) → Delivered (execData s b) argv envp seed image c' p) ∧
      (4 * pagesBefore (execData s b) (ePhnum (execData s b)) + 17 ≤ freeFrames s.pmm → ExecBacked s b) := by
  intro c'
  obtain ⟨reader, image, state, committed⟩ := doExec_committed program done
  have loaded : (execSpace s b).2.2 = some image := by rw [state]; exact committed.loaded
  refine ⟨image, loaded, fun delivered => ?_, fun backed clear => ?_, fun enough => ?_⟩
  · refine delivered.clear file ?_
    rw [committed.heap]
    exact elfLoad_highest loaded
  · exact doExec_delivers fs elsewhere zero program file done backed clear loaded
  · subst state
    have reading := (vfsReadFileAlloc_reads reader zero).reading committed.read
    exact execMapped_backed (reading.lent.grown.held zero) reading.nonzero enough

end Exec

/-- `/a` executed with nothing. -/
def bareExec (data : ElfData) : Caller × Int :=
  doExec consoleOnly noReader (loneCaller (programVm data)) (oneProgram 120#64) ['/', 'a'] [] [] 1#64

deriving instance DecidableEq for Phdr

/-- A segment of 200 bytes that starts with the 120 bytes of its file. -/
def fileSegment (vaddr : Word) : Phdr := ⟨1, 6#64, 0#64, vaddr, 120#64, 200#64⟩

theorem oneSegment_file {data : ElfData} {vaddr : Word} (accepted : elfAccepted data 120#64 = true)
    (one : ePhnum data = 1) (header : phdr data 0 = fileSegment vaddr) (low : vaddr.toNat + 200 ≤ 2 ^ 47) :
    ImageFile data 120#64 := by
  have first : ∀ i < ePhnum data, i = 0 := fun i bound => by omega
  refine ⟨accepted, fun i bound _ => ?_, fun i bound _ => ?_, fun i bound _ => ?_, fun i bound j bound' other => ?_⟩
  · rw [first i bound, header]
    exact (show 120 ≤ 200 by decide)
  · rw [first i bound, header]
    exact (show 0 + 120 ≤ 120 by decide)
  · rw [first i bound, header]
    exact low
  · rw [first i bound, first j bound'] at other
    exact absurd rfl other

theorem fileSegment_loaded (vaddr : Word) : (fileSegment vaddr).Loaded := ⟨rfl, show 200#64 ≠ 0#64 by decide⟩

theorem tinyElf_header : ePhnum (execData (programRead tinyElf) ⟨4, 4, 120⟩) = 1 ∧
    phdr (execData (programRead tinyElf) ⟨4, 4, 120⟩) 0 = fileSegment 0x400000#64 := by
  decide +kernel

theorem exec_delivers_tinyElf :
    userRead (bareExec tinyElf).1.kernel.vm ((bareExec tinyElf).1.kernel.procs 0).pml4 0x400001#64 = some 0x45 := by
  obtain ⟨one, header⟩ := tinyElf_header
  have second : execData (programRead tinyElf) ⟨4, 4, 120⟩ 1#64 = 0x45 := by decide +kernel
  have file : ImageFile (execData (programRead tinyElf) ⟨4, 4, 120⟩) (BitVec.ofNat 64 120) :=
    oneSegment_file (by decide +kernel) one header (by decide)
  have clear : StackClear (execData (programRead tinyElf) ⟨4, 4, 120⟩) := by
    refine ⟨fun i bound _ => .inl ?_, ?_⟩
    · obtain rfl : i = 0 := by omega
      rw [header]
      decide
    · rintro ⟨i, bound, -, later, -⟩
      obtain rfl : i = 0 := by omega
      rw [header] at later
      exact absurd later (by decide)
  obtain ⟨image, -, -, delivers, -⟩ := exec_delivers_iff consoleOnly noReader (loneCaller (programVm tinyElf))
    (oneProgram 120#64) ['/', 'a'] [] [] 1#64 0 (programRead tinyElf) ⟨4, 4, 120⟩ tinyElf_zero
    (programVm_program tinyElf_read) file (by decide +kernel)
  have bytes := (delivers tinyElf_backed clear).bytes 0
  rw [one, header] at bytes
  have byte := bytes (by decide) (fileSegment_loaded _) 1 (by decide)
  have place : (fileSegment 0x400000#64).vaddr + BitVec.ofNat 64 1 = 0x400001#64 := by decide
  have offset : (fileSegment 0x400000#64).offset + BitVec.ofNat 64 1 = 1#64 := by decide
  rw [place, offset, if_pos (by decide), second] at byte
  unfold bareExec
  exact byte

/-- The same program, linked at the address of the second stack page. -/
def stackElf : ElfData := fun i => if i = 81#64 then 0xd0 else if i = 82#64 then 0x5f else tinyElf i

theorem stackElf_header : ePhnum (execData (programRead stackElf) ⟨4, 4, 120⟩) = 1 ∧
    phdr (execData (programRead stackElf) ⟨4, 4, 120⟩) 0 = fileSegment 0x5fd000#64 := by
  decide +kernel

/-- The first byte of its image is gone once the stack is mapped. -/
theorem exec_maps_stack_over_segment :
    let data := execData (programRead stackElf) ⟨4, 4, 120⟩
    ImageFile data (BitVec.ofNat 64 120) ∧ ExecBacked (programRead stackElf) ⟨4, 4, 120⟩ ∧
      (bareExec stackElf).2 = 0 ∧ ∀ image, ¬ Delivered data [] [] 1#64 image (bareExec stackElf).1 0 := by
  intro data
  obtain ⟨one, header⟩ := stackElf_header
  have file : ImageFile data (BitVec.ofNat 64 120) := oneSegment_file (by decide +kernel) one header (by decide)
  refine ⟨file, by rw [ExecBacked]; decide +kernel, by decide +kernel, fun image delivered => ?_⟩
  have bytes := delivered.bytes 0
  rw [one, header] at bytes
  have byte := bytes (by decide) (fileSegment_loaded _) 0 (by decide)
  have gone : userRead (bareExec stackElf).1.kernel.vm ((bareExec stackElf).1.kernel.procs 0).pml4
      ((fileSegment 0x5fd000#64).vaddr + BitVec.ofNat 64 0) = some 0 := by decide +kernel
  have first : data ((fileSegment 0x5fd000#64).offset + BitVec.ofNat 64 0) = 0x7f := by decide +kernel
  rw [gone, if_pos (by decide), first] at byte
  exact absurd (Option.some.inj byte) (by decide)

end Isunux
