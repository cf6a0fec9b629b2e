import Isunux.ElfImage
import Isunux.Budget
import Isunux.ExecStack

/-! The address space a committed `do_exec` ends with. Everything it is made of was free
when the file had been read, so the accounts can be kept for those pages alone and
nothing has to be known about the rest of the machine. -/
namespace Isunux

open Radix

section Blocks

variable {K : Type*} {roots : K → Option Nat} {scope : Nat → Prop} {s : Vm} {L : Finset (Ref K × Nat)}

theorem Sound.refill (w : Sound scope roots s L) {mem : PhysMem} (same : ∀ f, scope f → mem f = s.mem f) :
    Sound scope roots { s with mem := mem } L ∧
      ∀ k q l, LowPath (q ++ [l]) → leafWord roots mem k q l = leafWord roots s.mem k q l := by
  obtain ⟨forest, -, words⟩ := w.owned.forest.frame mem fun k q f low _ here =>
    same f (w.owned.accounts.balanced.within _ (w.owned.mem_of_at low here))
  refine ⟨⟨⟨forest, w.owned.accounts, w.owned.sub⟩, ?_⟩, words⟩
  intro k₁ q₁ l₁ e₁ k₂ q₂ l₂ e₂ low₁ len₁ low₂ len₂ h₁ h₂
  rw [words _ _ _ low₁] at h₁
  rw [words _ _ _ low₂] at h₂
  exact w.shared _ _ _ _ _ _ _ _ low₁ len₁ low₂ len₂ h₁ h₂

theorem Sound.lend (w : Sound scope roots s L) {n : Nat} (ok : (pmmAllocPages s.pmm n).2 ≠ 0) :
    let start := (pmmAllocPages s.pmm n).2
    Sound (fun f => scope f ∧ ¬ (start ≤ f ∧ f < start + n)) roots
        { s with pmm := (pmmAllocPages s.pmm n).1 } L ∧
      Apart (fun f => scope f ∧ ¬ (start ≤ f ∧ f < start + n)) (pmmAllocPages s.pmm n).1 start (start + n) ∧
      ∀ f, start ≤ f → f < start + n → scope f := by
  intro start
  obtain ⟨accounts, block⟩ := w.owned.accounts.lend ok
  refine ⟨⟨⟨w.owned.forest, accounts, w.owned.sub⟩, w.shared⟩, fun f lower upper => ?_,
    fun f lower upper => (block f lower upper).1⟩
  obtain ⟨inScope, -, used, owner⟩ := block f lower upper
  obtain ⟨bound, nonzero⟩ := w.owned.accounts.tracked f inScope
  rw [← (pmmAllocPages_grown s.pmm n).total] at bound
  exact ⟨fun inside => inside.2 ⟨lower, upper⟩, bound, nonzero, used, owner⟩

theorem Sound.giveBack (w : Sound scope roots s L) {lo n : Nat} (block : Apart scope s.pmm lo (lo + n)) :
    Sound (fun f => scope f ∨ (lo ≤ f ∧ f < lo + n)) roots { s with pmm := pmmFreePages s.pmm lo n } L :=
  ⟨⟨w.owned.forest, w.owned.accounts.widen block, w.owned.sub⟩, w.shared⟩

variable {k : K} {pml4 : Nat} {data : ElfData} {ph : Phdr} [DecidableEq K] [Fintype K]

theorem Sound.loadOver (w : Sound scope roots s L) (one : Fintype.card K ≤ 1) (root : roots k = some pml4)
    (inside : ph.Inside) (low : ph.Low) (ok : (Isunux.loadSegment data pml4 ph s).2 = true)
    (fine : (Isunux.loadSegment data pml4 ph s).1.pmm.exhausted = false) :
    ∃ scope' L', (∀ f, scope' f → scope f) ∧ Sound scope' roots (Isunux.loadSegment data pml4 ph s).1 L' := by
  unfold Isunux.loadSegment at ok fine ⊢
  dsimp only at ok fine ⊢
  by_cases failed : (pmmAllocPages s.pmm ph.numPages).2 = 0
  · rw [if_pos failed] at ok
    cases ok
  rw [if_neg failed] at fine ⊢
  obtain ⟨lent, block, inScope⟩ := w.lend failed
  obtain ⟨filled, -⟩ := @Sound.refill _ _ _ _ _ lent (copySegment data ph (pmmAllocPages s.pmm ph.numPages).2
    ((List.range ph.numPages).foldl (fun mem p => zeroFrame mem ((pmmAllocPages s.pmm ph.numPages).2 + p)) s.mem))
    fun f off => by rw [copySegment_off inside _ off.2, zeroed_off _ off.2]
  obtain ⟨scope', L', within, sound, -, -⟩ :=
    filled.mapOverPages one block low root ph.kind_flags fine
  exact ⟨scope', L', fun f h => (within f h).elim And.left fun range => inScope f range.1 range.2, sound⟩

/-- Every loadable segment lies in the low half, and its bytes fit into its pages. -/
def Contained (data : ElfData) : Prop :=
  ∀ i < ePhnum data, (phdr data i).Loaded → (phdr data i).Inside ∧ (phdr data i).Low

theorem loadSegment_exhausted (h : s.pmm.exhausted = true) :
    (loadSegment data pml4 ph s).1.pmm.exhausted = true := by
  have flag : (pmmAllocPages s.pmm ph.numPages).1.exhausted = true := by
    rcases pmmAllocPages_cases s.pmm ph.numPages with e | ⟨_, _, _, _, e⟩
    · rw [e]
      exact h
    · rw [e]
      exact h
  unfold loadSegment
  dsimp only
  split
  · exact flag
  · exact mapPages_exhausted (n := 0) ph.numPages (Nat.zero_le _) flag

theorem loadSegments_exhausted {n i : Nat} {st : ElfProgress} (h : st.vm.pmm.exhausted = true) :
    (loadSegments data pml4 n i st).1.vm.pmm.exhausted = true := by
  induction n generalizing i st with
  | zero => exact h
  | succ n ih =>
    by_cases loaded : (phdr data i).Loaded
    · have here := @loadSegment_exhausted _ pml4 data (phdr data i) h
      cases ok : (loadSegment data pml4 (phdr data i) st.vm).2 with
      | true =>
        rw [loadSegments_loaded loaded ok]
        exact ih here
      | false =>
        rw [loadSegments_failed loaded ok]
        exact here
    · rw [loadSegments_skipped loaded]
      exact ih h

theorem Sound.loadAllOver {n i : Nat} {st : ElfProgress} (w : Sound scope roots st.vm L)
    (one : Fintype.card K ≤ 1) (root : roots k = some pml4) (contained : Contained data)
    (rest : i + n = ePhnum data) (ok : (loadSegments data pml4 n i st).2 = true)
    (fine : (loadSegments data pml4 n i st).1.vm.pmm.exhausted = false) :
    ∃ scope' L', (∀ f, scope' f → scope f) ∧ Sound scope' roots (loadSegments data pml4 n i st).1.vm L' := by
  induction n generalizing i st scope L with
  | zero => exact ⟨scope, L, fun _ h => h, w⟩
  | succ n ih =>
    by_cases loaded : (phdr data i).Loaded
    · cases here : (Isunux.loadSegment data pml4 (phdr data i) st.vm).2 with
      | true =>
        rw [loadSegments_loaded loaded here] at ok fine ⊢
        obtain ⟨inside, low⟩ := contained i (by omega) loaded
        have fineHere : (Isunux.loadSegment data pml4 (phdr data i) st.vm).1.pmm.exhausted = false := by
          by_contra bad
          have flag : (Isunux.loadSegment data pml4 (phdr data i) st.vm).1.pmm.exhausted = true := by simpa using bad
          have later :=
            @loadSegments_exhausted pml4 data n (i + 1)
              (st.past data (phdr data i) (Isunux.loadSegment data pml4 (phdr data i) st.vm).1) flag
          rw [fine] at later
          cases later
        obtain ⟨scope', L', within, sound⟩ := w.loadOver one root inside low here fineHere
        obtain ⟨scope'', L'', within', sound'⟩ := ih sound (by omega) ok fine
        exact ⟨scope'', L'', fun f h => within f (within' f h), sound'⟩
      | false =>
        rw [loadSegments_failed loaded here] at ok
        cases ok
    · rw [loadSegments_skipped loaded] at ok fine ⊢
      exact ih w (by omega) ok fine

end Blocks

/-! From the file's buffer to the mapped stack -/

/-- The machine once the stack is mapped, with the new PML4 and the stack's first page. -/
def execMapped (s : Vm) (b : FileBuffer) : Vm × Nat × Nat :=
  let l := execSpace s b
  let a := pmmAllocPages l.1.pmm userStackPages
  (mapStack { l.1 with pmm := a.1 } l.2.1 a.2, l.2.1, a.2)

/-- The file as `elf_load` is given it. -/
def execData (s : Vm) (b : FileBuffer) : ElfData := bufferData (vmmNewAddressSpace s).1.mem b

section Flags

theorem elfLoad_exhausted {s : Vm} {pml4 : Nat} {data : ElfData} {size : Word} (h : s.pmm.exhausted = true) :
    (elfLoad s pml4 data size).1.pmm.exhausted = true := by
  unfold elfLoad
  cases elfAccepted data size with
  | true => exact loadSegments_exhausted h
  | false => exact h

theorem execMapped_fine {s : Vm} {b : FileBuffer} (fine : (execMapped s b).1.pmm.exhausted = false) :
    (elfLoad (vmmNewAddressSpace s).1 (vmmNewAddressSpace s).2 (execData s b)
      (BitVec.ofNat 64 b.total)).1.pmm.exhausted = false ∧
      (vmmNewAddressSpace s).1.pmm.exhausted = false := by
  have loader : (elfLoad (vmmNewAddressSpace s).1 (vmmNewAddressSpace s).2 (execData s b)
      (BitVec.ofNat 64 b.total)).1.pmm.exhausted = false := by
    by_contra bad
    have freed : (execSpace s b).1.pmm.exhausted = true :=
      (pmmFreePages_exhausted _ _ _).trans (eq_true_of_ne_false bad)
    have later : (execMapped s b).1.pmm.exhausted = true :=
      mapPages_exhausted (n := 0) userStackPages (Nat.zero_le _) ((pmmAllocPages_exhausted _ _).trans freed)
    rw [fine] at later
    cases later
  refine ⟨loader, ?_⟩
  by_contra bad
  rw [elfLoad_exhausted (eq_true_of_ne_false bad)] at loader
  cases loader

end Flags

section Making

variable {s₀ s : Vm} {b : FileBuffer} {scope : Nat → Prop} {L : Finset (Ref (Fin 1) × Nat)} {pml4 : Nat}

theorem Reading.apart (h : Reading s₀ s b) {t : Vm} (within : ∀ f, scope f → freeAtStart s.pmm f)
    (grown : Grown s.pmm t.pmm) : Apart scope t.pmm b.phys (b.phys + b.pages) := by
  intro f lower upper
  obtain ⟨bound, -, used, sole⟩ := h.lent.fresh f lower upper
  have nonzero := h.nonzero
  have later := grown.used f used
  refine ⟨fun inside => ?_, ?_, by omega, later.1, ?_⟩
  · rw [(within f inside).1] at used
    cases used
  · rw [grown.total, h.lent.total]
    exact bound
  · rw [Pmm.owners, later.2, sole]
    rfl

theorem stack_flags : (pteWrite ||| pteUser) ||| ptePresent = Kind.rw.flags := by decide

theorem stack_low : userStackBase.toNat + userStackPages * 4096 ≤ 2 ^ 47 := by decide

theorem elfLoad_done {data : ElfData} {size : Word} (done : (elfLoad s pml4 data size).2.isSome = true) :
    elfAccepted data size = true ∧ (loadSegments data pml4 (ePhnum data) 0 ⟨s, 0#64, 0#64⟩).2 = true ∧
      (elfLoad s pml4 data size).1 = (loadSegments data pml4 (ePhnum data) 0 ⟨s, 0#64, 0#64⟩).1.vm := by
  unfold elfLoad at done ⊢
  cases accepted : elfAccepted data size with
  | false =>
    rw [accepted] at done
    cases done
  | true =>
    rw [accepted, if_pos rfl] at done
    rw [if_pos rfl]
    cases all : (loadSegments data pml4 (ePhnum data) 0 ⟨s, 0#64, 0#64⟩).2 with
    | false =>
      dsimp only at done
      rw [all] at done
      cases done
    | true => exact ⟨rfl, rfl, rfl⟩

/-- The pages of the stack are in place. -/
def StackMapped (roots : Fin 1 → Option Nat) (mem : PhysMem) (phys : Nat) : Prop :=
  ∀ p < userStackPages, phys + p < 2 ^ 52 ∧ leafWord roots mem 0 (tablePath (pageOfRange userStackBase p))
    (ptIdx (pageOfRange userStackBase p)) = some (leafEntry (phys + p) .rw)

theorem Reading.stackMapped (h : Reading s₀ s b) (contained : Contained (execData s b))
    (loaded : (execSpace s b).2.2.isSome = true)
    (ok : (pmmAllocPages (execSpace s b).1.pmm userStackPages).2 ≠ 0)
    (fine : (execMapped s b).1.pmm.exhausted = false) :
    ∃ scope L, Sound scope (only (execMapped s b).2.1) (execMapped s b).1 L ∧
      StackMapped (only (execMapped s b).2.1) (execMapped s b).1.mem (execMapped s b).2.2 := by
  obtain ⟨fineLoad, fineSpace⟩ := execMapped_fine fine
  obtain ⟨⟨L₀, space⟩, -⟩ := newSpace_sound fineSpace
  obtain ⟨-, all, same⟩ := @elfLoad_done _ _ (execData s b) _ loaded
  rw [same] at fineLoad
  obtain ⟨scope, L, within, sound⟩ :=
    @Sound.loadAllOver _ _ _ _ 0 _ _ _ _ _ _ ⟨(vmmNewAddressSpace s).1, 0#64, 0#64⟩ space le_rfl rfl contained
      (Nat.zero_add _) all fineLoad
  rw [← same] at sound
  have grown := (pmmAllocPage_grown s.pmm).trans
    (elfLoad_grown (vmmNewAddressSpace s).1 (vmmNewAddressSpace s).2 (execData s b) (BitVec.ofNat 64 b.total))
  have back := sound.giveBack (h.apart within grown)
  obtain ⟨lent, block, -⟩ := back.lend ok
  obtain ⟨scope', L', -, mapped, pages, -⟩ := lent.mapOverPages le_rfl block stack_low (k := 0) rfl stack_flags fine
  exact ⟨scope', L', mapped, fun p hp => ⟨small_of_bound
    (block _ (Nat.le_add_right _ p) (Nat.add_lt_add_left hp _)).2.1, pages p hp⟩⟩

theorem Sound.fillStack {t : Vm} {phys : Nat} (w : Sound scope (only pml4) t L)
    (stack : StackMapped (only pml4) t.mem phys) {mem : PhysMem}
    (off : ∀ f, ¬ (phys ≤ f ∧ f < phys + userStackPages) → mem f = t.mem f) :
    Sound scope (only pml4) { t with mem := mem } L ∧
      ∀ k q l, LowPath (q ++ [l]) → leafWord (only pml4) mem k q l = leafWord (only pml4) t.mem k q l := by
  obtain ⟨forest, -, words⟩ := w.owned.forest.frame mem fun k q f low short here => off f fun range => by
    obtain ⟨small, page⟩ := stack (f - phys) (by omega)
    have lowP := tablePath_low (lowHalf_idx (pageOfRange_low stack_low (p := f - phys) (by omega)))
    have leaf := at_leaf.mpr ⟨_, page, leafEntry_frame small _⟩
    rw [show phys + (f - phys) = f by omega] at leaf
    have same := (w.owned.unique low short here lowP leaf).2
    rw [← same] at short
    simp [tablePath] at short
  refine ⟨⟨⟨forest, w.owned.accounts, w.owned.sub⟩, ?_⟩, words⟩
  intro k₁ q₁ l₁ e₁ k₂ q₂ l₂ e₂ low₁ len₁ low₂ len₂ h₁ h₂
  rw [words _ _ _ low₁] at h₁
  rw [words _ _ _ low₂] at h₂
  exact w.shared _ _ _ _ _ _ _ _ low₁ len₁ low₂ len₂ h₁ h₂

theorem Sound.readStack {t : Vm} {phys : Nat} (w : Sound scope (only pml4) t L)
    (stack : StackMapped (only pml4) t.mem phys) {s : Vm}
    (off : ∀ f, ¬ (phys ≤ f ∧ f < phys + userStackPages) → s.mem f = t.mem f) {o : Nat}
    (inside : o < userStackPages * 4096) :
    userRead s pml4 (userStackBase + BitVec.ofNat 64 o) = some (bufferByte s.mem phys o) := by
  obtain ⟨sound, words⟩ := w.fillStack stack off
  have top : userStackPages * 4096 = 16384 := rfl
  have base : userStackBase.toNat = 6275072 := rfl
  have place : (userStackBase + BitVec.ofNat 64 o).toNat = 6275072 + o := by
    rw [BitVec.toNat_add, BitVec.toNat_ofNat, base]
    omega
  have page : (pageOfRange userStackBase (o / 4096)).toNat = 6275072 + o / 4096 * 4096 := by
    rw [pageOfRange, BitVec.toNat_add, BitVec.toNat_ofNat, base]
    omega
  have low : lowHalf (userStackBase + BitVec.ofNat 64 o) = true := by
    rw [lowHalf, decide_eq_true_eq, place]
    omega
  have four : o / 4096 < userStackPages := by
    rw [show userStackPages = 4 from rfl]
    omega
  have lowP := pageOfRange_low stack_low four
  have slot := (same_slot_iff low lowP).mpr (by rw [vpn, vpn, place, page]; omega)
  obtain ⟨small, leaf⟩ := stack (o / 4096) four
  rw [← slot.1, ← slot.2] at leaf
  rw [userRead, sound.owned.userLeaf (k := 0) rfl low, words 0 _ _ (tablePath_low (lowHalf_idx low)), leaf,
    Option.map_some, leafEntry_frame small, pageOffset, place, bufferByte]
  congr 2
  omega

end Making

/-! The flag of the allocator decides nothing here either. -/

section Agreeing

variable {s t : Vm}

theorem Agree.newSpace (h : Agree s t) : Agree (vmmNewAddressSpace s).1 (vmmNewAddressSpace t).1 ∧
    (vmmNewAddressSpace s).2 = (vmmNewAddressSpace t).2 := by
  obtain ⟨page, pmm⟩ := h.alloc
  have same := agree_iff.mp h
  unfold vmmNewAddressSpace
  dsimp only
  rw [page, same.2.1, same.2.2]
  exact ⟨agree_iff.mpr ⟨pmm, rfl, rfl⟩, rfl⟩

theorem execData_unflagged (s : Vm) (b : FileBuffer) : execData s.unflagged b = execData s b := by
  rw [execData, execData, (agree_unflagged s).newSpace.1.mem]

theorem Agree.elfLoad (h : Agree s t) (pml4 : Nat) (data : ElfData) (size : Word) :
    Agree (elfLoad s pml4 data size).1 (elfLoad t pml4 data size).1 ∧
      (elfLoad s pml4 data size).2.isSome = (elfLoad t pml4 data size).2.isSome := by
  obtain ⟨same, agree, -⟩ := @Agree.loadSegments _ _ (ePhnum data) 0 ⟨s, 0#64, 0#64⟩ ⟨t, 0#64, 0#64⟩ h rfl
  unfold Isunux.elfLoad
  cases elfAccepted data size with
  | false => exact ⟨h, rfl⟩
  | true =>
    refine ⟨agree, ?_⟩
    rw [if_pos rfl, if_pos rfl]
    dsimp only
    rw [same]
    split
    · rfl
    · rfl

theorem pmmFreePages_unflagged (p : Pmm) (f n : Nat) :
    (pmmFreePages p.unflagged f n).unflagged = (pmmFreePages p f n).unflagged := by
  unfold pmmFreePages
  induction n with
  | zero => rfl
  | succ n ih =>
    rw [List.range_succ, List.foldl_append, List.foldl_append]
    rw [List.foldl_cons, List.foldl_nil, List.foldl_cons, List.foldl_nil, pmmFreePage_unflagged, ih,
      ← pmmFreePage_unflagged]

theorem Agree.freePages (h : Agree s t) (f n : Nat) :
    Agree { s with pmm := pmmFreePages s.pmm f n } { t with pmm := pmmFreePages t.pmm f n } := by
  have same := agree_iff.mp h
  refine agree_iff.mpr ⟨?_, same.2.1, same.2.2⟩
  dsimp only
  rw [← pmmFreePages_unflagged s.pmm, same.1, pmmFreePages_unflagged t.pmm]

theorem Agree.execSpace (h : Agree s t) (b : FileBuffer) :
    Agree (execSpace s b).1 (execSpace t b).1 ∧ (execSpace s b).2.1 = (execSpace t b).2.1 ∧
      (execSpace s b).2.2.isSome = (execSpace t b).2.2.isSome := by
  obtain ⟨space, root⟩ := h.newSpace
  unfold Isunux.execSpace
  dsimp only
  rw [root, space.mem]
  obtain ⟨loaded, same⟩ := space.elfLoad (vmmNewAddressSpace t).2
    (bufferData (vmmNewAddressSpace t).1.mem b) (BitVec.ofNat 64 b.total)
  exact ⟨loaded.freePages b.phys b.pages, rfl, same⟩

theorem Agree.execMapped (h : Agree s t) (b : FileBuffer) :
    (execMapped s b).1.mem = (execMapped t b).1.mem ∧ (execMapped s b).2 = (execMapped t b).2 := by
  obtain ⟨agree, root, -⟩ := h.execSpace b
  obtain ⟨start, pmm⟩ := agree.allocPages userStackPages
  have same := agree_iff.mp agree
  have base : Agree { (Isunux.execSpace s b).1 with pmm := (pmmAllocPages (Isunux.execSpace s b).1.pmm userStackPages).1 }
      { (Isunux.execSpace t b).1 with pmm := (pmmAllocPages (Isunux.execSpace t b).1.pmm userStackPages).1 } :=
    agree_iff.mpr ⟨pmm, same.2.1, same.2.2⟩
  unfold Isunux.execMapped
  dsimp only
  rw [root, start]
  exact ⟨(base.mapPages _ userStackBase _ _ userStackPages).mem, rfl⟩

theorem Reading.unflagged {s₀ : Vm} {b : FileBuffer} (h : Reading s₀ s b) : Reading s₀ s.unflagged b :=
  ⟨⟨h.lent.total, h.lent.fresh, h.lent.bitmap, h.lent.refcount⟩, h.nonzero, h.mem, h.kernel, h.room⟩

end Agreeing

end Isunux
