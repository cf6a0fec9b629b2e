import Isunux.Fence
import Isunux.UserMemory

/-! The kernel half of the address spaces under `process_brk`, `process_mmap`,
`process_munmap` and `elf_load`. None of the four looks at which half an address is
in. They leave the kernel half alone as long as the pages they get to are low. -/
namespace Isunux

open Radix

/-- The tables below entries 256 to 511 of a PML4, with their depth. An entry of a
page directory with the huge bit is a page, not a table. -/
inductive HighTable (mem : PhysMem) (root : Nat) : Nat → Nat → Prop
  | pdpt {i f : Nat} : 256 ≤ i → i < 512 → pteChild (mem root i) = some f → HighTable mem root 1 f
  | child {n f j g : Nat} : HighTable mem root n f → n < 3 → j < 512 →
      pteChild (mem f j) = some g → (n = 2 → hasBits (mem f j) pteHuge = false) →
      HighTable mem root (n + 1) g

/-- The frames mapped in the kernel half: by a page table, or by a 2 MiB entry. -/
inductive HighPage (mem : PhysMem) (root : Nat) : Nat → Prop
  | small {pt l f : Nat} : HighTable mem root 3 pt → l < 512 → pteChild (mem pt l) = some f →
      HighPage mem root f
  | huge {pd k f : Nat} : HighTable mem root 2 pd → k < 512 →
      hasBits (mem pd k) ptePresent = true → hasBits (mem pd k) pteHuge = true →
      pteFrame (mem pd k) ≤ f → f < pteFrame (mem pd k) + 512 → HighPage mem root f

/-- The slots that make up the kernel half of the address spaces `spaces`. -/
def Guarded (mem : PhysMem) (spaces : Nat → Prop) (f j : Nat) : Prop :=
  j < 512 ∧ ((spaces f ∧ 256 ≤ j) ∨ ∃ root n, spaces root ∧ HighTable mem root n f)

/-- A call of the process with `pml4` changed no entry of the kernel half and took
no owner from a page that is mapped there and not in the process's low half. -/
structure KernelHalfKept (spaces : Nat → Prop) (pml4 : Nat) (s t : Vm) : Prop where
  entries : ∀ f j, Guarded s.mem spaces f j → t.mem f j = s.mem f j
  pages : ∀ root f, spaces root → HighPage s.mem root f → ¬ LowPage s.mem pml4 f →
    s.pmm.bitmap f = true → t.pmm.bitmap f = true ∧ t.pmm.refcount f = s.pmm.refcount f

/-- The paging state as vmm.c builds it while no table allocation has failed: frame
zero is no table, and the tables of the two halves are apart. -/
structure KernelApart (spaces : Nat → Prop) (pml4 : Nat) (s : Vm) : Prop where
  own : spaces pml4
  fenced : Fenced (Guarded s.mem spaces) pml4 s

section Unmapping

variable {G : Nat → Nat → Prop} {pml4 : Nat} {s t : Vm}

/-- Pages in use that are not low pages of the process keep their owners. -/
def PagesKept (pml4 : Nat) (s t : Vm) : Prop :=
  ∀ f, s.pmm.bitmap f = true → ¬ LowPage s.mem pml4 f →
    t.pmm.bitmap f = true ∧ t.pmm.refcount f = s.pmm.refcount f

theorem Grown.pagesKept (grown : Grown s.pmm t.pmm) : PagesKept pml4 s t :=
  fun f used _ => grown.used f used

/-- An address that can be unmapped: its page table is open, and its page was free
in `s` or is a low page there. -/
def Loose (G : Nat → Nat → Prop) (pml4 : Nat) (s t : Vm) (v : Word) : Prop :=
  (∀ x, reach t.mem pml4 (tablePath v) = some x → ∀ j, ¬ G x j) ∧
    ∀ x, reach t.mem pml4 (tablePath v ++ [ptIdx v]) = some x →
      s.pmm.bitmap x = false ∨ LowPage s.mem pml4 x

theorem vmmGetPte_reach {mem : PhysMem} {v : Word} {pt l : Nat}
    (found : vmmGetPte mem pml4 v = some (pt, l)) :
    reach mem pml4 (tablePath v) = some pt ∧ l = ptIdx v ∧ hasBits (mem pt l) ptePresent = true := by
  unfold vmmGetPte at found
  simp only [Option.bind_eq_some_iff] at found
  obtain ⟨pdpt, h₁, pd, h₂, x, h₃, h₄⟩ := found
  split at h₄
  · cases h₄
  · split at h₄
    · rename_i present
      cases h₄
      refine ⟨?_, rfl, present⟩
      simp [reach, tablePath, walk, h₁, h₂, h₃]
    · cases h₄

/-- One round of `process_munmap`: nothing, or the leaf entry is cleared and its
page loses an owner. -/
theorem munmapPage_cases (pml4 : Nat) (addr : Word) (t : Vm) (i : Nat) :
    (vmmGetPte t.mem pml4 (pageOfRange addr i) = none ∧ munmapPage pml4 addr t i = t) ∨
    ∃ pt, reach t.mem pml4 (tablePath (pageOfRange addr i)) = some pt ∧
      vmmGetPte t.mem pml4 (pageOfRange addr i) = some (pt, ptIdx (pageOfRange addr i)) ∧
      reach t.mem pml4 (tablePath (pageOfRange addr i) ++ [ptIdx (pageOfRange addr i)]) =
        some (pteFrame (t.mem pt (ptIdx (pageOfRange addr i)))) ∧
      munmapPage pml4 addr t i =
        { t with
          pmm := pmmFreePage t.pmm (pteFrame (t.mem pt (ptIdx (pageOfRange addr i))))
          mem := put t.mem pt (ptIdx (pageOfRange addr i)) 0#64 } := by
  unfold munmapPage
  rw [show addr + BitVec.ofNat 64 (i * 4096) = pageOfRange addr i from rfl]
  cases found : vmmGetPte t.mem pml4 (pageOfRange addr i) with
  | none => exact .inl ⟨rfl, rfl⟩
  | some slot =>
    obtain ⟨pt, l⟩ := slot
    obtain ⟨here, rfl, present⟩ := vmmGetPte_reach found
    refine .inr ⟨pt, here, rfl, ?_, ?_⟩
    · rw [reach_snoc, here, Option.bind_some, pteChild, if_pos present]
    · exact if_pos present

theorem put_zero_fewer (mem : PhysMem) (f i : Nat) {h j x : Nat}
    (hc : pteChild (put mem f i 0#64 h j) = some x) : pteChild (mem h j) = some x := by
  by_cases slot : h = f ∧ j = i
  · obtain ⟨rfl, rfl⟩ := slot
    rw [put_same] at hc
    cases hc
  · rw [put_other _ _ slot] at hc
    exact hc

theorem munmapPage_loose {addr : Word} {i : Nat} (loose : Loose G pml4 s t (pageOfRange addr i))
    (pages : PagesKept pml4 s t) :
    (∀ h j, G h j → (munmapPage pml4 addr t i).mem h j = t.mem h j) ∧
    PagesKept pml4 s (munmapPage pml4 addr t i) ∧
    ∀ v, Loose G pml4 s t v → Loose G pml4 s (munmapPage pml4 addr t i) v := by
  rcases munmapPage_cases pml4 addr t i with ⟨-, e⟩ | ⟨pt, here, -, page, e⟩
  · rw [e]
    exact ⟨fun _ _ _ => rfl, pages, fun _ h => h⟩
  · rw [e]
    refine ⟨fun h j hG => ?_, fun f used unmapped => ?_, fun v h => ⟨fun x hx => ?_, fun x hx => ?_⟩⟩
    · apply put_other
      rintro ⟨rfl, rfl⟩
      exact loose.1 h here _ hG
    · have other : f ≠ pteFrame (t.mem pt (ptIdx (pageOfRange addr i))) := by
        rintro rfl
        rcases loose.2 _ page with clear | low
        · rw [used] at clear
          cases clear
        · exact unmapped low
      obtain ⟨used', count⟩ := pages f used unmapped
      obtain ⟨bit, owners⟩ := pmmFreePage_other t.pmm other
      dsimp only
      rw [bit, owners]
      exact ⟨used', count⟩
    · exact h.1 x (walk_shrink (fun _ _ _ => put_zero_fewer _ _ _) hx)
    · exact h.2 x (walk_shrink (fun _ _ _ => put_zero_fewer _ _ _) hx)

end Unmapping

section MappingLoop

variable {G : Nat → Nat → Prop} {pml4 i n : Nat} {base flags : Word} {s t : Vm}

abbrev firstPages (base : Word) (n : Nat) : List Word := (List.range n).map (pageOfRange base)

theorem firstPages_succ (base : Word) (n : Nat) :
    firstPages base (n + 1) = firstPages base n ++ [pageOfRange base n] := by
  rw [firstPages, List.range_succ, List.map_append, List.map_singleton]

theorem firstPages_add (base : Word) (n d : Nat) :
    firstPages base (n + d) = firstPages base n ++ (List.range d).map fun i => pageOfRange base (n + i) := by
  simp [firstPages, List.range_add]

theorem pagesNeeded_mono {mem : PhysMem} {base : Word} {n m : Nat} (less : n ≤ m) :
    pagesNeeded mem pml4 (firstPages base n) ≤ pagesNeeded mem pml4 (firstPages base m) := by
  obtain ⟨d, rfl⟩ := Nat.exists_eq_add_of_le less
  rw [firstPages_add, pagesNeeded_append]
  omega

section Accounting

variable {mem mem' : PhysMem} {base : Word} {i j : Nat}

theorem AddsTables.present (tables : AddsTables pml4 (neededTables (firstPages base i)) mem mem') (hj : j < i)
    (low : pml4Idx (pageOfRange base j) < 256) : (reach mem' pml4 (tablePath (pageOfRange base j))).isSome := by
  refine Option.isSome_iff_ne_none.mpr fun gone => ?_
  refine ((tables _ (tablePath_low low).init (by simp [tablePath])).mp gone).2 ?_
  rw [neededTables, List.mem_toFinset, List.mem_flatMap]
  exact ⟨_, List.mem_map.mpr ⟨j, List.mem_range.mpr hj, rfl⟩, by simp⟩

/-- One page more, and the tables that the pages before it have not brought. -/
theorem AddsTables.pagesNeeded_next (tables : AddsTables pml4 (neededTables (firstPages base i)) mem mem')
    (low : pml4Idx (pageOfRange base i) < 256) :
    pagesNeeded mem pml4 (firstPages base (i + 1)) = pagesNeeded mem pml4 (firstPages base i) + 1 +
      (Isunux.missing mem' pml4 (neededTables [pageOfRange base i])).card := by
  have lowQ : ∀ q ∈ neededTables [pageOfRange base i], LowPath q ∧ q.length ≤ 3 := fun q mem =>
    mem_neededTables_low (fun v hv => List.mem_singleton.mp hv ▸ low) mem
  rw [firstPages_succ, pagesNeeded_append, tables.missing lowQ]
  rfl

end Accounting

/-- The first `i` pages of a range have been mapped, and memory has lasted for them and
for their tables. -/
structure Stocked (G : Nat → Nat → Prop) (pml4 : Nat) (base : Word) (s : Vm) (i : Nat) (t : Vm) :
    Prop where
  fenced : Fenced G pml4 t
  pages : ∀ q x, LowPath q → q.length = 4 → reach t.mem pml4 q = some x →
    s.pmm.bitmap x = false ∨ LowPage s.mem pml4 x
  tables : AddsTables pml4 (neededTables (firstPages base i)) s.mem t.mem
  free : freeFrames t.pmm + pagesNeeded s.mem pml4 (firstPages base i) = freeFrames s.pmm

/-- After `i` pages of a range have been mapped, starting from `s`. As long as
tables can be allocated the fence stands; afterwards every page is in use and the
loop is about to stop. -/
structure Mapped (G : Nat → Nat → Prop) (pml4 : Nat) (base : Word) (s : Vm) (i : Nat) (t : Vm) :
    Prop where
  kept : ∀ h j, G h j → t.mem h j = s.mem h j
  grown : Grown s.pmm t.pmm
  low : ∀ j, j < i → pml4Idx (pageOfRange base j) < 256
  loose : ∀ j, j < i → Loose G pml4 s t (pageOfRange base j)
  mode : Stocked G pml4 base s i t ∨
    (∀ h, Held t.pmm h) ∧ freeFrames s.pmm ≤ pagesNeeded s.mem pml4 (firstPages base i)

theorem Mapped.start (base : Word) (w : Fenced G pml4 s) : Mapped G pml4 base s 0 s where
  kept _ _ _ := rfl
  grown := .refl _
  low j hj := absurd hj (Nat.not_lt_zero j)
  loose j hj := absurd hj (Nat.not_lt_zero j)
  mode := .inl
    { fenced := w
      pages := fun q _ low four here => .inr ⟨q, low, four, here⟩
      tables := fun q _ _ => ⟨fun gone => ⟨gone, Finset.notMem_empty q⟩, fun h => h.1⟩
      free := rfl }

theorem Mapped.zero (m : Mapped G pml4 base s i t) : Held t.pmm 0 := by
  rcases m.mode with stocked | ⟨full, -⟩
  · exact stocked.fenced.zero
  · exact full 0

theorem Mapped.alloc_ok (m : Mapped G pml4 base s i t)
    (lasts : pagesNeeded s.mem pml4 (firstPages base i) < freeFrames s.pmm) : (pmmAllocPage t.pmm).2 ≠ 0 := by
  intro failed
  have none := freeFrames_eq_zero (pmmAllocPage_zero m.zero failed).1
  rcases m.mode with stocked | ⟨-, spent⟩
  · have paid := stocked.free
    omega
  · omega

theorem Mapped.stop (m : Mapped G pml4 base s i t) (failed : (pmmAllocPage t.pmm).2 = 0) :
    Mapped G pml4 base s i { t with pmm := (pmmAllocPage t.pmm).1 } := by
  obtain ⟨full, after⟩ := pmmAllocPage_zero m.zero failed
  have grown := pmmAllocPage_grown t.pmm
  refine ⟨m.kept, m.grown.trans grown, m.low, m.loose, .inr ⟨fun h => grown.held (full h), ?_⟩⟩
  rcases m.mode with stocked | ⟨-, spent⟩
  · have none := freeFrames_eq_zero full
    have paid := stocked.free
    omega
  · exact spent

theorem Mapped.next (w : Fenced G pml4 s) (m : Mapped G pml4 base s i t)
    (ok : (pmmAllocPage t.pmm).2 ≠ 0)
    (low : pagesNeeded s.mem pml4 (firstPages base i) < freeFrames s.pmm → pml4Idx (pageOfRange base i) < 256)
    (plain : flags.toNat < 4096) :
    Mapped G pml4 base s (i + 1) (mapZeroPage t pml4 (pageOfRange base i) flags).1 := by
  obtain ⟨bound, clear, after⟩ := pmmAllocPage_fresh ok
  have allocGrown := pmmAllocPage_grown t.pmm
  have taken : freeFrames (pmmAllocPage t.pmm).1 + 1 = freeFrames t.pmm := by
    rw [after]
    exact freeFrames_take t.pmm bound clear
  have used : (pmmAllocPage t.pmm).1.bitmap (pmmAllocPage t.pmm).2 = true := by
    rw [after]
    simp [Pmm.take]
  rw [mapZeroPage_given ok]
  generalize pmmAllocPage t.pmm = a at ok bound clear after allocGrown taken used ⊢
  obtain ⟨p, d⟩ := a
  dsimp only at ok bound clear allocGrown taken used ⊢
  rcases m.mode with ⟨fence, pages, tables, paid⟩ | ⟨full, -⟩
  swap
  · rw [full d bound] at clear
    cases clear
  have lowV := low (by omega)
  have clearS : s.pmm.bitmap d = false := by
    by_contra h
    rw [(m.grown.used d (by simpa using h)).1] at clear
    cases clear
  have open_ : ∀ j, ¬ G d j := by
    intro j hG
    rw [(fence.guarded d j hG).2 bound] at clear
    cases clear
  have small := small_of_bound bound
  have child := leaf_child small plain
  obtain ⟨fence', paths⟩ := fence.takePages (D := fun f => f = d)
    (t := { t with pmm := p, mem := zeroFrame t.mem d }) allocGrown
    (by rintro _ rfl; exact ⟨ok, bound, clear, used⟩)
    (fun f hf => Function.update_of_ne hf _ _)
  obtain ⟨kept, grown, loosely, mode⟩ := fence'.mapPage lowV child (fun _ => .inr rfl)
    (fun j => by simp [zeroFrame, pteChild, hasBits]) rfl
  dsimp only at kept grown loosely mode paths
  generalize hu : vmmMap4kIn { t with pmm := p, mem := zeroFrame t.mem d } pml4
    (pageOfRange base i) d flags = u at kept grown loosely mode
  -- the page took one frame and no table with it
  have zeroed : AddsTables pml4 (neededTables (firstPages base i)) s.mem (zeroFrame t.mem d) := fun q low few => by
    rw [paths q low]
    exact tables q low few
  have cost := zeroed.pagesNeeded_next lowV
  have same : ∀ h j, G h j → u.mem h j = t.mem h j := by
    intro h j hG
    rw [kept h j (.inl hG), zeroFrame, Function.update_of_ne]
    rintro rfl
    exact open_ j hG
  -- what mapping the page says about an address, in terms of the start of the loop
  have loose : ∀ v, pml4Idx v < 256 → v = pageOfRange base i ∨
      (reach t.mem pml4 (tablePath v)).isSome → Loose G pml4 s u v := by
    intro v lowW known
    rw [← paths _ (tablePath_low lowW).init] at known
    obtain ⟨tab, leaf⟩ := loosely v lowW known
    refine ⟨fun x hx j hG => ?_, fun x hx => ?_⟩
    · rcases tab x hx with rfl | rfl | free
      · exact (w.guarded 0 j hG).1 rfl
      · exact open_ j hG
      · exact free j (.inl hG)
    · rcases leaf x hx with rfl | old
      · exact .inl clearS
      · rw [paths _ (tablePath_low lowW)] at old
        exact pages _ x (tablePath_low lowW) (by simp [tablePath]) old
  refine ⟨fun h j hG => (same h j hG).trans (m.kept h j hG),
    m.grown.trans (allocGrown.trans grown), fun j hj => ?_, fun j hj => ?_, ?_⟩
  · rcases Nat.lt_succ_iff_lt_or_eq.mp hj with earlier | rfl
    · exact m.low j earlier
    · exact lowV
  · rcases Nat.lt_succ_iff_lt_or_eq.mp hj with earlier | rfl
    · exact loose _ (m.low j earlier) (.inr (tables.present earlier (m.low j earlier)))
    · exact loose _ lowV (.inl rfl)
  · rcases mode with ⟨fence'', -, built, leaves⟩ | ⟨full, short⟩
    · refine .inl ⟨fence''.mono fun _ _ h => .inl h, fun q x lowQ four hx => ?_, ?_, ?_⟩
      · rcases leaves q x lowQ four hx with rfl | old
        · exact .inl clearS
        · rw [paths q lowQ] at old
          exact pages q x lowQ four old
      · rw [firstPages_succ, neededTables_append]
        exact zeroed.trans built.tables
      · have spent := built.free
        dsimp only at spent
        rw [cost]
        omega
    · refine .inr ⟨full, ?_⟩
      rw [cost]
      omega

theorem Mapped.loop (w : Fenced G pml4 s) (plain : flags.toNat < 4096)
    (m : Mapped G pml4 base s i t)
    (low : ∀ j, j < i + n → pagesNeeded s.mem pml4 (firstPages base j) < freeFrames s.pmm →
      pml4Idx (pageOfRange base j) < 256) :
    Mapped G pml4 base s (mapZeroPages pml4 base flags n i t).2
      (mapZeroPages pml4 base flags n i t).1 := by
  induction n generalizing i t with
  | zero => exact m
  | succ n ih =>
    rw [mapZeroPages]
    by_cases failed : (pmmAllocPage t.pmm).2 = 0
    · rw [mapZeroPage_refused failed]
      exact m.stop failed
    · rw [if_pos (by rw [mapZeroPage_given failed])]
      refine ih (m.next w failed (low i (by omega)) plain) fun j hj => low j (by omega)

end MappingLoop

section Calls

variable {spaces : Nat → Prop} {pml4 : Nat} {s t : Vm}

theorem KernelHalfKept.refl : KernelHalfKept spaces pml4 s s :=
  ⟨fun _ _ _ => rfl, fun _ _ _ _ _ used => ⟨used, rfl⟩⟩

theorem KernelHalfKept.of_kept (kept : ∀ f j, Guarded s.mem spaces f j → t.mem f j = s.mem f j)
    (pages : PagesKept pml4 s t) : KernelHalfKept spaces pml4 s t :=
  ⟨kept, fun _ f _ _ unmapped used => pages f used unmapped⟩

/-- The pages of a range that a call can get to are low: those for which a free page is
left after the pages before them and their tables. -/
def RangeLow (s : Vm) (pml4 : Nat) (base : Word) (pages : Nat) : Prop :=
  ∀ i, i < pages → pagesNeeded s.mem pml4 (firstPages base i) < freeFrames s.pmm →
    pml4Idx (pageOfRange base i) < 256

theorem processBrk_kept {p : Process} (apart : KernelApart spaces p.pml4 s) (newBrk : Word)
    (low : p.heapEnd < newBrk → RangeLow s p.pml4 (pageCeil p.heapEnd) (brkPages p.heapEnd newBrk)) :
    KernelHalfKept spaces p.pml4 s (processBrk s p newBrk).1 := by
  unfold processBrk
  split
  · exact .refl
  split
  · exact .refl
  rename_i beyond
  have low := low (BitVec.not_le.mp beyond)
  have m := Mapped.loop (n := brkPages p.heapEnd newBrk) apart.fenced
    (show (pteWrite ||| pteUser).toNat < 4096 by decide)
    (.start (pageCeil p.heapEnd) apart.fenced) (fun j hj => low j (by omega))
  dsimp only
  split
  · exact .of_kept m.kept m.grown.pagesKept
  · exact .of_kept m.kept m.grown.pagesKept

theorem unwind_kept {addr : Word} {n : Nat} (kept : ∀ f j, Guarded s.mem spaces f j → t.mem f j = s.mem f j)
    (pages : PagesKept pml4 s t)
    (loose : ∀ j, j < n → Loose (Guarded s.mem spaces) pml4 s t (pageOfRange addr j)) :
    KernelHalfKept spaces pml4 s ((List.range n).foldl (munmapPage pml4 addr) t) := by
  have rounds := Run.range_rule (fun _ u =>
      (∀ f j, Guarded s.mem spaces f j → u.mem f j = s.mem f j) ∧ PagesKept pml4 s u ∧
      ∀ j, j < n → Loose (Guarded s.mem spaces) pml4 s u (pageOfRange addr j))
    (munmapPage pml4 addr) n t ⟨kept, pages, loose⟩ (by
      rintro i hi u ⟨kept, pages, loose⟩
      obtain ⟨same, pages', loose'⟩ := munmapPage_loose (loose i hi) pages
      exact ⟨fun f j hG => (same f j hG).trans (kept f j hG), pages',
        fun j hj => loose' _ (loose j hj)⟩)
  exact .of_kept rounds.1 rounds.2.1

theorem pageFlags_plain (writable : Prop) [Decidable writable] :
    (if writable then pteUser ||| pteWrite else pteUser).toNat < 4096 := by
  split <;> decide

theorem processMmap_kept {p : Process} (apart : KernelApart spaces p.pml4 s)
    (length prot flags : Word) (fd : Int)
    (low : hasBits flags mapAnonymous = true ∧ fd = -1 → RangeLow s p.pml4 p.mmapNext (pagesOf length)) :
    KernelHalfKept spaces p.pml4 s (processMmap s p length prot flags fd).1 := by
  unfold processMmap
  split
  · exact .refl
  split
  · exact .refl
  rename_i served
  have low := low (by simpa using served)
  dsimp only
  have plain := pageFlags_plain (hasBits prot protWrite = true)
  generalize (if hasBits prot protWrite then pteUser ||| pteWrite else pteUser) = pteFlags at plain ⊢
  have m := Mapped.loop (n := pagesOf length) apart.fenced plain
    (.start p.mmapNext apart.fenced) (fun j hj => low j (by omega))
  split
  · exact unwind_kept m.kept m.grown.pagesKept m.loose
  · exact .of_kept m.kept m.grown.pagesKept

/-! `process_munmap`. It allocates nothing, so which pages it reaches is decided by
the tables alone. -/

theorem pml4Idx_lt (v : Word) : pml4Idx v < 512 := by
  rw [pml4Idx_eq]
  omega

theorem vmmGetPte_guarded (own : spaces pml4) {v : Word} (high : 256 ≤ pml4Idx v) {pt l : Nat}
    (found : vmmGetPte s.mem pml4 v = some (pt, l)) : Guarded s.mem spaces pt l := by
  unfold vmmGetPte at found
  simp only [Option.bind_eq_some_iff] at found
  obtain ⟨pdpt, h₁, pd, h₂, x, h₃, h₄⟩ := found
  have j₂ := pdptIdx_eq v
  have j₃ := pdIdx_eq v
  have j₄ := ptIdx_eq v
  split at h₄
  · cases h₄
  · rename_i small
    split at h₄
    · cases h₄
      have top : HighTable s.mem pml4 1 pdpt := .pdpt high (pml4Idx_lt v) h₁
      have mid : HighTable s.mem pml4 2 pd := .child top (by omega) (by omega) h₂ (by omega)
      have low : HighTable s.mem pml4 3 pt :=
        .child mid (by omega) (by omega) h₃ (fun _ => by simpa using small)
      exact ⟨by omega, .inr ⟨pml4, 3, own, low⟩⟩
    · cases h₄

theorem vmmGetPte_kept (own : spaces pml4)
    (kept : ∀ f j, Guarded s.mem spaces f j → t.mem f j = s.mem f j) {v : Word}
    (high : 256 ≤ pml4Idx v) : vmmGetPte t.mem pml4 v = vmmGetPte s.mem pml4 v := by
  have j₂ := pdptIdx_eq v
  have j₃ := pdIdx_eq v
  have j₄ := ptIdx_eq v
  unfold vmmGetPte
  rw [kept pml4 (pml4Idx v) ⟨pml4Idx_lt v, .inl ⟨own, high⟩⟩]
  cases h₁ : pteChild (s.mem pml4 (pml4Idx v)) with
  | none => rfl
  | some pdpt =>
    have top : HighTable s.mem pml4 1 pdpt := .pdpt high (pml4Idx_lt v) h₁
    simp only [Option.bind_some]
    rw [kept pdpt (pdptIdx v) ⟨by omega, .inr ⟨pml4, 1, own, top⟩⟩]
    cases h₂ : pteChild (s.mem pdpt (pdptIdx v)) with
    | none => rfl
    | some pd =>
      have mid : HighTable s.mem pml4 2 pd := .child top (by omega) (by omega) h₂ (by omega)
      simp only [Option.bind_some]
      rw [kept pd (pdIdx v) ⟨by omega, .inr ⟨pml4, 2, own, mid⟩⟩]
      cases h₃ : pteChild (s.mem pd (pdIdx v)) with
      | none => rfl
      | some pt =>
        simp only [Option.bind_some]
        split
        · rfl
        · rename_i small
          have low : HighTable s.mem pml4 3 pt :=
            .child mid (by omega) (by omega) h₃ (fun _ => by simpa using small)
          rw [kept pt (ptIdx v) ⟨by omega, .inr ⟨pml4, 3, own, low⟩⟩]

/-- No page of the range is a page that the kernel half maps with 4 KiB entries. -/
def RangeSpared (mem : PhysMem) (pml4 : Nat) (addr : Word) (pages : Nat) : Prop :=
  ∀ i, i < pages → 256 ≤ pml4Idx (pageOfRange addr i) →
    vmmGetPte mem pml4 (pageOfRange addr i) = none

/-- An entry of the kernel half that was present has been cleared. -/
def Broken (spaces : Nat → Prop) (s t : Vm) : Prop :=
  ∃ f l, Guarded s.mem spaces f l ∧ hasBits (s.mem f l) ptePresent = true ∧ t.mem f l = 0#64

theorem munmapPage_broken {addr : Word} {i : Nat} (h : Broken spaces s t) :
    Broken spaces s (munmapPage pml4 addr t i) := by
  obtain ⟨f, l, hG, present, cleared⟩ := h
  refine ⟨f, l, hG, present, ?_⟩
  rcases munmapPage_cases pml4 addr t i with ⟨-, e⟩ | ⟨pt, -, -, -, e⟩
  · rw [e, cleared]
  · rw [e]
    by_cases slot : f = pt ∧ l = ptIdx (pageOfRange addr i)
    · obtain ⟨rfl, rfl⟩ := slot
      exact put_same _ _ _ _
    · exact (put_other _ _ slot).trans cleared

/-- After any number of rounds: the kernel half is as before and no kernel page was
in the range so far, or one was and its entry is gone. -/
theorem munmap_rounds (apart : KernelApart spaces pml4 s) (addr : Word) (n : Nat) :
    (KernelHalfKept spaces pml4 s ((List.range n).foldl (munmapPage pml4 addr) s) ∧
      RangeSpared s.mem pml4 addr n) ∨
    (Broken spaces s ((List.range n).foldl (munmapPage pml4 addr) s) ∧
      ¬ RangeSpared s.mem pml4 addr n) := by
  have start : ∀ v, pml4Idx v < 256 → Loose (Guarded s.mem spaces) pml4 s s v := by
    intro v low
    refine ⟨fun x hx => ?_, fun x hx => .inr ⟨_, tablePath_low low, by simp [tablePath], hx⟩⟩
    exact (apart.fenced.tables _ x (tablePath_low low).init (by simp [tablePath])
      (by simp [tablePath]) hx).2.2
  have rounds := Run.range_rule (fun i u =>
      ((∀ f j, Guarded s.mem spaces f j → u.mem f j = s.mem f j) ∧ PagesKept pml4 s u ∧
        (∀ v, pml4Idx v < 256 → Loose (Guarded s.mem spaces) pml4 s u v) ∧
        RangeSpared s.mem pml4 addr i) ∨
      (Broken spaces s u ∧ ¬ RangeSpared s.mem pml4 addr i))
    (munmapPage pml4 addr) n s
    (.inl ⟨fun _ _ _ => rfl, fun _ used _ => ⟨used, rfl⟩, start, fun i hi => absurd hi (by omega)⟩)
    (by
      rintro i hi u (⟨kept, pages, loose, spared⟩ | ⟨broken, hit⟩)
      · have extend : (256 ≤ pml4Idx (pageOfRange addr i) →
            vmmGetPte s.mem pml4 (pageOfRange addr i) = none) → RangeSpared s.mem pml4 addr (i + 1) := by
          intro last j hj
          rcases Nat.lt_succ_iff_lt_or_eq.mp hj with earlier | rfl
          · exact spared j earlier
          · exact last
        rcases Nat.lt_or_ge (pml4Idx (pageOfRange addr i)) 256 with low | high
        · obtain ⟨same, pages', loose'⟩ := munmapPage_loose (loose _ low) pages
          exact .inl ⟨fun f j hG => (same f j hG).trans (kept f j hG), pages',
            fun v hv => loose' v (loose v hv), extend (fun h => by omega)⟩
        · have walk := vmmGetPte_kept apart.own kept high
          rcases munmapPage_cases pml4 addr u i with ⟨none, e⟩ | ⟨pt, -, found, -, e⟩
          · rw [e]
            rw [walk] at none
            exact .inl ⟨kept, pages, loose, extend fun _ => none⟩
          · rw [walk] at found
            have slot := vmmGetPte_guarded apart.own high found
            refine .inr ⟨⟨pt, _, slot, (vmmGetPte_reach found).2.2, ?_⟩, fun spared' => ?_⟩
            · rw [e]
              exact put_same _ _ _ _
            · rw [spared' i (by omega) high] at found
              cases found
      · refine .inr ⟨munmapPage_broken broken, fun spared => hit fun j hj => spared j (by omega)⟩)
  rcases rounds with ⟨kept, pages, -, spared⟩ | broken
  · exact .inl ⟨.of_kept kept pages, spared⟩
  · exact .inr broken

theorem Broken.not_kept (h : Broken spaces s t) : ¬ KernelHalfKept spaces pml4 s t := by
  obtain ⟨f, l, hG, present, cleared⟩ := h
  intro kept
  rw [← kept.entries f l hG, cleared] at present
  cases present

theorem processMunmap_kept_iff (apart : KernelApart spaces pml4 s) (addr length : Word) :
    KernelHalfKept spaces pml4 s (processMunmap s pml4 addr length) ↔
      RangeSpared s.mem pml4 addr (pagesOf length) := by
  unfold processMunmap
  split
  · rename_i empty
    subst empty
    exact ⟨fun _ i hi => absurd hi (by simp [pagesOf]), fun _ => .refl⟩
  · rcases munmap_rounds apart addr (pagesOf length) with ⟨kept, spared⟩ | ⟨broken, hit⟩
    · exact ⟨fun _ => spared, fun _ => kept⟩
    · exact ⟨fun kept => absurd kept broken.not_kept, fun spared => absurd spared hit⟩

end Calls

end Isunux
