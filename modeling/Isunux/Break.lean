import Isunux.ZeroPages

/-! `process_brk`. The new pages are mapped one by one over whatever is there, and when
memory is out the pages mapped so far stay behind a break that has not moved. -/
namespace Isunux

open Radix

/-- The addresses that `process_brk` maps. -/
def brkRange (p : Process) (newBrk : Word) : List Word :=
  (List.range (brkPages p.heapEnd newBrk)).map (pageOfRange (pageCeil p.heapEnd))

/-- Every page of the heap up to the break is mapped, and the program may write it. -/
def HeapMapped (mem : PhysMem) (p : Process) : Prop :=
  p.heapStart ≤ p.heapEnd ∧
    ∀ x, p.heapStart.toNat ≤ x → x < (p.heapEnd.toNat + 4095) / 4096 * 4096 →
      ∃ e, userLeaf mem p.pml4 (BitVec.ofNat 64 x) = some e ∧ (pageOf mem e).writable = true

/-- What `process_brk` owes its caller. -/
structure BrkMeets (s : Vm) (p : Process) (newBrk : Word) (t : Vm) (p' : Process) (ret : Word) : Prop where
  grown : p.heapEnd < newBrk → ret = newBrk → p'.heapEnd = newBrk ∧
    ∀ x, p.heapStart.toNat ≤ x → x < newBrk.toNat → ∃ e,
      userLeaf t.mem p.pml4 (BitVec.ofNat 64 x) = some e ∧ (pageOf t.mem e).writable = true ∧
      (userLeaf s.mem p.pml4 (BitVec.ofNat 64 x) = none → ∀ o, byteAt (t.mem (pteFrame e)) o = 0)
  refused : ret = p.heapEnd → p'.heapEnd = p.heapEnd ∧
    (∀ v, userLeaf t.mem p.pml4 v = userLeaf s.mem p.pml4 v ∧ userRead t p.pml4 v = userRead s p.pml4 v) ∧
    ∀ f, t.pmm.bitmap f = s.pmm.bitmap f ∧ t.pmm.refcount f = s.pmm.refcount f
  kept : ∀ v e, userLeaf s.mem p.pml4 v = some e →
    ∃ e', userLeaf t.mem p.pml4 v = some e' ∧ pteFrame e' = pteFrame e

/-- Memory does not run out while `vmm_map_4k_in` makes a table: it lasts for all pages of
the range, or is used up when some of them are mapped. -/
def TablesServed (s : Vm) (pml4 : Nat) (base : Word) (n : Nat) : Prop :=
  pagesNeeded s.mem pml4 ((List.range n).map (pageOfRange base)) ≤ freeFrames s.pmm ∨
    ∃ j < n, freeFrames s.pmm = pagesNeeded s.mem pml4 ((List.range j).map (pageOfRange base))

/-- When `process_brk` keeps its promises: there is nothing to do, or no page at all is
free, or the new pages lie in the low half, there is memory for all of them and their
tables, and nothing is mapped there. -/
def BrkServed (s : Vm) (p : Process) (newBrk : Word) : Prop :=
  newBrk ≤ p.heapEnd ∨ (0 < brkPages p.heapEnd newBrk ∧ freeFrames s.pmm = 0) ∨
    (newBrk.toNat ≤ 2 ^ 47 ∧ pagesNeeded s.mem p.pml4 (brkRange p newBrk) ≤ freeFrames s.pmm ∧
      ∀ v ∈ brkRange p newBrk, userLeaf s.mem p.pml4 v = none)

section Arithmetic

variable {heapEnd newBrk : Word}

theorem pageCeil_toNat {a : Word} (low : a.toNat ≤ 2 ^ 47) : (pageCeil a).toNat = (a.toNat + 4095) / 4096 * 4096 := by
  rw [pageCeil, mask_page_toNat, BitVec.toNat_add]
  have : (4095#64).toNat = 4095 := rfl
  omega

theorem brkPages_fits (low : newBrk.toNat ≤ 2 ^ 47) (more : heapEnd < newBrk) :
    (pageCeil heapEnd).toNat + brkPages heapEnd newBrk * 4096 = (newBrk.toNat + 4095) / 4096 * 4096 := by
  rw [BitVec.lt_def] at more
  rw [brkPages, pageCeil_toNat low, pageCeil_toNat (by omega)]
  omega

theorem range_vpn {base : Word} {n i : Nat} (fits : base.toNat + n * 4096 ≤ 2 ^ 47) (aligned : 4096 ∣ base.toNat)
    (inside : i < n) : lowHalf (pageOfRange base i) = true ∧ vpn (pageOfRange base i) = base.toNat / 4096 + i := by
  refine ⟨pageOfRange_low fits inside, ?_⟩
  rw [vpn, pageOfRange, BitVec.toNat_add, BitVec.toNat_ofNat]
  omega

/-- Every address of a range lies in one of its pages. -/
theorem range_page {base : Word} {n x : Nat} (fits : base.toNat + n * 4096 ≤ 2 ^ 47) (aligned : 4096 ∣ base.toNat)
    (lower : base.toNat ≤ x) (upper : x < base.toNat + n * 4096) :
    ∃ i < n, vpn (BitVec.ofNat 64 x) = vpn (pageOfRange base i) := by
  refine ⟨(x - base.toNat) / 4096, by omega, ?_⟩
  rw [(range_vpn fits aligned (by omega)).2, vpn, BitVec.toNat_ofNat]
  omega

end Arithmetic

section Seeing

variable {K : Type*} {roots : K → Option Nat} {scope : Nat → Prop} {s t : Vm} {L M M' : Finset (Ref K × Nat)}
  {k : K} {pml4 : Nat} {kind : Kind} {pages : List (Word × Nat)}

theorem userLeaf_low {mem : PhysMem} {v e : Word} (here : userLeaf mem pml4 v = some e) : lowHalf v = true := by
  by_contra high
  rw [userLeaf, if_neg high] at here
  cases here

theorem Owned.userLeaf_page {mem : PhysMem} {p : Pmm} (o : Owned scope roots mem p L M) (root : roots k = some pml4)
    {v w : Word} (lowV : lowHalf v = true) (lowW : lowHalf w = true) (page : vpn v = vpn w) :
    Isunux.userLeaf mem pml4 v = Isunux.userLeaf mem pml4 w := by
  obtain ⟨path, slot⟩ := (same_slot_iff lowV lowW).mpr page
  rw [o.userLeaf root lowV, o.userLeaf root lowW, path, slot]

theorem Zeroed.userLeaf_page (h : Zeroed scope roots k pml4 kind M M' pages s t) (root : roots k = some pml4)
    {x : Word × Nat} (mem : x ∈ pages) (low : lowHalf x.1 = true) {v : Word} (lowV : lowHalf v = true)
    (page : vpn v = vpn x.1) : userLeaf t.mem pml4 v = some (leafEntry x.2 kind) := by
  obtain ⟨L', owned⟩ := h.owned
  obtain ⟨path, slot⟩ := (same_slot_iff lowV low).mpr page
  rw [owned.userLeaf root lowV, path, slot]
  exact h.leaves x mem

theorem Zeroed.range_leaf (h : Zeroed scope roots k pml4 kind M M' pages s t) (root : roots k = some pml4)
    {base : Word} {n x : Nat} (shape : pages.map Prod.fst = (List.range n).map (pageOfRange base))
    (fits : base.toNat + n * 4096 ≤ 2 ^ 47) (aligned : 4096 ∣ base.toNat) (lower : base.toNat ≤ x)
    (upper : x < base.toNat + n * 4096) :
    ∃ e, userLeaf t.mem pml4 (BitVec.ofNat 64 x) = some e ∧ hasBits e pteWrite = decide (kind = .rw) ∧
      t.mem (pteFrame e) = fun _ => 0#64 := by
  obtain ⟨i, hi, page⟩ := range_page fits aligned lower upper
  have addr : pageOfRange base i ∈ pages.map Prod.fst := by
    rw [shape]
    exact List.mem_map.mpr ⟨i, List.mem_range.mpr hi, rfl⟩
  obtain ⟨y, mem, first⟩ := List.mem_map.mp addr
  have lowY : lowHalf y.1 = true := by
    rw [first]
    exact pageOfRange_low fits hi
  have lowX : lowHalf (BitVec.ofNat 64 x) = true := by
    rw [lowHalf, decide_eq_true_eq, BitVec.toNat_ofNat]
    omega
  obtain ⟨L', owned⟩ := h.owned
  refine ⟨_, h.userLeaf_page root mem lowY lowX (page.trans (by rw [first])), leafEntry_write _ _, ?_⟩
  rw [leafEntry_frame (owned.accounts.small (h.own y mem)), h.blank y mem]

theorem Zeroed.userLeaf_rest (h : Zeroed scope roots k pml4 kind M M' pages s t) (o : Owned scope roots s.mem s.pmm L M)
    (root : roots k = some pml4) (low : ∀ x ∈ pages, lowHalf x.1 = true) {v : Word}
    (out : ∀ x ∈ pages, vpn v ≠ vpn x.1) : userLeaf t.mem pml4 v = userLeaf s.mem pml4 v := by
  obtain ⟨L', owned⟩ := h.owned
  by_cases lowV : lowHalf v = true
  · rw [owned.userLeaf root lowV, o.userLeaf root lowV]
    refine h.rest k _ _ (tablePath_low (lowHalf_idx lowV)) rfl fun x mem slot => ?_
    exact out x mem ((same_slot_iff lowV (low x mem)).mp ⟨slot.2.1, slot.2.2⟩)
  · rw [userLeaf, userLeaf, if_neg lowV, if_neg lowV]

theorem Zeroed.frame_ne (h : Zeroed scope roots k pml4 kind M M' pages s t) (o : Owned scope roots s.mem s.pmm L M)
    (root : roots k = some pml4) {x : Word × Nat} (mem : x ∈ pages) {v e : Word}
    (here : userLeaf s.mem pml4 v = some e) : pteFrame e ≠ x.2 := by
  intro same
  have lowV := userLeaf_low here
  rw [o.userLeaf root lowV] at here
  have used := o.accounts.used (o.sub (o.leaf_mem (tablePath_low (lowHalf_idx lowV)) here))
  rw [same, h.fresh x mem] at used
  cases used

end Seeing

section Growing

variable {s : Vm} {pml4 n i : Nat} {base flags : Word}

theorem mapZeroPage_grown (s : Vm) (pml4 : Nat) (v flags : Word) : Grown s.pmm (mapZeroPage s pml4 v flags).1.pmm := by
  unfold mapZeroPage
  dsimp only
  split
  · exact pmmAllocPage_grown s.pmm
  · exact (pmmAllocPage_grown s.pmm).trans (vmmMap4kIn_grown { s with
      pmm := (pmmAllocPage s.pmm).1, mem := zeroFrame s.mem (pmmAllocPage s.pmm).2 } pml4 v _ flags)

theorem mapZeroPages_grown : Grown s.pmm (mapZeroPages pml4 base flags n i s).1.pmm := by
  induction n generalizing i s with
  | zero => exact .refl _
  | succ n ih =>
    unfold mapZeroPages
    dsimp only
    split
    · exact (mapZeroPage_grown _ _ _ _).trans ih
    · exact mapZeroPage_grown _ _ _ _

theorem mapZeroPages_takes (some : 0 < n) (zero : Held s.pmm 0) (free : freeFrames s.pmm ≠ 0) :
    ∃ f, s.pmm.bitmap f = false ∧ (mapZeroPages pml4 base flags n i s).1.pmm.bitmap f = true := by
  obtain ⟨m, rfl⟩ := Nat.exists_eq_succ_of_ne_zero (Nat.ne_of_gt some)
  have ok := pmmAllocPage_ok zero (Nat.pos_of_ne_zero free)
  obtain ⟨-, clear, -⟩ := pmmAllocPage_fresh ok
  have used := (pmmAllocPage_handed ok).used
  have taken : (mapZeroPage s pml4 (pageOfRange base i) flags).1.pmm.bitmap (pmmAllocPage s.pmm).2 = true := by
    rw [mapZeroPage_given ok]
    exact ((vmmMap4kIn_grown _ _ _ _ _).used _ used).1
  refine ⟨_, clear, ?_⟩
  rw [mapZeroPages, if_pos (by rw [mapZeroPage_given ok])]
  exact (mapZeroPages_grown.used _ taken).1

theorem mapZeroPages_none (some : 0 < n) (free : freeFrames s.pmm = 0) :
    mapZeroPages pml4 base flags n i s = ({ s with pmm := { s.pmm with exhausted := true } }, i) := by
  obtain ⟨m, rfl⟩ := Nat.exists_eq_succ_of_ne_zero (Nat.ne_of_gt some)
  rw [mapZeroPages, mapZeroPage, pmmAllocPage_full free, if_pos rfl]
  rfl

end Growing

section Brk

variable {K : Type*} [DecidableEq K] {roots : K → Option Nat} {scope : Nat → Prop} {s : Vm}
  {L M : Finset (Ref K × Nat)} {k : K} {p : Process} {newBrk : Word}

theorem brk_zeroed (o : Owned scope roots s.mem s.pmm L M) (zero : Held s.pmm 0) (root : roots k = some p.pml4)
    (more : p.heapEnd < newBrk) (low : newBrk.toNat ≤ 2 ^ 47)
    (paid : pagesNeeded s.mem p.pml4 (brkRange p newBrk) ≤ freeFrames s.pmm) :
    ∃ t M' pages, Zeroed scope roots k p.pml4 .rw M M' pages s.unflagged t ∧
      pages.map Prod.fst = brkRange p newBrk ∧
      (processBrk s p newBrk).1.mem = t.mem ∧ (processBrk s p newBrk).2 = ({ p with heapEnd := newBrk }, newBrk) := by
  have fits := (brkPages_fits low more).le.trans (show _ ≤ 2 ^ 47 by omega)
  have format : (pteWrite ||| pteUser) ||| ptePresent = Kind.rw.flags := by decide
  obtain ⟨count, t, M', pages, zeroed, shape, agree⟩ :=
    o.mapZeroPages zero root format fits le_rfl paid (.inl rfl)
  have nonzero : newBrk ≠ 0#64 := by
    rintro rfl
    exact absurd more (by simp)
  have above : ¬ newBrk ≤ p.heapEnd := by
    rw [BitVec.lt_def] at more
    rw [BitVec.le_def]
    omega
  have run : processBrk s p newBrk = ((mapZeroPages p.pml4 (pageCeil p.heapEnd) (pteWrite ||| pteUser)
      (brkPages p.heapEnd newBrk) 0 s).1, { p with heapEnd := newBrk }, newBrk) := by
    rw [processBrk, if_neg nonzero, if_neg above]
    dsimp only
    rw [if_neg (by rw [count]; exact Nat.lt_irrefl _)]
  rw [run]
  exact ⟨t, M', pages, zeroed, shape, agree.mem, rfl⟩

theorem brk_served_meets (o : Owned scope roots s.mem s.pmm L M) (zero : Held s.pmm 0) (root : roots k = some p.pml4)
    (heap : HeapMapped s.mem p) (served : BrkServed s p newBrk) :
    BrkMeets s p newBrk (processBrk s p newBrk).1 (processBrk s p newBrk).2.1 (processBrk s p newBrk).2.2 := by
  have unchanged : ∀ {t : Vm} {p' : Process} {ret : Word}, t.mem = s.mem → t.pmm.bitmap = s.pmm.bitmap →
      t.pmm.refcount = s.pmm.refcount → p' = p → ret = p.heapEnd → BrkMeets s p newBrk t p' ret := by
    rintro t p' ret mem bitmap count rfl rfl
    refine ⟨fun more same => absurd more (same ▸ BitVec.lt_irrefl _), fun _ => ⟨rfl, fun v => ?_, fun f => ?_⟩,
      fun v e here => ⟨e, ?_, rfl⟩⟩
    · rw [userRead, userRead, mem]
      exact ⟨rfl, rfl⟩
    · rw [bitmap, count]
      exact ⟨rfl, rfl⟩
    · rw [mem]
      exact here
  by_cases nothing : newBrk ≤ p.heapEnd
  · have run : processBrk s p newBrk = (s, p, p.heapEnd) := by
      rw [processBrk, if_pos nothing]
      split
      · rfl
      · rfl
    rw [run]
    exact unchanged rfl rfl rfl rfl rfl
  have more : p.heapEnd < newBrk := BitVec.not_le.mp nothing
  rcases served.resolve_left nothing with ⟨some, none⟩ | ⟨low, paid, vacant⟩
  · have nonzero : newBrk ≠ 0#64 := by
      rintro rfl
      exact absurd more (by simp)
    rw [processBrk, if_neg nonzero, if_neg nothing]
    dsimp only
    rw [mapZeroPages_none some none, if_pos some]
    exact unchanged rfl rfl rfl rfl rfl
  · obtain ⟨t, M', pages, zeroed, shape, memory, result⟩ := brk_zeroed o zero root more low paid
    have fits := (brkPages_fits low more).le.trans (show _ ≤ 2 ^ 47 by omega)
    have ends := brkPages_fits low more
    rw [BitVec.lt_def] at more
    have base := pageCeil_toNat (a := p.heapEnd) (by omega)
    have aligned : 4096 ∣ (pageCeil p.heapEnd).toNat := ⟨_, base.trans (Nat.mul_comm _ _)⟩
    have range : ∀ x ∈ pages, ∃ i < brkPages p.heapEnd newBrk, x.1 = pageOfRange (pageCeil p.heapEnd) i := by
      intro x mem
      have addr : x.1 ∈ brkRange p newBrk := shape ▸ List.mem_map_of_mem mem
      obtain ⟨i, hi, same⟩ := List.mem_map.mp addr
      exact ⟨i, List.mem_range.mp hi, same.symm⟩
    have lowPages : ∀ x ∈ pages, lowHalf x.1 = true := by
      intro x mem
      obtain ⟨i, hi, same⟩ := range x mem
      rw [same]
      exact pageOfRange_low fits hi
    -- a page that is mapped is none of those that are added
    have other : ∀ v e, userLeaf s.mem p.pml4 v = some e → ∀ x ∈ pages, vpn v ≠ vpn x.1 := by
      intro v e here x mem same
      have none := vacant x.1 (shape ▸ List.mem_map_of_mem mem)
      rw [← o.userLeaf_page root (userLeaf_low here) (lowPages x mem) same, here] at none
      cases none
    rw [result]
    refine ⟨fun _ _ => ⟨rfl, fun x lower upper => ?_⟩, fun same => ?_, fun v e here => ⟨e, ?_, rfl⟩⟩
    · by_cases old : x < (p.heapEnd.toNat + 4095) / 4096 * 4096
      · obtain ⟨e, here, writable⟩ := heap.2 x lower old
        refine ⟨e, ?_, writable, fun none => ?_⟩
        · rw [memory, zeroed.userLeaf_rest o.unflagged root lowPages (other _ e here)]
          exact here
        · rw [here] at none
          cases none
      · obtain ⟨e, leaf, writable, blank⟩ := zeroed.range_leaf root shape fits aligned
          (by omega : (pageCeil p.heapEnd).toNat ≤ x) (by omega)
        refine ⟨e, by rw [memory]; exact leaf, by simp [pageOf, writable], fun _ o => ?_⟩
        rw [memory, blank]
        simp [byteAt]
    · have : newBrk.toNat = p.heapEnd.toNat := congrArg BitVec.toNat same
      omega
    · rw [memory, zeroed.userLeaf_rest o.unflagged root lowPages (other v e here)]
      exact here

theorem brk_meets_served (o : Owned scope roots s.mem s.pmm L M) (zero : Held s.pmm 0) (root : roots k = some p.pml4)
    (start : p.heapStart ≤ p.heapEnd)
    (tables : TablesServed s p.pml4 (pageCeil p.heapEnd) (brkPages p.heapEnd newBrk))
    (meets : BrkMeets s p newBrk (processBrk s p newBrk).1 (processBrk s p newBrk).2.1
      (processBrk s p newBrk).2.2) : BrkServed s p newBrk := by
  by_cases nothing : newBrk ≤ p.heapEnd
  · exact .inl nothing
  have more : p.heapEnd < newBrk := BitVec.not_le.mp nothing
  have nonzero : newBrk ≠ 0#64 := by
    rintro rfl
    exact absurd more (by simp)
  have run : processBrk s p newBrk =
      let r := mapZeroPages p.pml4 (pageCeil p.heapEnd) (pteWrite ||| pteUser) (brkPages p.heapEnd newBrk) 0 s
      if r.2 < brkPages p.heapEnd newBrk then (r.1, p, p.heapEnd)
      else (r.1, { p with heapEnd := newBrk }, newBrk) := by
    rw [processBrk, if_neg nonzero, if_neg nothing]
  dsimp only at run
  refine .inr ?_
  by_cases short : (mapZeroPages p.pml4 (pageCeil p.heapEnd) (pteWrite ||| pteUser)
      (brkPages p.heapEnd newBrk) 0 s).2 < brkPages p.heapEnd newBrk
  · -- the break has not moved, so no page may have been taken
    rw [if_pos short] at run
    rw [run] at meets
    refine .inl ⟨by omega, ?_⟩
    by_contra some
    obtain ⟨f, clear, used⟩ := mapZeroPages_takes
      (i := 0) (show 0 < brkPages p.heapEnd newBrk by omega) zero some
    rw [((meets.refused rfl).2.2 f).1, clear] at used
    cases used
  · rw [if_neg short] at run
    have low : newBrk.toNat ≤ 2 ^ 47 := by
      rw [run] at meets
      rw [BitVec.lt_def] at more
      rw [BitVec.le_def] at start
      obtain ⟨e, here, -⟩ := (meets.grown more rfl).2 (newBrk.toNat - 1) (by omega) (by omega)
      have lowEnd := userLeaf_low here
      rw [lowHalf, decide_eq_true_eq, BitVec.toNat_ofNat] at lowEnd
      omega
    have fits := (brkPages_fits low more).le.trans (show _ ≤ 2 ^ 47 by omega)
    have paid : pagesNeeded s.mem p.pml4 (brkRange p newBrk) ≤ freeFrames s.pmm := by
      rcases tables with all | ⟨j, before, used⟩
      · exact all
      · -- the loop would have stopped early
        have format : (pteWrite ||| pteUser) ||| ptePresent = Kind.rw.flags := by decide
        have count := (o.mapZeroPages zero root format
          ((Nat.add_le_add_left (Nat.mul_le_mul_right _ before.le) _).trans fits) before.le used.ge (.inr used)).1
        omega
    obtain ⟨t, M', pages, zeroed, shape, memory, -⟩ := brk_zeroed o zero root more low paid
    refine .inr ⟨low, paid, fun v mem => ?_⟩
    cases here : userLeaf s.mem p.pml4 v with
    | none => rfl
    | some e =>
      have addr : v ∈ pages.map Prod.fst := shape ▸ mem
      obtain ⟨x, hx, rfl⟩ := List.mem_map.mp addr
      have lowX := userLeaf_low here
      obtain ⟨e', there, same⟩ := meets.kept _ e here
      rw [memory, zeroed.userLeaf_page root hx lowX lowX rfl] at there
      have small : x.2 < 2 ^ 52 := by
        obtain ⟨L', owned⟩ := zeroed.owned
        exact owned.accounts.small (zeroed.own x hx)
      rw [← Option.some.inj there, leafEntry_frame small] at same
      exact absurd same.symm (zeroed.frame_ne o.unflagged root hx here)

/-- `process_brk` keeps its promises where the new pages lie in the low half, none of them
is mapped yet, and memory lasts for all of them or for none; and nowhere else, unless
memory runs out inside `vmm_map_4k_in`. -/
theorem brk_meets_iff (o : Owned scope roots s.mem s.pmm L M) (zero : Held s.pmm 0) (root : roots k = some p.pml4)
    (heap : HeapMapped s.mem p) :
    (BrkServed s p newBrk →
      BrkMeets s p newBrk (processBrk s p newBrk).1 (processBrk s p newBrk).2.1 (processBrk s p newBrk).2.2) ∧
    (TablesServed s p.pml4 (pageCeil p.heapEnd) (brkPages p.heapEnd newBrk) →
      BrkMeets s p newBrk (processBrk s p newBrk).1 (processBrk s p newBrk).2.1 (processBrk s p newBrk).2.2 →
      BrkServed s p newBrk) :=
  ⟨brk_served_meets o zero root heap, brk_meets_served o zero root heap.1⟩

end Brk

/-- A new address space, and a program with an empty heap at 4 MiB. -/
def smallSpace : Vm := (vmmNewAddressSpace smallVm).1

def emptyHeap : Process :=
  { Process.zero with pml4 := 1, heapStart := 0x400000#64, heapEnd := 0x400000#64, mmapNext := 0x40000000#64 }

theorem emptyHeap_mapped (mem : PhysMem) : HeapMapped mem emptyHeap := by
  refine ⟨BitVec.le_refl _, fun x lower upper => ?_⟩
  have start : emptyHeap.heapStart.toNat = 0x400000 := rfl
  have last : emptyHeap.heapEnd.toNat = 0x400000 := rfl
  rw [start] at lower
  rw [last] at upper
  omega

theorem newSpace_vacant {s : Vm} (fine : (vmmNewAddressSpace s).1.pmm.exhausted = false) (v : Word) :
    userLeaf (vmmNewAddressSpace s).1.mem (vmmNewAddressSpace s).2 v = none := by
  obtain ⟨⟨L, sound⟩, vacant⟩ := newSpace_sound fine
  by_cases low : lowHalf v = true
  · rw [sound.owned.userLeaf (k := 0) rfl low]
    exact vacant 0 _ _ (tablePath_low (lowHalf_idx low)) rfl
  · rw [userLeaf, if_neg low]

theorem brk_meets_small :
    let r := processBrk smallSpace emptyHeap 0x401800#64
    r.2.2 = 0x401800#64 ∧ ∃ e, userLeaf r.1.mem 1 0x401000#64 = some e ∧ (pageOf r.1.mem e).writable = true := by
  intro r
  have root : (vmmNewAddressSpace smallVm).2 = 1 := by decide +kernel
  have fine : (vmmNewAddressSpace smallVm).1.pmm.exhausted = false := by decide +kernel
  obtain ⟨L, sound⟩ := (newSpace_sound fine).1
  have vacant := newSpace_vacant fine
  rw [root] at sound vacant
  have range : brkRange emptyHeap 0x401800#64 = [0x400000#64, 0x401000#64] := by decide +kernel
  have served : BrkServed smallSpace emptyHeap 0x401800#64 := by
    refine .inr (.inr ⟨by decide, ?_, ?_⟩)
    · rw [range]
      decide +kernel
    · exact fun v _ => vacant v
  have meets := (brk_meets_iff (k := 0) (s := smallSpace) (p := emptyHeap) sound.owned
    (fun _ => by decide +kernel) rfl (emptyHeap_mapped _)).1 served
  have ret : r.2.2 = 0x401800#64 := by decide +kernel
  obtain ⟨e, here, writable, -⟩ := (meets.grown (by decide) ret).2 0x401000 (by decide) (by decide)
  exact ⟨ret, e, here, writable⟩

def sixPages : Vm :=
  { smallVm with
    pmm := .small 6#6 (fun f => decide (f = 0)) (fun f => if f = 0 then 1 else 0) 5 1 }

def sixSpace : Vm := (vmmNewAddressSpace sixPages).1

/-- Memory for one page and its tables, and a break two pages higher: the break does not
move, but the first page is mapped and stays so. -/
theorem brk_keeps_pages_of_failed_call :
    (∃ L, Sound (freeAtStart sixPages.pmm) (only 1) sixSpace L) ∧ HeapMapped sixSpace.mem emptyHeap ∧
      (processBrk sixSpace emptyHeap 0x402000#64).2.2 = emptyHeap.heapEnd ∧
      ¬ BrkMeets sixSpace emptyHeap 0x402000#64 (processBrk sixSpace emptyHeap 0x402000#64).1
        (processBrk sixSpace emptyHeap 0x402000#64).2.1 (processBrk sixSpace emptyHeap 0x402000#64).2.2 := by
  have root : (vmmNewAddressSpace sixPages).2 = 1 := by decide +kernel
  have fine : (vmmNewAddressSpace sixPages).1.pmm.exhausted = false := by decide +kernel
  have sound := (newSpace_sound fine).1
  rw [root] at sound
  have ret : (processBrk sixSpace emptyHeap 0x402000#64).2.2 = emptyHeap.heapEnd := by decide +kernel
  refine ⟨sound, emptyHeap_mapped _, ret, fun meets => ?_⟩
  have same := ((meets.refused ret).2.2 2).1
  have used : (processBrk sixSpace emptyHeap 0x402000#64).1.pmm.bitmap 2 = true := by decide +kernel
  have free : sixSpace.pmm.bitmap 2 = false := by decide +kernel
  rw [same, free] at used
  cases used

end Isunux
