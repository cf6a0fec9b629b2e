import Isunux.Pmm

/-! `pmm_init` from the memory map of the bootloader, and the allocator over whole
histories of calls. -/
namespace Isunux

def limineMemmapUsable : Nat := 0

structure MemmapEntry where
  base : Word
  length : Word
  type : Nat

/-- The globals that `pmm_init` builds up. -/
structure MapScan where
  bitmap : Nat → Bool
  freePages : Nat
  highestAddr : Word

def markPage (s : MapScan) (idx : Nat) : MapScan :=
  if s.bitmap idx then
    { s with bitmap := Function.update s.bitmap idx false, freePages := s.freePages + 1 }
  else s

/-- `mark_region_free`. The loop goes from page to page and breaks at `MAX_PAGES`. -/
def markRegionFree (s : MapScan) (base length : Word) : MapScan :=
  let start := (base + 4095#64) &&& ~~~4095#64
  let stop := (base + length) &&& ~~~4095#64
  (List.range' (start.toNat / 4096) (min (stop.toNat / 4096) maxPages - start.toNat / 4096)).foldl
    markPage s

/-- One round of the loop of `pmm_init`. -/
def scanEntry (s : MapScan) (e : MemmapEntry) : MapScan :=
  let stop := e.base + e.length
  let s := if s.highestAddr < stop then { s with highestAddr := stop } else s
  if e.type = limineMemmapUsable then markRegionFree s e.base e.length else s

def pmmInit (memmap : List MemmapEntry) : Pmm :=
  let s := memmap.foldl scanEntry ⟨fun _ => true, 0, 0#64⟩
  let total := min (s.highestAddr.toNat / 4096) maxPages
  { bitmap := s.bitmap
    refcount := fun _ => 0
    totalPages := total
    freePages := s.freePages
    usedPages := total - s.freePages
    scanHint := 0
    exhausted := false
    hint_le := Nat.zero_le _
    total_le := Nat.min_le_right _ _ }

/-- The page lies wholly inside a USABLE entry. -/
def Usable (memmap : List MemmapEntry) (f : Nat) : Prop :=
  ∃ e ∈ memmap, e.type = limineMemmapUsable ∧ e.base.toNat ≤ f * 4096 ∧
    (f + 1) * 4096 ≤ e.base.toNat + e.length.toNat

/-- What the bootloader promises: no address of an entry overflows, rounded up to
a page or not, and page 0 is not usable. -/
structure WellFormedMap (memmap : List MemmapEntry) : Prop where
  small : ∀ e ∈ memmap, e.base.toNat + e.length.toNat < 2 ^ 64 ∧ e.base.toNat + 4095 < 2 ^ 64
  zero : ¬ Usable memmap 0

def clearBits (bitmap : Nat → Bool) : Nat :=
  ((Finset.range maxPages).filter fun f => bitmap f = false).card

theorem clearBits_mark {bitmap : Nat → Bool} {idx : Nat} (bound : idx < maxPages)
    (used : bitmap idx = true) : clearBits (Function.update bitmap idx false) = clearBits bitmap + 1 := by
  have more : (Finset.range maxPages).filter (fun f => Function.update bitmap idx false f = false) =
      insert idx ((Finset.range maxPages).filter fun f => bitmap f = false) := by
    ext f
    by_cases h : f = idx
    · subst h; simp [bound]
    · simp [h]
  unfold clearBits
  rw [more, Finset.card_insert_of_notMem (by simp [used])]

structure Scanned (memmap : List MemmapEntry) (s : MapScan) : Prop where
  clear : ∀ f, s.bitmap f = false ↔ f < maxPages ∧ Usable memmap f
  count : s.freePages = clearBits s.bitmap
  highest : ∀ e ∈ memmap, e.base.toNat + e.length.toNat ≤ s.highestAddr.toNat

theorem region_pages {e : MemmapEntry} (small : e.base.toNat + e.length.toNat < 2 ^ 64)
    (roundable : e.base.toNat + 4095 < 2 ^ 64) (f : Nat) :
    f ∈ List.range' (((e.base + 4095#64) &&& ~~~4095#64).toNat / 4096)
        (min (((e.base + e.length) &&& ~~~4095#64).toNat / 4096) maxPages -
          ((e.base + 4095#64) &&& ~~~4095#64).toNat / 4096) ↔
      f < maxPages ∧ e.base.toNat ≤ f * 4096 ∧ (f + 1) * 4096 ≤ e.base.toNat + e.length.toNat := by
  rw [mask_page_toNat, mask_page_toNat, List.mem_range'_1]
  have start : (e.base + 4095#64).toNat = e.base.toNat + 4095 := by
    rw [BitVec.toNat_add]
    simp only [BitVec.toNat_ofNat]
    omega
  have stop : (e.base + e.length).toNat = e.base.toNat + e.length.toNat := by
    rw [BitVec.toNat_add]
    omega
  rw [start, stop]
  omega

theorem markPages {s : MapScan} (count : s.freePages = clearBits s.bitmap) (xs : List Nat)
    (low : ∀ f ∈ xs, f < maxPages) :
    (∀ f, (xs.foldl markPage s).bitmap f = false ↔ s.bitmap f = false ∨ f ∈ xs) ∧
      (xs.foldl markPage s).freePages = clearBits (xs.foldl markPage s).bitmap ∧
      (xs.foldl markPage s).highestAddr = s.highestAddr := by
  induction xs generalizing s with
  | nil => exact ⟨by simp, count, rfl⟩
  | cons idx rest ih =>
    have bound := low idx List.mem_cons_self
    have step : (markPage s idx).freePages = clearBits (markPage s idx).bitmap ∧
        (∀ f, (markPage s idx).bitmap f = false ↔ s.bitmap f = false ∨ f = idx) ∧
        (markPage s idx).highestAddr = s.highestAddr := by
      unfold markPage
      split
      · rename_i used
        refine ⟨by simp only [clearBits_mark bound used, count], fun f => ?_, rfl⟩
        by_cases h : f = idx
        · subst h; simp
        · simp [h]
      · rename_i clear
        refine ⟨count, fun f => ⟨.inl, ?_⟩, rfl⟩
        rintro (h | rfl)
        · exact h
        · simpa using clear
    obtain ⟨bits, counted, highest⟩ := ih step.1 fun f hf => low f (List.mem_cons_of_mem idx hf)
    rw [List.foldl_cons]
    refine ⟨fun f => ?_, counted, highest.trans step.2.2⟩
    rw [bits, step.2.1, List.mem_cons, or_assoc]

theorem Scanned.entry {memmap : List MemmapEntry} {s : MapScan} (h : Scanned memmap s) {e : MemmapEntry}
    (small : e.base.toNat + e.length.toNat < 2 ^ 64) (roundable : e.base.toNat + 4095 < 2 ^ 64) :
    Scanned (memmap ++ [e]) (scanEntry s e) := by
  have stop : (e.base + e.length).toNat = e.base.toNat + e.length.toNat := by
    rw [BitVec.toNat_add]
    omega
  -- the highest address first, as in the source
  set s₁ : MapScan := if s.highestAddr < e.base + e.length then { s with highestAddr := e.base + e.length }
    else s with hs₁
  have bitmap : s₁.bitmap = s.bitmap ∧ s₁.freePages = s.freePages := by
    rw [hs₁]
    split <;> exact ⟨rfl, rfl⟩
  have highest : s.highestAddr.toNat ≤ s₁.highestAddr.toNat ∧
      e.base.toNat + e.length.toNat ≤ s₁.highestAddr.toNat := by
    rw [hs₁]
    split
    · rename_i more
      have : s.highestAddr.toNat < (e.base + e.length).toNat := more
      simp only
      omega
    · rename_i less
      have : ¬ s.highestAddr.toNat < (e.base + e.length).toNat := less
      omega
  have far : ∀ x ∈ memmap ++ [e], x.base.toNat + x.length.toNat ≤ s₁.highestAddr.toNat := by
    intro x hx
    rcases List.mem_append.mp hx with hx | hx
    · exact (h.highest x hx).trans highest.1
    · obtain rfl : x = e := by simpa using hx
      exact highest.2
  have usable : ∀ f, Usable (memmap ++ [e]) f ↔ Usable memmap f ∨
      (e.type = limineMemmapUsable ∧ e.base.toNat ≤ f * 4096 ∧
        (f + 1) * 4096 ≤ e.base.toNat + e.length.toNat) := by
    intro f
    simp only [Usable, List.mem_append, List.mem_singleton, or_and_right, exists_or, exists_eq_left]
  show Scanned (memmap ++ [e]) (if e.type = limineMemmapUsable then markRegionFree s₁ e.base e.length
    else s₁)
  split
  · rename_i kind
    have pages := region_pages small roundable
    obtain ⟨bits, counted, same⟩ := markPages (s := s₁) (by rw [bitmap.1, bitmap.2]; exact h.count) _
      fun f hf => ((pages f).mp hf).1
    refine ⟨fun f => ?_, counted, ?_⟩
    · show ((List.range' _ _).foldl markPage s₁).bitmap f = false ↔ _
      rw [bits, bitmap.1, h.clear, pages, usable]
      tauto
    · intro x hx
      show _ ≤ ((List.range' _ _).foldl markPage s₁).highestAddr.toNat
      rw [same]
      exact far x hx
  · rename_i kind
    refine ⟨fun f => ?_, by rw [bitmap.1, bitmap.2]; exact h.count, far⟩
    rw [bitmap.1, h.clear, usable]
    simp [kind]

theorem scan_scanned {memmap : List MemmapEntry}
    (small : ∀ e ∈ memmap, e.base.toNat + e.length.toNat < 2 ^ 64 ∧ e.base.toNat + 4095 < 2 ^ 64) :
    Scanned memmap (memmap.foldl scanEntry ⟨fun _ => true, 0, 0#64⟩) := by
  induction memmap using List.reverseRecOn with
  | nil =>
    refine ⟨fun f => ?_, ?_, by simp⟩
    · simp [Usable]
    · simp [clearBits]
  | append_singleton memmap e ih =>
    rw [List.foldl_append]
    have last := small e (by simp)
    exact (ih fun x hx => small x (List.mem_append_left _ hx)).entry last.1 last.2

/-- The allocator, and beside it how many holders each page has: one for its
allocation, one for each reference, less the frees. -/
structure Books where
  pmm : Pmm
  holders : Nat → Nat

inductive PmmOp where
  | allocPage
  | allocPages (count : Nat)
  | pageRef (f : Nat)
  | freePage (f : Nat)
  | freePages (f count : Nat)

def Books.give (s : Books) (p : Pmm) (start count : Nat) : Books :=
  ⟨p, fun f => if start ≠ 0 ∧ start ≤ f ∧ f < start + count then 1 else s.holders f⟩

/-- One call, and the frame it returns. -/
def pmmStep (s : Books) : PmmOp → Books × Nat
  | .allocPage =>
    let a := pmmAllocPage s.pmm
    (s.give a.1 a.2 1, a.2)
  | .allocPages count =>
    let a := pmmAllocPages s.pmm count
    (s.give a.1 a.2 count, a.2)
  | .pageRef f => (⟨pmmPageRef s.pmm f, Function.update s.holders f (s.holders f + 1)⟩, 0)
  | .freePage f => (⟨pmmFreePage s.pmm f, Function.update s.holders f (s.holders f - 1)⟩, 0)
  | .freePages f count =>
    (⟨pmmFreePages s.pmm f count,
      fun g => if f ≤ g ∧ g < f + count then s.holders g - 1 else s.holders g⟩, 0)

/-- Frees and references name pages that are held, and no page gets 256 holders. -/
def Disciplined (s : Books) : PmmOp → Prop
  | .allocPage => True
  | .allocPages _ => True
  | .pageRef f => 0 < s.holders f ∧ s.holders f + 1 < 256
  | .freePage f => 0 < s.holders f
  | .freePages f count => ∀ g, f ≤ g → g < f + count → 0 < s.holders g

instance (s : Books) : (op : PmmOp) → Decidable (Disciplined s op)
  | .allocPage => .isTrue trivial
  | .allocPages _ => .isTrue trivial
  | .pageRef f => inferInstanceAs (Decidable (0 < s.holders f ∧ s.holders f + 1 < 256))
  | .freePage f => inferInstanceAs (Decidable (0 < s.holders f))
  | .freePages f count =>
    decidable_of_iff (∀ g, g < f + count → f ≤ g → 0 < s.holders g)
      ⟨fun h g lo hi => h g hi lo, fun h g hi lo => h g lo hi⟩

/-- The pages the allocator has to give. -/
def InPool (memmap : List MemmapEntry) (f : Nat) : Prop := f < maxPages ∧ Usable memmap f

/-- Bits, owner counts and totals agree with the holders. -/
structure Booked (memmap : List MemmapEntry) (s : Books) : Prop where
  clear : ∀ f, s.pmm.bitmap f = false ↔ InPool memmap f ∧ s.holders f = 0
  counted : ∀ f, 0 < s.holders f → InPool memmap f ∧ (s.pmm.refcount f).toNat = s.holders f
  tracked : ∀ f, InPool memmap f → f < s.pmm.totalPages ∧ f ≠ 0
  free : s.pmm.freePages = freeFrames s.pmm
  sum : s.pmm.freePages + s.pmm.usedPages = s.pmm.totalPages

section Booked

variable {memmap : List MemmapEntry} {s : Books}

theorem clearBits_eq {bitmap : Nat → Bool} {p : Pmm} (same : p.bitmap = bitmap)
    (low : ∀ f, bitmap f = false → f < p.totalPages ∧ f < maxPages) : clearBits bitmap = freeFrames p := by
  refine congrArg Finset.card (Finset.ext fun f => ?_)
  rw [Finset.mem_filter, Finset.mem_filter, Finset.mem_range, Finset.mem_range, same]
  constructor
  · rintro ⟨-, h⟩
    exact ⟨(low f h).1, h⟩
  · rintro ⟨-, h⟩
    exact ⟨(low f h).2, h⟩

theorem Booked.clearBits (b : Booked memmap s) : clearBits s.pmm.bitmap = freeFrames s.pmm := by
  refine clearBits_eq rfl fun f h => ?_
  have pool := ((b.clear f).mp h).1
  exact ⟨(b.tracked f pool).1, pool.1⟩

theorem pmmInit_booked (wf : WellFormedMap memmap) : Booked memmap ⟨pmmInit memmap, fun _ => 0⟩ := by
  have scan := scan_scanned wf.small
  have tracked : ∀ f, InPool memmap f → f < (pmmInit memmap).totalPages ∧ f ≠ 0 := by
    rintro f ⟨bound, usable⟩
    refine ⟨?_, ?_⟩
    · obtain ⟨e, he, -, -, inside⟩ := usable
      have := scan.highest e he
      refine lt_min ?_ bound
      omega
    · rintro rfl
      exact wf.zero usable
  have free : (pmmInit memmap).freePages = freeFrames (pmmInit memmap) := by
    refine scan.count.trans (clearBits_eq rfl fun f h => ?_)
    have pool := (scan.clear f).mp h
    exact ⟨(tracked f pool).1, pool.1⟩
  refine ⟨fun f => ?_, fun f h => absurd h (lt_irrefl 0), tracked, free, ?_⟩
  · exact (scan.clear f).trans (by simp [InPool])
  · have le : freeFrames (pmmInit memmap) ≤ (pmmInit memmap).totalPages := by
      refine (Finset.card_filter_le _ _).trans ?_
      simp
    have used : (pmmInit memmap).usedPages = (pmmInit memmap).totalPages - (pmmInit memmap).freePages := rfl
    simp only
    omega

theorem Booked.give (b : Booked memmap s) {p : Pmm} {start count : Nat} (nonzero : start ≠ 0)
    (clear : ∀ f, start ≤ f → f < start + count → s.pmm.bitmap f = false)
    (bitmap : ∀ f, p.bitmap f = if start ≤ f ∧ f < start + count then true else s.pmm.bitmap f)
    (refcount : ∀ f, p.refcount f = if start ≤ f ∧ f < start + count then 1 else s.pmm.refcount f)
    (total : p.totalPages = s.pmm.totalPages) (fewer : freeFrames p + count = freeFrames s.pmm)
    (free : p.freePages = s.pmm.freePages - count) (used : p.usedPages = s.pmm.usedPages + count) :
    Booked memmap (s.give p start count) := by
  have bfree := b.free
  have bsum := b.sum
  refine ⟨fun f => ?_, fun f => ?_, fun f pool => ?_, ?_, ?_⟩
  · show p.bitmap f = false ↔ _
    rw [bitmap]
    by_cases h : start ≤ f ∧ f < start + count
    · simp [Books.give, h, nonzero]
    · rw [if_neg h, b.clear]
      simp [Books.give, h]
  · show 0 < (s.give p start count).holders f → _ ∧ (p.refcount f).toNat = (s.give p start count).holders f
    rw [refcount]
    by_cases h : start ≤ f ∧ f < start + count
    · intro _
      exact ⟨((b.clear f).mp (clear f h.1 h.2)).1, by simp [Books.give, h, nonzero]⟩
    · simp only [Books.give, h, and_false, if_false]
      exact b.counted f
  · show f < p.totalPages ∧ f ≠ 0
    rw [total]
    exact b.tracked f pool
  · show p.freePages = freeFrames p
    omega
  · show p.freePages + p.usedPages = p.totalPages
    omega

theorem Booked.allocPage (b : Booked memmap s) : Booked memmap (pmmStep s .allocPage).1 := by
  have zero : Held s.pmm 0 := by
    intro _
    by_contra h
    exact (b.tracked 0 ((b.clear 0).mp (by simpa using h)).1).2 rfl
  by_cases failed : (pmmAllocPage s.pmm).2 = 0
  · obtain ⟨-, same⟩ := pmmAllocPage_zero zero failed
    simp only [pmmStep, Books.give, failed, same, ne_eq, not_true_eq_false, false_and, if_false]
    exact ⟨b.clear, b.counted, b.tracked, b.free, b.sum⟩
  · obtain ⟨bound, clear, eq⟩ := pmmAllocPage_fresh failed
    have one : ∀ f, (pmmAllocPage s.pmm).2 ≤ f ∧ f < (pmmAllocPage s.pmm).2 + 1 ↔
        f = (pmmAllocPage s.pmm).2 := by omega
    have fewer := freeFrames_take s.pmm bound clear
    refine b.give failed ?_ ?_ ?_ (pmmAllocPage_total s.pmm) (by rw [eq]; exact fewer) (by rw [eq]; rfl)
      (by rw [eq]; rfl)
    · intro f lo hi
      rw [(one f).mp ⟨lo, hi⟩]
      exact clear
    · intro f
      rw [eq]
      by_cases h : f = (pmmAllocPage s.pmm).2
      · simp [Pmm.take, h]
      · rw [if_neg (mt (one f).mp h)]
        simp [Pmm.take, h]
    · intro f
      rw [eq]
      by_cases h : f = (pmmAllocPage s.pmm).2
      · simp [Pmm.take, h]
      · rw [if_neg (mt (one f).mp h)]
        simp [Pmm.take, h]

theorem Booked.start_ne_zero (b : Booked memmap s) {f : Nat} (clear : s.pmm.bitmap f = false) : f ≠ 0 :=
  (b.tracked f ((b.clear f).mp clear).1).2

theorem Booked.allocPages (b : Booked memmap s) (count : Nat) :
    Booked memmap (pmmStep s (.allocPages count)).1 := by
  rcases pmmAllocPages_cases s.pmm count with eq | ⟨start, pos, inside, clear, eq⟩
  · simp only [pmmStep, Books.give, eq, ne_eq, not_true_eq_false, false_and, if_false]
    exact b
  · have nonzero := b.start_ne_zero (clear start le_rfl (by omega))
    have fewer : freeFrames (pmmAllocPages s.pmm count).1 + count = freeFrames s.pmm :=
      freeFrames_allocPages (by rw [eq]; exact nonzero)
    simp only [pmmStep]
    rw [eq] at fewer ⊢
    exact b.give nonzero clear (fun _ => rfl) (fun _ => rfl) rfl fewer rfl rfl

theorem Booked.used (b : Booked memmap s) {f : Nat} (held : 0 < s.holders f) : s.pmm.bitmap f = true := by
  by_contra h
  have := ((b.clear f).mp (by simpa using h)).2
  omega

theorem Booked.pageRef (b : Booked memmap s) {f : Nat} (held : 0 < s.holders f)
    (few : s.holders f + 1 < 256) : Booked memmap (pmmStep s (.pageRef f)).1 := by
  obtain ⟨pool, count⟩ := b.counted f held
  have eq : pmmPageRef s.pmm f =
      { s.pmm with refcount := Function.update s.pmm.refcount f (s.pmm.refcount f + 1) } := by
    simp [pmmPageRef, b.used held, (b.tracked f pool).1]
  simp only [pmmStep, eq]
  refine ⟨fun g => ?_, fun g => ?_, b.tracked, b.free, b.sum⟩
  · by_cases h : g = f
    · subst h
      simp [b.used held]
    · simpa [h] using b.clear g
  · by_cases h : g = f
    · subst h
      intro _
      refine ⟨pool, ?_⟩
      simp only [Function.update_self, UInt8.toNat_add, count, UInt8.reduceToNat]
      omega
    · simpa [h] using b.counted g

theorem freeFrames_free {p : Pmm} {f : Nat} (bound : f < p.totalPages) (used : p.bitmap f = true)
    {p' : Pmm} (total : p'.totalPages = p.totalPages) (bitmap : p'.bitmap = Function.update p.bitmap f false) :
    freeFrames p' = freeFrames p + 1 := by
  have more : (Finset.range p'.totalPages).filter (fun g => p'.bitmap g = false) =
      insert f ((Finset.range p.totalPages).filter fun g => p.bitmap g = false) := by
    ext g
    rw [total, bitmap]
    by_cases h : g = f
    · subst h; simp [bound]
    · simp [h]
  unfold freeFrames
  rw [more, Finset.card_insert_of_notMem (by simp [used])]

theorem Booked.freePage (b : Booked memmap s) {f : Nat} (held : 0 < s.holders f) :
    Booked memmap (pmmStep s (.freePage f)).1 := by
  obtain ⟨pool, count⟩ := b.counted f held
  have used := b.used held
  have bound := (b.tracked f pool).1
  have bfree := b.free
  have bsum := b.sum
  by_cases many : 1 < s.pmm.refcount f
  · have eq : pmmFreePage s.pmm f =
        { s.pmm with refcount := Function.update s.pmm.refcount f (s.pmm.refcount f - 1) } := by
      simp [pmmFreePage, used, bound, many]
    have several : 1 < s.holders f := by
      rw [← count]
      simpa [UInt8.lt_iff_toNat_lt] using many
    simp only [pmmStep, eq]
    refine ⟨fun g => ?_, fun g => ?_, b.tracked, b.free, b.sum⟩
    · by_cases h : g = f
      · subst h
        simp only [used, Function.update_self]
        simp only [reduceCtorEq, false_iff, not_and]
        omega
      · simpa [h] using b.clear g
    · by_cases h : g = f
      · subst h
        intro _
        refine ⟨pool, ?_⟩
        have le : (1 : UInt8) ≤ s.pmm.refcount g := UInt8.le_of_lt many
        simp only [Function.update_self, UInt8.toNat_sub_of_le _ _ le, count, UInt8.reduceToNat]
      · simpa [h] using b.counted g
  · have single : s.holders f = 1 := by
      have h := mt UInt8.lt_iff_toNat_lt.mpr many
      simp only [UInt8.reduceToNat, count] at h
      omega
    have bitmap : (pmmFreePage s.pmm f).bitmap = Function.update s.pmm.bitmap f false := by
      simp [pmmFreePage, used, bound, many]
    have more := freeFrames_free bound used (pmmFreePage_total s.pmm f) bitmap
    have pages : (pmmFreePage s.pmm f).freePages = s.pmm.freePages + 1 ∧
        (pmmFreePage s.pmm f).usedPages = s.pmm.usedPages - 1 := by
      simp [pmmFreePage, used, bound, many]
    have some_used : 0 < s.pmm.usedPages := by
      have lt : freeFrames s.pmm < s.pmm.totalPages := by
        refine (Finset.card_lt_card (Finset.filter_ssubset.mpr ⟨f, ?_, ?_⟩)).trans_eq (Finset.card_range _)
        · simpa using bound
        · simp [used]
      omega
    simp only [pmmStep]
    refine ⟨fun g => ?_, fun g => ?_, fun g hg => ?_, ?_, ?_⟩
    · show (pmmFreePage s.pmm f).bitmap g = false ↔ _
      rw [bitmap]
      by_cases h : g = f
      · subst h
        simp [single, pool]
      · simpa [h] using b.clear g
    · by_cases h : g = f
      · subst h
        simp [single]
      · simp only [Function.update_of_ne h, (pmmFreePage_other s.pmm h).2]
        exact b.counted g
    · show g < (pmmFreePage s.pmm f).totalPages ∧ _
      rw [pmmFreePage_total]
      exact b.tracked g hg
    · show (pmmFreePage s.pmm f).freePages = freeFrames (pmmFreePage s.pmm f)
      omega
    · show (pmmFreePage s.pmm f).freePages + (pmmFreePage s.pmm f).usedPages = _
      rw [pmmFreePage_total]
      omega

theorem Booked.freePages (b : Booked memmap s) {f count : Nat}
    (held : ∀ g, f ≤ g → g < f + count → 0 < s.holders g) :
    Booked memmap (pmmStep s (.freePages f count)).1 := by
  -- after `i` rounds the first `i` pages have lost a holder
  have rounds := Run.range_rule
    (fun i p => Booked memmap ⟨p, fun g => if f ≤ g ∧ g < f + i then s.holders g - 1 else s.holders g⟩)
    (fun q i => pmmFreePage q (f + i)) count s.pmm
  refine rounds ?_ ?_
  · have none : ∀ g, ¬ (f ≤ g ∧ g < f + 0) := by omega
    simp only [none, if_false]
    exact b
  · intro i hi p h
    have step := h.freePage (f := f + i) (by simpa using held (f + i) (by omega) (by omega))
    have same : Function.update
        (fun g => if f ≤ g ∧ g < f + i then s.holders g - 1 else s.holders g) (f + i)
        ((if f ≤ f + i ∧ f + i < f + i then s.holders (f + i) - 1 else s.holders (f + i)) - 1) =
        fun g => if f ≤ g ∧ g < f + (i + 1) then s.holders g - 1 else s.holders g := by
      funext g
      by_cases h : g = f + i
      · subst h
        simp
      · simp only [Function.update_of_ne h]
        have : f ≤ g ∧ g < f + i ↔ f ≤ g ∧ g < f + (i + 1) := by omega
        simp only [this]
    simp only [pmmStep] at step
    rwa [same] at step

theorem pmmStep_booked (op : PmmOp) (b : Booked memmap s) (ok : Disciplined s op) :
    Booked memmap (pmmStep s op).1 := by
  cases op with
  | allocPage => exact b.allocPage
  | allocPages count => exact b.allocPages count
  | pageRef f => exact b.pageRef ok.1 ok.2
  | freePage f => exact b.freePage ok
  | freePages f count => exact b.freePages ok

end Booked

/-- The allocator after any disciplined history on any memory map: the counters
count the bits, a page is free exactly while all its holders have let go of it, what
is handed out was free and usable, and a failed single allocation means that nothing
is free, wherever the scan starts. -/
theorem allocator_correct {memmap : List MemmapEntry} (wf : WellFormedMap memmap) (ops : List PmmOp)
    (along : Run.Along pmmStep Disciplined ⟨pmmInit memmap, fun _ => 0⟩ ops) :
    let s := (Run.run pmmStep ⟨pmmInit memmap, fun _ => 0⟩ ops).1
    let p := s.pmm
    p.freePages = clearBits p.bitmap ∧ p.freePages + p.usedPages = p.totalPages ∧
    (∀ f, Usable memmap f → f < p.totalPages → (p.bitmap f = false ↔ s.holders f = 0)) ∧
    (∀ f, 0 < s.holders f → (p.refcount f).toNat = s.holders f) ∧
    ((pmmAllocPage p).2 ≠ 0 → Usable memmap (pmmAllocPage p).2 ∧
      (pmmAllocPage p).2 < p.totalPages ∧ s.holders (pmmAllocPage p).2 = 0) ∧
    (∀ count, (pmmAllocPages p count).2 ≠ 0 →
      ∀ f, (pmmAllocPages p count).2 ≤ f → f < (pmmAllocPages p count).2 + count →
        Usable memmap f ∧ f < p.totalPages ∧ s.holders f = 0) ∧
    ∀ hint (inside : hint ≤ p.totalPages),
      (pmmAllocPage { p with scanHint := hint, hint_le := inside }).2 = 0 →
        ∀ f, f < p.totalPages → p.bitmap f = true := by
  intro s p
  have b : Booked memmap s := Run.run_invariant_along pmmStep Disciplined (Booked memmap)
    (fun _ op h ok => pmmStep_booked op h ok) _ ops (pmmInit_booked wf) along
  have given : ∀ f, p.bitmap f = false → Usable memmap f ∧ f < p.totalPages ∧ s.holders f = 0 := by
    intro f clear
    obtain ⟨pool, none⟩ := (b.clear f).mp clear
    exact ⟨pool.2, (b.tracked f pool).1, none⟩
  refine ⟨b.free.trans b.clearBits.symm, b.sum, ?_, fun f h => (b.counted f h).2, ?_, ?_, ?_⟩
  · intro f usable bound
    rw [b.clear]
    exact and_iff_right ⟨bound.trans_le p.total_le, usable⟩
  · intro ok
    obtain ⟨-, clear, -⟩ := pmmAllocPage_fresh ok
    exact given _ clear
  · intro count ok f lo hi
    rcases pmmAllocPages_cases p count with eq | ⟨start, -, -, clear, eq⟩
    · rw [eq] at ok
      exact absurd rfl ok
    · rw [eq] at lo hi
      exact given f (clear f lo hi)
  · intro hint inside failed f bound
    have zero : Held { p with scanHint := hint, hint_le := inside } 0 := by
      intro _
      by_contra h
      exact b.start_ne_zero (f := 0) (by simpa using h) rfl
    exact (pmmAllocPage_zero zero failed).1 f bound

/-- Reserved low memory and one unaligned usable region, pages 2 to 5. -/
def smallMap : List MemmapEntry := [⟨0x0#64, 0x1800#64, 1⟩, ⟨0x1800#64, 0x4900#64, 0⟩]

theorem smallMap_wellFormed : WellFormedMap smallMap := by
  refine ⟨by decide, ?_⟩
  rintro ⟨e, mem, kind, low, -⟩
  simp only [smallMap, List.mem_cons, List.not_mem_nil, or_false] at mem
  rcases mem with rfl | rfl
  · cases kind
  · simp at low

theorem allocator_correct_small :
    let s := (Run.run pmmStep ⟨pmmInit smallMap, fun _ => 0⟩
      [.allocPage, .pageRef 2, .allocPages 2, .freePage 2, .freePages 3 2, .freePage 2]).1
    s.pmm.freePages = clearBits s.pmm.bitmap ∧ s.pmm.freePages + s.pmm.usedPages = s.pmm.totalPages :=
  have correct := allocator_correct smallMap_wellFormed
    [.allocPage, .pageRef 2, .allocPages 2, .freePage 2, .freePages 3 2, .freePage 2]
    ⟨trivial, by decide +kernel, trivial, by decide +kernel, by decide +kernel, by decide +kernel, trivial⟩
  ⟨correct.1, correct.2.1⟩

end Isunux
