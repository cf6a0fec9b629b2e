import Isunux.Memory
import Isunux.Lib.Ledger
import Isunux.Lib.Run

/-! The physical page allocator, pmm.c. A bit per tracked page, a wrapping 8-bit
owner count per page and a scan hint. Addresses are frame numbers. -/
namespace Isunux

/-- `MAX_PAGES`: the static bitmap covers 4 GiB. -/
def maxPages : Nat := 2 ^ 20

/-- The allocator's globals. `exhausted` is not in the source: it records that
some `pmm_alloc_page` call has returned 0. -/
structure Pmm where
  bitmap : Nat → Bool
  refcount : Nat → UInt8
  totalPages : Nat
  freePages : Nat
  usedPages : Nat
  scanHint : Nat
  exhausted : Bool
  hint_le : scanHint ≤ totalPages
  total_le : totalPages ≤ maxPages

/-- A small memory, as the examples of later modules use it. -/
@[simps]
def Pmm.small (total : BitVec 6) (bitmap : Nat → Bool) (refcount : Nat → UInt8) (free used : Nat) : Pmm where
  bitmap := bitmap
  refcount := refcount
  totalPages := total.toNat
  freePages := free
  usedPages := used
  scanHint := 0
  exhausted := false
  hint_le := Nat.zero_le _
  total_le := (Nat.le_of_lt total.isLt).trans (by decide)

/-- The scanning loops of `pmm_alloc_page`: the first clear bit in `[lo, hi)`. -/
def findClear (bitmap : Nat → Bool) (lo hi : Nat) : Option Nat :=
  (List.range' lo (hi - lo)).find? fun i => !bitmap i

theorem findClear_some {bitmap : Nat → Bool} {lo hi i : Nat} (h : findClear bitmap lo hi = some i) :
    lo ≤ i ∧ i < hi ∧ bitmap i = false := by
  have hp := List.find?_some h
  have hm := List.mem_range'_1.mp (List.mem_of_find?_eq_some h)
  simp only [Bool.not_eq_true'] at hp
  exact ⟨hm.1, by omega, hp⟩

/-- What both loops of `pmm_alloc_page` do with the page they found. -/
def Pmm.take (p : Pmm) (idx : Nat) (bound : idx < p.totalPages) : Pmm :=
  { p with
    bitmap := Function.update p.bitmap idx true
    freePages := p.freePages - 1
    usedPages := p.usedPages + 1
    scanHint := idx + 1
    refcount := Function.update p.refcount idx 1
    exhausted := p.exhausted || idx == 0
    hint_le := bound }

/-- Frame number of a fresh page, or 0. -/
def pmmAllocPage (p : Pmm) : Pmm × Nat :=
  match first : findClear p.bitmap p.scanHint p.totalPages with
  | some idx => (p.take idx (findClear_some first).2.1, idx)
  | none =>
    match second : findClear p.bitmap 0 p.scanHint with
    | some idx =>
      (p.take idx (Nat.lt_of_lt_of_le (findClear_some second).2.1 p.hint_le), idx)
    | none => ({ p with exhausted := true }, 0)

/-- The inner loop of `pmm_alloc_pages`: how far a run of clear bits reaches. -/
def runLength (bitmap : Nat → Bool) (start count : Nat) : Nat :=
  ((List.range count).find? fun j => bitmap (start + j)).getD count

/-- The outer loop, which skips past the page that broke the run. -/
def searchRun (bitmap : Nat → Bool) (total count : Nat) : Nat → Nat → Option Nat
  | 0, _ => none
  | fuel + 1, start =>
    if start + count ≤ total then
      let j := runLength bitmap start count
      if j = count then some start else searchRun bitmap total count fuel (start + j + 1)
    else none

/-- First frame of `count` contiguous fresh pages, or 0. -/
def pmmAllocPages (p : Pmm) (count : Nat) : Pmm × Nat :=
  if count = 0 ∨ p.totalPages < count then (p, 0)
  else
    match searchRun p.bitmap p.totalPages count (p.totalPages + 1) 0 with
    | none => (p, 0)
    | some start =>
      ({ p with
          bitmap := fun i => if start ≤ i ∧ i < start + count then true else p.bitmap i
          refcount := fun i => if start ≤ i ∧ i < start + count then 1 else p.refcount i
          freePages := p.freePages - count
          usedPages := p.usedPages + count }, start)

def pmmFreePage (p : Pmm) (idx : Nat) : Pmm :=
  if bound : idx < p.totalPages then
    if p.bitmap idx = false then p
    else if 1 < p.refcount idx then
      { p with refcount := Function.update p.refcount idx (p.refcount idx - 1) }
    else
      { p with
        bitmap := Function.update p.bitmap idx false
        refcount := Function.update p.refcount idx 0
        freePages := p.freePages + 1
        usedPages := p.usedPages - 1
        scanHint := if idx < p.scanHint then idx else p.scanHint
        hint_le := by
          split
          · exact Nat.le_of_lt bound
          · exact p.hint_le }
  else p

def pmmPageRef (p : Pmm) (idx : Nat) : Pmm :=
  if idx < p.totalPages ∧ p.bitmap idx = true then
    { p with refcount := Function.update p.refcount idx (p.refcount idx + 1) }
  else p

def pmmPageRefcount (p : Pmm) (idx : Nat) : UInt8 :=
  if idx < p.totalPages then p.refcount idx else 0

def pmmFreePages (p : Pmm) (idx count : Nat) : Pmm :=
  (List.range count).foldl (fun q i => pmmFreePage q (idx + i)) p

/-! Effects of each call on the used bits and owner counts. -/

def Pmm.owners (p : Pmm) (f : Nat) : Nat := (p.refcount f).toNat

theorem pmmAllocPage_cases (p : Pmm) :
    (∃ idx bound, p.bitmap idx = false ∧ pmmAllocPage p = (p.take idx bound, idx)) ∨
      pmmAllocPage p = ({ p with exhausted := true }, 0) := by
  unfold pmmAllocPage
  split
  · rename_i idx first
    exact .inl ⟨idx, (findClear_some first).2.1, (findClear_some first).2.2, rfl⟩
  · split
    · rename_i idx second
      exact .inl ⟨idx, Nat.lt_of_lt_of_le (findClear_some second).2.1 p.hint_le,
        (findClear_some second).2.2, rfl⟩
    · exact .inr rfl

/-- A call that did not return 0 took a clear page. -/
theorem pmmAllocPage_spec (p : Pmm) (fine : (pmmAllocPage p).1.exhausted = false) :
    ∃ bound, p.exhausted = false ∧ (pmmAllocPage p).2 ≠ 0 ∧
      p.bitmap (pmmAllocPage p).2 = false ∧ (pmmAllocPage p).1 = p.take (pmmAllocPage p).2 bound := by
  rcases pmmAllocPage_cases p with ⟨idx, bound, clear, h⟩ | h
  · rw [h] at fine ⊢
    simp only [Pmm.take, Bool.or_eq_false_iff, beq_eq_false_iff_ne] at fine
    exact ⟨bound, fine.1, fine.2, clear, rfl⟩
  · rw [h] at fine
    cases fine

theorem pmmAllocPage_exhausted (p : Pmm) (h : p.exhausted = true) :
    (pmmAllocPage p).1.exhausted = true := by
  rcases pmmAllocPage_cases p with ⟨idx, bound, _, e⟩ | e
  · rw [e]; simp [Pmm.take, h]
  · rw [e]

@[simp] theorem pmmAllocPage_total (p : Pmm) : (pmmAllocPage p).1.totalPages = p.totalPages := by
  rcases pmmAllocPage_cases p with ⟨idx, bound, _, e⟩ | e <;> rw [e]
  rfl

@[simp] theorem pmmFreePage_total (p : Pmm) (f : Nat) :
    (pmmFreePage p f).totalPages = p.totalPages := by
  unfold pmmFreePage
  split
  · split
    · rfl
    · split <;> rfl
  · rfl

@[simp] theorem pmmFreePage_exhausted (p : Pmm) (f : Nat) :
    (pmmFreePage p f).exhausted = p.exhausted := by
  unfold pmmFreePage
  split
  · split
    · rfl
    · split <;> rfl
  · rfl

@[simp] theorem pmmPageRef_total (p : Pmm) (f : Nat) :
    (pmmPageRef p f).totalPages = p.totalPages := by
  unfold pmmPageRef
  split <;> rfl

@[simp] theorem pmmPageRef_exhausted (p : Pmm) (f : Nat) :
    (pmmPageRef p f).exhausted = p.exhausted := by
  unfold pmmPageRef
  split <;> rfl

theorem pmmFreePage_other (p : Pmm) {f g : Nat} (h : g ≠ f) :
    (pmmFreePage p f).bitmap g = p.bitmap g ∧ (pmmFreePage p f).refcount g = p.refcount g := by
  unfold pmmFreePage
  split
  · split
    · exact ⟨rfl, rfl⟩
    · split <;> simp [h]
  · exact ⟨rfl, rfl⟩

theorem pmmFreePages_total (p : Pmm) (f n : Nat) : (pmmFreePages p f n).totalPages = p.totalPages :=
  Run.foldl_rule (fun q => q.totalPages = p.totalPages) _ _ p rfl
    fun i _ q h => (pmmFreePage_total q (f + i)).trans h

theorem pmmFreePages_other (p : Pmm) {f n g : Nat} (off : ¬ (f ≤ g ∧ g < f + n)) :
    (pmmFreePages p f n).bitmap g = p.bitmap g ∧ (pmmFreePages p f n).refcount g = p.refcount g := by
  refine Run.foldl_rule (fun q => q.bitmap g = p.bitmap g ∧ q.refcount g = p.refcount g) _ _ p
    ⟨rfl, rfl⟩ fun i hi q h => ?_
  have bound := List.mem_range.mp hi
  obtain ⟨bit, count⟩ := pmmFreePage_other q (show g ≠ f + i by omega)
  exact ⟨bit.trans h.1, count.trans h.2⟩

theorem pmmFreePages_keeps_clear (p : Pmm) (f n : Nat) {g : Nat} (clear : p.bitmap g = false) :
    (pmmFreePages p f n).bitmap g = false := by
  refine Run.foldl_rule (fun q => q.bitmap g = false) _ _ p clear fun i _ q h => ?_
  by_cases here : g = f + i
  · subst here
    have idle : pmmFreePage q (f + i) = q := by simp [pmmFreePage, h]
    rw [idle]
    exact h
  · rw [(pmmFreePage_other q here).1]
    exact h

theorem pmmFreePages_clear (p : Pmm) {f n g : Nat} (lo : f ≤ g) (hi : g < f + n)
    (bound : g < p.totalPages) (sole : p.refcount g = 1) : (pmmFreePages p f n).bitmap g = false := by
  have loop := Run.range_rule
    (fun i (q : Pmm) => q.totalPages = p.totalPages ∧ (g < f + i → q.bitmap g = false) ∧
      (f + i ≤ g → q.bitmap g = p.bitmap g ∧ q.refcount g = p.refcount g))
    (fun q i => pmmFreePage q (f + i)) n p ⟨rfl, fun h => by omega, fun _ => ⟨rfl, rfl⟩⟩
    (by
      rintro i - q ⟨total, freed, kept⟩
      refine ⟨(pmmFreePage_total q _).trans total, fun h => ?_, fun h => ?_⟩
      · by_cases here : g = f + i
        · obtain ⟨-, count⟩ := kept (by omega)
          rw [pmmFreePage, ← here, dif_pos (total ▸ bound), count, sole]
          split
          · assumption
          · simp
        · rw [(pmmFreePage_other q here).1]
          exact freed (by omega)
      · obtain ⟨bit, count⟩ := pmmFreePage_other q (show g ≠ f + i by omega)
        obtain ⟨bit', count'⟩ := kept (by omega)
        exact ⟨bit.trans bit', count.trans count'⟩)
  exact loop.2.1 hi

/-! Allocations only take pages; nothing that was in use changes. -/

/-- A tracked page that is in use, or a page the bitmap does not cover. -/
def Held (p : Pmm) (f : Nat) : Prop := f < p.totalPages → p.bitmap f = true

structure Grown (p p' : Pmm) : Prop where
  total : p'.totalPages = p.totalPages
  used : ∀ f, p.bitmap f = true → p'.bitmap f = true ∧ p'.refcount f = p.refcount f

theorem Grown.refl (p : Pmm) : Grown p p := ⟨rfl, fun _ h => ⟨h, rfl⟩⟩

theorem Grown.trans {p p' p'' : Pmm} (h : Grown p p') (h' : Grown p' p'') : Grown p p'' := by
  refine ⟨h'.total.trans h.total, fun f used => ?_⟩
  obtain ⟨used', count⟩ := h.used f used
  obtain ⟨used'', count'⟩ := h'.used f used'
  exact ⟨used'', count'.trans count⟩

theorem Grown.held {p p' : Pmm} (h : Grown p p') {f : Nat} (held : Held p f) : Held p' f := by
  intro bound
  rw [h.total] at bound
  exact (h.used f (held bound)).1

theorem pmmAllocPage_grown (p : Pmm) : Grown p (pmmAllocPage p).1 := by
  refine ⟨pmmAllocPage_total p, fun f used => ?_⟩
  rcases pmmAllocPage_cases p with ⟨idx, bound, clear, e⟩ | e
  · have other : f ≠ idx := by
      rintro rfl
      rw [used] at clear
      cases clear
    rw [e]
    simp [Pmm.take, other, used]
  · rw [e]
    exact ⟨used, rfl⟩

theorem findClear_none {bitmap : Nat → Bool} {lo hi : Nat} (h : findClear bitmap lo hi = none)
    {f : Nat} (hlo : lo ≤ f) (hhi : f < hi) : bitmap f = true := by
  have h := List.find?_eq_none.mp h f (List.mem_range'_1.mpr ⟨hlo, by omega⟩)
  simpa using h

/-- Where frame zero is never handed out, the value 0 means that every page is in use. -/
theorem pmmAllocPage_zero {p : Pmm} (zero : Held p 0) (failed : (pmmAllocPage p).2 = 0) :
    (∀ f, Held p f) ∧ (pmmAllocPage p).1 = { p with exhausted := true } := by
  unfold pmmAllocPage at failed ⊢
  split at failed
  · rename_i idx first
    obtain ⟨-, bound, clear⟩ := findClear_some first
    simp only at failed
    subst failed
    rw [zero bound] at clear
    cases clear
  · rename_i first
    split at failed
    · rename_i idx second
      obtain ⟨-, bound, clear⟩ := findClear_some second
      simp only at failed
      subst failed
      rw [zero (Nat.lt_of_lt_of_le bound p.hint_le)] at clear
      cases clear
    · rename_i second
      have full : ∀ f, Held p f := by
        intro f bound
        rcases Nat.lt_or_ge f p.scanHint with below | above
        · exact findClear_none second (Nat.zero_le f) below
        · exact findClear_none first above bound
      exact ⟨full, rfl⟩

theorem pmmAllocPage_fresh {p : Pmm} (ok : (pmmAllocPage p).2 ≠ 0) :
    ∃ bound, p.bitmap (pmmAllocPage p).2 = false ∧
      (pmmAllocPage p).1 = p.take (pmmAllocPage p).2 bound := by
  rcases pmmAllocPage_cases p with ⟨idx, bound, clear, e⟩ | e
  · rw [e]
    exact ⟨bound, clear, rfl⟩
  · rw [e] at ok
    exact absurd rfl ok

def freeFrames (p : Pmm) : Nat :=
  ((Finset.range p.totalPages).filter fun f => p.bitmap f = false).card

theorem freeFrames_take (p : Pmm) {idx : Nat} (bound : idx < p.totalPages)
    (clear : p.bitmap idx = false) : freeFrames (p.take idx bound) + 1 = freeFrames p := by
  have mem : idx ∈ (Finset.range p.totalPages).filter fun f => p.bitmap f = false := by
    simp [bound, clear]
  have rest : (Finset.range p.totalPages).filter
      (fun f => (p.take idx bound).bitmap f = false) =
      ((Finset.range p.totalPages).filter fun f => p.bitmap f = false).erase idx := by
    ext f
    rw [Finset.mem_erase, Finset.mem_filter, Finset.mem_filter]
    by_cases h : f = idx
    · subst h; simp [Pmm.take]
    · simp [Pmm.take, h]
  unfold freeFrames
  rw [show (p.take idx bound).totalPages = p.totalPages from rfl, rest]
  exact Finset.card_erase_add_one mem

theorem freeFrames_eq_zero {p : Pmm} (full : ∀ f, Held p f) : freeFrames p = 0 := by
  rw [freeFrames, Finset.card_eq_zero, Finset.filter_eq_empty_iff]
  intro f hf
  rw [full f (Finset.mem_range.mp hf)]
  simp

theorem small_of_bound {p : Pmm} {g : Nat} (bound : g < p.totalPages) : g < 2 ^ 52 := by
  have most := p.total_le
  simp only [maxPages] at most
  omega

theorem runLength_clear {bitmap : Nat → Bool} {start count : Nat}
    (h : runLength bitmap start count = count) {f : Nat} (lo : start ≤ f) (hi : f < start + count) :
    bitmap f = false := by
  unfold runLength at h
  cases found : (List.range count).find? fun j => bitmap (start + j) with
  | some j =>
    have bound := List.mem_range.mp (List.mem_of_find?_eq_some found)
    rw [found, Option.getD_some] at h
    omega
  | none =>
    have h := List.find?_eq_none.mp found (f - start) (List.mem_range.mpr (by omega))
    rw [show start + (f - start) = f by omega] at h
    simpa using h

theorem searchRun_some {bitmap : Nat → Bool} {total count : Nat} {fuel start found : Nat}
    (h : searchRun bitmap total count fuel start = some found) :
    found + count ≤ total ∧ ∀ f, found ≤ f → f < found + count → bitmap f = false := by
  induction fuel generalizing start with
  | zero => cases h
  | succ fuel ih =>
    unfold searchRun at h
    split at h
    · rename_i inside
      simp only at h
      split at h
      · rename_i whole
        cases Option.some.inj h
        exact ⟨inside, fun f lo hi => runLength_clear whole lo hi⟩
      · exact ih h
    · cases h

theorem runLength_blocked {bitmap : Nat → Bool} {start count : Nat}
    (h : runLength bitmap start count ≠ count) :
    runLength bitmap start count < count ∧ bitmap (start + runLength bitmap start count) = true := by
  unfold runLength at h ⊢
  cases found : (List.range count).find? fun j => bitmap (start + j) with
  | some j =>
    rw [Option.getD_some]
    exact ⟨List.mem_range.mp (List.mem_of_find?_eq_some found), by simpa using List.find?_some found⟩
  | none =>
    rw [found] at h
    exact absurd rfl h

/-- A search that finds nothing has seen a used page in every run it could have taken. -/
theorem searchRun_none {bitmap : Nat → Bool} {total count : Nat} (sized : 0 < count) {fuel start : Nat}
    (fuelled : total < start + fuel) (h : searchRun bitmap total count fuel start = none) {a : Nat}
    (later : start ≤ a) (inside : a + count ≤ total) :
    ∃ f, a ≤ f ∧ f < a + count ∧ bitmap f = true := by
  induction fuel generalizing start with
  | zero => omega
  | succ fuel ih =>
    unfold searchRun at h
    rw [if_pos (by omega)] at h
    simp only at h
    split at h
    · cases h
    · rename_i part
      obtain ⟨short, used⟩ := runLength_blocked part
      by_cases past : start + runLength bitmap start count < a
      · exact ih (by omega) h (by omega)
      · exact ⟨_, by omega, by omega, used⟩

theorem pmmAllocPages_cases (p : Pmm) (count : Nat) :
    (pmmAllocPages p count = (p, 0)) ∨
    ∃ start, 0 < count ∧ start + count ≤ p.totalPages ∧
      (∀ f, start ≤ f → f < start + count → p.bitmap f = false) ∧
      pmmAllocPages p count =
        ({ p with
            bitmap := fun i => if start ≤ i ∧ i < start + count then true else p.bitmap i
            refcount := fun i => if start ≤ i ∧ i < start + count then 1 else p.refcount i
            freePages := p.freePages - count
            usedPages := p.usedPages + count }, start) := by
  unfold pmmAllocPages
  split
  · exact .inl rfl
  · rename_i sized
    split
    · exact .inl rfl
    · rename_i start found
      obtain ⟨inside, clear⟩ := searchRun_some found
      exact .inr ⟨start, by omega, inside, clear, rfl⟩

theorem pmmAllocPages_grown (p : Pmm) (count : Nat) : Grown p (pmmAllocPages p count).1 := by
  rcases pmmAllocPages_cases p count with e | ⟨start, -, -, clear, e⟩
  · rw [e]
    exact Grown.refl p
  · rw [e]
    refine ⟨rfl, fun f used => ?_⟩
    have off : ¬ (start ≤ f ∧ f < start + count) := by
      rintro ⟨lo, hi⟩
      rw [clear f lo hi] at used
      cases used
    simp [off, used]

theorem freeFrames_allocPages {p : Pmm} {count : Nat} (ok : (pmmAllocPages p count).2 ≠ 0) :
    freeFrames (pmmAllocPages p count).1 + count = freeFrames p := by
  rcases pmmAllocPages_cases p count with e | ⟨start, -, inside, clear, e⟩
  · rw [e] at ok
    exact absurd rfl ok
  · rw [e]
    simp only [freeFrames]
    set old := (Finset.range p.totalPages).filter fun f => p.bitmap f = false with hold
    have split : (Finset.range p.totalPages).filter (fun f =>
        (if start ≤ f ∧ f < start + count then true else p.bitmap f) = false) =
        old \ Finset.Ico start (start + count) := by
      ext f
      by_cases h : start ≤ f ∧ f < start + count
      · simp [hold, h]
      · simp only [h, if_false, hold, Finset.mem_filter, Finset.mem_sdiff, Finset.mem_Ico,
          not_false_eq_true, and_true]
    have sub : Finset.Ico start (start + count) ⊆ old := by
      intro f hf
      rw [Finset.mem_Ico] at hf
      rw [hold, Finset.mem_filter, Finset.mem_range]
      exact ⟨by omega, clear f hf.1 hf.2⟩
    have size := Finset.card_sdiff_add_card_eq_card sub
    rw [Nat.card_Ico, Nat.add_sub_cancel_left] at size
    rw [split]
    exact size

theorem pmmAllocPages_one {p : Pmm} (zero : Held p 0) :
    (pmmAllocPages p 1).2 ≠ 0 ↔ 0 < freeFrames p := by
  constructor
  · intro ok
    have taken := freeFrames_allocPages ok
    omega
  · intro some failed
    obtain ⟨f, hf⟩ := Finset.card_pos.mp some
    rw [Finset.mem_filter, Finset.mem_range] at hf
    have sized : ¬ (1 = 0 ∨ p.totalPages < 1) := by omega
    rw [pmmAllocPages, if_neg sized] at failed
    split at failed
    · rename_i none
      obtain ⟨g, lo, hi, used⟩ := searchRun_none Nat.one_pos (by omega) none (Nat.zero_le f) (by omega)
      rw [show g = f by omega, hf.2] at used
      cases used
    · rename_i start found
      obtain ⟨inside, clear⟩ := searchRun_some found
      dsimp only at failed
      rw [failed] at inside clear
      have used := zero (by omega)
      rw [clear 0 le_rfl (by omega)] at used
      cases used

section Accounts

variable {R : Type*} {sole : R → Prop} {scope : Nat → Prop} {p : Pmm}
  {L : Finset (R × Nat)}

/-- The allocator agrees with a ledger of page references. Pages outside the
scope were handed out to someone else before and stay used. -/
structure Accounts (sole : R → Prop) (scope : Nat → Prop) (p : Pmm) (L : Finset (R × Nat)) :
    Prop where
  balanced : Ledger.Balanced sole scope p.bitmap p.owners L
  tracked : ∀ f, scope f → f < p.totalPages ∧ f ≠ 0
  outside : ∀ f, f < p.totalPages → f ≠ 0 → ¬ scope f → p.bitmap f = true

theorem Accounts.bound (a : Accounts sole scope p L) {r : R} {f : Nat} (mem : (r, f) ∈ L) :
    f < p.totalPages :=
  (a.tracked f (a.balanced.within _ mem)).1

theorem Accounts.small (a : Accounts sole scope p L) {r : R} {f : Nat} (mem : (r, f) ∈ L) :
    f < 2 ^ 52 :=
  small_of_bound (a.bound mem)

theorem Accounts.used (a : Accounts sole scope p L) {r : R} {f : Nat} (mem : (r, f) ∈ L) :
    p.bitmap f = true :=
  a.balanced.used_of_mem mem

theorem Accounts.refcount (a : Accounts sole scope p L) {r : R} {f : Nat} (mem : (r, f) ∈ L) :
    (pmmPageRefcount p f).toNat = Ledger.held L f := by
  have h := a.balanced.counted f (Ledger.held_pos.mpr ⟨r, mem⟩)
  simpa [pmmPageRefcount, a.bound mem, Pmm.owners] using h

variable [DecidableEq R]

theorem Accounts.alloc (a : Accounts sole scope p L) (r : R)
    (fine : (pmmAllocPage p).1.exhausted = false) :
    Accounts sole scope (pmmAllocPage p).1 (insert (r, (pmmAllocPage p).2) L) ∧
      scope (pmmAllocPage p).2 ∧ p.bitmap (pmmAllocPage p).2 = false := by
  obtain ⟨bound, _, nonzero, clear, h⟩ := pmmAllocPage_spec p fine
  have inScope : scope (pmmAllocPage p).2 := by
    by_contra out
    rw [a.outside _ bound nonzero out] at clear
    cases clear
  have counts : (p.take (pmmAllocPage p).2 bound).owners =
      Function.update p.owners (pmmAllocPage p).2 1 := by
    funext g
    by_cases hg : g = (pmmAllocPage p).2
    · subst hg; simp [Pmm.owners, Pmm.take]
    · simp [Pmm.owners, Pmm.take, hg]
  refine ⟨⟨?_, ?_, ?_⟩, inScope, clear⟩
  · rw [h, counts]
    exact a.balanced.take r inScope clear
  · intro f hf
    rw [pmmAllocPage_total]
    exact a.tracked f hf
  · intro f hf hz out
    have hne : f ≠ (pmmAllocPage p).2 := fun e => out (e ▸ inScope)
    rw [pmmAllocPage_total] at hf
    rw [h]
    simpa [Pmm.take, hne] using a.outside f hf hz out

theorem Accounts.share (a : Accounts sole scope p L) {r s : R} {f : Nat} (mem : (s, f) ∈ L)
    (fresh : (r, f) ∉ L) (plain : ¬ sole r) (unlocked : ∀ t, (t, f) ∈ L → ¬ sole t)
    (room : Ledger.held L f < 255) :
    Accounts sole scope (pmmPageRef p f) (insert (r, f) L) := by
  have hu := a.used mem
  have hb := a.bound mem
  have hc : p.owners f = Ledger.held L f :=
    a.balanced.counted f (Ledger.held_pos.mpr ⟨s, mem⟩)
  have e : pmmPageRef p f =
      { p with refcount := Function.update p.refcount f (p.refcount f + 1) } := by
    simp [pmmPageRef, hu, hb]
  have counts : (pmmPageRef p f).owners = Function.update p.owners f (p.owners f + 1) := by
    funext g
    rw [e]
    by_cases hg : g = f
    · subst hg
      simp only [Pmm.owners, Function.update_self, UInt8.toNat_add] at hc ⊢
      simp only [UInt8.reduceToNat]
      omega
    · simp [Pmm.owners, hg]
  refine ⟨?_, ?_, ?_⟩
  · rw [counts]
    have hbm : (pmmPageRef p f).bitmap = p.bitmap := by rw [e]
    rw [hbm]
    exact a.balanced.share mem fresh plain unlocked
  · intro g hg
    rw [pmmPageRef_total]
    exact a.tracked g hg
  · intro g hg hz out
    rw [pmmPageRef_total] at hg
    rw [e]
    exact a.outside g hg hz out

theorem Accounts.free (a : Accounts sole scope p L) {r : R} {f : Nat} (mem : (r, f) ∈ L) :
    Accounts sole scope (pmmFreePage p f) (L.erase (r, f)) := by
  have hu := a.used mem
  have hb := a.bound mem
  have inScope := a.balanced.within _ mem
  have off : ∀ g, ¬ scope g → g ≠ f := fun g out e => out (e ▸ inScope)
  refine ⟨?_, ?_, ?_⟩
  · by_cases many : 1 < p.refcount f
    · have e : pmmFreePage p f =
          { p with refcount := Function.update p.refcount f (p.refcount f - 1) } := by
        simp [pmmFreePage, hu, hb, many]
      have hn : 1 < p.owners f := by simpa [Pmm.owners, UInt8.lt_iff_toNat_lt] using many
      have counts : (pmmFreePage p f).owners = Function.update p.owners f (p.owners f - 1) := by
        funext g
        rw [e]
        by_cases hg : g = f
        · subst hg
          have hle : (1 : UInt8) ≤ p.refcount g := UInt8.le_of_lt many
          simp only [Pmm.owners, Function.update_self, UInt8.toNat_sub_of_le _ _ hle,
            UInt8.reduceToNat]
        · simp [Pmm.owners, hg]
      rw [counts]
      have hbm : (pmmFreePage p f).bitmap = p.bitmap := by rw [e]
      rw [hbm]
      exact a.balanced.drop_shared mem hn
    · have hn : p.owners f ≤ 1 := by
        have h := mt UInt8.lt_iff_toNat_lt.mpr many
        simp only [UInt8.reduceToNat] at h
        exact Nat.le_of_not_lt h
      have hbm : (pmmFreePage p f).bitmap = Function.update p.bitmap f false := by
        simp [pmmFreePage, hu, hb, many]
      have counts : (pmmFreePage p f).owners = Function.update p.owners f 0 := by
        funext g
        by_cases hg : g = f
        · subst hg; simp [Pmm.owners, pmmFreePage, hu, hb, many]
        · simp [Pmm.owners, (pmmFreePage_other p hg).2, hg]
      rw [counts, hbm]
      exact a.balanced.drop_last mem hn 0
  · intro g hg
    rw [pmmFreePage_total]
    exact a.tracked g hg
  · intro g hg hz out
    rw [pmmFreePage_total] at hg
    rw [(pmmFreePage_other p (off g out)).1]
    exact a.outside g hg hz out

end Accounts

end Isunux
