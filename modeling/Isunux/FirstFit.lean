import Isunux.Pmm
import Mathlib.Order.Bounds.Basic

/-! `pmm_alloc_pages` against the search that tries every start. -/
namespace Isunux

/-- The search without a skip: every start in turn, all pages of its run looked at. -/
def plainSearch (bitmap : Nat → Bool) (total count : Nat) : Option Nat :=
  (List.range (total + 1 - count)).find? fun start => (List.range count).all fun j => !bitmap (start + j)

/-- The pages from `start` on are free and tracked. -/
def ClearRun (bitmap : Nat → Bool) (total count start : Nat) : Prop :=
  start + count ≤ total ∧ ∀ j < count, bitmap (start + j) = false

/-- The pages of the run have become used, with one owner; the rest is as before. -/
structure TakesRun (p p' : Pmm) (start count : Nat) : Prop where
  taken : ∀ j < count, p'.bitmap (start + j) = true ∧ p'.refcount (start + j) = 1
  others : ∀ f, (∀ j < count, f ≠ start + j) → p'.bitmap f = p.bitmap f ∧ p'.refcount f = p.refcount f
  total : p'.totalPages = p.totalPages
  hint : p'.scanHint = p.scanHint

section Search

variable {bitmap : Nat → Bool} {total count start found fuel : Nat}

theorem ClearRun.blocked (run : ClearRun bitmap total count start) {f : Nat} (lo : start ≤ f)
    (hi : f < start + count) (used : bitmap f = true) : False := by
  have clear := run.2 (f - start) (by omega)
  rw [show start + (f - start) = f by omega, used] at clear
  cases clear

theorem searchRun_least (h : searchRun bitmap total count fuel start = some found) {a : Nat}
    (later : start ≤ a) (run : ClearRun bitmap total count a) : found ≤ a := by
  induction fuel generalizing start with
  | zero => cases h
  | succ fuel ih =>
    unfold searchRun at h
    split at h
    · dsimp only at h
      split at h
      · cases h
        exact later
      · rename_i part
        obtain ⟨short, used⟩ := runLength_blocked part
        apply ih h
        by_contra jumped
        exact run.blocked (f := start + runLength bitmap start count) (by omega) (by omega) used
    · cases h

theorem searchRun_eq_some (sized : 0 < count) (enough : total < fuel) :
    searchRun bitmap total count fuel 0 = some found ↔ IsLeast {a | ClearRun bitmap total count a} found := by
  constructor
  · intro h
    obtain ⟨inside, clear⟩ := searchRun_some h
    refine ⟨⟨inside, fun j short => clear _ (by omega) (by omega)⟩, fun a run => ?_⟩
    exact searchRun_least h (Nat.zero_le a) run
  · rintro ⟨run, least⟩
    cases h : searchRun bitmap total count fuel 0 with
    | none =>
      obtain ⟨f, lo, hi, used⟩ := searchRun_none sized (by omega) h (Nat.zero_le found) run.1
      exact absurd used fun used => run.blocked lo hi used
    | some other =>
      obtain ⟨inside, clear⟩ := searchRun_some h
      have free : ClearRun bitmap total count other := ⟨inside, fun j short => clear _ (by omega) (by omega)⟩
      exact congrArg some (Nat.le_antisymm (searchRun_least h (Nat.zero_le found) run) (least free))

theorem searchRun_eq_none (sized : 0 < count) (enough : total < fuel) :
    searchRun bitmap total count fuel 0 = none ↔ ∀ a, ¬ ClearRun bitmap total count a := by
  constructor
  · intro h a run
    obtain ⟨f, lo, hi, used⟩ := searchRun_none sized (by omega) h (Nat.zero_le a) run.1
    exact run.blocked lo hi used
  · intro blocked
    cases h : searchRun bitmap total count fuel 0 with
    | none => rfl
    | some found => exact absurd ((searchRun_eq_some sized enough).mp h).1 (blocked found)

theorem plainSearch_eq_some :
    plainSearch bitmap total count = some found ↔ IsLeast {a | ClearRun bitmap total count a} found := by
  have whole : ∀ a, ((List.range count).all fun j => !bitmap (a + j)) = true ↔ ∀ j < count, bitmap (a + j) = false := by
    intro a
    simp
  unfold plainSearch
  rw [List.find?_range_eq_some, whole, List.mem_range]
  constructor
  · rintro ⟨clear, inside, first⟩
    refine ⟨⟨by omega, clear⟩, fun a run => ?_⟩
    by_contra before
    have none := first a (Nat.lt_of_not_le before)
    rw [(whole a).mpr run.2] at none
    cases none
  · rintro ⟨run, least⟩
    have inside := run.1
    refine ⟨run.2, by omega, fun a before => ?_⟩
    rw [Bool.not_eq_true']
    by_contra clear
    have free : ClearRun bitmap total count a :=
      ⟨by omega, (whole a).mp (by simpa using clear)⟩
    exact Nat.not_le_of_lt before (least free)

/-- With a round for every page, and with any number of rounds beyond that, the loop finds what
the plain search finds. -/
theorem searchRun_eq_plainSearch (sized : 0 < count) (enough : total < fuel) :
    searchRun bitmap total count fuel 0 = plainSearch bitmap total count := by
  cases h : searchRun bitmap total count fuel 0 with
  | some found => exact (plainSearch_eq_some.mpr ((searchRun_eq_some sized enough).mp h)).symm
  | none =>
    cases h' : plainSearch bitmap total count with
    | none => rfl
    | some found => exact absurd (plainSearch_eq_some.mp h').1 ((searchRun_eq_none sized enough).mp h found)

end Search

section Calls

variable {p : Pmm} {count : Nat}

theorem pmmAllocPages_plainSearch (sized : 0 < count) (fits : count ≤ p.totalPages) :
    pmmAllocPages p count =
      match plainSearch p.bitmap p.totalPages count with
      | none => (p, 0)
      | some start =>
        ({ p with
            bitmap := fun i => if start ≤ i ∧ i < start + count then true else p.bitmap i
            refcount := fun i => if start ≤ i ∧ i < start + count then 1 else p.refcount i
            freePages := p.freePages - count
            usedPages := p.usedPages + count }, start) := by
  have search : searchRun p.bitmap p.totalPages count (p.totalPages + 1) 0 =
      plainSearch p.bitmap p.totalPages count := searchRun_eq_plainSearch sized (Nat.lt_succ_self p.totalPages)
  have possible : ¬ (count = 0 ∨ p.totalPages < count) := by omega
  cases found : plainSearch p.bitmap p.totalPages count with
  | none => simp only [pmmAllocPages, if_neg possible, search, found]
  | some start => simp only [pmmAllocPages, if_neg possible, search, found]

/-- A first fit search that always ends: the least run is taken and its start handed back, and
without a run nothing changes. -/
theorem pmm_alloc_pages_is_first_fit (sized : 1 ≤ count) (fits : count ≤ p.totalPages) :
    (∀ fuel, p.totalPages < fuel →
      searchRun p.bitmap p.totalPages count fuel 0 = plainSearch p.bitmap p.totalPages count) ∧
    (∀ start, IsLeast {a | ClearRun p.bitmap p.totalPages count a} start →
      (pmmAllocPages p count).2 = start ∧ TakesRun p (pmmAllocPages p count).1 start count) ∧
    (pmmAllocPages p count = (p, 0) ↔ ∀ a, ¬ ClearRun p.bitmap p.totalPages count a) := by
  refine ⟨fun fuel enough => searchRun_eq_plainSearch sized enough, fun start least => ?_, ?_⟩
  · rw [pmmAllocPages_plainSearch sized fits, plainSearch_eq_some.mpr least]
    refine ⟨rfl, fun j short => ?_, fun f off => ?_, rfl, rfl⟩
    · have inside : start ≤ start + j ∧ start + j < start + count := by omega
      simp [inside]
    · have outside : ¬ (start ≤ f ∧ f < start + count) := by
        rintro ⟨lo, hi⟩
        exact off (f - start) (by omega) (by omega)
      simp [outside]
  · rw [pmmAllocPages_plainSearch sized fits]
    cases h : plainSearch p.bitmap p.totalPages count with
    | none =>
      refine ⟨fun _ a run => ?_, fun _ => rfl⟩
      have missed := (searchRun_eq_none sized (Nat.lt_succ_self p.totalPages)).mp
        ((searchRun_eq_plainSearch sized (Nat.lt_succ_self p.totalPages)).trans h)
      exact missed a run
    | some start =>
      have run := (plainSearch_eq_some.mp h).1
      refine ⟨fun same => ?_, fun blocked => absurd run (blocked start)⟩
      -- a call that took pages has changed the first of them
      have bits := congrFun (congrArg (fun r : Pmm × Nat => r.1.bitmap) same) start
      have clear := run.2 0 sized
      rw [Nat.add_zero] at clear
      simp only [clear, ite_eq_right_iff] at bits
      exact absurd (bits ⟨le_rfl, by omega⟩) (by decide)

end Calls

/-- Eight pages, of which 0, 2 and 5 are used. -/
def patchyPages : Pmm := .small 8#6 (fun f => f = 0 ∨ f = 2 ∨ f = 5) (fun _ => 1) 5 3

/-- Two pages are found behind page 2, and three nowhere. -/
theorem patchyPages_first_fit :
    (pmmAllocPages patchyPages 2).2 = 3 ∧ TakesRun patchyPages (pmmAllocPages patchyPages 2).1 3 2 ∧
      pmmAllocPages patchyPages 3 = (patchyPages, 0) := by
  have least : IsLeast {a | ClearRun patchyPages.bitmap patchyPages.totalPages 2 a} 3 :=
    plainSearch_eq_some.mp (by decide)
  have taken := (pmm_alloc_pages_is_first_fit (p := patchyPages) (by decide) (by decide)).2.1 3 least
  have nothing : searchRun patchyPages.bitmap patchyPages.totalPages 3 9 0 = none := by decide
  have missed := (searchRun_eq_none (by decide) (by decide)).mp nothing
  exact ⟨taken.1, taken.2, (pmm_alloc_pages_is_first_fit (by decide) (by decide)).2.2.mpr missed⟩

end Isunux
