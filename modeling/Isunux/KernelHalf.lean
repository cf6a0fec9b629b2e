import Isunux.Break
import Isunux.ElfBounds

/-! When the calls that map and unmap pages leave the kernel half of the address spaces
as it is. What is proved of them in the modules before holds as long as the pages they
get to are low. A page above changes an entry of the kernel half, and no later step of
the call puts it back. -/
namespace Isunux

open Radix

section Strikes

variable {spaces : Nat → Prop} {pml4 f l d : Nat} {flags : Word} {s t : Vm}

/-- An entry of the kernel half leads somewhere else than in `s`, not to a page that
was in use there. -/
structure Struck (spaces : Nat → Prop) (s t : Vm) (f l : Nat) : Prop where
  guarded : Guarded s.mem spaces f l
  table : f ≠ 0 ∧ Held s.pmm f
  target : ∀ x, pteChild (s.mem f l) = some x → Held s.pmm x
  moved : ∃ y, pteChild (t.mem f l) = some y ∧ pteChild (s.mem f l) ≠ some y

theorem Struck.not_kept (h : Struck spaces s t f l) : ¬ KernelHalfKept spaces pml4 s t := by
  intro kept
  obtain ⟨y, leads, other⟩ := h.moved
  rw [kept.entries f l h.guarded] at leads
  exact other leads

theorem held_ne_fresh {p : Pmm} (nonzero : f ≠ 0) (held : Held p f) : f ≠ (pmmAllocPage p).2 := by
  rintro rfl
  obtain ⟨bound, clear, -⟩ := pmmAllocPage_fresh nonzero
  rw [held bound] at clear
  cases clear

theorem newTable_small (p : Pmm) : (pmmAllocPage p).2 < 2 ^ 52 := by
  by_cases failed : (pmmAllocPage p).2 = 0
  · rw [failed]
    decide
  · obtain ⟨bound, -, -⟩ := pmmAllocPage_fresh failed
    exact small_of_bound bound

theorem Struck.made (guarded : Guarded s.mem spaces f l) (table : f ≠ 0 ∧ Held s.pmm f)
    (same : t.mem f l = s.mem f l) (absent : pteChild (s.mem f l) = none) :
    Struck spaces s (getOrCreateTable t f l).1 f l := by
  have gone : ¬ hasBits (t.mem f l) ptePresent = true := by
    rw [same]
    exact absent_bit absent
  refine ⟨guarded, table, fun x leads => ?_, (pmmAllocPage t.pmm).2, ?_, ?_⟩
  · rw [absent] at leads
    cases leads
  · rw [getOrCreateTable, if_neg gone]
    dsimp only
    rw [put_same, tableEntry_child (newTable_small t.pmm)]
  · rw [absent]
    exact (Option.some_ne_none _).symm

theorem Struck.ensure (h : Struck spaces s t f l) (grown : Grown s.pmm t.pmm) (g i : Nat) :
    Struck spaces s (getOrCreateTable t g i).1 f l := by
  obtain ⟨y, leads, other⟩ := h.moved
  refine ⟨h.guarded, h.table, h.target, y, ?_, other⟩
  by_cases present : hasBits (t.mem g i) ptePresent = true
  · rw [getOrCreateTable, if_pos present]
    exact leads
  · have slot : ¬ (f = g ∧ l = i) := by
      rintro ⟨rfl, rfl⟩
      rw [pteChild, if_neg present] at leads
      cases leads
    rw [getOrCreateTable, if_neg present]
    dsimp only
    rw [put_other _ _ slot, zeroFrame, Function.update_of_ne (held_ne_fresh h.table.1 (grown.held h.table.2))]
    exact leads

theorem Struck.leaf (h : Struck spaces s t f l) (bound : d < s.pmm.totalPages) (clear : s.pmm.bitmap d = false)
    {e : Word} (child : pteChild e = some d) (g i : Nat) :
    Struck spaces s { t with mem := put t.mem g i e } f l := by
  obtain ⟨y, leads, other⟩ := h.moved
  by_cases slot : f = g ∧ l = i
  · obtain ⟨rfl, rfl⟩ := slot
    refine ⟨h.guarded, h.table, h.target, d, ?_, fun old => ?_⟩
    · dsimp only
      rw [put_same, child]
    · rw [h.target d old bound] at clear
      cases clear
  · refine ⟨h.guarded, h.table, h.target, y, ?_, other⟩
    dsimp only
    rw [put_other _ _ slot]
    exact leads

theorem Struck.map (h : Struck spaces s t f l) (grown : Grown s.pmm t.pmm) (bound : d < s.pmm.totalPages)
    (clear : s.pmm.bitmap d = false) (plain : flags.toNat < 4096) (v : Word) :
    Struck spaces s (vmmMap4kIn t pml4 v d flags) f l := by
  have small := small_of_bound bound
  have first := h.ensure grown pml4 (pml4Idx v)
  have grown₁ := grown.trans (getOrCreateTable_grown t pml4 (pml4Idx v))
  have second := first.ensure grown₁ (getOrCreateTable t pml4 (pml4Idx v)).2 (pdptIdx v)
  have grown₂ := grown₁.trans (getOrCreateTable_grown _ (getOrCreateTable t pml4 (pml4Idx v)).2 (pdptIdx v))
  exact (second.ensure grown₂ _ (pdIdx v)).leaf bound clear (leaf_child small plain) _ _

/-- An address at which mapping a free page changes an entry of the kernel half: no
2 MiB entry lies on its way, and no free page is mapped there. -/
def Exposed (s : Vm) (pml4 : Nat) (v : Word) : Prop :=
  ∀ pdpt, pteChild (s.mem pml4 (pml4Idx v)) = some pdpt →
    ∀ pd, pteChild (s.mem pdpt (pdptIdx v)) = some pd →
      ∀ pt, pteChild (s.mem pd (pdIdx v)) = some pt →
        hasBits (s.mem pd (pdIdx v)) pteHuge = false ∧
          ∀ x, pteChild (s.mem pt (ptIdx v)) = some x → Held s.pmm x

/-- A page mapped above the low half. Where a page is mapped already, its entry changes. -/
theorem map_strikes (apart : KernelApart spaces pml4 s)
    (kept : ∀ f j, Guarded s.mem spaces f j → t.mem f j = s.mem f j) (grown : Grown s.pmm t.pmm)
    (bound : d < s.pmm.totalPages) (clear : s.pmm.bitmap d = false) (plain : flags.toNat < 4096) {v : Word}
    (high : 256 ≤ pml4Idx v) (exposed : Exposed s pml4 v) :
    ∃ f l, Struck spaces s (vmmMap4kIn t pml4 v d flags) f l ∧
      ∀ slot, vmmGetPte s.mem pml4 v = some slot → slot = (f, l) := by
  have j₂ := pdptIdx_eq v
  have j₃ := pdIdx_eq v
  have j₄ := ptIdx_eq v
  have small := small_of_bound bound
  have leaf : pteChild (pageAddr d ||| (flags ||| ptePresent)) = some d := leaf_child small plain
  have grown₁ := grown.trans (getOrCreateTable_grown t pml4 (pml4Idx v))
  have grown₂ := grown₁.trans (getOrCreateTable_grown _ (getOrCreateTable t pml4 (pml4Idx v)).2 (pdptIdx v))
  have slot₁ : Guarded s.mem spaces pml4 (pml4Idx v) := ⟨pml4Idx_lt v, .inl ⟨apart.own, high⟩⟩
  unfold vmmMap4kIn
  dsimp only
  cases h₁ : pteChild (s.mem pml4 (pml4Idx v)) with
  | none =>
    have first := Struck.made slot₁ (apart.fenced.guarded _ _ slot₁) (kept _ _ slot₁) h₁
    refine ⟨_, _, ((first.ensure grown₁ _ _).ensure grown₂ _ _).leaf bound clear leaf _ _, fun slot found => ?_⟩
    rw [vmmGetPte, h₁] at found
    cases found
  | some pdpt =>
    rw [← kept _ _ slot₁] at h₁
    rw [getOrCreateTable_present h₁]
    rw [kept _ _ slot₁] at h₁
    have top : HighTable s.mem pml4 1 pdpt := .pdpt high (pml4Idx_lt v) h₁
    have slot₂ : Guarded s.mem spaces pdpt (pdptIdx v) := ⟨by omega, .inr ⟨pml4, 1, apart.own, top⟩⟩
    dsimp only
    cases h₂ : pteChild (s.mem pdpt (pdptIdx v)) with
    | none =>
      have second := Struck.made slot₂ (apart.fenced.guarded _ _ slot₂) (kept _ _ slot₂) h₂
      refine ⟨_, _, (second.ensure (grown.trans (getOrCreateTable_grown t pdpt (pdptIdx v))) _ _).leaf bound clear
        leaf _ _, fun slot found => ?_⟩
      rw [vmmGetPte, h₁, Option.bind_some, h₂] at found
      cases found
    | some pd =>
      rw [← kept _ _ slot₂] at h₂
      rw [getOrCreateTable_present h₂]
      rw [kept _ _ slot₂] at h₂
      have mid : HighTable s.mem pml4 2 pd := .child top (by omega) (by omega) h₂ (by omega)
      have slot₃ : Guarded s.mem spaces pd (pdIdx v) := ⟨by omega, .inr ⟨pml4, 2, apart.own, mid⟩⟩
      dsimp only
      cases h₃ : pteChild (s.mem pd (pdIdx v)) with
      | none =>
        have third := Struck.made slot₃ (apart.fenced.guarded _ _ slot₃) (kept _ _ slot₃) h₃
        refine ⟨_, _, third.leaf bound clear leaf _ _, fun slot found => ?_⟩
        rw [vmmGetPte, h₁, Option.bind_some, h₂, Option.bind_some, h₃] at found
        cases found
      | some pt =>
        obtain ⟨notHuge, target⟩ := exposed pdpt h₁ pd h₂ pt h₃
        have low : HighTable s.mem pml4 3 pt := .child mid (by omega) (by omega) h₃ (fun _ => notHuge)
        have slot₄ : Guarded s.mem spaces pt (ptIdx v) := ⟨by omega, .inr ⟨pml4, 3, apart.own, low⟩⟩
        have sits : ∀ slot, vmmGetPte s.mem pml4 v = some slot → slot = (pt, ptIdx v) := by
          intro slot found
          rw [vmmGetPte, h₁, Option.bind_some, h₂, Option.bind_some, h₃, Option.bind_some] at found
          split at found
          · cases found
          · split at found
            · exact (Option.some.inj found).symm
            · cases found
        rw [← kept _ _ slot₃] at h₃
        rw [getOrCreateTable_present h₃]
        refine ⟨pt, ptIdx v, ⟨slot₄, apart.fenced.guarded _ _ slot₄, target, d, ?_, fun old => ?_⟩, sits⟩
        · dsimp only
          rw [put_same, leaf]
        · rw [target d old bound] at clear
          cases clear

end Strikes

section Loops

variable {spaces : Nat → Prop} {pml4 i n f l : Nat} {base flags : Word} {s t : Vm}

theorem Struck.page (h : Struck spaces s t f l) (grown : Grown s.pmm t.pmm) (plain : flags.toNat < 4096) (v : Word) :
    Struck spaces s (mapZeroPage t pml4 v flags).1 f l := by
  obtain ⟨y, leads, other⟩ := h.moved
  by_cases failed : (pmmAllocPage t.pmm).2 = 0
  · rw [mapZeroPage_refused failed]
    exact ⟨h.guarded, h.table, h.target, y, leads, other⟩
  · rw [mapZeroPage_given failed]
    have fresh := (pmmAllocPage_handed failed).earlier grown
    have zeroed : Struck spaces s { t with pmm := (pmmAllocPage t.pmm).1, mem := zeroFrame t.mem (pmmAllocPage t.pmm).2 } f l := by
      refine ⟨h.guarded, h.table, h.target, y, ?_, other⟩
      dsimp only
      rw [zeroFrame, Function.update_of_ne (held_ne_fresh h.table.1 (grown.held h.table.2))]
      exact leads
    exact zeroed.map (grown.trans (pmmAllocPage_grown t.pmm)) fresh.bound fresh.clear plain v

theorem Struck.pages (h : Struck spaces s t f l) (grown : Grown s.pmm t.pmm) (plain : flags.toNat < 4096) :
    Struck spaces s (mapZeroPages pml4 base flags n i t).1 f l := by
  induction n generalizing i t with
  | zero => exact h
  | succ n ih =>
    rw [mapZeroPages]
    have one : Struck spaces s (mapZeroPage t pml4 (pageOfRange base i) flags).1 f l := h.page grown plain _
    split
    · exact ih one (grown.trans (mapZeroPage_grown _ _ _ _))
    · exact one

theorem mapZeroPages_add {j : Nat} (all : mapZeroPages pml4 base flags n i s = (t, j)) (done : j = i + n) (m : Nat) :
    mapZeroPages pml4 base flags (n + m) i s = mapZeroPages pml4 base flags m j t := by
  induction n generalizing i s with
  | zero =>
    cases all
    rw [Nat.zero_add]
  | succ n ih =>
    rw [Nat.add_right_comm, mapZeroPages]
    rw [mapZeroPages] at all
    split at all
    · rename_i going
      rw [if_pos going]
      exact ih all (by omega)
    · cases all
      omega

variable (flags) in
theorem Mapped.reaches {G : Nat → Nat → Prop} (w : Fenced G pml4 s) (plain : flags.toNat < 4096)
    (low : ∀ j, j < i → pml4Idx (pageOfRange base j) < 256)
    (enough : pagesNeeded s.mem pml4 (firstPages base i) < freeFrames s.pmm) :
    ∃ t, mapZeroPages pml4 base flags i 0 s = (t, i) ∧ Mapped G pml4 base s i t ∧ (pmmAllocPage t.pmm).2 ≠ 0 := by
  have rounds : ∀ k, k ≤ i → ∃ t, mapZeroPages pml4 base flags k 0 s = (t, k) ∧ Mapped G pml4 base s k t := by
    intro k
    induction k with
    | zero => exact fun _ => ⟨s, rfl, .start base w⟩
    | succ k ih =>
      intro less
      obtain ⟨t, run, m⟩ := ih (by omega)
      have lasts := (@pagesNeeded_mono pml4 s.mem base _ _ (show k ≤ i by omega)).trans_lt enough
      have ok := m.alloc_ok lasts
      refine ⟨_, ?_, m.next w ok (fun _ => low k (by omega)) plain⟩
      rw [mapZeroPages_add run (Nat.zero_add k).symm 1, mapZeroPages, if_pos (by rw [mapZeroPage_given ok])]
      rfl
  obtain ⟨t, run, m⟩ := rounds i le_rfl
  exact ⟨t, run, m, m.alloc_ok enough⟩

/-- Every page of the kernel half in the range is exposed. -/
def RangeExposed (s : Vm) (pml4 : Nat) (base : Word) (pages : Nat) : Prop :=
  ∀ i, i < pages → 256 ≤ pml4Idx (pageOfRange base i) → Exposed s pml4 (pageOfRange base i)

theorem first_high (some : ∃ j, j < n ∧ 256 ≤ pml4Idx (pageOfRange base j)) :
    ∃ j, j < n ∧ 256 ≤ pml4Idx (pageOfRange base j) ∧ ∀ k, k < j → pml4Idx (pageOfRange base k) < 256 := by
  obtain ⟨less, high⟩ := Nat.find_spec some
  refine ⟨Nat.find some, less, high, fun k earlier => ?_⟩
  by_contra notLow
  exact Nat.find_min some earlier ⟨earlier.trans less, Nat.le_of_not_lt notLow⟩

theorem firstPages_low : (∀ v ∈ firstPages base n, pml4Idx v < 256) ↔ ∀ j, j < n → pml4Idx (pageOfRange base j) < 256 := by
  simp [firstPages]

theorem not_rangeLow {pages : Nat} (reached : ¬ RangeLow s pml4 base pages) :
    ∃ i, i < pages ∧ pagesNeeded s.mem pml4 (firstPages base i) < freeFrames s.pmm ∧
      256 ≤ pml4Idx (pageOfRange base i) ∧ ∀ j, j < i → pml4Idx (pageOfRange base j) < 256 := by
  simp only [RangeLow, not_forall, not_lt, exists_prop] at reached
  obtain ⟨i, less, enough, high⟩ := reached
  obtain ⟨j, inside, first, low⟩ := first_high ⟨i, Nat.lt_succ_self i, high⟩
  have earlier := (@pagesNeeded_mono pml4 s.mem base _ _ (Nat.le_of_lt_succ inside)).trans_lt enough
  exact ⟨j, (Nat.le_of_lt_succ inside).trans_lt less, earlier, first, low⟩

variable (flags) in
theorem pages_strike {pages : Nat} (apart : KernelApart spaces pml4 s) (plain : flags.toNat < 4096)
    (reached : ¬ RangeLow s pml4 base pages) (exposed : RangeExposed s pml4 base pages) :
    ∃ f l, Struck spaces s (mapZeroPages pml4 base flags pages 0 s).1 f l ∧
      ∃ i, i < pages ∧ 256 ≤ pml4Idx (pageOfRange base i) ∧
        ∀ slot, vmmGetPte s.mem pml4 (pageOfRange base i) = some slot → slot = (f, l) := by
  obtain ⟨i, less, enough, high, low⟩ := not_rangeLow reached
  obtain ⟨t, run, m, ok⟩ := Mapped.reaches flags apart.fenced plain low enough
  have fresh := (pmmAllocPage_handed ok).earlier m.grown
  have zeroed : ∀ f j, Guarded s.mem spaces f j → zeroFrame t.mem (pmmAllocPage t.pmm).2 f j = s.mem f j := by
    intro f j hG
    have table := apart.fenced.guarded f j hG
    rw [zeroFrame, Function.update_of_ne (held_ne_fresh table.1 (m.grown.held table.2))]
    exact m.kept f j hG
  obtain ⟨f, l, struck, sits⟩ := map_strikes
    (t := { t with pmm := (pmmAllocPage t.pmm).1, mem := zeroFrame t.mem (pmmAllocPage t.pmm).2 }) apart zeroed
    (m.grown.trans (pmmAllocPage_grown t.pmm)) fresh.bound fresh.clear plain high (exposed i less high)
  refine ⟨f, l, ?_, i, less, high, sits⟩
  have first := mapZeroPage_given ok pml4 (pageOfRange base i) flags
  obtain ⟨m', rfl⟩ : ∃ m', pages = i + (m' + 1) := ⟨pages - i - 1, by omega⟩
  rw [mapZeroPages_add run (Nat.zero_add i).symm, mapZeroPages, first, if_pos rfl]
  have later := m.grown.trans (mapZeroPage_grown t pml4 (pageOfRange base i) flags)
  rw [first] at later
  exact struck.pages later plain

theorem mapZeroPages_lasts (zero : Held s.pmm 0) (plenty : 4 * n ≤ freeFrames s.pmm) :
    (mapZeroPages pml4 base flags n i s).2 = i + n := by
  induction n generalizing i s with
  | zero => rfl
  | succ n ih =>
    have ok := pmmAllocPage_ok zero (show 0 < freeFrames s.pmm by omega)
    have spent := (allocPage_spends s (zeroFrame s.mem (pmmAllocPage s.pmm).2)).trans
      (vmmMap4kIn_spends _ pml4 (pageOfRange base i) (pmmAllocPage s.pmm).2 flags)
    have left := spent.free zero
    rw [mapZeroPages, mapZeroPage_given ok, if_pos rfl, ih (spent.zero zero) (by omega)]
    omega

/-- Every page of the kernel half in the range is mapped by a 4 KiB entry, to a page in use. -/
def RangeTaken (s : Vm) (pml4 : Nat) (base : Word) (pages : Nat) : Prop :=
  ∀ i, i < pages → 256 ≤ pml4Idx (pageOfRange base i) →
    ∃ f l, vmmGetPte s.mem pml4 (pageOfRange base i) = some (f, l) ∧ Held s.pmm (pteFrame (s.mem f l))

theorem RangeTaken.exposed {pages : Nat} (taken : RangeTaken s pml4 base pages) : RangeExposed s pml4 base pages := by
  intro i less high pdpt h₁ pd h₂ pt h₃
  obtain ⟨f, l, found, held⟩ := taken i less high
  rw [vmmGetPte, h₁, Option.bind_some, h₂, Option.bind_some, h₃, Option.bind_some] at found
  split at found
  · cases found
  · rename_i small
    split at found
    · rename_i present
      cases found
      refine ⟨by simpa using small, fun x leads => ?_⟩
      rw [pteChild, if_pos present] at leads
      exact Option.some.inj leads ▸ held
    · cases found

/-- Unmapping never leads an entry anywhere. -/
theorem munmapPage_leads {addr : Word} {x : Nat} (other : pteChild (t.mem f l) ≠ some x) :
    pteChild ((munmapPage pml4 addr t i).mem f l) ≠ some x := by
  rcases munmapPage_cases pml4 addr t i with ⟨-, e⟩ | ⟨pt, -, -, -, e⟩
  · rw [e]
    exact other
  · rw [e]
    exact fun leads => other (put_zero_fewer _ _ _ leads)

end Loops

section Segments

variable {spaces : Nat → Prop} {pml4 f l : Nat} {s t : Vm} {data : ElfData} {ph : Phdr}

theorem allocPages_fresh {p : Pmm} {n i : Nat} (grown : Grown s.pmm p) (ok : (pmmAllocPages p n).2 ≠ 0) (hi : i < n) :
    (pmmAllocPages p n).2 + i < s.pmm.totalPages ∧ s.pmm.bitmap ((pmmAllocPages p n).2 + i) = false := by
  rcases pmmAllocPages_cases p n with e | ⟨start, -, bound, clear, e⟩
  · rw [e] at ok
    exact absurd rfl ok
  rw [e]
  refine ⟨by have := grown.total; dsimp only; omega, ?_⟩
  by_contra used
  have free := clear (start + i) (by omega) (by omega)
  rw [(grown.used _ (eq_true_of_ne_false used)).1] at free
  cases free

theorem Struck.mapped (h : Struck spaces s t f l) (grown : Grown s.pmm t.pmm) {flags : Word} (plain : flags.toNat < 4096)
    {p : Pmm} {n : Nat} (before : Grown s.pmm p) (ok : (pmmAllocPages p n).2 ≠ 0) (start : Word) (ns : List Nat)
    (inside : ∀ i ∈ ns, i < n) :
    let u := ns.foldl (fun t i => vmmMap4kIn t pml4 (pageOfRange start i) ((pmmAllocPages p n).2 + i) flags) t
    Struck spaces s u f l ∧ Grown s.pmm u.pmm := by
  refine Run.foldl_rule (fun t : Vm => Struck spaces s t f l ∧ Grown s.pmm t.pmm) _ ns t ⟨h, grown⟩ ?_
  rintro i mem u ⟨struck, later⟩
  obtain ⟨bound, clear⟩ := allocPages_fresh before ok (inside i mem)
  exact ⟨struck.map later bound clear plain _, later.trans (vmmMap4kIn_grown _ _ _ _ _)⟩

theorem Struck.filled (h : Struck spaces s t f l) (grown : Grown s.pmm t.pmm) (inside : ph.Inside)
    (ok : (pmmAllocPages t.pmm ph.numPages).2 ≠ 0) : Struck spaces s (filled data ph t) f l := by
  obtain ⟨y, leads, other⟩ := h.moved
  refine ⟨h.guarded, h.table, h.target, y, ?_, other⟩
  rw [filled_held inside (grown.held h.table.2) ok]
  exact leads

theorem Struck.loadSegment (h : Struck spaces s t f l) (grown : Grown s.pmm t.pmm) (inside : ph.Inside) :
    Struck spaces s (loadSegment data pml4 ph t).1 f l := by
  by_cases failed : (pmmAllocPages t.pmm ph.numPages).2 = 0
  · obtain ⟨y, leads, other⟩ := h.moved
    rw [Isunux.loadSegment, if_pos failed]
    exact ⟨h.guarded, h.table, h.target, y, leads, other⟩
  · rw [loadSegment_filled failed]
    have given : Grown s.pmm (Isunux.filled data ph t).pmm := grown.trans (pmmAllocPages_grown t.pmm ph.numPages)
    exact ((h.filled grown inside failed).mapped given (pageFlags_plain (hasBits ph.flags pfW = true)) grown failed ph.segStart _
      fun i mem => List.mem_range.mp mem).1

theorem Struck.loadSegments {i n : Nat} (st : ElfProgress) (h : Struck spaces s st.vm f l)
    (grown : Grown s.pmm st.vm.pmm)
    (inside : ∀ j, i ≤ j → j < i + n → (phdr data j).Loaded → (phdr data j).Inside) :
    Struck spaces s (loadSegments data pml4 n i st).1.vm f l := by
  induction n generalizing i st with
  | zero => exact h
  | succ n ih =>
    have later : ∀ j, i + 1 ≤ j → j < i + 1 + n → (phdr data j).Loaded → (phdr data j).Inside :=
      fun j lo hi => inside j (by omega) (by omega)
    by_cases loaded : (phdr data i).Loaded
    · have here : Struck spaces s (Isunux.loadSegment data pml4 (phdr data i) st.vm).1 f l :=
        h.loadSegment grown (inside i le_rfl (by omega) loaded)
      cases ok : (Isunux.loadSegment data pml4 (phdr data i) st.vm).2 with
      | true =>
        rw [loadSegments_loaded loaded ok]
        exact ih (st.past data (phdr data i) _) here (grown.trans (loadSegment_grown _ _ _ _)) later
      | false =>
        rw [loadSegments_failed loaded ok]
        exact here
    · rw [loadSegments_skipped loaded]
      exact ih st h grown later

/-- A segment with a page above the low half, where memory lasts for the tables of the pages
before it. -/
theorem segment_strikes (apart : KernelApart spaces pml4 s) (w : Fenced (Guarded s.mem spaces) pml4 t)
    (kept : ∀ f j, Guarded s.mem spaces f j → t.mem f j = s.mem f j) (grown : Grown s.pmm t.pmm)
    (inside : ph.Inside) (ok : (pmmAllocPages t.pmm ph.numPages).2 ≠ 0) {i : Nat} (hi : i < ph.numPages)
    (low : ∀ v ∈ firstPages ph.segStart i, pml4Idx v < 256)
    (paid : (missing t.mem pml4 (neededTables (firstPages ph.segStart i))).card ≤
      freeFrames (pmmAllocPages t.pmm ph.numPages).1)
    (high : 256 ≤ pml4Idx (pageOfRange ph.segStart i)) (exposed : Exposed s pml4 (pageOfRange ph.segStart i)) :
    ∃ f l, Struck spaces s (loadSegment data pml4 ph t).1 f l := by
  rw [loadSegment_filled ok]
  obtain ⟨fence, untouched, paths⟩ := filled_fenced data w inside ok
  have same : missing (filled data ph t).mem pml4 (neededTables (firstPages ph.segStart i)) =
      missing t.mem pml4 (neededTables (firstPages ph.segStart i)) :=
    Finset.filter_congr fun u mem => by rw [paths u (mem_neededTables_low low mem).1]
  have plain := pageFlags_plain (hasBits ph.flags pfW = true)
  obtain ⟨-, untouched', -⟩ := fence.mapFirst (if hasBits ph.flags pfW then pteUser ||| pteWrite else pteUser)
    (pmmAllocPages t.pmm ph.numPages).2 low (by rw [same]; exact paid)
  have before := untouched.trans untouched'
  obtain ⟨bound, clear⟩ := allocPages_fresh grown ok hi
  obtain ⟨m, count⟩ : ∃ m, ph.numPages = i + (m + 1) := ⟨ph.numPages - i - 1, by omega⟩
  have split : List.range ph.numPages = List.range i ++ i :: (List.range m).map (fun j => i + (j + 1)) := by
    rw [count, List.range_add, List.range_succ_eq_map, List.map_cons, List.map_map]
    rfl
  unfold mapSegment
  dsimp only
  rw [split, List.foldl_append, List.foldl_cons]
  generalize (List.range i).foldl _ (filled data ph t) = u at before ⊢
  have later := grown.trans before.2
  obtain ⟨f, l, struck, -⟩ := map_strikes apart (fun f j hG => (before.1 f j hG).trans (kept f j hG)) later bound clear
    plain high exposed
  refine ⟨f, l, (struck.mapped (later.trans (vmmMap4kIn_grown _ _ _ _ _)) plain grown ok ph.segStart _ fun j mem => ?_).1⟩
  obtain ⟨k, hk, rfl⟩ := List.mem_map.mp mem
  have := List.mem_range.mp hk
  omega

/-- The same walk through the headers as `SegmentsSafe`: the pages above the low half are
exposed, and memory lasts for the tables of the low pages before them. -/
def SegmentsOpen (s : Vm) (pml4 : Nat) (data : ElfData) : Nat → Nat → Pmm → Finset (List Nat) → Prop
  | 0, _, _, _ => True
  | n + 1, i, p, Q =>
    let ph := phdr data i
    let a := pmmAllocPages p ph.numPages
    let k := fun j => (missing s.mem pml4 (neededTables (firstPages ph.segStart j)) \ Q).card
    if ph.type ≠ ptLoad ∨ ph.memsz = 0#64 then SegmentsOpen s pml4 data n (i + 1) p Q
    else a.2 ≠ 0 → RangeExposed s pml4 ph.segStart ph.numPages ∧
      (∀ j, j ≤ ph.numPages → (∀ v ∈ firstPages ph.segStart j, pml4Idx v < 256) → k j ≤ freeFrames a.1) ∧
      ((∀ v ∈ ph.pages, pml4Idx v < 256) →
        SegmentsOpen s pml4 data n (i + 1) (afterPages a.1 (k ph.numPages)) (Q ∪ neededTables ph.pages))

theorem loadSegments_strike (apart : KernelApart spaces pml4 s) {i n : Nat} (st : ElfProgress) {Q : Finset (List Nat)}
    (w : Fenced (Guarded s.mem spaces) pml4 st.vm)
    (kept : ∀ f j, Guarded s.mem spaces f j → st.vm.mem f j = s.mem f j) (grown : Grown s.pmm st.vm.pmm)
    (tables : AddsTables pml4 Q s.mem st.vm.mem)
    (inside : ∀ j, i ≤ j → j < i + n → (phdr data j).Loaded → (phdr data j).Inside)
    (opens : SegmentsOpen s pml4 data n i st.vm.pmm Q) :
    SegmentsSafe s.mem pml4 data n i st.vm.pmm Q ∨ ∃ f l, Struck spaces s (loadSegments data pml4 n i st).1.vm f l := by
  induction n generalizing i st Q with
  | zero => exact .inl trivial
  | succ n ih =>
    have later : ∀ j, i + 1 ≤ j → j < i + 1 + n → (phdr data j).Loaded → (phdr data j).Inside :=
      fun j lo hi => inside j (by omega) (by omega)
    rw [SegmentsOpen] at opens
    rw [SegmentsSafe]
    dsimp only at opens ⊢
    by_cases skipped : (phdr data i).type ≠ ptLoad ∨ (phdr data i).memsz = 0#64
    · rw [if_pos skipped] at opens ⊢
      rw [loadSegments_skipped fun loaded => skipped.elim (fun other => other loaded.1) loaded.2]
      exact ih st w kept grown tables later opens
    rw [if_neg skipped] at opens ⊢
    have loaded : (phdr data i).Loaded := ⟨not_not.mp (not_or.mp skipped).1, (not_or.mp skipped).2⟩
    have fits := inside i le_rfl (by omega) loaded
    by_cases failed : (pmmAllocPages st.vm.pmm (phdr data i).numPages).2 = 0
    · exact .inl fun ok => absurd failed ok
    have going : (loadSegment data pml4 (phdr data i) st.vm).2 = true := by rw [loadSegment_filled failed]
    obtain ⟨exposed, paid, rest⟩ := opens failed
    rw [loadSegments_loaded loaded going]
    by_cases low : ∀ v ∈ (phdr data i).pages, pml4Idx v < 256
    · have lasts := paid _ le_rfl low
      have rest := rest low
      rw [← Phdr.pages] at lasts rest
      have now := tables.missing fun q mem => mem_neededTables_low low mem
      obtain ⟨w', u', t', p'⟩ := w.loadSegment data low fits failed (by rw [now]; exact lasts)
      rw [now] at p'
      rw [← p'] at rest
      rcases ih (st.past data (phdr data i) (loadSegment data pml4 (phdr data i) st.vm).1) w'
        (fun f j hG => (u'.1 f j hG).trans (kept f j hG)) (grown.trans u'.2) (tables.trans t') later rest with safe | struck
      · refine .inl fun _ => ⟨⟨low, fits, lasts⟩, ?_⟩
        rw [← p']
        exact safe
      · exact .inr struck
    · rw [Phdr.pages, firstPages_low] at low
      simp only [not_forall, not_lt, exists_prop] at low
      obtain ⟨j, less, high, lows⟩ := first_high low
      have before := firstPages_low.mpr lows
      have lasts := paid _ less.le before
      rw [← tables.missing fun q mem => mem_neededTables_low before mem] at lasts
      obtain ⟨f, l, struck⟩ := segment_strikes apart w kept grown fits failed less before lasts high
        (exposed _ less high)
      refine .inr ⟨f, l, ?_⟩
      exact Struck.loadSegments (st.past data (phdr data i) (loadSegment data pml4 (phdr data i) st.vm).1) struck
        (grown.trans (loadSegment_grown _ _ _ _)) later

/-- A file in which the loader's way to the kernel half is open: its bytes fit its pages,
the pages above the low half are exposed, and memory lasts for the tables before them. -/
structure ImageOpen (s : Vm) (pml4 : Nat) (data : ElfData) : Prop where
  inside : ∀ i, i < ePhnum data → (phdr data i).Loaded → (phdr data i).Inside
  segments : SegmentsOpen s pml4 data (ePhnum data) 0 s.pmm ∅

theorem elfLoad_safe (apart : KernelApart spaces pml4 s) {size : Word} (accepted : elfAccepted data size = true)
    (opens : ImageOpen s pml4 data) (kept : KernelHalfKept spaces pml4 s (elfLoad s pml4 data size).1) :
    ImageSafe s pml4 data := by
  unfold elfLoad at kept
  rw [if_pos accepted] at kept
  rcases loadSegments_strike apart ⟨s, 0#64, 0#64⟩ apart.fenced (fun _ _ _ => rfl) (.refl _)
    (fun q _ _ => ⟨fun gone => ⟨gone, Finset.notMem_empty q⟩, fun h => h.1⟩)
    (fun j _ hj => opens.inside j (by omega)) opens.segments with safe | ⟨f, l, struck⟩
  · exact safe
  · exact absurd kept struck.not_kept

end Segments

section Calls

variable {spaces : Nat → Prop} {s : Vm} {p : Process}

/-- The pages that `process_brk` gets to are low. -/
def BrkLow (s : Vm) (p : Process) (newBrk : Word) : Prop :=
  p.heapEnd < newBrk → RangeLow s p.pml4 (pageCeil p.heapEnd) (brkPages p.heapEnd newBrk)

/-- The pages that `process_mmap` gets to are low. -/
def MmapLow (s : Vm) (p : Process) (length flags : Word) (fd : Int) : Prop :=
  hasBits flags mapAnonymous = true ∧ fd = -1 → RangeLow s p.pml4 p.mmapNext (pagesOf length)

theorem processBrk_low (apart : KernelApart spaces p.pml4 s) {newBrk : Word}
    (exposed : RangeExposed s p.pml4 (pageCeil p.heapEnd) (brkPages p.heapEnd newBrk))
    (kept : KernelHalfKept spaces p.pml4 s (processBrk s p newBrk).1) : BrkLow s p newBrk := by
  intro beyond
  by_contra reached
  obtain ⟨f, l, struck, -⟩ := pages_strike (pteWrite ||| pteUser) apart (by decide) reached exposed
  have nonzero : newBrk ≠ 0#64 := by
    rintro rfl
    exact absurd beyond (BitVec.not_lt_zero)
  unfold processBrk at kept
  rw [if_neg nonzero, if_neg (BitVec.not_le.mpr beyond)] at kept
  dsimp only at kept
  split at kept
  · exact struck.not_kept kept
  · exact struck.not_kept kept

theorem processMmap_low (apart : KernelApart spaces p.pml4 s) {length prot flags : Word} {fd : Int}
    (lasting : RangeExposed s p.pml4 p.mmapNext (pagesOf length) ∧ 4 * pagesOf length ≤ freeFrames s.pmm ∨
      RangeTaken s p.pml4 p.mmapNext (pagesOf length))
    (kept : KernelHalfKept spaces p.pml4 s (processMmap s p length prot flags fd).1) : MmapLow s p length flags fd := by
  rintro ⟨anonymous, none⟩
  by_contra reached
  have exposed : RangeExposed s p.pml4 p.mmapNext (pagesOf length) := lasting.elim And.left RangeTaken.exposed
  have plain := pageFlags_plain (hasBits prot protWrite = true)
  have nonempty : length ≠ 0#64 := by
    rintro rfl
    exact reached fun i hi => absurd hi (by simp [pagesOf])
  unfold processMmap at kept
  rw [if_neg nonempty, if_neg (by simp [anonymous, none])] at kept
  dsimp only at kept
  generalize (if hasBits prot protWrite then pteUser ||| pteWrite else pteUser) = flags' at plain kept
  obtain ⟨f, l, struck, i, less, high, sits⟩ := pages_strike flags' apart plain reached exposed
  split at kept
  · rename_i out
    rcases lasting with ⟨-, plenty⟩ | taken
    · have all : (mapZeroPages p.pml4 p.mmapNext flags' (pagesOf length) 0 s).2 = 0 + pagesOf length :=
        mapZeroPages_lasts apart.fenced.zero plenty
      omega
    · -- the entry led to a page in use, and nothing leads there any more
      obtain ⟨f', l', found, -⟩ := taken i less high
      cases sits _ found
      have present := (vmmGetPte_reach found).2.2
      obtain ⟨y, leads, other⟩ := struck.moved
      have gone := Run.foldl_rule (fun t => pteChild (t.mem f l) ≠ some (pteFrame (s.mem f l)))
        (munmapPage p.pml4 p.mmapNext) (List.range (mapZeroPages p.pml4 p.mmapNext flags' (pagesOf length) 0 s).2)
        (mapZeroPages p.pml4 p.mmapNext flags' (pagesOf length) 0 s).1 (fun same => ?_)
        (fun _ _ t ht => munmapPage_leads ht)
      · refine gone ?_
        rw [kept.entries f l struck.guarded, pteChild, if_pos present]
      · rw [leads] at same
        cases same
        exact other (by rw [pteChild, if_pos present])
  · exact struck.not_kept kept

/-- When the four calls leave the kernel half alone. `process_munmap` does exactly when it
meets no kernel page, `process_brk` and `process_mmap` when all pages they get to are low,
and the loader when its file is harmless besides. A call for which 2 MiB entries or pages
that are taken back are in the way may get to a page above and leave no trace. -/
theorem kernel_half_kept_when_low (p : Process) (apart : KernelApart spaces p.pml4 s) :
    (∀ addr length, KernelHalfKept spaces p.pml4 s (processMunmap s p.pml4 addr length) ↔
      RangeSpared s.mem p.pml4 addr (pagesOf length)) ∧
    (∀ newBrk, (BrkLow s p newBrk → KernelHalfKept spaces p.pml4 s (processBrk s p newBrk).1) ∧
      (RangeExposed s p.pml4 (pageCeil p.heapEnd) (brkPages p.heapEnd newBrk) →
        KernelHalfKept spaces p.pml4 s (processBrk s p newBrk).1 → BrkLow s p newBrk)) ∧
    (∀ length prot flags fd,
      (MmapLow s p length flags fd → KernelHalfKept spaces p.pml4 s (processMmap s p length prot flags fd).1) ∧
      (RangeExposed s p.pml4 p.mmapNext (pagesOf length) ∧ 4 * pagesOf length ≤ freeFrames s.pmm ∨
          RangeTaken s p.pml4 p.mmapNext (pagesOf length) →
        KernelHalfKept spaces p.pml4 s (processMmap s p length prot flags fd).1 → MmapLow s p length flags fd)) ∧
    ∀ data size,
      ((elfAccepted data size = true → ImageSafe s p.pml4 data) →
        KernelHalfKept spaces p.pml4 s (elfLoad s p.pml4 data size).1) ∧
      (elfAccepted data size = true → ImageOpen s p.pml4 data →
        KernelHalfKept spaces p.pml4 s (elfLoad s p.pml4 data size).1 → ImageSafe s p.pml4 data) :=
  ⟨processMunmap_kept_iff apart, fun newBrk => ⟨processBrk_kept apart newBrk, processBrk_low apart⟩,
    fun length prot flags fd => ⟨processMmap_kept apart length prot flags fd, processMmap_low apart⟩,
    fun data size => ⟨elfLoad_kept apart data size, elfLoad_safe apart⟩⟩

end Calls

/-! One address space, PML4 in frame 1, with an empty low half and the first page of the
kernel image. -/

def kernelPageMem : PhysMem := fun f i =>
  if f = 1 ∧ i = 511 then tableEntry 2
  else if f = 2 ∧ i = 510 then tableEntry 3
  else if f = 3 ∧ i = 0 then tableEntry 4
  else if f = 4 ∧ i = 0 then pageAddr 5 ||| (pteWrite ||| ptePresent)
  else 0#64

def kernelPageVm : Vm where
  pmm := .small 16#6 (fun f => decide (f < 6)) (fun f => if f < 6 then 1 else 0) 10 6
  mem := kernelPageMem
  kernelPml4 := 1

theorem kernelPage_child {f i g : Nat} (h : pteChild (kernelPageMem f i) = some g) : g = f + 1 := by
  unfold kernelPageMem at h
  split at h
  · rename_i slot
    rw [tableEntry_child (by decide)] at h
    cases h
    rw [slot.1]
  split at h
  · rename_i slot
    rw [tableEntry_child (by decide)] at h
    cases h
    rw [slot.1]
  split at h
  · rename_i slot
    rw [tableEntry_child (by decide)] at h
    cases h
    rw [slot.1]
  split at h
  · rename_i slot
    rw [leaf_child (by decide) (by decide)] at h
    cases h
    rw [slot.1]
  · cases h

theorem kernelPage_tables {n f : Nat} (h : HighTable kernelPageMem 1 n f) :
    f = n + 1 ∧ 1 ≤ n ∧ n ≤ 3 := by
  induction h with
  | pdpt _ _ child => exact ⟨kernelPage_child child, by omega, by omega⟩
  | child _ short _ child _ ih =>
    have := kernelPage_child child
    omega

theorem kernelPage_apart : KernelApart (fun r => r = 1) 1 kernelPageVm := by
  have empty : ∀ q, LowPath q → q ≠ [] → reach kernelPageMem 1 q = none := by
    intro q low nonroot
    cases q with
    | nil => exact absurd rfl nonroot
    | cons i q =>
      have small := low.2.2 i rfl
      have absent : kernelPageMem 1 i = 0#64 := by
        have other : i ≠ 511 := by omega
        simp [kernelPageMem, other]
      rw [reach, walk, absent]
      rfl
  have few : ∀ f j, Guarded kernelPageMem (fun r => r = 1) f j →
      (f = 1 ∧ 256 ≤ j) ∨ (2 ≤ f ∧ f ≤ 4) := by
    rintro f j ⟨-, h | ⟨root, n, rfl, high⟩⟩
    · exact .inl h
    · have := kernelPage_tables high
      omega
  refine ⟨rfl, ⟨fun _ => rfl, fun f j h => ?_, ⟨by decide, fun _ => rfl⟩, fun i hi h => ?_, ?_, ?_⟩⟩
  · have := few f j h
    exact ⟨by omega, fun _ => by simp [kernelPageVm]; omega⟩
  · have := few 1 i h
    omega
  · intro q f low nonroot _ here
    rw [show kernelPageVm.mem = kernelPageMem from rfl, empty q low nonroot] at here
    cases here
  · intro q q' f low low' _ _ here here'
    by_cases hq : q = []
    · by_cases hq' : q' = []
      · rw [hq, hq']
      · rw [show kernelPageVm.mem = kernelPageMem from rfl, empty q' low' hq'] at here'
        cases here'
    · rw [show kernelPageVm.mem = kernelPageMem from rfl, empty q low hq] at here
      cases here

/-- A process whose heap ends at 0x400000. -/
def smallProcess : Process :=
  { Process.zero with pml4 := 1, heapEnd := 0x400000#64, mmapNext := 0x40000000#64 }

theorem kernel_half_kept_small :
    KernelHalfKept (fun r => r = 1) 1 kernelPageVm (processBrk kernelPageVm smallProcess 0x402000#64).1 :=
  ((kernel_half_kept_when_low smallProcess kernelPage_apart).2.1 0x402000#64).1 (by
    intro _ i hi _
    have pages : brkPages smallProcess.heapEnd 0x402000#64 = 2 := by decide
    rw [pages] at hi
    have top : pageCeil smallProcess.heapEnd = 0x400000#64 := by decide
    rw [top, pml4Idx_eq, pageOfRange]
    interval_cases i <;> decide)

/-- `munmap(0xffffffff80000000, 4096)` clears the entry of the kernel's first page and frees
the page. -/
theorem munmap_unmaps_kernel_page :
    KernelApart (fun r => r = 1) 1 kernelPageVm ∧
      ¬ KernelHalfKept (fun r => r = 1) 1 kernelPageVm
        (processMunmap kernelPageVm 1 0xffffffff80000000#64 4096#64) := by
  refine ⟨kernelPage_apart, fun kept => ?_⟩
  have table : HighTable kernelPageMem 1 3 4 := by
    have top : HighTable kernelPageMem 1 1 2 :=
      .pdpt (by decide : 256 ≤ 511) (by decide) (tableEntry_child (by decide))
    have mid : HighTable kernelPageMem 1 2 3 :=
      .child top (by decide) (by decide : 510 < 512) (tableEntry_child (by decide)) (by decide)
    exact .child mid (by decide) (by decide : 0 < 512) (tableEntry_child (by decide))
      (fun _ => tableEntry_huge 4)
  have same := kept.entries 4 0 ⟨by decide, .inr ⟨1, 3, rfl, table⟩⟩
  revert same
  decide +kernel

end Isunux
