import Isunux.UserMemory
import Isunux.Cloning

/-! Pages that are allocated as one block and mapped one after the other, as the loader
and `do_exec` do. Between the two they belong to no address space: they are used pages
outside the scope of the accounts, and each enters the scope when it is mapped. -/
namespace Isunux

open Radix

section Accounts

variable {R : Type*} {sole : R → Prop} {scope : Nat → Prop} {p : Pmm} {L : Finset (R × Nat)}

theorem Accounts.lend (a : Accounts sole scope p L) {n : Nat} (ok : (pmmAllocPages p n).2 ≠ 0) :
    let start := (pmmAllocPages p n).2
    Accounts sole (fun f => scope f ∧ ¬ (start ≤ f ∧ f < start + n)) (pmmAllocPages p n).1 L ∧
      ∀ f, start ≤ f → f < start + n → scope f ∧ p.bitmap f = false ∧
        (pmmAllocPages p n).1.bitmap f = true ∧ (pmmAllocPages p n).1.owners f = 1 := by
  intro start
  rcases pmmAllocPages_cases p n with e | ⟨first, sized, bound, clear, e⟩
  · rw [e] at ok
    exact absurd rfl ok
  have same : start = first := by rw [show start = (pmmAllocPages p n).2 from rfl, e]
  have nonzero : start ≠ 0 := ok
  have inScope : ∀ f, start ≤ f → f < start + n → scope f := by
    intro f lo hi
    by_contra out
    have used := a.outside f (by omega) (by omega) out
    rw [clear f (by omega) (by omega)] at used
    cases used
  have free : ∀ x ∈ L, ¬ (start ≤ x.2 ∧ x.2 < start + n) := by
    rintro ⟨r, f⟩ mem ⟨lo, hi⟩
    exact a.balanced.not_mem_of_unused (clear f (by omega) (by omega)) r mem
  have held : ∀ f, 0 < Ledger.held L f → ¬ (start ≤ f ∧ f < start + n) := by
    intro f positive
    obtain ⟨r, mem⟩ := Ledger.held_pos.mp positive
    exact free _ mem
  rw [e, ← same]
  refine ⟨⟨⟨?_, ?_, ?_, a.balanced.single⟩, fun f inside => a.tracked f inside.1, ?_⟩, ?_⟩
  · exact fun x mem => ⟨a.balanced.within x mem, free x mem⟩
  · rintro f ⟨inside, off⟩
    dsimp only
    rw [if_neg off]
    exact a.balanced.used_iff f inside
  · intro f positive
    simp only [Pmm.owners]
    rw [if_neg (held f positive)]
    exact a.balanced.counted f positive
  · intro f bound nonzero out
    dsimp only
    split
    · rfl
    · rename_i off
      exact a.outside f bound nonzero fun inside => out ⟨inside, off⟩
  · intro f lo hi
    refine ⟨inScope f lo hi, clear f (by omega) (by omega), if_pos ⟨lo, hi⟩, ?_⟩
    simp only [Pmm.owners]
    rw [if_pos ⟨lo, hi⟩]
    rfl

theorem Accounts.adopt [DecidableEq R] (a : Accounts sole scope p L) {f : Nat} (r : R)
    (off : ¬ scope f) (bound : f < p.totalPages) (nonzero : f ≠ 0) (used : p.bitmap f = true)
    (alone : p.owners f = 1) : Accounts sole (fun g => scope g ∨ g = f) p (insert (r, f) L) := by
  have fresh : ∀ r', (r', f) ∉ L := fun r' mem => off (a.balanced.within _ mem)
  have none : Ledger.held L f = 0 := by
    by_contra some
    obtain ⟨r', mem⟩ := Ledger.held_pos.mp (Nat.pos_of_ne_zero some)
    exact fresh r' mem
  have held := Ledger.held_insert (fresh r)
  refine ⟨⟨?_, ?_, ?_, ?_⟩, ?_, ?_⟩
  · intro x mem
    rcases Finset.mem_insert.mp mem with rfl | mem
    · exact .inr rfl
    · exact .inl (a.balanced.within x mem)
  · intro g inside
    rw [held]
    by_cases same : f = g
    · subst same
      simp [used]
    · rw [if_neg same, Nat.add_zero]
      exact a.balanced.used_iff g (inside.resolve_right (Ne.symm same))
  · intro g positive
    rw [held] at positive ⊢
    by_cases same : f = g
    · subst same
      rw [alone, none, if_pos rfl]
    · rw [if_neg same, Nat.add_zero] at positive ⊢
      exact a.balanced.counted g positive
  · intro x mem sole
    rw [held]
    rcases Finset.mem_insert.mp mem with rfl | old
    · rw [none, if_pos rfl]
    · have other : f ≠ x.2 := by
        rintro rfl
        exact off (a.balanced.within x old)
      rw [if_neg other]
      exact a.balanced.single x old sole
  · rintro g (inside | rfl)
    · exact a.tracked g inside
    · exact ⟨bound, nonzero⟩
  · intro g bound nonzero out
    exact a.outside g bound nonzero fun inside => out (.inl inside)

end Accounts

section Pages

variable {K : Type*} {roots : K → Option Nat} {scope : Nat → Prop} {s : Vm} {L : Finset (Ref K × Nat)}
  {k : K} {pml4 : Nat} {flags : Word} {kind : Kind}

/-- The slot of the page at `v` in the space `k`. -/
def SlotOf (k : K) (v : Word) (k' : K) (q : List Nat) (l : Nat) : Prop :=
  k' = k ∧ q = tablePath v ∧ l = ptIdx v

variable [DecidableEq K]

theorem Sound.mapPage (w : Sound scope roots s L) {v : Word} {f : Nat} (off : ¬ scope f)
    (bound : f < s.pmm.totalPages) (nonzero : f ≠ 0) (used : s.pmm.bitmap f = true)
    (alone : s.pmm.owners f = 1) (low : pml4Idx v < 256) (root : roots k = some pml4)
    (unmapped : leafWord roots s.mem k (tablePath v) (ptIdx v) = none)
    (format : flags ||| ptePresent = kind.flags)
    (fine : (vmmMap4kIn s pml4 v f flags).pmm.exhausted = false) :
    ∃ L', Sound (fun g => scope g ∨ g = f) roots (vmmMap4kIn s pml4 v f flags) L' ∧
      leafWord roots (vmmMap4kIn s pml4 v f flags).mem k (tablePath v) (ptIdx v) =
        some (leafEntry f kind) ∧
      (∀ k' q l, LowPath (q ++ [l]) → q.length = 3 → ¬ SlotOf k v k' q l →
        leafWord roots (vmmMap4kIn s pml4 v f flags).mem k' q l = leafWord roots s.mem k' q l) ∧
      (∀ k' q l e, LowPath (q ++ [l]) → q.length = 3 → leafWord roots s.mem k' q l = some e →
        (vmmMap4kIn s pml4 v f flags).mem (pteFrame e) = s.mem (pteFrame e)) ∧
      (∀ g, ¬ scope g → (vmmMap4kIn s pml4 v f flags).mem g = s.mem g) := by
  have accounts := w.owned.accounts.adopt (k, tablePath v ++ [ptIdx v]) off bound nonzero used alone
  have o : Owned (fun g => scope g ∨ g = f) roots s.mem s.pmm L
      (insert ((k, tablePath v ++ [ptIdx v]), f) L) :=
    ⟨w.owned.forest, accounts, Finset.subset_insert _ _⟩
  obtain ⟨L', o', -, written, rest, spared⟩ := o.map low root unmapped format fine
  have small : f < 2 ^ 52 := accounts.small (Finset.mem_insert_self _ _)
  have pages : ∀ k' q l e, LowPath (q ++ [l]) → q.length = 3 → leafWord roots s.mem k' q l = some e →
      (vmmMap4kIn s pml4 v f flags).mem (pteFrame e) = s.mem (pteFrame e) := by
    intro k' q l e low' len here
    exact spared.pages _ _ _ (Finset.mem_insert_of_mem (w.owned.leaf_mem low' here)) (by simp [len])
  refine ⟨L', ⟨o', w.shared.update rest ?_⟩, written, rest, pages, fun g out => ?_⟩
  · intro e here k' q l e' low' _ _ here' same
    rw [written] at here
    cases here
    rw [leafEntry_frame small] at same
    have inside := w.owned.accounts.balanced.within _ (w.owned.leaf_mem low' here')
    rw [same] at inside
    exact off inside
  · by_cases same : g = f
    · subst same
      exact spared.pages _ _ _ (Finset.mem_insert_self _ _) (by simp [tablePath])
    · exact spared.outside g fun inside => inside.elim out same

/-- The mapping loops of `elf_load` and `do_exec`. -/
def mapPages (pml4 : Nat) (base flags : Word) (phys n : Nat) (s : Vm) : Vm :=
  (List.range n).foldl (fun s p => vmmMap4kIn s pml4 (pageOfRange base p) (phys + p) flags) s

theorem mapPages_succ (pml4 : Nat) (base flags : Word) (phys n : Nat) (s : Vm) :
    mapPages pml4 base flags phys (n + 1) s =
      vmmMap4kIn (mapPages pml4 base flags phys n s) pml4 (pageOfRange base n) (phys + n) flags := by
  rw [mapPages, List.range_succ, List.foldl_append]
  rfl

/-- What a block looks like once it is mapped: its pages are there, other pages are where
they were, and what was in a page before is still in it. -/
structure BlockMapped (scope : Nat → Prop) (roots : K → Option Nat) (k : K) (base : Word) (kind : Kind)
    (phys n : Nat) (mem mem' : PhysMem) : Prop where
  pages : ∀ p < n, leafWord roots mem' k (tablePath (pageOfRange base p)) (ptIdx (pageOfRange base p)) =
    some (leafEntry (phys + p) kind)
  rest : ∀ k' q l, LowPath (q ++ [l]) → q.length = 3 → (∀ p < n, ¬ SlotOf k (pageOfRange base p) k' q l) →
    leafWord roots mem' k' q l = leafWord roots mem k' q l
  data : ∀ k' q l e, LowPath (q ++ [l]) → q.length = 3 → leafWord roots mem k' q l = some e →
    mem' (pteFrame e) = mem (pteFrame e)
  outside : ∀ f, ¬ scope f → mem' f = mem f

/-- A used block outside the scope: `lo` to `hi` exclusive. -/
structure Pending (scope : Nat → Prop) (p : Pmm) (lo hi : Nat) : Prop where
  bound : ∀ f, lo ≤ f → f < hi → scope f ∧ f < p.totalPages ∧ f ≠ 0
  used : ∀ f, lo ≤ f → f < hi → p.bitmap f = true ∧ p.owners f = 1

theorem mapPages_exhausted {base : Word} {phys n : Nat} (m : Nat) (more : n ≤ m)
    (h : (mapPages pml4 base flags phys n s).pmm.exhausted = true) :
    (mapPages pml4 base flags phys m s).pmm.exhausted = true := by
  induction more with
  | refl => exact h
  | step _ ih =>
    rw [mapPages_succ]
    exact vmmMap4kIn_exhausted ih

theorem getOrCreateTable_grown (s : Vm) (f i : Nat) : Grown s.pmm (getOrCreateTable s f i).1.pmm := by
  unfold getOrCreateTable
  split
  · exact .refl _
  · exact pmmAllocPage_grown s.pmm

theorem vmmMap4kIn_grown (s : Vm) (pml4 : Nat) (v : Word) (f : Nat) (flags : Word) :
    Grown s.pmm (vmmMap4kIn s pml4 v f flags).pmm :=
  (getOrCreateTable_grown _ _ _).trans ((getOrCreateTable_grown _ _ _).trans (getOrCreateTable_grown _ _ _))

omit [DecidableEq K] in
/-- Two pages of a range in the low half share a slot only if they are the same page. -/
theorem pageOfRange_slot {base : Word} {n p p' : Nat}
    (low : ∀ p < n, lowHalf (pageOfRange base p) = true) (hp : p < n) (hp' : p' < n)
    (fits : base.toNat + n * 4096 ≤ 2 ^ 47)
    (same : SlotOf k (pageOfRange base p) k (tablePath (pageOfRange base p')) (ptIdx (pageOfRange base p'))) :
    p = p' := by
  have slot := (same_slot_iff (low p' hp') (low p hp)).mp ⟨same.2.1, same.2.2⟩
  have place : ∀ i < n, (pageOfRange base i).toNat = base.toNat + i * 4096 := by
    intro i hi
    rw [pageOfRange, BitVec.toNat_add, BitVec.toNat_ofNat]
    omega
  rw [vpn, vpn, place p hp, place p' hp'] at slot
  omega

theorem pageOfRange_low {base : Word} {n : Nat} (fits : base.toNat + n * 4096 ≤ 2 ^ 47) {p : Nat}
    (hp : p < n) : lowHalf (pageOfRange base p) = true := by
  rw [lowHalf, decide_eq_true_eq, pageOfRange, BitVec.toNat_add, BitVec.toNat_ofNat]
  omega

theorem Sound.mapPages {base : Word} {phys n : Nat}
    (w : Sound (fun f => scope f ∧ ¬ (phys ≤ f ∧ f < phys + n)) roots s L) (root : roots k = some pml4)
    (pending : Pending scope s.pmm phys (phys + n)) (fits : base.toNat + n * 4096 ≤ 2 ^ 47)
    (unmapped : ∀ p < n,
      leafWord roots s.mem k (tablePath (pageOfRange base p)) (ptIdx (pageOfRange base p)) = none)
    (format : flags ||| ptePresent = kind.flags)
    (fine : (mapPages pml4 base flags phys n s).pmm.exhausted = false) :
    ∃ L', Sound scope roots (mapPages pml4 base flags phys n s) L' ∧
      BlockMapped (fun f => scope f ∧ ¬ (phys ≤ f ∧ f < phys + n)) roots k base kind phys n s.mem
        (mapPages pml4 base flags phys n s).mem ∧
      Grown s.pmm (mapPages pml4 base flags phys n s).pmm := by
  have low := fun p (hp : p < n) => pageOfRange_low fits hp
  -- after `m` rounds the pages from `phys + m` on are still outside the scope
  have rounds : ∀ m ≤ n, ∃ L', Sound (fun f => scope f ∧ ¬ (phys + m ≤ f ∧ f < phys + n)) roots
        (Isunux.mapPages pml4 base flags phys m s) L' ∧
      BlockMapped (fun f => scope f ∧ ¬ (phys ≤ f ∧ f < phys + n)) roots k base kind phys m s.mem
        (Isunux.mapPages pml4 base flags phys m s).mem ∧
      Grown s.pmm (Isunux.mapPages pml4 base flags phys m s).pmm := by
    intro m
    induction m with
    | zero =>
      intro _
      exact ⟨L, w, ⟨fun p hp => absurd hp (Nat.not_lt_zero p), fun _ _ _ _ _ _ => rfl,
        fun _ _ _ _ _ _ _ => rfl, fun _ _ => rfl⟩, .refl _⟩
    | succ m ih =>
      intro more
      obtain ⟨L', w', mapped, grown⟩ := ih (by omega)
      have here := pending.bound (phys + m) (by omega) (by omega)
      have used := pending.used (phys + m) (by omega) (by omega)
      have kept := grown.used (phys + m) used.1
      have lowM := low m (by omega)
      have fineM : (vmmMap4kIn (Isunux.mapPages pml4 base flags phys m s) pml4 (pageOfRange base m)
          (phys + m) flags).pmm.exhausted = false := by
        rw [← mapPages_succ]
        by_contra bad
        rw [mapPages_exhausted n more (by simpa using bad)] at fine
        cases fine
      have free : leafWord roots (Isunux.mapPages pml4 base flags phys m s).mem k
          (tablePath (pageOfRange base m)) (ptIdx (pageOfRange base m)) = none := by
        rw [mapped.rest k _ _ (tablePath_low (lowHalf_idx lowM)) rfl fun p hp same => ?_]
        · exact unmapped m (by omega)
        · have := pageOfRange_slot low (by omega) (by omega) fits same
          omega
      obtain ⟨L'', w'', written, rest, data, outside⟩ := w'.mapPage (f := phys + m)
        (fun inside => inside.2 ⟨le_rfl, by omega⟩) (by rw [grown.total]; exact here.2.1) here.2.2 kept.1
        (by rw [Pmm.owners, kept.2]; exact used.2) (lowHalf_idx lowM) root free format fineM
      have scopes : (fun g => (scope g ∧ ¬ (phys + m ≤ g ∧ g < phys + n)) ∨ g = phys + m) =
          fun g => scope g ∧ ¬ (phys + (m + 1) ≤ g ∧ g < phys + n) := by
        funext g
        apply propext
        constructor
        · rintro (⟨inside, off⟩ | rfl)
          · exact ⟨inside, by omega⟩
          · exact ⟨here.1, by omega⟩
        · rintro ⟨inside, off⟩
          by_cases same : g = phys + m
          · exact .inr same
          · exact .inl ⟨inside, by omega⟩
      rw [scopes] at w''
      rw [mapPages_succ]
      refine ⟨L'', w'', ⟨fun p hp => ?_, ?_, ?_, ?_⟩, grown.trans (vmmMap4kIn_grown _ _ _ _ _)⟩
      · rcases Nat.lt_succ_iff_lt_or_eq.mp hp with hp | rfl
        · have lowP := low p (by omega)
          rw [rest k _ _ (tablePath_low (lowHalf_idx lowP)) rfl fun same => ?_]
          · exact mapped.pages p hp
          · have := pageOfRange_slot low (by omega) (by omega) fits same
            omega
        · exact written
      · intro k' q l lowQ len off
        rw [rest k' q l lowQ len (off m (Nat.lt_succ_self m))]
        exact mapped.rest k' q l lowQ len fun p hp => off p (by omega)
      · intro k' q l e lowQ len here'
        -- an old page was at no place that has been mapped since
        have still : leafWord roots (Isunux.mapPages pml4 base flags phys m s).mem k' q l = some e := by
          rw [mapped.rest k' q l lowQ len fun p hp slot => ?_, here']
          obtain ⟨rfl, rfl, rfl⟩ := slot
          rw [unmapped p (by omega)] at here'
          cases here'
        rw [data k' q l e lowQ len still]
        exact mapped.data k' q l e lowQ len here'
      · intro f out
        rw [← mapped.outside f out]
        by_cases done : phys ≤ f ∧ f < phys + m
        · -- a page of the block that is mapped already
          obtain ⟨p, rfl⟩ : ∃ p, f = phys + p := ⟨f - phys, by omega⟩
          have lowP := low p (by omega)
          have small : phys + p < 2 ^ 52 :=
            small_of_bound (pending.bound (phys + p) (by omega) (by omega)).2.1
          have same := data k _ _ _ (tablePath_low (lowHalf_idx lowP)) rfl (mapped.pages p (by omega))
          rwa [leafEntry_frame small] at same
        · exact outside f fun inside => out ⟨inside.1, fun block => inside.2 (by omega)⟩
  obtain ⟨L', w', mapped, grown⟩ := rounds n le_rfl
  have scopes : (fun f => scope f ∧ ¬ (phys + n ≤ f ∧ f < phys + n)) = scope := by
    funext f
    exact propext ⟨fun h => h.1, fun h => ⟨h, by omega⟩⟩
  rw [scopes] at w'
  exact ⟨L', w', mapped, grown⟩

end Pages

/-! The flag that records a failed allocation decides nothing. -/

def Pmm.unflagged (p : Pmm) : Pmm := { p with exhausted := false }

def Vm.unflagged (s : Vm) : Vm := { s with pmm := s.pmm.unflagged }

section Flag

variable {s t : Vm}

/-- Two states that differ in the flag at most. -/
def Agree (s t : Vm) : Prop := s.unflagged = t.unflagged

theorem agree_unflagged (s : Vm) : Agree s s.unflagged := rfl

theorem Agree.pmm (h : Agree s t) : s.pmm.unflagged = t.pmm.unflagged := congrArg Vm.pmm h

theorem agree_iff :
    Agree s t ↔ s.pmm.unflagged = t.pmm.unflagged ∧ s.mem = t.mem ∧ s.kernelPml4 = t.kernelPml4 := by
  constructor
  · intro h
    have mem : s.unflagged.mem = t.unflagged.mem := congrArg Vm.mem h
    have kernel : s.unflagged.kernelPml4 = t.unflagged.kernelPml4 := congrArg Vm.kernelPml4 h
    exact ⟨h.pmm, mem, kernel⟩
  · rintro ⟨pmm, mem, kernel⟩
    rw [Agree, Vm.unflagged, Vm.unflagged, pmm, mem, kernel]

theorem Agree.mem (h : Agree s t) : s.mem = t.mem := (agree_iff.mp h).2.1

theorem Sound.unflagged {K : Type*} {scope : Nat → Prop} {roots : K → Option Nat}
    {L : Finset (Ref K × Nat)} (w : Sound scope roots s L) : Sound scope roots s.unflagged L :=
  ⟨⟨w.owned.forest, ⟨w.owned.accounts.balanced, w.owned.accounts.tracked, w.owned.accounts.outside⟩,
    w.owned.sub⟩, w.shared⟩

theorem pmmAllocPage_unflagged (p : Pmm) :
    (pmmAllocPage p.unflagged).2 = (pmmAllocPage p).2 ∧
      (pmmAllocPage p.unflagged).1.unflagged = (pmmAllocPage p).1.unflagged := by
  unfold pmmAllocPage
  dsimp only [Pmm.unflagged]
  split
  · exact ⟨rfl, rfl⟩
  · split
    · exact ⟨rfl, rfl⟩
    · exact ⟨rfl, rfl⟩

theorem pmmAllocPages_unflagged (p : Pmm) (n : Nat) :
    (pmmAllocPages p.unflagged n).2 = (pmmAllocPages p n).2 ∧
      (pmmAllocPages p.unflagged n).1.unflagged = (pmmAllocPages p n).1.unflagged := by
  by_cases refused : n = 0 ∨ p.totalPages < n
  · have refused' : n = 0 ∨ p.unflagged.totalPages < n := refused
    rw [pmmAllocPages, pmmAllocPages, if_pos refused, if_pos refused']
    exact ⟨rfl, rfl⟩
  · have granted : ¬ (n = 0 ∨ p.unflagged.totalPages < n) := refused
    rw [pmmAllocPages, pmmAllocPages, if_neg refused, if_neg granted]
    dsimp only [Pmm.unflagged]
    cases searchRun p.bitmap p.totalPages n (p.totalPages + 1) 0 with
    | none => exact ⟨rfl, rfl⟩
    | some start => exact ⟨rfl, rfl⟩

theorem pmmFreePage_unflagged (p : Pmm) (f : Nat) :
    (pmmFreePage p f).unflagged = (pmmFreePage p.unflagged f).unflagged := by
  by_cases bound : f < p.totalPages
  · by_cases clear : p.bitmap f = false
    · simp [pmmFreePage, Pmm.unflagged, bound, clear]
    · by_cases many : 1 < p.refcount f
      · simp [pmmFreePage, Pmm.unflagged, bound, clear, many]
      · have bound' : f < p.unflagged.totalPages := bound
        have clear' : ¬ p.unflagged.bitmap f = false := clear
        have many' : ¬ 1 < p.unflagged.refcount f := many
        rw [pmmFreePage, pmmFreePage, dif_pos bound, dif_pos bound', if_neg clear, if_neg clear', if_neg many,
          if_neg many']
        rfl
  · simp [pmmFreePage, Pmm.unflagged, bound]

theorem Agree.alloc (h : Agree s t) : (pmmAllocPage s.pmm).2 = (pmmAllocPage t.pmm).2 ∧
    (pmmAllocPage s.pmm).1.unflagged = (pmmAllocPage t.pmm).1.unflagged := by
  have left := pmmAllocPage_unflagged s.pmm
  have right := pmmAllocPage_unflagged t.pmm
  rw [← h.pmm] at right
  exact ⟨left.1.symm.trans right.1, left.2.symm.trans right.2⟩

theorem Agree.allocPages (h : Agree s t) (n : Nat) : (pmmAllocPages s.pmm n).2 = (pmmAllocPages t.pmm n).2 ∧
    (pmmAllocPages s.pmm n).1.unflagged = (pmmAllocPages t.pmm n).1.unflagged := by
  have left := pmmAllocPages_unflagged s.pmm n
  have right := pmmAllocPages_unflagged t.pmm n
  rw [← h.pmm] at right
  exact ⟨left.1.symm.trans right.1, left.2.symm.trans right.2⟩

theorem Agree.table (h : Agree s t) (f i : Nat) :
    Agree (getOrCreateTable s f i).1 (getOrCreateTable t f i).1 ∧
      (getOrCreateTable s f i).2 = (getOrCreateTable t f i).2 := by
  have same := agree_iff.mp h
  unfold getOrCreateTable
  rw [same.2.1]
  split
  · exact ⟨h, rfl⟩
  · obtain ⟨page, pmm⟩ := h.alloc
    dsimp only
    rw [page]
    exact ⟨agree_iff.mpr ⟨pmm, rfl, same.2.2⟩, rfl⟩

theorem Agree.map (h : Agree s t) (pml4 : Nat) (v : Word) (f : Nat) (flags : Word) :
    Agree (vmmMap4kIn s pml4 v f flags) (vmmMap4kIn t pml4 v f flags) := by
  unfold vmmMap4kIn
  dsimp only
  obtain ⟨ha, same⟩ := h.table pml4 (pml4Idx v)
  rw [same]
  obtain ⟨hb, same⟩ := ha.table (getOrCreateTable t pml4 (pml4Idx v)).2 (pdptIdx v)
  rw [same]
  obtain ⟨hc, same⟩ := hb.table
    (getOrCreateTable (getOrCreateTable t pml4 (pml4Idx v)).1 (getOrCreateTable t pml4 (pml4Idx v)).2
      (pdptIdx v)).2 (pdIdx v)
  rw [same]
  have rest := agree_iff.mp hc
  refine agree_iff.mpr ⟨rest.1, ?_, rest.2.2⟩
  dsimp only
  rw [rest.2.1]

theorem Agree.mapPages (h : Agree s t) (pml4 : Nat) (base flags : Word) (phys n : Nat) :
    Agree (mapPages pml4 base flags phys n s) (mapPages pml4 base flags phys n t) := by
  induction n with
  | zero => exact h
  | succ n ih =>
    rw [mapPages_succ, mapPages_succ]
    exact ih.map _ _ _ _

end Flag

end Isunux
