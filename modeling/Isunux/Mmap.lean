import Isunux.Break

/-! `process_mmap` and `process_munmap` of one process. The arena pointer only moves up,
so what was handed out once is not handed out again; a call that runs out of memory takes
back the pages it has mapped, entry by entry. -/
namespace Isunux

open Radix

section Unmapping

variable {K : Type*} [DecidableEq K] {roots : K → Option Nat} {scope : Nat → Prop} {s t : Vm}
  {L M : Finset (Ref K × Nat)} {k : K} {pml4 : Nat} {v : Word}

/-- One round of the two unmapping loops, by its address. -/
def unmapAt (pml4 : Nat) (s : Vm) (v : Word) : Vm := munmapPage pml4 v s 0

omit [DecidableEq K] in
theorem munmapPage_at (pml4 : Nat) (base : Word) (s : Vm) (i : Nat) :
    munmapPage pml4 base s i = unmapAt pml4 s (pageOfRange base i) := by
  have here : base + BitVec.ofNat 64 (i * 4096) = pageOfRange base i + BitVec.ofNat 64 (0 * 4096) := by
    rw [pageOfRange, Nat.zero_mul, BitVec.add_zero]
  rw [unmapAt, munmapPage, munmapPage, here]

omit [DecidableEq K] in
theorem munmapPages_at (pml4 : Nat) (base : Word) (s : Vm) (n : Nat) :
    (List.range n).foldl (munmapPage pml4 base) s =
      ((List.range n).map (pageOfRange base)).foldl (unmapAt pml4) s := by
  rw [List.foldl_map]
  congr 1
  funext s i
  exact munmapPage_at pml4 base s i

/-- What the round does: the entry at `v` is gone and its page has an owner less. -/
structure Unmapped (roots : K → Option Nat) (k : K) (v : Word) (s t : Vm) : Prop where
  gone : leafWord roots t.mem k (tablePath v) (ptIdx v) = none
  rest : ∀ k' q l, LowPath (q ++ [l]) → q.length = 3 → ¬ SlotOf k v k' q l →
    leafWord roots t.mem k' q l = leafWord roots s.mem k' q l
  tables : ∀ k' q, LowPath q → q.length ≤ 3 → at_ roots t.mem k' q = at_ roots s.mem k' q
  pages : t.pmm = match leafWord roots s.mem k (tablePath v) (ptIdx v) with
    | none => s.pmm
    | some e => pmmFreePage s.pmm (pteFrame e)

theorem Owned.unmapAt (o : Owned scope roots s.mem s.pmm L M) (root : roots k = some pml4) (low : pml4Idx v < 256) :
    (∃ L' M', Owned scope roots (Isunux.unmapAt pml4 s v).mem (Isunux.unmapAt pml4 s v).pmm L' M') ∧
      Unmapped roots k v s (Isunux.unmapAt pml4 s v) := by
  have lowLeaf := tablePath_low low
  have found := o.getPte_isNone root low
  have addr : v + BitVec.ofNat 64 (0 * 4096) = v := by rw [Nat.zero_mul, BitVec.add_zero]
  unfold Isunux.unmapAt munmapPage
  rw [addr]
  cases leaf : leafWord roots s.mem k (tablePath v) (ptIdx v) with
  | none =>
    rw [leaf, Option.isNone_none, Option.isNone_iff_eq_none] at found
    rw [found]
    exact ⟨⟨L, M, o⟩, leaf, fun _ _ _ _ _ _ => rfl, fun _ _ _ _ => rfl, by rw [leaf]⟩
  | some e =>
    rw [o.getPte root low]
    obtain ⟨pt, table, word, present⟩ := leafWord_some.mp leaf
    obtain ⟨-, nodes, gone, rest⟩ := o.clearSlot lowLeaf rfl table leaf
    rw [table]
    simp only [Option.bind_some, word, present, if_true]
    exact ⟨⟨_, _, o.unmap lowLeaf rfl table leaf⟩, gone, rest, nodes, by rw [leaf]⟩

omit [DecidableEq K] in
theorem pmmFreePage_sole {p : Pmm} {f : Nat} (bound : f < p.totalPages) (one : p.refcount f = 1) :
    (pmmFreePage p f).bitmap f = false := by
  rw [pmmFreePage, dif_pos bound]
  by_cases clear : p.bitmap f = false
  · rw [if_pos clear]
    exact clear
  · rw [if_neg clear, if_neg (by rw [one]; decide)]
    exact Function.update_self _ _ _

/-- Pages that were mapped in frames of their own are taken back. -/
structure Unwound (scope : Nat → Prop) (roots : K → Option Nat) (k : K) (ps : List (Word × Nat)) (s t : Vm) :
    Prop where
  owned : ∃ L M, Owned scope roots t.mem t.pmm L M
  gone : ∀ x ∈ ps, leafWord roots t.mem k (tablePath x.1) (ptIdx x.1) = none
  freed : ∀ x ∈ ps, t.pmm.bitmap x.2 = false
  rest : ∀ k' q l, LowPath (q ++ [l]) → q.length = 3 → (∀ x ∈ ps, ¬ SlotOf k x.1 k' q l) →
    leafWord roots t.mem k' q l = leafWord roots s.mem k' q l
  tables : ∀ k' q, LowPath q → q.length ≤ 3 → at_ roots t.mem k' q = at_ roots s.mem k' q
  pages : ∀ f, (∀ x ∈ ps, f ≠ x.2) → t.pmm.bitmap f = s.pmm.bitmap f ∧ t.pmm.refcount f = s.pmm.refcount f

theorem Owned.unwind {ps : List (Word × Nat)} {kind : Kind} (o : Owned scope roots s.mem s.pmm L M)
    (root : roots k = some pml4) (low : ∀ x ∈ ps, pml4Idx x.1 < 256)
    (leaves : ∀ x ∈ ps, leafWord roots s.mem k (tablePath x.1) (ptIdx x.1) = some (leafEntry x.2 kind))
    (small : ∀ x ∈ ps, x.2 < 2 ^ 52) (sole : ∀ x ∈ ps, s.pmm.refcount x.2 = 1) (apart : (ps.map Prod.snd).Nodup)
    (slots : ps.Pairwise fun x y => ¬ SlotOf k x.1 k (tablePath y.1) (ptIdx y.1)) :
    Unwound scope roots k ps s ((ps.map Prod.fst).foldl (Isunux.unmapAt pml4) s) := by
  induction ps generalizing s L M with
  | nil =>
    exact ⟨⟨L, M, o⟩, fun x mem => absurd mem List.not_mem_nil, fun x mem => absurd mem List.not_mem_nil,
      fun _ _ _ _ _ _ => rfl, fun _ _ _ _ => rfl, fun _ _ => ⟨rfl, rfl⟩⟩
  | cons x ps ih =>
    have here := leaves x List.mem_cons_self
    have lowX := low x List.mem_cons_self
    have frame := leafEntry_frame (small x List.mem_cons_self) kind
    have bound : x.2 < s.pmm.totalPages := by
      have own := o.accounts.bound (o.sub (o.leaf_mem (tablePath_low lowX) here))
      rwa [frame] at own
    obtain ⟨first, rest⟩ := List.nodup_cons.mp apart
    obtain ⟨firstSlot, restSlots⟩ := List.pairwise_cons.mp slots
    obtain ⟨⟨L', M', o'⟩, one⟩ := o.unmapAt root lowX
    have pages := one.pages
    rw [here] at pages
    dsimp only at pages
    rw [frame] at pages
    have other : ∀ y ∈ ps, y.2 ≠ x.2 := fun y mem same => first (same ▸ List.mem_map_of_mem mem)
    have later := ih o' (fun y mem => low y (List.mem_cons_of_mem x mem))
      (fun y mem => by
        rw [one.rest k _ _ (tablePath_low (low y (List.mem_cons_of_mem x mem))) rfl (firstSlot y mem)]
        exact leaves y (List.mem_cons_of_mem x mem))
      (fun y mem => small y (List.mem_cons_of_mem x mem))
      (fun y mem => by
        rw [pages, (pmmFreePage_other s.pmm (other y mem)).2]
        exact sole y (List.mem_cons_of_mem x mem)) rest restSlots
    rw [List.map_cons, List.foldl_cons]
    refine ⟨later.owned, fun y mem => ?_, fun y mem => ?_, fun k' q l lowQ len out => ?_, fun k' q lowQ few => ?_,
      fun f out => ?_⟩
    · rcases List.mem_cons.mp mem with rfl | there
      · rw [later.rest k _ _ (tablePath_low lowX) rfl fun z memZ slot => firstSlot z memZ ⟨rfl, slot.2.1.symm, slot.2.2.symm⟩]
        exact one.gone
      · exact later.gone y there
    · rcases List.mem_cons.mp mem with rfl | there
      · rw [(later.pages y.2 fun z memZ => (other z memZ).symm).1, pages]
        exact pmmFreePage_sole bound (sole y List.mem_cons_self)
      · exact later.freed y there
    · rw [later.rest k' q l lowQ len fun y mem => out y (List.mem_cons_of_mem x mem)]
      exact one.rest k' q l lowQ len (out x List.mem_cons_self)
    · rw [later.tables k' q lowQ few, one.tables k' q lowQ few]
    · have same := pmmFreePage_other s.pmm (out x List.mem_cons_self)
      obtain ⟨bitmap, count⟩ := later.pages f fun y mem => out y (List.mem_cons_of_mem x mem)
      rw [pages] at bitmap count
      exact ⟨bitmap.trans same.1, count.trans same.2⟩

end Unmapping

section Agreeing

variable {s t : Vm}

theorem Agree.bitmap (h : Agree s t) : s.pmm.bitmap = t.pmm.bitmap := by
  have same : s.pmm.unflagged.bitmap = t.pmm.unflagged.bitmap := congrArg Pmm.bitmap h.pmm
  exact same

theorem Agree.refcount (h : Agree s t) : s.pmm.refcount = t.pmm.refcount := by
  have same : s.pmm.unflagged.refcount = t.pmm.unflagged.refcount := congrArg Pmm.refcount h.pmm
  exact same

theorem Owned.of_agree {K : Type*} {scope : Nat → Prop} {roots : K → Option Nat} {L M : Finset (Ref K × Nat)}
    (o : Owned scope roots t.mem t.pmm L M) (h : Agree s t) : Owned scope roots s.mem s.pmm L M := by
  have o' : Owned scope roots t.mem t.pmm.unflagged L M := o.unflagged
  rw [← h.pmm, ← h.mem] at o'
  exact ⟨o'.forest, ⟨o'.accounts.balanced, o'.accounts.tracked, o'.accounts.outside⟩, o'.sub⟩

theorem Agree.unmapAt (h : Agree s t) (pml4 : Nat) (v : Word) : Agree (unmapAt pml4 s v) (unmapAt pml4 t v) := by
  have same := agree_iff.mp h
  unfold Isunux.unmapAt munmapPage
  rw [same.2.1]
  cases vmmGetPte t.mem pml4 (v + BitVec.ofNat 64 (0 * 4096)) with
  | none => exact h
  | some slot =>
    obtain ⟨pt, l⟩ := slot
    dsimp only
    by_cases present : hasBits (t.mem pt l) ptePresent = true
    · rw [if_pos present, if_pos present]
      refine agree_iff.mpr ⟨?_, rfl, same.2.2⟩
      dsimp only
      rw [pmmFreePage_unflagged, pmmFreePage_unflagged t.pmm, same.1]
    · rw [if_neg present, if_neg present]
      exact h

theorem Agree.unmapAll (h : Agree s t) (pml4 : Nat) (vs : List Word) :
    Agree (vs.foldl (Isunux.unmapAt pml4) s) (vs.foldl (Isunux.unmapAt pml4) t) := by
  induction vs generalizing s t with
  | nil => exact h
  | cons v vs ih => exact ih (h.unmapAt pml4 v)

theorem mapZeroPages_stops {pml4 j n i : Nat} {base flags : Word} (more : j < n)
    (count : (mapZeroPages pml4 base flags j i s).2 = i + j)
    (refused : (pmmAllocPage (mapZeroPages pml4 base flags j i s).1.pmm).2 = 0) :
    mapZeroPages pml4 base flags n i s =
      ({ (mapZeroPages pml4 base flags j i s).1 with
          pmm := (pmmAllocPage (mapZeroPages pml4 base flags j i s).1.pmm).1 }, i + j) := by
  obtain ⟨m, rfl⟩ := Nat.exists_eq_succ_of_ne_zero (show n ≠ 0 by omega)
  induction j generalizing i s m with
  | zero =>
    rw [mapZeroPages] at refused ⊢
    rw [mapZeroPages, mapZeroPage, if_pos refused]
    rfl
  | succ j ih =>
    rw [mapZeroPages] at count refused
    rw [mapZeroPages, mapZeroPages]
    by_cases mapped : (mapZeroPage s pml4 (pageOfRange base i) flags).2 = true
    · rw [if_pos mapped] at count refused
      rw [if_pos mapped, if_pos mapped]
      obtain ⟨m', rfl⟩ := Nat.exists_eq_succ_of_ne_zero (show m ≠ 0 by omega)
      have order : i + (j + 1) = i + 1 + j := by omega
      rw [order] at count ⊢
      exact ih count refused m' (by omega)
    · rw [if_neg mapped] at count
      dsimp only at count
      omega

end Agreeing

section Unwinding

variable {K : Type*} {roots : K → Option Nat} {scope : Nat → Prop} {s : Vm} {L M : Finset (Ref K × Nat)} {k : K}
  {p : Process} {length prot flags : Word} {fd : Int} {j : Nat}

/-- The entry flags that `process_mmap` derives from the protection asked for. -/
def mmapFlags (prot : Word) : Word := if hasBits prot protWrite then pteUser ||| pteWrite else pteUser

def mmapKind (prot : Word) : Kind := if hasBits prot protWrite then .rw else .ro

theorem mmapFlags_kind (prot : Word) : mmapFlags prot ||| ptePresent = (mmapKind prot).flags := by
  unfold mmapFlags mmapKind
  split
  · decide
  · decide

/-- The first rounds of the loop of `process_mmap`. -/
def mmapRounds (s : Vm) (p : Process) (prot : Word) (j : Nat) : Vm × Nat :=
  mapZeroPages p.pml4 p.mmapNext (mmapFlags prot) j 0 s.unflagged

/-- The call gets as far as its page `j`, no allocation having failed, and there is no
page for that one. -/
structure DataPageRefused (s : Vm) (p : Process) (length prot : Word) (j : Nat) : Prop where
  before : j < pagesOf length
  mapped : (mmapRounds s p prot j).2 = j
  tables : (mmapRounds s p prot j).1.pmm.exhausted = false
  refused : (pmmAllocPage (mmapRounds s p prot j).1.pmm).2 = 0

/-- A table that was not there and below which nothing is mapped. -/
def EmptyTable (s t : Vm) (pml4 f : Nat) : Prop :=
  ∃ q, LowPath q ∧ q ≠ [] ∧ q.length ≤ 3 ∧ reach s.mem pml4 q = none ∧ reach t.mem pml4 q = some f ∧
    ∀ v, q <+: tablePath v → userLeaf t.mem pml4 v = none

/-- What a call refused at its page `j` owes: everything is as before, but for empty
tables. -/
structure MmapUnwound (roots : K → Option Nat) (s : Vm) (p : Process) (prot : Word) (j : Nat) (t : Vm) (p' : Process) :
    Prop where
  next : p'.mmapNext = p.mmapNext
  leaves : ∀ k pml4, roots k = some pml4 → ∀ v, userLeaf t.mem pml4 v = userLeaf s.mem pml4 v
  counts : ∀ f, s.pmm.bitmap f = true → t.pmm.bitmap f = true ∧ t.pmm.refcount f = s.pmm.refcount f
  freed : ∀ i < j, ∀ e, userLeaf (mmapRounds s p prot j).1.mem p.pml4 (pageOfRange p.mmapNext i) = some e →
    t.pmm.bitmap (pteFrame e) = false
  remains : ∀ f, s.pmm.bitmap f = false → t.pmm.bitmap f = true → EmptyTable s t p.pml4 f

/-- None of the pages that were mapped had been mapped before. -/
def MmapVacant (s : Vm) (p : Process) (j : Nat) : Prop :=
  ∀ i < j, userLeaf s.mem p.pml4 (pageOfRange p.mmapNext i) = none

theorem processMmap_refused (zero : Held s.pmm 0) (anonymous : hasBits flags mapAnonymous = true) (file : fd = -1)
    (refused : DataPageRefused s p length prot j) :
    (processMmap s p length prot flags fd).2 = (p, negated enomem) ∧
      Agree (processMmap s p length prot flags fd).1
        (((List.range j).map (pageOfRange p.mmapNext)).foldl (unmapAt p.pml4) (mmapRounds s p prot j).1) := by
  have some : length ≠ 0#64 := by
    rintro rfl
    exact absurd refused.before (by simp [pagesOf])
  have stops := mapZeroPages_stops refused.before (refused.mapped.trans (Nat.zero_add j).symm) refused.refused
  obtain ⟨count, agree⟩ := (agree_unflagged s).mapZeroPages p.pml4 p.mmapNext (mmapFlags prot) (pagesOf length) 0
  rw [stops] at count agree
  rw [Nat.zero_add] at count
  have rounds : Agree (mapZeroPages p.pml4 p.mmapNext (mmapFlags prot) (pagesOf length) 0 s).1
      (mmapRounds s p prot j).1 := by
    refine agree.trans (agree_iff.mpr ⟨?_, rfl, rfl⟩)
    dsimp only
    rcases pmmAllocPage_cases (mmapRounds s p prot j).1.pmm with ⟨idx, bound, clear, e⟩ | e
    · -- page 0 is never free
      have none := refused.refused
      rw [e] at none
      dsimp only at none
      subst none
      have held : Held (mmapRounds s p prot j).1.pmm 0 := mapZeroPages_grown.held zero
      rw [held bound] at clear
      cases clear
    · rw [mmapRounds] at e
      rw [e]
      rfl
  have run : processMmap s p length prot flags fd =
      ((List.range j).foldl (munmapPage p.pml4 p.mmapNext)
        (mapZeroPages p.pml4 p.mmapNext (mmapFlags prot) (pagesOf length) 0 s).1, p, negated enomem) := by
    have accepted : ¬ ((!hasBits flags mapAnonymous || decide (fd ≠ -1)) = true) := by simp [anonymous, file]
    rw [processMmap, if_neg some, if_neg accepted]
    dsimp only
    rw [← mmapFlags, count, if_pos refused.before]
  rw [run]
  refine ⟨rfl, ?_⟩
  dsimp only
  rw [munmapPages_at]
  exact rounds.unmapAll p.pml4 _

variable [DecidableEq K]

theorem DataPageRefused.unwound (refused : DataPageRefused s p length prot j) (o : Owned scope roots s.mem s.pmm L M)
    (zero : Held s.pmm 0) (root : roots k = some p.pml4) (fits : p.mmapNext.toNat + j * 4096 ≤ 2 ^ 47) :
    ∃ M' pages, Zeroed scope roots k p.pml4 (mmapKind prot) M M' pages s.unflagged (mmapRounds s p prot j).1 ∧
      pages.map Prod.fst = (List.range j).map (pageOfRange p.mmapNext) ∧ (∀ x ∈ pages, lowHalf x.1 = true) ∧
      Unwound scope roots k pages (mmapRounds s p prot j).1
        (((List.range j).map (pageOfRange p.mmapNext)).foldl (unmapAt p.pml4) (mmapRounds s p prot j).1) := by
  have start : Zeroed scope roots k p.pml4 (mmapKind prot) M M [] s.unflagged s.unflagged := .start o.unflagged zero rfl
  obtain ⟨M', pages, zeroed, shape⟩ := start.loop_fine (i := 0) (n := j) rfl root (mmapFlags_kind prot)
    (by rwa [Nat.zero_add]) (refused.mapped.trans (Nat.zero_add j).symm) refused.tables
  rw [Nat.zero_add] at shape
  have range : ∀ x ∈ pages, ∃ i < j, x.1 = pageOfRange p.mmapNext i := by
    intro x mem
    have addr : x.1 ∈ (List.range j).map (pageOfRange p.mmapNext) := shape ▸ List.mem_map_of_mem mem
    obtain ⟨i, hi, same⟩ := List.mem_map.mp addr
    exact ⟨i, List.mem_range.mp hi, same.symm⟩
  have low : ∀ x ∈ pages, lowHalf x.1 = true := by
    intro x mem
    obtain ⟨i, hi, same⟩ := range x mem
    rw [same]
    exact pageOfRange_low fits hi
  have slots : pages.Pairwise fun x y => ¬ SlotOf k x.1 k (tablePath y.1) (ptIdx y.1) := by
    have apart : (pages.map Prod.fst).Pairwise fun v w => ¬ SlotOf k v k (tablePath w) (ptIdx w) := by
      rw [shape, List.pairwise_map]
      refine List.pairwise_lt_range.imp_of_mem fun {a b} ha hb less slot => ?_
      have equal : a = b := pageOfRange_slot (fun i hi => pageOfRange_low fits hi) (List.mem_range.mp ha)
        (List.mem_range.mp hb) fits slot
      omega
    exact List.pairwise_map.mp apart
  refine ⟨M', pages, zeroed, shape, low, ?_⟩
  obtain ⟨L', owned⟩ := zeroed.owned
  rw [← shape]
  exact owned.unwind root (fun x mem => lowHalf_idx (low x mem)) zeroed.leaves
    (fun x mem => owned.accounts.small (zeroed.own x mem)) (fun x mem => (zeroed.sole x mem).2) zeroed.apart slots

theorem mmap_unwinds_low (o : Owned scope roots s.mem s.pmm L M) (zero : Held s.pmm 0) (root : roots k = some p.pml4)
    (anonymous : hasBits flags mapAnonymous = true) (file : fd = -1) (refused : DataPageRefused s p length prot j)
    (fits : p.mmapNext.toNat + j * 4096 ≤ 2 ^ 47) :
    (processMmap s p length prot flags fd).2.2 = negated enomem ∧
      (MmapUnwound roots s p prot j (processMmap s p length prot flags fd).1
        (processMmap s p length prot flags fd).2.1 ↔ MmapVacant s p j) := by
  obtain ⟨result, agree⟩ := processMmap_refused zero anonymous file refused
  obtain ⟨M', pages, zeroed, shape, low, unwound⟩ := refused.unwound o zero root fits
  generalize (processMmap s p length prot flags fd).1 = t at agree ⊢
  generalize ((List.range j).map (pageOfRange p.mmapNext)).foldl (unmapAt p.pml4) (mmapRounds s p prot j).1 = u
    at agree unwound
  obtain ⟨L', M'', owned⟩ := unwound.owned
  have page : ∀ i < j, ∃ x ∈ pages, x.1 = pageOfRange p.mmapNext i := by
    intro i hi
    have addr : pageOfRange p.mmapNext i ∈ pages.map Prod.fst := by
      rw [shape]
      exact List.mem_map.mpr ⟨i, List.mem_range.mpr hi, rfl⟩
    obtain ⟨x, mem, same⟩ := List.mem_map.mp addr
    exact ⟨x, mem, same⟩
  rw [result]
  refine ⟨rfl, fun meets i hi => ?_, fun vacant => ?_⟩
  · obtain ⟨x, mem, same⟩ := page i hi
    have kept := meets.leaves k p.pml4 root (pageOfRange p.mmapNext i)
    rw [← same] at kept ⊢
    rw [← kept, agree.mem, owned.userLeaf root (low x mem)]
    exact unwound.gone x mem
  · have leaves : ∀ k' pml4, roots k' = some pml4 → ∀ v, userLeaf t.mem pml4 v = userLeaf s.mem pml4 v := by
      intro k' pml4 root' v
      by_cases lowV : lowHalf v = true
      · have lowLeaf := tablePath_low (lowHalf_idx lowV)
        rw [agree.mem, owned.userLeaf root' lowV, o.userLeaf root' lowV]
        by_cases mine : ∃ x ∈ pages, SlotOf k x.1 k' (tablePath v) (ptIdx v)
        · obtain ⟨x, mem, rfl, path, slot⟩ := mine
          have addr : x.1 ∈ (List.range j).map (pageOfRange p.mmapNext) := shape ▸ List.mem_map_of_mem mem
          obtain ⟨i, hi, same⟩ := List.mem_map.mp addr
          have none := vacant i (List.mem_range.mp hi)
          rw [same, o.userLeaf root (low x mem)] at none
          rw [path, slot, unwound.gone x mem, none]
        · push Not at mine
          rw [unwound.rest k' _ _ lowLeaf rfl mine]
          exact zeroed.rest k' _ _ lowLeaf rfl mine
      · rw [userLeaf, userLeaf, if_neg lowV, if_neg lowV]
    refine ⟨rfl, leaves, fun f used => ?_, fun i hi e here => ?_, fun f clear used => ?_⟩
    · have other : ∀ x ∈ pages, f ≠ x.2 := by
        rintro x mem rfl
        have clear : s.pmm.bitmap x.2 = false := zeroed.fresh x mem
        rw [clear] at used
        cases used
      obtain ⟨same, count⟩ := unwound.pages f other
      obtain ⟨used', count'⟩ := zeroed.grown.used f used
      rw [agree.bitmap, agree.refcount, same, count]
      exact ⟨used', count'⟩
    · obtain ⟨x, mem, same⟩ := page i hi
      rw [← same, zeroed.userLeaf_page root mem (low x mem) (low x mem) rfl] at here
      obtain ⟨L'', owned'⟩ := zeroed.owned
      rw [← Option.some.inj here, leafEntry_frame (owned'.accounts.small (zeroed.own x mem)), agree.bitmap]
      exact unwound.freed x mem
    · rw [agree.bitmap] at used
      have other : ∀ x ∈ pages, f ≠ x.2 := by
        rintro x mem rfl
        rw [unwound.freed x mem] at used
        cases used
      rw [(unwound.pages f other).1] at used
      rcases zeroed.taken f used with before | ⟨x, mem, same⟩ | ⟨q, needed, absent, made⟩
      · have before : s.pmm.bitmap f = true := before
        rw [clear] at before
        cases before
      · exact absurd same (other x mem)
      · have lowQ := mem_neededTables_low (fun v mem => by
          rw [shape] at mem
          exact pageOfRange_low_idx fits mem) needed
        have absent : at_ roots s.mem k q = none := absent
        refine ⟨q, lowQ.1, ?_, lowQ.2, ?_, ?_, fun v onPath => ?_⟩
        · rintro rfl
          rw [at_, node_root, root] at absent
          cases absent
        · rw [← at_reach root]
          exact absent
        · rw [agree.mem, ← at_reach root, unwound.tables k q lowQ.1 lowQ.2]
          exact made
        · rw [leaves k p.pml4 root v]
          by_cases lowV : lowHalf v = true
          · obtain ⟨rest, whole⟩ := onPath
            rw [o.userLeaf root lowV, leafWord, ← whole, at_append, absent]
            rfl
          · rw [userLeaf, if_neg lowV]

/-- The pages mapped before the refusal are below 2^47, and nothing was mapped there. -/
def MmapServed (s : Vm) (p : Process) (j : Nat) : Prop := p.mmapNext.toNat + j * 4096 ≤ 2 ^ 47 ∧ MmapVacant s p j

/-- A call that is refused a data page leaves everything as it was where it has mapped over
nothing, and nowhere else below 2^47. -/
theorem mmap_unwinds_iff (o : Owned scope roots s.mem s.pmm L M) (zero : Held s.pmm 0) (root : roots k = some p.pml4)
    (anonymous : hasBits flags mapAnonymous = true) (file : fd = -1) (refused : DataPageRefused s p length prot j) :
    (processMmap s p length prot flags fd).2.2 = negated enomem ∧
      (MmapServed s p j → MmapUnwound roots s p prot j (processMmap s p length prot flags fd).1
        (processMmap s p length prot flags fd).2.1) ∧
      (p.mmapNext.toNat + j * 4096 ≤ 2 ^ 47 → MmapUnwound roots s p prot j (processMmap s p length prot flags fd).1
        (processMmap s p length prot flags fd).2.1 → MmapServed s p j) := by
  refine ⟨by rw [(processMmap_refused zero anonymous file refused).1], fun served => ?_, fun fits meets => ⟨fits, ?_⟩⟩
  · exact (mmap_unwinds_low o zero root anonymous file refused served.1).2.mpr served.2
  · exact (mmap_unwinds_low o zero root anonymous file refused fits).2.mp meets

end Unwinding

theorem mmap_refused_six : DataPageRefused sixSpace emptyHeap 8192#64 protWrite 1 :=
  ⟨by decide, by decide +kernel, by decide +kernel, by decide +kernel⟩

theorem mmap_unwinds_six :
    (processMmap sixSpace emptyHeap 8192#64 protWrite mapAnonymous (-1)).2.2 = negated enomem ∧
      ∀ f, sixSpace.pmm.bitmap f = false →
        (processMmap sixSpace emptyHeap 8192#64 protWrite mapAnonymous (-1)).1.pmm.bitmap f = true →
        EmptyTable sixSpace (processMmap sixSpace emptyHeap 8192#64 protWrite mapAnonymous (-1)).1 1 f := by
  have root : (vmmNewAddressSpace sixPages).2 = 1 := by decide +kernel
  have fine : (vmmNewAddressSpace sixPages).1.pmm.exhausted = false := by decide +kernel
  obtain ⟨L, sound⟩ := (newSpace_sound fine).1
  have vacant := newSpace_vacant fine
  rw [root] at sound vacant
  have held : Held sixSpace.pmm 0 := fun _ => by decide +kernel
  have anonymous : hasBits mapAnonymous mapAnonymous = true := by decide
  obtain ⟨ret, unwound, -⟩ := mmap_unwinds_iff (k := 0) sound.owned held rfl anonymous rfl mmap_refused_six
  exact ⟨ret, (unwound ⟨by decide, fun i _ => vacant _⟩).remains⟩

/-- One page more, and a program whose heap starts where the arena does. -/
def sevenPages : Vm :=
  { smallVm with
    pmm := .small 7#6 (fun f => decide (f = 0)) (fun f => if f = 0 then 1 else 0) 6 1 }

def arenaHeap : Process :=
  { Process.zero with pml4 := 1, heapStart := 0x40000000#64, heapEnd := 0x40000000#64, mmapNext := 0x40000000#64 }

def arenaSpace : Vm := (processBrk (vmmNewAddressSpace sevenPages).1 arenaHeap 0x40001000#64).1

/-- The call that fails takes the page of the heap away. -/
theorem failed_mmap_unmaps_heap :
    DataPageRefused arenaSpace arenaHeap 8192#64 protWrite 1 ∧
      (∃ L M, Owned (freeAtStart sevenPages.pmm) (only 1) arenaSpace.mem arenaSpace.pmm L M) ∧
      ¬ MmapUnwound (only 1) arenaSpace arenaHeap protWrite 1
        (processMmap arenaSpace arenaHeap 8192#64 protWrite mapAnonymous (-1)).1
        (processMmap arenaSpace arenaHeap 8192#64 protWrite mapAnonymous (-1)).2.1 := by
  have root : (vmmNewAddressSpace sevenPages).2 = 1 := by decide +kernel
  have fine : (vmmNewAddressSpace sevenPages).1.pmm.exhausted = false := by decide +kernel
  obtain ⟨L, sound⟩ := (newSpace_sound fine).1
  rw [root] at sound
  have refused : DataPageRefused arenaSpace arenaHeap 8192#64 protWrite 1 :=
    ⟨by decide, by decide +kernel, by decide +kernel, by decide +kernel⟩
  have run : arenaSpace = (mapZeroPages 1 0x40000000#64 (pteWrite ||| pteUser) 1 0 (vmmNewAddressSpace sevenPages).1).1 := by
    rw [arenaSpace, processBrk, if_neg (by decide), if_neg (by decide)]
    dsimp only
    rw [if_neg (by decide +kernel)]
    rfl
  have format : (pteWrite ||| pteUser) ||| ptePresent = Kind.rw.flags := by decide
  have fits : (0x40000000#64).toNat + 1 * 4096 ≤ 2 ^ 47 := by decide
  have paid : pagesNeeded (vmmNewAddressSpace sevenPages).1.mem 1 ((List.range 1).map (pageOfRange 0x40000000#64)) ≤
      freeFrames (vmmNewAddressSpace sevenPages).1.pmm := by decide +kernel
  obtain ⟨-, u, M', pages, zeroed, shape, agree⟩ := sound.owned.mapZeroPages
    (k := 0) (n := 1) (j := 1) (fun _ => by decide +kernel) rfl format fits le_rfl paid (.inl rfl)
  rw [← run] at agree
  obtain ⟨L', owned⟩ := zeroed.owned
  have here : Owned (freeAtStart sevenPages.pmm) (only 1) arenaSpace.mem arenaSpace.pmm L' M' := owned.of_agree agree
  refine ⟨refused, ⟨L', M', here⟩, fun meets => ?_⟩
  have held : Held arenaSpace.pmm 0 := fun _ => by decide +kernel
  have anonymous : hasBits mapAnonymous mapAnonymous = true := by decide
  have vacant := (mmap_unwinds_low (k := 0) here held rfl anonymous rfl refused (by decide)).2.mp meets 0 (by decide)
  have first : 0x40000000#64 ∈ pages.map Prod.fst := by
    rw [shape]
    decide
  obtain ⟨x, mem, addr⟩ := List.mem_map.mp first
  have low : lowHalf x.1 = true := by
    rw [addr]
    decide
  have mapped : userLeaf u.mem arenaHeap.pml4 x.1 = some (leafEntry x.2 .rw) := zeroed.userLeaf_page rfl mem low low rfl
  have start : pageOfRange arenaHeap.mmapNext 0 = x.1 := by
    rw [addr]
    decide
  rw [agree.mem, start, mapped] at vacant
  cases vacant

end Isunux
