import Isunux.PageTables

/-! What the walking functions of vmm.c do to a well-formed forest. -/
namespace Isunux

open Radix

theorem index_toNat (v : Word) (s : Nat) : ((v >>> s) &&& 0x1FF#64).toNat = v.toNat / 2 ^ s % 512 := by
  rw [BitVec.toNat_and, BitVec.toNat_ushiftRight, Nat.shiftRight_eq_div_pow]
  exact Nat.and_two_pow_sub_one_eq_mod _ 9

theorem pml4Idx_eq (v : Word) : pml4Idx v = v.toNat / 2 ^ 39 % 512 := index_toNat v 39
theorem pdptIdx_eq (v : Word) : pdptIdx v = v.toNat / 2 ^ 30 % 512 := index_toNat v 30
theorem pdIdx_eq (v : Word) : pdIdx v = v.toNat / 2 ^ 21 % 512 := index_toNat v 21
theorem ptIdx_eq (v : Word) : ptIdx v = v.toNat / 2 ^ 12 % 512 := index_toNat v 12

/-- The path of the page table of `v`. -/
def tablePath (v : Word) : List Nat := [pml4Idx v, pdptIdx v, pdIdx v]

def vpn (v : Word) : Nat := v.toNat / 4096

theorem tablePath_low {v : Word} (low : pml4Idx v < 256) : LowPath (tablePath v ++ [ptIdx v]) := by
  have h₁ := pdptIdx_eq v
  have h₂ := pdIdx_eq v
  have h₃ := ptIdx_eq v
  refine ⟨by simp [tablePath], ?_, by simpa [tablePath] using low⟩
  intro i hi
  simp only [tablePath, List.cons_append, List.nil_append, List.mem_cons, List.not_mem_nil,
    or_false] at hi
  omega

theorem lowHalf_idx {v : Word} (h : lowHalf v = true) : pml4Idx v < 256 := by
  rw [lowHalf, decide_eq_true_eq] at h
  rw [pml4Idx_eq]
  omega

/-- Two low-half addresses share their leaf slot exactly when they share a page. -/
theorem same_slot_iff {v w : Word} (hv : lowHalf v = true) (hw : lowHalf w = true) :
    (tablePath v = tablePath w ∧ ptIdx v = ptIdx w) ↔ vpn v = vpn w := by
  rw [lowHalf, decide_eq_true_eq] at hv hw
  simp only [tablePath, List.cons.injEq, and_true, pml4Idx_eq, pdptIdx_eq, pdIdx_eq, ptIdx_eq, vpn]
  omega

theorem mkVaddr_toNat {i j k l : Nat} (hi : i < 256) (hj : j < 512) (hk : k < 512) (hl : l < 512) :
    (mkVaddr i j k l).toNat = (((i * 512 + j) * 512 + k) * 512 + l) * 4096 := by
  have h₁ : (BitVec.ofNat 64 i <<< 39).toNat = 2 ^ 39 * i := by
    rw [BitVec.toNat_shiftLeft, BitVec.toNat_ofNat, Nat.shiftLeft_eq]; omega
  have h₂ : (BitVec.ofNat 64 j <<< 30).toNat = 2 ^ 30 * j := by
    rw [BitVec.toNat_shiftLeft, BitVec.toNat_ofNat, Nat.shiftLeft_eq]; omega
  have h₃ : (BitVec.ofNat 64 k <<< 21).toNat = 2 ^ 21 * k := by
    rw [BitVec.toNat_shiftLeft, BitVec.toNat_ofNat, Nat.shiftLeft_eq]; omega
  have h₄ : (BitVec.ofNat 64 l <<< 12).toNat = 2 ^ 12 * l := by
    rw [BitVec.toNat_shiftLeft, BitVec.toNat_ofNat, Nat.shiftLeft_eq]; omega
  rw [mkVaddr, BitVec.toNat_or, BitVec.toNat_or, BitVec.toNat_or, h₁, h₂, h₃, h₄,
    ← Nat.two_pow_add_eq_or_of_lt (by omega),
    show 2 ^ 39 * i + 2 ^ 30 * j = 2 ^ 30 * (2 ^ 9 * i + j) by ring,
    ← Nat.two_pow_add_eq_or_of_lt (by omega),
    show 2 ^ 30 * (2 ^ 9 * i + j) + 2 ^ 21 * k = 2 ^ 21 * (2 ^ 9 * (2 ^ 9 * i + j) + k) by ring,
    ← Nat.two_pow_add_eq_or_of_lt (by omega)]
  ring

theorem mkVaddr_path {i j k l : Nat} (hi : i < 256) (hj : j < 512) (hk : k < 512) (hl : l < 512) :
    lowHalf (mkVaddr i j k l) = true ∧ tablePath (mkVaddr i j k l) = [i, j, k] ∧
      ptIdx (mkVaddr i j k l) = l := by
  have h := mkVaddr_toNat hi hj hk hl
  refine ⟨?_, ?_, ?_⟩
  · rw [lowHalf, decide_eq_true_eq, h]; omega
  · simp only [tablePath, List.cons.injEq, and_true, pml4Idx_eq, pdptIdx_eq, pdIdx_eq, h]; omega
  · rw [ptIdx_eq, h]; omega

/-! Failure is permanent. -/

theorem getOrCreateTable_exhausted {s : Vm} {f i : Nat} (h : s.pmm.exhausted = true) :
    (getOrCreateTable s f i).1.pmm.exhausted = true := by
  unfold getOrCreateTable
  split
  · exact h
  · exact pmmAllocPage_exhausted s.pmm h

theorem getOrCreateTable_fine {s : Vm} {f i : Nat}
    (h : (getOrCreateTable s f i).1.pmm.exhausted = false) : s.pmm.exhausted = false := by
  by_contra hs
  rw [getOrCreateTable_exhausted (by simpa using hs)] at h
  cases h

theorem vmmMap4kIn_exhausted {s : Vm} {pml4 : Nat} {v : Word} {g : Nat} {flags : Word}
    (h : s.pmm.exhausted = true) : (vmmMap4kIn s pml4 v g flags).pmm.exhausted = true := by
  unfold vmmMap4kIn
  exact getOrCreateTable_exhausted (getOrCreateTable_exhausted (getOrCreateTable_exhausted h))

section Walks

variable {K : Type*} {roots : K → Option Nat} {scope : Nat → Prop} {s : Vm}
  {L M : Finset (Ref K × Nat)}

/-- The parts of memory a walk must not write: pages behind leaf references and
everything the allocator gave to someone else. -/
structure Spared (scope : Nat → Prop) (M : Finset (Ref K × Nat)) (mem mem' : PhysMem) : Prop where
  pages : ∀ k q h, ((k, q), h) ∈ M → q.length = 4 → mem' h = mem h
  outside : ∀ h, ¬ scope h → mem' h = mem h

theorem Spared.refl (mem : PhysMem) : Spared scope M mem mem := ⟨fun _ _ _ _ _ => rfl, fun _ _ => rfl⟩

theorem Spared.trans {N : Finset (Ref K × Nat)} {mem mem' mem'' : PhysMem}
    (h : Spared scope M mem mem') (sub : M ⊆ N) (h' : Spared scope N mem' mem'') :
    Spared scope M mem mem'' :=
  ⟨fun k q g hg hq => (h'.pages k q g (sub hg) hq).trans (h.pages k q g hg hq),
    fun g hg => (h'.outside g hg).trans (h.outside g hg)⟩

theorem Owned.spared_put (o : Owned scope roots s.mem s.pmm L M) {k : K} {q : List Nat} {f : Nat}
    (low : LowPath q) (short : q.length ≤ 3) (here : at_ roots s.mem k q = some f) (i : Nat)
    (e : Word) : Spared scope M s.mem (put s.mem f i e) := by
  have own := o.mem_of_at low here
  refine ⟨?_, ?_⟩
  · intro k' q' h hm hq
    apply put_table
    rintro rfl
    have := o.accounts.balanced.unique own hm short
    simp only [Prod.mk.injEq] at this
    rw [← this.2] at hq
    omega
  · intro h hs
    apply put_table
    rintro rfl
    exact hs (o.accounts.balanced.within _ own)

variable [DecidableEq K]

/-- `get_or_create_table` below a node: afterwards the child node exists, the leaf
entries are as before. -/
theorem Owned.ensure (o : Owned scope roots s.mem s.pmm L M) {k : K} {q : List Nat} {i f : Nat}
    (low : LowPath (q ++ [i])) (short : q.length ≤ 2) (here : at_ roots s.mem k q = some f)
    (fine : (getOrCreateTable s f i).1.pmm.exhausted = false) :
    ∃ N : Finset (Ref K × Nat),
      Owned scope roots (getOrCreateTable s f i).1.mem (getOrCreateTable s f i).1.pmm (N ∪ L)
          (N ∪ M) ∧
        (∀ e ∈ N, e.1.1 = k ∧ e.1.2.length ≤ 3) ∧
        at_ roots (getOrCreateTable s f i).1.mem k (q ++ [i]) = some (getOrCreateTable s f i).2 ∧
        (∀ k' q' l', LowPath (q' ++ [l']) → q'.length = 3 →
          leafWord roots (getOrCreateTable s f i).1.mem k' q' l' = leafWord roots s.mem k' q' l') ∧
        Spared scope M s.mem (getOrCreateTable s f i).1.mem := by
  unfold getOrCreateTable at fine ⊢
  by_cases present : hasBits (s.mem f i) ptePresent = true
  · simp only [present, if_true]
    refine ⟨∅, by simpa using o, by simp, ?_, by simp, Spared.refl _⟩
    rw [at_snoc, here]
    simp [pteChild, present]
  · simp only [present, if_false, Bool.false_eq_true] at fine ⊢
    have absent : hasBits (s.mem f i) ptePresent = false := by simpa using present
    obtain ⟨o', made, words, same, inScope, clear⟩ := o.newTable low short here absent fine
    have own := o.mem_of_at low.init here
    refine ⟨{((k, q ++ [i]), (pmmAllocPage s.pmm).2)}, by simpa using o', ?_, made, words, ?_, ?_⟩
    · intro e he
      rw [Finset.mem_singleton] at he
      subst he
      simp only [List.length_append, List.length_singleton, true_and]
      omega
    · intro k' q' h hm hq
      apply same
      · rintro rfl
        exact o.accounts.balanced.not_mem_of_unused clear _ hm
      · rintro rfl
        have hu := o.accounts.balanced.unique own hm (show q.length ≤ 3 by omega)
        simp only [Prod.mk.injEq] at hu
        rw [← hu.2] at hq
        omega
    · intro h hs
      apply same
      · rintro rfl; exact hs inScope
      · rintro rfl; exact hs (o.accounts.balanced.within _ own)

/-- `vmm_map_4k_in` of a page that is already accounted for, at an unmapped
address: exactly that leaf entry appears. -/
theorem Owned.map {k : K} {v : Word} {pml4 g : Nat} {flags : Word} {kind : Kind}
    (o : Owned scope roots s.mem s.pmm L (insert ((k, tablePath v ++ [ptIdx v]), g) L))
    (low : pml4Idx v < 256) (root : roots k = some pml4)
    (unmapped : leafWord roots s.mem k (tablePath v) (ptIdx v) = none)
    (format : flags ||| ptePresent = kind.flags)
    (fine : (vmmMap4kIn s pml4 v g flags).pmm.exhausted = false) :
    ∃ L', Owned scope roots (vmmMap4kIn s pml4 v g flags).mem (vmmMap4kIn s pml4 v g flags).pmm L' L' ∧
      (∀ k' q' h, k' ≠ k ∨ q'.length = 4 → (((k', q'), h) ∈ L' ↔
        ((k', q'), h) ∈ insert ((k, tablePath v ++ [ptIdx v]), g) L)) ∧
      leafWord roots (vmmMap4kIn s pml4 v g flags).mem k (tablePath v) (ptIdx v) =
        some (leafEntry g kind) ∧
      (∀ k' q' l', LowPath (q' ++ [l']) → q'.length = 3 →
        ¬ (k' = k ∧ q' = tablePath v ∧ l' = ptIdx v) →
        leafWord roots (vmmMap4kIn s pml4 v g flags).mem k' q' l' = leafWord roots s.mem k' q' l') ∧
      Spared scope (insert ((k, tablePath v ++ [ptIdx v]), g) L) s.mem
        (vmmMap4kIn s pml4 v g flags).mem := by
  have lowLeaf := tablePath_low low
  have low₁ : LowPath ([] ++ [pml4Idx v]) := lowLeaf.of_prefix ⟨_, rfl⟩
  have low₂ : LowPath ([pml4Idx v] ++ [pdptIdx v]) := lowLeaf.of_prefix ⟨_, rfl⟩
  have low₃ : LowPath ([pml4Idx v, pdptIdx v] ++ [pdIdx v]) := lowLeaf.of_prefix ⟨_, rfl⟩
  unfold vmmMap4kIn at fine ⊢
  simp only at fine ⊢
  set a := getOrCreateTable s pml4 (pml4Idx v) with ha
  set b := getOrCreateTable a.1 a.2 (pdptIdx v) with hb
  set c := getOrCreateTable b.1 b.2 (pdIdx v) with hc
  have fineB : b.1.pmm.exhausted = false := getOrCreateTable_fine fine
  have fineA : a.1.pmm.exhausted = false := getOrCreateTable_fine fineB
  have here₀ : at_ roots s.mem k [] = some pml4 := by rw [at_, node_root]; exact root
  obtain ⟨N₁, o₁, tab₁, here₁, words₁, sp₁⟩ := o.ensure low₁ (by simp) here₀ fineA
  obtain ⟨N₂, o₂, tab₂, here₂, words₂, sp₂⟩ := o₁.ensure low₂ (by simp) here₁ fineB
  obtain ⟨N₃, o₃, tab₃, here₃, words₃, sp₃⟩ := o₂.ensure low₃ (by simp) here₂ fine
  rw [← ha] at o₁ here₁ words₁ sp₁
  rw [← hb] at o₂ here₂ words₂ sp₂
  rw [← hc] at o₃ here₃ words₃ sp₃
  have small : g < 2 ^ 52 := o.accounts.small (Finset.mem_insert_self _ _)
  have word : pageAddr g ||| (flags ||| ptePresent) = leafEntry g kind := by rw [format, leafEntry]
  -- the ledger of the memory plus the pending leaf is the ledger of the allocator
  set N := N₃ ∪ (N₂ ∪ N₁) with hN
  have nodeN : ∀ x, x ∈ N₃ ∪ (N₂ ∪ (N₁ ∪ L)) ↔ x ∈ N ∨ x ∈ L := by
    intro x; simp [hN, Finset.mem_union, or_assoc]
  have nodeM : N₃ ∪ (N₂ ∪ (N₁ ∪ insert ((k, tablePath v ++ [ptIdx v]), g) L)) =
      insert ((k, tablePath v ++ [ptIdx v]), g) (N ∪ L) := by
    ext x; simp only [hN, Finset.mem_union, Finset.mem_insert]; tauto
  have tabN : ∀ e ∈ N, e.1.1 = k ∧ e.1.2.length ≤ 3 := by
    intro e he
    simp only [hN, Finset.mem_union] at he
    rcases he with he | he | he
    · exact tab₃ e he
    · exact tab₂ e he
    · exact tab₁ e he
  have wordC : leafWord roots c.1.mem k (tablePath v) (ptIdx v) = none := by
    rw [words₃ k _ _ lowLeaf rfl, words₂ k _ _ lowLeaf rfl, words₁ k _ _ lowLeaf rfl, unmapped]
  have emptyC : ∀ h, ((k, tablePath v ++ [ptIdx v]), h) ∉ N₃ ∪ (N₂ ∪ (N₁ ∪ L)) := by
    intro h hm
    obtain ⟨-, hat⟩ := (o₃.forest.nodes _ _ _).mp hm
    obtain ⟨e, he, -⟩ := at_leaf.mp hat
    rw [wordC] at he
    cases he
  obtain ⟨forest, -, written, words⟩ := o₃.putLeaf lowLeaf rfl here₃ (leafEntry g kind)
    (.inr ⟨g, kind, small, rfl⟩) (insert ((k, tablePath v ++ [ptIdx v]), g) (N ∪ L)) (by
      intro k' q' h
      rw [leafEntry_child small, Finset.mem_insert, Finset.mem_union, ← nodeN]
      by_cases hcase : k' = k ∧ q' = tablePath v ++ [ptIdx v]
      · obtain ⟨rfl, rfl⟩ := hcase
        simp [emptyC h, eq_comm]
      · simp only [Prod.mk.injEq, hcase, false_and, false_or, not_false_eq_true, true_and]
        constructor
        · exact fun h => .inr h
        · rintro (⟨rfl, rfl, -⟩ | h)
          · exact False.elim (hcase ⟨rfl, rfl⟩)
          · exact h)
  have spLast := o₃.spared_put (s := c.1) lowLeaf.init (by simp [tablePath]) here₃ (ptIdx v)
    (leafEntry g kind)
  rw [word]
  refine ⟨insert ((k, tablePath v ++ [ptIdx v]), g) (N ∪ L), ⟨forest, ?_, subset_rfl⟩, ?_, ?_, ?_, ?_⟩
  · rw [← nodeM]; exact o₃.accounts
  · intro k' q' h away
    rw [Finset.mem_insert, Finset.mem_insert, Finset.mem_union]
    constructor
    · rintro (h | h | h)
      · exact .inl h
      · obtain ⟨hk, hq⟩ := tabN _ h
        simp only at hk hq
        rcases away with away | away
        · exact False.elim (away hk)
        · omega
      · exact .inr h
    · rintro (h | h)
      · exact .inl h
      · exact .inr (.inr h)
  · rw [written]; simp
  · intro k' q' l' low' len' hne
    rw [words k' q' l' low' len' hne, words₃ k' q' l' low' len', words₂ k' q' l' low' len',
      words₁ k' q' l' low' len']
  · exact sp₁.trans Finset.subset_union_right (sp₂.trans Finset.subset_union_right
      (sp₃.trans Finset.subset_union_right spLast))

end Walks

end Isunux
