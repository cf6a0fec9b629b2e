import Isunux.Mapping
import Mathlib.Data.Fintype.Card

/-! Pages shared by several address spaces. Two leaf entries name one frame only at
the same address of different spaces, and then neither is writable. Each operation
on one page keeps this and changes at most one page of one space. -/
namespace Isunux

open Radix

/-- A page as the program that maps it sees it. -/
@[ext] structure Page where
  data : Nat → BitVec 8
  writable : Bool

/-- A copy-on-write page counts as writable: the first store makes it so. -/
def pageOf (mem : PhysMem) (e : Word) : Page :=
  ⟨byteAt (mem (pteFrame e)), hasBits e pteWrite || hasBits e pteCow⟩

section Views

variable {K : Type*} {roots : K → Option Nat} {scope : Nat → Prop} {s : Vm}
  {L M : Finset (Ref K × Nat)}

/-- The page a space sees in slot `l` of the page table at `q`. -/
def view (roots : K → Option Nat) (mem : PhysMem) (k : K) (q : List Nat) (l : Nat) : Option Page :=
  (leafWord roots mem k q l).map (pageOf mem)

/-- Leaf entries with one frame sit at one address, and alone if writable. -/
def Shared (roots : K → Option Nat) (mem : PhysMem) : Prop :=
  ∀ k q l e k' q' l' e', LowPath (q ++ [l]) → q.length = 3 → LowPath (q' ++ [l']) →
    q'.length = 3 → leafWord roots mem k q l = some e → leafWord roots mem k' q' l' = some e' →
    pteFrame e = pteFrame e' → q = q' ∧ l = l' ∧ (hasBits e pteWrite = true → k = k')

structure Sound (scope : Nat → Prop) (roots : K → Option Nat) (s : Vm) (L : Finset (Ref K × Nat)) :
    Prop where
  owned : Owned scope roots s.mem s.pmm L L
  shared : Shared roots s.mem

theorem Shared.update {mem mem' : PhysMem} {k : K} {q : List Nat} {l : Nat}
    (h : Shared roots mem)
    (rest : ∀ k' q' l', LowPath (q' ++ [l']) → q'.length = 3 → ¬ (k' = k ∧ q' = q ∧ l' = l) →
      leafWord roots mem' k' q' l' = leafWord roots mem k' q' l')
    (alone : ∀ e, leafWord roots mem' k q l = some e → ∀ k' q' l' e', LowPath (q' ++ [l']) →
      q'.length = 3 → ¬ (k' = k ∧ q' = q ∧ l' = l) → leafWord roots mem k' q' l' = some e' →
      pteFrame e' ≠ pteFrame e) : Shared roots mem' := by
  intro k₁ q₁ l₁ e₁ k₂ q₂ l₂ e₂ low₁ len₁ low₂ len₂ h₁ h₂ same
  by_cases c₁ : k₁ = k ∧ q₁ = q ∧ l₁ = l
  · obtain ⟨rfl, rfl, rfl⟩ := c₁
    by_cases c₂ : k₂ = k₁ ∧ q₂ = q₁ ∧ l₂ = l₁
    · obtain ⟨rfl, rfl, rfl⟩ := c₂
      exact ⟨rfl, rfl, fun _ => rfl⟩
    · rw [rest _ _ _ low₂ len₂ c₂] at h₂
      exact False.elim (alone e₁ h₁ _ _ _ _ low₂ len₂ c₂ h₂ same.symm)
  · rw [rest _ _ _ low₁ len₁ c₁] at h₁
    by_cases c₂ : k₂ = k ∧ q₂ = q ∧ l₂ = l
    · obtain ⟨rfl, rfl, rfl⟩ := c₂
      exact False.elim (alone e₂ h₂ _ _ _ _ low₁ len₁ c₁ h₁ same)
    · rw [rest _ _ _ low₂ len₂ c₂] at h₂
      exact h _ _ _ _ _ _ _ _ low₁ len₁ low₂ len₂ h₁ h₂ same

theorem Shared.weaken {mem mem' : PhysMem} (h : Shared roots mem)
    (old : ∀ k q l e', LowPath (q ++ [l]) → q.length = 3 → leafWord roots mem' k q l = some e' →
      ∃ e, leafWord roots mem k q l = some e ∧ pteFrame e = pteFrame e' ∧
        (hasBits e' pteWrite = true → hasBits e pteWrite = true)) : Shared roots mem' := by
  intro k₁ q₁ l₁ e₁ k₂ q₂ l₂ e₂ low₁ len₁ low₂ len₂ h₁ h₂ same
  obtain ⟨a₁, ha₁, frame₁, write₁⟩ := old _ _ _ _ low₁ len₁ h₁
  obtain ⟨a₂, ha₂, frame₂, -⟩ := old _ _ _ _ low₂ len₂ h₂
  obtain ⟨hq, hl, hk⟩ := h _ _ _ _ _ _ _ _ low₁ len₁ low₂ len₂ ha₁ ha₂
    (frame₁.trans (same.trans frame₂.symm))
  exact ⟨hq, hl, fun hw => hk (write₁ hw)⟩

theorem Shared.dup {mem mem' : PhysMem} {k₀ k : K} {q : List Nat} {l : Nat} {e : Word}
    (h : Shared roots mem) (low : LowPath (q ++ [l])) (len : q.length = 3)
    (here : leafWord roots mem k₀ q l = some e) (closed : hasBits e pteWrite = false)
    (written : leafWord roots mem' k q l = some e)
    (rest : ∀ k' q' l', LowPath (q' ++ [l']) → q'.length = 3 → ¬ (k' = k ∧ q' = q ∧ l' = l) →
      leafWord roots mem' k' q' l' = leafWord roots mem k' q' l') : Shared roots mem' := by
  have sole : ∀ k' q' l' e', LowPath (q' ++ [l']) → q'.length = 3 →
      leafWord roots mem k' q' l' = some e' → pteFrame e' = pteFrame e →
      q' = q ∧ l' = l ∧ hasBits e' pteWrite = false := by
    intro k' q' l' e' low' len' he' same
    obtain ⟨hq, hl, hk⟩ := h _ _ _ _ _ _ _ _ low' len' low len he' here same
    refine ⟨hq, hl, ?_⟩
    by_contra hw
    have hk := hk (by simpa using hw)
    subst hk hq hl
    rw [here] at he'
    cases he'
    exact hw closed
  intro k₁ q₁ l₁ e₁ k₂ q₂ l₂ e₂ low₁ len₁ low₂ len₂ h₁ h₂ same
  by_cases c₁ : k₁ = k ∧ q₁ = q ∧ l₁ = l
  · obtain ⟨rfl, rfl, rfl⟩ := c₁
    rw [written] at h₁
    cases h₁
    by_cases c₂ : k₂ = k₁ ∧ q₂ = q₁ ∧ l₂ = l₁
    · obtain ⟨rfl, rfl, rfl⟩ := c₂
      exact ⟨rfl, rfl, fun _ => rfl⟩
    · rw [rest _ _ _ low₂ len₂ c₂] at h₂
      obtain ⟨hq, hl, -⟩ := sole _ _ _ _ low₂ len₂ h₂ same.symm
      refine ⟨hq.symm, hl.symm, ?_⟩
      rw [closed]
      exact fun hw => by cases hw
  · rw [rest _ _ _ low₁ len₁ c₁] at h₁
    by_cases c₂ : k₂ = k ∧ q₂ = q ∧ l₂ = l
    · obtain ⟨rfl, rfl, rfl⟩ := c₂
      rw [written] at h₂
      cases h₂
      obtain ⟨hq, hl, hw⟩ := sole _ _ _ _ low₁ len₁ h₁ same
      refine ⟨hq, hl, ?_⟩
      rw [hw]
      exact fun hw => by cases hw
    · rw [rest _ _ _ low₂ len₂ c₂] at h₂
      exact h _ _ _ _ _ _ _ _ low₁ len₁ low₂ len₂ h₁ h₂ same

theorem Owned.leaf_mem {mem : PhysMem} {p : Pmm} (o : Owned scope roots mem p L M) {k : K}
    {q : List Nat} {l : Nat} {e : Word} (low : LowPath (q ++ [l]))
    (here : leafWord roots mem k q l = some e) : ((k, q ++ [l]), pteFrame e) ∈ L :=
  (o.forest.nodes _ _ _).mpr ⟨low, at_leaf.mpr ⟨e, here, rfl⟩⟩

theorem snoc_of_length {q : List Nat} (len : q.length = 4) : ∃ r l, q = r ++ [l] ∧ r.length = 3 := by
  have ne : q ≠ [] := by rintro rfl; simp at len
  refine ⟨q.dropLast, q.getLast ne, (List.dropLast_append_getLast ne).symm, ?_⟩
  simp [len]

/-- Every page reference of the ledger is a leaf entry. -/
theorem Owned.leaf_of_mem {mem : PhysMem} {p : Pmm} (o : Owned scope roots mem p L M) {k : K}
    {q : List Nat} {f : Nat} (here : ((k, q), f) ∈ L) (len : q.length = 4) :
    ∃ r l kind, q = r ++ [l] ∧ r.length = 3 ∧ LowPath (r ++ [l]) ∧ f < 2 ^ 52 ∧
      leafWord roots mem k r l = some (leafEntry f kind) := by
  obtain ⟨r, l, rfl, hr⟩ := snoc_of_length len
  obtain ⟨low, hat⟩ := (o.forest.nodes _ _ _).mp here
  obtain ⟨e, he, rfl⟩ := at_leaf.mp hat
  obtain ⟨g, kind, small, rfl⟩ := o.forest.leaves k r l e low hr he
  rw [leafEntry_frame small]
  exact ⟨r, l, kind, rfl, hr, low, small, he⟩

theorem view_congr {mem mem' : PhysMem} {roots' : K → Option Nat} {k : K} {q : List Nat} {l : Nat}
    (words : leafWord roots' mem' k q l = leafWord roots mem k q l)
    (same : ∀ e, leafWord roots mem k q l = some e → mem' (pteFrame e) = mem (pteFrame e)) :
    view roots' mem' k q l = view roots mem k q l := by
  unfold view
  rw [words]
  cases h : leafWord roots mem k q l with
  | none => rfl
  | some e => simp only [Option.map_some, pageOf, same e h]

theorem Sound.held_le [Fintype K] (w : Sound scope roots s L) (f : Nat) :
    Ledger.held L f ≤ max 1 (Fintype.card K) := by
  by_cases table : ∃ r, (r, f) ∈ L ∧ Ref.table r
  · obtain ⟨r, hr, ht⟩ := table
    rw [w.owned.accounts.balanced.single _ hr ht]
    exact Nat.le_max_left _ _
  · refine le_trans ?_ (Nat.le_max_right _ _)
    refine Finset.card_le_card_of_injOn (fun e : Ref K × Nat => e.1.1) (fun _ _ => Finset.mem_univ _) ?_
    rintro ⟨⟨k, q⟩, g⟩ h ⟨⟨k', q'⟩, g'⟩ h' heq
    simp only [Finset.coe_filter, Set.mem_ofPred_eq] at h h'
    obtain ⟨h, rfl⟩ := h
    obtain ⟨h', rfl⟩ := h'
    have leaf : ∀ k q, ((k, q), g') ∈ L → q.length = 4 := by
      intro k q hm
      have := ((w.owned.forest.nodes _ _ _).mp hm).1.1
      have long : ¬ Ref.table (k, q) := fun ht => table ⟨_, hm, ht⟩
      simp only [Ref.table] at long
      omega
    obtain ⟨r, l, kind, rfl, hr, low, small, hw⟩ := w.owned.leaf_of_mem h (leaf _ _ h)
    obtain ⟨r', l', kind', rfl, hr', low', _, hw'⟩ := w.owned.leaf_of_mem h' (leaf _ _ h')
    obtain ⟨rfl, rfl, -⟩ := w.shared _ _ _ _ _ _ _ _ low hr low' hr' hw hw'
      (by rw [leafEntry_frame small, leafEntry_frame small])
    simp only at heq
    rw [heq]

end Views

section Walks

variable {K : Type*} {roots : K → Option Nat} {scope : Nat → Prop} {mem : PhysMem} {p : Pmm}
  {L M : Finset (Ref K × Nat)}

theorem at_three {k : K} {pml4 i j m : Nat} (root : roots k = some pml4) :
    at_ roots mem k [i, j, m] = (pteChild (mem pml4 i)).bind fun pdpt =>
      (pteChild (mem pdpt j)).bind fun pd => pteChild (mem pd m) := by
  simp only [at_, node, root, Option.bind_some, walk]
  cases pteChild (mem pml4 i) with
  | none => rfl
  | some pdpt => cases pteChild (mem pdpt j) <;> simp

theorem Owned.getPte (o : Owned scope roots mem p L M) {k : K} {pml4 : Nat} {v : Word}
    (root : roots k = some pml4) (low : pml4Idx v < 256) :
    vmmGetPte mem pml4 v = (at_ roots mem k (tablePath v)).bind fun pt =>
      if hasBits (mem pt (ptIdx v)) ptePresent then some (pt, ptIdx v) else none := by
  have lowLeaf := tablePath_low low
  have low₃ : LowPath ([pml4Idx v, pdptIdx v] ++ [pdIdx v]) := lowLeaf.of_prefix ⟨_, rfl⟩
  have two : at_ roots mem k [pml4Idx v, pdptIdx v] =
      (pteChild (mem pml4 (pml4Idx v))).bind fun pdpt => pteChild (mem pdpt (pdptIdx v)) := by
    simp only [at_, node, root, Option.bind_some, walk]
    cases pteChild (mem pml4 (pml4Idx v)) <;> simp
  unfold vmmGetPte tablePath
  rw [at_three root]
  cases h₁ : pteChild (mem pml4 (pml4Idx v)) with
  | none => rfl
  | some pdpt =>
    cases h₂ : pteChild (mem pdpt (pdptIdx v)) with
    | none => simp [h₂]
    | some pd =>
      simp only [Option.bind_some, h₂]
      cases h₃ : pteChild (mem pd (pdIdx v)) with
      | none => rfl
      | some pt =>
        rw [h₁, Option.bind_some, h₂] at two
        obtain ⟨g, _, hg⟩ := o.forest.tables k _ _ _ low₃ (by simp) two (pteChild_eq_some.mp h₃).1
        simp [hg]

theorem Owned.getPte_isNone (o : Owned scope roots mem p L M) {k : K} {pml4 : Nat} {v : Word}
    (root : roots k = some pml4) (low : pml4Idx v < 256) :
    (vmmGetPte mem pml4 v).isNone = (leafWord roots mem k (tablePath v) (ptIdx v)).isNone := by
  rw [o.getPte root low, leafWord]
  cases at_ roots mem k (tablePath v) with
  | none => rfl
  | some pt => simp only [Option.bind_some]; split <;> rfl

theorem Owned.userLeaf (o : Owned scope roots mem p L M) {k : K} {pml4 : Nat} {v : Word}
    (root : roots k = some pml4) (low : lowHalf v = true) :
    userLeaf mem pml4 v = leafWord roots mem k (tablePath v) (ptIdx v) := by
  have lowLeaf := tablePath_low (lowHalf_idx low)
  have user : ∀ q i f, LowPath (q ++ [i]) → q.length ≤ 2 → at_ roots mem k q = some f →
      userChild (mem f i) = pteChild (mem f i) ∧
        (hasBits (mem f i) ptePresent = true → hasBits (mem f i) pteHuge = false) := by
    intro q i f hlow short hat
    unfold userChild pteChild
    by_cases hp : hasBits (mem f i) ptePresent = true
    · obtain ⟨g, _, hg⟩ := o.forest.tables k q i f hlow short hat hp
      simp [hg]
    · simp [hp]
  have low₁ : LowPath ([] ++ [pml4Idx v]) := lowLeaf.of_prefix ⟨_, rfl⟩
  have low₂ : LowPath ([pml4Idx v] ++ [pdptIdx v]) := lowLeaf.of_prefix ⟨_, rfl⟩
  have low₃ : LowPath ([pml4Idx v, pdptIdx v] ++ [pdIdx v]) := lowLeaf.of_prefix ⟨_, rfl⟩
  have here₀ : at_ roots mem k [] = some pml4 := by rw [at_, node_root]; exact root
  unfold Isunux.userLeaf leafWord
  simp only [low, if_true]
  rw [(user [] _ _ low₁ (by simp) here₀).1]
  cases h₁ : pteChild (mem pml4 (pml4Idx v)) with
  | none => simp [tablePath, at_three root, h₁]
  | some pdpt =>
    have here₁ : at_ roots mem k [pml4Idx v] = some pdpt := by
      simp [at_, node, root, walk, h₁]
    rw [Option.bind_some, (user _ _ _ low₂ (by simp) here₁).1]
    cases h₂ : pteChild (mem pdpt (pdptIdx v)) with
    | none => simp [tablePath, at_three root, h₁, h₂]
    | some pd =>
      have here₂ : at_ roots mem k [pml4Idx v, pdptIdx v] = some pd := by
        simp [at_, node, root, walk, h₁, h₂]
      rw [Option.bind_some, (user _ _ _ low₃ (by simp) here₂).1]
      cases h₃ : pteChild (mem pd (pdIdx v)) with
      | none => simp [tablePath, at_three root, h₁, h₂, h₃]
      | some pt =>
        have here₃ : at_ roots mem k (tablePath v) = some pt := by
          simp [tablePath, at_three root, h₁, h₂, h₃]
        have small := (user _ _ _ low₃ (by simp) here₂).2 (pteChild_eq_some.mp h₃).1
        rw [here₃, Option.bind_some, Option.bind_some, small]
        by_cases hp : hasBits (mem pt (ptIdx v)) ptePresent = true
        · have hw : leafWord roots mem k (tablePath v) (ptIdx v) = some (mem pt (ptIdx v)) :=
            leafWord_some.mpr ⟨pt, here₃, rfl, hp⟩
          obtain ⟨g, kind, _, hg⟩ := o.forest.leaves k _ _ _ lowLeaf rfl hw
          simp [hg, userChild]
        · simp [hp, userChild]

end Walks

/-- How every caller maps a new page: allocate it, fill it through the HHDM
window, enter it in the tables. -/
def mapFresh (s : Vm) (pml4 : Nat) (v : Word) (contents : Nat → Word) (flags : Word) : Vm :=
  let a := pmmAllocPage s.pmm
  vmmMap4kIn { s with pmm := a.1, mem := Function.update s.mem a.2 contents } pml4 v a.2 flags

section Operations

variable {K : Type*} {roots : K → Option Nat} {scope : Nat → Prop} {s : Vm}
  {L : Finset (Ref K × Nat)}

theorem Sound.put_page (w : Sound scope roots s L) {k : K} {q : List Nat} {f i : Nat} {e : Word}
    (low : LowPath q) (short : q.length ≤ 3) (here : at_ roots s.mem k q = some f) {k' : K}
    {q' : List Nat} {l' : Nat} {e' : Word} (low' : LowPath (q' ++ [l'])) (len' : q'.length = 3)
    (leaf : leafWord roots s.mem k' q' l' = some e') :
    put s.mem f i e (pteFrame e') = s.mem (pteFrame e') :=
  (w.owned.spared_put low short here i e).pages _ _ _ (w.owned.leaf_mem low' leaf) (by simp [len'])

theorem Sound.store (w : Sound scope roots s L) {k : K} {q : List Nat} {l : Nat} {e : Word}
    (low : LowPath (q ++ [l])) (len : q.length = 3) (here : leafWord roots s.mem k q l = some e)
    (writable : hasBits e pteWrite = true) (o : Nat) (b : BitVec 8) :
    let mem' := storeByte s.mem (pteFrame e) o b
    Sound scope roots { s with mem := mem' } L ∧
      view roots mem' k q l = some ⟨Function.update (pageOf s.mem e).data o b, true⟩ ∧
      ∀ k' q' l', LowPath (q' ++ [l']) → q'.length = 3 → ¬ (k' = k ∧ q' = q ∧ l' = l) →
        view roots mem' k' q' l' = view roots s.mem k' q' l' := by
  intro mem'
  have own := w.owned.leaf_mem low here
  obtain ⟨forest, nodes, words⟩ := w.owned.forest.frame mem' (by
    intro k' q' f low' short hat
    apply storeByte_other
    rintro rfl
    have := (w.owned.unique low' short hat low (at_leaf.mpr ⟨e, here, rfl⟩)).2
    rw [← this] at short
    simp [len] at short)
  refine ⟨⟨⟨forest, w.owned.accounts, subset_rfl⟩, ?_⟩, ?_, ?_⟩
  · intro k₁ q₁ l₁ e₁ k₂ q₂ l₂ e₂ low₁ len₁ low₂ len₂ h₁ h₂
    rw [words _ _ _ low₁] at h₁
    rw [words _ _ _ low₂] at h₂
    exact w.shared _ _ _ _ _ _ _ _ low₁ len₁ low₂ len₂ h₁ h₂
  · unfold view
    rw [words _ _ _ low, here]
    simp only [Option.map_some, pageOf, writable, Bool.true_or, Option.some.injEq, Page.mk.injEq,
      and_true]
    funext o'
    rw [byteAt_storeByte, Function.update_apply]
  · intro k' q' l' low' len' hne
    refine view_congr (words _ _ _ low') ?_
    intro e' he'
    apply storeByte_other
    intro same
    obtain ⟨rfl, rfl, hk⟩ := w.shared _ _ _ _ _ _ _ _ low len low' len' here he' same.symm
    exact hne ⟨(hk writable).symm, rfl, rfl⟩

variable [DecidableEq K]

theorem Sound.mapFresh (w : Sound scope roots s L) {k : K} {pml4 : Nat} {v : Word}
    {contents : Nat → Word} {flags : Word} {kind : Kind} (low : pml4Idx v < 256)
    (root : roots k = some pml4) (unmapped : leafWord roots s.mem k (tablePath v) (ptIdx v) = none)
    (format : flags ||| ptePresent = kind.flags)
    (fine : (mapFresh s pml4 v contents flags).pmm.exhausted = false) :
    ∃ L', Sound scope roots (mapFresh s pml4 v contents flags) L' ∧
      view roots (mapFresh s pml4 v contents flags).mem k (tablePath v) (ptIdx v) =
        some ⟨byteAt contents, decide (kind ≠ .ro)⟩ ∧
      ∀ k' q' l', LowPath (q' ++ [l']) → q'.length = 3 →
        ¬ (k' = k ∧ q' = tablePath v ∧ l' = ptIdx v) →
        view roots (mapFresh s pml4 v contents flags).mem k' q' l' = view roots s.mem k' q' l' := by
  have lowLeaf := tablePath_low low
  unfold Isunux.mapFresh at fine ⊢
  simp only at fine ⊢
  set g := (pmmAllocPage s.pmm).2 with hg
  set mem₁ := Function.update s.mem g contents with hmem₁
  have fineA : (pmmAllocPage s.pmm).1.exhausted = false := by
    by_contra h
    rw [vmmMap4kIn_exhausted (by simpa using h)] at fine
    cases fine
  obtain ⟨accounts, inScope, clear⟩ := w.owned.accounts.alloc (k, tablePath v ++ [ptIdx v]) fineA
  have notG : ∀ k' q' f, LowPath q' → at_ roots s.mem k' q' = some f → f ≠ g := by
    rintro k' q' f low' hat rfl
    exact w.owned.not_at_of_free clear low' hat
  have leafNotG : ∀ {k' q' l' e'}, LowPath (q' ++ [l']) → leafWord roots s.mem k' q' l' = some e' →
      pteFrame e' ≠ g := fun low' h => notG _ _ _ low' (at_leaf.mpr ⟨_, h, rfl⟩)
  obtain ⟨forest, nodes, words⟩ := w.owned.forest.frame mem₁ (by
    intro k' q' f low' _ hat
    simp [hmem₁, notG k' q' f low' hat])
  have o₁ : Owned scope roots mem₁ (pmmAllocPage s.pmm).1 L
      (insert ((k, tablePath v ++ [ptIdx v]), g) L) :=
    ⟨forest, accounts, Finset.subset_insert _ _⟩
  obtain ⟨L', o', refs, written, rest, sp⟩ := Owned.map
    (s := { s with pmm := (pmmAllocPage s.pmm).1, mem := mem₁ }) o₁ low root
    (by rw [words _ _ _ lowLeaf]; exact unmapped) format fine
  have small : g < 2 ^ 52 := accounts.small (Finset.mem_insert_self _ _)
  have frameG : pteFrame (leafEntry g kind) = g := leafEntry_frame small kind
  have restOld : ∀ k' q' l', LowPath (q' ++ [l']) → q'.length = 3 →
      ¬ (k' = k ∧ q' = tablePath v ∧ l' = ptIdx v) → _ = leafWord roots s.mem k' q' l' :=
    fun k' q' l' low' len' hne => (rest k' q' l' low' len' hne).trans (words _ _ _ low')
  refine ⟨L', ⟨o', ?_⟩, ?_, ?_⟩
  · refine w.shared.update restOld ?_
    intro e he k' q' l' e' low' len' _ he'
    rw [written] at he
    cases he
    rw [frameG]
    exact leafNotG low' he'
  · have page : (vmmMap4kIn { s with pmm := (pmmAllocPage s.pmm).1, mem := mem₁ } pml4 v g flags).mem
        g = contents := by
      rw [sp.pages _ _ _ (Finset.mem_insert_self _ _) (by simp [tablePath])]
      simp [hmem₁]
    unfold view
    rw [written]
    simp only [Option.map_some, pageOf, frameG, page, leafEntry_write, leafEntry_cow,
      Option.some.injEq, Page.mk.injEq, true_and]
    cases kind <;> rfl
  · intro k' q' l' low' len' hne
    refine view_congr (restOld k' q' l' low' len' hne) ?_
    intro e he
    rw [sp.pages _ _ _ (Finset.mem_insert_of_mem (w.owned.leaf_mem low' he)) (by simp [len'])]
    simp [hmem₁, leafNotG low' he]

theorem Owned.clearSlot {mem : PhysMem} {p : Pmm} {M : Finset (Ref K × Nat)} (o : Owned scope roots mem p L M)
    {k : K} {q : List Nat} {l f : Nat} {e : Word} (low : LowPath (q ++ [l])) (len : q.length = 3)
    (table : at_ roots mem k q = some f) (here : leafWord roots mem k q l = some e) :
    Forest roots (put mem f l 0#64) (L.erase ((k, q ++ [l]), pteFrame e)) ∧
      (∀ k' q', LowPath q' → q'.length ≤ 3 → at_ roots (put mem f l 0#64) k' q' = at_ roots mem k' q') ∧
      leafWord roots (put mem f l 0#64) k q l = none ∧
      ∀ k' q' l', LowPath (q' ++ [l']) → q'.length = 3 → ¬ (k' = k ∧ q' = q ∧ l' = l) →
        leafWord roots (put mem f l 0#64) k' q' l' = leafWord roots mem k' q' l' := by
  obtain ⟨forest, nodes, written, rest⟩ := o.putLeaf low len table 0#64 (.inl rfl)
    (L.erase ((k, q ++ [l]), pteFrame e)) (by
      intro k' q' g
      rw [Finset.mem_erase, pteChild_absent]
      by_cases hc : k' = k ∧ q' = q ++ [l]
      · obtain ⟨rfl, rfl⟩ := hc
        have only : ((k', q ++ [l]), g) ∈ L → g = pteFrame e := by
          intro hm
          obtain ⟨e', he', rfl⟩ := at_leaf.mp ((o.forest.nodes _ _ _).mp hm).2
          rw [here] at he'
          cases he'
          rfl
        simp only [and_self, not_true, false_and, or_false, reduceCtorEq, and_false, ne_eq,
          Prod.mk.injEq, true_and, iff_false, not_and]
        exact fun hne hm => hne (only hm)
      · simp only [Prod.mk.injEq, hc, false_and, not_false_eq_true, true_and, ne_eq, reduceCtorEq,
          and_false, false_or])
  refine ⟨forest, nodes, ?_, rest⟩
  rw [written]
  rfl

theorem Owned.unmap {mem : PhysMem} {p : Pmm} {M : Finset (Ref K × Nat)} (o : Owned scope roots mem p L M)
    {k : K} {q : List Nat} {l f : Nat} {e : Word} (low : LowPath (q ++ [l])) (len : q.length = 3)
    (table : at_ roots mem k q = some f) (here : leafWord roots mem k q l = some e) :
    Owned scope roots (put mem f l 0#64) (pmmFreePage p (pteFrame e)) (L.erase ((k, q ++ [l]), pteFrame e))
      (M.erase ((k, q ++ [l]), pteFrame e)) :=
  ⟨(o.clearSlot low len table here).1, o.accounts.free (o.sub (o.leaf_mem low here)), Finset.erase_subset_erase _ o.sub⟩

omit [DecidableEq K] in
theorem Shared.cleared {mem mem' : PhysMem} (h : Shared roots mem) {k : K} {q : List Nat} {l : Nat}
    (gone : leafWord roots mem' k q l = none)
    (rest : ∀ k' q' l', LowPath (q' ++ [l']) → q'.length = 3 → ¬ (k' = k ∧ q' = q ∧ l' = l) →
      leafWord roots mem' k' q' l' = leafWord roots mem k' q' l') : Shared roots mem' := by
  refine h.update rest fun e' he' => ?_
  rw [gone] at he'
  cases he'

theorem Sound.unmap (w : Sound scope roots s L) {k : K} {q : List Nat} {l f : Nat} {e : Word}
    (low : LowPath (q ++ [l])) (len : q.length = 3) (table : at_ roots s.mem k q = some f)
    (here : leafWord roots s.mem k q l = some e) :
    let s' : Vm := { s with pmm := pmmFreePage s.pmm (pteFrame e), mem := put s.mem f l 0#64 }
    Sound scope roots s' (L.erase ((k, q ++ [l]), pteFrame e)) ∧
      view roots s'.mem k q l = none ∧
      ∀ k' q' l', LowPath (q' ++ [l']) → q'.length = 3 → ¬ (k' = k ∧ q' = q ∧ l' = l) →
        view roots s'.mem k' q' l' = view roots s.mem k' q' l' := by
  intro s'
  obtain ⟨-, -, gone, rest⟩ := w.owned.clearSlot low len table here
  refine ⟨⟨w.owned.unmap low len table here, w.shared.cleared gone rest⟩, ?_, ?_⟩
  · rw [view, gone]; rfl
  · intro k' q' l' low' len' hne
    exact view_congr (rest k' q' l' low' len' hne) fun e' he' =>
      w.put_page low.init (by omega) table low' len' he'

theorem Sound.rekind (w : Sound scope roots s L) {k : K} {q : List Nat} {l f g : Nat}
    {kind : Kind} (kind' : Kind) (low : LowPath (q ++ [l])) (len : q.length = 3)
    (table : at_ roots s.mem k q = some f)
    (here : leafWord roots s.mem k q l = some (leafEntry g kind)) (small : g < 2 ^ 52) :
    Forest roots (put s.mem f l (leafEntry g kind')) L ∧
      (∀ k' q', LowPath q' → q'.length ≤ 3 →
        at_ roots (put s.mem f l (leafEntry g kind')) k' q' = at_ roots s.mem k' q') ∧
      leafWord roots (put s.mem f l (leafEntry g kind')) k q l = some (leafEntry g kind') ∧
      ∀ k' q' l', LowPath (q' ++ [l']) → q'.length = 3 → ¬ (k' = k ∧ q' = q ∧ l' = l) →
        leafWord roots (put s.mem f l (leafEntry g kind')) k' q' l' =
          leafWord roots s.mem k' q' l' := by
  have own := w.owned.leaf_mem low here
  rw [leafEntry_frame small] at own
  obtain ⟨forest, inner, written, rest⟩ := w.owned.putLeaf low len table (leafEntry g kind')
    (.inr ⟨g, kind', small, rfl⟩) L (by
      intro k' q' h
      rw [leafEntry_child small]
      by_cases hc : k' = k ∧ q' = q ++ [l]
      · obtain ⟨rfl, rfl⟩ := hc
        simp only [true_and, and_self, not_true, false_and, or_false, Option.some.injEq]
        constructor
        · intro hm
          obtain ⟨e', he', rfl⟩ := at_leaf.mp ((w.owned.forest.nodes _ _ _).mp hm).2
          rw [here] at he'
          cases he'
          exact (leafEntry_frame small _).symm
        · rintro rfl; exact own
      · simp only [hc, not_false_eq_true, true_and]
        constructor
        · exact fun hm => .inr hm
        · rintro (⟨rfl, rfl, -⟩ | hm)
          · exact False.elim (hc ⟨rfl, rfl⟩)
          · exact hm)
  refine ⟨forest, inner, ?_, rest⟩
  rw [written]
  simp

theorem Sound.reclaim (w : Sound scope roots s L) {k : K} {q : List Nat} {l f g : Nat}
    (low : LowPath (q ++ [l])) (len : q.length = 3) (table : at_ roots s.mem k q = some f)
    (here : leafWord roots s.mem k q l = some (leafEntry g .cow)) (small : g < 2 ^ 52)
    (last : Ledger.held L g ≤ 1) :
    Sound scope roots { s with mem := put s.mem f l (leafEntry g .rw) } L ∧
      leafWord roots (put s.mem f l (leafEntry g .rw)) k q l = some (leafEntry g .rw) ∧
      ∀ k' q' l', LowPath (q' ++ [l']) → q'.length = 3 →
        view roots (put s.mem f l (leafEntry g .rw)) k' q' l' = view roots s.mem k' q' l' := by
  have own := w.owned.leaf_mem low here
  rw [leafEntry_frame small] at own
  obtain ⟨forest, -, now, rest⟩ := w.rekind .rw low len table here small
  have page : ∀ k' q' l' e', LowPath (q' ++ [l']) → q'.length = 3 →
      leafWord roots s.mem k' q' l' = some e' →
      put s.mem f l (leafEntry g .rw) (pteFrame e') = s.mem (pteFrame e') :=
    fun k' q' l' e' low' len' he' => w.put_page low.init (by omega) table low' len' he'
  refine ⟨⟨⟨forest, w.owned.accounts, subset_rfl⟩, ?_⟩, now, ?_⟩
  · refine w.shared.update rest ?_
    intro e he k' q' l' e' low' len' hne he' same
    rw [now] at he
    cases he
    rw [leafEntry_frame small] at same
    have own' := w.owned.leaf_mem low' he'
    rw [same] at own'
    have one : Ledger.held L g = 1 := by
      have := Ledger.held_pos.mpr ⟨_, own⟩
      omega
    obtain ⟨hk, hq⟩ := Prod.mk.inj (Ledger.eq_of_held_one one own' own)
    obtain ⟨hq, hl⟩ := List.append_inj hq (by omega)
    exact hne ⟨hk, hq, by simpa using hl⟩
  · intro k' q' l' low' len'
    by_cases hc : k' = k ∧ q' = q ∧ l' = l
    · obtain ⟨rfl, rfl, rfl⟩ := hc
      have hp := page _ _ _ _ low' len' here
      rw [leafEntry_frame small] at hp
      unfold view
      rw [now, here]
      simp [pageOf, leafEntry_frame small, hp]
    · exact view_congr (rest k' q' l' low' len' hc) fun e' he' => page _ _ _ _ low' len' he'

theorem Sound.copy (w : Sound scope roots s L) {k : K} {q : List Nat} {l f g : Nat}
    (low : LowPath (q ++ [l])) (len : q.length = 3) (table : at_ roots s.mem k q = some f)
    (here : leafWord roots s.mem k q l = some (leafEntry g .cow)) (small : g < 2 ^ 52)
    (fine : (pmmAllocPage s.pmm).1.exhausted = false) :
    let h := (pmmAllocPage s.pmm).2
    let s' : Vm := { s with
      pmm := pmmFreePage (pmmAllocPage s.pmm).1 g
      mem := put (copyFrame s.mem h g) f l (leafEntry h .rw) }
    ∃ L', Sound scope roots s' L' ∧ h < 2 ^ 52 ∧
      leafWord roots s'.mem k q l = some (leafEntry h .rw) ∧
      ∀ k' q' l', LowPath (q' ++ [l']) → q'.length = 3 →
        view roots s'.mem k' q' l' = view roots s.mem k' q' l' := by
  intro h s'
  have own := w.owned.leaf_mem low here
  rw [leafEntry_frame small] at own
  obtain ⟨accounts, inScope, clear⟩ := w.owned.accounts.alloc (k, q ++ [l]) fine
  have notH : ∀ k' q' x, LowPath q' → at_ roots s.mem k' q' = some x → x ≠ h := by
    rintro k' q' x low' hat rfl
    exact w.owned.not_at_of_free clear low' hat
  have leafNotH : ∀ {k' q' l' e'}, LowPath (q' ++ [l']) → leafWord roots s.mem k' q' l' = some e' →
      pteFrame e' ≠ h := fun low' he => notH _ _ _ low' (at_leaf.mpr ⟨_, he, rfl⟩)
  have smallH : h < 2 ^ 52 := accounts.small (Finset.mem_insert_self _ _)
  have hgh : g ≠ h := by
    have := leafNotH low here
    rwa [leafEntry_frame small] at this
  obtain ⟨forest₁, nodes₁, words₁⟩ := w.owned.forest.frame (copyFrame s.mem h g) (by
    intro k' q' x low' _ hat
    simp [copyFrame, notH k' q' x low' hat])
  have o₁ : Owned scope roots (copyFrame s.mem h g) (pmmAllocPage s.pmm).1 L
      (insert ((k, q ++ [l]), h) L) := ⟨forest₁, accounts, Finset.subset_insert _ _⟩
  have table₁ : at_ roots (copyFrame s.mem h g) k q = some f := by
    rw [nodes₁ _ _ low.init]; exact table
  obtain ⟨forest, -, written, rest⟩ := o₁.putLeaf low len table₁ (leafEntry h .rw)
    (.inr ⟨h, .rw, smallH, rfl⟩) ((insert ((k, q ++ [l]), h) L).erase ((k, q ++ [l]), g)) (by
      intro k' q' x
      rw [Finset.mem_erase, Finset.mem_insert, leafEntry_child smallH]
      by_cases hc : k' = k ∧ q' = q ++ [l]
      · obtain ⟨rfl, rfl⟩ := hc
        have only : ((k', q ++ [l]), x) ∈ L → x = g := by
          intro hm
          obtain ⟨e', he', rfl⟩ := at_leaf.mp ((w.owned.forest.nodes _ _ _).mp hm).2
          rw [here] at he'
          cases he'
          exact leafEntry_frame small _
        simp only [ne_eq, Prod.mk.injEq, true_and, and_self, Option.some.injEq, not_true, false_and,
          or_false]
        constructor
        · rintro ⟨hx, rfl | hm⟩
          · rfl
          · exact False.elim (hx (only hm))
        · rintro rfl; exact ⟨Ne.symm hgh, .inl rfl⟩
      · simp only [ne_eq, Prod.mk.injEq, hc, false_and, not_false_eq_true, true_and, false_or]
        constructor
        · exact fun hm => .inr hm
        · rintro (⟨rfl, rfl, -⟩ | hm)
          · exact False.elim (hc ⟨rfl, rfl⟩)
          · exact hm)
  have now : leafWord roots s'.mem k q l = some (leafEntry h .rw) := by rw [written]; simp
  have restOld : ∀ k' q' l', LowPath (q' ++ [l']) → q'.length = 3 → ¬ (k' = k ∧ q' = q ∧ l' = l) →
      leafWord roots s'.mem k' q' l' = leafWord roots s.mem k' q' l' :=
    fun k' q' l' low' len' hne => (rest k' q' l' low' len' hne).trans (words₁ _ _ _ low')
  have spared := o₁.spared_put (s := { s with pmm := (pmmAllocPage s.pmm).1, mem := copyFrame s.mem h g })
    low.init (by omega) table₁ l (leafEntry h .rw)
  have pageH : s'.mem h = s.mem g := by
    rw [show s'.mem h = copyFrame s.mem h g h from
      spared.pages _ _ _ (Finset.mem_insert_self _ _) (by simp [len])]
    simp [copyFrame]
  refine ⟨_, ⟨⟨forest, accounts.free (Finset.mem_insert_of_mem own), subset_rfl⟩, ?_⟩, smallH, now, ?_⟩
  · refine w.shared.update restOld ?_
    intro e he k' q' l' e' low' len' _ he'
    rw [now] at he
    cases he
    rw [leafEntry_frame smallH]
    exact leafNotH low' he'
  · intro k' q' l' low' len'
    by_cases hc : k' = k ∧ q' = q ∧ l' = l
    · obtain ⟨rfl, rfl, rfl⟩ := hc
      unfold view
      rw [now, here]
      simp [pageOf, leafEntry_frame small, leafEntry_frame smallH, pageH]
    · refine view_congr (restOld k' q' l' low' len' hc) ?_
      intro e' he'
      rw [show s'.mem (pteFrame e') = copyFrame s.mem h g (pteFrame e') from
        spared.pages _ _ _ (Finset.mem_insert_of_mem (w.owned.leaf_mem low' he')) (by simp [len'])]
      simp [copyFrame, leafNotH low' he']

/-- What `try_handle_cow_fault` does on a store to a mapped page: it succeeds
exactly on copy-on-write entries, and then the entry is writable and every page
looks as before. -/
theorem Sound.cowFault (w : Sound scope roots s L) {k : K} {pml4 : Nat} {v err : Word} {e : Word}
    (root : roots k = some pml4) (low : pml4Idx v < 256)
    (here : leafWord roots s.mem k (tablePath v) (ptIdx v) = some e)
    (present : hasBits err pfErrPresent = true) (store : hasBits err pfErrWrite = true)
    (fine : (tryHandleCowFault s (some pml4) v err).1.pmm.exhausted = false) :
    (tryHandleCowFault s (some pml4) v err).2 = hasBits e pteCow ∧
      ((tryHandleCowFault s (some pml4) v err).2 = false →
        (tryHandleCowFault s (some pml4) v err).1 = s) ∧
      ∃ L', Sound scope roots (tryHandleCowFault s (some pml4) v err).1 L' ∧
        (hasBits e pteCow = true → ∃ e',
          leafWord roots (tryHandleCowFault s (some pml4) v err).1.mem k (tablePath v) (ptIdx v) =
            some e' ∧ hasBits e' pteWrite = true) ∧
        ∀ k' q' l', LowPath (q' ++ [l']) → q'.length = 3 →
          view roots (tryHandleCowFault s (some pml4) v err).1.mem k' q' l' =
            view roots s.mem k' q' l' := by
  have lowLeaf := tablePath_low low
  obtain ⟨f, table, word, there⟩ := leafWord_some.mp here
  have found : vmmGetPte s.mem pml4 v = some (f, ptIdx v) := by
    rw [w.owned.getPte root low, table]
    simp [word, there]
  obtain ⟨g, kind, small, rfl⟩ := w.owned.forest.leaves _ _ _ _ lowLeaf rfl here
  have own := w.owned.leaf_mem lowLeaf here
  rw [leafEntry_frame small] at own
  have count := w.owned.accounts.refcount own
  unfold tryHandleCowFault at fine ⊢
  simp only [present, store, Bool.not_true, Bool.or_self, Bool.false_eq_true, if_false, found, word,
    leafEntry_cow, leafEntry_frame small] at fine ⊢
  by_cases cow : kind = .cow
  · subst cow
    simp only [decide_true, Bool.not_true, Bool.false_eq_true, if_false] at fine ⊢
    by_cases last : pmmPageRefcount s.pmm g ≤ 1
    · simp only [last, if_true] at fine ⊢
      have few : Ledger.held L g ≤ 1 := by
        rw [← count]
        simpa using UInt8.le_iff_toNat_le.mp last
      obtain ⟨w', now, same⟩ := w.reclaim lowLeaf rfl table here small few
      exact ⟨trivial, by simp, L, w', fun _ => ⟨_, now, by simp⟩, same⟩
    · simp only [last, if_false] at fine ⊢
      by_cases none : (pmmAllocPage s.pmm).2 = 0
      · simp only [none, if_true] at fine
        obtain ⟨_, _, nonzero, _⟩ := pmmAllocPage_spec s.pmm fine
        exact False.elim (nonzero none)
      · simp only [none, if_false, pmmFreePage_exhausted] at fine ⊢
        obtain ⟨L', w', smallH, now, same⟩ := w.copy lowLeaf rfl table here small fine
        exact ⟨trivial, by simp, L', w', fun _ => ⟨_, now, by simp⟩, same⟩
  · simp only [cow, decide_false, Bool.not_false, if_true] at fine ⊢
    exact ⟨trivial, fun _ => trivial, L, w, by simp, by simp⟩

/-- A store as a program understands it: it needs a writable page. -/
def storeView (x : Option Page) (o : Nat) (b : BitVec 8) : Option Page × Bool :=
  match x with
  | some p =>
    if p.writable then (some { p with data := Function.update p.data o b }, true) else (some p, false)
  | none => (none, false)

theorem userWrite_unmapped {pml4 : Nat} {v : Word} (b : BitVec 8)
    (absent : userLeaf s.mem pml4 v = none) : userWrite s pml4 v b = (s, false) := by
  simp [userWrite, userStore, absent, tryHandleCowFault, pfErrPresent, pfErrWrite, hasBits]

/-- A store that traps is retried after the fault was handled; the program sees a
store to its own page. -/
theorem Sound.userWrite (w : Sound scope roots s L) {k : K} {pml4 : Nat} {v : Word} (b : BitVec 8)
    (root : roots k = some pml4) (low : lowHalf v = true)
    (fine : (userWrite s pml4 v b).1.pmm.exhausted = false) :
    (userWrite s pml4 v b).2 =
        (storeView (view roots s.mem k (tablePath v) (ptIdx v)) (pageOffset v) b).2 ∧
      ∃ L', Sound scope roots (userWrite s pml4 v b).1 L' ∧
        view roots (userWrite s pml4 v b).1.mem k (tablePath v) (ptIdx v) =
          (storeView (view roots s.mem k (tablePath v) (ptIdx v)) (pageOffset v) b).1 ∧
        ∀ k' q' l', LowPath (q' ++ [l']) → q'.length = 3 →
          ¬ (k' = k ∧ q' = tablePath v ∧ l' = ptIdx v) →
          view roots (userWrite s pml4 v b).1.mem k' q' l' = view roots s.mem k' q' l' := by
  have lowIdx := lowHalf_idx low
  have lowLeaf := tablePath_low lowIdx
  have leaf := w.owned.userLeaf root low
  cases here : leafWord roots s.mem k (tablePath v) (ptIdx v) with
  | none =>
    rw [here] at leaf
    rw [userWrite_unmapped b leaf]
    simp only [view, here, Option.map_none, storeView, true_and]
    exact ⟨L, w, by simp⟩
  | some e =>
    rw [here] at leaf
    obtain ⟨g, kind, small, rfl⟩ := w.owned.forest.leaves _ _ _ _ lowLeaf rfl here
    have seen : view roots s.mem k (tablePath v) (ptIdx v) = some (pageOf s.mem (leafEntry g kind)) := by
      rw [view, here]; rfl
    rw [seen]
    unfold Isunux.userWrite at fine ⊢
    by_cases direct : kind = .rw
    · -- the store does not trap
      subst direct
      obtain ⟨w', stored, others⟩ := w.store lowLeaf rfl here (by simp) (pageOffset v) b
      simp only [userStore, leaf, Option.bind_some, leafEntry_write, decide_true, if_true]
      simp only [storeView, pageOf, leafEntry_write, decide_true, Bool.true_or, if_true, true_and]
      refine ⟨L, w', ?_, others⟩
      rw [stored]
      simp [pageOf]
    · have traps : userStore s pml4 v b = none := by
        simp [userStore, leaf, direct]
      simp only [traps, leaf, Option.isSome_some, if_true] at fine ⊢
      set err := pfErrPresent ||| pfErrWrite ||| 4#64 with herr
      have fineF : (tryHandleCowFault s (some pml4) v err).1.pmm.exhausted = false := by
        revert fine
        split
        · split
          · rename_i t ht
            intro fine
            obtain ⟨e', _, he'⟩ := Option.bind_eq_some_iff.mp ht
            split at he'
            · cases he'; exact fine
            · cases he'
          · exact id
        · exact id
      obtain ⟨done, idle, L', w', now, same⟩ := w.cowFault root lowIdx here
        (show hasBits err pfErrPresent = true by decide) (by decide) fineF
      rw [leafEntry_cow] at done now
      by_cases cow : kind = .cow
      · subst cow
        obtain ⟨e', now, writable⟩ := now (by simp)
        obtain ⟨w'', stored, others⟩ := w'.store lowLeaf rfl now writable (pageOffset v) b
        have old : pageOf (tryHandleCowFault s (some pml4) v err).1.mem e' =
            pageOf s.mem (leafEntry g .cow) := by
          have := same k _ _ lowLeaf rfl
          rw [seen, view, now] at this
          exact Option.some.inj this
        simp only [decide_true] at done
        have retry : userStore (tryHandleCowFault s (some pml4) v err).1 pml4 v b =
            some { (tryHandleCowFault s (some pml4) v err).1 with
              mem := storeByte (tryHandleCowFault s (some pml4) v err).1.mem (pteFrame e')
                (pageOffset v) b } := by
          simp [userStore, w'.owned.userLeaf root low, now, writable]
        simp only [done, if_true, retry]
        have may : (pageOf s.mem (leafEntry g .cow)).writable = true := by simp [pageOf]
        simp only [storeView, may, if_true, true_and]
        refine ⟨L', w'', ?_, ?_⟩
        · rw [stored, old]
        · intro k' q' l' low' len' hne
          rw [others k' q' l' low' len' hne, same k' q' l' low' len']
      · simp only [cow, decide_false] at done
        simp only [done, Bool.false_eq_true, if_false, idle done]
        have may : (pageOf s.mem (leafEntry g kind)).writable = false := by
          simp [pageOf, direct, cow]
        simp only [storeView, may, Bool.false_eq_true, if_false, true_and]
        exact ⟨L, w, seen, by simp⟩

end Operations

end Isunux
