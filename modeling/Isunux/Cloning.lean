import Isunux.Sharing

/-! New address spaces and `vmm_clone_lower_half`. A clone walks the source
tables in order of address; the assertion between two rounds says which leaf
paths are done. -/
namespace Isunux

open Radix

section NewSpace

variable {K : Type*} [DecidableEq K] {roots : K → Option Nat} {scope : Nat → Prop} {s : Vm}
  {L : Finset (Ref K × Nat)}

theorem vmmNewAddressSpace_low (s : Vm) {i : Nat} (low : i < 256) :
    (vmmNewAddressSpace s).1.mem (vmmNewAddressSpace s).2 i = 0#64 := by
  have h : ¬ (256 ≤ i ∧ i < 512) := by omega
  simp [vmmNewAddressSpace, zeroFrame, h]

theorem vmmNewAddressSpace_other (s : Vm) {f : Nat} (h : f ≠ (pmmAllocPage s.pmm).2) :
    (vmmNewAddressSpace s).1.mem f = s.mem f := by
  simp [vmmNewAddressSpace, zeroFrame, h]

/-- A fresh page with an empty low half becomes the root of a space: it maps
nothing, the others keep their pages. -/
theorem Sound.addRoot (w : Sound scope roots s L) {k : K} {g : Nat} {s' : Vm}
    (vacant : roots k = none) (accounts : Accounts Ref.table scope s'.pmm (insert ((k, []), g) L))
    (clear : s.pmm.bitmap g = false) (zero : ∀ i, i < 256 → s'.mem g i = 0#64)
    (same : ∀ f, f ≠ g → s'.mem f = s.mem f) :
    Sound scope (Function.update roots k (some g)) s' (insert ((k, []), g) L) ∧
      (∀ q l, LowPath (q ++ [l]) → q.length = 3 →
        leafWord (Function.update roots k (some g)) s'.mem k q l = none) ∧
      (∀ k' q' l', k' ≠ k → LowPath (q' ++ [l']) →
        leafWord (Function.update roots k (some g)) s'.mem k' q' l' = leafWord roots s.mem k' q' l') ∧
      (∀ k' q', k' ≠ k → LowPath q' →
        at_ (Function.update roots k (some g)) s'.mem k' q' = at_ roots s.mem k' q') ∧
      ∀ k' q' h, ((k', q'), h) ∈ L → s'.mem h = s.mem h := by
  have notG : ∀ k' q' f, LowPath q' → at_ roots s.mem k' q' = some f → f ≠ g := by
    rintro k' q' f low' hat rfl
    exact w.owned.not_at_of_free clear low' hat
  obtain ⟨forest, nodes, words⟩ := w.owned.forest.frame s'.mem
    fun k' q' f low' _ hat => same f (notG k' q' f low' hat)
  have away : ∀ k' q', k' ≠ k → at_ (Function.update roots k (some g)) s'.mem k' q' = at_ roots s'.mem k' q' := by
    intro k' q' hk
    simp [at_, node, hk]
  have empty : ∀ i q, i < 256 → at_ (Function.update roots k (some g)) s'.mem k (i :: q) = none := by
    intro i q hi
    simp only [at_, node, Function.update_self, Option.bind_some, walk]
    rw [zero i hi, pteChild_absent]
    rfl
  have noneOld : ∀ q, at_ roots s'.mem k q = none := by
    intro q
    simp [at_, node, vacant]
  have rootNew : at_ (Function.update roots k (some g)) s'.mem k [] = some g := by simp [at_, node]
  have wordsAway : ∀ k' q' l', k' ≠ k → LowPath (q' ++ [l']) →
      leafWord (Function.update roots k (some g)) s'.mem k' q' l' = leafWord roots s.mem k' q' l' := by
    intro k' q' l' hk low'
    rw [← words k' q' l' low', leafWord, leafWord, away k' q' hk]
  have wordsNew : ∀ q l, LowPath (q ++ [l]) → q.length = 3 → leafWord (Function.update roots k (some g)) s'.mem k q l = none := by
    intro q l low len
    cases q with
    | nil => simp at len
    | cons i q =>
      have hi : i < 256 := low.2.2 i (by simp)
      rw [leafWord, empty i q hi]
      rfl
  refine ⟨⟨⟨⟨?_, ?_, ?_⟩, accounts, subset_rfl⟩, ?_⟩, wordsNew, wordsAway, ?_, ?_⟩
  · intro k' q f
    rw [Finset.mem_insert]
    by_cases hk : k' = k
    · subst hk
      have old : ((k', q), f) ∉ L := by
        intro hm
        have := ((forest.nodes _ _ _).mp hm).2
        rw [noneOld] at this
        cases this
      cases q with
      | nil => simp [old, rootNew, LowPath.nil, eq_comm]
      | cons i q =>
        simp only [Prod.mk.injEq, true_and, reduceCtorEq, false_and, old, or_self, false_iff,
          not_and]
        intro low h
        rw [empty i q (low.2.2 i (by simp))] at h
        cases h
    · rw [away k' q hk, forest.nodes]
      simp [hk]
  · intro k' q i f low short h hp
    by_cases hk : k' = k
    · subst hk
      cases q with
      | nil =>
        rw [rootNew] at h
        cases h
        have hi : i < 256 := low.2.2 i (by simp)
        rw [zero i hi] at hp
        cases hp
      | cons j q =>
        rw [empty j q (low.2.2 j (by simp))] at h
        cases h
    · rw [away k' q hk] at h
      exact forest.tables k' q i f low short h hp
  · intro k' q l e low len h
    by_cases hk : k' = k
    · subst hk
      rw [wordsNew q l low len] at h
      cases h
    · rw [wordsAway k' q l hk low] at h
      exact w.owned.forest.leaves k' q l e low len h
  · intro k₁ q₁ l₁ e₁ k₂ q₂ l₂ e₂ low₁ len₁ low₂ len₂ h₁ h₂
    have hk₁ : k₁ ≠ k := by
      rintro rfl
      rw [wordsNew _ _ low₁ len₁] at h₁
      cases h₁
    have hk₂ : k₂ ≠ k := by
      rintro rfl
      rw [wordsNew _ _ low₂ len₂] at h₂
      cases h₂
    rw [wordsAway _ _ _ hk₁ low₁] at h₁
    rw [wordsAway _ _ _ hk₂ low₂] at h₂
    exact w.shared _ _ _ _ _ _ _ _ low₁ len₁ low₂ len₂ h₁ h₂
  · intro k' q' hk low'
    rw [away k' q' hk, nodes k' q' low']
  · intro k' q' h hm
    obtain ⟨low', hat⟩ := (w.owned.forest.nodes _ _ _).mp hm
    exact same h (notG _ _ _ low' hat)

theorem Sound.newSpace (w : Sound scope roots s L) {k : K} (vacant : roots k = none)
    (fine : (vmmNewAddressSpace s).1.pmm.exhausted = false) :
    Sound scope (Function.update roots k (some (vmmNewAddressSpace s).2)) (vmmNewAddressSpace s).1
        (insert ((k, []), (vmmNewAddressSpace s).2) L) ∧
      (∀ q l, LowPath (q ++ [l]) → q.length = 3 →
        leafWord (Function.update roots k (some (vmmNewAddressSpace s).2))
          (vmmNewAddressSpace s).1.mem k q l = none) ∧
      (∀ k' q' l', k' ≠ k → LowPath (q' ++ [l']) →
        leafWord (Function.update roots k (some (vmmNewAddressSpace s).2))
          (vmmNewAddressSpace s).1.mem k' q' l' = leafWord roots s.mem k' q' l') ∧
      (∀ k' q', k' ≠ k → LowPath q' →
        at_ (Function.update roots k (some (vmmNewAddressSpace s).2))
          (vmmNewAddressSpace s).1.mem k' q' = at_ roots s.mem k' q') ∧
      ∀ k' q' h, ((k', q'), h) ∈ L → (vmmNewAddressSpace s).1.mem h = s.mem h := by
  obtain ⟨accounts, -, clear⟩ := w.owned.accounts.alloc (k, []) fine
  exact w.addRoot vacant accounts clear (fun _ => vmmNewAddressSpace_low s)
    fun _ => vmmNewAddressSpace_other s

end NewSpace

/-- What becomes of a leaf entry, in both spaces, when it is cloned. -/
def forkedWord (e : Word) : Word := if hasBits e pteWrite then leafEntry (pteFrame e) .cow else e

def Kind.forked : Kind → Kind
  | .rw => .cow
  | k => k

theorem forkedWord_leaf {g : Nat} (small : g < 2 ^ 52) (kind : Kind) :
    forkedWord (leafEntry g kind) = leafEntry g kind.forked := by
  cases kind <;> simp [forkedWord, Kind.forked, leafEntry_frame small]

theorem pageOf_forked {g : Nat} (small : g < 2 ^ 52) (kind : Kind) (mem : PhysMem) :
    pageOf mem (forkedWord (leafEntry g kind)) = pageOf mem (leafEntry g kind) := by
  rw [forkedWord_leaf small]
  cases kind <;> simp [pageOf, leafEntry_frame small, Kind.forked]

theorem cloneLeaf_exhausted {d i j m pt l : Nat} {t : Vm} (h : t.pmm.exhausted = true) :
    (cloneLeaf d i j m pt t l).pmm.exhausted = true := by
  unfold cloneLeaf
  simp only
  split
  · refine vmmMap4kIn_exhausted ?_
    rw [pmmPageRef_exhausted]
    split <;> exact h
  · exact h

theorem foldl_exhausted {body : Vm → Nat → Vm} {xs : List Nat} {t : Vm}
    (keeps : ∀ t i, t.pmm.exhausted = true → (body t i).pmm.exhausted = true)
    (h : t.pmm.exhausted = true) : (xs.foldl body t).pmm.exhausted = true :=
  Run.foldl_rule (fun t => t.pmm.exhausted = true) body xs t h fun i _ t ht => keeps t i ht

theorem clonePd_exhausted {d i j pd : Nat} (t : Vm) (m : Nat) (h : t.pmm.exhausted = true) :
    (clonePd d i j pd t m).pmm.exhausted = true := by
  unfold clonePd
  split
  · split
    · exact h
    · exact foldl_exhausted (fun _ _ => cloneLeaf_exhausted) h
  · exact h

theorem clonePdpt_exhausted {d i pdpt : Nat} (t : Vm) (j : Nat) (h : t.pmm.exhausted = true) :
    (clonePdpt d i pdpt t j).pmm.exhausted = true := by
  unfold clonePdpt
  split
  · exact foldl_exhausted clonePd_exhausted h
  · exact h

theorem clonePml4_exhausted {d r : Nat} (t : Vm) (i : Nat) (h : t.pmm.exhausted = true) :
    (clonePml4 d r t i).pmm.exhausted = true := by
  unfold clonePml4
  split
  · exact foldl_exhausted clonePdpt_exhausted h
  · exact h

theorem vmmCloneLowerHalf_exhausted {s : Vm} {d r : Nat} (h : s.pmm.exhausted = true) :
    (vmmCloneLowerHalf s d r).pmm.exhausted = true :=
  foldl_exhausted clonePml4_exhausted h

section Clone

variable {K : Type*} {roots : K → Option Nat} {scope : Nat → Prop}

/-- The state between two rounds of the clone of `src` into `dest`. -/
structure Cloned (scope : Nat → Prop) (roots : K → Option Nat) (src dest : K) (s₀ t : Vm)
    (done : List Nat → Prop) : Prop where
  sound : ∃ L, Sound scope roots t L
  srcDone : ∀ q l, LowPath (q ++ [l]) → q.length = 3 → done (q ++ [l]) →
    leafWord roots t.mem src q l = (leafWord roots s₀.mem src q l).map forkedWord
  srcTodo : ∀ q l, LowPath (q ++ [l]) → q.length = 3 → ¬ done (q ++ [l]) →
    leafWord roots t.mem src q l = leafWord roots s₀.mem src q l
  destDone : ∀ q l, LowPath (q ++ [l]) → q.length = 3 → done (q ++ [l]) →
    leafWord roots t.mem dest q l = (leafWord roots s₀.mem src q l).map forkedWord
  destTodo : ∀ q l, LowPath (q ++ [l]) → q.length = 3 → ¬ done (q ++ [l]) →
    leafWord roots t.mem dest q l = none
  others : ∀ k q l, k ≠ src → k ≠ dest → LowPath (q ++ [l]) → q.length = 3 →
    leafWord roots t.mem k q l = leafWord roots s₀.mem k q l
  tables : ∀ q, LowPath q → q.length ≤ 3 → at_ roots t.mem src q = at_ roots s₀.mem src q
  pages : ∀ k q l e, k ≠ dest → LowPath (q ++ [l]) → q.length = 3 →
    leafWord roots s₀.mem k q l = some e → t.mem (pteFrame e) = s₀.mem (pteFrame e)

theorem Cloned.grow {src dest : K} {s₀ t : Vm} {D D' : List Nat → Prop}
    (c : Cloned scope roots src dest s₀ t D)
    (agree : ∀ q l, LowPath (q ++ [l]) → q.length = 3 →
      leafWord roots s₀.mem src q l = none ∨ (D (q ++ [l]) ↔ D' (q ++ [l]))) :
    Cloned scope roots src dest s₀ t D' := by
  have same : ∀ q l, LowPath (q ++ [l]) → q.length = 3 → leafWord roots s₀.mem src q l = none →
      leafWord roots t.mem src q l = none ∧ leafWord roots t.mem dest q l = none := by
    intro q l low len h
    by_cases hD : D (q ++ [l])
    · rw [c.srcDone q l low len hD, c.destDone q l low len hD, h]
      exact ⟨rfl, rfl⟩
    · rw [c.srcTodo q l low len hD, c.destTodo q l low len hD, h]
      exact ⟨rfl, rfl⟩
  refine ⟨c.sound, ?_, ?_, ?_, ?_, c.others, c.tables, c.pages⟩
  · intro q l low len h
    rcases agree q l low len with hn | iff
    · rw [(same q l low len hn).1, hn]; rfl
    · exact c.srcDone q l low len (iff.mpr h)
  · intro q l low len h
    rcases agree q l low len with hn | iff
    · rw [(same q l low len hn).1, hn]
    · exact c.srcTodo q l low len fun hD => h (iff.mp hD)
  · intro q l low len h
    rcases agree q l low len with hn | iff
    · rw [(same q l low len hn).2, hn]; rfl
    · exact c.destDone q l low len (iff.mpr h)
  · intro q l low len h
    rcases agree q l low len with hn | iff
    · exact (same q l low len hn).2
    · exact c.destTodo q l low len fun hD => h (iff.mp hD)

theorem pteFrame_lt (e : Word) : pteFrame e < 2 ^ 52 := by
  rw [pteFrame_eq]
  have := e.isLt
  omega

theorem Cloned.still {src dest : K} {s₀ t : Vm} {D : List Nat → Prop}
    (c : Cloned scope roots src dest s₀ t D) (k : K) (q : List Nat) (l : Nat) (e : Word)
    (away : k ≠ dest) (low : LowPath (q ++ [l])) (len : q.length = 3)
    (h : leafWord roots s₀.mem k q l = some e) :
    ∃ e', leafWord roots t.mem k q l = some e' ∧ pteFrame e' = pteFrame e := by
  by_cases hk : k = src
  · subst hk
    by_cases hD : D (q ++ [l])
    · refine ⟨forkedWord e, by rw [c.srcDone q l low len hD, h]; rfl, ?_⟩
      unfold forkedWord
      split
      · exact leafEntry_frame (pteFrame_lt e) _
      · rfl
    · exact ⟨e, by rw [c.srcTodo q l low len hD, h], rfl⟩
  · exact ⟨e, by rw [c.others k q l hk away low len, h], rfl⟩

variable {src dest : K} {s₀ : Vm}

/-- A piece of the clone that handles exactly the leaf paths below `q`. -/
def Clones (scope : Nat → Prop) (roots : K → Option Nat) (src dest : K) (s₀ : Vm) (f : Vm → Vm)
    (q : List Nat) : Prop :=
  ∀ t D, (∀ p, q <+: p → ¬ D p) → Cloned scope roots src dest s₀ t D →
    (f t).pmm.exhausted = false → Cloned scope roots src dest s₀ (f t) fun p => D p ∨ q <+: p

theorem clones_fold {body : Vm → Nat → Vm} {q : List Nat} {n : Nat}
    (keeps : ∀ t i, t.pmm.exhausted = true → (body t i).pmm.exhausted = true)
    (step : ∀ i, i < n → Clones scope roots src dest s₀ (fun t => body t i) (q ++ [i]))
    (cover : ∀ p, LowPath p → p.length = 4 → q <+: p → ∃ i, i < n ∧ q ++ [i] <+: p) :
    Clones scope roots src dest s₀ (fun t => (List.range n).foldl body t) q := by
  intro t D fresh c fine
  have loop := Run.range_rule
    (fun i u => u.pmm.exhausted = true ∨
      Cloned scope roots src dest s₀ u fun p => D p ∨ ∃ i', i' < i ∧ q ++ [i'] <+: p)
    body n t (.inr (c.grow (fun q l _ _ => .inr (by simp)))) (by
      intro i hi u hu
      rcases hu with bad | cu
      · exact .inl (keeps u i bad)
      by_cases bad : (body u i).pmm.exhausted = true
      · exact .inl bad
      right
      refine (step i hi u _ ?_ cu (by simpa using bad)).grow ?_
      · rintro p hp (hD | ⟨i', hi', hp'⟩)
        · exact fresh p ((List.prefix_append q [i]).trans hp) hD
        · have := snoc_prefix_inj hp hp'
          omega
      · intro q' l' _ _
        right
        constructor
        · rintro ((hD | ⟨i', hi', hp⟩) | hp)
          · exact .inl hD
          · exact .inr ⟨i', by omega, hp⟩
          · exact .inr ⟨i, by omega, hp⟩
        · rintro (hD | ⟨i', hi', hp⟩)
          · exact .inl (.inl hD)
          · by_cases hlast : i' = i
            · subst hlast; exact .inr hp
            · exact .inl (.inr ⟨i', by omega, hp⟩))
  rcases loop with bad | cn
  · rw [bad] at fine
    cases fine
  · refine cn.grow ?_
    intro q' l' low' len'
    right
    constructor
    · rintro (hD | ⟨i', _, hp⟩)
      · exact .inl hD
      · exact .inr ((List.prefix_append q [i']).trans hp)
    · rintro (hD | hp)
      · exact .inl hD
      · exact .inr (cover _ low' (by simp [len']) hp)

theorem clones_slot (inner : Nat → Vm → Vm) {q : List Nat} {f i : Nat} (low : LowPath (q ++ [i]))
    (short : q.length ≤ 2) (table : at_ roots s₀.mem src q = some f)
    (below : ∀ g, at_ roots s₀.mem src (q ++ [i]) = some g →
      Clones scope roots src dest s₀ (inner g) (q ++ [i])) :
    Clones scope roots src dest s₀
      (fun t => if hasBits (t.mem f i) ptePresent then
        if q.length = 2 ∧ hasBits (t.mem f i) pteHuge then t else inner (pteFrame (t.mem f i)) t
        else t) (q ++ [i]) := by
  intro t D fresh c fine
  have tableT : at_ roots t.mem src q = some f := by
    rw [c.tables q low.init (by omega)]; exact table
  have child : at_ roots s₀.mem src (q ++ [i]) = pteChild (t.mem f i) := by
    have hl : (q ++ [i]).length ≤ 3 := by simp; omega
    rw [← c.tables (q ++ [i]) low hl, at_snoc, tableT, Option.bind_some]
  by_cases present : hasBits (t.mem f i) ptePresent = true
  · obtain ⟨L, w⟩ := c.sound
    obtain ⟨g, small, word⟩ := w.owned.forest.tables _ _ _ _ low short tableT present
    simp only [word, tableEntry_present, if_true, tableEntry_huge, Bool.false_eq_true, and_false,
      if_false, tableEntry_frame small] at fine ⊢
    rw [word, tableEntry_child small] at child
    exact below g child t D fresh c fine
  · simp only [present, Bool.false_eq_true, if_false] at fine ⊢
    rw [pteChild, if_neg present] at child
    refine c.grow ?_
    intro q' l' low' len'
    by_cases hp : q ++ [i] <+: q' ++ [l']
    · left
      have hq : q ++ [i] <+: q' :=
        List.prefix_of_prefix_length_le hp (List.prefix_append q' [l']) (by simp; omega)
      obtain ⟨r, rfl⟩ := hq
      rw [leafWord, at_append, child]
      rfl
    · right
      exact ⟨fun h => .inl h, fun h => h.resolve_right hp⟩

variable [DecidableEq K] {srcRoot destRoot : Nat}

theorem Sound.downgrade {s : Vm} {L : Finset (Ref K × Nat)} (w : Sound scope roots s L) {k : K}
    {q : List Nat} {l f g : Nat} (low : LowPath (q ++ [l])) (len : q.length = 3)
    (table : at_ roots s.mem k q = some f)
    (here : leafWord roots s.mem k q l = some (leafEntry g .rw)) (small : g < 2 ^ 52) :
    Sound scope roots { s with mem := put s.mem f l (leafEntry g .cow) } L := by
  obtain ⟨forest, -, now, rest⟩ := w.rekind .cow low len table here small
  refine ⟨⟨forest, w.owned.accounts, subset_rfl⟩, w.shared.weaken ?_⟩
  intro k' q' l' e' low' len' he'
  by_cases hc : k' = k ∧ q' = q ∧ l' = l
  · obtain ⟨rfl, rfl, rfl⟩ := hc
    simp only at he'
    rw [now] at he'
    cases he'
    exact ⟨_, here, by rw [leafEntry_frame small, leafEntry_frame small], by simp⟩
  · rw [rest k' q' l' low' len' hc] at he'
    exact ⟨e', he', rfl, id⟩

variable [Fintype K]

theorem Sound.share {s : Vm} {L : Finset (Ref K × Nat)} (w : Sound scope roots s L)
    (few : Fintype.card K < 255) {q : List Nat} {l g : Nat} {kind : Kind} (low : LowPath (q ++ [l]))
    (len : q.length = 3) (here : leafWord roots s.mem src q l = some (leafEntry g kind))
    (small : g < 2 ^ 52) (absent : leafWord roots s.mem dest q l = none) :
    Owned scope roots s.mem (pmmPageRef s.pmm g) L (insert ((dest, q ++ [l]), g) L) := by
  have own := w.owned.leaf_mem low here
  rw [leafEntry_frame small] at own
  refine ⟨w.owned.forest, w.owned.accounts.share own ?_ ?_ ?_ ?_, Finset.subset_insert _ _⟩
  · intro hm
    obtain ⟨e, he, -⟩ := at_leaf.mp ((w.owned.forest.nodes _ _ _).mp hm).2
    rw [absent] at he
    cases he
  · simp [Ref.table, len]
  · intro r hr table
    have heq := w.owned.accounts.balanced.unique hr own table
    rw [heq] at table
    simp [Ref.table, len] at table
  · have := w.held_le g
    omega

theorem Cloned.leaf {t : Vm} {D : List Nat → Prop} (few : Fintype.card K < 255) (apart : src ≠ dest)
    (root : roots dest = some destRoot) (c : Cloned scope roots src dest s₀ t D) {i j m l pt : Nat}
    (low : LowPath ([i, j, m] ++ [l])) (todo : ¬ D ([i, j, m] ++ [l]))
    (table : at_ roots s₀.mem src [i, j, m] = some pt)
    (fine : (cloneLeaf destRoot i j m pt t l).pmm.exhausted = false) :
    Cloned scope roots src dest s₀ (cloneLeaf destRoot i j m pt t l)
      (fun p => D p ∨ p = [i, j, m] ++ [l]) := by
  have tableT : at_ roots t.mem src [i, j, m] = some pt := by
    rw [c.tables _ low.init (by simp)]; exact table
  have oldWord := c.srcTodo _ _ low rfl todo
  by_cases present : hasBits (t.mem pt l) ptePresent = true
  swap
  · -- nothing mapped here
    have idle : cloneLeaf destRoot i j m pt t l = t := by simp [cloneLeaf, present]
    rw [idle]
    refine c.grow ?_
    intro q' l' low' len'
    by_cases hc : q' ++ [l'] = [i, j, m] ++ [l]
    · obtain ⟨rfl, hl⟩ := List.append_inj hc (by simp [len'])
      cases hl
      left
      rw [← oldWord, leafWord, tableT]
      simp [present]
    · right
      exact ⟨fun h => .inl h, fun h => h.resolve_right hc⟩
  obtain ⟨L, w⟩ := c.sound
  have here : leafWord roots t.mem src [i, j, m] l = some (t.mem pt l) :=
    leafWord_some.mpr ⟨pt, tableT, rfl, present⟩
  obtain ⟨g, kind, small, word⟩ := w.owned.forest.leaves _ _ _ _ low rfl here
  rw [word] at here
  have absent := c.destTodo _ _ low rfl todo
  -- the state after the write-protection of the source entry
  set t₁ : Vm := { t with mem := if kind = .rw then put t.mem pt l (leafEntry g .cow) else t.mem }
    with ht₁
  obtain ⟨w₁, here₁, rest₁, inner₁⟩ : Sound scope roots t₁ L ∧
      leafWord roots t₁.mem src [i, j, m] l = some (leafEntry g kind.forked) ∧
      (∀ k' q' l', LowPath (q' ++ [l']) → q'.length = 3 →
        ¬ (k' = src ∧ q' = [i, j, m] ∧ l' = l) →
        leafWord roots t₁.mem k' q' l' = leafWord roots t.mem k' q' l') ∧
      ∀ k' q', LowPath q' → q'.length ≤ 3 → at_ roots t₁.mem k' q' = at_ roots t.mem k' q' := by
    by_cases hk : kind = .rw
    · subst hk
      obtain ⟨-, inner, now, rest⟩ := w.rekind .cow low rfl tableT here small
      simp only [ht₁, if_true]
      exact ⟨w.downgrade low rfl tableT here small, now, rest, inner⟩
    · have hf : kind.forked = kind := by cases kind <;> simp_all [Kind.forked]
      simp only [ht₁, hk, if_false, hf]
      exact ⟨w, here, by simp, by simp⟩
  have absent₁ : leafWord roots t₁.mem dest [i, j, m] l = none := by
    rw [rest₁ dest _ _ low rfl (fun h => apart h.1.symm)]; exact absent
  have o₁ := w₁.share few low rfl here₁ small absent₁
  obtain ⟨lowV, pathV, slotV⟩ := mkVaddr_path (low.2.2 i (by simp)) (low.2.1 j (by simp))
    (low.2.1 m (by simp)) (low.2.1 l (by simp))
  set flags : Word := if kind = .rw then (Kind.rw.flags &&& ~~~ pteWrite) ||| pteCow else kind.flags
    with hflags
  have format : flags ||| ptePresent = kind.forked.flags := by
    cases kind <;> decide
  have body : cloneLeaf destRoot i j m pt t l =
      vmmMap4kIn { t₁ with pmm := pmmPageRef t₁.pmm g } destRoot (mkVaddr i j m l) g flags := by
    unfold cloneLeaf
    simp only [present, if_true]
    rw [word, leafEntry_flags small, leafEntry_frame small]
    cases kind with
    | ro => rfl
    | cow => rfl
    | rw => rfl
  rw [body] at fine ⊢
  set t₂ := vmmMap4kIn { t₁ with pmm := pmmPageRef t₁.pmm g } destRoot (mkVaddr i j m l) g flags
  obtain ⟨L', o', refs, written, rest, sp⟩ := Owned.map (k := dest) (v := mkVaddr i j m l)
    (s := { t₁ with pmm := pmmPageRef t₁.pmm g }) (by rw [pathV, slotV]; exact o₁)
    (lowHalf_idx lowV) root (by rw [pathV, slotV]; exact absent₁) format fine
  rw [pathV, slotV] at written sp
  simp only [pathV, slotV] at rest refs
  have w' : Sound scope roots t₂ L' :=
    ⟨o', w₁.shared.dup low rfl here₁ (by cases kind <;> simp [Kind.forked]) written rest⟩
  have slot : ∀ {q' : List Nat} {l' : Nat}, q'.length = 3 → q' ++ [l'] = [i, j, m] ++ [l] →
      q' = [i, j, m] ∧ l' = l := by
    intro q' l' len' h
    obtain ⟨hq, hl⟩ := List.append_inj h (by simp [len'])
    exact ⟨hq, by simpa using hl⟩
  have oldSrc : leafWord roots s₀.mem src [i, j, m] l = some (leafEntry g kind) := by
    rw [← oldWord]; exact here
  have newSrc : leafWord roots t₂.mem src [i, j, m] l = some (leafEntry g kind.forked) := by
    rw [rest _ _ _ low rfl (fun h => apart h.1)]; exact here₁
  have elsewhere : ∀ k' q' l', LowPath (q' ++ [l']) → q'.length = 3 →
      ¬ q' ++ [l'] = [i, j, m] ++ [l] →
      leafWord roots t₂.mem k' q' l' = leafWord roots t.mem k' q' l' := by
    intro k' q' l' low' len' hne
    rw [rest k' q' l' low' len' (fun h => hne (by rw [h.2.1, h.2.2])),
      rest₁ k' q' l' low' len' (fun h => hne (by rw [h.2.1, h.2.2]))]
  refine ⟨⟨L', w'⟩, ?_, ?_, ?_, ?_, ?_, ?_, ?_⟩
  · intro q' l' low' len' hD
    by_cases hc : q' ++ [l'] = [i, j, m] ++ [l]
    · obtain ⟨rfl, rfl⟩ := slot len' hc
      rw [newSrc, oldSrc, Option.map_some, forkedWord_leaf small]
    · rw [elsewhere _ _ _ low' len' hc]
      exact c.srcDone q' l' low' len' (hD.resolve_right hc)
  · intro q' l' low' len' hD
    rw [elsewhere _ _ _ low' len' (fun h => hD (.inr h))]
    exact c.srcTodo q' l' low' len' fun h => hD (.inl h)
  · intro q' l' low' len' hD
    by_cases hc : q' ++ [l'] = [i, j, m] ++ [l]
    · obtain ⟨rfl, rfl⟩ := slot len' hc
      rw [written, oldSrc, Option.map_some, forkedWord_leaf small]
    · rw [elsewhere _ _ _ low' len' hc]
      exact c.destDone q' l' low' len' (hD.resolve_right hc)
  · intro q' l' low' len' hD
    rw [elsewhere _ _ _ low' len' (fun h => hD (.inr h))]
    exact c.destTodo q' l' low' len' fun h => hD (.inl h)
  · intro k' q' l' hs hd low' len'
    rw [rest k' q' l' low' len' (fun h => hd h.1), rest₁ k' q' l' low' len' (fun h => hs h.1)]
    exact c.others k' q' l' hs hd low' len'
  · intro q' low' short
    rw [← c.tables q' low' short, ← inner₁ src q' low' short]
    ext f
    have ledger := refs src q' f (.inl apart)
    rw [Finset.mem_insert, w'.owned.forest.nodes, w₁.owned.forest.nodes] at ledger
    simpa [low', apart] using ledger
  · intro k' q' l' e hd low' len' he
    obtain ⟨e', he', same⟩ := c.still k' q' l' e hd low' len' he
    rw [← c.pages k' q' l' e hd low' len' he, ← same]
    have own := w.owned.leaf_mem low' he'
    rw [sp.pages _ _ _ (Finset.mem_insert_of_mem own) (by simp [len'])]
    by_cases hk : kind = .rw
    · simp only [ht₁, hk, if_true]
      exact w.put_page low.init (by simp) tableT low' len' he'
    · simp only [ht₁, hk, if_false]

theorem Sound.clone {s : Vm} {L : Finset (Ref K × Nat)} (w : Sound scope roots s L)
    (few : Fintype.card K < 255) (apart : src ≠ dest) (rootSrc : roots src = some srcRoot)
    (rootDest : roots dest = some destRoot)
    (empty : ∀ q l, LowPath (q ++ [l]) → q.length = 3 → leafWord roots s.mem dest q l = none)
    (fine : (vmmCloneLowerHalf s destRoot srcRoot).pmm.exhausted = false) :
    Cloned scope roots src dest s (vmmCloneLowerHalf s destRoot srcRoot) fun _ => True := by
  have start : Cloned scope roots src dest s s fun _ => False :=
    ⟨⟨L, w⟩, fun _ _ _ _ h => h.elim, fun _ _ _ _ _ => rfl, fun _ _ _ _ h => h.elim,
      fun q l low len _ => empty q l low len, fun _ _ _ _ _ _ _ => rfl, fun _ _ _ => rfl,
      fun _ _ _ _ _ _ _ _ => rfl⟩
  have leaf : ∀ i j m pt, LowPath [i, j, m] → at_ roots s.mem src [i, j, m] = some pt →
      Clones scope roots src dest s
        (fun t => (List.range 512).foldl (cloneLeaf destRoot i j m pt) t) [i, j, m] := by
    intro i j m pt low hat
    refine clones_fold (fun _ _ => cloneLeaf_exhausted) ?_ ?_
    · intro l hl t D fresh c fine
      have low' : LowPath ([i, j, m] ++ [l]) := low.extend (by simp) (by simp) hl
      refine (c.leaf few apart rootDest low' (fresh _ (List.prefix_refl _)) hat fine).grow ?_
      intro q' l' _ len'
      right
      have same : q' ++ [l'] = [i, j, m] ++ [l] ↔ [i, j, m] ++ [l] <+: q' ++ [l'] :=
        ⟨fun h => h ▸ List.prefix_refl _, fun h => (h.eq_of_length (by simp [len'])).symm⟩
      rw [same]
    · intro p lowP len hp
      exact prefix_next hp (by simp [len]) fun _ => lowP.slot
  have pd : ∀ i j f, LowPath [i, j] → at_ roots s.mem src [i, j] = some f →
      Clones scope roots src dest s
        (fun t => (List.range 512).foldl (clonePd destRoot i j f) t) [i, j] := by
    intro i j f low hat
    refine clones_fold clonePd_exhausted ?_ ?_
    · intro m hm
      have low' : LowPath ([i, j] ++ [m]) := low.extend (by simp) (by simp) hm
      have slot := clones_slot (fun g t => (List.range 512).foldl
        (cloneLeaf destRoot i j m g) t) low' (by simp) hat fun g hg => leaf i j m g low' hg
      simpa [clonePd] using slot
    · intro p lowP len hp
      exact prefix_next hp (by simp [len]) fun _ => lowP.slot
  have pdpt : ∀ i f, LowPath [i] → at_ roots s.mem src [i] = some f →
      Clones scope roots src dest s
        (fun t => (List.range 512).foldl (clonePdpt destRoot i f) t) [i] := by
    intro i f low hat
    refine clones_fold clonePdpt_exhausted ?_ ?_
    · intro j hj
      have low' : LowPath ([i] ++ [j]) := low.extend (by simp) (by simp) hj
      have slot := clones_slot (fun g t => (List.range 512).foldl
        (clonePd destRoot i j g) t) low' (by simp) hat fun g hg => pd i j g low' hg
      simpa [clonePdpt] using slot
    · intro p lowP len hp
      exact prefix_next hp (by simp [len]) fun _ => lowP.slot
  have pml4 : Clones scope roots src dest s
      (fun t => (List.range 256).foldl (clonePml4 destRoot srcRoot) t) [] := by
    have hat : at_ roots s.mem src [] = some srcRoot := by rw [at_, node_root]; exact rootSrc
    refine clones_fold clonePml4_exhausted ?_ ?_
    · intro i hi
      have low' : LowPath ([] ++ [i]) := ⟨by simp, by simp; omega, by simp [hi]⟩
      have slot := clones_slot (fun g t => (List.range 512).foldl
        (clonePdpt destRoot i g) t) low' (by simp) hat fun g hg => pdpt i g low' hg
      simpa [clonePml4] using slot
    · intro p lowP len hp
      exact prefix_next hp (by simp [len]) fun _ => lowP.first
  refine (pml4 s _ (fun _ _ h => h) start fine).grow ?_
  intro q l _ _
  right
  simp

end Clone

end Isunux
