import Isunux.Sharing

/-! `vmm_destroy_address_space`. The tables are not written: the loops only hand
pages back, each table after everything below it. -/
namespace Isunux

open Radix

section Destroy

variable {K : Type*} [DecidableEq K] {roots : K → Option Nat} {scope : Nat → Prop} {mem : PhysMem}
  {L : Finset (Ref K × Nat)} {k : K}

/-- References strictly below the table at `q`. -/
def Below (k : K) (q : List Nat) (e : Ref K × Nat) : Prop :=
  e.1.1 = k ∧ q <+: e.1.2 ∧ e.1.2 ≠ q

/-- A piece of the walk that drops exactly the references below `q`. -/
def Clears (scope : Nat → Prop) (L : Finset (Ref K × Nat)) (k : K) (q : List Nat)
    (act : Pmm → Pmm) : Prop :=
  ∀ p M, M ⊆ L → (∀ e ∈ L, Below k q e → e ∈ M) → Accounts Ref.table scope p M →
    ∃ M', (∀ e, e ∈ M' ↔ e ∈ M ∧ ¬ Below k q e) ∧ Accounts Ref.table scope (act p) M'

theorem clears_fold (forest : Forest roots mem L) {q : List Nat} {f n : Nat}
    {body : Pmm → Nat → Pmm} (inner : Nat → Pmm → Pmm) (table : at_ roots mem k q = some f)
    (low : ∀ i, i < n → LowPath (q ++ [i]))
    (cover : ∀ p, LowPath p → q <+: p → p ≠ q → ∃ i, i < n ∧ q ++ [i] <+: p)
    (shape : ∀ p i, i < n → body p i = if hasBits (mem f i) ptePresent then
      pmmFreePage (inner i p) (pteFrame (mem f i)) else p)
    (deeper : ∀ i, i < n → ∀ g, at_ roots mem k (q ++ [i]) = some g →
      Clears scope L k (q ++ [i]) (inner i)) :
    Clears scope L k q fun p => (List.range n).foldl body p := by
  intro p M sub whole accounts
  have loop := Run.range_rule
    (fun i p => ∃ M', (∀ e, e ∈ M' ↔ e ∈ M ∧ ¬ (e.1.1 = k ∧ ∃ i', i' < i ∧ q ++ [i'] <+: e.1.2)) ∧
      Accounts Ref.table scope p M')
    body n p ⟨M, by simp, accounts⟩ (by
      rintro i hi p ⟨N, members, accounts⟩
      have child : at_ roots mem k (q ++ [i]) = pteChild (mem f i) := by
        rw [at_snoc, table, Option.bind_some]
      rw [shape p i hi]
      by_cases present : hasBits (mem f i) ptePresent = true
      · simp only [present, if_true]
        rw [pteChild, if_pos present] at child
        have here : ((k, q ++ [i]), pteFrame (mem f i)) ∈ L :=
          (forest.nodes _ _ _).mpr ⟨low i hi, child⟩
        have untouched : ∀ e ∈ L, e.1.1 = k → q ++ [i] <+: e.1.2 → e ∈ N := by
          intro e he hk hp
          rw [members]
          refine ⟨whole e he ⟨hk, (List.prefix_append q [i]).trans hp, ?_⟩, ?_⟩
          · intro heq
            have := hp.length_le
            simp [heq] at this
          · rintro ⟨-, i', hi', hp'⟩
            have := snoc_prefix_inj hp hp'
            omega
        obtain ⟨N', members', accounts'⟩ := deeper i hi _ child p N
          (fun e he => sub ((members e).mp he).1)
          (fun e he hb => untouched e he hb.1 hb.2.1) accounts
        have own : ((k, q ++ [i]), pteFrame (mem f i)) ∈ N' := by
          rw [members']
          exact ⟨untouched _ here rfl (List.prefix_refl _), fun hb => hb.2.2 rfl⟩
        refine ⟨_, ?_, accounts'.free own⟩
        intro e
        rw [Finset.mem_erase, members', members]
        constructor
        · rintro ⟨hne, ⟨hM, hold⟩, hbelow⟩
          refine ⟨hM, ?_⟩
          rintro ⟨hk, i', hi', hp⟩
          by_cases hlast : i' = i
          · subst hlast
            by_cases heq : e.1.2 = q ++ [i']
            · apply hne
              have he : e = ((k, q ++ [i']), e.2) := by rw [← hk, ← heq]
              rw [he] at hM ⊢
              have := ((forest.nodes _ _ _).mp (sub hM)).2
              rw [child] at this
              rw [← Option.some.inj this]
            · exact hbelow ⟨hk, hp, heq⟩
          · exact hold ⟨hk, i', by omega, hp⟩
        · rintro ⟨hM, hnew⟩
          refine ⟨?_, ⟨hM, ?_⟩, ?_⟩
          · rintro rfl
            exact hnew ⟨rfl, i, by omega, List.prefix_refl _⟩
          · rintro ⟨hk, i', hi', hp⟩
            exact hnew ⟨hk, i', by omega, hp⟩
          · rintro ⟨hk, hp, -⟩
            exact hnew ⟨hk, i, by omega, hp⟩
      · simp only [present, Bool.false_eq_true, if_false]
        rw [pteChild, if_neg present] at child
        refine ⟨N, ?_, accounts⟩
        intro e
        rw [members]
        refine and_congr_right fun hM => not_congr ?_
        constructor
        · rintro ⟨hk, i', hi', hp⟩
          exact ⟨hk, i', by omega, hp⟩
        · rintro ⟨hk, i', hi', hp⟩
          refine ⟨hk, i', ?_, hp⟩
          by_contra hlast
          have heq : i' = i := by omega
          subst heq
          -- nothing of the forest hangs below an empty slot
          obtain ⟨r, hr⟩ := hp
          have hat := ((forest.nodes e.1.1 e.1.2 e.2).mp (sub hM)).2
          rw [hk, ← hr, at_append, child] at hat
          cases hat)
  obtain ⟨M', members, accounts'⟩ := loop
  refine ⟨M', ?_, accounts'⟩
  intro e
  rw [members]
  refine and_congr_right fun hM => not_congr ?_
  constructor
  · rintro ⟨hk, i', _, hp⟩
    refine ⟨hk, (List.prefix_append q [i']).trans hp, ?_⟩
    intro heq
    have := hp.length_le
    simp [heq] at this
  · rintro ⟨hk, hp, hne⟩
    have lowE := ((forest.nodes e.1.1 e.1.2 e.2).mp (sub hM)).1
    exact ⟨hk, cover _ lowE hp hne⟩

theorem prefix_slots {q p : List Nat} (low : LowPath p) (hp : q <+: p) (hne : p ≠ q) :
    ∃ i, i < 512 ∧ q ++ [i] <+: p := by
  refine prefix_next hp ?_ fun _ => low.slot
  exact Nat.lt_of_le_of_ne hp.length_le fun h => hne (hp.eq_of_length h).symm

/-- A space is destroyed: its references leave the ledger, the others keep
theirs and their pages. -/
theorem Sound.destroy {s : Vm} (w : Sound scope roots s L) {pml4 : Nat} (root : roots k = some pml4) :
    (vmmDestroyAddressSpace s pml4).mem = s.mem ∧
    ∃ L', Sound scope (Function.update roots k none) (vmmDestroyAddressSpace s pml4) L' ∧
      (∀ q l, leafWord (Function.update roots k none) s.mem k q l = none) ∧
      ∀ k' q' l', k' ≠ k →
        leafWord (Function.update roots k none) s.mem k' q' l' = leafWord roots s.mem k' q' l' := by
  have forest := w.owned.forest
  have leafLevel : ∀ i j m pt, LowPath [i, j, m] → at_ roots s.mem k [i, j, m] = some pt →
      Clears scope L k [i, j, m] (destroyPt s.mem pt) := by
    intro i j m pt low hat
    refine clears_fold forest (fun _ p => p) hat (fun l hl => low.extend (by simp) (by simp) hl)
      (fun p lowP hp hne => prefix_slots lowP hp hne) (fun p l _ => rfl) ?_
    intro l hl g _ p M sub _ accounts
    refine ⟨M, ?_, accounts⟩
    intro e
    refine ⟨fun he => ⟨he, ?_⟩, fun h => h.1⟩
    rintro ⟨-, hp, hne⟩
    have long := ((forest.nodes e.1.1 e.1.2 e.2).mp (sub he)).1.1
    have short := hp.length_le
    exact hne (hp.eq_of_length (by simp only [List.length_append, List.length_cons,
      List.length_nil] at short ⊢; omega)).symm
  have pdLevel : ∀ i j pd, LowPath [i, j] → at_ roots s.mem k [i, j] = some pd →
      Clears scope L k [i, j] (destroyPd s.mem pd) := by
    intro i j pd low hat
    refine clears_fold forest (fun m p => destroyPt s.mem (pteFrame (s.mem pd m)) p) hat
      (fun m hm => low.extend (by simp) (by simp) hm)
      (fun p lowP hp hne => prefix_slots lowP hp hne) ?_ ?_
    · intro p m hm
      by_cases present : hasBits (s.mem pd m) ptePresent = true
      · obtain ⟨g, _, word⟩ := forest.tables k [i, j] m pd (low.extend (by simp) (by simp) hm)
          (by simp) hat present
        simp [word]
      · simp [present]
    · intro m hm g hg
      have child := hg
      rw [at_snoc, hat, Option.bind_some] at child
      rw [(pteChild_eq_some.mp child).2]
      exact leafLevel i j m g (low.extend (by simp) (by simp) hm) hg
  have pdptLevel : ∀ i pdpt, LowPath [i] → at_ roots s.mem k [i] = some pdpt →
      Clears scope L k [i] (destroyPdpt s.mem pdpt) := by
    intro i pdpt low hat
    refine clears_fold forest (fun j p => destroyPd s.mem (pteFrame (s.mem pdpt j)) p) hat
      (fun j hj => low.extend (by simp) (by simp) hj)
      (fun p lowP hp hne => prefix_slots lowP hp hne) (fun _ _ _ => rfl) ?_
    intro j hj g hg
    have child := hg
    rw [at_snoc, hat, Option.bind_some] at child
    rw [(pteChild_eq_some.mp child).2]
    exact pdLevel i j g (low.extend (by simp) (by simp) hj) hg
  have rootAt : at_ roots s.mem k [] = some pml4 := by rw [at_, node_root]; exact root
  have rootLow : ∀ i, i < 256 → LowPath ([] ++ [i]) := fun i hi =>
    ⟨by simp, by simp; omega, by simp [hi]⟩
  have pml4Level : Clears scope L k [] fun p => (List.range 256).foldl (fun p i =>
      if hasBits (s.mem pml4 i) ptePresent then
        pmmFreePage (destroyPdpt s.mem (pteFrame (s.mem pml4 i)) p) (pteFrame (s.mem pml4 i))
      else p) p := by
    refine clears_fold forest (fun i p => destroyPdpt s.mem (pteFrame (s.mem pml4 i)) p) rootAt rootLow
      ?_ (fun _ _ _ => rfl) ?_
    · intro p lowP hp hne
      exact prefix_next hp (Nat.lt_of_le_of_ne hp.length_le fun h => hne (hp.eq_of_length h).symm)
        fun _ => lowP.first
    · intro i hi g hg
      have child := hg
      rw [at_snoc, rootAt, Option.bind_some] at child
      rw [(pteChild_eq_some.mp child).2]
      exact pdptLevel i g (rootLow i hi) hg
  obtain ⟨M, members, accounts⟩ := pml4Level s.pmm L subset_rfl (fun _ he _ => he) w.owned.accounts
  have own : ((k, []), pml4) ∈ M := by
    rw [members]
    exact ⟨(forest.nodes _ _ _).mpr ⟨LowPath.nil, rootAt⟩, fun hb => hb.2.2 rfl⟩
  have ledger : ∀ e, e ∈ M.erase ((k, []), pml4) ↔ e ∈ L ∧ e.1.1 ≠ k := by
    intro e
    rw [Finset.mem_erase, members]
    constructor
    · rintro ⟨hne, hL, hb⟩
      refine ⟨hL, fun hk => ?_⟩
      by_cases hq : e.1.2 = []
      · apply hne
        have he : e = ((k, []), e.2) := by rw [← hk, ← hq]
        rw [he] at hL ⊢
        have := ((forest.nodes _ _ _).mp hL).2
        rw [rootAt] at this
        rw [← Option.some.inj this]
      · exact hb ⟨hk, List.nil_prefix, hq⟩
    · rintro ⟨hL, hk⟩
      refine ⟨?_, hL, fun hb => hk hb.1⟩
      rintro rfl
      exact hk rfl
  have away : ∀ k' q', k' ≠ k →
      at_ (Function.update roots k none) s.mem k' q' = at_ roots s.mem k' q' := by
    intro k' q' hk
    simp [at_, node, hk]
  have gone : ∀ q, at_ (Function.update roots k none) s.mem k q = none := by
    intro q
    simp [at_, node]
  have words : ∀ k' q' l', k' ≠ k →
      leafWord (Function.update roots k none) s.mem k' q' l' = leafWord roots s.mem k' q' l' := by
    intro k' q' l' hk
    rw [leafWord, leafWord, away k' q' hk]
  have wordsGone : ∀ q l, leafWord (Function.update roots k none) s.mem k q l = none := by
    intro q l
    rw [leafWord, gone]
    rfl
  refine ⟨rfl, M.erase ((k, []), pml4), ⟨⟨⟨?_, ?_, ?_⟩, accounts.free own, subset_rfl⟩, ?_⟩, wordsGone,
    words⟩
  · intro k' q f
    rw [ledger]
    by_cases hk : k' = k
    · subst hk
      simp only [ne_eq, not_true, and_false, false_iff, not_and]
      intro _ h
      rw [show at_ (Function.update roots k' none) (vmmDestroyAddressSpace s pml4).mem k' q = none from
        gone q] at h
      cases h
    · rw [show at_ (Function.update roots k none) (vmmDestroyAddressSpace s pml4).mem k' q =
        at_ roots s.mem k' q from away k' q hk, forest.nodes]
      simp [hk]
  · intro k' q i f low short h hp
    by_cases hk : k' = k
    · subst hk
      rw [show at_ (Function.update roots k' none) (vmmDestroyAddressSpace s pml4).mem k' q = none from
        gone q] at h
      cases h
    · exact forest.tables k' q i f low short ((away k' q hk).symm.trans h) hp
  · intro k' q l e low len h
    by_cases hk : k' = k
    · subst hk
      have := (wordsGone q l).symm.trans h
      cases this
    · exact forest.leaves k' q l e low len ((words k' q l hk).symm.trans h)
  · intro k₁ q₁ l₁ e₁ k₂ q₂ l₂ e₂ low₁ len₁ low₂ len₂ h₁ h₂
    have hk₁ : k₁ ≠ k := by
      rintro rfl
      cases (wordsGone q₁ l₁).symm.trans h₁
    have hk₂ : k₂ ≠ k := by
      rintro rfl
      cases (wordsGone q₂ l₂).symm.trans h₂
    exact w.shared _ _ _ _ _ _ _ _ low₁ len₁ low₂ len₂ ((words _ _ _ hk₁).symm.trans h₁)
      ((words _ _ _ hk₂).symm.trans h₂)

end Destroy

end Isunux
