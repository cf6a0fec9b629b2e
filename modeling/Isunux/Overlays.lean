import Isunux.Blocks
import Isunux.OutOfMemory
import Isunux.FileBuffers

/-! Pages mapped where others are mapped already. `vmm_map_4k_in` looks at nothing but
the tables, so the entry of the new page replaces the old one; the old page stays in
use without an entry, and leaves the scope of the accounts. -/
namespace Isunux

open Radix

/-- A used block outside the scope, each of its pages with one owner. -/
def Apart (scope : Nat → Prop) (p : Pmm) (lo hi : Nat) : Prop :=
  ∀ f, lo ≤ f → f < hi → ¬ scope f ∧ f < p.totalPages ∧ f ≠ 0 ∧ p.bitmap f = true ∧ p.owners f = 1

section Accounts

variable {R : Type*} {sole : R → Prop} {scope : Nat → Prop} {p : Pmm} {L : Finset (R × Nat)}

theorem Accounts.drop [DecidableEq R] (a : Accounts sole scope p L) {r : R} {f : Nat} (mem : (r, f) ∈ L)
    (alone : ∀ r', (r', f) ∈ L → r' = r) :
    Accounts sole (fun g => scope g ∧ g ≠ f) p (L.erase (r, f)) := by
  have other : ∀ g, g ≠ f → Ledger.held (L.erase (r, f)) g = Ledger.held L g := by
    intro g ne
    have erased := Ledger.held_erase mem g
    rwa [if_neg (Ne.symm ne), Nat.add_zero] at erased
  have apart : ∀ x ∈ L.erase (r, f), x.2 ≠ f := by
    rintro ⟨r', g⟩ hx rfl
    obtain ⟨ne, old⟩ := Finset.mem_erase.mp hx
    exact ne (by rw [alone r' old])
  refine ⟨⟨fun x hx => ?_, fun g inside => ?_, fun g positive => ?_, fun x hx single => ?_⟩,
    fun g inside => a.tracked g inside.1, fun g bound nonzero out => ?_⟩
  · exact ⟨a.balanced.within x (Finset.mem_of_mem_erase hx), apart x hx⟩
  · rw [other g inside.2]
    exact a.balanced.used_iff g inside.1
  · obtain ⟨r', hr⟩ := Ledger.held_pos.mp positive
    rw [other g (apart _ hr)] at positive ⊢
    exact a.balanced.counted g positive
  · rw [other x.2 (apart x hx)]
    exact a.balanced.single x (Finset.mem_of_mem_erase hx) single
  · by_cases same : g = f
    · subst same
      exact a.used mem
    · exact a.outside g bound nonzero fun inside => out ⟨inside, same⟩

theorem Accounts.widen (a : Accounts sole scope p L) {lo n : Nat}
    (block : Apart scope p lo (lo + n)) :
    Accounts sole (fun f => scope f ∨ (lo ≤ f ∧ f < lo + n)) (pmmFreePages p lo n) L := by
  have other : ∀ g, scope g → (pmmFreePages p lo n).bitmap g = p.bitmap g ∧
      (pmmFreePages p lo n).refcount g = p.refcount g :=
    fun g inside => pmmFreePages_other p fun range => (block g range.1 range.2).1 inside
  refine ⟨⟨fun x hx => .inl (a.balanced.within x hx), fun g inside => ?_, fun g positive => ?_,
    a.balanced.single⟩, fun g inside => ?_, fun g bound nonzero out => ?_⟩
  · by_cases inScope : scope g
    · rw [(other g inScope).1]
      exact a.balanced.used_iff g inScope
    · obtain ⟨lower, upper⟩ := inside.resolve_left inScope
      obtain ⟨-, bound, -, -, owner⟩ := block g lower upper
      rw [pmmFreePages_clear p lower upper bound (UInt8.toNat_inj.mp owner)]
      refine iff_of_false Bool.false_ne_true fun positive => ?_
      obtain ⟨r, hr⟩ := Ledger.held_pos.mp positive
      exact inScope (a.balanced.within _ hr)
  · obtain ⟨r, hr⟩ := Ledger.held_pos.mp positive
    rw [Pmm.owners, (other g (a.balanced.within _ hr)).2]
    exact a.balanced.counted g positive
  · rw [pmmFreePages_total]
    rcases inside with inScope | ⟨lower, upper⟩
    · exact a.tracked g inScope
    · exact ⟨(block g lower upper).2.1, (block g lower upper).2.2.1⟩
  · rw [pmmFreePages_total] at bound
    rw [(pmmFreePages_other p fun range => out (.inr range)).1]
    exact a.outside g bound nonzero fun inside => out (.inl inside)

end Accounts

section Slots

variable {K : Type*} {roots : K → Option Nat} {scope : Nat → Prop} {s : Vm} {L : Finset (Ref K × Nat)}
  {k : K} {pml4 : Nat} {flags : Word} {kind : Kind}

theorem Sound.alone [Fintype K] (w : Sound scope roots s L) (one : Fintype.card K ≤ 1) {q : List Nat} {l : Nat}
    {e : Word} (low : LowPath (q ++ [l])) (here : leafWord roots s.mem k q l = some e) (r : Ref K)
    (mem : (r, pteFrame e) ∈ L) : r = (k, q ++ [l]) := by
  have own := w.owned.leaf_mem low here
  have most := w.held_le (pteFrame e)
  have some := Ledger.held_pos.mpr ⟨_, own⟩
  exact Ledger.eq_of_held_one (by omega) mem own

theorem tablesAlong_present {f g : Nat} {is : List Nat} (here : reach s.mem f is = some g) :
    tablesAlong s f is = (s, g) := by
  induction is generalizing f with
  | nil =>
    cases here
    rfl
  | cons i is ih =>
    cases child : pteChild (s.mem f i) with
    | none =>
      rw [reach, walk, child] at here
      cases here
    | some x =>
      rw [reach, walk, child] at here
      rw [tablesAlong, getOrCreateTable_present child]
      exact ih here

theorem at_reach {mem : PhysMem} (root : roots k = some pml4) (q : List Nat) :
    at_ roots mem k q = reach mem pml4 q := by
  rw [at_, node, root]
  rfl

variable [DecidableEq K]

theorem Sound.drop [Fintype K] (w : Sound scope roots s L) (one : Fintype.card K ≤ 1) {q : List Nat} {l f : Nat}
    {e : Word} (low : LowPath (q ++ [l])) (len : q.length = 3) (table : at_ roots s.mem k q = some f)
    (here : leafWord roots s.mem k q l = some e) :
    Sound (fun g => scope g ∧ g ≠ pteFrame e) roots { s with mem := put s.mem f l 0#64 }
        (L.erase ((k, q ++ [l]), pteFrame e)) ∧
      leafWord roots (put s.mem f l 0#64) k q l = none ∧
      (∀ k' q' l', LowPath (q' ++ [l']) → q'.length = 3 → ¬ (k' = k ∧ q' = q ∧ l' = l) →
        leafWord roots (put s.mem f l 0#64) k' q' l' = leafWord roots s.mem k' q' l') ∧
      ∀ q', LowPath q' → q'.length ≤ 3 → at_ roots (put s.mem f l 0#64) k q' = at_ roots s.mem k q' := by
  obtain ⟨forest, nodes, gone, rest⟩ := w.owned.clearSlot low len table here
  exact ⟨⟨⟨forest, w.owned.accounts.drop (w.owned.leaf_mem low here) fun r mem => w.alone one low here r mem,
    subset_rfl⟩, w.shared.cleared gone rest⟩, gone, rest, fun q' low' short => nodes k q' low' short⟩

theorem Sound.map_over (w : Sound scope roots s L) {v : Word} {pt : Nat} {e : Word} (low : pml4Idx v < 256)
    (root : roots k = some pml4) (table : at_ roots s.mem k (tablePath v) = some pt)
    (here : leafWord roots s.mem k (tablePath v) (ptIdx v) = some e) (f : Nat) (flags : Word) :
    vmmMap4kIn { s with mem := put s.mem pt (ptIdx v) 0#64 } pml4 v f flags = vmmMap4kIn s pml4 v f flags := by
  have lowLeaf := tablePath_low low
  obtain ⟨-, nodes, -⟩ := w.owned.clearSlot lowLeaf rfl table here
  have table' := nodes k (tablePath v) lowLeaf.init (Nat.le_refl 3)
  rw [table] at table'
  rw [at_reach root] at table table'
  rw [vmmMap4kIn_eq, vmmMap4kIn_eq, mapTables_along, mapTables_along, tablesAlong_present table,
    tablesAlong_present (s := { s with mem := put s.mem pt (ptIdx v) 0#64 }) table']
  dsimp only
  congr 1
  funext g i
  by_cases slot : g = pt ∧ i = ptIdx v
  · obtain ⟨rfl, rfl⟩ := slot
    rw [put_same, put_same]
  · rw [put_other _ _ slot, put_other _ _ slot, put_other _ _ slot]

theorem Sound.mapOver [Fintype K] (w : Sound scope roots s L) (one : Fintype.card K ≤ 1) {v : Word} {f : Nat}
    (off : ¬ scope f) (bound : f < s.pmm.totalPages) (nonzero : f ≠ 0) (used : s.pmm.bitmap f = true)
    (alone : s.pmm.owners f = 1) (low : pml4Idx v < 256) (root : roots k = some pml4)
    (format : flags ||| ptePresent = kind.flags)
    (fine : (vmmMap4kIn s pml4 v f flags).pmm.exhausted = false) :
    ∃ scope' L', (∀ g, scope' g → scope g ∨ g = f) ∧ Sound scope' roots (vmmMap4kIn s pml4 v f flags) L' ∧
      leafWord roots (vmmMap4kIn s pml4 v f flags).mem k (tablePath v) (ptIdx v) =
        some (leafEntry f kind) ∧
      (∀ k' q l, LowPath (q ++ [l]) → q.length = 3 → ¬ SlotOf k v k' q l →
        leafWord roots (vmmMap4kIn s pml4 v f flags).mem k' q l = leafWord roots s.mem k' q l) ∧
      (∀ k' q l e, LowPath (q ++ [l]) → q.length = 3 → ¬ SlotOf k v k' q l →
        leafWord roots s.mem k' q l = some e →
        (vmmMap4kIn s pml4 v f flags).mem (pteFrame e) = s.mem (pteFrame e)) ∧
      (∀ g, ¬ scope g → (vmmMap4kIn s pml4 v f flags).mem g = s.mem g) := by
  have lowLeaf := tablePath_low low
  cases here : leafWord roots s.mem k (tablePath v) (ptIdx v) with
  | none =>
    obtain ⟨L', sound, written, rest, pages, outside⟩ :=
      w.mapPage off bound nonzero used alone low root here format fine
    exact ⟨_, L', fun g inside => inside, sound, written, rest,
      fun k' q l e lowQ len _ leaf => pages k' q l e lowQ len leaf, outside⟩
  | some e =>
    obtain ⟨pt, table, -, -⟩ := leafWord_some.mp here
    have same := w.map_over low root table here f flags
    obtain ⟨dropped, gone, rest, -⟩ := w.drop one lowLeaf rfl table here
    rw [← same] at fine ⊢
    obtain ⟨L', sound, written, rest', pages, outside⟩ :=
      dropped.mapPage (fun inside => off inside.1) bound nonzero used alone low root gone format fine
    refine ⟨_, L', fun g inside => inside.imp_left And.left, sound, written,
      fun k' q l lowQ len other => (rest' k' q l lowQ len other).trans (rest k' q l lowQ len other),
      fun k' q l e' lowQ len other leaf => ?_, fun g out => ?_⟩
    · refine (pages k' q l e' lowQ len ?_).trans (w.put_page lowLeaf.init (Nat.le_refl 3) table lowQ len leaf)
      rw [rest k' q l lowQ len other]
      exact leaf
    · refine (outside g fun inside => out inside.1).trans (put_table _ _ _ ?_)
      rintro rfl
      exact out (w.owned.accounts.balanced.within _ (w.owned.mem_of_at lowLeaf.init table))

theorem Sound.mapOverPages [Fintype K] (w : Sound scope roots s L) (one : Fintype.card K ≤ 1) {base : Word}
    {phys n : Nat} (block : Apart scope s.pmm phys (phys + n)) (fits : base.toNat + n * 4096 ≤ 2 ^ 47)
    (root : roots k = some pml4) (format : flags ||| ptePresent = kind.flags)
    (fine : (Isunux.mapPages pml4 base flags phys n s).pmm.exhausted = false) :
    ∃ scope' L', (∀ g, scope' g → scope g ∨ (phys ≤ g ∧ g < phys + n)) ∧
      Sound scope' roots (Isunux.mapPages pml4 base flags phys n s) L' ∧
      (∀ p < n, leafWord roots (Isunux.mapPages pml4 base flags phys n s).mem k (tablePath (pageOfRange base p))
        (ptIdx (pageOfRange base p)) = some (leafEntry (phys + p) kind)) ∧
      (∀ p < n, (Isunux.mapPages pml4 base flags phys n s).mem (phys + p) = s.mem (phys + p)) := by
  have low := fun p (hp : p < n) => pageOfRange_low fits hp
  -- the pages that are not mapped yet are still outside the scope
  have rounds : ∀ m ≤ n, ∃ scope' L', (∀ g, scope' g → scope g ∨ (phys ≤ g ∧ g < phys + m)) ∧
      Sound scope' roots (Isunux.mapPages pml4 base flags phys m s) L' ∧
      (∀ p < m, leafWord roots (Isunux.mapPages pml4 base flags phys m s).mem k (tablePath (pageOfRange base p))
        (ptIdx (pageOfRange base p)) = some (leafEntry (phys + p) kind)) ∧
      (∀ p < n, (Isunux.mapPages pml4 base flags phys m s).mem (phys + p) = s.mem (phys + p)) ∧
      Grown s.pmm (Isunux.mapPages pml4 base flags phys m s).pmm := by
    intro m
    induction m with
    | zero =>
      intro _
      exact ⟨scope, L, fun g inside => .inl inside, w, fun p hp => absurd hp (Nat.not_lt_zero p),
        fun _ _ => rfl, .refl _⟩
    | succ m ih =>
      intro more
      obtain ⟨scope', L', within, sound, mapped, data, grown⟩ := ih (by omega)
      obtain ⟨off, bound, nonzero, used, owner⟩ := block (phys + m) (by omega) (by omega)
      have kept := grown.used (phys + m) used
      have fineM : (vmmMap4kIn (Isunux.mapPages pml4 base flags phys m s) pml4 (pageOfRange base m) (phys + m)
          flags).pmm.exhausted = false := by
        rw [← mapPages_succ]
        by_contra bad
        rw [mapPages_exhausted n more (by simpa using bad)] at fine
        cases fine
      obtain ⟨scope'', L'', within', sound', written, rest, pages, outside⟩ := sound.mapOver one
        (fun inside => (within _ inside).elim off (by omega)) (by rw [grown.total]; exact bound) nonzero kept.1
        (by rw [Pmm.owners, kept.2]; exact owner) (lowHalf_idx (low m (by omega))) root format fineM
      have other : ∀ p < m, ¬ SlotOf k (pageOfRange base m) k (tablePath (pageOfRange base p))
          (ptIdx (pageOfRange base p)) := by
        intro p hp slot
        have same := pageOfRange_slot low (by omega) (by omega) fits slot
        omega
      rw [mapPages_succ]
      refine ⟨scope'', L'', fun g inside => ?_, sound', fun p hp => ?_, fun p hp => ?_,
        grown.trans (vmmMap4kIn_grown _ _ _ _ _)⟩
      · rcases within' g inside with old | rfl
        · exact (within g old).imp_right fun range => by omega
        · exact .inr (by omega)
      · rcases Nat.lt_succ_iff_lt_or_eq.mp hp with before | rfl
        · have lowP := tablePath_low (lowHalf_idx (low p (by omega)))
          rw [rest k _ _ lowP rfl (other p before)]
          exact mapped p before
        · exact written
      · rw [← data p hp]
        by_cases before : p < m
        · have lowP := tablePath_low (lowHalf_idx (low p hp))
          have small : phys + p < 2 ^ 52 := small_of_bound (block (phys + p) (by omega) (by omega)).2.1
          have same := pages k _ _ _ lowP rfl (other p before) (mapped p before)
          rwa [leafEntry_frame small] at same
        · refine outside _ fun inside => (within _ inside).elim ?_ (by omega)
          exact (block (phys + p) (by omega) (by omega)).1
  obtain ⟨scope', L', within, sound, mapped, data, -⟩ := rounds n le_rfl
  exact ⟨scope', L', within, sound, mapped, data⟩

end Slots

end Isunux
