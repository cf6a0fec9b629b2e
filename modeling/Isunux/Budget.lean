import Isunux.Overlays
import Isunux.Spaces

/-! How many pages a step may take, and that it only fails for want of them; and an
address space that has just been made. -/
namespace Isunux

section Flags

theorem pmmAllocPages_exhausted (p : Pmm) (n : Nat) : (pmmAllocPages p n).1.exhausted = p.exhausted := by
  rcases pmmAllocPages_cases p n with e | ⟨_, _, _, _, e⟩
  · rw [e]
  · rw [e]

theorem pmmFreePages_exhausted (p : Pmm) (f n : Nat) : (pmmFreePages p f n).exhausted = p.exhausted :=
  Run.foldl_rule (fun q => q.exhausted = p.exhausted) _ _ p rfl
    fun i _ q h => (pmmFreePage_exhausted q (f + i)).trans h

end Flags

section Budget

variable {s t u : Vm} {n m : Nat}

/-- A step that takes at most `n` pages and fails only when they are not there. -/
structure Spends (n : Nat) (s t : Vm) : Prop where
  zero : Held s.pmm 0 → Held t.pmm 0
  free : Held s.pmm 0 → freeFrames s.pmm ≤ freeFrames t.pmm + n
  fine : Held s.pmm 0 → n ≤ freeFrames s.pmm → s.pmm.exhausted = false → t.pmm.exhausted = false

theorem Spends.refl (s : Vm) : Spends 0 s s := ⟨id, fun _ => le_rfl, fun _ _ h => h⟩

theorem Spends.trans (h : Spends n s t) (h' : Spends m t u) : Spends (n + m) s u := by
  refine ⟨fun z => h'.zero (h.zero z), fun z => ?_, fun z enough fine => ?_⟩
  · have first := h.free z
    have second := h'.free (h.zero z)
    omega
  · have first := h.free z
    exact h'.fine (h.zero z) (by omega) (h.fine z (by omega) fine)

theorem Spends.more (h : Spends n s t) (le : n ≤ m) : Spends m s t :=
  ⟨h.zero, fun z => (h.free z).trans (Nat.add_le_add_left le _), fun z enough => h.fine z (le.trans enough)⟩

theorem allocPage_spends (s : Vm) (mem : PhysMem) : Spends 1 s { s with pmm := (pmmAllocPage s.pmm).1, mem := mem } := by
  refine ⟨(pmmAllocPage_grown s.pmm).held, fun _ => ?_, fun z enough fine => ?_⟩
  · rcases pmmAllocPage_cases s.pmm with ⟨idx, bound, clear, e⟩ | e
    · dsimp only
      rw [e, freeFrames_take s.pmm bound clear]
    · dsimp only
      rw [e]
      exact Nat.le_succ _
  · have ok := pmmAllocPage_ok z enough
    rcases pmmAllocPage_cases s.pmm with ⟨idx, bound, clear, e⟩ | e
    · rw [e] at ok
      dsimp only
      rw [e]
      simp [Pmm.take, fine, ok]
    · rw [e] at ok
      exact absurd rfl ok

theorem allocPages_spends (s : Vm) (n : Nat) (mem : PhysMem) :
    Spends n s { s with pmm := (pmmAllocPages s.pmm n).1, mem := mem } := by
  refine ⟨(pmmAllocPages_grown s.pmm n).held, fun z => ?_, fun _ _ fine => (pmmAllocPages_exhausted _ _).trans fine⟩
  by_cases failed : (pmmAllocPages s.pmm n).2 = 0
  · dsimp only
    rw [pmmAllocPages_failed z failed]
    exact Nat.le_add_right _ _
  · exact (freeFrames_allocPages failed).ge

theorem getOrCreateTable_spends (s : Vm) (f i : Nat) : Spends 1 s (getOrCreateTable s f i).1 := by
  unfold getOrCreateTable
  split
  · exact (Spends.refl s).more (Nat.zero_le 1)
  · exact allocPage_spends s _

theorem vmmMap4kIn_spends (s : Vm) (pml4 : Nat) (v : Word) (f : Nat) (flags : Word) :
    Spends 3 s (vmmMap4kIn s pml4 v f flags) := by
  have first := getOrCreateTable_spends s pml4 (pml4Idx v)
  have second := getOrCreateTable_spends (getOrCreateTable s pml4 (pml4Idx v)).1
    (getOrCreateTable s pml4 (pml4Idx v)).2 (pdptIdx v)
  have all := (first.trans second).trans (getOrCreateTable_spends _ (getOrCreateTable
    (getOrCreateTable s pml4 (pml4Idx v)).1 (getOrCreateTable s pml4 (pml4Idx v)).2 (pdptIdx v)).2 (pdIdx v))
  exact ⟨all.zero, all.free, all.fine⟩

theorem mapPages_spends (s : Vm) (pml4 : Nat) (base flags : Word) (phys n : Nat) :
    Spends (3 * n) s (mapPages pml4 base flags phys n s) := by
  induction n with
  | zero => exact .refl s
  | succ n ih =>
    rw [mapPages_succ]
    exact ih.trans (vmmMap4kIn_spends _ _ _ _ _)

theorem freePages_spends (s : Vm) {lo : Nat} (n : Nat) (nonzero : lo ≠ 0) :
    Spends 0 s { s with pmm := pmmFreePages s.pmm lo n } := by
  refine ⟨fun z bound => ?_, fun _ => ?_, fun _ _ fine => (pmmFreePages_exhausted _ _ _).trans fine⟩
  · dsimp only at bound ⊢
    rw [pmmFreePages_total] at bound
    rw [(pmmFreePages_other s.pmm (by omega)).1]
    exact z bound
  · rw [Nat.add_zero]
    apply Finset.card_le_card
    intro f hf
    rw [Finset.mem_filter, Finset.mem_range] at hf ⊢
    dsimp only
    rw [pmmFreePages_total]
    exact ⟨hf.1, pmmFreePages_keeps_clear s.pmm lo n hf.2⟩

end Budget

def only (pml4 : Nat) : Fin 1 → Option Nat := fun _ => some pml4

theorem newSpace_sound {s : Vm} (fine : (vmmNewAddressSpace s).1.pmm.exhausted = false) :
    (∃ L, Sound (freeAtStart s.pmm) (only (vmmNewAddressSpace s).2) (vmmNewAddressSpace s).1 L) ∧
      ∀ k q l, LowPath (q ++ [l]) → q.length = 3 →
        leafWord (only (vmmNewAddressSpace s).2) (vmmNewAddressSpace s).1.mem k q l = none := by
  have start := noSpaces_sound (n := 1) s
  obtain ⟨sound, none, -⟩ := start.newSpace (k := 0) rfl fine
  have roots : Function.update (noSpaces (n := 1) s).roots 0 (some (vmmNewAddressSpace s).2) =
      only (vmmNewAddressSpace s).2 := by
    funext k
    rw [Subsingleton.elim k 0, Function.update_self]
    rfl
  rw [roots] at sound none
  refine ⟨⟨_, sound⟩, fun k q l low len => ?_⟩
  rw [Subsingleton.elim k 0]
  exact none q l low len

end Isunux
