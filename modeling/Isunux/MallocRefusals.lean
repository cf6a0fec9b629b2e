import Isunux.Malloc

/-! What `malloc` does with sizes that no heap can hold. Rounding up and adding the
header wrap at 2^64, and the comparison with the break takes what is left. -/
namespace Isunux

/-- The rounded size, or the end of a block of it behind the break, is no 64-bit number. -/
def TooLarge (h : Heap) (n : Word) : Prop :=
  2 ^ 64 ≤ roundUp n.toNat ∨ 2 ^ 64 ≤ h.brk.toNat + 24 + roundUp n.toNat

/-- The walk comes to the end of the list without a block for a size. -/
def NoFit (h : Heap) (size : Word) : Prop :=
  ∃ bs, BlockList h.mem h.head bs ∧ ∀ b ∈ bs, ¬ Fits h.mem size b

section Sizes

variable {h : Heap} {n : Word}

theorem wrapped_end_above {brk m : Nat} (low : brk < 2 ^ 63) (bound : m < 2 ^ 64)
    (large : 2 ^ 64 ≤ roundUp m ∨ 2 ^ 64 ≤ brk + 24 + roundUp m) :
    brk < ((brk + 24) % 2 ^ 64 + roundUp m % 2 ^ 64) % 2 ^ 64 ↔ 2 ^ 64 - 24 < m := by
  have round : roundUp m = (m + 7) / 8 * 8 := rfl
  rw [round] at large ⊢
  omega

theorem neededEnd_above_iff (low : h.brk.toNat < 2 ^ 63) (large : TooLarge h n) :
    h.brk < neededEnd h (align8 n) ↔ 2 ^ 64 - 24 < n.toNat := by
  have header : headerSize.toNat = 24 := rfl
  rw [BitVec.lt_def, neededEnd, BitVec.toNat_add, BitVec.toNat_add, align8_toNat, header]
  exact wrapped_end_above low n.isLt large

theorem setFree_ne {mem : ElfData} {b : Word} (free : blockFree mem b = true) : setFree mem b 0#64 ≠ mem := by
  intro same
  have written := congrArg Header.free (header_setFree mem b (.inl rfl))
  have taken : blockFree (setFree mem b 0#64) b = false := by simpa [header] using written
  rw [same, free] at taken
  cases taken

theorem firstFit_some {mem : ElfData} {size cur found : Word} {fuel : Nat}
    (walked : firstFit mem size fuel cur = some found) (hit : found ≠ 0#64) : Fits mem size found := by
  induction fuel generalizing cur with
  | zero => cases walked
  | succ fuel ih =>
    rw [firstFit] at walked
    split at walked
    · exact absurd (Option.some.inj walked).symm hit
    · split at walked
      · rename_i fits
        cases walked
        exact fits
      · exact ih walked

end Sizes

theorem request_refuses_iff {h : Heap} {answer : BrkAnswer} {n : Word} (placed : h.brk ≠ 0#64)
    (large : TooLarge h n) :
    (if (requestBlock h answer (align8 n)).2 = 0#64 then requestBlock h answer (align8 n)
      else (appendBlock (requestBlock h answer (align8 n)).1 (requestBlock h answer (align8 n)).2,
        (requestBlock h answer (align8 n)).2 + headerSize)) = (h, 0#64) ↔
      2 ^ 63 ≤ h.brk.toNat ∨ 2 ^ 64 - 24 < n.toNat ∧ answer.grows = false := by
  have msb : h.brk.msb = decide (2 ^ 63 ≤ h.brk.toNat) := BitVec.msb_eq_decide h.brk
  by_cases high : 2 ^ 63 ≤ h.brk.toNat
  · rw [requestBlock_high (msb.trans (decide_eq_true high))]
    exact iff_of_true rfl (.inl high)
  have low : h.brk.msb = false := msb.trans (decide_eq_false high)
  have half : h.brk.toNat < 2 ^ 63 := Nat.lt_of_not_le high
  have above := neededEnd_above_iff half large
  have pointer_ne : h.brk + headerSize ≠ 0#64 := by
    have header : headerSize.toNat = 24 := rfl
    intro zero
    have := congrArg BitVec.toNat zero
    rw [BitVec.toNat_add, header] at this
    change _ = 0 at this
    omega
  rw [← above]
  by_cases higher : h.brk < neededEnd h (align8 n)
  · cases grows : answer.grows with
    | false =>
      rw [requestBlock_refused higher grows]
      simp [higher]
    | true =>
      rw [requestBlock_grown low higher grows]
      simp only [placed, if_false, Prod.mk.injEq, pointer_ne, and_false, high, false_or, reduceCtorEq]
  · rw [requestBlock_wrapped low (by bv_omega)]
    simp only [placed, if_false, Prod.mk.injEq, pointer_ne, and_false, high, higher, false_or, false_and]

/-- A size that is too large is refused, with nothing changed, exactly when no free block has the
wrapped size, and the break is in the upper half or the kernel does not grow it for the few
sizes whose end wraps above it. -/
theorem malloc_refuses_iff (h : Heap) (answer : BrkAnswer) (n : Word) (placed : h.brk ≠ 0#64)
    (large : TooLarge h n) :
    malloc h answer n = some (h, 0#64) ↔
      n = 0#64 ∨ NoFit h (align8 n) ∧
        (2 ^ 63 ≤ h.brk.toNat ∨ 2 ^ 64 - 24 < n.toNat ∧ answer.grows = false) := by
  by_cases zero : n = 0#64
  · simp [malloc, zero]
  simp only [zero, false_or, malloc, if_false]
  cases walk : firstFit h.mem (align8 n) addresses h.head with
  | none =>
    have endless : ¬ NoFit h (align8 n) := by
      intro none
      rw [firstFit_zero_iff.mpr none] at walk
      cases walk
    simp [endless]
  | some found =>
    rw [Option.map_some, Option.some.injEq]
    by_cases miss : found = 0#64
    · subst miss
      have none : NoFit h (align8 n) := firstFit_zero_iff.mp walk
      rw [if_neg (fun differs => differs rfl)]
      apply (request_refuses_iff placed large).trans
      exact (and_iff_right none).symm
    · -- the block that was found is handed out
      have some : ¬ NoFit h (align8 n) := by
        intro none
        rw [firstFit_zero_iff.mpr none] at walk
        exact miss (Option.some.inj walk).symm
      have changed := setFree_ne (firstFit_some walk miss).1
      rw [if_pos miss]
      apply iff_of_false
      · intro same
        exact changed (congrArg (fun r => r.1.mem) same)
      · exact fun both => some both.1

/-- A program that has not allocated yet. -/
def freshHeap : Heap := ⟨fun _ => 0#8, 0x402000#64, 0#64, 0#64⟩

def noPages : BrkAnswer := ⟨false, fun _ => 0#8⟩

theorem largest_size_refused :
    malloc freshHeap noPages 0xFFFFFFFFFFFFFFFF#64 = some (freshHeap, 0#64) ↔
      (0xFFFFFFFFFFFFFFFF#64 : Word) = 0#64 ∨ NoFit freshHeap (align8 0xFFFFFFFFFFFFFFFF#64) ∧
        (2 ^ 63 ≤ freshHeap.brk.toNat ∨
          2 ^ 64 - 24 < (0xFFFFFFFFFFFFFFFF#64 : Word).toNat ∧ noPages.grows = false) :=
  malloc_refuses_iff freshHeap noPages 0xFFFFFFFFFFFFFFFF#64 (by decide) (.inl (by decide +kernel))

/-- The program has allocated 16 bytes. -/
def usedHeap : Heap := ((malloc freshHeap ⟨true, fun _ => 0#8⟩ 16#64).map Prod.fst).getD freshHeap

/-- A size of 64 bytes less than 2^64 gives a block behind the break, which stays where it is. -/
theorem huge_block_granted :
    TooLarge usedHeap 0xFFFFFFFFFFFFFFC0#64 ∧
      ∃ h', malloc usedHeap noPages 0xFFFFFFFFFFFFFFC0#64 = some (h', 0x402040#64) ∧
        blockNext h'.mem usedHeap.head = usedHeap.brk ∧ h'.brk = usedHeap.brk := by
  refine ⟨.inr (by decide +kernel), ?_⟩
  have granted : ((malloc usedHeap noPages 0xFFFFFFFFFFFFFFC0#64).map fun r =>
      (r.2, blockNext r.1.mem usedHeap.head, r.1.brk)) = some (0x402040#64, usedHeap.brk, usedHeap.brk) := by
    decide +kernel
  obtain ⟨⟨h', ptr⟩, back, eq⟩ := Option.map_eq_some_iff.mp granted
  simp only [Prod.mk.injEq] at eq
  obtain ⟨rfl, next, brk⟩ := eq
  exact ⟨h', back, next, brk⟩

end Isunux
