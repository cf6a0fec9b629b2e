import Isunux.Blocks

/-! How long a run of free pages has to be for a series of allocations. Single pages are
taken wherever the scan hint happens to be and can break up a run, so the run is cut
into windows of the size of the largest block: every page taken spoils one window and
every block at most two, and one window more than can be spoilt is enough. -/
namespace Isunux

/-- A run of `windows` times `size` pages from `first` on, in which the pages in use lie in
the spoilt windows. -/
structure Windows (first size windows : Nat) (spoilt : Finset Nat) (p : Pmm) : Prop where
  zero : 0 < p.totalPages ∧ p.bitmap 0 = true
  inside : first + windows * size ≤ p.totalPages
  used : ∀ f, first ≤ f → f < first + windows * size → p.bitmap f = true → (f - first) / size ∈ spoilt

structure FreeRun (p : Pmm) (length : Nat) : Prop where
  zero : 0 < p.totalPages ∧ p.bitmap 0 = true
  free : ∃ first, first + length ≤ p.totalPages ∧ ∀ f, first ≤ f → f < first + length → p.bitmap f = false

section Windows

variable {first size windows : Nat} {spoilt : Finset Nat} {p : Pmm} {s : Vm}

theorem FreeRun.cut (h : FreeRun p (windows * size)) : ∃ first, Windows first size windows ∅ p := by
  obtain ⟨first, inside, free⟩ := h.free
  refine ⟨first, h.zero, inside, fun f lo hi set => ?_⟩
  rw [free f lo hi] at set
  cases set

/-- As long as not all windows are spoilt one of them is free. -/
theorem Windows.free (h : Windows first size windows spoilt p) (few : spoilt.card < windows) :
    ∃ i < windows, ∀ f, first + i * size ≤ f → f < first + i * size + size → p.bitmap f = false := by
  obtain ⟨i, low, clean⟩ : ∃ i ∈ Finset.range windows, i ∉ spoilt := by
    apply Finset.exists_mem_notMem_of_card_lt_card
    rwa [Finset.card_range]
  rw [Finset.mem_range] at low
  refine ⟨i, low, fun f lo hi => ?_⟩
  by_contra set
  have within : i * size + size ≤ windows * size := by
    calc i * size + size = (i + 1) * size := by ring
      _ ≤ windows * size := Nat.mul_le_mul_right _ low
  have spoils := h.used f (by omega) (by omega) (by simpa using set)
  have here : (f - first) / size = i := by
    rw [Nat.div_eq_iff (by omega)]
    constructor
    · rw [Nat.mul_comm] at *
      omega
    · omega
  rw [here] at spoils
  exact clean spoils

theorem Windows.allocPage (h : Windows first size windows spoilt p) (sized : 0 < size)
    (few : spoilt.card < windows) :
    (pmmAllocPage p).2 ≠ 0 ∧ (pmmAllocPage p).1.exhausted = p.exhausted ∧
      Windows first size windows (insert (((pmmAllocPage p).2 - first) / size) spoilt) (pmmAllocPage p).1 := by
  have zero : Held p 0 := fun _ => h.zero.2
  obtain ⟨i, low, free⟩ := h.free few
  have within : i * size + size ≤ windows * size := by
    calc i * size + size = (i + 1) * size := by ring
      _ ≤ windows * size := Nat.mul_le_mul_right _ low
  have inside := h.inside
  have ok : (pmmAllocPage p).2 ≠ 0 := by
    intro failed
    have full := (pmmAllocPage_zero zero failed).1 (first + i * size) (by omega)
    rw [free _ le_rfl (by omega)] at full
    cases full
  obtain ⟨bound, -, after⟩ := pmmAllocPage_fresh ok
  have bits : ∀ f, (pmmAllocPage p).1.bitmap f = true → f = (pmmAllocPage p).2 ∨ p.bitmap f = true := by
    intro f set
    rw [after] at set
    by_cases same : f = (pmmAllocPage p).2
    · exact .inl same
    · exact .inr (by simpa [Pmm.take, same] using set)
  have grown := pmmAllocPage_grown p
  refine ⟨ok, ?_, ⟨⟨?_, (grown.used 0 h.zero.2).1⟩, ?_, fun f lo hi set => ?_⟩⟩
  · rw [after]
    simp [Pmm.take, ok]
  · rw [grown.total]
    exact h.zero.1
  · rw [grown.total]
    exact inside
  · rcases bits f set with rfl | set
    · exact Finset.mem_insert_self _ _
    · exact Finset.mem_insert_of_mem (h.used f lo hi set)

theorem Windows.allocPages (h : Windows first size windows spoilt p) {n : Nat} (sized : 0 < n)
    (fits : n ≤ size) (few : spoilt.card < windows) :
    (pmmAllocPages p n).2 ≠ 0 ∧
      ∃ a b, Windows first size windows (insert a (insert b spoilt)) (pmmAllocPages p n).1 := by
  obtain ⟨i, low, free⟩ := h.free few
  have within : i * size + size ≤ windows * size := by
    calc i * size + size = (i + 1) * size := by ring
      _ ≤ windows * size := Nat.mul_le_mul_right _ low
  have inside := h.inside
  have grown := pmmAllocPages_grown p n
  rcases pmmAllocPages_cases p n with e | ⟨start, -, bound, clear, e⟩
  · -- the search has not failed
    exfalso
    rw [pmmAllocPages, if_neg (by omega)] at e
    split at e
    · rename_i missed
      obtain ⟨f, lo, hi, set⟩ := searchRun_none sized (by omega) missed (Nat.zero_le (first + i * size)) (by omega)
      rw [free f lo (by omega)] at set
      cases set
    · rename_i start found
      have zero : start = 0 := congrArg Prod.snd e
      have set := h.zero.2
      rw [(searchRun_some found).2 0 (by omega) (by omega)] at set
      cases set
  · have nonzero : start ≠ 0 := by
      rintro rfl
      have set := h.zero.2
      rw [clear 0 le_rfl (by omega)] at set
      cases set
    refine ⟨by rw [e]; exact nonzero, (start - first) / size, (start + n - 1 - first) / size,
      ⟨⟨?_, (grown.used 0 h.zero.2).1⟩, ?_, fun f lo hi set => ?_⟩⟩
    · rw [grown.total]
      exact h.zero.1
    · rw [grown.total]
      exact inside
    · rw [e] at set
      dsimp only at set
      split at set
      · rename_i mine
        -- a page of the block is in the window of its first page or in that of its last
        have upper : (f - first) / size ≤ (start + n - 1 - first) / size :=
          Nat.div_le_div_right (by omega)
        have lower : (start - first) / size ≤ (f - first) / size := Nat.div_le_div_right (by omega)
        have close : (start + n - 1 - first) / size ≤ (start - first) / size + 1 := by
          rw [← Nat.add_div_right _ (by omega : 0 < size)]
          exact Nat.div_le_div_right (by omega)
        rw [Finset.mem_insert, Finset.mem_insert]
        omega
      · exact Finset.mem_insert_of_mem (Finset.mem_insert_of_mem (h.used f lo hi set))

/-- So far `c` windows are spoilt at most, and no allocation has failed. -/
def Spoilt (first size windows c : Nat) (s : Vm) : Prop :=
  s.pmm.exhausted = false ∧ ∃ spoilt, spoilt.card ≤ c ∧ Windows first size windows spoilt s.pmm

theorem Spoilt.more {c c' : Nat} (h : Spoilt first size windows c s) (le : c ≤ c') :
    Spoilt first size windows c' s := by
  obtain ⟨fine, spoilt, few, w⟩ := h
  exact ⟨fine, spoilt, few.trans le, w⟩

theorem Spoilt.table {c : Nat} (h : Spoilt first size windows c s) (sized : 0 < size) (few : c < windows)
    (f i : Nat) : Spoilt first size windows (c + 1) (getOrCreateTable s f i).1 := by
  unfold getOrCreateTable
  split
  · exact h.more (Nat.le_succ c)
  · obtain ⟨fine, spoilt, card, w⟩ := h
    obtain ⟨-, flag, w'⟩ := w.allocPage sized (by omega)
    refine ⟨flag.trans fine, _, ?_, w'⟩
    have := Finset.card_insert_le (((pmmAllocPage s.pmm).2 - first) / size) spoilt
    omega

theorem Spoilt.map {c : Nat} (h : Spoilt first size windows c s) (sized : 0 < size) (few : c + 2 < windows)
    (pml4 : Nat) (v : Word) (f : Nat) (flags : Word) :
    Spoilt first size windows (c + 3) (vmmMap4kIn s pml4 v f flags) := by
  unfold vmmMap4kIn
  dsimp only
  have ha := h.table sized (by omega) pml4 (pml4Idx v)
  have hb := ha.table sized (by omega) (getOrCreateTable s pml4 (pml4Idx v)).2 (pdptIdx v)
  exact hb.table sized few _ (pdIdx v)

theorem Spoilt.mapPages {c n : Nat} (h : Spoilt first size windows c s) (sized : 0 < size)
    (few : c + 3 * n ≤ windows) (pml4 : Nat) (base flags : Word) (phys : Nat) :
    Spoilt first size windows (c + 3 * n) (mapPages pml4 base flags phys n s) := by
  induction n with
  | zero => exact h
  | succ n ih =>
    rw [mapPages_succ]
    exact ((ih (by omega)).map sized (by omega) _ _ _ _).more (by omega)

end Windows

end Isunux
