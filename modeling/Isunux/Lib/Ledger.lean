import Mathlib.Data.Finset.Card
import Mathlib.Tactic

/-! A reference-counted pool against a ledger of references. The ledger is the
ghost list of who refers to which cell; the pool stores only a used bit and a
counter. Exclusive references are never shared. -/
namespace Ledger

variable {R : Type*}

/-- How many references of the ledger point at the cell. -/
def held (L : Finset (R × Nat)) (f : Nat) : Nat := (L.filter fun e => e.2 = f).card

/-- The used bits and counters of the cells in scope are exactly the ledger. -/
structure Balanced (sole : R → Prop) (scope : Nat → Prop) (used : Nat → Bool) (count : Nat → Nat)
    (L : Finset (R × Nat)) : Prop where
  within : ∀ e ∈ L, scope e.2
  used_iff : ∀ f, scope f → (used f = true ↔ 0 < held L f)
  counted : ∀ f, 0 < held L f → count f = held L f
  single : ∀ e ∈ L, sole e.1 → held L e.2 = 1

theorem held_pos {L : Finset (R × Nat)} {f : Nat} : 0 < held L f ↔ ∃ r, (r, f) ∈ L := by
  rw [held, Finset.card_pos]
  constructor
  · rintro ⟨⟨r, g⟩, h⟩
    obtain ⟨mem, rfl⟩ := Finset.mem_filter.mp h
    exact ⟨r, mem⟩
  · rintro ⟨r, mem⟩
    exact ⟨(r, f), Finset.mem_filter.mpr ⟨mem, rfl⟩⟩

theorem held_insert [DecidableEq R] {L : Finset (R × Nat)} {r : R} {f : Nat} (fresh : (r, f) ∉ L) (g : Nat) :
    held (insert (r, f) L) g = held L g + if f = g then 1 else 0 := by
  unfold held
  rw [Finset.filter_insert]
  by_cases h : f = g
  · simp only [h, if_true]
    rw [Finset.card_insert_of_notMem]
    intro mem
    exact fresh (h ▸ (Finset.mem_filter.mp mem).1)
  · simp [h]

theorem held_erase [DecidableEq R] {L : Finset (R × Nat)} {r : R} {f : Nat} (mem : (r, f) ∈ L) (g : Nat) :
    held (L.erase (r, f)) g + (if f = g then 1 else 0) = held L g := by
  have h := held_insert (L := L.erase (r, f)) (r := r) (f := f) (Finset.notMem_erase _ _) g
  rw [Finset.insert_erase mem] at h
  exact h.symm

theorem eq_of_held_one {L : Finset (R × Nat)} {r s : R} {f : Nat} (one : held L f = 1)
    (hr : (r, f) ∈ L) (hs : (s, f) ∈ L) : r = s := by
  obtain ⟨e, he⟩ := Finset.card_eq_one.mp one
  have h₁ : (r, f) ∈ L.filter fun e => e.2 = f := Finset.mem_filter.mpr ⟨hr, rfl⟩
  have h₂ : (s, f) ∈ L.filter fun e => e.2 = f := Finset.mem_filter.mpr ⟨hs, rfl⟩
  rw [he, Finset.mem_singleton] at h₁ h₂
  exact congrArg Prod.fst (h₁.trans h₂.symm)

section Moves

variable {sole : R → Prop} {scope : Nat → Prop} {used : Nat → Bool} {count : Nat → Nat}
  {L : Finset (R × Nat)}

theorem Balanced.unique (b : Balanced sole scope used count L) {r s : R} {f : Nat}
    (hr : (r, f) ∈ L) (hs : (s, f) ∈ L) (hsole : sole r) : r = s :=
  eq_of_held_one (b.single (r, f) hr hsole) hr hs

theorem Balanced.not_mem_of_unused (b : Balanced sole scope used count L) {f : Nat}
    (free : used f = false) (r : R) : (r, f) ∉ L := by
  intro mem
  have pos := (b.used_iff f (b.within _ mem)).mpr (held_pos.mpr ⟨r, mem⟩)
  rw [free] at pos
  cases pos

theorem Balanced.used_of_mem (b : Balanced sole scope used count L) {r : R} {f : Nat}
    (mem : (r, f) ∈ L) : used f = true :=
  (b.used_iff f (b.within _ mem)).mpr (held_pos.mpr ⟨r, mem⟩)

variable [DecidableEq R]

theorem Balanced.take (b : Balanced sole scope used count L) {f : Nat} (r : R)
    (inScope : scope f) (free : used f = false) :
    Balanced sole scope (Function.update used f true) (Function.update count f 1)
      (insert (r, f) L) := by
  have fresh := b.not_mem_of_unused free
  have zero : held L f = 0 := by
    by_contra h
    obtain ⟨s, hs⟩ := held_pos.mp (Nat.pos_of_ne_zero h)
    exact fresh s hs
  refine ⟨?_, ?_, ?_, ?_⟩
  · intro e he
    rcases Finset.mem_insert.mp he with rfl | he
    · exact inScope
    · exact b.within e he
  · intro g hg
    rw [held_insert (fresh r)]
    by_cases h : f = g
    · subst h; simp
    · simpa [h, Function.update_of_ne (Ne.symm h)] using b.used_iff g hg
  · intro g hg
    rw [held_insert (fresh r)] at hg ⊢
    by_cases h : f = g
    · subst h; simp [zero]
    · simp only [h, if_false, Nat.add_zero, Function.update_of_ne (Ne.symm h)] at hg ⊢
      exact b.counted g hg
  · intro e he hsole
    rw [held_insert (fresh r)]
    rcases Finset.mem_insert.mp he with rfl | he
    · simp [zero]
    · have hne : f ≠ e.2 := by
        intro h
        exact fresh e.1 (h ▸ he)
      simpa [hne] using b.single e he hsole

/-- Sharing a used cell adds a reference, provided none of its references is
exclusive. -/
theorem Balanced.share (b : Balanced sole scope used count L) {r s : R} {f : Nat}
    (mem : (s, f) ∈ L) (fresh : (r, f) ∉ L) (plain : ¬ sole r)
    (open' : ∀ t, (t, f) ∈ L → ¬ sole t) :
    Balanced sole scope used (Function.update count f (count f + 1)) (insert (r, f) L) := by
  have pos : 0 < held L f := held_pos.mpr ⟨s, mem⟩
  refine ⟨?_, ?_, ?_, ?_⟩
  · intro e he
    rcases Finset.mem_insert.mp he with rfl | he
    · exact b.within (s, f) mem
    · exact b.within e he
  · intro g hg
    rw [held_insert fresh, b.used_iff g hg]
    by_cases h : f = g
    · subst h; simp [pos]
    · simp [h]
  · intro g hg
    rw [held_insert fresh] at hg ⊢
    by_cases h : f = g
    · subst h; simp [b.counted f pos]
    · simp only [h, if_false, Nat.add_zero, Function.update_of_ne (Ne.symm h)] at hg ⊢
      exact b.counted g hg
  · intro e he hsole
    rw [held_insert fresh]
    rcases Finset.mem_insert.mp he with rfl | he
    · exact False.elim (plain hsole)
    · have hne : f ≠ e.2 := by
        intro h
        exact open' e.1 (h ▸ he) hsole
      simpa [hne] using b.single e he hsole

theorem Balanced.drop_shared (b : Balanced sole scope used count L) {r : R} {f : Nat}
    (mem : (r, f) ∈ L) (many : 1 < count f) :
    Balanced sole scope used (Function.update count f (count f - 1)) (L.erase (r, f)) := by
  have pos : 0 < held L f := held_pos.mpr ⟨r, mem⟩
  have hc := b.counted f pos
  have hf := held_erase mem f
  rw [if_pos rfl] at hf
  refine ⟨?_, ?_, ?_, ?_⟩
  · intro e he
    exact b.within e (Finset.mem_of_mem_erase he)
  · intro g hg
    rw [b.used_iff g hg, ← held_erase mem g]
    by_cases h : f = g
    · subst h; simp only [if_true]; omega
    · simp [h]
  · intro g hg
    by_cases h : f = g
    · subst h; simp only [Function.update_self]; omega
    · have he := held_erase mem g
      simp only [h, if_false, Nat.add_zero] at he
      rw [Function.update_of_ne (Ne.symm h), he]
      exact b.counted g (he ▸ hg)
  · intro e he hsole
    have hone := b.single e (Finset.mem_of_mem_erase he) hsole
    by_cases h : f = e.2
    · rw [← h] at hone
      omega
    · have heq := held_erase mem e.2
      simp only [h, if_false, Nat.add_zero] at heq
      rw [heq, hone]

theorem Balanced.drop_last (b : Balanced sole scope used count L) {r : R} {f : Nat}
    (mem : (r, f) ∈ L) (few : count f ≤ 1) (c : Nat) :
    Balanced sole scope (Function.update used f false) (Function.update count f c)
      (L.erase (r, f)) := by
  have pos : 0 < held L f := held_pos.mpr ⟨r, mem⟩
  have hc := b.counted f pos
  have hf := held_erase mem f
  rw [if_pos rfl] at hf
  have other : ∀ g, f ≠ g → held (L.erase (r, f)) g = held L g := by
    intro g h
    have he := held_erase mem g
    simpa [h] using he
  have gone : held (L.erase (r, f)) f = 0 := by omega
  refine ⟨?_, ?_, ?_, ?_⟩
  · intro e he
    exact b.within e (Finset.mem_of_mem_erase he)
  · intro g hg
    by_cases h : f = g
    · subst h; simp [gone]
    · rw [Function.update_of_ne (Ne.symm h), other g h]
      exact b.used_iff g hg
  · intro g hg
    by_cases h : f = g
    · subst h; omega
    · rw [Function.update_of_ne (Ne.symm h), other g h]
      exact b.counted g (other g h ▸ hg)
  · intro e he hsole
    have hne : f ≠ e.2 := by
      intro h
      have := held_pos.mpr ⟨e.1, he⟩
      rw [← h] at this
      omega
    rw [other e.2 hne]
    exact b.single e (Finset.mem_of_mem_erase he) hsole

end Moves

end Ledger
