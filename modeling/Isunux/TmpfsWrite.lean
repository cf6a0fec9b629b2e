import Isunux.TmpfsBytes

/-! `tmpfs_file_write` on every 64-bit offset and count. The sum of the two and the
product in the doubling loop wrap, so a large count can pass for a small one, and the
loop can miss its mark for ever. -/
namespace Isunux

section Doubling

variable {needed pages : Word} {fuel : Nat}

theorem double_bytes (pages : Word) (k : Nat) :
    ((pages * 2#64).toNat * 4096 * 2 ^ k) % 2 ^ 64 = (pages.toNat * 4096 * 2 ^ (k + 1)) % 2 ^ 64 := by
  rw [BitVec.toNat_mul, BitVec.toNat_ofNat, Nat.mul_assoc, Nat.mod_mul_mod, pow_succ]
  congr 1
  ring

theorem growPages_none_iff : growPages needed fuel pages = none ↔
    ∀ k < fuel, (pages.toNat * 4096 * 2 ^ k) % 2 ^ 64 < needed.toNat := by
  induction fuel generalizing pages with
  | zero => simp [growPages]
  | succ fuel ih =>
    have first : pages * 4096#64 < needed ↔ (pages.toNat * 4096 * 2 ^ 0) % 2 ^ 64 < needed.toNat := by
      rw [BitVec.lt_def, BitVec.toNat_mul, pow_zero, Nat.mul_one]
      rfl
    rw [growPages]
    by_cases short : pages * 4096#64 < needed
    · rw [if_pos short, ih]
      constructor
      · intro later k below
        cases k with
        | zero => exact first.mp short
        | succ k =>
          rw [← double_bytes]
          exact later k (by omega)
      · intro all k below
        rw [double_bytes]
        exact all (k + 1) (by omega)
    · rw [if_neg short]
      constructor
      · intro none
        cases none
      · intro all
        exact absurd (first.mpr (all 0 (by omega))) short

theorem growPages_enough {r : Word} (grown : growPages needed fuel pages = some r) : needed ≤ r * 4096#64 := by
  induction fuel generalizing pages with
  | zero => cases grown
  | succ fuel ih =>
    rw [growPages] at grown
    by_cases short : pages * 4096#64 < needed
    · rw [if_pos short] at grown
      exact ih grown
    · rw [if_neg short] at grown
      cases grown
      exact BitVec.not_lt.mp short

/-- Doubling the pages of a buffer reaches a size at some time. -/
def DoublingReaches (n : TmpfsNode) (needed : Word) : Prop :=
  ∃ k, needed.toNat ≤ (max 1 n.pages * 4096 * 2 ^ k) % 2 ^ 64

/-- If 65 rounds do not reach it no number of rounds does: the product is 0 by then. -/
theorem pagesWanted_ends {n : TmpfsNode} {count offset : Word} (short : n.capacity < offset + count) :
    (∃ r, pagesWanted n count offset = some r) ↔ DoublingReaches n (offset + count) := by
  have start : (if n.capacity / 4096#64 = 0#64 then 1#64 else n.capacity / 4096#64).toNat = max 1 n.pages := by
    have quotient : (n.capacity / 4096#64).toNat = n.pages := by
      rw [BitVec.toNat_udiv]
      rfl
    by_cases none : n.capacity / 4096#64 = 0#64
    · rw [if_pos none, ← quotient, none]
      rfl
    · rw [if_neg none, quotient]
      have : (n.capacity / 4096#64).toNat ≠ 0 := fun zero => none (BitVec.eq_of_toNat_eq zero)
      omega
  rw [← Option.isSome_iff_exists, ← Option.ne_none_iff_isSome, ne_eq, pagesWanted, growPages_none_iff, start]
  rw [BitVec.lt_def] at short
  constructor
  · intro some
    push Not at some
    obtain ⟨k, -, reached⟩ := some
    exact ⟨k, reached⟩
  · rintro ⟨k, reached⟩ never
    by_cases early : k < 65
    · exact absurd (never k early) (by omega)
    · have wrapped : (max 1 n.pages * 4096 * 2 ^ k) % 2 ^ 64 = 0 := by
        rw [show k = 64 + (k - 64) by omega, pow_add]
        exact Nat.mod_eq_zero_of_dvd ⟨max 1 n.pages * 4096 * 2 ^ (k - 64), by ring⟩
      omega

/-- From a power of two, as in every file that tmpfs makes, half the address space is
reached and no more. -/
theorem doublingReaches_iff {n : TmpfsNode} {m : Nat} (power : n.pages = 2 ^ m) (small : m < 52) :
    DoublingReaches n needed ↔ needed.toNat ≤ 2 ^ 63 := by
  have size : ∀ k, max 1 n.pages * 4096 * 2 ^ k = 2 ^ (m + 12 + k) := by
    intro k
    rw [power, Nat.max_eq_right Nat.one_le_two_pow, show 4096 = 2 ^ 12 by rfl, ← pow_add, ← pow_add]
  unfold DoublingReaches
  simp only [size]
  constructor
  · rintro ⟨k, reached⟩
    by_cases below : m + 12 + k < 64
    · exact reached.trans ((Nat.mod_le _ _).trans (Nat.pow_le_pow_right (by omega) (by omega)))
    · rw [Nat.mod_eq_zero_of_dvd (pow_dvd_pow 2 (by omega))] at reached
      omega
  · intro half
    refine ⟨51 - m, ?_⟩
    rw [show m + 12 + (51 - m) = 63 by omega]
    exact half

end Doubling

section Writing

variable {F : Type} {s : Files F} {i : Nat} {count offset : Word}

/-- How a call of `tmpfs_file_write` ends: with a byte loop of so many rounds, or with
`-ENOMEM` before it. -/
inductive WriteEnd (F : Type) where
  | loop (s : Files F) (len : Word)
  | refused (s : Files F)

/-- The call up to that point, or nothing when the doubling loop does not end. -/
def writeEnd (s : Files F) (i : Nat) (count offset : Word) : Option (WriteEnd F) :=
  let n := s.tmp.nodes i
  if n.capacity < offset + count then
    (pagesWanted n count offset).map fun pages =>
      match growFile s i pages with
      | some grown => .loop grown count
      | none =>
        let s := { s with pmm := (pmmAllocPages s.pmm pages.toNat).1 }
        if n.capacity < offset then .refused s
        else .loop s (if count < n.capacity - offset then count else n.capacity - offset)
  else some (.loop s count)

/-- What the call then leaves and returns: the rounds of its byte loop, or `-ENOMEM`. -/
def WriteEnd.result (i : Nat) (offset : Word) (src : Nat → BitVec 8) : WriteEnd F → Files F × Int
  | .loop t len => (putBytes t i offset src len, len.toInt)
  | .refused t => (t, -enomem)

theorem tmpfsFileWrite_ends (src : Nat → BitVec 8) :
    tmpfsFileWrite s i src count offset = (writeEnd s i count offset).map (WriteEnd.result i offset src) := by
  unfold tmpfsFileWrite writeEnd
  dsimp only
  by_cases short : (s.tmp.nodes i).capacity < offset + count
  · rw [if_pos short, if_pos short, Option.map_map]
    unfold pagesWanted
    congr 1
    funext pages
    rw [Function.comp_apply]
    cases growFile s i pages with
    | some grown => rfl
    | none =>
      dsimp only
      by_cases beyond : (s.tmp.nodes i).capacity < offset
      · rw [if_pos beyond, if_pos beyond]
        rfl
      · rw [if_neg beyond, if_neg beyond]
        rfl
  · rw [if_neg short, if_neg short, Option.map_some]
    rfl

/-- Every index that is stored to lies inside the buffer: those of the copy into a larger
buffer, and those of the byte loop. -/
def WriteEnd.InBounds (s : Files F) (i : Nat) (count offset : Word) : WriteEnd F → Prop
  | .loop t len => (s.tmp.nodes i).size ≤ (t.tmp.nodes i).capacity ∧ len ≤ count ∧
      ∀ j < len.toNat, storeIndex offset j < (t.tmp.nodes i).capacity.toNat
  | .refused _ => True

/-- The call returns, has stayed inside the buffer and reports what it has stored. -/
def WriteMeets (s : Files F) (i : Nat) (count offset : Word) : Prop :=
  ∃ e, writeEnd s i count offset = some e ∧ e.InBounds s i count offset ∧
    ∀ src, tmpfsFileWrite s i src count offset = some (e.result i offset src)

theorem writeMeets_iff : WriteMeets s i count offset ↔
    ∃ e, writeEnd s i count offset = some e ∧ e.InBounds s i count offset := by
  constructor
  · rintro ⟨e, ends, inside, -⟩
    exact ⟨e, ends, inside⟩
  · rintro ⟨e, ends, inside⟩
    refine ⟨e, ends, inside, fun src => ?_⟩
    rw [tmpfsFileWrite_ends, ends, Option.map_some]

/-- When it does: a write that needs no larger buffer ends below 2^64; one that needs it
asks for a size that doubling reaches, and ends below 2^64 too unless the allocator
refuses. -/
def WriteServed (s : Files F) (i : Nat) (count offset : Word) : Prop :=
  if (s.tmp.nodes i).capacity < offset + count then
    DoublingReaches (s.tmp.nodes i) (offset + count) ∧
      (offset.toNat + count.toNat < 2 ^ 64 ∨ refusesGrowth s i count offset = true)
  else offset.toNat + count.toNat < 2 ^ 64

/-- The byte loop stays below a capacity that the end of the write does not exceed,
unless that end wraps. -/
theorem storeIndex_below_iff {capacity : Word} (room : offset + count ≤ capacity) :
    (∀ j < count.toNat, storeIndex offset j < capacity.toNat) ↔ offset.toNat + count.toNat < 2 ^ 64 := by
  have bounded := capacity.isLt
  have first := offset.isLt
  constructor
  · intro below
    by_contra wraps
    -- the round that stores at the very last index
    have last := below (2 ^ 64 - 1 - offset.toNat) (by omega)
    rw [storeIndex_eq (by omega)] at last
    omega
  · intro fits j inside
    rw [BitVec.le_def, BitVec.toNat_add, Nat.mod_eq_of_lt fits] at room
    rw [storeIndex_eq (by omega)]
    omega

theorem growFile_none_iff {pages : Word} : growFile s i pages = none ↔ (pmmAllocPages s.pmm pages.toNat).2 = 0 := by
  unfold growFile
  dsimp only
  by_cases refused : (pmmAllocPages s.pmm pages.toNat).2 = 0
  · rw [if_pos refused]
    exact ⟨fun _ => refused, fun _ => rfl⟩
  · rw [if_neg refused]
    exact ⟨nofun, fun zero => absurd zero refused⟩

theorem growFile_capacity {pages : Word} {t : Files F} (grew : growFile s i pages = some t) :
    (t.tmp.nodes i).capacity = pages * 4096#64 := by
  unfold growFile at grew
  dsimp only at grew
  by_cases refused : (pmmAllocPages s.pmm pages.toNat).2 = 0
  · rw [if_pos refused] at grew
    cases grew
  · rw [if_neg refused] at grew
    cases grew
    dsimp only [Tmpfs.set]
    rw [Function.update_self]

theorem shortWrite_inBounds (fits : (s.tmp.nodes i).Fits) (t : Files F) (same : t.tmp = s.tmp) :
    WriteEnd.InBounds s i count offset (if (s.tmp.nodes i).capacity < offset then .refused t
      else .loop t (if count < (s.tmp.nodes i).capacity - offset then count else (s.tmp.nodes i).capacity - offset)) := by
  by_cases beyond : (s.tmp.nodes i).capacity < offset
  · rw [if_pos beyond]
    trivial
  · rw [if_neg beyond]
    have bounded := (s.tmp.nodes i).capacity.isLt
    have space := BitVec.toNat_sub_of_le (BitVec.not_lt.mp beyond)
    rw [BitVec.lt_def] at beyond
    refine ⟨?_, ?_, fun j inside => ?_⟩
    · rw [same, BitVec.le_def]
      exact fits
    · by_cases less : count < (s.tmp.nodes i).capacity - offset
      · rw [if_pos less]
        exact BitVec.le_refl _
      · rw [if_neg less]
        exact BitVec.not_lt.mp less
    · have room : j < ((s.tmp.nodes i).capacity - offset).toNat := by
        by_cases less : count < (s.tmp.nodes i).capacity - offset
        · rw [if_pos less] at inside
          exact inside.trans (BitVec.lt_def.mp less)
        · rw [if_neg less] at inside
          exact inside
      rw [same, storeIndex_eq (by omega)]
      omega

/-- `tmpfs_file_write` returns and stays inside the buffer exactly where neither its sum
wraps unnoticed nor its doubling loop runs on for ever. -/
theorem tmpfs_write_meets_iff (fits : (s.tmp.nodes i).Fits) :
    WriteMeets s i count offset ↔ WriteServed s i count offset := by
  rw [writeMeets_iff]
  unfold WriteServed writeEnd
  dsimp only
  by_cases short : (s.tmp.nodes i).capacity < offset + count
  · rw [if_pos short, if_pos short, ← pagesWanted_ends short]
    cases wanted : pagesWanted (s.tmp.nodes i) count offset with
    | none => simp
    | some pages =>
      have room := growPages_enough wanted
      rw [Option.map_some]
      cases grew : growFile s i pages with
      | none =>
        have refused : refusesGrowth s i count offset = true := by
          rw [refusesGrowth, wanted]
          simp [short, growFile_none_iff.mp grew]
        exact ⟨fun _ => ⟨⟨pages, rfl⟩, .inr refused⟩, fun _ => ⟨_, rfl, shortWrite_inBounds fits _ rfl⟩⟩
      | some t =>
        have capacity := growFile_capacity grew
        have served : refusesGrowth s i count offset = false := by
          have nonzero : (pmmAllocPages s.pmm pages.toNat).2 ≠ 0 := by
            rw [ne_eq, ← growFile_none_iff (i := i), grew]
            exact Option.some_ne_none t
          rw [refusesGrowth, wanted]
          simp [nonzero]
        have larger : (s.tmp.nodes i).size ≤ pages * 4096#64 := by
          unfold TmpfsNode.Fits at fits
          rw [BitVec.lt_def] at short
          rw [BitVec.le_def] at room ⊢
          omega
        rw [served]
        constructor
        · rintro ⟨e, same, inside⟩
          cases same
          have below := inside.2.2
          rw [capacity] at below
          exact ⟨⟨pages, rfl⟩, .inl ((storeIndex_below_iff room).mp below)⟩
        · rintro ⟨-, ends⟩
          refine ⟨_, rfl, capacity ▸ larger, BitVec.le_refl _, ?_⟩
          rw [capacity]
          exact (storeIndex_below_iff room).mpr (ends.resolve_right (by simp))
  · rw [if_neg short, if_neg short]
    have room := BitVec.not_lt.mp short
    constructor
    · rintro ⟨e, same, inside⟩
      cases same
      exact (storeIndex_below_iff room).mp inside.2.2
    · intro ends
      exact ⟨_, rfl, BitVec.le_def.mpr fits, BitVec.le_refl _, (storeIndex_below_iff room).mpr ends⟩

end Writing

def newFile : Files Unit := (tmpfsCreateFile ⟨tmpfsInit, eightPages, fun _ _ => 0#64, (), 0, 0⟩ 0 ['a']).1

theorem newFile_fits : (newFile.tmp.nodes 1).Fits := by
  unfold TmpfsNode.Fits
  decide +kernel

theorem tmpfs_write_meets_page : WriteMeets newFile 1 5000#64 0#64 := by
  refine (tmpfs_write_meets_iff newFile_fits).mpr ?_
  rw [WriteServed, if_pos (by decide +kernel)]
  exact ⟨(doublingReaches_iff (m := 0) (by decide +kernel) (by decide)).mpr (by decide), .inl (by decide)⟩

/-- A count above 2^63 keeps the doubling loop running for ever, and one that wraps past
the end of a new file is stored all over memory. -/
theorem tmpfs_write_misses :
    (newFile.tmp.nodes 1).Fits ∧ ¬ WriteMeets newFile 1 0x8000000000000001#64 0#64 ∧
      ¬ WriteMeets newFile 1 0xFFFFFFFFFFFFFFFF#64 1#64 := by
  refine ⟨newFile_fits, ?_, ?_⟩
  · rintro ⟨e, returns, -⟩
    have never : writeEnd newFile 1 0x8000000000000001#64 0#64 = none := by
      rw [writeEnd, if_pos (by decide +kernel), Option.map_eq_none_iff]
      decide +kernel
    rw [never] at returns
    cases returns
  · rintro ⟨e, returns, inside, -⟩
    rw [writeEnd, if_neg (by decide +kernel)] at returns
    cases returns
    exact absurd (inside.2.2 4096 (by decide)) (by decide +kernel)

end Isunux
