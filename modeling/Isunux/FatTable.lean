import Isunux.Fat
import Isunux.Lib.Run
import Isunux.Lib.Chain

/-! The file allocation table, on a disk whose calls all succeed: what the driver reads
back after it has written, and the chains that the entries spell. -/
namespace Isunux

/-- Every coming ATA call succeeds. -/
def Fat.Calm (s : Fat) : Prop := s.outcomes = fun _ => .done

def Fat.withDisk (s : Fat) (disk : Nat → Sector) : Fat := { s with disk := disk }

section Calls

variable {s : Fat} {disk : Nat → Sector}

@[simp] theorem withDisk_disk : (s.withDisk disk).disk = disk := rfl
@[simp] theorem withDisk_nodes : (s.withDisk disk).nodes = s.nodes := rfl
@[simp] theorem withDisk_count : (s.withDisk disk).count = s.count := rfl
@[simp] theorem withDisk_self : s.withDisk s.disk = s := rfl
@[simp] theorem withDisk_withDisk {disk' : Nat → Sector} :
    (s.withDisk disk).withDisk disk' = s.withDisk disk' := rfl

theorem Fat.Calm.withDisk (h : s.Calm) : (s.withDisk disk).Calm := h

theorem Fat.Calm.tick (h : s.Calm) : s.tick = s := by
  obtain ⟨disk, nodes, count, outcomes⟩ := s
  obtain rfl : outcomes = _ := h
  rfl

theorem ataReadSector_calm (h : s.Calm) (lba : Nat) : ataReadSector s lba = (s, some (s.disk lba)) := by
  unfold ataReadSector
  rw [h.tick, h, if_pos rfl]

theorem ataWriteSector_calm (h : s.Calm) (lba : Nat) (sector : Sector) :
    ataWriteSector s lba sector = (s.withDisk (Function.update s.disk lba sector), true) := by
  unfold ataWriteSector
  rw [h.tick, h]
  rfl

end Calls

section Table

variable (g : Geometry)

/-- An entry of the first copy of the table. -/
def fatEntry (disk : Nat → Sector) (cluster : Nat) : Nat :=
  read16 (disk (g.firstFatSector + cluster * 2 / 512)) (cluster * 2 % 512)

/-- The disk with an entry written in every copy of the table. -/
def setEntry (disk : Nat → Sector) (cluster value : Nat) : Nat → Sector :=
  (List.range g.numFats).foldl (fun disk copy =>
    let lba := g.firstFatSector + copy * g.fatSize16 + cluster * 2 / 512
    Function.update disk lba (patch (disk lba) (cluster * 2 % 512) [byteOf value 0, byteOf value 1])) disk

variable {g} {s : Fat} {disk : Nat → Sector}

theorem fatNextCluster_calm (h : s.Calm) (cluster : Nat) :
    fatNextCluster g s cluster = (s, fatEntry g s.disk cluster) := by
  unfold fatNextCluster
  rw [ataReadSector_calm h]
  rfl

theorem fatWriteFatEntry_calm (h : s.Calm) (cluster value : Nat) :
    fatWriteFatEntry g s cluster value = s.withDisk (setEntry g s.disk cluster value) := by
  unfold fatWriteFatEntry writeCopies setEntry
  generalize List.range g.numFats = copies
  induction copies generalizing s with
  | nil => rfl
  | cons copy rest ih =>
    rw [List.foldl_cons, List.foldl_cons]
    dsimp only
    rw [ataReadSector_calm h]
    dsimp only
    rw [ataWriteSector_calm h, ih h.withDisk]
    rfl

theorem read16_lt (b : Nat → BitVec 8) (i : Nat) : read16 b i < 2 ^ 16 := by
  have lo := (b i).isLt
  have hi := (b (i + 1)).isLt
  unfold read16
  omega

theorem read16_patch_self (b : Nat → BitVec 8) (i value : Nat) :
    read16 (patch b i [byteOf value 0, byteOf value 1]) i = value % 2 ^ 16 := by
  simp [read16, patch, byteOf]
  omega

theorem read16_patch_other {b : Nat → BitVec 8} {i j : Nat} {bytes : List (BitVec 8)}
    (apart : j + 1 < i ∨ i + bytes.length ≤ j) : read16 (patch b i bytes) j = read16 b j := by
  unfold read16 patch
  rw [if_neg (by omega), if_neg (by omega)]

def copyEntry (g : Geometry) (disk : Nat → Sector) (copy cluster : Nat) : Nat :=
  read16 (disk (g.firstFatSector + copy * g.fatSize16 + cluster * 2 / 512)) (cluster * 2 % 512)

theorem copyEntry_zero (cluster : Nat) : copyEntry g disk 0 cluster = fatEntry g disk cluster := by
  rw [copyEntry, Nat.zero_mul, Nat.add_zero, fatEntry]

theorem copy_apart {j k : Nat} (other : j ≠ k) {x y : Nat} (inX : x < g.fatSize16) (inY : y < g.fatSize16) :
    g.firstFatSector + k * g.fatSize16 + x ≠ g.firstFatSector + j * g.fatSize16 + y := by
  rcases Nat.lt_or_gt_of_ne other with less | more
  · have row : (j + 1) * g.fatSize16 ≤ k * g.fatSize16 := Nat.mul_le_mul_right _ less
    rw [Nat.add_mul, Nat.one_mul] at row
    omega
  · have row : (k + 1) * g.fatSize16 ≤ j * g.fatSize16 := Nat.mul_le_mul_right _ more
    rw [Nat.add_mul, Nat.one_mul] at row
    omega

theorem setEntry_copy {cluster value k x : Nat} (copies : k < g.numFats) (bound : cluster < g.totalEntries)
    (inside : x < g.fatSize16) :
    setEntry g disk cluster value (g.firstFatSector + k * g.fatSize16 + x) =
      if x = cluster * 2 / 512 then
        patch (disk (g.firstFatSector + k * g.fatSize16 + x)) (cluster * 2 % 512) [byteOf value 0, byteOf value 1]
      else disk (g.firstFatSector + k * g.fatSize16 + x) := by
  unfold Geometry.totalEntries at bound
  have loop := Run.range_rule
    (fun n (d : Nat → Sector) => d (g.firstFatSector + k * g.fatSize16 + x) =
      if k < n ∧ x = cluster * 2 / 512 then
        patch (disk (g.firstFatSector + k * g.fatSize16 + x)) (cluster * 2 % 512) [byteOf value 0, byteOf value 1]
      else disk (g.firstFatSector + k * g.fatSize16 + x))
    (fun disk copy =>
      let lba := g.firstFatSector + copy * g.fatSize16 + cluster * 2 / 512
      Function.update disk lba (patch (disk lba) (cluster * 2 % 512) [byteOf value 0, byteOf value 1]))
    g.numFats disk (by simp)
    (by
      intro copy _ d written
      dsimp only
      by_cases here : copy = k
      · subst here
        by_cases sector : x = cluster * 2 / 512
        · subst sector
          rw [Function.update_self, written]
          simp
        · rw [Function.update_of_ne (by omega), written]
          simp [sector]
      · rw [Function.update_of_ne (copy_apart here inside (by omega)), written]
        congr 1
        simp only [eq_iff_iff]
        omega)
  refine loop.trans ?_
  simp [copies]

theorem copyEntry_setEntry {cluster value c k : Nat} (copies : k < g.numFats) (bound : cluster < g.totalEntries)
    (bound' : c < g.totalEntries) :
    copyEntry g (setEntry g disk cluster value) k c =
      if c = cluster then value % 2 ^ 16 else copyEntry g disk k c := by
  have inside : c * 2 / 512 < g.fatSize16 := by
    unfold Geometry.totalEntries at bound'
    omega
  unfold copyEntry
  rw [setEntry_copy copies bound inside]
  by_cases same : c = cluster
  · subst same
    rw [if_pos rfl, if_pos rfl, read16_patch_self]
  · rw [if_neg same]
    split
    · rename_i sector
      rw [read16_patch_other]
      simp only [List.length_cons, List.length_nil]
      omega
    · rfl

theorem fatEntry_setEntry {cluster value c : Nat} (fats : 0 < g.numFats) (bound : cluster < g.totalEntries)
    (bound' : c < g.totalEntries) :
    fatEntry g (setEntry g disk cluster value) c = if c = cluster then value % 2 ^ 16 else fatEntry g disk c := by
  rw [← copyEntry_zero, ← copyEntry_zero]
  exact copyEntry_setEntry fats bound bound'

theorem setEntry_outside {cluster value lba : Nat} (bound : cluster < g.totalEntries)
    (outside : lba < g.firstFatSector ∨ g.firstRootDirSector ≤ lba) :
    setEntry g disk cluster value lba = disk lba := by
  unfold Geometry.firstRootDirSector at outside
  unfold Geometry.totalEntries at bound
  refine Run.foldl_rule (fun d : Nat → Sector => d lba = disk lba) _ _ disk rfl fun copy mem d same => ?_
  have below := List.mem_range.mp mem
  have row : copy * g.fatSize16 + g.fatSize16 ≤ g.numFats * g.fatSize16 := by
    calc copy * g.fatSize16 + g.fatSize16 = (copy + 1) * g.fatSize16 := by ring
      _ ≤ g.numFats * g.fatSize16 := Nat.mul_le_mul_right _ below
  rw [Function.update_of_ne (by omega)]
  exact same

/-! Allocation -/

/-- The cluster that `fat_alloc_cluster` takes. -/
def freeCluster (g : Geometry) (disk : Nat → Sector) : Option Nat :=
  (List.range' 2 (g.totalEntries - 2)).find? fun idx => fatEntry g disk idx == 0

theorem scanFat_calm (h : s.Calm) (xs : List Nat) {loaded : Option (Nat × Sector)}
    (current : ∀ num sector, loaded = some (num, sector) → sector = s.disk (g.firstFatSector + num)) :
    scanFat g xs loaded s =
      match xs.find? fun idx => fatEntry g s.disk idx == 0 with
      | none => (s, 0)
      | some idx => (s.withDisk (setEntry g s.disk idx fat16EocMin), idx) := by
  induction xs generalizing loaded with
  | nil => rfl
  | cons idx rest ih =>
    have place : ∀ sector, sector = s.disk (g.firstFatSector + idx / 256) →
        read16 sector (idx % 256 * 2) = fatEntry g s.disk idx := by
      rintro sector rfl
      unfold fatEntry
      rw [show idx * 2 / 512 = idx / 256 by omega, show idx * 2 % 512 = idx % 256 * 2 by omega]
    have look : ∀ sector, sector = s.disk (g.firstFatSector + idx / 256) →
        (if read16 sector (idx % 256 * 2) = 0 then (fatWriteFatEntry g s idx fat16EocMin, idx)
          else scanFat g rest (some (idx / 256, sector)) s) =
        match (idx :: rest).find? fun idx => fatEntry g s.disk idx == 0 with
        | none => (s, 0)
        | some idx => (s.withDisk (setEntry g s.disk idx fat16EocMin), idx) := by
      intro sector here
      rw [place sector here]
      by_cases free : fatEntry g s.disk idx = 0
      · rw [if_pos free, fatWriteFatEntry_calm h, List.find?_cons_of_pos (by simpa using free)]
      · rw [if_neg free, List.find?_cons_of_neg (by simpa using free)]
        refine ih fun num sector' eq => ?_
        cases eq
        exact here
    cases loaded with
    | none =>
      simp only [scanFat]
      rw [ataReadSector_calm h]
      exact look _ rfl
    | some pair =>
      obtain ⟨num, sector⟩ := pair
      simp only [scanFat]
      split
      · rename_i same
        exact look sector (same ▸ current num sector rfl)
      · rw [ataReadSector_calm h]
        exact look _ rfl

theorem fatAllocCluster_calm (h : s.Calm) :
    fatAllocCluster g s =
      match freeCluster g s.disk with
      | none => (s, 0)
      | some c => (s.withDisk (setEntry g s.disk c fat16EocMin), c) :=
  scanFat_calm h _ fun _ _ none => by cases none

theorem freeCluster_some {c : Nat} (h : freeCluster g disk = some c) :
    2 ≤ c ∧ c < g.totalEntries ∧ fatEntry g disk c = 0 := by
  have mem := List.mem_of_find?_eq_some h
  have free := List.find?_some h
  rw [List.mem_range'_1] at mem
  exact ⟨mem.1, by omega, by simpa using free⟩

theorem freeCluster_none (h : freeCluster g disk = none) {c : Nat} (low : 2 ≤ c) (high : c < g.totalEntries) :
    fatEntry g disk c ≠ 0 := by
  have all := List.find?_eq_none.mp h c (List.mem_range'_1.mpr ⟨low, by omega⟩)
  simpa using all

/-! Chains -/

/-- The cluster that an entry leads to. -/
def nextOf (g : Geometry) (disk : Nat → Sector) (c : Nat) : Option Nat :=
  if fat16EocMin ≤ fatEntry g disk c then none else some (fatEntry g disk c)

/-- Clusters that a chain may run through. -/
structure Cell (g : Geometry) (disk : Nat → Sector) (c : Nat) : Prop where
  low : 2 ≤ c
  bound : c < g.totalEntries
  short : c < 2 ^ 16
  taken : fatEntry g disk c ≠ 0

/-- The chain that starts at `first`: allocated clusters up to an end mark. -/
structure ChainOf (g : Geometry) (disk : Nat → Sector) (first : Nat) (xs : List Nat) : Prop where
  spells : Chain.Spells (nextOf g disk) (some first) xs
  cells : ∀ c ∈ xs, Cell g disk c

variable {first c : Nat} {xs ys : List Nat} {disk' : Nat → Sector}

theorem ChainOf.unique (h : ChainOf g disk first xs) (h' : ChainOf g disk first ys) : xs = ys :=
  h.spells.unique h'.spells

theorem ChainOf.nodup (h : ChainOf g disk first xs) : xs.Nodup := h.spells.nodup

theorem ChainOf.head (h : ChainOf g disk first xs) : ∃ rest, xs = first :: rest := by
  cases xs with
  | nil => cases h.spells
  | cons x rest => exact ⟨rest, by rw [Option.some.inj h.spells.1]⟩

theorem ChainOf.mem_first (h : ChainOf g disk first xs) : first ∈ xs := by
  obtain ⟨rest, rfl⟩ := h.head
  exact List.mem_cons_self

theorem ChainOf.length_lt (h : ChainOf g disk first xs) : xs.length < 2 ^ 16 := by
  have sub : xs.toFinset ⊆ Finset.Ico 2 (2 ^ 16) := by
    intro c mem
    have cell := h.cells c (List.mem_toFinset.mp mem)
    exact Finset.mem_Ico.mpr ⟨cell.low, cell.short⟩
  have card := Finset.card_le_card sub
  rw [List.toFinset_card_of_nodup h.nodup, Nat.card_Ico] at card
  omega

theorem ChainOf.congr (h : ChainOf g disk first xs)
    (same : ∀ c ∈ xs, fatEntry g disk' c = fatEntry g disk c) : ChainOf g disk' first xs := by
  refine ⟨h.spells.congr fun c mem => ?_, fun c mem => ?_⟩
  · unfold nextOf
    rw [same c mem]
  · obtain ⟨low, bound, short, taken⟩ := h.cells c mem
    exact ⟨low, bound, short, same c mem ▸ taken⟩

theorem nextOf_end (eoc : fat16EocMin ≤ fatEntry g disk c) : nextOf g disk c = none := if_pos eoc

theorem nextOf_mid {e : Nat} (entry : fatEntry g disk c = e) (mid : e < fat16EocMin) :
    nextOf g disk c = some e := by
  unfold nextOf
  rw [entry, if_neg (Nat.not_le_of_lt mid)]

theorem ChainOf.next_mid {x : Nat} (h : ChainOf g disk first (xs ++ c :: x :: ys)) :
    fatEntry g disk c = x ∧ 2 ≤ x ∧ x < fat16EocMin := by
  have next : nextOf g disk c = some x := h.spells.suffix.2.1
  unfold nextOf at next
  split at next
  · cases next
  · rename_i mid
    have entry := Option.some.inj next
    exact ⟨entry, (h.cells x (by simp)).low, entry ▸ Nat.lt_of_not_le mid⟩

theorem ChainOf.next_last (h : ChainOf g disk first (xs ++ [c])) : fat16EocMin ≤ fatEntry g disk c := by
  have next : nextOf g disk c = none := h.spells.suffix.2
  unfold nextOf at next
  split at next
  · assumption
  · cases next

theorem ChainOf.tail {x : Nat} (h : ChainOf g disk first (c :: x :: ys)) :
    fatEntry g disk c = x ∧ x < fat16EocMin ∧ ChainOf g disk x (x :: ys) := by
  have split : ChainOf g disk first ([] ++ c :: x :: ys) := h
  obtain ⟨entry, -, mid⟩ := split.next_mid
  exact ⟨entry, mid, ⟨rfl, h.spells.2.2⟩, fun d mem => h.cells d (List.mem_cons_of_mem _ mem)⟩

theorem ChainOf.only (h : ChainOf g disk first [c]) : fat16EocMin ≤ fatEntry g disk c := by
  have split : ChainOf g disk first ([] ++ [c]) := h
  exact split.next_last

end Table

end Isunux
