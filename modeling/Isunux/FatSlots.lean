import Isunux.FatDirs

/-! Where the parts of a volume lie, what a write to a slot changes, and the search for
a free slot. -/
namespace Isunux

section Layout

variable {g : Geometry} {c lba : Nat}

theorem clusterToLba_wide (low : 2 ≤ c) (most : c ≤ 16776960) :
    clusterToLba g c = g.firstDataSector + (c - 2) * g.sectorsPerCluster ∧ clusterToLba g c + 2 ^ 8 ≤ 2 ^ 32 := by
  have reserved := g.reserved_lt
  have per := g.perCluster_lt
  have fats := g.fats_lt
  have size := g.size_lt
  have root := g.root_lt
  have tables : g.numFats * g.fatSize16 ≤ 255 * 65535 := Nat.mul_le_mul (by omega) (by omega)
  have data : (c - 2) * g.sectorsPerCluster ≤ (16776960 - 2) * 255 := Nat.mul_le_mul (by omega) (by omega)
  have index : (c + (2 ^ 32 - 2)) % 2 ^ 32 = c - 2 := by omega
  unfold clusterToLba
  rw [index]
  unfold Geometry.firstDataSector Geometry.firstRootDirSector Geometry.firstFatSector Geometry.rootDirSectors
  omega

theorem clusterToLba_eq (low : 2 ≤ c) (short : c < 2 ^ 16) :
    clusterToLba g c = g.firstDataSector + (c - 2) * g.sectorsPerCluster :=
  (clusterToLba_wide low (by omega)).1

theorem sectorOf_wide (low : 2 ≤ c) (most : c ≤ 16776960) {i : Nat} (inside : i < 2 ^ 8) :
    sectorOf g c i = clusterToLba g c + i := by
  have room := (@clusterToLba_wide g _ low most).2
  exact Nat.mod_eq_of_lt (by omega)

theorem sectorOf_inj {i j : Nat} (insideI : i < 2 ^ 8) (insideJ : j < 2 ^ 8) (same : sectorOf g c i = sectorOf g c j) :
    i = j := by
  unfold sectorOf at same
  omega

theorem sectorOf_zero : sectorOf g c 0 = clusterToLba g c := by
  unfold sectorOf clusterToLba
  rw [Nat.add_zero, Nat.mod_mod]

theorem mem_clusterLbas (low : 2 ≤ c) (short : c < 2 ^ 16) :
    lba ∈ clusterLbas g c ↔
      g.firstDataSector + (c - 2) * g.sectorsPerCluster ≤ lba ∧
        lba < g.firstDataSector + (c - 2) * g.sectorsPerCluster + g.sectorsPerCluster := by
  have per := g.perCluster_lt
  have place := @clusterToLba_eq g _ low short
  unfold clusterLbas
  simp only [List.mem_map, List.mem_range]
  constructor
  · rintro ⟨i, bound, rfl⟩
    rw [sectorOf_wide low (by omega) (by omega)]
    omega
  · rintro ⟨lo, hi⟩
    refine ⟨lba - (g.firstDataSector + (c - 2) * g.sectorsPerCluster), by omega, ?_⟩
    rw [sectorOf_wide low (by omega) (by omega)]
    omega

theorem mem_rootLbas : lba ∈ rootLbas g ↔ g.firstRootDirSector ≤ lba ∧ lba < g.firstDataSector := by
  unfold rootLbas Geometry.firstDataSector
  simp only [List.mem_map, List.mem_range]
  constructor
  · rintro ⟨i, bound, rfl⟩
    omega
  · rintro ⟨lo, hi⟩
    exact ⟨lba - g.firstRootDirSector, by omega, by omega⟩

/-- The sectors of a cluster, or those of the root region for 0. -/
def regionLbas (g : Geometry) (r : Nat) : List Nat := if r = 0 then rootLbas g else clusterLbas g r

/-- Regions that directories and files are made of. -/
def IsRegion (r : Nat) : Prop := r = 0 ∨ 2 ≤ r ∧ r < 2 ^ 16

theorem Cell.isRegion {disk : Nat → Sector} (h : Cell g disk c) : IsRegion c := .inr ⟨h.low, h.short⟩

theorem region_outside {r : Nat} (region : IsRegion r) (mem : lba ∈ regionLbas g r) :
    g.firstRootDirSector ≤ lba := by
  unfold regionLbas at mem
  rcases region with rfl | ⟨low, short⟩
  · exact (mem_rootLbas.mp mem).1
  · rw [if_neg (by omega), mem_clusterLbas low short] at mem
    have := mem.1
    unfold Geometry.firstDataSector at this
    omega

theorem region_apart {r r' : Nat} (region : IsRegion r) (region' : IsRegion r') (mem : lba ∈ regionLbas g r)
    (mem' : lba ∈ regionLbas g r') : r = r' := by
  unfold regionLbas at mem mem'
  have clusters : ∀ {a b : Nat}, 2 ≤ a → a < 2 ^ 16 → 2 ≤ b → b < 2 ^ 16 → lba ∈ clusterLbas g a →
      lba ∈ clusterLbas g b → a ≤ b := by
    intro a b lowA shortA lowB shortB memA memB
    rw [mem_clusterLbas lowA shortA] at memA
    rw [mem_clusterLbas lowB shortB] at memB
    by_contra more
    have row : (b - 2) * g.sectorsPerCluster + g.sectorsPerCluster ≤ (a - 2) * g.sectorsPerCluster := by
      calc (b - 2) * g.sectorsPerCluster + g.sectorsPerCluster = (b - 2 + 1) * g.sectorsPerCluster := by ring
        _ ≤ (a - 2) * g.sectorsPerCluster := Nat.mul_le_mul_right _ (by omega)
    omega
  have front : ∀ {a : Nat}, 2 ≤ a → a < 2 ^ 16 → lba ∈ clusterLbas g a → lba ∉ rootLbas g := by
    intro a low short memA memRoot
    rw [mem_clusterLbas low short] at memA
    rw [mem_rootLbas] at memRoot
    omega
  rcases region with rfl | ⟨low, short⟩ <;> rcases region' with rfl | ⟨low', short'⟩
  · rfl
  · rw [if_pos rfl] at mem
    rw [if_neg (by omega)] at mem'
    exact absurd mem (front low' short' mem')
  · rw [if_neg (by omega)] at mem
    rw [if_pos rfl] at mem'
    exact absurd mem' (front low short mem)
  · rw [if_neg (by omega)] at mem mem'
    exact Nat.le_antisymm (clusters low short low' short' mem mem') (clusters low' short' low short mem' mem)

theorem nodup_clusterLbas (c : Nat) : (clusterLbas g c).Nodup := by
  have per := g.perCluster_lt
  refine List.nodup_range.map_on fun a inA b inB same => ?_
  rw [List.mem_range] at inA inB
  exact sectorOf_inj (by omega) (by omega) same

theorem nodup_regionLbas (r : Nat) : (regionLbas g r).Nodup := by
  unfold regionLbas rootLbas
  split
  · exact List.nodup_range.map fun a b same => Nat.add_left_cancel same
  · exact nodup_clusterLbas r

theorem setEntry_region {disk : Nat → Sector} {value r : Nat} (bound : c < g.totalEntries) (region : IsRegion r)
    (mem : lba ∈ regionLbas g r) : setEntry g disk c value lba = disk lba :=
  setEntry_outside bound (.inr (region_outside region mem))

theorem fatEntry_congr {disk disk' : Nat → Sector} (bound : c < g.totalEntries)
    (same : ∀ lba, lba < g.firstRootDirSector → disk' lba = disk lba) (fats : 0 < g.numFats) :
    fatEntry g disk' c = fatEntry g disk c := by
  unfold fatEntry
  rw [same]
  unfold Geometry.totalEntries at bound
  unfold Geometry.firstRootDirSector
  have row : 1 * g.fatSize16 ≤ g.numFats * g.fatSize16 := Nat.mul_le_mul_right _ fats
  omega

end Layout

/-! Slots -/

section Slots

variable {disk : Nat → Sector} {l l' : Loc} {lbas : List Nat}

theorem mem_slotsOf : l ∈ slotsOf lbas ↔ l.1 ∈ lbas ∧ l.2 ∈ direntOffsets := by
  unfold slotsOf sectorSlots
  simp only [List.mem_flatMap, List.mem_map]
  constructor
  · rintro ⟨lba, mem, off, mem', rfl⟩
    exact ⟨mem, mem'⟩
  · rintro ⟨mem, mem'⟩
    exact ⟨l.1, mem, l.2, mem', rfl⟩

/-- Entries start at multiples of their size. -/
def Aligned (l : Loc) : Prop := l.2 % 32 = 0

theorem aligned_of_mem (mem : l ∈ slotsOf lbas) : Aligned l := by
  have off := (mem_slotsOf.mp mem).2
  unfold direntOffsets at off
  obtain ⟨i, -, eq⟩ := List.mem_map.mp off
  unfold Aligned
  omega

theorem nodup_slotsOf (nodup : lbas.Nodup) : (slotsOf lbas).Nodup := by
  unfold slotsOf
  refine List.nodup_flatMap.mpr ⟨fun lba _ => ?_, ?_⟩
  · unfold sectorSlots direntOffsets
    rw [List.map_map]
    refine List.nodup_range.map fun a b same => ?_
    simp only [Function.comp_apply, Prod.mk.injEq, true_and] at same
    omega
  · refine nodup.imp fun {a b} apart l memA memB => apart ?_
    unfold sectorSlots at memA memB
    obtain ⟨_, _, rfl⟩ := List.mem_map.mp memA
    obtain ⟨_, _, same⟩ := List.mem_map.mp memB
    exact (congrArg Prod.fst same).symm

def putAt (disk : Nat → Sector) (l : Loc) (k : Nat) (bytes : List (BitVec 8)) : Nat → Sector :=
  Function.update disk l.1 (patch (disk l.1) (l.2 + k) bytes)

theorem putAt_sector {k : Nat} {bytes : List (BitVec 8)} {lba : Nat} (other : lba ≠ l.1) :
    putAt disk l k bytes lba = disk lba :=
  Function.update_of_ne other _ _

theorem rawAt_putAt_self {k : Nat} {bytes : List (BitVec 8)} (inside : k + bytes.length ≤ 32) :
    rawAt (putAt disk l k bytes) l = patch (rawAt disk l) k bytes := by
  funext i
  unfold rawAt putAt entryAt
  rw [Function.update_self]
  unfold patch
  dsimp only
  by_cases low : i < 32
  · rw [if_pos low, if_pos low]
    by_cases here : k ≤ i ∧ i < k + bytes.length
    · rw [if_pos here, if_pos (by omega), show l.2 + i - (l.2 + k) = i - k by omega]
    · rw [if_neg here, if_neg (by omega)]
  · rw [if_neg low, if_neg (by omega), if_neg low]

theorem rawAt_putAt_other {k : Nat} {bytes : List (BitVec 8)} (inside : k + bytes.length ≤ 32)
    (aligned : Aligned l) (aligned' : Aligned l') (other : l' ≠ l) :
    rawAt (putAt disk l k bytes) l' = rawAt disk l' := by
  funext i
  unfold rawAt
  by_cases sector : l'.1 = l.1
  · have offsets : l'.2 ≠ l.2 := fun same => other (Prod.ext sector same)
    unfold putAt
    rw [sector, Function.update_self]
    unfold entryAt patch Aligned at *
    by_cases low : i < 32
    · rw [if_pos low, if_pos low, if_neg (by omega)]
    · rw [if_neg low, if_neg low]
  · rw [putAt_sector sector]

end Slots

/-! Zeroed sectors -/

section Zero

variable {s : Fat} {disk : Nat → Sector} {lbas : List Nat}

def zeroed (disk : Nat → Sector) (lbas : List Nat) : Nat → Sector := fun lba =>
  if lba ∈ lbas then fun _ => 0#8 else disk lba

theorem zeroSectors_calm (calm : s.Calm) : zeroSectors lbas s = (s.withDisk (zeroed s.disk lbas), true) := by
  induction lbas generalizing s with
  | nil =>
    have same : zeroed s.disk [] = s.disk := by
      funext lba
      simp [zeroed]
    rw [zeroSectors, same, withDisk_self]
  | cons lba rest ih =>
    rw [zeroSectors, ataWriteSector_calm calm]
    dsimp only
    rw [ih calm.withDisk]
    congr 1
    rw [withDisk_withDisk]
    congr 1
    funext lba'
    unfold zeroed
    by_cases here : lba' = lba
    · subst here
      simp
    · simp [here]

end Zero

/-! The search for a free slot -/

section Free

variable {g : Geometry} {s : Fat} {fuel : Nat}

def freeSlot (disk : Nat → Sector) (l : Loc) : Bool := rawAt disk l 0 == deletedMark || rawAt disk l 0 == 0#8

theorem freeOffset_eq (disk : Nat → Sector) (lba : Nat) :
    (freeOffset (disk lba)).map (fun off => (lba, off)) = (sectorSlots lba).find? (freeSlot disk) := by
  unfold freeOffset sectorSlots
  rw [List.find?_map]
  rfl

theorem findInSectors_calm (calm : s.Calm) (lbas : List Nat) :
    findInSectors lbas s = (s, .ok ((slotsOf lbas).find? (freeSlot s.disk))) := by
  induction lbas with
  | nil => rfl
  | cons lba rest ih =>
    rw [findInSectors, ataReadSector_calm calm, slotsOf, List.flatMap_cons, List.find?_append, ← freeOffset_eq]
    dsimp only
    cases freeOffset (s.disk lba) with
    | none => exact ih
    | some off => rfl

theorem findInChain_calm (calm : s.Calm) {first last : Nat} {xs : List Nat} (chain : ChainOf g s.disk first xs)
    (mid : first < fat16EocMin) (enough : xs.length < fuel) :
    findInChain g fuel first last s =
      some (s, .ok (match (slotsOf (chainLbas g xs)).find? (freeSlot s.disk) with
        | some l => .inl l
        | none => .inr (xs.getLastD last))) := by
  induction xs generalizing first last fuel with
  | nil => cases chain.spells
  | cons x rest ih =>
    obtain rfl : first = x := Option.some.inj chain.spells.1
    obtain ⟨fuel, rfl⟩ : ∃ k, fuel = k + 1 := ⟨fuel - 1, by simp at enough; omega⟩
    have cell := chain.cells first List.mem_cons_self
    rw [findInChain, if_pos ⟨cell.low, mid⟩, findInSectors_calm calm, chainLbas, List.flatMap_cons, slotsOf_append,
      List.find?_append]
    cases found : (slotsOf (clusterLbas g first)).find? (freeSlot s.disk) with
    | some l => rfl
    | none =>
      dsimp only
      rw [fatNextCluster_calm calm, Option.none_or]
      cases rest with
      | nil =>
        have eoc := chain.only
        obtain ⟨fuel, rfl⟩ : ∃ k, fuel = k + 1 := ⟨fuel - 1, by simp at enough; omega⟩
        rw [findInChain, if_neg (by omega)]
        rfl
      | cons y ys =>
        obtain ⟨entry, mid', tail⟩ := chain.tail
        rw [entry]
        rw [ih tail mid' (by simp at enough ⊢; omega)]
        rfl

end Free

end Isunux
