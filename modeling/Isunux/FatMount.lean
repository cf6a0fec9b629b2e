import Isunux.FatTable

/-! `fat_mount` and what the rest of the driver relies on without a further look at the
boot sector. Three fields are checked; the number of data clusters is never computed and
the size of a cluster is divided by as it stands. -/
namespace Isunux

/-! The boot sector -/

section Boot

variable (boot : Sector)

def bpbBytesPerSector : Nat := read16 boot 11
def bpbSectorsPerCluster : Nat := (boot 13).toNat
def bpbReservedSectorCount : Nat := read16 boot 14
def bpbNumFats : Nat := (boot 16).toNat
def bpbRootEntryCount : Nat := read16 boot 17
def bpbTotalSectors16 : Nat := read16 boot 19
def bpbFatSize16 : Nat := read16 boot 22
def bpbTotalSectors32 : Nat := read32 boot 32
def bpbSignature : Nat := read16 boot 510

def geometryOf : Geometry where
  reservedSectorCount := bpbReservedSectorCount boot
  sectorsPerCluster := bpbSectorsPerCluster boot
  numFats := bpbNumFats boot
  fatSize16 := bpbFatSize16 boot
  rootEntryCount := bpbRootEntryCount boot
  reserved_lt := read16_lt _ _
  perCluster_lt := (boot 13).isLt
  fats_lt := (boot 16).isLt
  size_lt := read16_lt _ _
  root_lt := read16_lt _ _

/-- `fat_mount` on a boot sector that could be read. -/
def fatMount : Option Geometry :=
  if bpbSignature boot ≠ 0xAA55 then none
  else if bpbBytesPerSector boot ≠ 512 then none
  else if bpbFatSize16 boot = 0 then none
  else some (geometryOf boot)

variable {boot} {g : Geometry}

theorem fatMount_some (mounted : fatMount boot = some g) :
    bpbBytesPerSector boot = 512 ∧ bpbFatSize16 boot ≠ 0 ∧ geometryOf boot = g := by
  unfold fatMount at mounted
  split at mounted
  · cases mounted
  split at mounted
  · cases mounted
  split at mounted
  · cases mounted
  rename_i sectors size
  exact ⟨not_not.mp sectors, size, Option.some.inj mounted⟩

end Boot

/-! Allocation -/

section Allocation

variable {boot : Sector} {g : Geometry} {s : Fat} {N : Nat}

def totalSectors (boot : Sector) : Nat :=
  if bpbTotalSectors16 boot ≠ 0 then bpbTotalSectors16 boot else bpbTotalSectors32 boot

/-- The total sector count gives `N` data clusters. -/
structure GivesClusters (boot : Sector) (N : Nat) : Prop where
  sized : 0 < bpbSectorsPerCluster boot
  room : (geometryOf boot).firstDataSector ≤ totalSectors boot
  count : N = (totalSectors boot - (geometryOf boot).firstDataSector) / bpbSectorsPerCluster boot

def fat16Bad : Nat := 0xFFF7

/-- A cluster of the volume that an entry of the table says is free. -/
structure FreeInside (g : Geometry) (disk : Nat → Sector) (N c : Nat) : Prop where
  low : 2 ≤ c
  volume : c < N + 2
  usable : c < fat16Bad
  entry : c < g.totalEntries
  free : fatEntry g disk c = 0

/-- What `fat_alloc_cluster` owes its callers on a volume of `N` clusters. -/
structure AllocMeets (g : Geometry) (N : Nat) (s : Fat) : Prop where
  fresh : (fatAllocCluster g s).2 ≠ 0 → FreeInside g s.disk N (fatAllocCluster g s).2 ∧
    ∀ copy d, copy = 0 ∨ copy < g.numFats → d < g.totalEntries →
      copyEntry g (fatAllocCluster g s).1.disk copy d =
        if d = (fatAllocCluster g s).2 then fat16EocMin else copyEntry g s.disk copy d
  full : (fatAllocCluster g s).2 = 0 ↔ ∀ c, ¬ FreeInside g s.disk N c

/-- No entry of the table is free, or one of a cluster of the volume is and there is a
table to mark it in. -/
def AllocServed (g : Geometry) (N : Nat) (s : Fat) : Prop :=
  (∃ c, 2 ≤ c ∧ c < g.totalEntries ∧ fatEntry g s.disk c = 0) → 0 < g.numFats ∧ ∃ c, FreeInside g s.disk N c

theorem freeCluster_first {disk : Nat → Sector} {c d : Nat} (found : freeCluster g disk = some c) (low : 2 ≤ d)
    (entry : d < g.totalEntries) (free : fatEntry g disk d = 0) : c ≤ d := by
  obtain ⟨_, before, after, split, notYet⟩ := List.find?_eq_some_iff_append.mp found
  by_contra later
  have mem : d ∈ List.range' 2 (g.totalEntries - 2) := List.mem_range'_1.mpr ⟨low, by omega⟩
  have sorted : (List.range' 2 (g.totalEntries - 2)).Pairwise (· < ·) := List.pairwise_lt_range'
  rw [split] at mem sorted
  rcases List.mem_append.mp mem with early | here
  · have nonzero := notYet d early
    simp [free] at nonzero
  · rcases List.mem_cons.mp here with rfl | late
    · exact later le_rfl
    · have order := (List.pairwise_append.mp sorted).2.1
      have := List.rel_of_pairwise_cons order late
      omega

/-- `fat_alloc_cluster` stays inside the volume exactly where the table has no free entry
before one of its own. -/
theorem alloc_meets_iff (_ : fatMount boot = some g) (_ : GivesClusters boot N) (calm : s.Calm) :
    AllocMeets g N s ↔ AllocServed g N s := by
  have run := fatAllocCluster_calm (g := g) calm
  cases found : freeCluster g s.disk with
  | none =>
    rw [found] at run
    have none : ∀ c, ¬ FreeInside g s.disk N c := fun c inside =>
      freeCluster_none found inside.low inside.entry inside.free
    refine ⟨fun _ some => ?_, fun _ => ⟨fun some => ?_, ?_⟩⟩
    · obtain ⟨c, low, entry, free⟩ := some
      exact absurd free (freeCluster_none found low entry)
    · rw [run] at some
      exact absurd rfl some
    · rw [run]
      exact ⟨fun _ => none, fun _ => rfl⟩
  | some c =>
    rw [found] at run
    obtain ⟨low, entry, free⟩ := freeCluster_some found
    have nonzero : (fatAllocCluster g s).2 ≠ 0 := by
      rw [run]
      dsimp only
      omega
    constructor
    · intro meets _
      obtain ⟨inside, marked⟩ := meets.fresh nonzero
      refine ⟨?_, _, inside⟩
      by_contra none
      -- without a copy of the table nothing is marked
      have unmarked := marked 0 c (.inl rfl) entry
      rw [run] at unmarked
      dsimp only [withDisk_disk] at unmarked
      rw [if_pos rfl, setEntry, Nat.eq_zero_of_not_pos none, copyEntry_zero] at unmarked
      exact absurd (free.symm.trans unmarked) (by decide)
    · intro served
      obtain ⟨fats, d, inside⟩ := served ⟨c, low, entry, free⟩
      have first := freeCluster_first found inside.low inside.entry inside.free
      have here : FreeInside g s.disk N c :=
        ⟨low, Nat.lt_of_le_of_lt first inside.volume, Nat.lt_of_le_of_lt first inside.usable, entry, free⟩
      refine ⟨fun _ => ?_, fun zero => absurd zero nonzero, fun none => absurd here (none c)⟩
      rw [run]
      refine ⟨here, fun copy e known bound => ?_⟩
      have copies : copy < g.numFats := by omega
      rw [withDisk_disk, copyEntry_setEntry copies entry bound]
      rfl

end Allocation

/-- The boot sector of a volume of ten sectors behind one FAT sector and one sector for
the root. -/
def smallBoot (perCluster fats : BitVec 8) : Sector := fun i =>
  match i with
  | 12 => 0x02#8
  | 13 => perCluster
  | 14 => 0x01#8
  | 16 => fats
  | 17 => 0x10#8
  | 19 => 0x0D#8
  | 22 => 0x01#8
  | 510 => 0x55#8
  | 511 => 0xAA#8
  | _ => 0#8

/-- A disk on which the entries of so many clusters are in use. -/
def usedVolume (clusters : Nat) : Fat where
  disk := fun lba => if lba = 0 then smallBoot 1#8 1#8 else fun i => if lba = 1 ∧ i < 2 * clusters then 0xFF#8 else 0#8
  nodes := fun _ => ⟨.file, [], none, 0#64, ⟨0, 0, 0, 0⟩⟩
  count := 0
  outcomes := fun _ => .done

theorem usedVolume_calm (clusters : Nat) : (usedVolume clusters).Calm := rfl

theorem smallBoot_mounted : fatMount (smallBoot 1#8 1#8) = some (geometryOf (smallBoot 1#8 1#8)) := by
  unfold fatMount
  rw [if_neg (by decide), if_neg (by decide), if_neg (by decide)]

theorem smallBoot_clusters : GivesClusters (smallBoot 1#8 1#8) 10 := ⟨by decide, by decide, by decide⟩

theorem alloc_meets_last_cluster : AllocMeets (geometryOf (smallBoot 1#8 1#8)) 10 (usedVolume 11) :=
  (alloc_meets_iff smallBoot_mounted smallBoot_clusters (usedVolume_calm 11)).mpr fun _ =>
    ⟨by decide, 11, by decide, by decide, by decide, by decide, by decide⟩

/-- On a volume that is full the first entry of the table that belongs to no cluster is
handed out. -/
theorem alloc_leaves_volume :
    fatMount ((usedVolume 12).disk 0) = some (geometryOf (smallBoot 1#8 1#8)) ∧
      GivesClusters ((usedVolume 12).disk 0) 10 ∧
      (fatAllocCluster (geometryOf (smallBoot 1#8 1#8)) (usedVolume 12)).2 = 12 ∧
      ¬ AllocMeets (geometryOf (smallBoot 1#8 1#8)) 10 (usedVolume 12) := by
  have taken : (fatAllocCluster (geometryOf (smallBoot 1#8 1#8)) (usedVolume 12)).2 = 12 := by decide +kernel
  refine ⟨smallBoot_mounted, smallBoot_clusters, taken, fun meets => ?_⟩
  have inside := (meets.fresh (by rw [taken]; decide)).1.volume
  rw [taken] at inside
  exact absurd inside (by decide)

/-! Divisions -/

section Divisions

variable (g : Geometry)

/-- Division as the processor does it: a zero divisor is a fault. -/
def udiv (a b : Nat) : Option Nat := if b = 0 then none else some (a / b)
def umod (a b : Nat) : Option Nat := if b = 0 then none else some (a % b)

/-- `fat_file_read` with its divisions, or nothing when one of them faults. -/
def fatFileReadDividing (s : Fat) (node count offset : Nat) : Option (Fat × List (BitVec 8)) :=
  let m := (s.nodes node).priv
  if offset ≥ m.fileSize then some (s, [])
  else
    let n := min count (m.fileSize - offset)
    (udiv offset g.clusterSize).bind fun skip =>
      match skipClusters g skip s m.firstCluster with
      | (s, none) => some (s, [])
      | (s, some cluster) => (umod offset g.clusterSize).map fun pos => readLoop g n s cluster pos n

def writeFromDividing (s : Fat) (node : Nat) (src : Nat → BitVec 8) (count offset : Nat) : Option (Fat × Int) :=
  (udiv offset g.clusterSize).bind fun index =>
    match walkTo g index s (s.nodes node).priv.firstCluster with
    | (s, none) => some (s, 0)
    | (s, some cluster) =>
      (umod offset g.clusterSize).map fun pos =>
        let r := writeLoop g count s cluster pos src count 0
        let m := (r.1.nodes node).priv
        let s := r.1.setMeta node
          { m with fileSize := if offset + r.2 > m.fileSize then (offset + r.2) % 2 ^ 32 else m.fileSize }
        (fatWritebackDirent s node, r.2)

/-- `fat_file_write` likewise. -/
def fatFileWriteDividing (s : Fat) (node : Nat) (src : Nat → BitVec 8) (count offset : Nat) : Option (Fat × Int) :=
  if count = 0 then some (s, 0)
  else if (s.nodes node).priv.firstCluster = 0 then
    let a := fatAllocCluster g s
    if a.2 = 0 then some (a.1, -enospc)
    else
      writeFromDividing g (a.1.setMeta node { (a.1.nodes node).priv with firstCluster := a.2 }) node src count offset
  else writeFromDividing g s node src count offset

variable {g} {s : Fat} {node count offset : Nat} {src : Nat → BitVec 8}

theorem fatFileReadDividing_eq (sized : g.clusterSize ≠ 0) :
    fatFileReadDividing g s node count offset = some (fatFileRead g s node count offset) := by
  unfold fatFileReadDividing fatFileRead
  dsimp only
  by_cases past : offset ≥ (s.nodes node).priv.fileSize
  · rw [if_pos past, if_pos past]
  · rw [if_neg past, if_neg past, udiv, if_neg sized, umod, if_neg sized, Option.bind_some]
    obtain ⟨t, none | cluster⟩ := skipClusters g (offset / g.clusterSize) s (s.nodes node).priv.firstCluster
    · rfl
    · rfl

theorem writeFromDividing_eq (sized : g.clusterSize ≠ 0) :
    writeFromDividing g s node src count offset = some (writeFrom g s node src count offset) := by
  unfold writeFromDividing writeFrom
  rw [udiv, if_neg sized, umod, if_neg sized, Option.bind_some]
  obtain ⟨t, none | cluster⟩ := walkTo g (offset / g.clusterSize) s (s.nodes node).priv.firstCluster
  · rfl
  · rfl

theorem fatFileWriteDividing_eq (sized : g.clusterSize ≠ 0) :
    fatFileWriteDividing g s node src count offset = some (fatFileWrite g s node src count offset) := by
  unfold fatFileWriteDividing fatFileWrite
  dsimp only
  rw [writeFromDividing_eq sized, writeFromDividing_eq sized]
  by_cases nothing : count = 0
  · rw [if_pos nothing, if_pos nothing]
  · rw [if_neg nothing, if_neg nothing]
    by_cases empty : (s.nodes node).priv.firstCluster = 0
    · rw [if_pos empty, if_pos empty]
      by_cases full : (fatAllocCluster g s).2 = 0
      · rw [if_pos full, if_pos full]
      · rw [if_neg full, if_neg full]
    · rw [if_neg empty, if_neg empty]

theorem chunk_advances {left : Nat} (pos : Nat) (some : left ≠ 0) :
    0 < min left (512 - pos % 512) ∧ min left (512 - pos % 512) ≤ left := by
  have := Nat.mod_lt pos (show 0 < 512 by decide)
  omega

theorem readLoop_ends {fuel left cluster pos : Nat} (enough : left ≤ fuel) :
    readLoop g fuel s cluster pos left = readLoop g left s cluster pos left := by
  induction left using Nat.strong_induction_on generalizing fuel s cluster pos with
  | _ left ih =>
    cases left with
    | zero =>
      cases fuel with
      | zero => rfl
      | succ fuel => rw [readLoop, readLoop, if_pos rfl]
    | succ n =>
      obtain ⟨m, rfl⟩ := Nat.exists_eq_succ_of_ne_zero (show fuel ≠ 0 by omega)
      obtain ⟨some, most⟩ := chunk_advances pos (Nat.succ_ne_zero n)
      rw [Nat.succ_eq_add_one, readLoop, readLoop, if_neg (Nat.succ_ne_zero n), if_neg (Nat.succ_ne_zero n)]
      -- both loops go on with what is left after this chunk
      have rest : ∀ t c p, readLoop g m t c p (n + 1 - min (n + 1) (512 - pos % 512)) =
          readLoop g n t c p (n + 1 - min (n + 1) (512 - pos % 512)) := fun t c p => by
        rw [ih _ (by omega) (by omega : _ ≤ m), ih _ (by omega) (by omega : _ ≤ n)]
      simp only [rest]

theorem writeLoop_ends {fuel left cluster pos copied : Nat} (enough : left ≤ fuel) :
    writeLoop g fuel s cluster pos src left copied = writeLoop g left s cluster pos src left copied := by
  induction left using Nat.strong_induction_on generalizing fuel s cluster pos copied with
  | _ left ih =>
    cases left with
    | zero =>
      cases fuel with
      | zero => rfl
      | succ fuel => rw [writeLoop, writeLoop, if_pos rfl]
    | succ n =>
      obtain ⟨m, rfl⟩ := Nat.exists_eq_succ_of_ne_zero (show fuel ≠ 0 by omega)
      obtain ⟨some, most⟩ := chunk_advances pos (Nat.succ_ne_zero n)
      rw [Nat.succ_eq_add_one, writeLoop, writeLoop, if_neg (Nat.succ_ne_zero n), if_neg (Nat.succ_ne_zero n)]
      have rest : ∀ t c p k, writeLoop g m t c p src (n + 1 - min (n + 1) (512 - pos % 512)) k =
          writeLoop g n t c p src (n + 1 - min (n + 1) (512 - pos % 512)) k := fun t c p k => by
        rw [ih _ (by omega) (by omega : _ ≤ m), ih _ (by omega) (by omega : _ ≤ n)]
      simp only [rest]

/-- The driver computes with this geometry without a fault. The table, the directory
scans and the copy loops divide by the bytes of a sector and the entries that fit in one,
reads and writes by the size of a cluster as well; and the copy loops take a byte in each
round, so that they come to their end after at most as many rounds as there are bytes. -/
structure GeometrySafe (boot : Sector) (g : Geometry) : Prop where
  sectors : bpbBytesPerSector boot ≠ 0 ∧ bpbBytesPerSector boot / 2 ≠ 0
  reads : ∀ s node count offset, (fatFileReadDividing g s node count offset).isSome = true
  writes : ∀ s node src count offset, (fatFileWriteDividing g s node src count offset).isSome = true
  advances : ∀ left pos, left ≠ 0 → 0 < min left (bpbBytesPerSector boot - pos % bpbBytesPerSector boot)
  readEnds : ∀ s cluster pos left fuel, left ≤ fuel →
    readLoop g fuel s cluster pos left = readLoop g left s cluster pos left
  writeEnds : ∀ s cluster pos src left copied fuel, left ≤ fuel →
    writeLoop g fuel s cluster pos src left copied = writeLoop g left s cluster pos src left copied

def oneByte : Fat where
  disk := fun _ _ => 0#8
  nodes := fun _ => ⟨.file, [], none, 0#64, ⟨2, 1, 0, 0⟩⟩
  count := 1
  outcomes := fun _ => .done

/-- An accepted geometry is safe exactly where a cluster has a sector. -/
theorem geometry_safe_iff {boot : Sector} (mounted : fatMount boot = some g) :
    GeometrySafe boot g ↔ bpbSectorsPerCluster boot ≠ 0 := by
  obtain ⟨sectors, -, rfl⟩ := fatMount_some mounted
  constructor
  · intro safe empty
    have faults : fatFileReadDividing (geometryOf boot) oneByte 0 1 0 = none := by
      have size : (geometryOf boot).clusterSize = 0 := by
        rw [Geometry.clusterSize, geometryOf]
        dsimp only
        rw [empty, Nat.zero_mul]
      rw [fatFileReadDividing, if_neg (by decide), udiv, if_pos size]
      rfl
    have returns := safe.reads oneByte 0 1 0
    rw [faults] at returns
    cases returns
  · intro some
    have sized : (geometryOf boot).clusterSize ≠ 0 := by
      rw [Geometry.clusterSize]
      exact Nat.mul_ne_zero some (by decide)
    refine ⟨by rw [sectors]; decide, fun s node count offset => ?_, fun s node src count offset => ?_,
      fun left pos some => ?_, fun s cluster pos left fuel => readLoop_ends, fun s cluster pos src left copied fuel => writeLoop_ends⟩
    · rw [fatFileReadDividing_eq sized]
      rfl
    · rw [fatFileWriteDividing_eq sized]
      rfl
    · rw [sectors]
      exact (chunk_advances pos some).1

theorem geometry_safe_smallBoot : GeometrySafe (smallBoot 1#8 1#8) (geometryOf (smallBoot 1#8 1#8)) :=
  (geometry_safe_iff smallBoot_mounted).mpr (by decide)

/-- A cluster of no sectors passes the mount, and the first read divides by zero. -/
theorem mount_accepts_empty_clusters :
    fatMount (smallBoot 0#8 1#8) = some (geometryOf (smallBoot 0#8 1#8)) ∧
      fatFileReadDividing (geometryOf (smallBoot 0#8 1#8)) oneByte 0 1 0 = none ∧
      ¬ GeometrySafe (smallBoot 0#8 1#8) (geometryOf (smallBoot 0#8 1#8)) := by
  have mounted : fatMount (smallBoot 0#8 1#8) = some (geometryOf (smallBoot 0#8 1#8)) := by
    unfold fatMount
    rw [if_neg (by decide), if_neg (by decide), if_neg (by decide)]
  have faults : fatFileReadDividing (geometryOf (smallBoot 0#8 1#8)) oneByte 0 1 0 = none := by
    rw [fatFileReadDividing, if_neg (by decide), udiv, if_pos (by decide)]
    rfl
  refine ⟨mounted, faults, fun safe => ?_⟩
  have returns := safe.reads oneByte 0 1 0
  rw [faults] at returns
  cases returns

end Divisions

end Isunux
