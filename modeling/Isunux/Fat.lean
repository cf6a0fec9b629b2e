import Isunux.Vfs

/-! The FAT16 driver of `fat.c` over the sector calls of the ATA driver. Cluster numbers
stay below 2^24, so that only the sectors of a cluster below 2 can wrap. Loops that
follow a cluster chain take fuel, since nothing in the driver keeps a chain from being
a cycle; they give nothing when it runs out. -/
namespace Isunux

def enospc : Int := 28

abbrev Sector := Nat → BitVec 8

/-- How a call of the ATA driver ends. A write may fail after the data has arrived. -/
inductive Outcome where
  | done
  | failed
  | failedLate
  deriving DecidableEq

/-- The fields of the boot sector that `fat_mount` keeps. -/
structure Geometry where
  reservedSectorCount : Nat
  sectorsPerCluster : Nat
  numFats : Nat
  fatSize16 : Nat
  rootEntryCount : Nat
  reserved_lt : reservedSectorCount < 2 ^ 16
  perCluster_lt : sectorsPerCluster < 2 ^ 8
  fats_lt : numFats < 2 ^ 8
  size_lt : fatSize16 < 2 ^ 16
  root_lt : rootEntryCount < 2 ^ 16

namespace Geometry

variable (g : Geometry)

def firstFatSector : Nat := g.reservedSectorCount
def rootDirSectors : Nat := (g.rootEntryCount * 32 + 511) / 512
def firstRootDirSector : Nat := g.firstFatSector + g.numFats * g.fatSize16
def firstDataSector : Nat := g.firstRootDirSector + g.rootDirSectors
def clusterSize : Nat := g.sectorsPerCluster * 512

def totalEntries : Nat := g.fatSize16 * 256

end Geometry

/-- `fat_meta_t`. -/
structure FatMeta where
  firstCluster : Nat
  fileSize : Nat
  direntLba : Nat
  direntOffset : Nat
  deriving DecidableEq

/-- A vnode of the pool with its `fat_meta_t`; the operations go by the type. -/
structure FatNode where
  type : NodeType
  name : List (BitVec 8)
  -- nothing stands for the mount point
  parent : Option Nat
  mode : Word
  priv : FatMeta

def fatMaxNodes : Nat := 128

/-- The disk, the node pool, and how the coming ATA calls will end. -/
structure Fat where
  disk : Nat → Sector
  nodes : Nat → FatNode
  count : Nat
  outcomes : Nat → Outcome

/-- The mount point has `root_meta`. -/
def Fat.metaOf (s : Fat) : Option Nat → FatMeta
  | none => ⟨0, 0, 0, 0⟩
  | some i => (s.nodes i).priv

/-! ATA calls. `ata_setup_lba28` sends the drive the low 28 bits of a sector number, so these
are the driver's own below sector 2^28, where all clusters that fit 16 bits lie. -/

def Fat.tick (s : Fat) : Fat := { s with outcomes := fun n => s.outcomes (n + 1) }

def ataReadSector (s : Fat) (lba : Nat) : Fat × Option Sector :=
  (s.tick, if s.outcomes 0 = .done then some (s.disk lba) else none)

def ataWriteSector (s : Fat) (lba : Nat) (sector : Sector) : Fat × Bool :=
  match s.outcomes 0 with
  | .done => ({ s.tick with disk := Function.update s.disk lba sector }, true)
  | .failed => (s.tick, false)
  | .failedLate => ({ s.tick with disk := Function.update s.disk lba sector }, false)

/-! Bytes -/

/-- Byte `k` of a little-endian number. -/
def byteOf (v k : Nat) : BitVec 8 := BitVec.ofNat 8 (v / 256 ^ k)

def read16 (b : Nat → BitVec 8) (i : Nat) : Nat := (b i).toNat + (b (i + 1)).toNat * 256

def read32 (b : Nat → BitVec 8) (i : Nat) : Nat :=
  (b i).toNat + (b (i + 1)).toNat * 256 + (b (i + 2)).toNat * 256 ^ 2 + (b (i + 3)).toNat * 256 ^ 3

/-- The 32 bytes of a directory entry. -/
def entryAt (sector : Sector) (off : Nat) : Nat → BitVec 8 := fun i => if i < 32 then sector (off + i) else 0#8

/-- A buffer with some bytes overwritten. -/
def patch (b : Nat → BitVec 8) (offset : Nat) (bytes : List (BitVec 8)) : Nat → BitVec 8 := fun i =>
  if offset ≤ i ∧ i < offset + bytes.length then bytes.getD (i - offset) 0#8 else b i

/-! The file allocation table -/

section Table

variable (g : Geometry)

def fat16EocMin : Nat := 0xFFF8

def clusterToLba (cluster : Nat) : Nat :=
  (g.firstDataSector + (cluster + (2 ^ 32 - 2)) % 2 ^ 32 * g.sectorsPerCluster) % 2 ^ 32

/-- `cluster_to_lba(cluster) + i` as a `uint32_t`. -/
def sectorOf (cluster i : Nat) : Nat := (clusterToLba g cluster + i) % 2 ^ 32

def fatNextCluster (s : Fat) (cluster : Nat) : Fat × Nat :=
  match ataReadSector s (g.firstFatSector + cluster * 2 / 512) with
  | (s, none) => (s, 0xFFFFFFFF)
  | (s, some sector) => (s, read16 sector (cluster * 2 % 512))

/-- One copy of the table after the other; a copy that cannot be read is left alone. -/
def writeCopies (cluster value : Nat) (s : Fat) (copies : List Nat) : Fat :=
  copies.foldl (fun s copy =>
    let lba := g.firstFatSector + copy * g.fatSize16 + cluster * 2 / 512
    match ataReadSector s lba with
    | (s, none) => s
    | (s, some sector) =>
      (ataWriteSector s lba (patch sector (cluster * 2 % 512) [byteOf value 0, byteOf value 1])).1) s

def fatWriteFatEntry (s : Fat) (cluster value : Nat) : Fat :=
  writeCopies g cluster value s (List.range g.numFats)

/-- The scan of `fat_alloc_cluster`. It reads a sector when it comes to a new one. -/
def scanFat : List Nat → Option (Nat × Sector) → Fat → Fat × Nat
  | [], _, s => (s, 0)
  | idx :: rest, loaded, s =>
    let look (s : Fat) (sector : Sector) : Fat × Nat :=
      if read16 sector (idx % 256 * 2) = 0 then (fatWriteFatEntry g s idx fat16EocMin, idx)
      else scanFat rest (some (idx / 256, sector)) s
    match loaded with
    | some (num, sector) =>
      if num = idx / 256 then look s sector
      else
        match ataReadSector s (g.firstFatSector + idx / 256) with
        | (s, none) => (s, 0)
        | (s, some sector) => look s sector
    | none =>
      match ataReadSector s (g.firstFatSector + idx / 256) with
      | (s, none) => (s, 0)
      | (s, some sector) => look s sector

/-- `fat_alloc_cluster`, 0 when the disk is full. -/
def fatAllocCluster (s : Fat) : Fat × Nat :=
  scanFat g (List.range' 2 (g.totalEntries - 2)) none s

end Table

/-! Names -/

def blankByte : BitVec 8 := 0x20#8
def dotByte : BitVec 8 := 0x2E#8

def lowerByte (c : BitVec 8) : BitVec 8 := if 0x41#8 ≤ c ∧ c ≤ 0x5A#8 then c + 0x20#8 else c
def upperByte (c : BitVec 8) : BitVec 8 := if 0x61#8 ≤ c ∧ c ≤ 0x7A#8 then c - 0x20#8 else c

/-- A field of a short name up to the first blank. -/
def trimField (raw : Nat → BitVec 8) (start len : Nat) : List (BitVec 8) :=
  (((List.range len).map fun i => raw (start + i)).takeWhile (· ≠ blankByte)).map lowerByte

/-- `fat_decode_83_name`, as the C string that its readers see. -/
def fatDecode83Name (raw : Nat → BitVec 8) : List (BitVec 8) :=
  (trimField raw 0 8 ++ if raw 8 ≠ blankByte then dotByte :: trimField raw 8 3 else []).takeWhile (· ≠ 0#8)

/-- A field of a short name, filled up with blanks. -/
def padField (bytes : List (BitVec 8)) (len : Nat) : List (BitVec 8) :=
  ((bytes.take len).map upperByte) ++ List.replicate (len - bytes.length) blankByte

/-- `fat_encode_83_name`: what is longer than a field is cut off. -/
def fatEncode83Name (name : List (BitVec 8)) : List (BitVec 8) :=
  padField (name.takeWhile (· ≠ dotByte)) 8 ++ padField ((name.dropWhile (· ≠ dotByte)).drop 1) 3

/-! Directories -/

def attrVolumeId : BitVec 8 := 0x08#8
def attrDirectory : BitVec 8 := 0x10#8
def attrArchive : BitVec 8 := 0x20#8
def attrLfn : BitVec 8 := 0x0F#8
def deletedMark : BitVec 8 := 0xE5#8

def direntOffsets : List Nat := (List.range 16).map (· * 32)

section Scan

variable {σ : Type}

/-- Told the display name, the raw entry, its index among the real ones and its place. -/
abbrev Visitor (σ : Type) :=
  List (BitVec 8) → (Nat → BitVec 8) → Nat → Nat → Nat → Fat × σ → (Fat × σ) × Bool

/-- The entry is one a visitor is called for. -/
def realEntry (raw : Nat → BitVec 8) : Bool :=
  raw 0 != deletedMark && raw 11 != attrLfn && raw 11 &&& attrVolumeId == 0#8

/-- The rest of a directory sector; the flag says that the scan is over. -/
def fatScanSectorDirents (visitor : Visitor σ) (sector : Sector) (lba : Nat) :
    List Nat → Fat × σ → Nat → (Fat × σ) × Nat × Bool
  | [], c, index => (c, index, false)
  | off :: rest, c, index =>
    let raw := entryAt sector off
    if raw 0 = 0#8 then (c, index, true)
    else if realEntry raw then
      match visitor (fatDecode83Name raw) raw index lba off c with
      | (c, true) => (c, index, true)
      | (c, false) => fatScanSectorDirents visitor sector lba rest c (index + 1)
    else fatScanSectorDirents visitor sector lba rest c index

def scanSectors (visitor : Visitor σ) : List Nat → Fat × σ → Nat → (Fat × σ) × Nat × Bool
  | [], c, index => (c, index, false)
  | lba :: rest, c, index =>
    match ataReadSector c.1 lba with
    | (s, none) => ((s, c.2), index, true)
    | (s, some sector) =>
      match fatScanSectorDirents visitor sector lba direntOffsets (s, c.2) index with
      | (c, index, true) => (c, index, true)
      | (c, index, false) => scanSectors visitor rest c index

variable (g : Geometry)

def rootLbas : List Nat := (List.range g.rootDirSectors).map (g.firstRootDirSector + ·)
def clusterLbas (cluster : Nat) : List Nat := (List.range g.sectorsPerCluster).map (sectorOf g cluster)

def scanChain (visitor : Visitor σ) : Nat → Nat → Fat × σ → Nat → Option (Fat × σ)
  | 0, _, _, _ => none
  | fuel + 1, cluster, c, index =>
    if 2 ≤ cluster ∧ cluster < fat16EocMin then
      match scanSectors visitor (clusterLbas g cluster) c index with
      | (c, _, true) => some c
      | (c, index, false) =>
        let next := fatNextCluster g c.1 cluster
        scanChain visitor fuel next.2 (next.1, c.2) index
    else some c

def fatIterateDir (visitor : Visitor σ) (fuel : Nat) (dir : Option Nat) (c : Fat × σ) : Option (Fat × σ) :=
  let first := (c.1.metaOf dir).firstCluster
  if first = 0 then some (scanSectors visitor (rootLbas g) c 0).1
  else scanChain g visitor fuel first c 0

end Scan

def fatAllocNode (s : Fat) (node : FatNode) : Fat × Option Nat :=
  if s.count ≥ fatMaxNodes then (s, none)
  else ({ s with nodes := Function.update s.nodes s.count node, count := s.count + 1 }, some s.count)

def entryType (raw : Nat → BitVec 8) : NodeType :=
  if raw 11 &&& attrDirectory ≠ 0#8 then .dir else .file

/-- The node that `fat_lookup_visitor` makes of an entry. -/
def entryNode (parent : Option Nat) (display : List (BitVec 8)) (raw : Nat → BitVec 8)
    (lba off : Nat) : FatNode where
  type := entryType raw
  name := display
  parent := parent
  mode := if entryType raw = .dir then 0o755#64 else 0o644#64
  priv := ⟨read16 raw 26, if entryType raw = .dir then 0 else read32 raw 28, lba, off⟩

def fatLookupVisitor (want : List (BitVec 8)) (parent : Option Nat) : Visitor (Option Nat) :=
  fun display raw _ lba off c =>
    if display ≠ want then (c, false)
    else
      match fatAllocNode c.1 (entryNode parent display raw lba off) with
      | (s, none) => ((s, c.2), true)
      | (s, some i) => ((s, some i), true)

def fatReaddirVisitor (want nameOutSize : Nat) : Visitor (Option (List (BitVec 8))) :=
  fun display _ index _ _ c =>
    if index ≠ want then (c, false) else ((c.1, some (display.take (nameOutSize - 1))), true)

def dotName : List (BitVec 8) := [dotByte]
def dotDotName : List (BitVec 8) := [dotByte, dotByte]

/-- The context says whether only the entries of the directory itself were met. -/
def fatDotCheckVisitor : Visitor Bool :=
  fun display _ _ _ _ c =>
    if display ≠ dotName ∧ display ≠ dotDotName then ((c.1, false), true) else (c, false)

section Operations

variable (g : Geometry) (fuel : Nat)

def fatDirLookup (s : Fat) (dir : Option Nat) (name : List (BitVec 8)) : Option (Fat × Option Nat) :=
  fatIterateDir g (fatLookupVisitor name dir) fuel dir (s, none)

/-- 1 and a name, or 0 past the last entry. -/
def fatDirReaddir (s : Fat) (dir : Option Nat) (index nameOutSize : Nat) :
    Option (Fat × Option (List (BitVec 8))) :=
  fatIterateDir g (fatReaddirVisitor index nameOutSize) fuel dir (s, none)

/-! Files -/

/-- Clusters passed over before the first one that is read. -/
def skipClusters : Nat → Fat → Nat → Fat × Option Nat
  | 0, s, cluster => (s, some cluster)
  | n + 1, s, cluster =>
    let next := fatNextCluster g s cluster
    if next.2 < 2 ∨ next.2 ≥ fat16EocMin then (next.1, none) else skipClusters n next.1 next.2

/-- The copying loop of `fat_file_read`, which copies at least one byte in each round. -/
def readLoop : Nat → Fat → Nat → Nat → Nat → Fat × List (BitVec 8)
  | 0, s, _, _, _ => (s, [])
  | fuel + 1, s, cluster, pos, left =>
    if left = 0 then (s, [])
    else
      match ataReadSector s (sectorOf g cluster (pos / 512)) with
      | (s, none) => (s, [])
      | (s, some sector) =>
        let chunk := min left (512 - pos % 512)
        let bytes := (List.range chunk).map fun i => sector (pos % 512 + i)
        if pos + chunk ≥ g.clusterSize then
          let next := fatNextCluster g s cluster
          if next.2 < 2 ∨ next.2 ≥ fat16EocMin then (next.1, bytes)
          else
            let r := readLoop fuel next.1 next.2 0 (left - chunk)
            (r.1, bytes ++ r.2)
        else
          let r := readLoop fuel s cluster (pos + chunk) (left - chunk)
          (r.1, bytes ++ r.2)

def fatFileRead (s : Fat) (node count offset : Nat) : Fat × List (BitVec 8) :=
  let m := (s.nodes node).priv
  if offset ≥ m.fileSize then (s, [])
  else
    let n := min count (m.fileSize - offset)
    match skipClusters g (offset / g.clusterSize) s m.firstCluster with
    | (s, none) => (s, [])
    | (s, some cluster) => readLoop g n s cluster (offset % g.clusterSize) n

/-- The next cluster of a chain, a fresh one at its end. -/
def nextOrExtend (s : Fat) (cluster : Nat) : Fat × Option Nat :=
  let next := fatNextCluster g s cluster
  if next.2 < 2 ∨ next.2 ≥ fat16EocMin then
    let a := fatAllocCluster g next.1
    if a.2 = 0 then (a.1, none) else (fatWriteFatEntry g a.1 cluster a.2, some a.2)
  else (next.1, some next.2)

def walkTo : Nat → Fat → Nat → Fat × Option Nat
  | 0, s, cluster => (s, some cluster)
  | n + 1, s, cluster =>
    match nextOrExtend g s cluster with
    | (s, none) => (s, none)
    | (s, some next) => walkTo n s next

/-- The copying loop of `fat_file_write`; the number of bytes written comes back. A
sector that is written whole is not read first. -/
def writeLoop : Nat → Fat → Nat → Nat → (Nat → BitVec 8) → Nat → Nat → Fat × Nat
  | 0, s, _, _, _, _, copied => (s, copied)
  | fuel + 1, s, cluster, pos, src, left, copied =>
    if left = 0 then (s, copied)
    else
      let lba := sectorOf g cluster (pos / 512)
      let chunk := min left (512 - pos % 512)
      let old := if chunk < 512 then ataReadSector s lba else (s, some fun _ => 0#8)
      match old with
      | (s, none) => (s, copied)
      | (s, some sector) =>
        let bytes := (List.range chunk).map fun i => src (copied + i)
        match ataWriteSector s lba (patch sector (pos % 512) bytes) with
        | (s, false) => (s, copied)
        | (s, true) =>
          if pos + chunk ≥ g.clusterSize ∧ 0 < left - chunk then
            match nextOrExtend g s cluster with
            | (s, none) => (s, copied + chunk)
            | (s, some next) => writeLoop fuel s next 0 src (left - chunk) (copied + chunk)
          else writeLoop fuel s cluster (pos + chunk) src (left - chunk) (copied + chunk)

def Fat.setMeta (s : Fat) (node : Nat) (m : FatMeta) : Fat :=
  { s with nodes := Function.update s.nodes node { s.nodes node with priv := m } }

def fatWritebackDirent (s : Fat) (node : Nat) : Fat :=
  let m := (s.nodes node).priv
  match ataReadSector s m.direntLba with
  | (s, none) => s
  | (s, some sector) =>
    (ataWriteSector s m.direntLba (patch sector (m.direntOffset + 26)
      [byteOf m.firstCluster 0, byteOf m.firstCluster 1, byteOf m.fileSize 0, byteOf m.fileSize 1,
        byteOf m.fileSize 2, byteOf m.fileSize 3])).1

/-- What `fat_file_write` does once the file has a first cluster. -/
def writeFrom (s : Fat) (node : Nat) (src : Nat → BitVec 8) (count offset : Nat) : Fat × Int :=
  match walkTo g (offset / g.clusterSize) s (s.nodes node).priv.firstCluster with
  | (s, none) => (s, 0)
  | (s, some cluster) =>
    let r := writeLoop g count s cluster (offset % g.clusterSize) src count 0
    let m := (r.1.nodes node).priv
    let s := r.1.setMeta node
      { m with fileSize := if offset + r.2 > m.fileSize then (offset + r.2) % 2 ^ 32 else m.fileSize }
    (fatWritebackDirent s node, r.2)

def fatFileWrite (s : Fat) (node : Nat) (src : Nat → BitVec 8) (count offset : Nat) : Fat × Int :=
  if count = 0 then (s, 0)
  else if (s.nodes node).priv.firstCluster = 0 then
    let a := fatAllocCluster g s
    if a.2 = 0 then (a.1, -enospc)
    else
      writeFrom g (a.1.setMeta node { (a.1.nodes node).priv with firstCluster := a.2 }) node src count offset
  else writeFrom g s node src count offset

/-! Creating and removing -/

/-- The first slot of a sector that is deleted or past the end. -/
def freeOffset (sector : Sector) : Option Nat :=
  direntOffsets.find? fun off => sector off == deletedMark || sector off == 0#8

/-- A place for an entry, nothing, or an I/O error. -/
def findInSectors : List Nat → Fat → Fat × Except Int (Option (Nat × Nat))
  | [], s => (s, .ok none)
  | lba :: rest, s =>
    match ataReadSector s lba with
    | (s, none) => (s, .error (-eio))
    | (s, some sector) =>
      match freeOffset sector with
      | some off => (s, .ok (some (lba, off)))
      | none => findInSectors rest s

/-- The search through a chain; without success it gives the last cluster. -/
def findInChain : Nat → Nat → Nat → Fat → Option (Fat × Except Int (Sum (Nat × Nat) Nat))
  | 0, _, _, _ => none
  | fuel + 1, cluster, last, s =>
    if 2 ≤ cluster ∧ cluster < fat16EocMin then
      match findInSectors (clusterLbas g cluster) s with
      | (s, .error e) => some (s, .error e)
      | (s, .ok (some place)) => some (s, .ok (.inl place))
      | (s, .ok none) =>
        let next := fatNextCluster g s cluster
        findInChain fuel next.2 cluster next.1
    else some (s, .ok (.inr last))

/-- Zeroes for a list of sectors, up to the first write that fails. -/
def zeroSectors : List Nat → Fat → Fat × Bool
  | [], s => (s, true)
  | lba :: rest, s =>
    match ataWriteSector s lba (fun _ => 0#8) with
    | (s, false) => (s, false)
    | (s, true) => zeroSectors rest s

def fatFindFreeDirentSlot (s : Fat) (dir : Option Nat) : Option (Fat × Except Int (Nat × Nat)) :=
  let first := (s.metaOf dir).firstCluster
  if first = 0 then
    match findInSectors (rootLbas g) s with
    | (s, .error e) => some (s, .error e)
    | (s, .ok none) => some (s, .error (-enospc))
    | (s, .ok (some place)) => some (s, .ok place)
  else
    match findInChain g fuel first first s with
    | none => none
    | some (s, .error e) => some (s, .error e)
    | some (s, .ok (.inl place)) => some (s, .ok place)
    | some (s, .ok (.inr last)) =>
      let a := fatAllocCluster g s
      if a.2 = 0 then some (a.1, .error (-enospc))
      else
        let s := fatWriteFatEntry g a.1 last a.2
        match zeroSectors (clusterLbas g a.2) s with
        | (s, false) => some (s, .error (-eio))
        | (s, true) => some (s, .ok (clusterToLba g a.2, 0))

def newEntry (name : List (BitVec 8)) (attr : BitVec 8) (cluster : Nat) : List (BitVec 8) :=
  fatEncode83Name name ++ [attr] ++ List.replicate 14 0#8 ++ [byteOf cluster 0, byteOf cluster 1] ++
    List.replicate 4 0#8

/-- The end of `fat_dir_create` and `fat_dir_mkdir`; their codes for a failed write differ. -/
def addEntry (s : Fat) (dir : Option Nat) (entry : List (BitVec 8)) (writeError : Int) : Option (Fat × Int) :=
  match fatFindFreeDirentSlot g fuel s dir with
  | none => none
  | some (s, .error e) => some (s, e)
  | some (s, .ok (lba, offset)) =>
    match ataReadSector s lba with
    | (s, none) => some (s, -eio)
    | (s, some sector) =>
      let w := ataWriteSector s lba (patch sector offset entry)
      some (w.1, if w.2 then 0 else writeError)

def fatDirCreate (s : Fat) (dir : Option Nat) (name : List (BitVec 8)) : Option (Fat × Int) :=
  match fatDirLookup g fuel s dir name with
  | none => none
  | some (s, some _) => some (s, -eexist)
  | some (s, none) => addEntry g fuel s dir (newEntry name attrArchive 0) (-1)

/-- The first sector of a new directory: the entries of the directory itself and of its parent. -/
def dotEntries (sector : Sector) (cluster parentCluster : Nat) : Sector :=
  let blanks := fun n => List.replicate n blankByte
  let dot := patch (patch sector 0 (dotByte :: blanks 10 ++ [attrDirectory])) 26
    [byteOf cluster 0, byteOf cluster 1]
  patch (patch dot 32 (dotByte :: dotByte :: blanks 9 ++ [attrDirectory])) 58
    [byteOf parentCluster 0, byteOf parentCluster 1]

def fatDirMkdir (s : Fat) (dir : Option Nat) (name : List (BitVec 8)) : Option (Fat × Int) :=
  match fatDirLookup g fuel s dir name with
  | none => none
  | some (s, some _) => some (s, -eexist)
  | some (s, none) =>
    let a := fatAllocCluster g s
    if a.2 = 0 then some (a.1, -enospc)
    else
      match zeroSectors (clusterLbas g a.2) a.1 with
      | (s, false) => some (s, -eio)
      | (s, true) =>
        match ataReadSector s (clusterToLba g a.2) with
        | (s, none) => some (s, -eio)
        | (s, some sector) =>
          match ataWriteSector s (clusterToLba g a.2) (dotEntries sector a.2 (s.metaOf dir).firstCluster) with
          | (s, false) => some (s, -eio)
          -- a failure from here on leaves the new cluster without an owner
          | (s, true) => addEntry g fuel s dir (newEntry name attrDirectory a.2) (-eio)

/-- The loop that gives a chain back. -/
def freeChain : Nat → Fat → Nat → Option Fat
  | 0, _, _ => none
  | fuel + 1, s, cluster =>
    if 2 ≤ cluster ∧ cluster < fat16EocMin then
      let next := fatNextCluster g s cluster
      freeChain fuel (fatWriteFatEntry g next.1 cluster 0) next.2
    else some s

/-- The end of `fat_dir_unlink`. -/
def removeEntry (s : Fat) (target : Nat) : Option (Fat × Int) :=
  let m := (s.nodes target).priv
  match freeChain g fuel s m.firstCluster with
  | none => none
  | some s =>
    match ataReadSector s m.direntLba with
    | (s, none) => some (s, -eio)
    | (s, some sector) =>
      let w := ataWriteSector s m.direntLba (patch sector m.direntOffset [deletedMark])
      some (w.1, if w.2 then 0 else -eio)

def fatDirUnlink (s : Fat) (dir : Option Nat) (name : List (BitVec 8)) : Option (Fat × Int) :=
  match fatDirLookup g fuel s dir name with
  | none => none
  | some (s, none) => some (s, -enoent)
  | some (s, some target) =>
    if (s.nodes target).type = .dir then
      match fatIterateDir g fatDotCheckVisitor fuel (some target) (s, true) with
      | none => none
      | some (s, false) => some (s, -enotempty)
      | some (s, true) => removeEntry g fuel s target
    else removeEntry g fuel s target

end Operations

end Isunux
