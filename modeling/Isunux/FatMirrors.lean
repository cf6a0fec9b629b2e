import Isunux.FatCopies

/-! The calls of the FAT driver keep the copies of the table alike. What they scan they
only read, the entries they write they write to every copy, and what else they write goes
to sectors of directories and files. -/
namespace Isunux

open Walk

/-! Directories -/

section Directories

variable {σ : Type} {g : Geometry} {s : Fat} {visitor : Visitor σ} {P : σ → Prop} {Q : Fat × σ → Prop}
  {fuel : Nat} {dir : Option Nat}

/-- Until it stops the scan, the visitor leaves the driver alone and keeps `P`; where it
stops there is `Q`. -/
def LooksOnly (g : Geometry) (s : Fat) (visitor : Visitor σ) (P : σ → Prop) (Q : Fat × σ → Prop) : Prop :=
  ∀ display raw index lba off st, ¬ InTable g lba → P st →
    ((visitor display raw index lba off (s, st)).2 = true ∧ Q (visitor display raw index lba off (s, st)).1) ∨
      ∃ st', P st' ∧ visitor display raw index lba off (s, st) = ((s, st'), false)

theorem sectorDirents_looks (looks : LooksOnly g s visitor P Q) {sector : Sector} {lba : Nat} (out : ¬ InTable g lba)
    (offs : List Nat) {st : σ} (start : P st) (index : Nat) :
    ((fatScanSectorDirents visitor sector lba offs (s, st) index).2.2 = true ∧
        Q (fatScanSectorDirents visitor sector lba offs (s, st) index).1) ∨
      ∃ st', P st' ∧ (fatScanSectorDirents visitor sector lba offs (s, st) index).1 = (s, st') := by
  induction offs generalizing st index with
  | nil => exact .inr ⟨st, start, rfl⟩
  | cons off rest ih =>
    rw [fatScanSectorDirents]
    split
    · exact .inr ⟨st, start, rfl⟩
    split
    · rcases looks (fatDecode83Name (entryAt sector off)) (entryAt sector off) index lba off st out start with
        ⟨stops, result⟩ | ⟨st', kept, goes⟩
      · generalize visitor _ _ _ _ _ _ = v at stops result
        obtain ⟨c, stop⟩ := v
        obtain rfl : stop = true := stops
        exact .inl ⟨rfl, result⟩
      · rw [goes]
        exact ih kept _
    · exact ih start _

theorem sectors_look (looks : LooksOnly g s visitor P Q) (calm : s.Calm) {lbas : List Nat}
    (out : ∀ lba ∈ lbas, ¬ InTable g lba) {st : σ} (start : P st) (index : Nat) :
    ((scanSectors visitor lbas (s, st) index).2.2 = true ∧ Q (scanSectors visitor lbas (s, st) index).1) ∨
      ∃ st', P st' ∧ (scanSectors visitor lbas (s, st) index).1 = (s, st') := by
  induction lbas generalizing st index with
  | nil => exact .inr ⟨st, start, rfl⟩
  | cons lba rest ih =>
    have sector :=
      @sectorDirents_looks _ _ _ _ _ _ looks (s.disk lba) _ (out lba List.mem_cons_self) direntOffsets _ start index
    rw [scanSectors, ataReadSector_calm calm]
    dsimp only
    generalize fatScanSectorDirents visitor (s.disk lba) lba direntOffsets (s, st) index = r at sector
    obtain ⟨c, index', stop⟩ := r
    cases stop with
    | true =>
      rcases sector with ⟨-, result⟩ | ⟨st', kept, same⟩
      · exact .inl ⟨rfl, result⟩
      · exact .inr ⟨st', kept, same⟩
    | false =>
      rcases sector with ⟨none, -⟩ | ⟨st', kept, same⟩
      · cases none
      · obtain rfl : c = (s, st') := same
        exact ih (fun lba mem => out lba (List.mem_cons_of_mem _ mem)) kept index'

theorem chain_looks (looks : LooksOnly g s visitor P Q) (calm : s.Calm) {cluster : Nat}
    (links : InChain cluster → LinksInside g s.disk cluster) {st : σ} (start : P st) (index : Nat) {r : Fat × σ}
    (ends : scanChain g visitor fuel cluster (s, st) index = some r) : Q r ∨ ∃ st', P st' ∧ r = (s, st') := by
  induction fuel generalizing cluster st index with
  | zero => cases ends
  | succ fuel ih =>
    rw [scanChain] at ends
    by_cases inside : InChain cluster
    · rw [if_pos inside] at ends
      have linked := links inside
      have sectors := sectors_look looks calm (fun lba mem => cluster_out inside.1 linked.bound mem) start index
      generalize scanSectors visitor (clusterLbas g cluster) (s, st) index = v at sectors ends
      obtain ⟨c, index', stop⟩ := v
      cases stop with
      | true =>
        cases ends
        exact sectors.imp (fun both => both.2) id
      | false =>
        rcases sectors with ⟨none, -⟩ | ⟨st', kept, same⟩
        · cases none
        · obtain rfl : c = (s, st') := same
          dsimp only at ends
          rw [fatNextCluster_calm calm] at ends
          exact ih linked.next kept index' ends
    · rw [if_neg inside] at ends
      cases ends
      exact .inr ⟨st, start, rfl⟩

theorem directory_looks (looks : LooksOnly g s visitor P Q) (calm : s.Calm)
    (inside : ClustersInside g s.disk (s.metaOf dir).firstCluster) {st : σ} (start : P st) {r : Fat × σ}
    (ends : fatIterateDir g visitor fuel dir (s, st) = some r) : Q r ∨ ∃ st', P st' ∧ r = (s, st') := by
  unfold fatIterateDir at ends
  dsimp only at ends
  by_cases root : (s.metaOf dir).firstCluster = 0
  · rw [if_pos root] at ends
    cases ends
    exact (sectors_look looks calm (fun lba mem => root_out mem) start 0).imp (fun both => both.2) id
  · rw [if_neg root] at ends
    exact chain_looks looks calm (fun _ => inside.resolve_left root) start 0 ends

/-- A node has been added to the pool, or none. -/
structure Grew (g : Geometry) (s t : Fat) (found : Option Nat) : Prop where
  tended : Tended g t
  disk : t.disk = s.disk
  nodes : ∀ i < s.count, t.nodes i = s.nodes i
  count : s.count ≤ t.count
  found : ∀ i, found = some i → i < t.count

theorem Tended.lookup (t : Tended g s) (inside : ClustersInside g s.disk (s.metaOf dir).firstCluster)
    {name : List (BitVec 8)} {r : Fat × Option Nat} (ends : fatDirLookup g fuel s dir name = some r) :
    Grew g s r.1 r.2 := by
  have looks : LooksOnly g s (fatLookupVisitor name dir) (fun st => st = none) fun c => Grew g s c.1 c.2 := by
    rintro display raw index lba off st out rfl
    unfold fatLookupVisitor
    by_cases other : display ≠ name
    · rw [if_pos other]
      exact .inr ⟨none, rfl, rfl⟩
    · rw [if_neg other]
      refine .inl ?_
      unfold fatAllocNode
      by_cases full : s.count ≥ fatMaxNodes
      · rw [if_pos full]
        exact ⟨rfl, t, rfl, fun _ _ => rfl, le_rfl, nofun⟩
      · rw [if_neg full]
        refine ⟨rfl, ⟨t.calm, t.mirrored, fun i low => ?_⟩, rfl, fun i low => Function.update_of_ne (Nat.ne_of_lt low) _ _,
          Nat.le_succ _, fun i found => ?_⟩
        · dsimp only at low ⊢
          by_cases here : i = s.count
          · rw [here, Function.update_self]
            exact out
          · rw [Function.update_of_ne here]
            exact t.places i (by omega)
        · cases found
          exact Nat.lt_succ_self _
  rcases directory_looks looks t.calm inside rfl ends with grew | ⟨st, rfl, rfl⟩
  · exact grew
  · exact ⟨t, rfl, fun _ _ => rfl, le_rfl, nofun⟩

/-- The directory's own node or none. -/
def OnPool (s : Fat) (dir : Option Nat) : Prop := ∀ i, dir = some i → i < s.count

theorem metaOf_same {t : Fat} (nodes : ∀ i < s.count, t.nodes i = s.nodes i) (low : OnPool s dir) :
    t.metaOf dir = s.metaOf dir := by
  cases dir with
  | none => rfl
  | some i => exact congrArg FatNode.priv (nodes i (low i rfl))

theorem findInChain_inside (calm : s.Calm) {cluster last : Nat}
    (links : InChain cluster → LinksInside g s.disk cluster) (bound : last < g.totalEntries)
    {r : Fat × Except Int (Sum (Nat × Nat) Nat)} (ends : findInChain g fuel cluster last s = some r) :
    (∃ place, r = (s, .ok (.inl place)) ∧ ¬ InTable g place.1) ∨ ∃ last, r = (s, .ok (.inr last)) ∧
      last < g.totalEntries := by
  induction fuel generalizing cluster last with
  | zero => cases ends
  | succ fuel ih =>
    rw [findInChain] at ends
    by_cases inside : InChain cluster
    · have linked := links inside
      rw [if_pos inside, findInSectors_calm calm] at ends
      cases found : (slotsOf (clusterLbas g cluster)).find? (freeSlot s.disk) with
      | some l =>
        rw [found] at ends
        cases ends
        have mem := mem_slotsOf.mp (List.mem_of_find?_eq_some found)
        exact .inl ⟨l, rfl, cluster_out inside.1 linked.bound mem.1⟩
      | none =>
        rw [found] at ends
        dsimp only at ends
        rw [fatNextCluster_calm calm] at ends
        exact ih linked.next linked.bound ends
    · rw [if_neg inside] at ends
      cases ends
      exact .inr ⟨last, rfl, bound⟩

theorem zeroed_mirrored {d : Nat → Sector} (fats : 0 < g.numFats) (m : Mirrored g d) {lbas : List Nat}
    (out : ∀ lba ∈ lbas, ¬ InTable g lba) : Mirrored g (zeroed d lbas) := by
  refine m.congr fats fun lba inside => if_neg fun mem => out lba mem inside

/-- A slot behind the table, in a directory that may have got another cluster for it. -/
theorem freeSlot_mirrored (fats : 0 < g.numFats) (calm : s.Calm) (m : Mirrored g s.disk)
    (inside : ClustersInside g s.disk (s.metaOf dir).firstCluster) {r : Fat × Except Int (Nat × Nat)}
    (ends : fatFindFreeDirentSlot g fuel s dir = some r) :
    ∃ d, r.1 = s.withDisk d ∧ Mirrored g d ∧ ∀ place, r.2 = .ok place → ¬ InTable g place.1 := by
  unfold fatFindFreeDirentSlot at ends
  dsimp only at ends
  by_cases root : (s.metaOf dir).firstCluster = 0
  · rw [if_pos root, findInSectors_calm calm] at ends
    cases found : (slotsOf (rootLbas g)).find? (freeSlot s.disk) with
    | none =>
      rw [found] at ends
      cases ends
      exact ⟨s.disk, rfl, m, nofun⟩
    | some l =>
      rw [found] at ends
      cases ends
      refine ⟨s.disk, rfl, m, fun place same => ?_⟩
      cases same
      exact root_out (mem_slotsOf.mp (List.mem_of_find?_eq_some found)).1
  · rw [if_neg root] at ends
    have linked := inside.resolve_left root
    cases chain : findInChain g fuel (s.metaOf dir).firstCluster (s.metaOf dir).firstCluster s with
    | none =>
      rw [chain] at ends
      cases ends
    | some v =>
      rw [chain] at ends
      rcases findInChain_inside calm (fun _ => linked) linked.bound chain with ⟨place, rfl, out⟩ | ⟨last, rfl, bound⟩
      · cases ends
        refine ⟨s.disk, rfl, m, fun place' same => ?_⟩
        cases same
        exact out
      · dsimp only at ends
        rw [fatAllocCluster_calm calm] at ends
        cases free : freeCluster g s.disk with
        | none =>
          rw [free] at ends
          cases ends
          exact ⟨s.disk, rfl, m, nofun⟩
        | some a =>
          obtain ⟨low, boundA, -⟩ := freeCluster_some free
          rw [free] at ends
          dsimp only at ends
          rw [if_neg (by omega), fatWriteFatEntry_calm calm.withDisk, zeroSectors_calm calm.withDisk.withDisk] at ends
          cases ends
          refine ⟨_, rfl, zeroed_mirrored fats ((m.entry boundA _).entry bound _) fun lba mem =>
            cluster_out low boundA mem, fun place same => ?_⟩
          cases same
          have behind := clusterToLba_behind low boundA
          unfold Geometry.firstDataSector at behind
          exact not_inTable_behind (by dsimp only; omega)

theorem Tended.addEntry (t : Tended g s) (fats : 0 < g.numFats)
    (inside : ClustersInside g s.disk (s.metaOf dir).firstCluster) {entry : List (BitVec 8)} {code : Int} {r : Fat × Int}
    (ends : addEntry g fuel s dir entry code = some r) : Tended g r.1 := by
  unfold Isunux.addEntry at ends
  cases slot : fatFindFreeDirentSlot g fuel s dir with
  | none =>
    rw [slot] at ends
    cases ends
  | some v =>
    obtain ⟨d, disk, m, place⟩ := freeSlot_mirrored fats t.calm t.mirrored inside slot
    obtain ⟨u, found⟩ := v
    obtain rfl : u = s.withDisk d := disk
    rw [slot] at ends
    have t' := t.withDisk m
    cases found with
    | error e =>
      cases ends
      exact t'
    | ok l =>
      dsimp only at ends
      rw [ataReadSector_calm t'.calm] at ends
      dsimp only at ends
      rw [ataWriteSector_calm t'.calm] at ends
      cases ends
      exact t'.store fats (place l rfl) _

theorem Tended.create (t : Tended g s) (fats : 0 < g.numFats) (low : OnPool s dir)
    (inside : ClustersInside g s.disk (s.metaOf dir).firstCluster) {name : List (BitVec 8)} {r : Fat × Int}
    (ends : fatDirCreate g fuel s dir name = some r) : Tended g r.1 := by
  unfold fatDirCreate at ends
  cases looked : fatDirLookup g fuel s dir name with
  | none =>
    rw [looked] at ends
    cases ends
  | some v =>
    have grew := t.lookup inside looked
    obtain ⟨u, found⟩ := v
    rw [looked] at ends
    cases found with
    | some i =>
      cases ends
      exact grew.tended
    | none =>
      refine grew.tended.addEntry fats ?_ ends
      rw [grew.disk, metaOf_same grew.nodes low]
      exact inside

theorem Tended.mkdir (t : Tended g s) (fats : 0 < g.numFats) (low : OnPool s dir)
    (inside : ClustersInside g s.disk (s.metaOf dir).firstCluster) {name : List (BitVec 8)} {r : Fat × Int}
    (ends : fatDirMkdir g fuel s dir name = some r) : Tended g r.1 := by
  unfold fatDirMkdir at ends
  cases looked : fatDirLookup g fuel s dir name with
  | none =>
    rw [looked] at ends
    cases ends
  | some v =>
    have grew := t.lookup inside looked
    obtain ⟨u, found⟩ := v
    rw [looked] at ends
    have t' := grew.tended
    cases found with
    | some i =>
      cases ends
      exact t'
    | none =>
      dsimp only at ends t'
      rw [fatAllocCluster_calm t'.calm] at ends
      cases free : freeCluster g u.disk with
      | none =>
        rw [free] at ends
        cases ends
        exact t'
      | some a =>
        obtain ⟨above, bound, -⟩ := freeCluster_some free
        rw [free] at ends
        dsimp only at ends
        rw [if_neg (by omega), zeroSectors_calm t'.calm.withDisk] at ends
        dsimp only at ends
        rw [ataReadSector_calm (t'.calm.withDisk).withDisk] at ends
        dsimp only at ends
        rw [ataWriteSector_calm (t'.calm.withDisk).withDisk] at ends
        dsimp only at ends
        have out : ∀ lba ∈ clusterLbas g a, ¬ InTable g lba := fun lba mem => cluster_out above bound mem
        have behind := clusterToLba_behind above bound
        unfold Geometry.firstDataSector at behind
        have first : ¬ InTable g (clusterToLba g a) := not_inTable_behind (by omega)
        have zeroed' := t'.withDisk (zeroed_mirrored fats (t'.mirrored.entry bound fat16EocMin) out)
        refine (zeroed'.store fats first _).addEntry fats ?_ ends
        -- the directory keeps its clusters
        refine inside.imp (fun root => ?_) fun linked => ?_
        · exact (congrArg FatMeta.firstCluster (metaOf_same grew.nodes low)).trans root
        · have same : (u.metaOf dir).firstCluster = (s.metaOf dir).firstCluster :=
            congrArg FatMeta.firstCluster (metaOf_same grew.nodes low)
          change LinksInside g _ (u.metaOf dir).firstCluster
          rw [same]
          have ended := @LinksInside.setEnd _ _ _ _ linked fats bound fat16EocMin (.inr (by decide))
          refine ended.store fats fun lba table => ?_
          have away : lba ≠ clusterToLba g a := by
            rintro rfl
            exact first table
          have kept : zeroed (setEntry g u.disk a fat16EocMin) (clusterLbas g a) lba =
              setEntry g u.disk a fat16EocMin lba := if_neg fun mem => out lba mem table
          rw [← grew.disk]
          exact (Function.update_of_ne away _ _).trans kept

theorem freeChain_mirrored (fats : 0 < g.numFats) (calm : s.Calm) (m : Mirrored g s.disk) {first : Nat}
    (inside : ClustersInside g s.disk first) {t : Fat} (ends : freeChain g fuel s first = some t) :
    ∃ d, t = s.withDisk d ∧ Mirrored g d := by
  rw [freeChain_breaking calm, Option.map_eq_some_iff] at ends
  obtain ⟨d, ends, rfl⟩ := ends
  refine ⟨d, rfl, breaking_rule (Mirrored g) not_inChain_zero (fun d x y px py => fatEntry_setEntry fats px py)
    (fun d c bound m => m.entry bound 0) (fun c reached => ?_) m ends⟩
  rcases inside with rfl | linked
  · exact absurd reached.first not_inChain_zero
  · exact linked.inFile reached

theorem Tended.remove (t : Tended g s) (fats : 0 < g.numFats) {target : Nat} (low : target < s.count)
    (inside : ClustersInside g s.disk (s.nodes target).priv.firstCluster) {r : Fat × Int}
    (ends : removeEntry g fuel s target = some r) : Tended g r.1 := by
  unfold removeEntry at ends
  dsimp only at ends
  cases freed : freeChain g fuel s (s.nodes target).priv.firstCluster with
  | none =>
    rw [freed] at ends
    cases ends
  | some u =>
    obtain ⟨d, rfl, m⟩ := freeChain_mirrored fats t.calm t.mirrored inside freed
    have t' := t.withDisk m
    rw [freed] at ends
    dsimp only at ends
    rw [ataReadSector_calm t'.calm] at ends
    dsimp only at ends
    rw [ataWriteSector_calm t'.calm] at ends
    cases ends
    exact t'.store fats (t.places target low) _

theorem fatDotCheckVisitor_looks :
    LooksOnly g s fatDotCheckVisitor (fun _ => True) fun c => c.1 = s := by
  intro display raw index lba off st out _
  unfold fatDotCheckVisitor
  split
  · exact .inl ⟨rfl, rfl⟩
  · exact .inr ⟨st, trivial, rfl⟩

theorem Tended.unlink (t : Tended g s) (fats : 0 < g.numFats)
    (inside : ClustersInside g s.disk (s.metaOf dir).firstCluster) {name : List (BitVec 8)}
    (target : ∀ u i, fatDirLookup g fuel s dir name = some (u, some i) →
      ClustersInside g s.disk (u.nodes i).priv.firstCluster) {r : Fat × Int}
    (ends : fatDirUnlink g fuel s dir name = some r) : Tended g r.1 := by
  unfold fatDirUnlink at ends
  cases looked : fatDirLookup g fuel s dir name with
  | none =>
    rw [looked] at ends
    cases ends
  | some v =>
    have grew := t.lookup inside looked
    obtain ⟨u, found⟩ := v
    rw [looked] at ends
    cases found with
    | none =>
      cases ends
      exact grew.tended
    | some i =>
      have inside' := target u i looked
      have disk : u.disk = s.disk := grew.disk
      rw [← disk] at inside'
      dsimp only at ends
      by_cases isDir : (u.nodes i).type = .dir
      · rw [if_pos isDir] at ends
        cases checked : fatIterateDir g fatDotCheckVisitor fuel (some i) (u, true) with
        | none =>
          rw [checked] at ends
          cases ends
        | some c =>
          have same : c.1 = u := by
            rcases directory_looks fatDotCheckVisitor_looks grew.tended.calm inside' trivial checked with
              same | ⟨st, -, rfl⟩
            · exact same
            · rfl
          obtain ⟨u', empty⟩ := c
          obtain rfl : u' = u := same
          rw [checked] at ends
          cases empty with
          | false =>
            cases ends
            exact grew.tended
          | true => exact grew.tended.remove fats (grew.found i rfl) inside' ends
      · rw [if_neg isDir] at ends
        exact grew.tended.remove fats (grew.found i rfl) inside' ends

end Directories

/-! Runs -/

/-- The calls of the driver that write, and the lookup that hands out the nodes for them. -/
inductive FatOp where
  | lookup (dir : Option Nat) (name : List (BitVec 8))
  | write (node : Nat) (src : Nat → BitVec 8) (count offset : Nat)
  | create (dir : Option Nat) (name : List (BitVec 8))
  | mkdir (dir : Option Nat) (name : List (BitVec 8))
  | unlink (dir : Option Nat) (name : List (BitVec 8))

section Runs

variable (g : Geometry) (fuel : Nat)

/-- The driver after a call, or nothing when the call does not return. -/
def fatStep (s : Fat) : FatOp → Option Fat
  | .lookup dir name => (fatDirLookup g fuel s dir name).map (·.1)
  | .write node src count offset => some (fatFileWrite g s node src count offset).1
  | .create dir name => (fatDirCreate g fuel s dir name).map (·.1)
  | .mkdir dir name => (fatDirMkdir g fuel s dir name).map (·.1)
  | .unlink dir name => (fatDirUnlink g fuel s dir name).map (·.1)

def fatCalls : Option Fat → FatOp → Option Fat × Unit
  | none, _ => (none, ())
  | some s, op => (fatStep g fuel s op, ())

/-- A call on nodes that were handed out, with cluster numbers below `fat_size_16 * 256`. -/
def ClustersBelow (s : Fat) : FatOp → Prop
  | .lookup dir _ | .create dir _ | .mkdir dir _ =>
    OnPool s dir ∧ ClustersInside g s.disk (s.metaOf dir).firstCluster
  | .write node _ _ _ => node < s.count ∧ ClustersInside g s.disk (s.nodes node).priv.firstCluster
  | .unlink dir name =>
    OnPool s dir ∧ ClustersInside g s.disk (s.metaOf dir).firstCluster ∧
      ∀ u i, fatDirLookup g fuel s dir name = some (u, some i) →
        ClustersInside g s.disk (u.nodes i).priv.firstCluster

/-- The drive is sent the whole number, as `ata_setup_lba28` sends no more than 28 bits of it,
and the sector is none of the table. -/
def OffTable (lba : Nat) : Prop := lba < 2 ^ 28 ∧ ¬ InTable g lba

def ClusterOffTable (c : Nat) : Prop := ∀ lba ∈ clusterLbas g c, OffTable g lba

/-- The cluster `n` links behind `c`, with free clusters linked behind the last one. -/
def clusterAfter : Nat → (Nat → Sector) → Nat → Option Nat
  | 0, _, c => some c
  | n + 1, disk, c =>
    if InChain (fatEntry g disk c) then clusterAfter n disk (fatEntry g disk c)
    else
      match freeCluster g disk with
      | none => none
      | some a => clusterAfter n (setEntry g (setEntry g disk a fat16EocMin) c a) a

/-- Cluster `n` of a file as a write finds or adds it; 0 is the first cluster of an empty file. -/
def clusterFor (disk : Nat → Sector) (first n : Nat) : Option Nat :=
  if first = 0 then
    match freeCluster g disk with
    | none => none
    | some a => clusterAfter g n (setEntry g disk a fat16EocMin) a
  else clusterAfter g n disk first

/-- A directory, not the root, that takes another cluster for its next entry. -/
def FullDir (disk : Nat → Sector) (first : Nat) : Prop :=
  first ≠ 0 ∧ ∀ c, InFile g disk first c → ∀ l ∈ slotsOf (clusterLbas g c), freeSlot disk l = false

/-- The sectors that the bytes of a write go to, and those of the clusters that a new entry or
a new directory takes, lie off the table. A volume without sectors in its clusters has no
write: `fat_file_write` divides by their number. -/
def WritesOutside (s : Fat) : FatOp → Prop
  | .lookup _ _ | .unlink _ _ => True
  | .write node _ count offset =>
    count ≠ 0 → 0 < g.sectorsPerCluster ∧ ∀ p, offset ≤ p → p < offset + count → ∀ c,
      clusterFor g s.disk (s.nodes node).priv.firstCluster (p / g.clusterSize) = some c →
        OffTable g (sectorOf g c (p % g.clusterSize / 512))
  | .create dir name =>
    ∀ u, fatDirLookup g fuel s dir name = some (u, none) → FullDir g s.disk (s.metaOf dir).firstCluster →
      ∀ a, freeCluster g s.disk = some a → ClusterOffTable g a
  | .mkdir dir name =>
    ∀ u, fatDirLookup g fuel s dir name = some (u, none) → ∀ a, freeCluster g s.disk = some a →
      ClusterOffTable g a ∧
        (FullDir g s.disk (s.metaOf dir).firstCluster → ¬ InFile g s.disk (s.metaOf dir).firstCluster a →
          ∀ b, freeCluster g (setEntry g s.disk a fat16EocMin) = some b → ClusterOffTable g b)

/-- What the calls of a run are made on. -/
def WhileRunning (ok : Fat → FatOp → Prop) : Option Fat → FatOp → Prop
  | none, _ => True
  | some s, op => ok s op

/-- The driver as it was mounted on a volume whose copies agree. -/
structure FreshVolume (s : Fat) : Prop where
  calm : s.Calm
  mirrored : Mirrored g s.disk
  empty : s.count = 0

/-- The table as a map, and everything but the table as it was. -/
def EntryWritten (s : Fat) (c value : Nat) : Prop :=
  let t := fatWriteFatEntry g s c value
  (fatNextCluster g t c).2 = value % 2 ^ 16 ∧
    (∀ c' < g.totalEntries, c' ≠ c → (fatNextCluster g t c').2 = (fatNextCluster g s c').2) ∧
    ∀ lba, ¬ InTable g lba → t.disk lba = s.disk lba

variable {g fuel} {s : Fat}

theorem fatWriteFatEntry_written (fats : 0 < g.numFats) (calm : s.Calm) {c : Nat} (bound : c < g.totalEntries)
    (value : Nat) : EntryWritten g s c value := by
  unfold EntryWritten
  dsimp only
  rw [fatWriteFatEntry_calm calm, fatNextCluster_calm calm.withDisk, withDisk_disk]
  refine ⟨?_, fun c' bound' other => ?_, fun lba out => ?_⟩
  · dsimp only
    rw [fatEntry_setEntry fats bound bound, if_pos rfl]
  · rw [fatNextCluster_calm calm.withDisk, fatNextCluster_calm calm]
    dsimp only [withDisk_disk]
    rw [fatEntry_setEntry fats bound bound', if_neg other]
  · refine setEntry_outside bound ?_
    unfold InTable at out
    omega

theorem Tended.step (t : Tended g s) (fats : 0 < g.numFats) {op : FatOp} (below : ClustersBelow g fuel s op)
    (outside : WritesOutside g fuel s op) {s' : Fat} (ends : fatStep g fuel s op = some s') : Tended g s' := by
  cases op with
  | lookup dir name =>
    obtain ⟨r, returned, rfl⟩ := Option.map_eq_some_iff.mp ends
    exact (t.lookup below.2 returned).tended
  | write node src count offset =>
    cases ends
    refine t.fileWrite fats below.1 below.2 (fun some => (outside some).1) fun entered p from_ before inside => ?_
    have some : count ≠ 0 := by omega
    -- the place is in the first cluster
    have first : p / g.clusterSize = 0 := Nat.div_eq_of_lt inside
    have sector := (outside some).2 p from_ before (s.nodes node).priv.firstCluster
    rw [first, clusterFor, if_neg entered, Nat.mod_eq_of_lt inside] at sector
    exact (sector rfl).2
  | create dir name =>
    obtain ⟨r, returned, rfl⟩ := Option.map_eq_some_iff.mp ends
    exact t.create fats below.1 below.2 returned
  | mkdir dir name =>
    obtain ⟨r, returned, rfl⟩ := Option.map_eq_some_iff.mp ends
    exact t.mkdir fats below.1 below.2 returned
  | unlink dir name =>
    obtain ⟨r, returned, rfl⟩ := Option.map_eq_some_iff.mp ends
    exact t.unlink fats below.2.1 below.2.2 returned

theorem FreshVolume.run (fresh : FreshVolume g s) (fats : 0 < g.numFats) {ops : List FatOp}
    (along : Run.Along (fatCalls g fuel)
      (WhileRunning fun s op => ClustersBelow g fuel s op ∧ WritesOutside g fuel s op) (some s) ops) {s' : Fat}
    (ends : (Run.run (fatCalls g fuel) (some s) ops).1 = some s') : Tended g s' := by
  have start : Tended g s := ⟨fresh.calm, fresh.mirrored, fun i low => by
    rw [fresh.empty] at low
    omega⟩
  refine Run.run_invariant_along (fatCalls g fuel) _ (fun v => ∀ s', v = some s' → Tended g s') ?_ (some s) ops
    (fun s' same => Option.some.inj same ▸ start) along s' ends
  intro v op tended permitted s' ends
  cases v with
  | none => cases ends
  | some s => exact (tended s rfl).step fats permitted.1 permitted.2 ends

end Runs

/-- The table is a map that all copies agree on, as long as what else is written is sent to
sectors of their own. -/
theorem copies_stay_mirrored (g : Geometry) (fuel : Nat) (s : Fat) (fats : 1 ≤ g.numFats) (fresh : FreshVolume g s) :
    (∀ ops, Run.Along (fatCalls g fuel) (WhileRunning fun s op => ClustersBelow g fuel s op ∧ WritesOutside g fuel s op)
        (some s) ops →
      ∀ s', (Run.run (fatCalls g fuel) (some s) ops).1 = some s' → Mirrored g s'.disk) ∧
    ∀ t : Fat, t.Calm → ∀ c < g.totalEntries, ∀ value, EntryWritten g t c value :=
  ⟨fun _ along _ ends => (fresh.run fats along ends).mirrored,
    fun _ calm _ bound value => fatWriteFatEntry_written fats calm bound value⟩

/-- The geometry of a volume with two copies of the table and two sectors in a cluster. -/
def twoCopies : Geometry := geometryOf (smallBoot 2#8 2#8)

/-- A volume whose only entry, in the root, is of a file `A` that begins at cluster 1. -/
def clusterOneVolume : Fat where
  disk := fun lba =>
    if lba = 0 then smallBoot 2#8 2#8
    else if lba = 3 then ofBytes (newEntry [0x61#8] attrArchive 1)
    else fun _ => 0#8
  nodes := fun _ => ⟨.file, [], none, 0#64, ⟨0, 0, 0, 0⟩⟩
  count := 0
  outcomes := fun _ => .done

def clusterOneRun : List FatOp := [.lookup none [0x61#8], .write 0 (fun _ => 0xAA#8) 1 0]

theorem clusterOneVolume_fresh : FreshVolume twoCopies clusterOneVolume := by
  refine ⟨rfl, fun k copies x inside i _ => ?_, rfl⟩
  have size : twoCopies.fatSize16 = 1 := by decide
  have fats : twoCopies.numFats = 2 := by decide
  have first : twoCopies.firstFatSector = 1 := by decide
  rw [size, first]
  have blank : ∀ lba, lba = 1 ∨ lba = 2 → clusterOneVolume.disk lba = fun _ => 0#8 := by
    rintro lba (rfl | rfl) <;> rfl
  rw [blank _ (by omega), blank _ (by omega)]

theorem clusterOne_looked : ((fatStep twoCopies 1 clusterOneVolume (.lookup none [0x61#8])).map fun s =>
    (s.count, (s.nodes 0).priv.firstCluster, fatEntry twoCopies s.disk 1)) = some (1, 1, 0) := by
  decide +kernel

theorem clusterOne_below : Run.Along (fatCalls twoCopies 1) (WhileRunning (ClustersBelow twoCopies 1))
    (some clusterOneVolume) clusterOneRun := by
  refine ⟨⟨nofun, .inl rfl⟩, ?_, trivial⟩
  have looked := clusterOne_looked
  rw [Option.map_eq_some_iff] at looked
  obtain ⟨s, returned, same⟩ := looked
  rw [fatCalls, returned]
  rw [Prod.mk.injEq, Prod.mk.injEq] at same
  obtain ⟨count, first, entry⟩ := same
  have table : twoCopies.totalEntries = 256 := by decide
  refine ⟨by omega, .inr ?_⟩
  rw [first]
  refine linksInside_end (by omega) (.inr ?_)
  rw [entry]
  exact not_inChain_zero

/-- The byte lands in the second copy of the table. -/
theorem write_damages_copy :
    fatMount (clusterOneVolume.disk 0) = some twoCopies ∧ FreshVolume twoCopies clusterOneVolume ∧
      Run.Along (fatCalls twoCopies 1) (WhileRunning (ClustersBelow twoCopies 1)) (some clusterOneVolume) clusterOneRun ∧
      ∃ s, (Run.run (fatCalls twoCopies 1) (some clusterOneVolume) clusterOneRun).1 = some s ∧
        ¬ Mirrored twoCopies s.disk := by
  have mounted : fatMount (clusterOneVolume.disk 0) = some twoCopies := by
    change fatMount (smallBoot 2#8 2#8) = _
    unfold fatMount
    rw [if_neg (by decide), if_neg (by decide), if_neg (by decide)]
    rfl
  have damaged : ((Run.run (fatCalls twoCopies 1) (some clusterOneVolume) clusterOneRun).1.map fun s =>
      (s.disk 1 0, s.disk 2 0)) = some (0#8, 0xAA#8) := by decide +kernel
  rw [Option.map_eq_some_iff] at damaged
  obtain ⟨s, ends, bytes⟩ := damaged
  refine ⟨mounted, clusterOneVolume_fresh, clusterOne_below, s, ends, fun mirrored => ?_⟩
  rw [Prod.mk.injEq] at bytes
  have same : s.disk 2 0 = s.disk 1 0 := mirrored 1 (by decide) 0 (by decide) 0 (by decide)
  rw [bytes.1, bytes.2] at same
  exact absurd same (by decide)

/-- Where a table has no more entries than there are 16-bit numbers, all clusters are off it. -/
theorem offTable_small {g : Geometry} (small : g.totalEntries ≤ 2 ^ 16) {c : Nat} (low : 2 ≤ c)
    (bound : c < g.totalEntries) {i : Nat} (inside : i < 2 ^ 8) : OffTable g (sectorOf g c i) := by
  have reserved := g.reserved_lt
  have fats := g.fats_lt
  have size := g.size_lt
  have root := g.root_lt
  have tables : g.numFats * g.fatSize16 ≤ 2 ^ 8 * 2 ^ 16 := Nat.mul_le_mul fats.le size.le
  have data : (c - 2) * g.sectorsPerCluster ≤ 2 ^ 16 * 2 ^ 8 := Nat.mul_le_mul (by omega) g.perCluster_lt.le
  have behind := sectorOf_behind low bound inside
  have place := (@clusterToLba_wide g _ low (by omega)).1
  rw [sectorOf_wide low (by omega) inside, place] at behind ⊢
  refine ⟨?_, not_inTable_behind (behind.trans' (Nat.le_add_right _ _))⟩
  unfold Geometry.firstDataSector Geometry.firstRootDirSector Geometry.firstFatSector Geometry.rootDirSectors
  omega

/-- A new directory gets cluster 2, a new file cluster 3 with its first byte. -/
def newFileRun : List FatOp :=
  [.mkdir none [0x64#8], .create none [0x62#8], .lookup none [0x62#8], .write 0 (fun _ => 0xAA#8) 1 0]

theorem newFile_looked :
    ((Run.run (fatCalls twoCopies 1) (some clusterOneVolume) (newFileRun.take 3)).1.map fun s =>
      (s.count, (s.nodes 0).priv.firstCluster)) = some (1, 0) := by
  decide +kernel

theorem newFile_permitted : Run.Along (fatCalls twoCopies 1)
    (WhileRunning fun s op => ClustersBelow twoCopies 1 s op ∧ WritesOutside twoCopies 1 s op)
    (some clusterOneVolume) newFileRun := by
  have small : twoCopies.totalEntries ≤ 2 ^ 16 := by decide
  have rootFits : ∀ s : Fat, ¬ FullDir twoCopies s.disk (s.metaOf none).firstCluster := fun _ full => full.1 rfl
  have creates : ∀ (r : Option Fat) (name : List (BitVec 8)), WhileRunning (fun s op => ClustersBelow twoCopies 1 s op ∧
      WritesOutside twoCopies 1 s op) r (.create none name) := by
    rintro (_ | s) name
    · trivial
    · exact ⟨⟨nofun, .inl rfl⟩, fun _ _ full => absurd full (rootFits s)⟩
  have looksUp : ∀ (r : Option Fat) (name : List (BitVec 8)), WhileRunning (fun s op => ClustersBelow twoCopies 1 s op ∧
      WritesOutside twoCopies 1 s op) r (.lookup none name) := by
    rintro (_ | s) name
    · trivial
    · exact ⟨⟨nofun, .inl rfl⟩, trivial⟩
  refine ⟨⟨⟨nofun, .inl rfl⟩, fun u _ a free => ⟨fun lba mem => ?_, fun full => absurd full (rootFits _)⟩⟩, creates _ _,
    looksUp _ _, ?_, trivial⟩
  · obtain ⟨i, below, rfl⟩ := List.mem_map.mp mem
    obtain ⟨low, bound, -⟩ := freeCluster_some free
    exact offTable_small small low bound ((List.mem_range.mp below).trans twoCopies.perCluster_lt)
  · change WhileRunning _ (Run.run (fatCalls twoCopies 1) (some clusterOneVolume) (newFileRun.take 3)).1 _
    have looked := newFile_looked
    rw [Option.map_eq_some_iff] at looked
    obtain ⟨s, reached, same⟩ := looked
    rw [Prod.mk.injEq] at same
    rw [reached]
    refine ⟨⟨by omega, .inl same.2⟩, fun _ => ⟨by decide, fun p _ before c found => ?_⟩⟩
    obtain rfl : p = 0 := by omega
    rw [same.2, clusterFor, if_pos rfl, Nat.zero_div] at found
    cases free : freeCluster twoCopies s.disk with
    | none =>
      rw [free] at found
      cases found
    | some a =>
      rw [free] at found
      cases found
      obtain ⟨low, bound, -⟩ := freeCluster_some free
      rw [Nat.zero_mod, Nat.zero_div]
      exact offTable_small small low bound (by decide)

theorem copies_mirrored_newFile :
    ∃ s, (Run.run (fatCalls twoCopies 1) (some clusterOneVolume) newFileRun).1 = some s ∧ Mirrored twoCopies s.disk := by
  have runs : (Run.run (fatCalls twoCopies 1) (some clusterOneVolume) newFileRun).1.isSome = true := by decide +kernel
  obtain ⟨s, ends⟩ := Option.isSome_iff_exists.mp runs
  exact ⟨s, ends, (copies_stay_mirrored twoCopies 1 clusterOneVolume (by decide) clusterOneVolume_fresh).1 newFileRun
    newFile_permitted s ends⟩

end Isunux
