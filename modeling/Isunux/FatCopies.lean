import Isunux.FatDamage

/-! The copies of the file allocation table. An entry is written to all of them at one
place, and everything else the driver writes lies behind the table, as long as the
clusters it comes by are clusters of the volume. -/
namespace Isunux

open Walk

section Copies

variable {g : Geometry} {disk disk' : Nat → Sector} {c x value : Nat}

/-- All copies of the table have the same bytes. -/
def Mirrored (g : Geometry) (disk : Nat → Sector) : Prop :=
  ∀ k < g.numFats, ∀ x < g.fatSize16, ∀ i < 512,
    disk (g.firstFatSector + k * g.fatSize16 + x) i = disk (g.firstFatSector + x) i

def InTable (g : Geometry) (lba : Nat) : Prop := g.firstFatSector ≤ lba ∧ lba < g.firstRootDirSector

theorem table_sector {k : Nat} (copies : k < g.numFats) (inside : x < g.fatSize16) :
    InTable g (g.firstFatSector + k * g.fatSize16 + x) := by
  have row : (k + 1) * g.fatSize16 ≤ g.numFats * g.fatSize16 := Nat.mul_le_mul_right _ copies
  rw [Nat.add_mul, Nat.one_mul] at row
  unfold InTable Geometry.firstRootDirSector
  omega

theorem table_first (fats : 0 < g.numFats) (inside : x < g.fatSize16) : InTable g (g.firstFatSector + x) := by
  have sector := table_sector fats inside
  rwa [Nat.zero_mul, Nat.add_zero] at sector

theorem Mirrored.congr (h : Mirrored g disk) (fats : 0 < g.numFats)
    (same : ∀ lba, InTable g lba → disk' lba = disk lba) : Mirrored g disk' := by
  intro k copies x inside i low
  rw [same _ (table_sector copies inside), same _ (table_first fats inside)]
  exact h k copies x inside i low

theorem Mirrored.store (h : Mirrored g disk) (fats : 0 < g.numFats) {lba : Nat} (out : ¬ InTable g lba)
    (sector : Sector) : Mirrored g (Function.update disk lba sector) := by
  refine h.congr fats fun lba' inside => Function.update_of_ne ?_ _ _
  rintro rfl
  exact out inside

theorem Mirrored.entry (h : Mirrored g disk) (bound : c < g.totalEntries) (value : Nat) :
    Mirrored g (setEntry g disk c value) := by
  intro k copies x inside i low
  have fats : 0 < g.numFats := Nat.zero_lt_of_lt copies
  have first := @setEntry_copy _ disk _ value _ _ fats bound inside
  rw [Nat.zero_mul, Nat.add_zero] at first
  rw [setEntry_copy copies bound inside, first]
  by_cases here : x = c * 2 / 512
  · rw [if_pos here, if_pos here, patch, patch, h k copies x inside i low]
  · rw [if_neg here, if_neg here, h k copies x inside i low]

theorem sectorOf_behind (low : 2 ≤ c) (bound : c < g.totalEntries) {i : Nat} (inside : i < 2 ^ 8) :
    g.firstDataSector ≤ sectorOf g c i := by
  have size := g.size_lt
  unfold Geometry.totalEntries at bound
  have most : c ≤ 16776960 := by omega
  rw [sectorOf_wide low most inside, (clusterToLba_wide low most).1, Nat.add_assoc]
  exact Nat.le_add_right _ _

theorem clusterToLba_behind (low : 2 ≤ c) (bound : c < g.totalEntries) : g.firstDataSector ≤ clusterToLba g c := by
  rw [← sectorOf_zero]
  exact sectorOf_behind low bound (by decide)

theorem not_inTable_behind {lba : Nat} (behind : g.firstRootDirSector ≤ lba) : ¬ InTable g lba := fun inside =>
  Nat.not_lt_of_le behind inside.2

theorem cluster_out (low : 2 ≤ c) (bound : c < g.totalEntries) {lba : Nat} (mem : lba ∈ clusterLbas g c) :
    ¬ InTable g lba := by
  have per := g.perCluster_lt
  obtain ⟨i, below, rfl⟩ := List.mem_map.mp mem
  have behind := @sectorOf_behind g _ low bound i (by have := List.mem_range.mp below; omega)
  unfold Geometry.firstDataSector at behind
  exact not_inTable_behind (by omega)

theorem root_out {lba : Nat} (mem : lba ∈ rootLbas g) : ¬ InTable g lba := not_inTable_behind (mem_rootLbas.mp mem).1

end Copies

/-! Clusters of the volume -/

section Links

variable {g : Geometry} {disk : Nat → Sector} {first c x : Nat}

/-- A first cluster, and the clusters that the links lead to from there. -/
def Met (g : Geometry) (disk : Nat → Sector) (first c : Nat) : Prop :=
  c = first ∨ InFile g disk (fatEntry g disk first) c

/-- The clusters of a file or directory have entries in the table. -/
def LinksInside (g : Geometry) (disk : Nat → Sector) (first : Nat) : Prop := ∀ c, Met g disk first c → c < g.totalEntries

theorem LinksInside.bound (h : LinksInside g disk c) : c < g.totalEntries := h c (.inl rfl)

theorem LinksInside.next (h : LinksInside g disk c) (inside : InChain (fatEntry g disk c)) :
    LinksInside g disk (fatEntry g disk c) := by
  rintro x (rfl | later)
  · exact h _ (.inr (.start inside))
  · exact h x (.inr (later.cons inside))

theorem LinksInside.inFile (h : LinksInside g disk c) (reached : InFile g disk c x) : x < g.totalEntries :=
  h x reached.tail

theorem linksInside_end (bound : c < g.totalEntries) (ends : fatEntry g disk c = c ∨ ¬ InChain (fatEntry g disk c)) :
    LinksInside g disk c := by
  rintro x (rfl | later)
  · exact bound
  · have same := ends.resolve_right (not_not.mpr later.first)
    rw [same] at later
    exact later.only (.inl same) ▸ bound

/-- Where the table has an entry for every 16-bit number, links cannot leave it. -/
theorem linksInside_wide (bound : c < g.totalEntries) (wide : 2 ^ 16 ≤ g.totalEntries) : LinksInside g disk c := by
  rintro x (rfl | later)
  · exact bound
  · have inside := later.last
    have below : x < fat16EocMin := inside.2
    unfold fat16EocMin at below
    omega

theorem LinksInside.cut {disk' : Nat → Sector} (h : LinksInside g disk first)
    (cut : ∀ c < g.totalEntries, InChain (fatEntry g disk' c) → fatEntry g disk' c = fatEntry g disk c) :
    LinksInside g disk' first := by
  have shorter : ∀ x, InFile g disk' (fatEntry g disk' first) x → Met g disk first x := by
    intro x reached
    have same := cut first h.bound reached.first
    rw [same] at reached
    induction reached with
    | start inside => exact .inr (.start inside)
    | @step y before inside ih =>
      have same := cut y (h y ih) inside
      rw [same] at inside ⊢
      rcases ih with rfl | later
      · exact .inr (.start inside)
      · exact .inr (.step later inside)
  rintro x (rfl | later)
  · exact h.bound
  · exact h x (shorter x later)

theorem not_inChain_end (value : Nat) (ends : value % 2 ^ 16 = 0 ∨ fat16EocMin ≤ value % 2 ^ 16) :
    ¬ InChain (value % 2 ^ 16) := by
  rintro ⟨low, high⟩
  omega

theorem LinksInside.setEnd (h : LinksInside g disk first) (fats : 0 < g.numFats) (bound : c < g.totalEntries)
    {value : Nat} (ends : value % 2 ^ 16 = 0 ∨ fat16EocMin ≤ value % 2 ^ 16) :
    LinksInside g (setEntry g disk c value) first := by
  refine h.cut fun x below inside => ?_
  rw [fatEntry_setEntry fats bound below] at inside ⊢
  by_cases here : x = c
  · rw [if_pos here] at inside
    exact absurd inside (not_inChain_end value ends)
  · exact if_neg here

theorem LinksInside.store (h : LinksInside g disk first) (fats : 0 < g.numFats) {disk' : Nat → Sector}
    (same : ∀ lba, InTable g lba → disk' lba = disk lba) : LinksInside g disk' first := by
  refine h.cut fun x below _ => ?_
  have inside : x * 2 / 512 < g.fatSize16 := by
    unfold Geometry.totalEntries at below
    omega
  rw [fatEntry, fatEntry, same _ (table_first fats inside)]

end Links

/-! One operation -/

section Writing

variable {g : Geometry} {s : Fat} {c : Nat}

theorem nextOrExtend_mirrored (fats : 0 < g.numFats) (calm : s.Calm) (m : Mirrored g s.disk)
    (links : LinksInside g s.disk c) :
    ∃ d, (nextOrExtend g s c).1 = s.withDisk d ∧ Mirrored g d ∧
      ∀ x, (nextOrExtend g s c).2 = some x → 2 ≤ x ∧ LinksInside g d x := by
  unfold nextOrExtend
  rw [fatNextCluster_calm calm]
  dsimp only
  by_cases ends : fatEntry g s.disk c < 2 ∨ fatEntry g s.disk c ≥ fat16EocMin
  · rw [if_pos ends, fatAllocCluster_calm calm]
    cases free : freeCluster g s.disk with
    | none =>
      refine ⟨s.disk, rfl, m, fun x found => ?_⟩
      cases found
    | some a =>
      obtain ⟨low, bound, -⟩ := freeCluster_some free
      dsimp only
      rw [if_neg (by omega), fatWriteFatEntry_calm calm.withDisk]
      refine ⟨_, rfl, (m.entry bound _).entry links.bound _, fun x found => ?_⟩
      cases found
      refine ⟨low, ?_⟩
      by_cases wide : 2 ^ 16 ≤ g.totalEntries
      · exact linksInside_wide bound wide
      · refine linksInside_end bound ?_
        rw [withDisk_disk, fatEntry_setEntry fats links.bound bound]
        by_cases own : a = c
        · rw [if_pos own]
          exact .inl (Nat.mod_eq_of_lt (by omega))
        · rw [if_neg own, fatEntry_setEntry fats bound bound, if_pos rfl]
          exact .inr (not_inChain_end _ (.inr (by decide)))
  · rw [if_neg ends]
    push Not at ends
    refine ⟨s.disk, rfl, m, fun x found => ?_⟩
    cases found
    exact ⟨ends.1, links.next ends⟩

theorem walkTo_mirrored (fats : 0 < g.numFats) {n : Nat} (calm : s.Calm) (m : Mirrored g s.disk)
    (links : LinksInside g s.disk c) :
    ∃ d, (walkTo g n s c).1 = s.withDisk d ∧ Mirrored g d ∧
      ∀ x, (walkTo g n s c).2 = some x → LinksInside g d x ∧ (n = 0 ∧ x = c ∨ 2 ≤ x) := by
  induction n generalizing s c with
  | zero =>
    refine ⟨s.disk, rfl, m, fun x found => ?_⟩
    cases found
    exact ⟨links, .inl ⟨rfl, rfl⟩⟩
  | succ n ih =>
    obtain ⟨d, disk, m', next⟩ := nextOrExtend_mirrored fats calm m links
    rw [walkTo]
    generalize nextOrExtend g s c = r at disk next
    obtain ⟨t, found⟩ := r
    obtain rfl : t = s.withDisk d := disk
    cases found with
    | none =>
      refine ⟨d, rfl, m', fun x found => ?_⟩
      cases found
    | some x =>
      obtain ⟨low, links'⟩ := next x rfl
      obtain ⟨d', disk', m'', reach⟩ := ih calm.withDisk m' links'
      refine ⟨d', disk', m'', fun y found => ⟨(reach y found).1, .inr ?_⟩⟩
      rcases (reach y found).2 with ⟨-, rfl⟩ | low'
      · exact low
      · exact low'

/-- None of the next `left` bytes at `pos`, as far as the cluster has them, lies in the table. -/
def OutOfTable (g : Geometry) (c pos left : Nat) : Prop :=
  ∀ p, pos ≤ p → p < pos + left → p < g.clusterSize → ¬ InTable g (sectorOf g c (p / 512))

theorem outOfTable_data (low : 2 ≤ c) (bound : c < g.totalEntries) (pos left : Nat) : OutOfTable g c pos left := by
  intro p _ _ inside
  have per := g.perCluster_lt
  unfold Geometry.clusterSize at inside
  have behind := @sectorOf_behind g _ low bound (p / 512) (by omega)
  unfold Geometry.firstDataSector at behind
  exact not_inTable_behind (by omega)

theorem writeLoop_mirrored (fats : 0 < g.numFats) (per : 0 < g.sectorsPerCluster) {fuel pos left copied : Nat}
    {src : Nat → BitVec 8} (calm : s.Calm) (m : Mirrored g s.disk) (links : LinksInside g s.disk c)
    (inside : left ≠ 0 → pos < g.clusterSize) (out : OutOfTable g c pos left) :
    ∃ d, (writeLoop g fuel s c pos src left copied).1 = s.withDisk d ∧ Mirrored g d := by
  have size : g.clusterSize = g.sectorsPerCluster * 512 := rfl
  induction fuel generalizing s c pos left copied with
  | zero => exact ⟨s.disk, rfl, m⟩
  | succ fuel ih =>
    rw [writeLoop]
    by_cases none : left = 0
    · rw [if_pos none]
      exact ⟨s.disk, rfl, m⟩
    rw [if_neg none]
    have old : (if min left (512 - pos % 512) < 512 then ataReadSector s (sectorOf g c (pos / 512))
        else (s, some fun _ => 0#8)) = (s, some (if min left (512 - pos % 512) < 512 then
          s.disk (sectorOf g c (pos / 512)) else fun _ => 0#8)) := by
      rw [ataReadSector_calm calm]
      split <;> rfl
    dsimp only
    rw [old]
    dsimp only
    rw [ataWriteSector_calm calm]
    dsimp only
    have here : ¬ InTable g (sectorOf g c (pos / 512)) := out pos le_rfl (by omega) (inside none)
    generalize patch _ _ _ = sector
    have m' := m.store fats here sector
    have links' : LinksInside g (Function.update s.disk (sectorOf g c (pos / 512)) sector) c := by
      refine links.store fats fun lba table => Function.update_of_ne ?_ _ _
      rintro rfl
      exact here table
    split
    · obtain ⟨d, disk, m'', next⟩ := nextOrExtend_mirrored fats
        (@Fat.Calm.withDisk _ (Function.update s.disk (sectorOf g c (pos / 512)) sector) calm) m' links'
      generalize nextOrExtend g _ c = r at disk next
      obtain ⟨t, found⟩ := r
      obtain rfl : t = _ := disk
      cases found with
      | none => exact ⟨d, rfl, m''⟩
      | some x =>
        obtain ⟨low, links''⟩ := next x rfl
        exact ih calm.withDisk m'' links'' (fun _ => by omega) (outOfTable_data low links''.bound _ _)
    · rename_i stays
      refine ih calm.withDisk m' links' (fun more => by omega) fun p from_ before within => ?_
      exact out p (by omega) (by omega) within

end Writing

/-- A driver that works: its calls succeed, the copies agree, and no node has its entry in
the table. -/
structure Tended (g : Geometry) (s : Fat) : Prop where
  calm : s.Calm
  mirrored : Mirrored g s.disk
  places : ∀ i < s.count, ¬ InTable g (s.nodes i).priv.direntLba

/-- The clusters of a directory, or of a file that may be empty, have entries in the table. -/
def ClustersInside (g : Geometry) (disk : Nat → Sector) (first : Nat) : Prop := first = 0 ∨ LinksInside g disk first

section Nodes

variable {g : Geometry} {s : Fat} {d : Nat → Sector} {node : Nat}

theorem Tended.withDisk (t : Tended g s) (m : Mirrored g d) : Tended g (s.withDisk d) := ⟨t.calm, m, t.places⟩

theorem Tended.store (t : Tended g s) (fats : 0 < g.numFats) {lba : Nat} (out : ¬ InTable g lba) (sector : Sector) :
    Tended g (s.withDisk (Function.update s.disk lba sector)) := t.withDisk (t.mirrored.store fats out sector)

theorem Tended.setMeta (t : Tended g s) {m : FatMeta} (same : m.direntLba = (s.nodes node).priv.direntLba) :
    Tended g (s.setMeta node m) := by
  refine ⟨t.calm, t.mirrored, fun i low => ?_⟩
  change ¬ InTable g (Function.update s.nodes node { s.nodes node with priv := m } i).priv.direntLba
  by_cases here : i = node
  · rw [here, Function.update_self]
    change ¬ InTable g m.direntLba
    rw [same, ← here]
    exact t.places i low
  · rw [Function.update_of_ne here]
    exact t.places i low

theorem Tended.writeback (t : Tended g s) (fats : 0 < g.numFats) (low : node < s.count) :
    Tended g (fatWritebackDirent s node) := by
  unfold fatWritebackDirent
  dsimp only
  rw [ataReadSector_calm t.calm]
  dsimp only
  rw [ataWriteSector_calm t.calm]
  exact t.store fats (t.places node low) _

theorem Tended.writeFrom (t : Tended g s) (fats : 0 < g.numFats) (per : 0 < g.sectorsPerCluster) (low : node < s.count)
    (links : LinksInside g s.disk (s.nodes node).priv.firstCluster) {src : Nat → BitVec 8} {count offset : Nat}
    (out : OutOfTable g (s.nodes node).priv.firstCluster offset count) :
    Tended g (writeFrom g s node src count offset).1 := by
  have size : 0 < g.clusterSize := Nat.mul_pos per (by decide)
  obtain ⟨d, disk, m, found⟩ := walkTo_mirrored fats (n := offset / g.clusterSize) t.calm t.mirrored links
  unfold Isunux.writeFrom
  generalize walkTo g (offset / g.clusterSize) s (s.nodes node).priv.firstCluster = r at disk found
  obtain ⟨u, x⟩ := r
  obtain rfl : u = s.withDisk d := disk
  have t' := t.withDisk m
  cases x with
  | none => exact t'
  | some c =>
    obtain ⟨links', place⟩ := found c rfl
    have apart : OutOfTable g c (offset % g.clusterSize) count := by
      rcases place with ⟨zero, rfl⟩ | high
      · rw [Nat.mod_eq_of_lt ((Nat.div_eq_zero_iff_lt size).mp zero)]
        exact out
      · exact outOfTable_data high links'.bound _ _
    obtain ⟨d', disk', m'⟩ :=
        @writeLoop_mirrored _ _ _ fats per count (offset % g.clusterSize) count 0 src t'.calm m links'
          (fun _ => Nat.mod_lt _ size) apart
    dsimp only
    generalize writeLoop g count (s.withDisk d) c (offset % g.clusterSize) src count 0 = w at disk'
    obtain ⟨u, copied⟩ := w
    obtain rfl : u = _ := disk'
    have written := t'.withDisk m'
    refine Tended.writeback (written.setMeta ?_) fats low
    rfl

theorem Tended.fileWrite (t : Tended g s) (fats : 0 < g.numFats) (low : node < s.count)
    (inside : ClustersInside g s.disk (s.nodes node).priv.firstCluster) {src : Nat → BitVec 8} {count offset : Nat}
    (per : count ≠ 0 → 0 < g.sectorsPerCluster)
    (out : (s.nodes node).priv.firstCluster ≠ 0 → OutOfTable g (s.nodes node).priv.firstCluster offset count) :
    Tended g (fatFileWrite g s node src count offset).1 := by
  unfold fatFileWrite
  by_cases none : count = 0
  · rw [if_pos none]
    exact t
  rw [if_neg none]
  by_cases empty : (s.nodes node).priv.firstCluster = 0
  · rw [if_pos empty, fatAllocCluster_calm t.calm]
    dsimp only
    cases free : freeCluster g s.disk with
    | none => exact t
    | some a =>
      obtain ⟨above, bound, -⟩ := freeCluster_some free
      dsimp only
      rw [if_neg (by omega)]
      have t' := @Tended.setMeta _ _ node (t.withDisk (t.mirrored.entry bound fat16EocMin))
        { (s.nodes node).priv with firstCluster := a } rfl
      have first : (((s.withDisk (setEntry g s.disk a fat16EocMin)).setMeta node
          { (s.nodes node).priv with firstCluster := a }).nodes node).priv.firstCluster = a := by
        change (Function.update s.nodes node _ node).priv.firstCluster = a
        rw [Function.update_self]
      refine t'.writeFrom fats (per none) low ?_ ?_
      · rw [first]
        refine linksInside_end bound (.inr ?_)
        change ¬ InChain (fatEntry g (setEntry g s.disk a fat16EocMin) a)
        rw [fatEntry_setEntry fats bound bound, if_pos rfl]
        exact not_inChain_end _ (.inr (by decide))
      · rw [first]
        exact outOfTable_data above bound _ _
  · rw [if_neg empty]
    exact t.writeFrom fats (per none) low (inside.resolve_left empty) (out empty)

end Nodes

end Isunux
