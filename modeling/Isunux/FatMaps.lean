import Isunux.FatEntries
import Isunux.FatMirrors
import Isunux.ShortNames

/-! Directories of the volume as finite maps from names to entries. -/
namespace Isunux

section Calls

variable {g : Geometry} {fuel : Nat} {s : Fat} {dir : Option Nat} {name : List (BitVec 8)} {l : Loc}

def slotOf (g : Geometry) (s : Fat) (dir : Option Nat) (name : List (BitVec 8)) : Option Loc :=
  findSlot s.disk (dirSlots g s.disk (s.metaOf dir).firstCluster) name

/-- The pool after a node was handed out for an entry. -/
def Fat.took (s : Fat) (dir : Option Nat) (l : Loc) : Fat :=
  { s with
    nodes := Function.update s.nodes s.count (entryNode dir (display s.disk l) (rawAt s.disk l) l.1 l.2)
    count := s.count + 1 }

theorem lookup_found (calm : s.Calm) (enough : fullFuel ≤ fuel) (intact : Intact g s.disk (s.metaOf dir).firstCluster)
    (found : slotOf g s dir name = some l) (left : s.count < fatMaxNodes) :
    fatDirLookup g fuel s dir name = some (s.took dir l, some s.count) := by
  rw [fatDirLookup_calm calm enough intact.dirSlots, show findSlot _ _ name = some l from found]
  simp only [handOut, fatAllocNode, if_neg (Nat.not_le.mpr left), Fat.took]

theorem lookup_missing (calm : s.Calm) (enough : fullFuel ≤ fuel) (intact : Intact g s.disk (s.metaOf dir).firstCluster)
    (missing : slotOf g s dir name = none ∨ fatMaxNodes ≤ s.count) :
    fatDirLookup g fuel s dir name = some (s, none) := by
  rw [fatDirLookup_calm calm enough intact.dirSlots]
  change some (handOut s dir (slotOf g s dir name)) = _
  cases found : slotOf g s dir name with
  | none => rfl
  | some l =>
    have full : s.count ≥ fatMaxNodes := missing.resolve_left (by rw [found]; exact Option.some_ne_none l)
    simp only [handOut, fatAllocNode, if_pos full]

theorem create_missing (calm : s.Calm) (enough : fullFuel ≤ fuel) (intact : Intact g s.disk (s.metaOf dir).firstCluster)
    (missing : slotOf g s dir name = none ∨ fatMaxNodes ≤ s.count) :
    fatDirCreate g fuel s dir name =
      some (match placed g s.disk (s.metaOf dir).firstCluster (newEntry name attrArchive 0) with
        | some d => (s.withDisk d, 0)
        | none => (s, -enospc)) := by
  unfold fatDirCreate
  rw [lookup_missing calm enough intact missing]
  exact addEntry_calm calm enough intact _ _

theorem create_found (calm : s.Calm) (enough : fullFuel ≤ fuel) (intact : Intact g s.disk (s.metaOf dir).firstCluster)
    (found : slotOf g s dir name = some l) (left : s.count < fatMaxNodes) :
    fatDirCreate g fuel s dir name = some (s.took dir l, -eexist) := by
  unfold fatDirCreate
  rw [lookup_found calm enough intact found left]

theorem mkdir_found (calm : s.Calm) (enough : fullFuel ≤ fuel) (intact : Intact g s.disk (s.metaOf dir).firstCluster)
    (found : slotOf g s dir name = some l) (left : s.count < fatMaxNodes) :
    fatDirMkdir g fuel s dir name = some (s.took dir l, -eexist) := by
  unfold fatDirMkdir
  rw [lookup_found calm enough intact found left]

theorem mkdir_full (calm : s.Calm) (enough : fullFuel ≤ fuel) (intact : Intact g s.disk (s.metaOf dir).firstCluster)
    (missing : slotOf g s dir name = none ∨ fatMaxNodes ≤ s.count) (full : freeCluster g s.disk = none) :
    fatDirMkdir g fuel s dir name = some (s, -enospc) := by
  unfold fatDirMkdir
  rw [lookup_missing calm enough intact missing]
  simp only [fatAllocCluster_calm calm, full, if_true]

theorem mkdir_missing {c : Nat} (per : 0 < g.sectorsPerCluster) (calm : s.Calm) (enough : fullFuel ≤ fuel)
    (intact : Intact g s.disk (s.metaOf dir).firstCluster)
    (missing : slotOf g s dir name = none ∨ fatMaxNodes ≤ s.count) (free : freeCluster g s.disk = some c)
    (intact' : Intact g (madeDir g s.disk c (s.metaOf dir).firstCluster) (s.metaOf dir).firstCluster) :
    fatDirMkdir g fuel s dir name =
      some (match placed g (madeDir g s.disk c (s.metaOf dir).firstCluster) (s.metaOf dir).firstCluster
          (newEntry name attrDirectory c) with
        | some d => (s.withDisk d, 0)
        | none => (s.withDisk (madeDir g s.disk c (s.metaOf dir).firstCluster), -enospc)) := by
  unfold fatDirMkdir
  have used : c ≠ 0 := by have := (freeCluster_some free).1; omega
  rw [lookup_missing calm enough intact missing]
  simp only [fatAllocCluster_calm calm, free, if_neg used, zeroSectors_calm calm.withDisk,
    ataReadSector_calm calm.withDisk, ataWriteSector_calm calm.withDisk, withDisk_disk, withDisk_withDisk]
  have first : zeroed (setEntry g s.disk c fat16EocMin) (clusterLbas g c) (clusterToLba g c) = fun _ => 0#8 :=
    if_pos (firstLba_mem per)
  have made : Function.update (zeroed (setEntry g s.disk c fat16EocMin) (clusterLbas g c)) (clusterToLba g c)
      (dotEntries (fun _ => 0#8) c (s.metaOf dir).firstCluster) = madeDir g s.disk c (s.metaOf dir).firstCluster := rfl
  have node : ∀ d, (s.withDisk d).metaOf dir = s.metaOf dir := fun d => by cases dir <;> rfl
  simp only [node, first, made]
  have added : addEntry g fuel (s.withDisk (madeDir g s.disk c (s.metaOf dir).firstCluster)) dir
      (newEntry name attrDirectory c) (-eio) = _ :=
    addEntry_calm calm.withDisk enough (by rw [node]; exact intact') _ _
  rw [added]
  cases is : placed g (madeDir g s.disk c (s.metaOf dir).firstCluster) (s.metaOf dir).firstCluster
      (newEntry name attrDirectory c) with
  | none => simp only [node, withDisk_disk, is]
  | some d => simp only [node, withDisk_disk, withDisk_withDisk, is]

end Calls

section Maps

variable (g : Geometry) (fuel : Nat) (s : Fat) (dir : Option Nat) (name : List (BitVec 8))

/-- A well-formed directory: it starts a chain, nothing but zeroes stands behind its end mark, and
no name is shown twice. -/
structure SoundDir (g : Geometry) (disk : Nat → Sector) (first : Nat) : Prop where
  intact : Intact g disk first
  mid : first < fat16EocMin
  blank : Blank disk (dirSlots g disk first)
  distinct : ((live g disk first).map (display disk)).Nodup

def lookedUp : Option FatNode := (fatDirLookup g fuel s dir name).bind fun r => r.2.map r.1.nodes

/-- A cluster that can be linked into a chain. -/
structure Linkable (disk : Nat → Sector) (c : Nat) : Prop where
  low : 2 ≤ c
  bound : c < g.totalEntries
  below : c < fat16Bad
  free : fatEntry g disk c = 0

/-- There is a slot for an entry, or a cluster to put it into. -/
def SlotLeft (disk : Nat → Sector) (first : Nat) : Prop :=
  (∃ l, (dirSlots g disk first).find? (freeSlot disk) = some l) ∨ first ≠ 0 ∧ ∃ c, Linkable g disk c

/-- There is a cluster for a directory, and a slot for its entry or one more cluster. -/
def ClusterLeft : Prop :=
  (∃ c, Linkable g s.disk c) ∧
    ((∃ l, (dirSlots g s.disk (s.metaOf dir).firstCluster).find? (freeSlot s.disk) = some l) ∨
      (s.metaOf dir).firstCluster ≠ 0 ∧ ∃ c c', c ≠ c' ∧ Linkable g s.disk c ∧ Linkable g s.disk c')

/-- Every other name is looked up with the same result, and the directory is still well formed. -/
structure OthersKept (t : Fat) : Prop where
  others : ∀ other, other ≠ name → lookedUp g fuel t dir other = lookedUp g fuel s dir other
  sound : SoundDir g t.disk (t.metaOf dir).firstCluster

end Maps

section Findings

variable (g : Geometry) (fuel : Nat) (dir : Option Nat) (name : List (BitVec 8)) (t : Fat)

def FindsEmptyFile : Prop :=
  ∃ node, lookedUp g fuel t dir name = some node ∧ node.type = .file ∧ node.priv.fileSize = 0

/-- The name is that of a directory that holds nothing but the entries of itself and its parent. -/
def FindsEmptyDir : Prop :=
  ∃ u i, fatDirLookup g fuel t dir name = some (u, some i) ∧ (u.nodes i).type = .dir ∧
    ∀ index, fatDirReaddir g fuel u (some i) index vfsMaxName = some (u, [dotName, dotDotName][index]?)

end Findings

section Laws

variable (g : Geometry) (fuel : Nat) (s : Fat) (dir : Option Nat) (name : List (BitVec 8))

def Enters (call : Option (Fat × Int)) (finds : Fat → Prop) : Prop :=
  ∃ t e, call = some (t, e) ∧ (e = -eexist ↔ (lookedUp g fuel s dir name).isSome = true) ∧
    (e = -eexist → t.disk = s.disk) ∧ (e ≠ -eexist → e = 0 ∧ finds t ∧ OthersKept g fuel s dir name t)

/-- What a name stands for, if anything, has its chain apart from the directory's own. -/
def TargetSound : Prop :=
  ∀ l, slotOf g s dir name = some l → Intact g s.disk (clusterOf s.disk l) ∧
    ∀ c ∈ fileClusters g s.disk (clusterOf s.disk l), c ∉ regionsOf g s.disk (s.metaOf dir).firstCluster

/-- The name is that of a directory with an entry besides those of itself and its parent. -/
def FindsFullDir : Prop :=
  ∃ u i, fatDirLookup g fuel s dir name = some (u, some i) ∧ (u.nodes i).type = .dir ∧
    ∃ index shown, fatDirReaddir g fuel u (some i) index vfsMaxName = some (u, some shown) ∧
      shown ≠ dotName ∧ shown ≠ dotDotName

/-- Unlinking takes exactly the name out of the directory, or says why not and changes nothing. -/
def Leaves : Prop :=
  ∃ t e, fatDirUnlink g fuel s dir name = some (t, e) ∧ SoundDir g t.disk (t.metaOf dir).firstCluster ∧
    (e = 0 ∧ (lookedUp g fuel s dir name).isSome = true ∧ lookedUp g fuel t dir name = none ∧
        (t.count < fatMaxNodes → OthersKept g fuel s dir name t) ∨
      e = -enoent ∧ lookedUp g fuel s dir name = none ∧ t.disk = s.disk ∨
      e = -enotempty ∧ FindsFullDir g fuel s dir name ∧ t.disk = s.disk)

/-- The indices from 0 on give each name that a lookup finds exactly once, and then no more. -/
def Enumerates : Prop :=
  ∃ names : List (List (BitVec 8)), names.Nodup ∧ (∀ x, x ∈ names ↔ (lookedUp g fuel s dir x).isSome = true) ∧
    ∀ index, fatDirReaddir g fuel s dir index vfsMaxName = some (s, names[index]?)

/-- The operations of a directory are those of a finite map, as far as one name goes. -/
structure FiniteMap : Prop where
  create : SlotLeft g s.disk (s.metaOf dir).firstCluster → Enters g fuel s dir name (fatDirCreate g fuel s dir name) (FindsEmptyFile g fuel dir name)
  mkdir : ClusterLeft g s dir → Enters g fuel s dir name (fatDirMkdir g fuel s dir name) (FindsEmptyDir g fuel dir name)
  unlink : TargetSound g s dir name → Leaves g fuel s dir name
  readdir : Enumerates g fuel s dir

end Laws

section Looking

variable {g : Geometry} {fuel : Nat} {s t : Fat} {dir : Option Nat} {name : List (BitVec 8)} {l : Loc}

theorem lookedUp_eq (calm : s.Calm) (enough : fullFuel ≤ fuel) (intact : Intact g s.disk (s.metaOf dir).firstCluster)
    (left : s.count < fatMaxNodes) (name : List (BitVec 8)) :
    lookedUp g fuel s dir name =
      (slotOf g s dir name).map fun l => entryNode dir (display s.disk l) (rawAt s.disk l) l.1 l.2 := by
  unfold lookedUp
  cases found : slotOf g s dir name with
  | none =>
    rw [lookup_missing calm enough intact (.inl found)]
    rfl
  | some l =>
    rw [lookup_found calm enough intact found left]
    simp [Fat.took]

theorem lookedUp_some (calm : s.Calm) (enough : fullFuel ≤ fuel) (intact : Intact g s.disk (s.metaOf dir).firstCluster)
    (left : s.count < fatMaxNodes) : (lookedUp g fuel s dir name).isSome = (slotOf g s dir name).isSome := by
  rw [lookedUp_eq calm enough intact left, Option.isSome_map]

theorem lookedUp_congr (calm : s.Calm) (calm' : t.Calm) (enough : fullFuel ≤ fuel)
    (intact : Intact g s.disk (s.metaOf dir).firstCluster) (intact' : Intact g t.disk (t.metaOf dir).firstCluster)
    (left : s.count < fatMaxNodes) (left' : t.count < fatMaxNodes) (slot : slotOf g t dir name = slotOf g s dir name)
    (same : ∀ l, slotOf g s dir name = some l → rawAt t.disk l = rawAt s.disk l) :
    lookedUp g fuel t dir name = lookedUp g fuel s dir name := by
  rw [lookedUp_eq calm enough intact left, lookedUp_eq calm' enough intact' left', slot]
  cases found : slotOf g s dir name with
  | none => rfl
  | some l =>
    have here := same l found
    simp only [Option.map_some, display_congr here, here]

theorem took_metaOf {dir' : Option Nat} (pooled : OnPool s dir) : (s.took dir' l).metaOf dir = s.metaOf dir := by
  refine metaOf_same (fun i low => ?_) pooled
  exact Function.update_of_ne (by omega) _ _

theorem withDisk_metaOf {d : Nat → Sector} : (s.withDisk d).metaOf dir = s.metaOf dir := by
  cases dir <;> rfl

theorem slotOf_live (found : slotOf g s dir name = some l) :
    l ∈ live g s.disk (s.metaOf dir).firstCluster ∧ display s.disk l = name :=
  ⟨live_of_findSlot found, by simpa using List.find?_some found⟩

theorem SoundDir.slot_iff (sound : SoundDir g s.disk (s.metaOf dir).firstCluster) :
    slotOf g s dir name = some l ↔ l ∈ live g s.disk (s.metaOf dir).firstCluster ∧ display s.disk l = name := by
  refine ⟨slotOf_live, fun ⟨mem, shows⟩ => ?_⟩
  have some : (slotOf g s dir name).isSome = true :=
    List.find?_isSome.mpr ⟨l, mem, by simpa using shows⟩
  obtain ⟨x, found⟩ := Option.isSome_iff_exists.mp some
  obtain ⟨mem', shows'⟩ := slotOf_live found
  rw [found, List.inj_on_of_nodup_map sound.distinct mem' mem (shows'.trans shows.symm)]

end Looking

section Canonical

variable {base : List (BitVec 8)} {ext : Option (List (BitVec 8))}

theorem CanonicalName.plain (h : CanonicalName base ext) : 0#8 ∉ shortName base ext := by
  cases ext with
  | none => exact fun mem => (h.base_bytes _ mem).1 rfl
  | some e =>
    intro mem
    simp only [shortName, List.mem_append, List.mem_cons] at mem
    rcases mem with inBase | dot | inExt
    · exact (h.base_bytes _ inBase).1 rfl
    · exact absurd dot (by decide)
    · exact (h.ext_bytes e rfl _ inExt).1 rfl

theorem upperByte_deleted {c : BitVec 8} (h : upperByte c = deletedMark) : c = deletedMark := by
  unfold upperByte deletedMark at *
  split at h
  · bv_omega
  · exact h

theorem CanonicalName.shown (h : CanonicalName base ext) : shown (shortName base ext) = true := by
  obtain ⟨c, rest, rfl⟩ : ∃ c rest, base = c :: rest := List.exists_cons_of_length_pos h.base_length.1
  have first : firstByte (shortName (c :: rest) ext) = upperByte c := by
    unfold firstByte ofBytes
    rw [h.encode]
    rfl
  unfold Isunux.shown
  rw [first, bne_iff_ne]
  exact fun deleted => h.undeleted (by rw [upperByte_deleted deleted]; rfl)

end Canonical

section Proofs

variable {g : Geometry} {fuel : Nat} {s : Fat} {dir : Option Nat} {name : List (BitVec 8)} {d d' : Nat → Sector}
  {first : Nat} {attr : BitVec 8} {cluster : Nat}

theorem Linkable.taken {c : Nat} (h : Linkable g d c) : ∃ f, freeCluster g d = some f ∧ f < fat16Bad := by
  cases free : freeCluster g d with
  | none => exact absurd h.free (freeCluster_none free h.low h.bound)
  | some f => exact ⟨f, rfl, (freeCluster_first free h.low h.bound h.free).trans_lt h.below⟩

theorem placed_named (fats : 0 < g.numFats) (per : 0 < g.sectorsPerCluster) (intact : Intact g d first)
    (mid : first < fat16EocMin) (blank : Blank d (dirSlots g d first)) (room : SlotLeft g d first)
    (ordinary : attr = attrArchive ∨ attr = attrDirectory) (plain : 0#8 ∉ name) (shows : shown name = true) :
    ∃ d' l, placed g d first (newEntry name attr cluster) = some d' ∧
      Added g d d' first (newEntry name attr cluster) [l] := by
  have goes : ofBytes (newEntry name attr cluster) 0 ≠ 0#8 := newEntry_first ▸ firstByte_ne_zero plain
  have grows : (dirSlots g d first).find? (freeSlot d) = none → first ≠ 0 ∧ ∃ f, freeCluster g d = some f ∧ f < fat16Bad := by
    intro full
    rcases room with ⟨l, found⟩ | ⟨sub, c, linkable⟩
    · rw [full] at found
      cases found
    · exact ⟨sub, linkable.taken⟩
  have bad : fat16Bad < fat16EocMin := by decide
  have is : ∃ d', placed g d first (newEntry name attr cluster) = some d' := by
    cases found : (dirSlots g d first).find? (freeSlot d) with
    | some l => exact ⟨_, placed_slot found⟩
    | none =>
      obtain ⟨sub, f, free, -⟩ := grows found
      exact ⟨_, by rw [placed_grown found sub, free, Option.map_some]⟩
  have reach : Reachable g d first := by
    cases found : (dirSlots g d first).find? (freeSlot d) with
    | some l => exact .inl (by rw [found]; rfl)
    | none =>
      obtain ⟨-, f, free, below⟩ := grows found
      refine .inr ⟨mid, fun c is => ?_⟩
      obtain rfl := Option.some.inj (free.symm.trans is)
      omega
  obtain ⟨d', is⟩ := is
  obtain ⟨new, added, seen⟩ := placed_added fats per intact blank (fun full c free => by
    obtain ⟨-, f, free', below⟩ := grows full
    obtain rfl := Option.some.inj (free'.symm.trans free)
    exact below.trans (by decide)) newEntry_length goes is
  obtain ⟨l, rfl⟩ := seen.mpr ⟨(newEntry_real ordinary).trans shows, reach⟩
  exact ⟨d', l, is, added⟩

theorem newEntry_file : entryType (ofBytes (newEntry name attrArchive cluster)) = .file := by
  unfold entryType
  rw [newEntry_attr]
  decide

theorem newEntry_dir : entryType (ofBytes (newEntry name attrDirectory cluster)) = .dir := by
  unfold entryType
  rw [newEntry_attr]
  decide

theorem SoundDir.grows (sound : SoundDir g d first) {l : Loc}
    (added : Added g d d' first (newEntry name attr cluster) [l]) (reads : displayAs name = name)
    (missing : findSlot d (dirSlots g d first) name = none) : SoundDir g d' first := by
  refine ⟨added.intact, sound.mid, added.blank, added.distinct sound.distinct ?_⟩
  rw [newEntry_display, reads]
  exact missing

/-- The directory after an entry was added to the disk `d`, on which it is what it was. -/
theorem entered_others (calm : s.Calm) (enough : fullFuel ≤ fuel) (left : s.count < fatMaxNodes)
    (intact : Intact g s.disk (s.metaOf dir).firstCluster) {l : Loc}
    (added : Added g d d' (s.metaOf dir).firstCluster (newEntry name attr cluster) [l]) (reads : displayAs name = name)
    (slots : findSlot d (dirSlots g d (s.metaOf dir).firstCluster) = slotOf g s dir)
    (same : ∀ l ∈ live g s.disk (s.metaOf dir).firstCluster,
      l ∈ live g d (s.metaOf dir).firstCluster ∧ rawAt d l = rawAt s.disk l) (other : List (BitVec 8))
    (differ : other ≠ name) :
    lookedUp g fuel (s.withDisk d') dir other = lookedUp g fuel s dir other := by
  have differ' : other ≠ fatDecode83Name (ofBytes (newEntry name attr cluster)) := by
    rw [newEntry_display, reads]
    exact differ
  refine lookedUp_congr calm calm.withDisk enough intact (withDisk_metaOf ▸ added.intact) left left ?_ fun x found => ?_
  · rw [← slots, ← added.find_other differ']
    unfold slotOf
    rw [withDisk_metaOf]
    rfl
  · obtain ⟨mem, raw⟩ := same x (slotOf_live found).1
    exact (added.old x mem).trans raw

theorem entered_found (calm : s.Calm) (enough : fullFuel ≤ fuel) (left : s.count < fatMaxNodes)
    {l : Loc} (added : Added g d d' (s.metaOf dir).firstCluster (newEntry name attr cluster) [l])
    (reads : displayAs name = name) (missing : findSlot d (dirSlots g d (s.metaOf dir).firstCluster) name = none) :
    fatDirLookup g fuel (s.withDisk d') dir name = some ((s.withDisk d').took dir l, some s.count) := by
  refine lookup_found calm.withDisk enough (withDisk_metaOf ▸ added.intact) ?_ left
  unfold slotOf
  rw [withDisk_metaOf]
  exact added.find_new (newEntry_display.trans reads) missing

theorem create_enters {base : List (BitVec 8)} {ext : Option (List (BitVec 8))} (fats : 0 < g.numFats)
    (per : 0 < g.sectorsPerCluster) (calm : s.Calm) (enough : fullFuel ≤ fuel)
    (sound : SoundDir g s.disk (s.metaOf dir).firstCluster) (left : s.count < fatMaxNodes)
    (canonical : CanonicalName base ext) (room : SlotLeft g s.disk (s.metaOf dir).firstCluster) :
    Enters g fuel s dir (shortName base ext) (fatDirCreate g fuel s dir (shortName base ext))
      (FindsEmptyFile g fuel dir (shortName base ext)) := by
  have intact := sound.intact
  have isFound : (lookedUp g fuel s dir (shortName base ext)).isSome = _ := lookedUp_some calm enough intact left
  cases found : slotOf g s dir (shortName base ext) with
  | some l =>
    refine ⟨_, _, create_found calm enough intact found left, ?_, fun _ => rfl, fun other => absurd rfl other⟩
    rw [isFound, found]
    simp
  | none =>
    obtain ⟨d, l, is, added⟩ := placed_named fats per intact sound.mid sound.blank room (.inl rfl) canonical.plain
      canonical.shown
    refine ⟨s.withDisk d, 0, ?_, ?_, fun eq => absurd eq (by decide), fun _ => ⟨rfl, ?_, ?_⟩⟩
    · rw [create_missing calm enough intact (.inl found), is]
    · rw [isFound, found]
      simp [eexist]
    · have raw : rawAt d l = ofBytes (newEntry (shortName base ext) attrArchive 0) := (added.raw l List.mem_cons_self).1
      refine ⟨entryNode dir (display d l) (rawAt d l) l.1 l.2, ?_, raw ▸ newEntry_file, ?_⟩
      · unfold lookedUp
        rw [entered_found calm enough left added canonical.decode found]
        simp [Fat.took]
      · rw [raw]
        unfold entryNode
        rw [newEntry_file]
        exact newEntry_size
    · refine ⟨fun other differ => entered_others calm enough left intact added canonical.decode rfl
        (fun l mem => ⟨mem, rfl⟩) other differ, ?_⟩
      rw [withDisk_metaOf]
      exact sound.grows added canonical.decode found

theorem display_short (disk : Nat → Sector) (l : Loc) : (display disk l).take (vfsMaxName - 1) = display disk l :=
  List.take_of_length_le ((fatDecode83Name_length _).trans (by decide))

theorem SoundDir.prepared {c parent : Nat} (sound : SoundDir g d first) (fresh : FreshDir g d d' c parent) (low : 2 ≤ c)
    (free : fatEntry g d c = 0) :
    SoundDir g d' first ∧ findSlot d' (dirSlots g d' first) = findSlot d (dirSlots g d first) ∧
      (∀ x ∈ dirSlots g d first, rawAt d' x = rawAt d x) ∧ dirSlots g d' first = dirSlots g d first ∧
      c ∉ regionsOf g d' first := by
  have frame := fresh.frame low free
  obtain ⟨intact, regions, slots⟩ := frame.object sound.intact fun _ _ => id
  obtain ⟨same, raw, blank⟩ := frame.directory sound.intact fun _ _ => id
  have rawSlots : ∀ x ∈ dirSlots g d first, rawAt d' x = rawAt d x := fun x mem => frame.raw sound.intact (fun _ _ => id) mem
  refine ⟨⟨intact, sound.mid, blank sound.blank, ?_⟩, ?_, rawSlots, slots, ?_⟩
  · rw [same, List.map_congr_left fun l mem => display_congr (raw l mem)]
    exact sound.distinct
  · funext name
    rw [slots, findSlot_congr rawSlots]
  · intro mem
    rw [regions] at mem
    rcases sound.intact.regions c mem with rfl | cell
    · omega
    · exact cell.taken free

/-- A directory just made is listed with its two entries once its own entry stands in its parent. -/
theorem made_listing {c parent : Nat} {entry : List (BitVec 8)} {new : List Loc} {u : Fat} {i : Nat}
    (per : 0 < g.sectorsPerCluster) (low : 2 ≤ c) (bound : c < g.totalEntries) (mid : c < fat16EocMin)
    (fresh : FreshDir g d d' c parent) (away : c ∉ regionsOf g d' first) (added : Added g d' u.disk first entry new)
    (calm : u.Calm) (enough : fullFuel ≤ fuel) (node : (u.metaOf (some i)).firstCluster = c) (index : Nat) :
    fatDirReaddir g fuel u (some i) index vfsMaxName = some (u, [dotName, dotDotName][index]?) := by
  have chain := fresh.chain low bound (lt_trans mid (by decide))
  have apart : ∀ r ∈ regionsOf g d' c, r ∉ regionsOf g d' first := by
    intro r mem
    rw [chain.regions, List.mem_singleton] at mem
    rw [mem]
    exact away
  obtain ⟨intact, -, -⟩ := added.frame.object chain.intact apart
  obtain ⟨same, raw, -⟩ := added.frame.directory chain.intact apart
  obtain ⟨two, -⟩ := fresh.entries per low bound mid
  rw [two] at same raw
  have dot : display u.disk (clusterToLba g c, 0) = dotName := by
    unfold display
    rw [raw _ List.mem_cons_self, fresh.dot]
    exact dotEntry_dot
  have dotDot : display u.disk (clusterToLba g c, 32) = dotDotName := by
    unfold display
    rw [raw _ (List.mem_cons_of_mem _ List.mem_cons_self), fresh.dotDot]
    exact dotEntry_dotDot
  rw [fatDirReaddir_calm calm enough (by rw [node]; exact intact.dirSlots)]
  change some (u, ((live g u.disk c)[index]?).map _) = _
  rw [same]
  match index with
  | 0 => simp [display_short, dot]
  | 1 => simp [display_short, dotDot]
  | n + 2 => rfl

theorem mkdir_enters {base : List (BitVec 8)} {ext : Option (List (BitVec 8))} (fats : 0 < g.numFats)
    (per : 0 < g.sectorsPerCluster) (calm : s.Calm) (enough : fullFuel ≤ fuel)
    (sound : SoundDir g s.disk (s.metaOf dir).firstCluster) (left : s.count < fatMaxNodes)
    (canonical : CanonicalName base ext) (room : ClusterLeft g s dir) :
    Enters g fuel s dir (shortName base ext) (fatDirMkdir g fuel s dir (shortName base ext))
      (FindsEmptyDir g fuel dir (shortName base ext)) := by
  have intact := sound.intact
  have isFound : (lookedUp g fuel s dir (shortName base ext)).isSome = _ := lookedUp_some calm enough intact left
  cases found : slotOf g s dir (shortName base ext) with
  | some l =>
    refine ⟨_, _, mkdir_found calm enough intact found left, ?_, fun _ => rfl, fun other => absurd rfl other⟩
    rw [isFound, found]
    simp
  | none =>
    obtain ⟨⟨c', linkable⟩, more⟩ := room
    obtain ⟨c, free, below⟩ := linkable.taken
    obtain ⟨low, bound, zero⟩ := freeCluster_some free
    have mid : c < fat16EocMin := below.trans (by decide)
    have fresh : FreshDir g s.disk (madeDir g s.disk c (s.metaOf dir).firstCluster) c (s.metaOf dir).firstCluster :=
      madeDir_made fats per low bound (mid.trans (by decide))
    generalize made : madeDir g s.disk c (s.metaOf dir).firstCluster = d at fresh
    obtain ⟨sound', finds, raw, slots, away⟩ := sound.prepared fresh low zero
    have room' : SlotLeft g d (s.metaOf dir).firstCluster := by
      refine more.imp (fun ⟨l, slot⟩ => ⟨l, ?_⟩) fun ⟨sub, x, y, differ, isX, isY⟩ => ⟨sub, ?_⟩
      · rw [slots, ← slot]
        exact List.find?_congr fun x mem => by unfold freeSlot; rw [raw x mem]
      · have other : ∀ z, z ≠ c → Linkable g s.disk z → Linkable g d z := fun z apart is =>
          ⟨is.low, is.bound, is.below, by rw [fresh.table z is.bound, if_neg apart]; exact is.free⟩
        by_cases here : x = c
        · exact ⟨y, other y (fun again => differ (here.trans again.symm)) isY⟩
        · exact ⟨x, other x here isX⟩
    obtain ⟨d', l, is, added⟩ := placed_named fats per sound'.intact sound.mid sound'.blank room' (.inr rfl) canonical.plain
      canonical.shown
    have missing : findSlot d (dirSlots g d (s.metaOf dir).firstCluster) (shortName base ext) = none := finds ▸ found
    refine ⟨s.withDisk d', 0, ?_, ?_, fun eq => absurd eq (by decide), fun _ => ⟨rfl, ?_, ?_⟩⟩
    · rw [mkdir_missing per calm enough intact (.inl found) free (made ▸ sound'.intact), made, is]
    · rw [isFound, found]
      simp [eexist]
    · have entry : rawAt d' l = ofBytes (newEntry (shortName base ext) attrDirectory c) := (added.raw l List.mem_cons_self).1
      have node : ((s.withDisk d').took dir l).nodes s.count = entryNode dir (display d' l) (rawAt d' l) l.1 l.2 :=
        Function.update_self _ _ _
      refine ⟨_, _, entered_found calm enough left added canonical.decode missing, ?_, fun index => ?_⟩
      · rw [node, entry]
        exact newEntry_dir
      · have calm' : ((s.withDisk d').took dir l).Calm := calm
        refine made_listing per low bound mid fresh away added calm' enough ?_ index
        change (((s.withDisk d').took dir l).nodes s.count).priv.firstCluster = c
        rw [node, entry]
        exact newEntry_cluster.trans (Nat.mod_eq_of_lt (mid.trans (by decide)))
    · refine ⟨fun other differ => entered_others calm enough left intact added canonical.decode (finds ▸ rfl)
        (fun l mem => ?_) other differ, ?_⟩
      · have same : live g d (s.metaOf dir).firstCluster = live g s.disk (s.metaOf dir).firstCluster :=
          ((fresh.frame low zero).directory intact fun _ _ => id).1
        exact ⟨same ▸ mem, raw l (realSlots_sub mem)⟩
      · rw [withDisk_metaOf]
        exact sound'.grows added canonical.decode missing

theorem givenBack_subset : givenBack g d first ⊆ fileClusters g d first := by
  unfold givenBack
  split
  · exact fun _ mem => mem
  · exact List.nil_subset _

theorem Removed.distinct {l : Loc} (removed : Removed g d d' first l) (distinct : ((live g d first).map (display d)).Nodup) :
    ((live g d' first).map (display d')).Nodup := by
  rw [removed.entries, List.map_congr_left fun x mem => ?_]
  · exact (List.filter_sublist.map _).nodup distinct
  · obtain ⟨inLive, other⟩ := List.mem_filter.mp mem
    exact display_congr (removed.old x (realSlots_sub inLive) (by simpa using other))

theorem SoundDir.removed {l : Loc} (sound : SoundDir g d first) (removed : Removed g d d' first l) : SoundDir g d' first :=
  ⟨removed.intact, sound.mid, removed.blank, removed.distinct sound.distinct⟩

theorem took_node {l : Loc} :
    ((s.took dir l).nodes s.count) = entryNode dir (display s.disk l) (rawAt s.disk l) l.1 l.2 :=
  Function.update_self _ _ _

theorem unlink_removes {l : Loc} (fats : 0 < g.numFats) (calm : s.Calm) (enough : fullFuel ≤ fuel)
    (chain : Intact g s.disk (clusterOf s.disk l)) :
    removeEntry g fuel (s.took dir l) s.count = some ((s.took dir l).withDisk (removedDisk g s.disk l), 0) := by
  have calm' : (s.took dir l).Calm := calm
  refine removeEntry_calm calm' fats chain enough ?_ ?_ ?_
  · rw [took_node]
    rfl
  · rw [took_node]
    rfl
  · rw [took_node]
    rfl

/-- Unlinking a name that is found, up to the question whether a directory is empty. -/
theorem unlink_found {l : Loc} (fats : 0 < g.numFats) (calm : s.Calm) (enough : fullFuel ≤ fuel)
    (intact : Intact g s.disk (s.metaOf dir).firstCluster) (found : slotOf g s dir name = some l)
    (left : s.count < fatMaxNodes) (chain : Intact g s.disk (clusterOf s.disk l)) :
    fatDirUnlink g fuel s dir name =
      if entryType (rawAt s.disk l) = .dir ∧ ¬ ∀ x ∈ live g s.disk (clusterOf s.disk l), isDots (display s.disk x) = true then
        some (s.took dir l, -enotempty)
      else some ((s.took dir l).withDisk (removedDisk g s.disk l), 0) := by
  have calm' : (s.took dir l).Calm := calm
  have cluster : ((s.took dir l).metaOf (some s.count)).firstCluster = clusterOf s.disk l := by
    change ((s.took dir l).nodes s.count).priv.firstCluster = _
    rw [took_node]
    rfl
  have check : fatIterateDir g fatDotCheckVisitor fuel (some s.count) (s.took dir l, true) =
      some (s.took dir l, (live g s.disk (clusterOf s.disk l)).all fun x => isDots (display s.disk x)) :=
    dotCheck_calm calm' enough (by rw [cluster]; exact chain.dirSlots)
  have type : ((s.took dir l).nodes s.count).type = entryType (rawAt s.disk l) := by
    rw [took_node]
    rfl
  have removes : removeEntry g fuel (s.took dir l) s.count = _ := unlink_removes fats calm enough chain
  unfold fatDirUnlink
  simp only [lookup_found calm enough intact found left, type, check]
  by_cases isDir : entryType (rawAt s.disk l) = .dir
  · rw [if_pos isDir]
    by_cases bare : ∀ x ∈ live g s.disk (clusterOf s.disk l), isDots (display s.disk x) = true
    · rw [if_neg fun both => both.2 bare, List.all_eq_true.mpr bare]
      exact removes
    · have full : ((live g s.disk (clusterOf s.disk l)).all fun x => isDots (display s.disk x)) = false :=
        Bool.eq_false_iff.mpr fun all => bare (List.all_eq_true.mp all)
      rw [if_pos ⟨isDir, bare⟩, full]
  · rw [if_neg isDir, if_neg fun both => isDir both.1]
    exact removes

theorem unlink_missing (calm : s.Calm) (enough : fullFuel ≤ fuel) (intact : Intact g s.disk (s.metaOf dir).firstCluster)
    (missing : slotOf g s dir name = none ∨ fatMaxNodes ≤ s.count) :
    fatDirUnlink g fuel s dir name = some (s, -enoent) := by
  unfold fatDirUnlink
  rw [lookup_missing calm enough intact missing]

/-- A directory without one of its entries shows the other names where it showed them. -/
theorem SoundDir.without {t : Fat} {l : Loc} (sound : SoundDir g s.disk (s.metaOf dir).firstCluster)
    (sound' : SoundDir g t.disk (t.metaOf dir).firstCluster) (same : t.metaOf dir = s.metaOf dir)
    (removed : Removed g s.disk t.disk (s.metaOf dir).firstCluster l) (mem : l ∈ live g s.disk (s.metaOf dir).firstCluster)
    (shows : display s.disk l = name) :
    slotOf g t dir name = none ∧ ∀ other, other ≠ name → slotOf g t dir other = slotOf g s dir other := by
  have entries : ∀ x, x ∈ live g t.disk (t.metaOf dir).firstCluster ↔
      x ∈ live g s.disk (s.metaOf dir).firstCluster ∧ x ≠ l := by
    intro x
    rw [same, removed.entries, List.mem_filter]
    simp
  have displays : ∀ x ∈ live g s.disk (s.metaOf dir).firstCluster, x ≠ l → display t.disk x = display s.disk x :=
    fun x inLive other => display_congr (removed.old x (realSlots_sub inLive) other)
  have slots : ∀ other x, slotOf g t dir other = some x ↔ slotOf g s dir other = some x ∧ x ≠ l := by
    intro other x
    rw [sound'.slot_iff, sound.slot_iff, entries]
    constructor
    · rintro ⟨⟨inLive, apart⟩, is⟩
      exact ⟨⟨inLive, displays x inLive apart ▸ is⟩, apart⟩
    · rintro ⟨⟨inLive, is⟩, apart⟩
      exact ⟨⟨inLive, apart⟩, (displays x inLive apart).trans is⟩
  refine ⟨Option.eq_none_iff_forall_ne_some.mpr fun x found => ?_, fun other differ => Option.ext fun x => ?_⟩
  · obtain ⟨inSlot, apart⟩ := (slots name x).mp found
    have here : slotOf g s dir name = some l := sound.slot_iff.mpr ⟨mem, shows⟩
    exact apart (Option.some.inj (inSlot.symm.trans here))
  · rw [slots]
    refine and_iff_left_of_imp fun found => ?_
    rintro rfl
    exact differ ((slotOf_live found).2.symm.trans shows)

theorem unlink_leaves (fats : 0 < g.numFats) (calm : s.Calm) (enough : fullFuel ≤ fuel)
    (sound : SoundDir g s.disk (s.metaOf dir).firstCluster) (pooled : OnPool s dir) (left : s.count < fatMaxNodes)
    (target : TargetSound g s dir name) : Leaves g fuel s dir name := by
  have intact := sound.intact
  have isFound : (lookedUp g fuel s dir name).isSome = _ := lookedUp_some calm enough intact left
  cases found : slotOf g s dir name with
  | none =>
    refine ⟨_, _, unlink_missing calm enough intact (.inl found), sound, .inr (.inl ⟨rfl, ?_, rfl⟩)⟩
    rw [lookedUp_eq calm enough intact left, found, Option.map_none]
  | some l =>
    obtain ⟨mem, shows⟩ := slotOf_live found
    obtain ⟨chain, apart⟩ := target l found
    have took : (s.took dir l).metaOf dir = s.metaOf dir := took_metaOf pooled
    have isSome : (lookedUp g fuel s dir name).isSome = true := by
      rw [isFound, found]
      rfl
    have call := unlink_found fats calm enough intact found left chain
    by_cases full : entryType (rawAt s.disk l) = .dir ∧
        ¬ ∀ x ∈ live g s.disk (clusterOf s.disk l), isDots (display s.disk x) = true
    · rw [if_pos full] at call
      refine ⟨_, _, call, took ▸ sound, .inr (.inr ⟨rfl, ?_, rfl⟩)⟩
      obtain ⟨isDir, more⟩ := full
      simp only [not_forall] at more
      obtain ⟨x, inDir, notDots⟩ := more
      obtain ⟨index, at_⟩ := List.mem_iff_getElem?.mp inDir
      have cluster : ((s.took dir l).metaOf (some s.count)).firstCluster = clusterOf s.disk l := by
        change ((s.took dir l).nodes s.count).priv.firstCluster = _
        rw [took_node]
        rfl
      have calm' : (s.took dir l).Calm := calm
      refine ⟨_, _, lookup_found calm enough intact found left, ?_, index, display s.disk x, ?_, ?_⟩
      · rw [took_node]
        exact isDir
      · rw [fatDirReaddir_calm calm' enough (by rw [cluster]; exact chain.dirSlots)]
        change some (_, ((live g s.disk (clusterOf s.disk l))[index]?).map _) = _
        rw [at_, Option.map_some]
        exact congrArg (fun shown => some (s.took dir l, some shown)) (display_short s.disk x)
      · simpa [isDots] using notDots
    · rw [if_neg full] at call
      have removed : Removed g s.disk (removedDisk g s.disk l) (s.metaOf dir).firstCluster l :=
        removed_entry fats intact sound.blank mem chain fun c inChain => apart c (givenBack_subset inChain)
      have same : ((s.took dir l).withDisk (removedDisk g s.disk l)).metaOf dir = s.metaOf dir := withDisk_metaOf.trans took
      have sound' : SoundDir g (removedDisk g s.disk l) (((s.took dir l).withDisk (removedDisk g s.disk l)).metaOf dir).firstCluster :=
        same ▸ sound.removed removed
      obtain ⟨gone, others⟩ := sound.without sound' same removed mem shows
      have calm' : ((s.took dir l).withDisk (removedDisk g s.disk l)).Calm := calm
      refine ⟨_, _, call, sound', .inl ⟨rfl, isSome, ?_, fun left' => ⟨fun other differ => ?_, sound'⟩⟩⟩
      · unfold lookedUp
        rw [lookup_missing calm' enough sound'.intact (.inl gone)]
        rfl
      · refine lookedUp_congr calm calm' enough intact sound'.intact left left' (others other differ) fun x there => ?_
        refine removed.old x (realSlots_sub (slotOf_live there).1) ?_
        rintro rfl
        exact differ ((slotOf_live there).2.symm.trans shows)

theorem enumerates (calm : s.Calm) (enough : fullFuel ≤ fuel) (sound : SoundDir g s.disk (s.metaOf dir).firstCluster)
    (left : s.count < fatMaxNodes) : Enumerates g fuel s dir := by
  refine ⟨(live g s.disk (s.metaOf dir).firstCluster).map (display s.disk), sound.distinct, fun x => ?_, fun index => ?_⟩
  · rw [lookedUp_some calm enough sound.intact left, Option.isSome_iff_exists, List.mem_map]
    exact exists_congr fun l => sound.slot_iff.symm
  · rw [fatDirReaddir_calm calm enough sound.intact.dirSlots, List.getElem?_map]
    refine congrArg (fun shown => some (s, shown)) (congrArg (Option.map · _) ?_)
    exact funext (display_short s.disk)

/-- A well-formed directory is a finite map from names to entries, for every lower-case short name. -/
theorem directories_are_finite_maps (g : Geometry) (fuel : Nat) (s : Fat) (dir : Option Nat) (base : List (BitVec 8))
    (ext : Option (List (BitVec 8))) (fats : 0 < g.numFats) (per : 0 < g.sectorsPerCluster) (enough : fullFuel ≤ fuel)
    (calm : s.Calm) (sound : SoundDir g s.disk (s.metaOf dir).firstCluster) (pooled : OnPool s dir)
    (left : s.count < fatMaxNodes) (canonical : CanonicalName base ext) :
    FiniteMap g fuel s dir (shortName base ext) where
  create := create_enters fats per calm enough sound left canonical
  mkdir := mkdir_enters fats per calm enough sound left canonical
  unlink := unlink_leaves fats calm enough sound pooled left
  readdir := enumerates calm enough sound left

end Proofs

theorem oneFileVolume_sound :
    SoundDir (geometryOf (smallBoot 1#8 1#8)) (oneFileVolume fun _ => .done).disk 0 := by
  have nodup := nodup_dirSlots (oneFileVolume_intact fun _ => .done).intact
  obtain ⟨rest, slots⟩ : ∃ rest, dirSlots (geometryOf (smallBoot 1#8 1#8)) (oneFileVolume fun _ => .done).disk 0 =
    (2, 0) :: rest := ⟨_, rfl⟩
  refine ⟨.inl rfl, by decide, ?_, by decide +kernel⟩
  rw [slots, blank_cons (by decide +kernel)]
  refine blank_of_zero fun x mem => ?_
  obtain ⟨inRoot, offset⟩ : x.1 ∈ rootLbas (geometryOf (smallBoot 1#8 1#8)) ∧ x.2 ∈ direntOffsets := by
    have inDir : x ∈ dirSlots (geometryOf (smallBoot 1#8 1#8)) (oneFileVolume fun _ => .done).disk 0 := by
      rw [slots]
      exact List.mem_cons_of_mem _ mem
    exact mem_slotsOf.mp inDir
  have sector : x.1 = 2 := by
    have roots : rootLbas (geometryOf (smallBoot 1#8 1#8)) = [2] := by decide
    simpa [roots] using inRoot
  have behind : 32 ≤ x.2 := by
    obtain ⟨k, -, at_⟩ := List.mem_map.mp offset
    have other : x.2 ≠ 0 := by
      intro zero
      have here : x = (2, 0) := Prod.ext sector zero
      rw [slots] at nodup
      exact (List.nodup_cons.mp nodup).1 (here ▸ mem)
    omega
  funext i
  unfold rawAt entryAt zeroEntry
  by_cases low : i < 32
  · rw [if_pos low, sector]
    exact if_neg fun both => absurd both.2 (by omega)
  · rw [if_neg low]

/-- On a volume with one file in its root directory. -/
theorem oneFileVolume_map :
    FiniteMap (geometryOf (smallBoot 1#8 1#8)) fullFuel (oneFileVolume fun _ => .done) none (shortName [0x61#8] none) :=
  directories_are_finite_maps (geometryOf (smallBoot 1#8 1#8)) fullFuel (oneFileVolume fun _ => .done) none [0x61#8] none
    (by decide) (by decide) le_rfl rfl oneFileVolume_sound (fun _ is => by cases is) (by decide)
    ⟨by decide, by decide, by simp [NameByte, blankByte, dotByte], nofun, by decide⟩

end Isunux
