import Isunux.FatUnlink

/-! What `fat_find_free_dirent_slot` and the writing of a new entry do to a directory of a
disk that works. -/
namespace Isunux

section Placing

variable {g : Geometry} {s : Fat} {disk disk' : Nat → Sector} {dir : Option Nat} {first fuel : Nat}
  {entry : List (BitVec 8)}

/-- The cluster that a full directory is lengthened behind. A scan does not enter a directory
whose number reads as an end mark. -/
def lastCluster (g : Geometry) (disk : Nat → Sector) (first : Nat) : Nat :=
  if first < fat16EocMin then (chainFrom g disk first).getLastD first else first

/-- The disk after an entry was put into a directory, if there was room for it. -/
def placed (g : Geometry) (disk : Nat → Sector) (first : Nat) (entry : List (BitVec 8)) : Option (Nat → Sector) :=
  match (dirSlots g disk first).find? (freeSlot disk) with
  | some l => some (putAt disk l 0 entry)
  | none =>
    if first = 0 then none
    else (freeCluster g disk).map fun c => grownDir g disk (lastCluster g disk first) c entry

theorem dirSlots_root : dirSlots g disk 0 = slotsOf (rootLbas g) := rfl

theorem dirSlots_chain (sub : first ≠ 0) (mid : first < fat16EocMin) :
    dirSlots g disk first = slotsOf (chainLbas g (chainFrom g disk first)) := by
  unfold dirSlots
  rw [if_neg sub, if_pos mid]

theorem placed_slot {l : Loc} (found : (dirSlots g disk first).find? (freeSlot disk) = some l) :
    placed g disk first entry = some (putAt disk l 0 entry) := by
  unfold placed
  rw [found]

theorem placed_root (full : (dirSlots g disk 0).find? (freeSlot disk) = none) : placed g disk 0 entry = none := by
  unfold placed
  rw [full]
  rfl

theorem placed_grown (full : (dirSlots g disk first).find? (freeSlot disk) = none) (sub : first ≠ 0) :
    placed g disk first entry =
      (freeCluster g disk).map fun c => grownDir g disk (lastCluster g disk first) c entry := by
  unfold placed
  rw [full]
  exact if_neg sub

theorem findInChain_dir (calm : s.Calm) (chain : ChainOf g s.disk first (chainFrom g s.disk first))
    (enough : fullFuel ≤ fuel) :
    findInChain g fuel first first s =
      some (s, .ok (match (dirSlots g s.disk first).find? (freeSlot s.disk) with
        | some l => .inl l
        | none => .inr (lastCluster g s.disk first))) := by
  unfold lastCluster
  by_cases mid : first < fat16EocMin
  · rw [if_pos mid, dirSlots_chain chain.nonzero mid]
    exact findInChain_calm calm chain mid (chain.length_lt.trans_le enough)
  · obtain ⟨n, rfl⟩ : ∃ n, fuel = n + 1 := ⟨fuel - 1, by unfold fullFuel at enough; omega⟩
    unfold dirSlots
    rw [findInChain, if_neg (by omega), if_neg chain.nonzero, if_neg mid, if_neg mid]
    rfl

theorem writeEntry_calm (calm : s.Calm) (l : Loc) (writeError : Int) :
    (match ataReadSector s l.1 with
      | (s, none) => some (s, -eio)
      | (s, some sector) =>
        let w := ataWriteSector s l.1 (patch sector l.2 entry)
        some (w.1, if w.2 then 0 else writeError)) = some (s.withDisk (putAt s.disk l 0 entry), (0 : Int)) := by
  rw [ataReadSector_calm calm]
  simp only [ataWriteSector_calm calm, if_true]
  rfl

theorem addEntry_calm (calm : s.Calm) (enough : fullFuel ≤ fuel)
    (intact : Intact g s.disk (s.metaOf dir).firstCluster) (entry : List (BitVec 8)) (writeError : Int) :
    addEntry g fuel s dir entry writeError =
      some (match placed g s.disk (s.metaOf dir).firstCluster entry with
        | some d => (s.withDisk d, 0)
        | none => (s, -enospc)) := by
  unfold addEntry fatFindFreeDirentSlot
  generalize (s.metaOf dir).firstCluster = first at intact
  by_cases root : first = 0
  · subst root
    simp only [if_true, findInSectors_calm calm]
    cases found : (slotsOf (rootLbas g)).find? (freeSlot s.disk) with
    | none => rw [placed_root found]
    | some l =>
      rw [placed_slot (dirSlots_root ▸ found)]
      exact writeEntry_calm calm l writeError
  · simp only [if_neg root, findInChain_dir calm (intact.resolve_left root) enough]
    cases found : (dirSlots g s.disk first).find? (freeSlot s.disk) with
    | some l =>
      rw [placed_slot found]
      exact writeEntry_calm calm l writeError
    | none =>
      rw [placed_grown found root]
      simp only [fatAllocCluster_calm calm]
      cases free : freeCluster g s.disk with
      | none => rfl
      | some c =>
        have some : c ≠ 0 := by have := (freeCluster_some free).1; omega
        simp only [if_neg some, fatWriteFatEntry_calm calm.withDisk, withDisk_disk, withDisk_withDisk,
          zeroSectors_calm calm.withDisk]
        exact writeEntry_calm calm.withDisk (clusterToLba g c, 0) writeError

/-- Scans will meet what is put into the directory next. -/
def Reachable (g : Geometry) (disk : Nat → Sector) (first : Nat) : Prop :=
  ((dirSlots g disk first).find? (freeSlot disk)).isSome = true ∨
    first < fat16EocMin ∧ ∀ c, freeCluster g disk = some c → c < fat16EocMin

theorem lastCluster_splits (chain : ChainOf g disk first (chainFrom g disk first)) :
    ∃ ys zs, chainFrom g disk first = ys ++ lastCluster g disk first :: zs ∧
      (first < fat16EocMin → zs = []) ∧ (fat16EocMin ≤ first → ys = []) := by
  unfold lastCluster
  obtain ⟨rest, head⟩ := chain.head
  have nonempty : chainFrom g disk first ≠ [] := by
    rw [head]
    exact List.cons_ne_nil _ _
  obtain ⟨ys, last, spelled⟩ : ∃ ys last, chainFrom g disk first = ys ++ [last] :=
    ⟨_, _, (List.dropLast_append_getLast nonempty).symm⟩
  split
  · refine ⟨ys, [], ?_, fun _ => rfl, fun high => by omega⟩
    rw [spelled, List.getLastD_concat]
  · exact ⟨[], rest, head, fun mid => by omega, fun _ => rfl⟩

theorem added_grown {c : Nat} (fats : 0 < g.numFats) (per : 0 < g.sectorsPerCluster)
    (chain : ChainOf g disk first (chainFrom g disk first)) (blank : Blank disk (dirSlots g disk first))
    (length : entry.length = 32) (goes : ofBytes entry 0 ≠ 0#8)
    (full : (dirSlots g disk first).find? (freeSlot disk) = none) (free : freeCluster g disk = some c)
    (short : c < 2 ^ 16) :
    let d := grownDir g disk (lastCluster g disk first) c entry
    Added g disk d first entry
      (if first < fat16EocMin ∧ c < fat16EocMin then ifReal d (clusterToLba g c, 0) else []) := by
  intro d
  obtain ⟨low, bound, zero⟩ := freeCluster_some free
  obtain ⟨ys, zs, spelled, mids, highs⟩ := lastCluster_splits chain
  have inChain : lastCluster g disk first ∈ chainFrom g disk first := by rw [spelled]; simp
  have regions : regionsOf g disk first = chainFrom g disk first := chain.regions
  have lengthened : Lengthened g disk d (lastCluster g disk first) c :=
    grownDir_lengthened fats per low bound short (chain.cells _ inChain).bound
  have frame : Frame g disk d (· ∈ regionsOf g disk first) :=
    (lengthened.frame low zero).mono fun r here => by rw [here, regions]; exact inChain
  have longer := lengthened.chain low bound zero (spelled ▸ chain)
  have same : ∀ x ∈ dirSlots g disk first, rawAt d x = rawAt disk x := by
    intro x mem
    obtain ⟨-, r, inDir, region, inRegion⟩ := mem_dirSlots chain.intact mem
    have cell : Cell g disk r := chain.cells r (regions ▸ inDir)
    unfold rawAt
    rw [lengthened.regions r cell.isRegion (Lengthened.cell_ne zero cell) x.1 inRegion]
  have old : ∀ l ∈ live g disk first, rawAt d l = rawAt disk l := fun l mem => same l (realSlots_sub mem)
  have within : ∀ r ∈ regionsOf g d first, r ∈ regionsOf g disk first ∨
      2 ≤ r ∧ r < g.totalEntries ∧ fatEntry g disk r = 0 := by
    intro r mem
    rw [longer.regions, List.mem_append, List.mem_cons] at mem
    rcases mem with inYs | rfl | new
    · exact .inl (by rw [regions, spelled]; simp [inYs])
    · exact .inl (by rw [regions]; exact inChain)
    · split at new
      · obtain rfl := List.mem_singleton.mp new
        exact .inr ⟨low, bound, zero⟩
      · cases new
  by_cases seen : first < fat16EocMin ∧ c < fat16EocMin
  · obtain ⟨mid, high⟩ := seen
    rw [if_pos ⟨mid, high⟩]
    rw [if_pos high] at longer
    obtain rfl := mids mid
    obtain ⟨rest, cut⟩ := clusterSlots_cons per c
    have nodup := nodup_dirSlots longer.intact
    have slots : dirSlots g d first = dirSlots g disk first ++ (clusterToLba g c, 0) :: rest := by
      rw [dirSlots_chain longer.nonzero mid, dirSlots_chain chain.nonzero mid, longer.from_eq, spelled, ← cut]
      simp [chainLbas, slotsOf_append]
    obtain ⟨here, zeros⟩ : rawAt d (clusterToLba g c, 0) = ofBytes entry ∧ _ := grownDir_slots per length
    have outside : (clusterToLba g c, 0) ∉ dirSlots g disk first := by
      rw [slots] at nodup
      exact fun mem => (List.nodup_append.mp nodup).2.2 _ mem _ List.mem_cons_self rfl
    have only : ∀ x ∈ ifReal d (clusterToLba g c, 0), x = (clusterToLba g c, 0) := by
      intro x mem
      unfold ifReal at mem
      split at mem
      · exact List.mem_singleton.mp mem
      · cases mem
    have zero' : ∀ x ∈ rest, rawAt d x = zeroEntry := by
      intro x mem
      have other : x ≠ (clusterToLba g c, 0) := by
        rw [slots] at nodup
        rintro rfl
        exact (List.nodup_cons.mp (List.nodup_append.mp nodup).2.1).1 mem
      exact zeros x (cut ▸ List.mem_cons_of_mem _ mem) other
    obtain ⟨real, blank'⟩ := grow_slots full same (here ▸ goes) zero'
    refine ⟨longer.intact, ⟨live g disk first, [], (List.append_nil _).symm, ?_⟩, ?_, fun x mem => ?_, old, ?_, frame,
      within⟩
    · unfold live
      rw [slots, real, List.append_nil]
    · unfold ifReal
      split <;> simp
    · rw [only x mem]
      exact ⟨here, fun inside => outside (realSlots_sub inside)⟩
    · rwa [slots]
  · rw [if_neg seen]
    have slots : dirSlots g d first = dirSlots g disk first := by
      by_cases mid : first < fat16EocMin
      · obtain rfl := mids mid
        rw [if_neg fun high => seen ⟨mid, high⟩] at longer
        rw [dirSlots_chain longer.nonzero mid, dirSlots_chain chain.nonzero mid, longer.from_eq, spelled]
      · unfold dirSlots
        rw [if_neg chain.nonzero, if_neg mid, if_neg chain.nonzero, if_neg mid]
    refine ⟨longer.intact, ⟨live g disk first, [], (List.append_nil _).symm, ?_⟩, Nat.zero_le _,
      fun x mem => absurd mem List.not_mem_nil, old, ?_, frame, within⟩
    · unfold live
      rw [slots, realSlots_congr same]
      simp
    · rw [slots]
      exact blank.congr same

theorem ifReal_one {d : Nat → Sector} {l : Loc} : (∃ x, ifReal d l = [x]) ↔ realEntry (rawAt d l) = true := by
  unfold ifReal
  split
  · rename_i real
    exact ⟨fun _ => real, fun _ => ⟨l, rfl⟩⟩
  · rename_i unreal
    simp [unreal]

/-- Whatever way room was made for it, an entry stands between the old ones. -/
theorem placed_added (fats : 0 < g.numFats) (per : 0 < g.sectorsPerCluster) (intact : Intact g disk first)
    (blank : Blank disk (dirSlots g disk first))
    (small : (dirSlots g disk first).find? (freeSlot disk) = none → ∀ c, freeCluster g disk = some c → c < 2 ^ 16)
    (length : entry.length = 32) (goes : ofBytes entry 0 ≠ 0#8) (is : placed g disk first entry = some disk') :
    ∃ new, Added g disk disk' first entry new ∧
      ((∃ l, new = [l]) ↔ realEntry (ofBytes entry) = true ∧ Reachable g disk first) := by
  cases found : (dirSlots g disk first).find? (freeSlot disk) with
  | some l =>
    rw [placed_slot found] at is
    obtain rfl := Option.some.inj is
    have raw : rawAt (putAt disk l 0 entry) l = ofBytes entry := by
      rw [rawAt_putAt_self (by omega), patch_whole length]
    refine ⟨_, added_in_place fats intact blank length goes found, ?_⟩
    rw [ifReal_one, raw]
    exact ⟨fun real => ⟨real, .inl (by rw [found]; rfl)⟩, fun both => both.1⟩
  | none =>
    have sub : first ≠ 0 := by
      rintro rfl
      rw [placed_root found] at is
      cases is
    rw [placed_grown found sub] at is
    obtain ⟨c, free, rfl⟩ := Option.map_eq_some_iff.mp is
    refine ⟨_, added_grown fats per (intact.resolve_left sub) blank length goes found free (small found c free), ?_⟩
    have reach : Reachable g disk first ↔ first < fat16EocMin ∧ c < fat16EocMin := by
      unfold Reachable
      rw [found]
      simp [free]
    rw [reach]
    split
    · rename_i below
      rw [ifReal_one, (grownDir_slots per length).1]
      exact ⟨fun real => ⟨real, below⟩, fun both => both.1⟩
    · rename_i above
      exact ⟨fun ⟨_, no⟩ => absurd no (List.cons_ne_nil _ _).symm, fun both => absurd both.2 above⟩

end Placing

section Finding

variable {g : Geometry} {disk disk' : Nat → Sector} {first : Nat} {entry : List (BitVec 8)} {new : List Loc}
  {name : List (BitVec 8)} {l : Loc}

theorem findSlot_live : findSlot disk (dirSlots g disk first) name = (live g disk first).find? fun l => display disk l == name :=
  rfl

theorem display_congr (same : rawAt disk' l = rawAt disk l) : display disk' l = display disk l := by
  unfold display
  rw [same]

theorem find_display_congr {xs : List Loc} (same : ∀ l ∈ xs, rawAt disk' l = rawAt disk l) :
    (xs.find? fun l => display disk' l == name) = xs.find? fun l => display disk l == name :=
  List.find?_congr fun l mem => by rw [display_congr (same l mem)]

theorem Added.new_display (h : Added g disk disk' first entry new) (mem : l ∈ new) :
    display disk' l = fatDecode83Name (ofBytes entry) := by
  unfold display
  rw [(h.raw l mem).1]

theorem Added.find_other (h : Added g disk disk' first entry new) (other : name ≠ fatDecode83Name (ofBytes entry)) :
    findSlot disk' (dirSlots g disk' first) name = findSlot disk (dirSlots g disk first) name := by
  obtain ⟨before, behind, was, is⟩ := h.place
  have skipped : (new.find? fun l => display disk' l == name) = none := by
    rw [List.find?_eq_none]
    intro l mem same
    exact other (by rw [← h.new_display mem]; exact (beq_iff_eq.mp same).symm)
  have old := h.old
  rw [was] at old
  rw [findSlot_live, findSlot_live, was, is, List.find?_append, List.find?_append, skipped, Option.or_none, List.find?_append,
    find_display_congr fun l mem => old l (List.mem_append_left _ mem),
    find_display_congr fun l mem => old l (List.mem_append_right _ mem)]

theorem Added.find_new (h : Added g disk disk' first entry [l]) (here : fatDecode83Name (ofBytes entry) = name)
    (missing : findSlot disk (dirSlots g disk first) name = none) :
    findSlot disk' (dirSlots g disk' first) name = some l := by
  obtain ⟨before, behind, was, is⟩ := h.place
  have old := h.old
  rw [findSlot_live, was, List.find?_append, Option.or_eq_none_iff] at missing
  rw [was] at old
  have shows : display disk' l = name := (h.new_display List.mem_cons_self).trans here
  have skipped : (before.find? fun l => display disk' l == name) = none := by
    rw [find_display_congr fun l mem => old l (List.mem_append_left _ mem)]
    exact missing.1
  rw [findSlot_live, is, List.append_assoc, List.find?_append, skipped, Option.none_or]
  simp [shows]

theorem missing_display (missing : findSlot disk (dirSlots g disk first) name = none) :
    name ∉ (live g disk first).map (display disk) := by
  rw [findSlot_live, List.find?_eq_none] at missing
  rw [List.mem_map]
  rintro ⟨l, mem, same⟩
  exact missing l mem (beq_iff_eq.mpr same)

theorem Added.names (h : Added g disk disk' first entry new) :
    ∃ before behind, (live g disk first).map (display disk) = before ++ behind ∧
      (live g disk' first).map (display disk') = before ++ new.map (fun _ => fatDecode83Name (ofBytes entry)) ++ behind := by
  obtain ⟨before, behind, was, is⟩ := h.place
  have old := h.old
  rw [was] at old
  have same : ∀ xs : List Loc, (∀ l ∈ xs, rawAt disk' l = rawAt disk l) → xs.map (display disk') = xs.map (display disk) :=
    fun xs kept => List.map_congr_left fun l mem => display_congr (kept l mem)
  refine ⟨before.map (display disk), behind.map (display disk), by rw [was, List.map_append], ?_⟩
  rw [is, List.map_append, List.map_append, same before fun l mem => old l (List.mem_append_left _ mem),
    same behind fun l mem => old l (List.mem_append_right _ mem), List.map_congr_left fun l mem => h.new_display mem]

theorem Added.distinct (h : Added g disk disk' first entry new) (distinct : ((live g disk first).map (display disk)).Nodup)
    (missing : findSlot disk (dirSlots g disk first) (fatDecode83Name (ofBytes entry)) = none) :
    ((live g disk' first).map (display disk')).Nodup := by
  obtain ⟨before, behind, was, is⟩ := h.names
  have absent := missing_display missing
  rw [was] at distinct absent
  rw [is]
  match new, h.one with
  | [], _ => simpa using distinct
  | [l], _ =>
    rw [List.append_assoc]
    exact List.nodup_middle.mpr (List.nodup_cons.mpr ⟨absent, distinct⟩)

end Finding

/-- The clusters that removing an object frees: none if its number reads as an end mark. -/
def givenBack (g : Geometry) (disk : Nat → Sector) (first : Nat) : List Nat :=
  if first < fat16EocMin then fileClusters g disk first else []

/-- What a directory is like when the entry at `l` has been removed with its chain. -/
structure Removed (g : Geometry) (disk disk' : Nat → Sector) (first : Nat) (l : Loc) : Prop where
  intact : Intact g disk' first
  regions : regionsOf g disk' first = regionsOf g disk first
  entries : live g disk' first = (live g disk first).filter (· ≠ l)
  old : ∀ x ∈ dirSlots g disk first, x ≠ l → rawAt disk' x = rawAt disk x
  blank : Blank disk' (dirSlots g disk' first)
  table : ∀ c < g.totalEntries, fatEntry g disk' c =
    if c ∈ givenBack g disk (clusterOf disk l) then 0 else fatEntry g disk c
  sectors : ∀ r, IsRegion r → r ∉ regionsOf g disk first → ∀ lba ∈ regionLbas g r, disk' lba = disk lba

section Removing

variable {g : Geometry} {s : Fat} {disk : Nat → Sector} {first fuel i : Nat} {l : Loc} {name : List (BitVec 8)}

def removedDisk (g : Geometry) (disk : Nat → Sector) (l : Loc) : Nat → Sector :=
  putAt (freed g disk (givenBack g disk (clusterOf disk l))) l 0 [deletedMark]

theorem freeFile_calm (calm : s.Calm) (fats : 0 < g.numFats) (intact : Intact g s.disk first)
    (enough : fullFuel ≤ fuel) : freeChain g fuel s first = some (s.withDisk (freed g s.disk (givenBack g s.disk first))) := by
  obtain ⟨n, rfl⟩ : ∃ n, fuel = n + 1 := ⟨fuel - 1, by unfold fullFuel at enough; omega⟩
  unfold givenBack fileClusters
  rcases intact with rfl | chain
  · rfl
  · by_cases mid : first < fat16EocMin
    · rw [if_pos mid, if_neg chain.nonzero]
      exact freeChain_calm calm fats chain mid (chain.length_lt.trans_le enough)
    · rw [if_neg mid, freeChain, if_neg (by omega)]
      rfl

theorem removeEntry_calm (calm : s.Calm) (fats : 0 < g.numFats) (intact : Intact g s.disk (clusterOf s.disk l))
    (enough : fullFuel ≤ fuel)
    (cluster : (s.nodes i).priv.firstCluster = clusterOf s.disk l) (lba : (s.nodes i).priv.direntLba = l.1)
    (offset : (s.nodes i).priv.direntOffset = l.2) :
    removeEntry g fuel s i = some (s.withDisk (removedDisk g s.disk l), 0) := by
  unfold removeEntry
  simp only [cluster, lba, offset, freeFile_calm calm fats intact enough, ataReadSector_calm calm.withDisk,
    ataWriteSector_calm calm.withDisk, if_true]
  rfl

theorem fileClusters_cells (intact : Intact g disk first) : ∀ c ∈ fileClusters g disk first, Cell g disk c := by
  intro c mem
  unfold fileClusters at mem
  rcases intact with rfl | chain
  · cases mem
  · rw [if_neg chain.nonzero] at mem
    exact chain.cells c mem

theorem givenBack_cells (intact : Intact g disk first) : ∀ c ∈ givenBack g disk first, Cell g disk c := by
  intro c mem
  unfold givenBack at mem
  split at mem
  · exact fileClusters_cells intact c mem
  · cases mem

theorem removed_entry (fats : 0 < g.numFats) (intact : Intact g disk first)
    (blank : Blank disk (dirSlots g disk first)) (mem : l ∈ live g disk first) (chain : Intact g disk (clusterOf disk l))
    (away : ∀ c ∈ givenBack g disk (clusterOf disk l), c ∉ regionsOf g disk first) :
    Removed g disk (removedDisk g disk l) first l := by
  have inside : ∀ c ∈ givenBack g disk (clusterOf disk l), c < g.totalEntries := fun c mem =>
    (givenBack_cells chain c mem).bound
  -- the chain is given back
  obtain ⟨d, isD⟩ : ∃ d, d = freed g disk (givenBack g disk (clusterOf disk l)) := ⟨_, rfl⟩
  have table : ∀ c < g.totalEntries,
      fatEntry g d c = if c ∈ givenBack g disk (clusterOf disk l) then 0 else fatEntry g disk c := fun c bound =>
    isD ▸ fatEntry_freed fats inside bound
  have sectors : ∀ r, IsRegion r → ∀ lba ∈ regionLbas g r, d lba = disk lba := fun r region lba mem =>
    isD ▸ freed_region inside region mem
  have freedFrame : Frame g disk d (· ∈ givenBack g disk (clusterOf disk l)) :=
    ⟨fun c cell other => by rw [table c cell.bound, if_neg other],
      fun r region _ => sectors r (region.elim .inl Cell.isRegion)⟩
  have apart : ∀ r ∈ regionsOf g disk first, r ∉ givenBack g disk (clusterOf disk l) := fun r inDir inChain =>
    away r inChain inDir
  obtain ⟨intact', regions', slots'⟩ := freedFrame.object intact apart
  have same : ∀ x ∈ dirSlots g disk first, rawAt d x = rawAt disk x := fun x mem => freedFrame.raw intact apart mem
  -- the entry is marked
  have written : SlotWritten g d (removedDisk g disk l) first l := by
    have inSlots : l ∈ dirSlots g d first := slots'.symm ▸ realSlots_sub mem
    subst isD
    exact putAt_written fats intact' inSlots (by simp)
  have mark : rawAt (removedDisk g disk l) l 0 = deletedMark := by
    unfold removedDisk
    rw [rawAt_putAt_self (by simp)]
    rfl
  have goes : rawAt (removedDisk g disk l) l 0 ≠ 0#8 := by
    rw [mark]
    decide
  have unreal : ¬ realEntry (rawAt (removedDisk g disk l) l) = true := by
    unfold realEntry
    rw [mark]
    simp
  have mem' : l ∈ realSlots d (dirSlots g disk first) := by rw [realSlots_congr same]; exact mem
  obtain ⟨real, blank'⟩ := edit_slot (blank.congr same) (slots' ▸ written.edited) mem' goes
  have slots : dirSlots g (removedDisk g disk l) first = dirSlots g disk first := written.slots.trans slots'
  refine ⟨written.intact, written.regions.trans regions', ?_, fun x inside other => ?_, ?_, fun c bound => ?_,
    fun r isRegion other lba mem => ?_⟩
  · unfold live
    rw [slots, real, realSlots_congr same]
    exact List.filter_congr fun x _ => by simp [unreal]
  · rw [written.edited x (slots'.symm ▸ inside) other, same x inside]
  · rw [slots]
    exact blank'
  · rw [written.entries c bound, table c bound]
  · rw [← sectors r isRegion lba mem]
    exact written.sector isRegion (regions'.symm ▸ other) mem

end Removing

/-! A new directory -/

section Making

variable {g : Geometry} {disk : Nat → Sector} {c parent : Nat}

/-- The disk after the cluster `c` was made into a directory. -/
def madeDir (g : Geometry) (disk : Nat → Sector) (c parent : Nat) : Nat → Sector :=
  Function.update (zeroed (setEntry g disk c fat16EocMin) (clusterLbas g c)) (clusterToLba g c)
    (dotEntries (fun _ => 0#8) c parent)

/-- The bytes of one of the two first entries of a directory. -/
def dotEntry (name : List (BitVec 8)) (cluster : Nat) : List (BitVec 8) :=
  name ++ List.replicate (11 - name.length) blankByte ++ [attrDirectory] ++ List.replicate 14 0#8 ++
    [byteOf cluster 0, byteOf cluster 1] ++ List.replicate 4 0#8

theorem dotEntries_first : entryAt (dotEntries (fun _ => 0#8) c parent) 0 = ofBytes (dotEntry dotName c) := by
  funext i
  by_cases low : i < 32
  · unfold entryAt
    rw [if_pos low]
    interval_cases i <;> rfl
  · unfold entryAt ofBytes
    rw [if_neg low, List.getD_eq_default]
    simp [dotEntry, dotName]
    omega

theorem dotEntries_second : entryAt (dotEntries (fun _ => 0#8) c parent) 32 = ofBytes (dotEntry dotDotName parent) := by
  funext i
  by_cases low : i < 32
  · unfold entryAt
    rw [if_pos low]
    interval_cases i <;> rfl
  · unfold entryAt ofBytes
    rw [if_neg low, List.getD_eq_default]
    simp [dotEntry, dotDotName]
    omega

theorem dotEntries_rest {i : Nat} (behind : 64 ≤ i) : dotEntries (fun _ => 0#8) c parent i = 0#8 := by
  unfold dotEntries patch
  simp only [List.length_append, List.length_cons, List.length_nil, List.length_replicate]
  rw [if_neg (by omega), if_neg (by omega), if_neg (by omega), if_neg (by omega)]

/-- The cluster `c` has become a directory, and all else is as it was. -/
structure FreshDir (g : Geometry) (disk disk' : Nat → Sector) (c parent : Nat) : Prop where
  table : ∀ x < g.totalEntries, fatEntry g disk' x = if x = c then fat16EocMin else fatEntry g disk x
  sectors : ∀ r, IsRegion r → r ≠ c → ∀ lba ∈ regionLbas g r, disk' lba = disk lba
  dot : rawAt disk' (clusterToLba g c, 0) = ofBytes (dotEntry dotName c)
  dotDot : rawAt disk' (clusterToLba g c, 32) = ofBytes (dotEntry dotDotName parent)
  rest : ∀ x ∈ slotsOf (clusterLbas g c), x ≠ (clusterToLba g c, 0) → x ≠ (clusterToLba g c, 32) →
    rawAt disk' x = zeroEntry

theorem madeDir_made (fats : 0 < g.numFats) (per : 0 < g.sectorsPerCluster) (low : 2 ≤ c) (bound : c < g.totalEntries)
    (short : c < 2 ^ 16) : FreshDir g disk (madeDir g disk c parent) c parent := by
  have region : regionLbas g c = clusterLbas g c := if_neg (by omega)
  have change : ∀ lba, madeDir g disk c parent lba ≠ setEntry g disk c fat16EocMin lba → lba ∈ regionLbas g c := by
    intro lba changed
    rw [region]
    by_contra outside
    refine changed ?_
    unfold madeDir
    rw [Function.update_of_ne, zeroed, if_neg outside]
    rintro rfl
    exact outside (firstLba_mem per)
  obtain ⟨-, entries⟩ : Frame g (setEntry g disk c fat16EocMin) (madeDir g disk c parent) (· = c) ∧ _ :=
    Frame.of_regions fats fun lba changed => ⟨c, .inr ⟨low, short⟩, rfl, change lba changed⟩
  have here : madeDir g disk c parent (clusterToLba g c) = dotEntries (fun _ => 0#8) c parent := Function.update_self _ _ _
  refine ⟨fun x boundX => ?_, fun r isRegion other lba mem => ?_, ?_, ?_, fun x mem first second => ?_⟩
  · rw [entries x boundX, fatEntry_setEntry fats bound boundX]
    rfl
  · have same : setEntry g disk c fat16EocMin lba = disk lba := setEntry_region bound isRegion mem
    rw [← same]
    by_contra changed
    exact other (region_apart isRegion (.inr ⟨low, short⟩) mem (change lba changed))
  · unfold rawAt
    rw [here, dotEntries_first]
  · unfold rawAt
    rw [here, dotEntries_second]
  · obtain ⟨inside, offset⟩ := mem_slotsOf.mp mem
    funext i
    unfold rawAt entryAt zeroEntry
    by_cases head : x.1 = clusterToLba g c
    · have behind : 64 ≤ x.2 := by
        obtain ⟨k, -, at_⟩ := List.mem_map.mp offset
        have first' : x.2 ≠ 0 := fun is => first (Prod.ext head is)
        have second' : x.2 ≠ 32 := fun is => second (Prod.ext head is)
        omega
      rw [head, here, dotEntries_rest (by omega)]
      exact ite_self _
    · unfold madeDir
      rw [Function.update_of_ne head, zeroed, if_pos inside]
      exact ite_self _

theorem dirEntry_real {raw : Nat → BitVec 8} (first : raw 0 = dotByte) (attr : raw 11 = attrDirectory) :
    realEntry raw = true ∧ raw 0 ≠ 0#8 ∧ entryType raw = .dir := by
  unfold realEntry entryType
  rw [first, attr]
  decide

theorem dotEntry_dot : fatDecode83Name (ofBytes (dotEntry dotName c)) = dotName := rfl

theorem dotEntry_dotDot : fatDecode83Name (ofBytes (dotEntry dotDotName c)) = dotDotName := rfl

theorem dotEntry_cluster {name : List (BitVec 8)} (short : name.length ≤ 11) :
    read16 (ofBytes (dotEntry name c)) 26 = c % 2 ^ 16 := by
  have at_ : ∀ i, ofBytes (dotEntry name c) (26 + i) =
      ofBytes ([byteOf c 0, byteOf c 1] ++ List.replicate 4 0#8) i := by
    intro i
    have front : (name ++ List.replicate (11 - name.length) blankByte ++ [attrDirectory] ++
        List.replicate 14 0#8).length = 26 := by
      simp only [List.length_append, List.length_cons, List.length_nil, List.length_replicate]
      omega
    unfold ofBytes dotEntry
    rw [List.append_assoc _ [byteOf c 0, byteOf c 1], List.getD_append_right _ _ _ _ (by omega), front,
      Nat.add_sub_cancel_left]
  unfold read16
  rw [at_ 0, at_ 1]
  simp [ofBytes, byteOf]
  omega

variable {disk' : Nat → Sector} {first : Nat}

theorem FreshDir.frame (h : FreshDir g disk disk' c parent) (low : 2 ≤ c) (free : fatEntry g disk c = 0) :
    Frame g disk disk' fun _ => False := by
  refine ⟨fun x cell _ => ?_, fun r region _ lba mem => ?_⟩
  · rw [h.table x cell.bound, if_neg (Lengthened.cell_ne free cell)]
  · refine h.sectors r (region.elim .inl Cell.isRegion) ?_ lba mem
    rcases region with rfl | cell
    · omega
    · exact Lengthened.cell_ne free cell

theorem FreshDir.chain (h : FreshDir g disk disk' c parent) (low : 2 ≤ c) (bound : c < g.totalEntries) (short : c < 2 ^ 16) :
    ChainOf g disk' c [c] := by
  have entry : fatEntry g disk' c = fat16EocMin := by rw [h.table c bound, if_pos rfl]
  refine ⟨⟨rfl, nextOf_end (by rw [entry])⟩, fun x mem => ?_⟩
  obtain rfl := List.mem_singleton.mp mem
  exact ⟨low, bound, short, by rw [entry]; decide⟩

theorem FreshDir.dot_real (h : FreshDir g disk disk' c parent) :
    realEntry (rawAt disk' (clusterToLba g c, 0)) = true ∧ rawAt disk' (clusterToLba g c, 0) 0 ≠ 0#8 ∧
      entryType (rawAt disk' (clusterToLba g c, 0)) = .dir := by
  rw [h.dot]
  exact dirEntry_real rfl rfl

theorem FreshDir.dotDot_real (h : FreshDir g disk disk' c parent) :
    realEntry (rawAt disk' (clusterToLba g c, 32)) = true ∧ rawAt disk' (clusterToLba g c, 32) 0 ≠ 0#8 ∧
      entryType (rawAt disk' (clusterToLba g c, 32)) = .dir := by
  rw [h.dotDot]
  exact dirEntry_real rfl rfl

theorem clusterSlots_two (per : 0 < g.sectorsPerCluster) (c : Nat) :
    ∃ rest, slotsOf (clusterLbas g c) = (clusterToLba g c, 0) :: (clusterToLba g c, 32) :: rest := by
  obtain ⟨k, hk⟩ : ∃ k, g.sectorsPerCluster = k + 1 := ⟨g.sectorsPerCluster - 1, by omega⟩
  obtain ⟨offs, first⟩ : ∃ offs, direntOffsets = 0 :: 32 :: offs := ⟨_, rfl⟩
  unfold clusterLbas slotsOf sectorSlots
  rw [hk, List.range_succ_eq_map, List.map_cons, List.flatMap_cons, first, List.map_cons, List.map_cons, List.cons_append,
    List.cons_append, sectorOf_zero]
  exact ⟨_, rfl⟩

theorem FreshDir.entries (h : FreshDir g disk disk' c parent) (per : 0 < g.sectorsPerCluster) (low : 2 ≤ c)
    (bound : c < g.totalEntries) (mid : c < fat16EocMin) :
    live g disk' c = [(clusterToLba g c, 0), (clusterToLba g c, 32)] ∧ Blank disk' (dirSlots g disk' c) := by
  have chain := h.chain low bound (lt_trans mid (by decide))
  obtain ⟨rest, slots⟩ := clusterSlots_two per c
  have all : dirSlots g disk' c = (clusterToLba g c, 0) :: (clusterToLba g c, 32) :: rest := by
    rw [dirSlots_chain chain.nonzero mid, chain.from_eq, ← slots]
    simp [chainLbas]
  have nodup := nodup_dirSlots chain.intact
  rw [all] at nodup
  have zeros : ∀ x ∈ rest, rawAt disk' x = zeroEntry := by
    intro x mem
    refine h.rest x (by rw [slots]; simp [mem]) ?_ ?_
    · rintro rfl
      exact (List.nodup_cons.mp nodup).1 (List.mem_cons_of_mem _ mem)
    · rintro rfl
      exact (List.nodup_cons.mp (List.nodup_cons.mp nodup).2).1 mem
  obtain ⟨real, goes, -⟩ := h.dot_real
  obtain ⟨real', goes', -⟩ := h.dotDot_real
  rw [all]
  refine ⟨?_, ?_⟩
  · unfold live
    rw [all, realSlots_real goes real, realSlots_real goes' real', realSlots_blank zeros]
  · rw [blank_cons goes, blank_cons goes']
    exact blank_of_zero zeros

end Making

end Isunux
