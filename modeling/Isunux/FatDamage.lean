import Isunux.FatUpdates
import Isunux.FatMount
import Isunux.Lib.Walk

/-! The loops of the FAT driver on disks that nobody vouches for. Scans only read, so they
run in a circle where the links do; the loop that frees a chain breaks the links behind
itself. All ATA calls succeed here. -/
namespace Isunux

open Walk

/-- The chain loops go on at such a value. -/
abbrev InChain (c : Nat) : Prop := 2 ≤ c ∧ c < fat16EocMin

theorem not_inChain_zero : ¬ InChain 0 := by decide

section Scans

variable {g : Geometry} {s : Fat} {σ : Type} {visitor : Visitor σ} {disk : Nat → Sector} {dir : Option Nat}

/-- A cluster of a chain that no entry of which says that the directory ends there. -/
def GoesOn (g : Geometry) (disk : Nat → Sector) (c : Nat) : Prop :=
  InChain c ∧ ∀ l ∈ slotsOf (clusterLbas g c), rawAt disk l 0 ≠ 0#8

/-- The directory that starts at a cluster ends: it is the root, or the links from there
lead to an end mark, be it of the chain or of the directory. -/
def DirEnds (g : Geometry) (disk : Nat → Sector) (first : Nat) : Prop :=
  first = 0 ∨ Leaves (fatEntry g disk) (GoesOn g disk) first

theorem scanSlots_marked {slots : List Loc} {c : Fat × σ} {index : Nat} (marked : ∃ l ∈ slots, rawAt disk l 0 = 0#8) :
    (scanSlots visitor disk slots c index).2.2 = true := by
  induction slots generalizing c index with
  | nil =>
    obtain ⟨l, mem, -⟩ := marked
    cases mem
  | cons l rest ih =>
    rw [scanSlots]
    by_cases ended : rawAt disk l 0 = 0#8
    · rw [if_pos ended]
    · have later : ∃ x ∈ rest, rawAt disk x 0 = 0#8 := by
        obtain ⟨x, mem, mark⟩ := marked
        rcases List.mem_cons.mp mem with rfl | mem
        · exact absurd mark ended
        · exact ⟨x, mem, mark⟩
      rw [if_neg ended]
      by_cases real : realEntry (rawAt disk l) = true
      · rw [if_pos real]
        cases visitor (display disk l) (rawAt disk l) index l.1 l.2 c with
        | mk next stop =>
          cases stop
          · exact ih later
          · rfl
      · rw [if_neg real]
        exact ih later

theorem scanChain_ends (steady : SteadyVisitor visitor) {first : Nat}
    (ends : Leaves (fatEntry g disk) (GoesOn g disk) first) :
    ∀ (c : Fat × σ) (index : Nat), c.1.Calm → c.1.disk = disk →
      ∃ fuel r, scanChain g visitor fuel first c index = some r := by
  refine ends.rule (fun first => ∀ (c : Fat × σ) (index : Nat), c.1.Calm → c.1.disk = disk →
    ∃ fuel r, scanChain g visitor fuel first c index = some r) ?_ ?_
  · intro first out c index calm same
    refine ⟨1, ?_⟩
    rw [scanChain]
    by_cases inside : InChain first
    · -- the sectors of this cluster hold the end mark
      have marked : ∃ l ∈ slotsOf (clusterLbas g first), rawAt disk l 0 = 0#8 := by
        by_contra none
        push Not at none
        exact out ⟨inside, none⟩
      rw [if_pos inside, scanSectors_calm steady calm same]
      have stops := @scanSlots_marked _ visitor _ _ c index marked
      generalize scanSlots visitor disk (slotsOf (clusterLbas g first)) c index = r at stops
      obtain ⟨next, index', stop⟩ := r
      cases stops
      exact ⟨next, rfl⟩
    · rw [if_neg inside]
      exact ⟨c, rfl⟩
  · intro first here later c index calm same
    have after := @scanSlots_steady _ _ disk _ steady calm (slotsOf (clusterLbas g first)) index
    have scanned := scanSectors_calm steady calm same (clusterLbas g first) index
    generalize scanSlots visitor disk (slotsOf (clusterLbas g first)) c index = r at after scanned
    obtain ⟨next, index', stop⟩ := r
    cases stop with
    | true =>
      refine ⟨1, next, ?_⟩
      rw [scanChain, if_pos here.1, scanned]
    | false =>
      have disk' := after.2.trans same
      dsimp only at after disk'
      obtain ⟨fuel, r, rest⟩ := later next index' after.1 disk'
      refine ⟨fuel + 1, r, ?_⟩
      rw [scanChain, if_pos here.1, scanned]
      dsimp only
      rw [fatNextCluster_calm after.1, disk']
      exact rest

theorem fatIterateDir_ends (steady : SteadyVisitor visitor) (calm : s.Calm) (st : σ)
    (ends : DirEnds g s.disk (s.metaOf dir).firstCluster) :
    ∃ fuel r, fatIterateDir g visitor fuel dir (s, st) = some r := by
  by_cases root : (s.metaOf dir).firstCluster = 0
  · exact ⟨0, _, if_pos root⟩
  · obtain ⟨fuel, r, ended⟩ := scanChain_ends steady (ends.resolve_left root) (s, st) 0 calm rfl
    exact ⟨fuel, r, (if_neg root).trans ended⟩

theorem findInChain_ends {first : Nat} (calm : s.Calm)
    (ends : Leaves (fatEntry g s.disk) (GoesOn g s.disk) first) :
    ∀ last, ∃ fuel r, findInChain g fuel first last s = some r := by
  refine ends.rule (fun first => ∀ last, ∃ fuel r, findInChain g fuel first last s = some r) ?_ ?_
  · intro first out last
    refine ⟨1, ?_⟩
    rw [findInChain]
    by_cases inside : InChain first
    · rw [if_pos inside, findInSectors_calm calm]
      cases found : (slotsOf (clusterLbas g first)).find? (freeSlot s.disk) with
      | some l => exact ⟨_, rfl⟩
      | none =>
        -- an end mark is a free slot
        refine absurd ⟨inside, fun l mem mark => ?_⟩ out
        have taken := List.find?_eq_none.mp found l mem
        simp [freeSlot, mark] at taken
    · rw [if_neg inside]
      exact ⟨_, rfl⟩
  · intro first here later last
    cases found : (slotsOf (clusterLbas g first)).find? (freeSlot s.disk) with
    | some l =>
      refine ⟨1, (s, .ok (.inl l)), ?_⟩
      rw [findInChain, if_pos here.1, findInSectors_calm calm, found]
    | none =>
      obtain ⟨fuel, r, rest⟩ := later first
      refine ⟨fuel + 1, r, ?_⟩
      rw [findInChain, if_pos here.1, findInSectors_calm calm, found]
      dsimp only
      rw [fatNextCluster_calm calm]
      exact rest

theorem fatFindFreeDirentSlot_ends (calm : s.Calm) (ends : DirEnds g s.disk (s.metaOf dir).firstCluster) :
    ∃ fuel r, fatFindFreeDirentSlot g fuel s dir = some r := by
  unfold fatFindFreeDirentSlot
  dsimp only
  by_cases root : (s.metaOf dir).firstCluster = 0
  · refine ⟨0, ?_⟩
    rw [if_pos root, findInSectors_calm calm]
    cases (slotsOf (rootLbas g)).find? (freeSlot s.disk) with
    | none => exact ⟨_, rfl⟩
    | some l => exact ⟨_, rfl⟩
  · obtain ⟨fuel, r, found⟩ := findInChain_ends calm (ends.resolve_left root) (s.metaOf dir).firstCluster
    refine ⟨fuel, ?_⟩
    rw [if_neg root, found]
    obtain ⟨t, e | place | last⟩ := r
    · exact ⟨_, rfl⟩
    · exact ⟨_, rfl⟩
    · dsimp only
      split
      · exact ⟨_, rfl⟩
      · split
        · exact ⟨_, rfl⟩
        · exact ⟨_, rfl⟩

/-! A name that no entry has -/

theorem trimField_length (raw : Nat → BitVec 8) (start len : Nat) : (trimField raw start len).length ≤ len := by
  rw [trimField, List.length_map]
  refine (List.takeWhile_sublist _).length_le.trans ?_
  rw [List.length_map, List.length_range]

theorem fatDecode83Name_length (raw : Nat → BitVec 8) : (fatDecode83Name raw).length ≤ 12 := by
  have base := trimField_length raw 0 8
  have ext := trimField_length raw 8 3
  refine (List.takeWhile_sublist _).length_le.trans ?_
  rw [List.length_append]
  split
  · rw [List.length_cons]
    omega
  · rw [List.length_nil]
    omega

theorem scanSlots_misses {name : List (BitVec 8)} (long : 12 < name.length) {slots : List Loc}
    (goes : ∀ l ∈ slots, rawAt disk l 0 ≠ 0#8) (index : Nat) :
    ∃ index', scanSlots (fatLookupVisitor name dir) disk slots (s, none) index = ((s, none), index', false) := by
  induction slots generalizing index with
  | nil => exact ⟨index, rfl⟩
  | cons l rest ih =>
    have other : display disk l ≠ name := by
      rintro rfl
      exact absurd (fatDecode83Name_length (rawAt disk l)) (Nat.not_le_of_lt long)
    rw [scanSlots, if_neg (goes l List.mem_cons_self)]
    by_cases real : realEntry (rawAt disk l) = true
    · rw [if_pos real, fatLookupVisitor, if_pos other]
      exact ih (fun x mem => goes x (List.mem_cons_of_mem l mem)) _
    · rw [if_neg real]
      exact ih (fun x mem => goes x (List.mem_cons_of_mem l mem)) _

theorem scanChain_circles (calm : s.Calm) {name : List (BitVec 8)} (long : 12 < name.length) {first : Nat}
    (circles : ¬ Leaves (fatEntry g s.disk) (GoesOn g s.disk) first) (fuel index : Nat) :
    scanChain g (fatLookupVisitor name dir) fuel first (s, none) index = none := by
  induction fuel generalizing first index with
  | zero => rfl
  | succ fuel ih =>
    have here : GoesOn g s.disk first := by
      by_contra out
      exact circles (leaves_of_not out)
    obtain ⟨index', scanned⟩ := @scanSlots_misses s _ dir _ long _ here.2 index
    rw [scanChain, if_pos here.1, scanSectors_calm (fatLookupVisitor_steady name dir) calm rfl, scanned]
    dsimp only
    rw [fatNextCluster_calm calm]
    exact ih (fun leaves => circles ((leaves_next here).mpr leaves)) index'

/-- The three scans of a directory return, whatever is looked for. -/
def ScansEnd (g : Geometry) (s : Fat) (dir : Option Nat) : Prop :=
  (∀ name, ∃ fuel r, fatDirLookup g fuel s dir name = some r) ∧
    (∀ index size, ∃ fuel r, fatDirReaddir g fuel s dir index size = some r) ∧
    ∃ fuel r, fatFindFreeDirentSlot g fuel s dir = some r

/-- They return exactly where the links lead to an end. -/
theorem scans_end_iff (calm : s.Calm) : ScansEnd g s dir ↔ DirEnds g s.disk (s.metaOf dir).firstCluster := by
  constructor
  · rintro ⟨lookups, -, -⟩
    by_contra endless
    rw [DirEnds, not_or] at endless
    obtain ⟨fuel, r, found⟩ := lookups (List.replicate 13 blankByte)
    rw [fatDirLookup, fatIterateDir] at found
    dsimp only at found
    rw [if_neg endless.1, scanChain_circles calm (by rw [List.length_replicate]; omega) endless.2] at found
    cases found
  · intro ends
    exact ⟨fun name => fatIterateDir_ends (fatLookupVisitor_steady name dir) calm none ends,
      fun index size => fatIterateDir_ends (fatReaddirVisitor_steady index size) calm none ends,
      fatFindFreeDirentSlot_ends calm ends⟩

end Scans

/-- Every sector behind the boot sector is filled with one byte. With 0x52 every entry of
every directory is a directory that starts at cluster 0x5252, and every cluster is linked
to that one. -/
def filledVolume (fats b : BitVec 8) : Fat where
  disk := fun lba => if lba = 0 then smallBoot 1#8 fats else fun _ => b
  nodes := fun _ => ⟨.dir, [], none, 0#64, ⟨0x5252, 0, 2, 0⟩⟩
  count := 1
  outcomes := fun _ => .done

theorem filledVolume_calm (fats b : BitVec 8) : (filledVolume fats b).Calm := rfl

theorem scans_end_zeroed : ScansEnd (geometryOf (smallBoot 1#8 1#8)) (filledVolume 1#8 0#8) (some 0) := by
  refine (scans_end_iff (filledVolume_calm 1#8 0#8)).mpr (.inr (leaves_of_not fun goes => ?_))
  exact goes.2 (clusterToLba (geometryOf (smallBoot 1#8 1#8)) 0x5252, 0) (by decide +kernel) (by decide +kernel)

/-- A directory whose only cluster is linked to itself and holds no end mark: a lookup in
it never returns. The root holds such a directory. -/
theorem circular_directory_hangs :
    (fatDirLookup (geometryOf (smallBoot 1#8 1#8)) 0 { filledVolume 1#8 0x52#8 with count := 0 } none
      (List.replicate 8 0x72#8 ++ dotByte :: List.replicate 3 0x72#8)).map
        (fun r => (r.2, (r.1.nodes 0).type, (r.1.nodes 0).priv)) = some (some 0, .dir, ⟨0x5252, 0, 2, 0⟩) ∧
      (∀ fuel, fatDirLookup (geometryOf (smallBoot 1#8 1#8)) fuel (filledVolume 1#8 0x52#8) (some 0)
        (List.replicate 13 blankByte) = none) ∧
      ¬ ScansEnd (geometryOf (smallBoot 1#8 1#8)) (filledVolume 1#8 0x52#8) (some 0) := by
  have circles : ¬ Leaves (fatEntry (geometryOf (smallBoot 1#8 1#8)) (filledVolume 1#8 0x52#8).disk)
      (GoesOn (geometryOf (smallBoot 1#8 1#8)) (filledVolume 1#8 0x52#8).disk) 0x5252 := by
    rintro ⟨k, out⟩
    have self : fatEntry (geometryOf (smallBoot 1#8 1#8)) (filledVolume 1#8 0x52#8).disk 0x5252 = 0x5252 := by
      decide +kernel
    rw [Function.iterate_fixed self] at out
    exact out ⟨by decide, by decide +kernel⟩
  have never : ∀ fuel, fatDirLookup (geometryOf (smallBoot 1#8 1#8)) fuel (filledVolume 1#8 0x52#8) (some 0)
      (List.replicate 13 blankByte) = none := fun fuel =>
    scanChain_circles (filledVolume_calm 1#8 0x52#8) (by rw [List.length_replicate]; omega) circles fuel 0
  refine ⟨by decide +kernel, never, fun ends => ?_⟩
  obtain ⟨fuel, r, found⟩ := ends.1 (List.replicate 13 blankByte)
  rw [never fuel] at found
  cases found

/-! Chains given back -/

section Frees

variable {g : Geometry} {s : Fat} {disk : Nat → Sector} {first c y : Nat}

/-- One sector in which the two bytes of an entry are zeroed, wherever that sector lies. -/
theorem fatEntry_patched (g : Geometry) (disk : Nat → Sector) (lba c y : Nat) :
    let disk' := Function.update disk lba (patch (disk lba) (c * 2 % 512) [byteOf 0 0, byteOf 0 1])
    fatEntry g disk' y = 0 ∨ fatEntry g disk' y = fatEntry g disk y := by
  dsimp only [fatEntry]
  by_cases sector : g.firstFatSector + y * 2 / 512 = lba
  · subst sector
    rw [Function.update_self]
    by_cases entry : y * 2 % 512 = c * 2 % 512
    · left
      rw [entry, read16_patch_self, Nat.zero_mod]
    · right
      rw [read16_patch_other]
      simp only [List.length_cons, List.length_nil]
      omega
  · right
    rw [Function.update_of_ne sector]

theorem fatEntry_zeroed_rest (disk : Nat → Sector) (c y : Nat) :
    fatEntry g (setEntry g disk c 0) y = 0 ∨ fatEntry g (setEntry g disk c 0) y = fatEntry g disk y := by
  refine Run.foldl_rule (fun d : Nat → Sector => fatEntry g d y = 0 ∨ fatEntry g d y = fatEntry g disk y) _ _ disk
    (.inr rfl) fun copy _ d before => ?_
  rcases fatEntry_patched g d (g.firstFatSector + copy * g.fatSize16 + c * 2 / 512) c y with zero | same
  · exact .inl zero
  · exact before.imp same.trans same.trans

theorem fatEntry_zeroed_own (fats : 0 < g.numFats) (disk : Nat → Sector) (c : Nat) :
    fatEntry g (setEntry g disk c 0) c = 0 := by
  refine Run.range_rule (fun n (d : Nat → Sector) => 0 < n → fatEntry g d c = 0) _ g.numFats disk
    (fun some => absurd some (Nat.lt_irrefl 0)) (fun copy _ d before _ => ?_) fats
  by_cases first : copy = 0
  · subst first
    unfold fatEntry
    rw [Nat.zero_mul, Nat.add_zero, Function.update_self, read16_patch_self, Nat.zero_mod]
  · rcases fatEntry_patched g d (g.firstFatSector + copy * g.fatSize16 + c * 2 / 512) c c with zero | same
    · exact zero
    · exact same.trans (before (Nat.pos_of_ne_zero first))

/-- What the loop does to the table when it comes by a cluster. -/
def breakLink (g : Geometry) (disk : Nat → Sector) (c : Nat) : Nat → Sector := setEntry g disk c 0

theorem freeChain_breaking (calm : s.Calm) (fuel first : Nat) : freeChain g fuel s first =
    (breaking (fatEntry g) (breakLink g) InChain fuel s.disk first).map s.withDisk := by
  induction fuel generalizing s first with
  | zero => rfl
  | succ fuel ih =>
    rw [freeChain, breaking]
    by_cases inside : InChain first
    · rw [if_pos inside, if_pos inside, fatNextCluster_calm calm]
      dsimp only
      rw [fatWriteFatEntry_calm calm, ih calm.withDisk]
      rfl
    · rw [if_neg inside, if_neg inside]
      rfl

/-- The clusters that the links lead to from the first one on. -/
abbrev InFile (g : Geometry) (disk : Nat → Sector) (first c : Nat) : Prop := Reached (fatEntry g disk) InChain first c

/-- The loop ends; and where the links stay inside the table it has zeroed the entries of
the clusters they lead to, in every copy, and no others. -/
structure FreesExactly (g : Geometry) (s : Fat) (first : Nat) : Prop where
  ends : ∃ fuel t, freeChain g fuel s first = some t
  exactly : (∀ c, InFile g s.disk first c → c < g.totalEntries) →
    ∀ fuel t, freeChain g fuel s first = some t →
      ∀ copy c, copy = 0 ∨ copy < g.numFats → c < g.totalEntries →
        (InFile g s.disk first c → copyEntry g t.disk copy c = 0) ∧
          (¬ InFile g s.disk first c → copyEntry g t.disk copy c = copyEntry g s.disk copy c)

/-- There is a copy of the table to write to. Without one the loop only reads: it must
end by itself, and have nothing to zero or leave the table. -/
def FreeServed (g : Geometry) (disk : Nat → Sector) (first : Nat) : Prop :=
  0 < g.numFats ∨ ¬ InChain first ∨ fatEntry g disk first = 0 ∨
    (Leaves (fatEntry g disk) InChain first ∧ ∃ c, InFile g disk first c ∧ g.totalEntries ≤ c)

theorem frees_exactly_with_table (calm : s.Calm) (fats : 0 < g.numFats) : FreesExactly g s first := by
  constructor
  · have own : ∀ d c, InChain c → fatEntry g (breakLink g d c) c = 0 := fun d c _ => fatEntry_zeroed_own fats d c
    have covers : ∀ c, InChain c → c ∈ Finset.range fat16EocMin := fun c inside => Finset.mem_range.mpr inside.2
    obtain ⟨d, ends⟩ := breaking_ends not_inChain_zero own fatEntry_zeroed_rest covers s.disk first le_rfl
    exact ⟨_, s.withDisk d, by rw [freeChain_breaking calm, ends, Option.map_some]⟩
  · intro inside fuel t ended copy c known bound
    rw [freeChain_breaking calm, Option.map_eq_some_iff] at ended
    obtain ⟨d, ended, rfl⟩ := ended
    have copies : copy < g.numFats := by omega
    exact breaking_exact (fun d c => copyEntry g d copy c) not_inChain_zero
      (fun d x y px py => fatEntry_setEntry fats px py) (fun d x y px py => copyEntry_setEntry copies px py)
      inside ended bound

theorem setEntry_still (none : g.numFats = 0) (disk : Nat → Sector) (c value : Nat) :
    setEntry g disk c value = disk := by
  rw [setEntry, none]
  rfl

/-- The loop frees exactly the chain where there is a table to free it in. -/
theorem frees_exactly_iff (calm : s.Calm) : FreesExactly g s first ↔ FreeServed g s.disk first := by
  by_cases fats : 0 < g.numFats
  · exact ⟨fun _ => .inl fats, fun _ => frees_exactly_with_table calm fats⟩
  have none := Nat.eq_zero_of_not_pos fats
  have unbroken : ∀ d c, breakLink g d c = d := fun d c => setEntry_still none d c 0
  obtain ⟨same, ends⟩ : (∀ fuel d, breaking (fatEntry g) (breakLink g) InChain fuel s.disk first = some d → d = s.disk) ∧
      _ := breaking_still unbroken s.disk first
  have endsIff : (∃ fuel t, freeChain g fuel s first = some t) ↔ Leaves (fatEntry g s.disk) InChain first := by
    rw [← ends]
    refine exists_congr fun fuel => ?_
    rw [← Option.isSome_iff_exists, ← Option.isSome_iff_exists, freeChain_breaking calm, Option.isSome_map]
  have still : ∀ fuel t, freeChain g fuel s first = some t → t.disk = s.disk := by
    intro fuel t ended
    rw [freeChain_breaking calm, Option.map_eq_some_iff] at ended
    obtain ⟨d, ended, rfl⟩ := ended
    exact same fuel d ended
  constructor
  · intro frees
    have leaves := endsIff.mp frees.ends
    refine .inr ?_
    by_contra missed
    rw [not_or, not_or] at missed
    obtain ⟨inside, nonzero, table⟩ := missed
    have bounded : ∀ c, InFile g s.disk first c → c < g.totalEntries := by
      intro c inFile
      by_contra beyond
      exact table ⟨leaves, c, inFile, Nat.le_of_not_lt beyond⟩
    have start : InFile g s.disk first first := .start (not_not.mp inside)
    obtain ⟨fuel, t, ended⟩ := frees.ends
    have zeroed := (frees.exactly bounded fuel t ended 0 first (.inl rfl) (bounded first start)).1 start
    rw [still fuel t ended, copyEntry_zero] at zeroed
    exact nonzero zeroed
  · intro served
    refine ⟨endsIff.mpr ?_, fun bounded fuel t ended copy c known bound => ?_⟩
    · rcases served.resolve_left fats with outside | zero | ⟨leaves, -⟩
      · exact leaves_of_not outside
      · refine ⟨1, ?_⟩
        rw [Function.iterate_one, zero]
        exact not_inChain_zero
      · exact leaves
    · rw [still fuel t ended]
      refine ⟨fun inFile => ?_, fun _ => rfl⟩
      rcases served.resolve_left fats with outside | zero | ⟨-, d, inFile', beyond⟩
      · exact absurd inFile.first outside
      · -- the walk does not get past its first cluster
        have only : c = first := by
          cases inFile with
          | start => rfl
          | step before there =>
            have leaves : ¬ InChain (fatEntry g s.disk first) := by
              rw [zero]
              exact not_inChain_zero
            rw [Reached.only (.inr leaves) before, zero] at there
            exact absurd there not_inChain_zero
        obtain rfl : copy = 0 := by omega
        rw [only, copyEntry_zero, zero]
      · exact absurd (bounded d inFile') (Nat.not_lt_of_le beyond)

/-- A cluster linked to itself is freed. -/
theorem frees_circular_chain : FreesExactly (geometryOf (smallBoot 1#8 1#8)) (filledVolume 1#8 0x52#8) 0x5252 :=
  (frees_exactly_iff (filledVolume_calm 1#8 0x52#8)).mpr (.inl (by decide))

/-- A volume without a table passes the mount, and there the loop runs in a circle. -/
theorem no_table_never_frees :
    fatMount (smallBoot 1#8 0#8) = some (geometryOf (smallBoot 1#8 0#8)) ∧
      (∀ fuel, freeChain (geometryOf (smallBoot 1#8 0#8)) fuel (filledVolume 0#8 0x52#8) 0x5252 = none) ∧
      ¬ FreesExactly (geometryOf (smallBoot 1#8 0#8)) (filledVolume 0#8 0x52#8) 0x5252 := by
  have mounted : fatMount (smallBoot 1#8 0#8) = some (geometryOf (smallBoot 1#8 0#8)) := by
    unfold fatMount
    rw [if_neg (by decide), if_neg (by decide), if_neg (by decide)]
  have never : ∀ fuel, freeChain (geometryOf (smallBoot 1#8 0#8)) fuel (filledVolume 0#8 0x52#8) 0x5252 = none := by
    intro fuel
    have still : fatWriteFatEntry (geometryOf (smallBoot 1#8 0#8)) (filledVolume 0#8 0x52#8) 0x5252 0 = filledVolume 0#8 0x52#8 :=
      rfl
    have self : fatEntry (geometryOf (smallBoot 1#8 0#8)) (filledVolume 0#8 0x52#8).disk 0x5252 = 0x5252 := by
      decide +kernel
    induction fuel with
    | zero => rfl
    | succ fuel ih =>
      rw [freeChain, if_pos (by decide), fatNextCluster_calm (filledVolume_calm 0#8 0x52#8), self]
      dsimp only
      rw [still]
      exact ih
  refine ⟨mounted, never, fun frees => ?_⟩
  obtain ⟨fuel, t, ended⟩ := frees.ends
  rw [never fuel] at ended
  cases ended

end Frees

end Isunux
