import Isunux.MountContents
import Isunux.Attributes

/-! `process_unlink` on directories. Whether one is empty is found out by the file system
of its parent. For a mount point that is tmpfs, which does not see what is mounted there;
the FAT driver takes a directory that it cannot read for an empty one. -/
namespace Isunux.Mounts

/-- The state with a disk that works. -/
def working (s : Files Drivers) : Files Drivers :=
  { s with other := { s.other with fat := { s.other.fat with outcomes := fun _ => .done } } }

/-- A directory of the volume with no entries but those of itself and its parent. -/
def Bare (g : Geometry) (disk : Nat → Sector) (first : Nat) : Prop :=
  ∀ l ∈ live g disk first, isDots (display disk l) = true

section Targets

variable (g : Geometry) (fuel : Nat) (s : Files Drivers) (dir : Vnode) (name : List Char)

def TargetsDirectory : Prop := ∃ t v, lookup g fuel (working s) dir name = some (t, some v) ∧ typeOf t v = .dir

/-- Reading the directory reports an entry other than `.` and `..`. -/
def HoldsEntries : Prop :=
  ∃ t v, lookup g fuel (working s) dir name = some (t, some v) ∧ typeOf t v = .dir ∧
    ∃ index u x, readdir g fuel t v index vfsMaxName = some (u, .ok (some x)) ∧ x ≠ ['.'] ∧ x ≠ ['.', '.']

/-- In tmpfs the directory is no mount point without children of its own and with
something mounted there. In the volume its entry is removed only if it is bare, or the
calls that fail do so before anything is lost. -/
def EmptinessSeen : Prop :=
  match dirOps s dir with
  | .tmpfs d =>
    ∀ i, tmpfsDirLookup s.tmp d name = some i → (s.tmp.nodes i).ops = .foreign → (s.tmp.nodes i).firstChild = none →
      i ≠ s.devDir ∧ Bare g s.other.fat.disk 0
  | .fat x =>
    ∀ u j, removal g fuel s.other.fat x (nameBytes name) = some (u, j) →
      SparesEntry g u j ∨ MarksEntry g u j ∧ Bare g u.disk (u.nodes j).priv.firstCluster
  | _ => True

/-- A call of `process_unlink` that came to this has removed a directory only if it was
empty, and has otherwise failed and left everything below it alone. -/
def OnlyEmptyRemoved (who : Process) (path : List Char) (t : Files Drivers) (e : Int) : Prop :=
  match resolveParentDir g fuel s who path with
  | some (u, .ok (dir, name)) =>
    TargetsDirectory g fuel u dir name →
      e = 0 ∧ ¬ HoldsEntries g fuel u dir name ∨ e < 0 ∧ Untouched g fuel s t
  | _ => e < 0 ∧ Untouched g fuel s t

end Targets

section Reading

variable {g : Geometry} {fuel : Nat} {s t u : Files Drivers} {v : Vnode} {x : Option Nat} {name : List Char}

theorem bytesName_inj {bytes bytes' : List (BitVec 8)} (same : bytesName bytes = bytesName bytes') : bytes = bytes' := by
  have back : ∀ b : BitVec 8, BitVec.ofNat 8 (Char.ofNat b.toNat).toNat = b := by decide
  refine List.map_injective_iff.mpr (fun b b' same => ?_) same
  rw [← back b, ← back b', same]

theorem bytesName_dots {bytes : List (BitVec 8)} :
    isDots bytes = true ↔ bytesName bytes = ['.'] ∨ bytesName bytes = ['.', '.'] := by
  unfold isDots
  rw [Bool.or_eq_true, beq_iff_eq, beq_iff_eq]
  have one : bytes = dotName ↔ bytesName bytes = bytesName dotName := ⟨congrArg bytesName, bytesName_inj⟩
  have two : bytes = dotDotName ↔ bytesName bytes = bytesName dotDotName := ⟨congrArg bytesName, bytesName_inj⟩
  exact or_congr one two

theorem readdir_volume (calm : t.other.fat.Calm) (enough : fullFuel ≤ fuel) (volume : dirOps t v = .fat x)
    (intact : Intact g t.other.fat.disk (t.other.fat.metaOf x).firstCluster) :
    (∃ index u y, readdir g fuel t v index vfsMaxName = some (u, .ok (some y)) ∧ y ≠ ['.'] ∧ y ≠ ['.', '.']) ↔
      ¬ Bare g t.other.fat.disk (t.other.fat.metaOf x).firstCluster := by
  have reads : ∀ index, readdir g fuel t v index vfsMaxName = some (withFat t t.other.fat,
      .ok (((live g t.other.fat.disk (t.other.fat.metaOf x).firstCluster)[index]?).map fun l =>
        bytesName (display t.other.fat.disk l))) := by
    intro index
    have short : ∀ l, (display t.other.fat.disk l).take (vfsMaxName - 1) = display t.other.fat.disk l := fun l =>
      List.take_of_length_le (Nat.le_trans (fatDecode83Name_length _) (by decide))
    simp only [Mounts.readdir, volume, fatDirReaddir_calm calm enough intact.dirSlots, short, Option.map_some,
      Option.map_map]
    rfl
  unfold Bare
  push Not
  constructor
  · rintro ⟨index, u, y, report, other, other'⟩
    rw [reads] at report
    obtain ⟨-, entry⟩ := Prod.mk.inj (Option.some.inj report)
    obtain ⟨l, here, rfl⟩ := Option.map_eq_some_iff.mp (Except.ok.inj entry)
    refine ⟨l, List.mem_of_getElem? here, fun dots => ?_⟩
    rcases bytesName_dots.mp dots with one | two
    · exact other one
    · exact other' two
  · rintro ⟨l, mem, proper⟩
    obtain ⟨index, here⟩ := List.mem_iff_getElem?.mp mem
    refine ⟨index, withFat t t.other.fat, bytesName (display t.other.fat.disk l), ?_, fun one => ?_, fun two => ?_⟩
    · rw [reads, here]
      rfl
    · exact proper (bytesName_dots.mpr (.inl one))
    · exact proper (bytesName_dots.mpr (.inr two))

end Reading

section Unlinking

variable {g : Geometry} {fuel d : Nat} {s t u : Files Drivers} {kids : Nat → List Nat} {dir v : Vnode}
  {name : List Char} {x : Option Nat}

theorem holdsEntries_iff (looked : lookup g fuel (working u) dir name = some (t, some v)) (isDir : typeOf t v = .dir) :
    HoldsEntries g fuel u dir name ↔
      ∃ index w y, readdir g fuel t v index vfsMaxName = some (w, .ok (some y)) ∧ y ≠ ['.'] ∧ y ≠ ['.', '.'] := by
  constructor
  · rintro ⟨t', v', looked', -, reports⟩
    rw [looked] at looked'
    cases looked'
    exact reports
  · exact fun reports => ⟨t, v, looked, isDir, reports⟩

theorem tmpfs_target (native : dirOps u dir = .tmpfs d) (looked : lookup g fuel (working u) dir name = some (t, some v)) :
    ∃ i, tmpfsDirLookup u.tmp d name = some i ∧ t = working u ∧ v = .tmp i := by
  obtain ⟨rfl, ops⟩ := dirOps_tmpfs native
  have native' : dirOps (working u) (.tmp d) = .tmpfs d := native
  unfold lookup at looked
  rw [native'] at looked
  obtain ⟨state, found⟩ := Prod.mk.inj (Option.some.inj looked)
  obtain ⟨i, hit, rfl⟩ := Option.map_eq_some_iff.mp found
  exact ⟨i, hit, state.symm, rfl⟩

theorem Rooted.holds_childless (r : Rooted u kids) (sound : SoundDirs g u.other.fat.disk) (enough : fullFuel ≤ fuel)
    {i : Nat} (looked : Mounts.lookup g fuel (working u) dir name = some (working u, some (.tmp i)))
    (isDir : (u.tmp.nodes i).type = .dir) (childless : (u.tmp.nodes i).firstChild = none) :
    ¬ HoldsEntries g fuel u dir name ↔
      ((u.tmp.nodes i).ops = .foreign → i ≠ u.devDir ∧ Bare g u.other.fat.disk 0) := by
  rw [holdsEntries_iff looked isDir]
  have none_ : u.tmp.children i = [] := by
    have spells := r.hosted.tree.chain i
    rw [childless] at spells
    rw [r.hosted.tree.children]
    cases list : kids i with
    | nil => rfl
    | cons k rest =>
      rw [list] at spells
      cases spells.1
  cases ops : (u.tmp.nodes i).ops with
  | tmpfsFile =>
    have native : dirOps (working u) (.tmp i) = .none := by simp only [dirOps, working, ops]
    refine ⟨fun _ same => (by cases same), fun _ => ?_⟩
    rintro ⟨index, w, y, report, -⟩
    rw [readdir, native] at report
    cases report
  | tmpfsDir =>
    have native : dirOps (working u) (.tmp i) = .tmpfs i := by simp only [dirOps, working, ops]
    refine ⟨fun _ same => (by cases same), fun _ => ?_⟩
    rintro ⟨index, w, y, report, -⟩
    rw [readdir, native] at report
    have empty : tmpfsDirReaddir u.tmp i index vfsMaxName = none := by
      rw [tmpfsDirReaddir, none_]
      rfl
    have same : some (working u, Except.ok (tmpfsDirReaddir u.tmp i index vfsMaxName)) = some (w, .ok (some y)) := report
    rw [empty] at same
    cases same
  | foreign =>
    by_cases dev : i = u.devDir
    · have devices : dirOps (working u) (.tmp i) = .devfs := by
        simp only [dirOps, working, ops]
        exact if_pos dev
      refine ⟨fun nothing => absurd ⟨0, working u, ['t', 't', 'y'], ?_, by decide, by decide⟩ nothing,
        fun seen => absurd dev (seen rfl).1⟩
      rw [readdir, devices]
      rfl
    · have volume : dirOps (working u) (.tmp i) = .fat none := by
        simp only [dirOps, working, ops]
        exact if_neg dev
      have calm : (working u).other.fat.Calm := rfl
      have holds := readdir_volume calm enough volume (sound 0 .root).intact
      exact (not_congr holds).trans (not_not.trans ⟨fun bare _ => ⟨dev, bare⟩, fun seen => (seen rfl).2⟩)

theorem Rooted.tmpfs_exact (r : Rooted u kids) (sound : SoundDirs g u.other.fat.disk) (enough : fullFuel ≤ fuel)
    (untouched : Untouched g fuel s u) (native : dirOps u dir = .tmpfs d) (targets : TargetsDirectory g fuel u dir name) :
    ((tmpfsDirUnlink u d name).2 = 0 ∧ ¬ HoldsEntries g fuel u dir name ∨
      (tmpfsDirUnlink u d name).2 < 0 ∧ Untouched g fuel s (tmpfsDirUnlink u d name).1) ↔
        EmptinessSeen g fuel u dir name := by
  obtain ⟨t, v, looked, isDir⟩ := targets
  obtain ⟨i, hit, rfl, rfl⟩ := tmpfs_target native looked
  have type : (u.tmp.nodes i).type = .dir := isDir
  have seen : EmptinessSeen g fuel u dir name ↔ ((u.tmp.nodes i).ops = .foreign → (u.tmp.nodes i).firstChild = none →
      i ≠ u.devDir ∧ Bare g u.other.fat.disk 0) := by
    unfold EmptinessSeen
    rw [native]
    refine ⟨fun seen => seen i hit, fun seen j hit' => ?_⟩
    rw [hit] at hit'
    cases hit'
    exact seen
  rw [seen]
  unfold tmpfsDirUnlink
  rw [hit]
  dsimp only
  by_cases childless : (u.tmp.nodes i).firstChild = none
  · have passes : ¬ ((u.tmp.nodes i).type = .dir ∧ (u.tmp.nodes i).firstChild ≠ none) := fun both => both.2 childless
    rw [if_neg passes, type]
    dsimp only
    rw [r.holds_childless sound enough looked type childless]
    refine ⟨fun result foreign _ => ?_, fun seen => .inl ⟨rfl, fun foreign => seen foreign childless⟩⟩
    rcases result with ⟨-, bare⟩ | ⟨negative, -⟩
    · exact bare foreign
    · exact absurd negative (Int.lt_irrefl 0)
  · rw [if_pos ⟨type, childless⟩]
    have failing : -enotempty < 0 := by decide
    exact ⟨fun _ _ none => absurd none childless, fun _ => .inr ⟨failing, untouched⟩⟩

theorem volume_target (enough : fullFuel ≤ fuel) (volume : dirOps u dir = .fat x)
    (intact : Intact g u.other.fat.disk (u.other.fat.metaOf x).firstCluster)
    (looked : lookup g fuel (working u) dir name = some (t, some v)) :
    ∃ l j, findSlot u.other.fat.disk (dirSlots g u.other.fat.disk (u.other.fat.metaOf x).firstCluster) (nameBytes name) =
        some l ∧ v = .fat j ∧ t.other.fat.Calm ∧ t.other.fat.disk = u.other.fat.disk ∧
      t.other.fat.nodes j = entryNode x (display u.other.fat.disk l) (rawAt u.other.fat.disk l) l.1 l.2 := by
  have volume' : dirOps (working u) dir = .fat x := by
    rw [← volume]
    cases dir <;> rfl
  have calm : (working u).other.fat.Calm := rfl
  have meta_ : (working u).other.fat.metaOf x = u.other.fat.metaOf x := by cases x <;> rfl
  have finds : fatDirLookup g fuel (working u).other.fat x (nameBytes name) = some (handOut (working u).other.fat x
      (findSlot u.other.fat.disk (dirSlots g u.other.fat.disk (u.other.fat.metaOf x).firstCluster) (nameBytes name))) :=
    fatDirLookup_calm calm enough (meta_ ▸ intact.dirSlots) (nameBytes name)
  unfold lookup at looked
  rw [volume'] at looked
  dsimp only at looked
  rw [finds] at looked
  cases hit : findSlot u.other.fat.disk (dirSlots g u.other.fat.disk (u.other.fat.metaOf x).firstCluster)
      (nameBytes name) with
  | none =>
    rw [hit] at looked
    cases looked
  | some l =>
    rw [hit] at looked
    simp only [handOut, fatAllocNode, Option.map_some] at looked
    split at looked
    · cases looked
    · cases looked
      exact ⟨l, u.other.fat.count, rfl, rfl, rfl, rfl, Function.update_self _ _ _⟩

theorem volume_holds (enough : fullFuel ≤ fuel) (volume : dirOps u dir = .fat x)
    (entries : EntriesIntact g u.other.fat.disk (u.other.fat.metaOf x).firstCluster)
    (targets : TargetsDirectory g fuel u dir name) :
    ∃ l, findSlot u.other.fat.disk (dirSlots g u.other.fat.disk (u.other.fat.metaOf x).firstCluster) (nameBytes name) =
        some l ∧ (HoldsEntries g fuel u dir name ↔ ¬ Bare g u.other.fat.disk (clusterOf u.other.fat.disk l)) := by
  obtain ⟨t, v, looked, isDir⟩ := targets
  obtain ⟨l, j, found, rfl, calm, disk, node⟩ := volume_target enough volume entries.intact looked
  have type : (t.other.fat.nodes j).type = .dir := isDir
  have ops : dirOps t (.fat j) = .fat (some j) := if_pos type
  have first : (t.other.fat.metaOf (some j)).firstCluster = clusterOf u.other.fat.disk l :=
    congrArg (fun n => n.priv.firstCluster) node
  refine ⟨l, found, (holdsEntries_iff looked isDir).trans ?_⟩
  rw [← first, ← disk]
  refine readdir_volume calm enough ops ?_
  rw [first, disk]
  exact (entries.entries l (live_of_findSlot found)).1

theorem volume_exact (name : List Char) (fats : 0 < g.numFats) (sound : SoundDirs g s.other.fat.disk) (enough : fullFuel ≤ fuel)
    (still : Still s u) (disk : u.other.fat.disk = s.other.fat.disk) (volume : dirOps u dir = .fat x)
    (at_ : DirAt g s.other.fat.disk (u.other.fat.metaOf x).firstCluster) :
    ∃ w e, fatDirUnlink g fuel u.other.fat x (nameBytes name) = some (w, e) ∧ (TargetsDirectory g fuel u dir name →
      (e = 0 ∧ ¬ HoldsEntries g fuel u dir name ∨ e < 0 ∧ Untouched g fuel s (withFat u w) ↔
        EmptinessSeen g fuel u dir name)) := by
  have entries := sound _ at_
  rw [← disk] at entries
  have untouched : ∀ {w : Fat}, SameVolume g u.other.fat.disk w.disk → Untouched g fuel s (withFat u w) := by
    intro w same
    rw [disk] at same
    exact sound.untouched enough still.tmp still.mounts same
  have seen : EmptinessSeen g fuel u dir name ↔
      ∀ w j, removal g fuel u.other.fat x (nameBytes name) = some (w, j) →
        SparesEntry g w j ∨ MarksEntry g w j ∧ Bare g w.disk (w.nodes j).priv.firstCluster := by
    unfold EmptinessSeen
    rw [volume]
  rw [seen]
  rcases unlink_begins (nameBytes name) entries enough with
    ⟨w, j, begins, unlink, same, l, found, node⟩ | ⟨nothing, w, e, unlink, negative, same⟩
  · have holds : TargetsDirectory g fuel u dir name →
        (HoldsEntries g fuel u dir name ↔ ¬ Bare g u.other.fat.disk (clusterOf u.other.fat.disk l)) := by
      intro targets
      obtain ⟨l', found', holds⟩ := volume_holds enough volume entries targets
      rw [found] at found'
      cases found'
      exact holds
    rw [← same] at entries found node
    obtain ⟨t, e, ends, removal⟩ := removeEntry_calls fats entries found node enough
    have first : (w.nodes j).priv.firstCluster = clusterOf w.disk l := congrArg (fun n => n.priv.firstCluster) node
    refine ⟨t, e, unlink.trans ends, fun targets => ?_⟩
    have only : (∀ w' j', some (w, j) = some (w', j') →
        SparesEntry g w' j' ∨ MarksEntry g w' j' ∧ Bare g w'.disk (w'.nodes j').priv.firstCluster) ↔
          SparesEntry g w j ∨ MarksEntry g w j ∧ Bare g w.disk (clusterOf w.disk l) := by
      rw [← first]
      refine ⟨fun seen => seen w j rfl, fun seen w' j' same => ?_⟩
      cases same
      exact seen
    rw [begins, only, holds targets, not_not, ← same]
    by_cases marks : MarksEntry g w j
    · have zero := removal.success marks
      have late : ¬ SparesEntry g w j := fun spares => spares.2 ⟨marks.1, by rw [marks.2]; nofun⟩
      refine ⟨fun result => .inr ⟨marks, ?_⟩, fun seen => .inl ⟨zero, (seen.resolve_left late).2⟩⟩
      rcases result with ⟨-, bare⟩ | ⟨negative, -⟩
      · exact bare
      · exact absurd negative (by omega)
    · have negative := removal.failure marks
      refine ⟨fun result => .inl ?_, fun seen => .inr ⟨negative, ?_⟩⟩
      · rcases result with ⟨zero, -⟩ | ⟨-, spared⟩
        · exact absurd negative (by omega)
        · have volume' : SameVolume g w.disk t.disk := by
            rw [same, disk]
            exact spared.volume
          exact (removal.keeps_iff entries found).mp (entries.keeps volume')
      · have spares := seen.resolve_right fun both => marks both.1
        exact untouched (same ▸ removal.same spares)
  · refine ⟨w, e, unlink, fun _ => ⟨fun _ w' j begins => ?_, fun _ => .inr ⟨negative, untouched (.of_eq same)⟩⟩⟩
    rw [nothing] at begins
    cases begins

/-- A directory is removed only if it is empty, exactly if the file system of its parent sees
what it holds. -/
theorem only_empty_removed_iff {who : Process} {path : List Char} (fats : 0 < g.numFats) (enough : fullFuel ≤ fuel)
    (tree : ∃ kids, Rooted s kids) (sound : SoundDirs g s.other.fat.disk) :
    ∃ t e, processUnlink g fuel s who path = some (t, e) ∧
      (OnlyEmptyRemoved g fuel s who path t e ↔
        ∀ u dir name, resolveParentDir g fuel s who path = some (u, .ok (dir, name)) →
          TargetsDirectory g fuel u dir name →
          vfsCheckPerm (ownerOf u dir) who.uid who.gid (permBits .write) = true → EmptinessSeen g fuel u dir name) := by
  obtain ⟨kids, r⟩ := tree
  obtain ⟨u, found, resolved, collected, met⟩ :=
    (Collected.start s.other.fat).resolveParentDir sound enough who path
  obtain ⟨still, errors, -⟩ := inside_resolveParentDir r.hosted resolved
  have disk := collected.same
  have untouched : Untouched g fuel s u := sound.untouched enough still.tmp still.mounts (.of_eq disk)
  unfold processUnlink parentCall OnlyEmptyRemoved
  rw [resolved]
  cases found with
  | error e => exact ⟨u, e, rfl, nofun, fun _ => ⟨errors e rfl, untouched⟩⟩
  | ok target =>
    obtain ⟨dir, name⟩ := target
    have seen : (∀ u' dir' name', some (u, Except.ok (dir, name)) = some (u', (Except.ok (dir', name') : Except Int _)) →
        TargetsDirectory g fuel u' dir' name' →
        vfsCheckPerm (ownerOf u' dir') who.uid who.gid (permBits .write) = true → EmptinessSeen g fuel u' dir' name') ↔
        (TargetsDirectory g fuel u dir name →
          vfsCheckPerm (ownerOf u dir) who.uid who.gid (permBits .write) = true → EmptinessSeen g fuel u dir name) := by
      refine ⟨fun seen => seen u dir name rfl, fun seen u' dir' name' same => ?_⟩
      cases same
      exact seen
    simp only [seen]
    -- a call that is refused does not come to the file system
    by_cases calls : hasCalls u dir = false
    · rw [if_pos calls]
      refine ⟨u, -erofs, rfl, fun _ _ _ => ?_, fun _ _ => .inr ⟨by decide, untouched⟩⟩
      unfold hasCalls at calls
      unfold EmptinessSeen
      cases ops : dirOps u dir with
      | tmpfs d =>
        rw [ops] at calls
        cases calls
      | fat x =>
        rw [ops] at calls
        cases calls
      | none => exact trivial
      | devfs => exact trivial
    rw [if_neg calls]
    by_cases perm : vfsCheckPerm (ownerOf u dir) who.uid who.gid (permBits .write) = false
    · rw [if_pos perm]
      refine ⟨u, -eacces, rfl, fun _ _ allowed => ?_, fun _ _ => .inr ⟨by decide, untouched⟩⟩
      rw [perm] at allowed
      cases allowed
    rw [if_neg perm]
    have allowed := Bool.eq_true_of_not_eq_false perm
    simp only [allowed, true_implies]
    unfold hasCalls at calls
    unfold dirCall
    cases ops : dirOps u dir with
    | none =>
      rw [ops] at calls
      exact absurd rfl calls
    | devfs =>
      rw [ops] at calls
      exact absurd rfl calls
    | tmpfs d =>
      have rooted := still.rooted r
      have sound' : SoundDirs g u.other.fat.disk := by rwa [disk]
      refine ⟨(tmpfsDirUnlink u d name).1, (tmpfsDirUnlink u d name).2, by simp, ?_⟩
      exact imp_congr_right fun targets => rooted.tmpfs_exact sound' enough untouched ops targets
    | fat x =>
      have dirAt := collected.dirAt (met dir name rfl) ops
      obtain ⟨w, e, unlink, exact⟩ := volume_exact name fats sound enough still disk ops dirAt
      dsimp only
      rw [unlink]
      exact ⟨withFat u w, e, by simp, imp_congr_right exact⟩

end Unlinking

theorem mountedVolume_sound : SoundDirs (geometryOf (smallBoot 1#8 1#8)) mountedVolume.other.fat.disk := by
  have live : live (geometryOf (smallBoot 1#8 1#8)) mountedVolume.other.fat.disk 0 = [(2, 0)] := by decide +kernel
  intro first dir
  have root : first = 0 := by
    induction dir with
    | root => rfl
    | sub dir mem isDir ih =>
      rw [ih, live] at mem
      obtain rfl := List.mem_singleton.mp mem
      have file : entryType (rawAt mountedVolume.other.fat.disk (2, 0)) = .file := by decide +kernel
      rw [file] at isDir
      cases isDir
  rw [root]
  exact oneFileVolume_intact fun _ => .done

def devPath : List Char := ['/', 'd', 'e', 'v']

/-- `/dev` is removed with the devices on it. -/
theorem mount_point_removed :
    (∃ u, vfsReaddirPath (geometryOf (smallBoot 1#8 1#8)) fullFuel mountedVolume Process.zero.cwd devPath 0 vfsMaxName =
      some (u, .ok (some ['t', 't', 'y']))) ∧
    ∃ t, processUnlink (geometryOf (smallBoot 1#8 1#8)) fullFuel mountedVolume .zero devPath = some (t, 0) ∧
      ¬ OnlyEmptyRemoved (geometryOf (smallBoot 1#8 1#8)) fullFuel mountedVolume .zero devPath t 0 := by
  have parent : resolveParentDir (geometryOf (smallBoot 1#8 1#8)) fullFuel mountedVolume .zero devPath =
      some (mountedVolume, .ok (.tmp 0, ['d', 'e', 'v'])) := by rfl
  have holds : HoldsEntries (geometryOf (smallBoot 1#8 1#8)) fullFuel mountedVolume (.tmp 0) ['d', 'e', 'v'] :=
    ⟨working mountedVolume, .tmp 2, rfl, rfl, 0, working mountedVolume, ['t', 't', 'y'], rfl, by decide, by decide⟩
  have targets : TargetsDirectory (geometryOf (smallBoot 1#8 1#8)) fullFuel mountedVolume (.tmp 0) ['d', 'e', 'v'] :=
    ⟨working mountedVolume, .tmp 2, rfl, rfl⟩
  refine ⟨⟨mountedVolume, rfl⟩, _, rfl, ?_⟩
  unfold OnlyEmptyRemoved
  rw [parent]
  intro only
  rcases only targets with ⟨-, empty⟩ | ⟨negative, -⟩
  · exact empty holds
  · exact absurd negative (Int.lt_irrefl 0)

/-- Somebody who may not write to the root directory. -/
def stranger : Process := { Process.zero with uid := 5#64 }

def emptyPath : List Char := ['/', 'x']

theorem emptyPath_made :
    ∃ s, processMkdir (geometryOf (smallBoot 1#8 1#8)) fullFuel mountedVolume .zero emptyPath = some (s, 0) ∧
      s.other.fat.disk = mountedVolume.other.fat.disk ∧ ∀ u dir name,
        resolveParentDir (geometryOf (smallBoot 1#8 1#8)) fullFuel s .zero emptyPath = some (u, .ok (dir, name)) →
          EmptinessSeen (geometryOf (smallBoot 1#8 1#8)) fullFuel u dir name := by
  refine ⟨_, rfl, rfl, fun u dir name resolved => ?_⟩
  cases resolved
  intro i hit ops
  have found : i = 3 := (Option.some.inj hit).symm
  rw [found] at ops
  cases ops

theorem only_empty_removed_mounted :
    (∃ t, processUnlink (geometryOf (smallBoot 1#8 1#8)) fullFuel mountedVolume stranger devPath = some (t, -eacces) ∧
      OnlyEmptyRemoved (geometryOf (smallBoot 1#8 1#8)) fullFuel mountedVolume stranger devPath t (-eacces)) ∧
    ∃ s t, processMkdir (geometryOf (smallBoot 1#8 1#8)) fullFuel mountedVolume .zero emptyPath = some (s, 0) ∧
      processUnlink (geometryOf (smallBoot 1#8 1#8)) fullFuel s .zero emptyPath = some (t, 0) ∧
      OnlyEmptyRemoved (geometryOf (smallBoot 1#8 1#8)) fullFuel s .zero emptyPath t 0 := by
  constructor
  · have parent : resolveParentDir (geometryOf (smallBoot 1#8 1#8)) fullFuel mountedVolume stranger devPath =
        some (mountedVolume, .ok (.tmp 0, ['d', 'e', 'v'])) := by rfl
    have refused : processUnlink (geometryOf (smallBoot 1#8 1#8)) fullFuel mountedVolume stranger devPath =
        some (mountedVolume, -eacces) := by rfl
    have result : ∃ t e, processUnlink (geometryOf (smallBoot 1#8 1#8)) fullFuel mountedVolume stranger devPath =
        some (t, e) ∧ (OnlyEmptyRemoved (geometryOf (smallBoot 1#8 1#8)) fullFuel mountedVolume stranger devPath t e ↔ _) :=
      only_empty_removed_iff (by decide) le_rfl ⟨_, mountedVolume_rooted⟩ mountedVolume_sound
    obtain ⟨t, e, unlink, exact⟩ := result
    rw [refused] at unlink
    cases unlink
    refine ⟨mountedVolume, refused, exact.mpr fun u dir name resolved _ allowed => ?_⟩
    rw [parent] at resolved
    cases resolved
    cases allowed
  · obtain ⟨s, made, disk, seen⟩ := emptyPath_made
    have step : vfsStep (geometryOf (smallBoot 1#8 1#8)) fullFuel mountedVolume (.mkdir .zero emptyPath) = some s := by
      rw [vfsStep, made]
      rfl
    obtain ⟨_, evolves, -⟩ := vfsStep_evolves mountedVolume_rooted step
    have sound : SoundDirs (geometryOf (smallBoot 1#8 1#8)) s.other.fat.disk := disk ▸ mountedVolume_sound
    have removed : ((processMkdir (geometryOf (smallBoot 1#8 1#8)) fullFuel mountedVolume .zero emptyPath).bind fun r =>
        (processUnlink (geometryOf (smallBoot 1#8 1#8)) fullFuel r.1 .zero emptyPath).map (·.2)) = some 0 := by decide +kernel
    rw [made] at removed
    obtain ⟨t, e, unlink, exact⟩ : ∃ t e, processUnlink (geometryOf (smallBoot 1#8 1#8)) fullFuel s .zero emptyPath =
        some (t, e) ∧ (OnlyEmptyRemoved (geometryOf (smallBoot 1#8 1#8)) fullFuel s .zero emptyPath t e ↔ _) :=
      only_empty_removed_iff (by decide) le_rfl evolves.rooted sound
    rw [Option.bind_some, unlink] at removed
    cases removed
    exact ⟨s, t, made, unlink, exact.mpr fun u dir name resolved _ _ => seen u dir name resolved⟩

end Isunux.Mounts
