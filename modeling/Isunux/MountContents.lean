import Isunux.MountFrames
import Isunux.FatUnlink

/-! Resolutions on a volume whose directories are in order. They come to an end, whatever
disk calls fail, and what they find depends on the tree of tmpfs and on the contents of
the volume only. -/
namespace Isunux.Mounts

/-- The first clusters of the directories of a volume, 0 for its root. -/
inductive DirAt (g : Geometry) (disk : Nat → Sector) : Nat → Prop
  | root : DirAt g disk 0
  | sub {first : Nat} {l : Loc} (dir : DirAt g disk first) (mem : l ∈ live g disk first)
    (isDir : entryType (rawAt disk l) = .dir) : DirAt g disk (clusterOf disk l)

/-- The entries of every directory are those of whole files and directories. -/
def SoundDirs (g : Geometry) (disk : Nat → Sector) : Prop := ∀ first, DirAt g disk first → EntriesIntact g disk first

/-- What a resolution that began with so many vnodes has put into the pool. -/
structure Collected (g : Geometry) (disk : Nat → Sector) (base : Nat) (s : Fat) : Prop where
  same : s.disk = disk
  grown : base ≤ s.count
  dirs : ∀ j, base ≤ j → j < s.count → (s.nodes j).type = .dir → DirAt g disk (s.nodes j).priv.firstCluster
  parents : ∀ j p, base ≤ j → j < s.count → (s.nodes j).parent = some p → base ≤ p ∧ p < s.count

def MetAfter (base : Nat) (s : Files Drivers) : Vnode → Prop
  | .fat j => base ≤ j ∧ j < s.other.fat.count
  | _ => True

section Resolving

variable {g : Geometry} {fuel base : Nat} {disk : Nat → Sector} {s t : Files Drivers} {v : Vnode} {x : Option Nat}

theorem Collected.start (s : Fat) : Collected g s.disk s.count s :=
  ⟨rfl, le_rfl, fun _ behind low => absurd low (Nat.not_lt_of_le behind),
    fun _ _ behind low => absurd low (Nat.not_lt_of_le behind)⟩

theorem Collected.dirAt (c : Collected g disk base s.other.fat) (met : MetAfter base s v) (volume : dirOps s v = .fat x) :
    DirAt g disk (s.other.fat.metaOf x).firstCluster := by
  unfold dirOps at volume
  split at volume
  · split at volume
    · cases volume
    · cases volume
    · split at volume
      · cases volume
      · cases volume
        exact .root
  · cases volume
  · split at volume
    · rename_i isDir
      cases volume
      exact c.dirs _ met.1 met.2 isDir
    · cases volume

theorem Collected.parentOf (c : Collected g disk base s.other.fat) (met : MetAfter base s v) :
    MetAfter base s (parentOf s v) := by
  cases v with
  | tmp i => exact trivial
  | dev k => exact trivial
  | fat j =>
    simp only [Mounts.parentOf]
    cases parent : (s.other.fat.nodes j).parent with
    | none => exact trivial
    | some p => exact c.parents j p met.1 met.2 parent

theorem Collected.fatLookup (sound : SoundDirs g disk) (enough : fullFuel ≤ fuel) {s : Fat} (c : Collected g disk base s)
    (dir : DirAt g disk (s.metaOf x).firstCluster) (low : ∀ p, x = some p → base ≤ p ∧ p < s.count)
    (name : List (BitVec 8)) :
    ∃ t found, fatDirLookup g fuel s x name = some (t, found) ∧ Collected g disk base t ∧
      ∀ j, found = some j → base ≤ j ∧ j < t.count := by
  have entries := sound _ dir
  rw [← c.same] at entries
  obtain ⟨t, found, looked, looks⟩ := fatDirLookup_looks name entries.intact enough
  refine ⟨t, found, looked, ?_⟩
  rcases looks.pool with ⟨rfl, nodes, count⟩ | ⟨rfl, count, nodes, l, isFound, node⟩
  · refine ⟨⟨looks.disk.trans c.same, ?_, ?_, ?_⟩, nofun⟩
    · rw [count]
      exact c.grown
    · rw [nodes, count]
      exact c.dirs
    · rw [nodes, count]
      exact c.parents
  · have room := c.grown
    have mem : l ∈ live g disk (s.metaOf x).firstCluster := by
      rw [← c.same]
      exact live_of_findSlot isFound
    rw [c.same] at node
    refine ⟨⟨looks.disk.trans c.same, by omega, fun j behind before isDir => ?_, fun j p behind before parent => ?_⟩,
      fun j same => ?_⟩
    · by_cases new : j = s.count
      · rw [new, node] at isDir ⊢
        exact .sub dir mem isDir
      · rw [nodes j new] at isDir ⊢
        exact c.dirs j behind (by omega) isDir
    · by_cases new : j = s.count
      · rw [new, node] at parent
        have old := low p parent
        omega
      · rw [nodes j new] at parent
        have old := c.parents j p behind (by omega) parent
        omega
    · cases same
      omega

theorem dirOps_fat {p : Nat} (volume : dirOps s v = .fat (some p)) : v = .fat p := by
  unfold dirOps at volume
  split at volume
  · split at volume
    · cases volume
    · cases volume
    · split at volume <;> cases volume
  · cases volume
  · split at volume
    · cases volume
      rfl
    · cases volume

theorem Collected.lookup (sound : SoundDirs g disk) (enough : fullFuel ≤ fuel) (c : Collected g disk base s.other.fat)
    (met : MetAfter base s v) (name : List Char) :
    ∃ t found, Mounts.lookup g fuel s v name = some (t, found) ∧ Collected g disk base t.other.fat ∧
      ∀ w, found = some w → MetAfter base t w := by
  unfold Mounts.lookup
  cases ops : dirOps s v with
  | none => exact ⟨s, none, rfl, c, nofun⟩
  | tmpfs d =>
    refine ⟨s, _, rfl, c, fun w same => ?_⟩
    obtain ⟨i, -, rfl⟩ := Option.map_eq_some_iff.mp same
    exact trivial
  | devfs =>
    refine ⟨s, _, rfl, c, fun w same => ?_⟩
    obtain ⟨k, -, rfl⟩ := Option.map_eq_some_iff.mp same
    exact trivial
  | fat x =>
    have low : ∀ p, x = some p → base ≤ p ∧ p < s.other.fat.count := by
      rintro p rfl
      have here := dirOps_fat ops
      rw [here] at met
      exact met
    obtain ⟨t, found, looked, c', new⟩ := c.fatLookup sound enough (c.dirAt met ops) low (nameBytes name)
    dsimp only
    rw [looked]
    refine ⟨_, _, rfl, c', fun w same => ?_⟩
    obtain ⟨j, is, rfl⟩ := Option.map_eq_some_iff.mp same
    exact new j is

theorem Collected.resolveLoop (sound : SoundDirs g disk) (enough : fullFuel ≤ fuel) {n : Nat} {p : List Char}
    (c : Collected g disk base s.other.fat) (met : MetAfter base s v) :
    ∃ t found, resolveLoop g fuel n s v p = some (t, found) ∧ Collected g disk base t.other.fat ∧
      ∀ w, found = some w → MetAfter base t w := by
  have stays : ∀ {s v}, MetAfter base s v → ∀ w, some v = some w → MetAfter base s w := by
    rintro s v met w ⟨⟩
    exact met
  induction n generalizing s v p with
  | zero => exact ⟨s, some v, rfl, c, stays met⟩
  | succ n ih =>
    cases p with
    | nil => exact ⟨s, some v, rfl, c, stays met⟩
    | cons a p =>
      simp only [Mounts.resolveLoop]
      generalize takeComponent (vfsMaxName - 1) (a :: p) = r
      by_cases stay : r.1 = [] ∨ r.1 = ['.']
      · rw [if_pos stay]
        exact ih c met
      rw [if_neg stay]
      by_cases back : r.1 = ['.', '.']
      · rw [if_pos back]
        exact ih c (c.parentOf met)
      rw [if_neg back]
      obtain ⟨t, found, looked, c', new⟩ := c.lookup sound enough met r.1
      rw [looked]
      cases found with
      | none => exact ⟨t, none, rfl, c', fun w same => by cases same⟩
      | some w => exact ih c' (new w rfl)

theorem Collected.resolve (sound : SoundDirs g disk) (enough : fullFuel ≤ fuel) (q : List Char)
    (c : Collected g disk base s.other.fat) :
    ∃ t found, vfsResolvePath g fuel s q = some (t, found) ∧ Collected g disk base t.other.fat ∧
      ∀ w, found = some w → MetAfter base t w := by
  unfold vfsResolvePath
  split
  · exact c.resolveLoop sound enough trivial
  · exact ⟨s, none, rfl, c, nofun⟩

theorem Collected.resolveParentDir (sound : SoundDirs g disk) (enough : fullFuel ≤ fuel) (who : Process) (path : List Char)
    (c : Collected g disk base s.other.fat) :
    ∃ t found, resolveParentDir g fuel s who path = some (t, found) ∧ Collected g disk base t.other.fat ∧
      ∀ dir name, found = .ok (dir, name) → MetAfter base t dir := by
  unfold Mounts.resolveParentDir
  dsimp only
  split
  · exact ⟨s, _, rfl, c, nofun⟩
  · obtain ⟨t, found, resolved, c', met⟩ := c.resolve sound enough (vfsSplitPath (vfsCombinePath who.cwd path)).1
    rw [resolved]
    cases found with
    | none => exact ⟨t, _, rfl, c', nofun⟩
    | some dir =>
      dsimp only
      split
      · refine ⟨t, _, rfl, c', ?_⟩
        rintro dir' name ⟨⟩
        exact met dir rfl
      · exact ⟨t, _, rfl, c', nofun⟩

end Resolving

/-! What a state holds -/

/-- The state with an empty pool and a disk that works. -/
def remounted (s : Files Drivers) : Files Drivers :=
  { s with other := { s.other with
    fat :=
      { disk := s.other.fat.disk
        nodes := fun _ => ⟨.file, [], none, 0#64, ⟨0, 0, 0, 0⟩⟩
        count := 0
        outcomes := fun _ => .done } } }

/-- Nothing is lost from `s` to `t`: the same tree of tmpfs, the same volume, and every path
that could be resolved still can. -/
structure Untouched (g : Geometry) (fuel : Nat) (s t : Files Drivers) : Prop where
  tmp : t.tmp = s.tmp
  mounts : t.devDir = s.devDir ∧ t.mntDir = s.mntDir
  volume : SameVolume g s.other.fat.disk t.other.fat.disk
  resolves : ∀ q u v, vfsResolvePath g fuel (remounted s) q = some (u, some v) →
    ∃ u', vfsResolvePath g fuel (remounted t) q = some (u', some v) ∧ typeOf u' v = typeOf u v

/-- Two states with the same contents and the same vnodes. -/
structure Alike (g : Geometry) (a b : Files Drivers) : Prop where
  tmp : b.tmp = a.tmp
  mounts : b.devDir = a.devDir ∧ b.mntDir = a.mntDir
  nodes : b.other.fat.nodes = a.other.fat.nodes
  count : b.other.fat.count = a.other.fat.count
  works : a.other.fat.Calm ∧ b.other.fat.Calm
  volume : SameVolume g a.other.fat.disk b.other.fat.disk

section Comparing

variable {g : Geometry} {fuel base : Nat} {disk : Nat → Sector} {a b a' : Files Drivers} {v : Vnode}
  {found : Option Vnode}

theorem Alike.typeOf (h : Alike g a b) (v : Vnode) : typeOf b v = typeOf a v := by
  cases v with
  | tmp i => simp only [Mounts.typeOf, h.tmp]
  | dev k => rfl
  | fat j => simp only [Mounts.typeOf, h.nodes]

theorem Alike.parentOf (h : Alike g a b) (v : Vnode) : parentOf b v = parentOf a v := by
  cases v with
  | tmp i => simp only [Mounts.parentOf, h.tmp]
  | dev k => simp only [Mounts.parentOf, h.mounts.1]
  | fat j => simp only [Mounts.parentOf, h.nodes, h.mounts.2]

theorem Alike.dirOps (h : Alike g a b) (v : Vnode) : dirOps b v = dirOps a v := by
  cases v with
  | tmp i => simp only [Mounts.dirOps, h.tmp, h.mounts.1]
  | dev k => rfl
  | fat j => simp only [Mounts.dirOps, h.nodes]

theorem Alike.lookup (h : Alike g a b) (sound : SoundDirs g disk) (enough : fullFuel ≤ fuel)
    (c : Collected g disk base a.other.fat) (met : MetAfter base a v) {name : List Char}
    (done : lookup g fuel a v name = some (a', found)) :
    ∃ b', Mounts.lookup g fuel b v name = some (b', found) ∧ Alike g a' b' := by
  unfold Mounts.lookup at done ⊢
  rw [h.dirOps]
  cases ops : Mounts.dirOps a v with
  | none =>
    rw [ops] at done
    cases done
    exact ⟨b, rfl, h⟩
  | tmpfs d =>
    rw [ops] at done
    cases done
    exact ⟨b, by rw [h.tmp], h⟩
  | devfs =>
    rw [ops] at done
    cases done
    exact ⟨b, rfl, h⟩
  | fat x =>
    rw [ops] at done
    dsimp only at done ⊢
    have intact := (sound _ (c.dirAt met ops)).intact
    rw [← c.same] at intact
    have meta_ : b.other.fat.metaOf x = a.other.fat.metaOf x := by
      cases x with
      | none => rfl
      | some j => exact congrArg FatNode.priv (congrFun h.nodes j)
    obtain ⟨intact', slots, raw⟩ := h.volume.slots intact
    have here := fatDirLookup_calm h.works.1 enough intact.dirSlots (nameBytes name)
    have there : fatDirLookup g fuel b.other.fat x (nameBytes name) = _ :=
      fatDirLookup_calm h.works.2 enough (meta_ ▸ intact'.dirSlots) (nameBytes name)
    rw [here] at done
    rw [there, meta_, h.volume.find intact]
    cases hit : findSlot a.other.fat.disk (dirSlots g a.other.fat.disk (a.other.fat.metaOf x).firstCluster)
        (nameBytes name) with
    | none =>
      rw [hit] at done
      cases done
      exact ⟨_, rfl, h.tmp, h.mounts, h.nodes, h.count, h.works, h.volume⟩
    | some l =>
      rw [hit] at done
      have same := raw l (realSlots_sub (live_of_findSlot hit))
      have node : entryNode x (display b.other.fat.disk l) (rawAt b.other.fat.disk l) l.1 l.2 =
          entryNode x (display a.other.fat.disk l) (rawAt a.other.fat.disk l) l.1 l.2 := by
        unfold display
        rw [same]
      simp only [handOut, fatAllocNode, Option.map_some] at done ⊢
      rw [node, h.nodes, h.count]
      split at done
      · rename_i full
        rw [if_pos full]
        cases done
        exact ⟨_, rfl, h.tmp, h.mounts, h.nodes, h.count, h.works, h.volume⟩
      · rename_i room
        rw [if_neg room]
        cases done
        exact ⟨_, rfl, h.tmp, h.mounts, rfl, rfl, h.works, h.volume⟩

theorem Alike.resolveLoop (h : Alike g a b) (sound : SoundDirs g disk) (enough : fullFuel ≤ fuel) {n : Nat}
    {p : List Char} (c : Collected g disk base a.other.fat) (met : MetAfter base a v)
    (done : resolveLoop g fuel n a v p = some (a', found)) :
    ∃ b', Mounts.resolveLoop g fuel n b v p = some (b', found) ∧ Alike g a' b' := by
  induction n generalizing a b v p with
  | zero =>
    cases done
    exact ⟨b, rfl, h⟩
  | succ n ih =>
    cases p with
    | nil =>
      cases done
      exact ⟨b, rfl, h⟩
    | cons letter p =>
      simp only [Mounts.resolveLoop] at done ⊢
      generalize takeComponent (vfsMaxName - 1) (letter :: p) = r at done
      by_cases stay : r.1 = [] ∨ r.1 = ['.']
      · rw [if_pos stay] at done ⊢
        exact ih h c met done
      rw [if_neg stay] at done ⊢
      by_cases back : r.1 = ['.', '.']
      · rw [if_pos back] at done ⊢
        rw [h.parentOf]
        exact ih h c (c.parentOf met) done
      rw [if_neg back] at done ⊢
      obtain ⟨a₁, step, looked, c₁, new⟩ := c.lookup sound enough met r.1
      obtain ⟨b₁, looked', h₁⟩ := h.lookup sound enough c met looked
      rw [looked] at done
      rw [looked']
      cases step with
      | none =>
        cases done
        exact ⟨b₁, rfl, h₁⟩
      | some w => exact ih h₁ c₁ (new w rfl) done

end Comparing

section Losses

variable {g : Geometry} {fuel : Nat} {s t u : Files Drivers}

theorem SoundDirs.untouched (sound : SoundDirs g s.other.fat.disk) (enough : fullFuel ≤ fuel) (tmp : t.tmp = s.tmp)
    (mounts : t.devDir = s.devDir ∧ t.mntDir = s.mntDir) (volume : SameVolume g s.other.fat.disk t.other.fat.disk) :
    Untouched g fuel s t := by
  have alike : Alike g (remounted s) (remounted t) := ⟨tmp, mounts, rfl, rfl, ⟨rfl, rfl⟩, volume⟩
  refine ⟨tmp, mounts, volume, fun q u v resolved => ?_⟩
  cases q with
  | nil => cases resolved
  | cons a p =>
    unfold vfsResolvePath at resolved ⊢
    split at resolved
    · rename_i p' same
      cases same
      have start : Collected g s.other.fat.disk 0 (remounted s).other.fat := Collected.start (remounted s).other.fat
      have root : MetAfter 0 (remounted s) (.tmp 0) := trivial
      obtain ⟨u', arrives, after⟩ := alike.resolveLoop sound enough start root resolved
      exact ⟨u', arrives, after.typeOf v⟩
    · cases resolved

end Losses

end Isunux.Mounts
