import Isunux.FatEntries

/-! The files and directories of a volume as a tree. An entry holds the chain that starts
at its first cluster, but for the two entries that every directory but the root begins
with: they name the directory and its parent once more. -/
namespace Isunux

section Tree

variable (g : Geometry) (disk : Nat → Sector)

/-- The entries that a directory has of itself and of its parent. -/
structure OwnDots (first : Nat) (l : Loc) : Prop where
  sub : first ≠ 0
  place : l = (clusterToLba g first, 0) ∨ l = (clusterToLba g first, 32)
  name : isDots (display disk l) = true

/-- A directory has the entry, and its chain with it. -/
structure Holds (first : Nat) (l : Loc) : Prop where
  mem : l ∈ live g disk first
  real : ¬ OwnDots g disk first l

/-- First clusters of the directories that are found from the root on. -/
inductive InTree : Nat → Prop where
  | root : InTree 0
  | sub {first : Nat} {l : Loc} (parent : InTree first) (holds : Holds g disk first l)
    (isDir : entryType (rawAt disk l) = .dir) : InTree (clusterOf disk l)

/-- The cluster is in the chain of an entry. -/
def Owns (l : Loc) (c : Nat) : Prop :=
  ∃ first, InTree g disk first ∧ Holds g disk first l ∧ c ∈ fileClusters g disk (clusterOf disk l)

/-- Every entry starts a chain, and no two chains share a cluster. -/
structure ChainTree : Prop where
  intact : ∀ first l, InTree g disk first → Holds g disk first l → Intact g disk (clusterOf disk l)
  apart : ∀ l l' c, Owns g disk l c → Owns g disk l' c → l = l'

end Tree

section Facts

variable {g : Geometry} {disk disk' : Nat → Sector} {first first' c r : Nat} {l l' : Loc}

theorem fileClusters_regions (sub : first ≠ 0) : regionsOf g disk first = fileClusters g disk first := by
  unfold regionsOf fileClusters
  rw [if_neg sub, if_neg sub]

theorem Intact.head (h : Intact g disk first) (sub : first ≠ 0) : first ∈ fileClusters g disk first := by
  rw [← fileClusters_regions sub, (h.resolve_left sub).regions]
  exact (h.resolve_left sub).mem_first

theorem InTree.owner (h : InTree g disk first) (sub : first ≠ 0) :
    ∃ p l, InTree g disk p ∧ Holds g disk p l ∧ entryType (rawAt disk l) = .dir ∧ clusterOf disk l = first := by
  cases h with
  | root => exact absurd rfl sub
  | sub parent holds isDir => exact ⟨_, _, parent, holds, isDir, rfl⟩

namespace ChainTree

theorem dir (chains : ChainTree g disk) (h : InTree g disk first) : Intact g disk first := by
  cases h with
  | root => exact .inl rfl
  | sub parent holds isDir => exact chains.intact _ _ parent holds

theorem cell (chains : ChainTree g disk) (owns : Owns g disk l c) : Cell g disk c := by
  obtain ⟨first, tree, holds, mem⟩ := owns
  exact fileClusters_cells (chains.intact first l tree holds) c mem

theorem region_owner (chains : ChainTree g disk) (h : InTree g disk first) (mem : r ∈ regionsOf g disk first) :
    first = 0 ∧ r = 0 ∨ first ≠ 0 ∧ Cell g disk r ∧
      ∃ l, Owns g disk l r ∧ clusterOf disk l = first ∧ entryType (rawAt disk l) = .dir := by
  by_cases root : first = 0
  · subst root
    exact .inl ⟨rfl, List.mem_singleton.mp mem⟩
  · obtain ⟨p, l, tree, holds, isDir, is⟩ := h.owner root
    rw [fileClusters_regions root] at mem
    have owns : Owns g disk l r := ⟨p, tree, holds, is ▸ mem⟩
    exact .inr ⟨root, chains.cell owns, l, owns, is, isDir⟩

theorem same_dir (chains : ChainTree g disk) (h : InTree g disk first) (h' : InTree g disk first')
    (mem : r ∈ regionsOf g disk first) (mem' : r ∈ regionsOf g disk first') : first = first' := by
  rcases chains.region_owner h mem with ⟨rfl, rfl⟩ | ⟨-, cell, l, owns, is, -⟩ <;>
    rcases chains.region_owner h' mem' with ⟨rfl, is'⟩ | ⟨-, cell', l', owns', is', -⟩
  · rfl
  · exact absurd cell'.low (by omega)
  · exact absurd cell.low (by omega)
  · rw [← is, ← is', chains.apart l l' r owns owns']

theorem slot_dir (chains : ChainTree g disk) (h : InTree g disk first) (h' : InTree g disk first')
    (mem : l ∈ dirSlots g disk first) (mem' : l ∈ dirSlots g disk first') : first = first' := by
  obtain ⟨-, r, inDir, region, inRegion⟩ := mem_dirSlots (chains.dir h) mem
  obtain ⟨-, r', inDir', region', inRegion'⟩ := mem_dirSlots (chains.dir h') mem'
  obtain rfl := region_apart (region.elim .inl Cell.isRegion) (region'.elim .inl Cell.isRegion) inRegion inRegion'
  exact chains.same_dir h h' inDir inDir'

theorem same_entry (chains : ChainTree g disk) (h : InTree g disk first) (h' : InTree g disk first')
    (holds : Holds g disk first l) (holds' : Holds g disk first' l') (sub : clusterOf disk l ≠ 0)
    (same : clusterOf disk l' = clusterOf disk l) : l = l' := by
  have head := (chains.intact first l h holds).head sub
  exact chains.apart l l' _ ⟨first, h, holds, head⟩ ⟨first', h', holds', same ▸ head⟩

theorem not_own (chains : ChainTree g disk) (h : InTree g disk first) (sub : first ≠ 0) (holds : Holds g disk first l) :
    clusterOf disk l ≠ first := by
  induction h generalizing l with
  | root => exact absurd rfl sub
  | @sub p x parent holdsX isDir ih =>
    intro same
    obtain rfl := chains.same_entry parent (.sub parent holdsX isDir) holdsX holds sub same
    have here : p = clusterOf disk x :=
      chains.slot_dir parent (.sub parent holdsX isDir) (realSlots_sub holdsX.mem) (realSlots_sub holds.mem)
    exact ih (here ▸ sub) holdsX here.symm

end ChainTree

end Facts

/-! Editing one directory -/

/-- All directories are as they were but `home`, and that one but for one of its entries. The
directories in `gone` are no longer found. -/
structure DirEdit (g : Geometry) (disk disk' : Nat → Sector) (home : Nat) (entry : Option Loc)
    (gone : Nat → Prop) : Prop where
  tree : InTree g disk home
  stays : ¬ gone home ∧ ¬ gone 0
  others : ∀ first, InTree g disk first → ¬ gone first → first ≠ home →
    live g disk' first = live g disk first ∧ ∀ x ∈ live g disk first, rawAt disk' x = rawAt disk x
  inside : ∀ x, entry ≠ some x → (x ∈ live g disk' home ↔ x ∈ live g disk home)
  same : ∀ x, entry ≠ some x → x ∈ live g disk home → rawAt disk' x = rawAt disk x
  kept : ∀ first x, InTree g disk first → Holds g disk first x → entry ≠ some x ∨ first ≠ home →
    ¬ gone (clusterOf disk x)
  bare : ∀ x, entry = some x → x ∈ live g disk' home → entryType (rawAt disk' x) = .dir →
    ∀ y ∈ live g disk' (clusterOf disk' x), OwnDots g disk' (clusterOf disk' x) y

namespace DirEdit

variable {g : Geometry} {disk disk' : Nat → Sector} {home first : Nat} {entry : Option Loc} {gone : Nat → Prop}
  {x : Loc}

theorem ownDots_congr (same : rawAt disk' x = rawAt disk x) : OwnDots g disk' first x ↔ OwnDots g disk first x :=
  ⟨fun h => ⟨h.sub, h.place, display_congr same ▸ h.name⟩, fun h => ⟨h.sub, h.place, (display_congr same).symm ▸ h.name⟩⟩

theorem clusterOf_congr (same : rawAt disk' x = rawAt disk x) : clusterOf disk' x = clusterOf disk x := by
  unfold clusterOf
  rw [same]

/-- What a directory holds that is still there it held before, but for the edited entry. -/
theorem step (edit : DirEdit g disk disk' home entry gone) (tree : InTree g disk first) (there : ¬ gone first)
    (holds : Holds g disk' first x) :
    Holds g disk first x ∧ rawAt disk' x = rawAt disk x ∧ (entry ≠ some x ∨ first ≠ home) ∨
      first = home ∧ entry = some x := by
  by_cases here : first = home
  · subst here
    by_cases is : entry = some x
    · exact .inr ⟨rfl, is⟩
    · have mem := (edit.inside x is).mp holds.mem
      have same := edit.same x is mem
      exact .inl ⟨⟨mem, fun dots => holds.real ((ownDots_congr same).mpr dots)⟩, same, .inl is⟩
  · obtain ⟨lives, raw⟩ := edit.others first tree there here
    have mem : x ∈ live g disk first := lives ▸ holds.mem
    exact .inl ⟨⟨mem, fun dots => holds.real ((ownDots_congr (raw x mem)).mpr dots)⟩, raw x mem, .inr here⟩

theorem dirs (edit : DirEdit g disk disk' home entry gone) (tree : InTree g disk' first) :
    InTree g disk first ∧ ¬ gone first ∨
      ∃ x, entry = some x ∧ x ∈ live g disk' home ∧ entryType (rawAt disk' x) = .dir ∧ first = clusterOf disk' x := by
  induction tree with
  | root => exact .inl ⟨.root, edit.stays.2⟩
  | @sub p x parent holds isDir ih =>
    rcases ih with ⟨tree, there⟩ | ⟨y, is, mem, dir, rfl⟩
    · rcases edit.step tree there holds with ⟨old, same, apart⟩ | ⟨rfl, is⟩
      · refine .inl ⟨?_, ?_⟩
        · rw [clusterOf_congr same]
          exact .sub tree old (same ▸ isDir)
        · rw [clusterOf_congr same]
          exact edit.kept p x tree old apart
      · exact .inr ⟨x, is, holds.mem, isDir, rfl⟩
    · exact absurd (edit.bare y is mem dir x holds.mem) holds.real

theorem holds (edit : DirEdit g disk disk' home entry gone) (tree : InTree g disk' first)
    (holds : Holds g disk' first x) :
    InTree g disk first ∧ ¬ gone first ∧ Holds g disk first x ∧ rawAt disk' x = rawAt disk x ∧
        (entry ≠ some x ∨ first ≠ home) ∨ first = home ∧ entry = some x := by
  rcases edit.dirs tree with ⟨tree, there⟩ | ⟨y, is, mem, dir, rfl⟩
  · exact (edit.step tree there holds).imp_left fun ⟨old, same, apart⟩ => ⟨tree, there, old, same, apart⟩
  · exact absurd (edit.bare y is mem dir x holds.mem) holds.real

end DirEdit

section Editing

variable {g : Geometry} {disk disk' : Nat → Sector} {home : Nat} {entry : Option Loc} {gone : Nat → Prop}

def Unowned (g : Geometry) (disk : Nat → Sector) (c : Nat) : Prop := ∀ l, ¬ Owns g disk l c

/-- Every cluster of an object was its own before, or was nobody's and has gone to its heir. -/
def Inherits (g : Geometry) (disk disk' : Nat → Sector) (heir : Nat → Loc) (x : Loc) (first : Nat) : Prop :=
  Intact g disk' first ∧ ∀ c ∈ fileClusters g disk' first, Owns g disk x c ∨ Unowned g disk c ∧ x = heir c

theorem ChainTree.edited (chains : ChainTree g disk) (edit : DirEdit g disk disk' home entry gone) (heir : Nat → Loc)
    (old : ∀ first x, InTree g disk first → ¬ gone first → Holds g disk first x → entry ≠ some x ∨ first ≠ home →
      Inherits g disk disk' heir x (clusterOf disk x))
    (new : ∀ x, entry = some x → x ∈ live g disk' home → Inherits g disk disk' heir x (clusterOf disk' x)) :
    ChainTree g disk' := by
  have each : ∀ first x, InTree g disk' first → Holds g disk' first x → Inherits g disk disk' heir x (clusterOf disk' x) := by
    intro first x tree holds
    rcases edit.holds tree holds with ⟨tree, there, was, same, apart⟩ | ⟨rfl, is⟩
    · rw [DirEdit.clusterOf_congr same]
      exact old first x tree there was apart
    · exact new x is holds.mem
  refine ⟨fun first x tree holds => (each first x tree holds).1, ?_⟩
  rintro l l' c ⟨first, tree, holds, mem⟩ ⟨first', tree', holds', mem'⟩
  rcases (each first l tree holds).2 c mem with owns | ⟨nobody, is⟩ <;>
    rcases (each first' l' tree' holds').2 c mem' with owns' | ⟨nobody', is'⟩
  · exact chains.apart l l' c owns owns'
  · exact absurd owns (nobody' l)
  · exact absurd owns' (nobody l')
  · rw [is, is']

end Editing

/-- The two entries that a directory begins with. -/
structure DotsOf (g : Geometry) (disk : Nat → Sector) (first parent : Nat) : Prop where
  here : (clusterToLba g first, 0) ∈ live g disk first
  here_name : display disk (clusterToLba g first, 0) = dotName
  here_dir : entryType (rawAt disk (clusterToLba g first, 0)) = .dir
  here_cluster : clusterOf disk (clusterToLba g first, 0) = first
  up : (clusterToLba g first, 32) ∈ live g disk first
  up_name : display disk (clusterToLba g first, 32) = dotDotName
  up_dir : entryType (rawAt disk (clusterToLba g first, 32)) = .dir
  up_cluster : clusterOf disk (clusterToLba g first, 32) = parent

/-- Moreover directories have zeroes behind their end marks, and begin as they should. A scan
does not enter a directory whose number reads as an end mark. -/
structure VolumeTree (g : Geometry) (disk : Nat → Sector) : Prop extends ChainTree g disk where
  blank : ∀ first, InTree g disk first → Blank disk (dirSlots g disk first)
  dots : ∀ first l, InTree g disk first → Holds g disk first l → entryType (rawAt disk l) = .dir →
    clusterOf disk l ≠ 0 ∧ (clusterOf disk l < fat16EocMin → DotsOf g disk (clusterOf disk l) first)

section Trees

variable {g : Geometry} {disk disk' : Nat → Sector} {home first parent : Nat} {entry : Option Loc} {gone : Nat → Prop}

theorem DotsOf.own (h : DotsOf g disk first parent) (sub : first ≠ 0) :
    OwnDots g disk first (clusterToLba g first, 0) ∧ OwnDots g disk first (clusterToLba g first, 32) :=
  ⟨⟨sub, .inl rfl, by rw [h.here_name]; rfl⟩, ⟨sub, .inr rfl, by rw [h.up_name]; rfl⟩⟩

theorem DotsOf.congr (h : DotsOf g disk first parent)
    (same : ∀ x ∈ live g disk first, (x = (clusterToLba g first, 0) ∨ x = (clusterToLba g first, 32)) →
      x ∈ live g disk' first ∧ rawAt disk' x = rawAt disk x) : DotsOf g disk' first parent := by
  obtain ⟨here, raw⟩ := same _ h.here (.inl rfl)
  obtain ⟨up, raw'⟩ := same _ h.up (.inr rfl)
  exact ⟨here, (display_congr raw).trans h.here_name, raw ▸ h.here_dir, (DirEdit.clusterOf_congr raw).trans h.here_cluster, up,
    (display_congr raw').trans h.up_name, raw' ▸ h.up_dir, (DirEdit.clusterOf_congr raw').trans h.up_cluster⟩

theorem VolumeTree.edited (t : VolumeTree g disk) (edit : DirEdit g disk disk' home entry gone) (chains : ChainTree g disk')
    (spare : ∀ x, entry = some x → x ∈ live g disk home → ¬ OwnDots g disk home x)
    (blank : ∀ first, InTree g disk first → ¬ gone first → Blank disk' (dirSlots g disk' first))
    (new : ∀ x, entry = some x → x ∈ live g disk' home → entryType (rawAt disk' x) = .dir →
      Blank disk' (dirSlots g disk' (clusterOf disk' x)) ∧ clusterOf disk' x ≠ 0 ∧
        (clusterOf disk' x < fat16EocMin → DotsOf g disk' (clusterOf disk' x) home)) :
    VolumeTree g disk' := by
  refine ⟨chains, fun first tree => ?_, fun first l tree holds isDir => ?_⟩
  · rcases edit.dirs tree with ⟨old, there⟩ | ⟨x, is, mem, dir, rfl⟩
    · exact blank first old there
    · exact (new x is mem dir).1
  · rcases edit.holds tree holds with ⟨old, there, was, same, apart⟩ | ⟨rfl, is⟩
    · rw [same] at isDir
      obtain ⟨sub, dots⟩ := t.dots first l old was isDir
      rw [DirEdit.clusterOf_congr same]
      refine ⟨sub, fun mid => (dots mid).congr fun x mem place => ?_⟩
      have tree' : InTree g disk (clusterOf disk l) := .sub old was isDir
      have there' : ¬ gone (clusterOf disk l) := edit.kept first l old was apart
      by_cases here : clusterOf disk l = home
      · have own : OwnDots g disk home x := by
          rw [← here]
          rcases place with rfl | rfl
          · exact ((dots mid).own sub).1
          · exact ((dots mid).own sub).2
        rw [here] at mem ⊢
        have other : entry ≠ some x := fun is => spare x is mem own
        exact ⟨(edit.inside x other).mpr mem, edit.same x other mem⟩
      · obtain ⟨lives, raw⟩ := edit.others _ tree' there' here
        exact ⟨lives ▸ mem, raw x mem⟩
    · exact (new l is holds.mem isDir).2

end Trees

end Isunux
