import Isunux.FatTree

/-! The tree of a volume under the updates that the operations are made of. -/
namespace Isunux

section Frames

variable {g : Geometry} {disk disk' : Nat → Sector} {own : Nat → Prop} {first : Nat} {heir : Nat → Loc} {x : Loc}

theorem Frame.file (h : Frame g disk disk' own) (intact : Intact g disk first)
    (away : ∀ c ∈ fileClusters g disk first, ¬ own c) :
    Intact g disk' first ∧ fileClusters g disk' first = fileClusters g disk first := by
  by_cases root : first = 0
  · subst root
    exact ⟨.inl rfl, rfl⟩
  · rw [← fileClusters_regions root] at away
    obtain ⟨intact', regions, -⟩ := h.object intact away
    exact ⟨intact', by rw [← fileClusters_regions root, ← fileClusters_regions root, regions]⟩

theorem inherits_same {p : Nat} (tree : InTree g disk p) (holds : Holds g disk p x)
    (same : Intact g disk' (clusterOf disk x) ∧
      fileClusters g disk' (clusterOf disk x) = fileClusters g disk (clusterOf disk x)) :
    Inherits g disk disk' heir x (clusterOf disk x) :=
  ⟨same.1, fun _ mem => .inl ⟨p, tree, holds, same.2 ▸ mem⟩⟩

theorem inherits_zero : Inherits g disk disk' heir x 0 := ⟨.inl rfl, fun _ mem => absurd mem List.not_mem_nil⟩

theorem ChainTree.framed_edit (chains : ChainTree g disk) (frame : Frame g disk disk' own)
    (away : ∀ first, InTree g disk first → ∀ r ∈ regionsOf g disk first, ¬ own r) :
    DirEdit g disk disk' 0 none fun _ => False := by
  have same : ∀ first, InTree g disk first →
      live g disk' first = live g disk first ∧ ∀ x ∈ live g disk first, rawAt disk' x = rawAt disk x := fun first tree =>
    have all := frame.directory (chains.dir tree) (away first tree)
    ⟨all.1, all.2.1⟩
  refine ⟨.root, ⟨id, id⟩, fun first tree _ _ => same first tree, fun x _ => ?_, fun x _ => (same 0 .root).2 x,
    fun _ _ _ _ _ => id, fun _ is => nomatch is⟩
  rw [(same 0 .root).1]

theorem ChainTree.framed (heir : Nat → Loc) (chains : ChainTree g disk) (frame : Frame g disk disk' own)
    (away : ∀ first, InTree g disk first → ∀ r ∈ regionsOf g disk first, ¬ own r)
    (entries : ∀ first x, InTree g disk first → Holds g disk first x →
      (∀ c ∈ fileClusters g disk (clusterOf disk x), ¬ own c) ∨ Inherits g disk disk' heir x (clusterOf disk x)) :
    ChainTree g disk' :=
  chains.edited (chains.framed_edit frame away) heir
    (fun first x tree _ holds _ => (entries first x tree holds).elim
      (fun apart => inherits_same tree holds (frame.file (chains.intact first x tree holds) apart)) id)
    fun _ is => nomatch is

theorem VolumeTree.framed (t : VolumeTree g disk) (frame : Frame g disk disk' own)
    (away : ∀ first, InTree g disk first → ∀ r ∈ regionsOf g disk first, ¬ own r) (chains : ChainTree g disk') : VolumeTree g disk' := by
  refine t.edited (t.framed_edit frame away) chains (fun _ is => nomatch is) (fun first tree _ => ?_) fun _ is => nomatch is
  exact (frame.directory (t.dir tree) (away first tree)).2.2 (t.blank first tree)

end Frames

section Kept

variable {g : Geometry} {disk disk' : Nat → Sector} {own : Nat → Prop} {first : Nat} {x : Loc}

theorem ChainTree.framed_tree (chains : ChainTree g disk) (frame : Frame g disk disk' own)
    (away : ∀ first, InTree g disk first → ∀ r ∈ regionsOf g disk first, ¬ own r) (tree : InTree g disk first) :
    InTree g disk' first := by
  induction tree with
  | root => exact .root
  | @sub p x parent holds isDir ih =>
    obtain ⟨lives, raw, -⟩ := frame.directory (chains.dir parent) (away p parent)
    have same := raw x holds.mem
    rw [← DirEdit.clusterOf_congr same]
    exact .sub ih ⟨lives ▸ holds.mem, fun dots => holds.real ((DirEdit.ownDots_congr same).mp dots)⟩ (same ▸ isDir)

theorem ChainTree.framed_holds (chains : ChainTree g disk) (frame : Frame g disk disk' own)
    (away : ∀ first, InTree g disk first → ∀ r ∈ regionsOf g disk first, ¬ own r) (tree : InTree g disk first)
    (holds : Holds g disk first x) : Holds g disk' first x ∧ rawAt disk' x = rawAt disk x := by
  obtain ⟨lives, raw, -⟩ := frame.directory (chains.dir tree) (away first tree)
  have same := raw x holds.mem
  exact ⟨⟨lives ▸ holds.mem, fun dots => holds.real ((DirEdit.ownDots_congr same).mp dots)⟩, same⟩

end Kept

/-- A chain that a new directory entry may be given. -/
structure NewObject (g : Geometry) (disk : Nat → Sector) (first parent : Nat) : Prop where
  sub : first ≠ 0
  intact : Intact g disk first
  nobody : ∀ c ∈ fileClusters g disk first, Unowned g disk c
  bare : ∀ y ∈ live g disk first, OwnDots g disk first y
  blank : Blank disk (dirSlots g disk first)
  dots : first < fat16EocMin → DotsOf g disk first parent

section Adding

variable {g : Geometry} {disk disk' : Nat → Sector} {home first : Nat} {bytes : List (BitVec 8)} {new : List Loc} {x : Loc}

/-- An entry that may be added: that of an empty file, or that of a directory without entries. -/
def MayAdd (g : Geometry) (disk : Nat → Sector) (bytes : List (BitVec 8)) (home : Nat) : Prop :=
  read16 (ofBytes bytes) 26 = 0 ∧ entryType (ofBytes bytes) = .file ∨
    NewObject g disk (read16 (ofBytes bytes) 26) home

theorem one_head (one : new.length ≤ 1) : new.head? = some x ↔ x ∈ new := by
  match new, one with
  | [], _ => simp
  | [y], _ => simp [eq_comm]

/-- The regions of an object with clusters of its own lie apart from those of a directory. -/
theorem ChainTree.apart_dir (chains : ChainTree g disk) (tree : InTree g disk home) (sub : first ≠ 0)
    (intact : Intact g disk first)
    (apart : ∀ c ∈ fileClusters g disk first, ∀ l, Owns g disk l c → clusterOf disk l ≠ home) :
    ∀ r ∈ regionsOf g disk first, r ∉ regionsOf g disk home := by
  intro r mem inHome
  rw [fileClusters_regions sub] at mem
  rcases chains.region_owner tree inHome with ⟨-, rfl⟩ | ⟨-, -, l, owns, is, -⟩
  · have cell := fileClusters_cells intact 0 mem
    exact absurd cell.low (by omega)
  · exact apart r mem l owns is

theorem ChainTree.apart_entry (chains : ChainTree g disk) (tree : InTree g disk home) {p : Nat} (treeP : InTree g disk p)
    (holds : Holds g disk p x) (sub : clusterOf disk x ≠ 0) (other : clusterOf disk x ≠ home) :
    ∀ r ∈ regionsOf g disk (clusterOf disk x), r ∉ regionsOf g disk home := by
  refine chains.apart_dir tree sub (chains.intact p x treeP holds) fun c mem l owns is => other ?_
  rw [← is, chains.apart x l c ⟨p, treeP, holds, mem⟩ owns]

theorem NewObject.apart_dir (h : NewObject g disk first home) (chains : ChainTree g disk) (tree : InTree g disk home) :
    ∀ r ∈ regionsOf g disk first, r ∉ regionsOf g disk home :=
  chains.apart_dir tree h.sub h.intact fun c mem l owns => absurd owns (h.nobody c mem l)

theorem ChainTree.added_edit (chains : ChainTree g disk) (tree : InTree g disk home)
    (added : Added g disk disk' home bytes new) (may : MayAdd g disk bytes home) :
    DirEdit g disk disk' home new.head? fun _ => False := by
  obtain ⟨before, behind, was, is⟩ := added.place
  refine ⟨tree, ⟨id, id⟩, fun first there _ other => ?_, fun x apart => ?_, fun x _ mem => added.old x mem,
    fun _ _ _ _ _ => id, fun x here mem isDir => ?_⟩
  · have all := added.frame.directory (chains.dir there) fun r mem inHome => other (chains.same_dir there tree mem inHome)
    exact ⟨all.1, all.2.1⟩
  · have absent : x ∉ new := fun mem => apart ((one_head added.one).mpr mem)
    rw [was, is]
    simp [absent]
  · obtain ⟨raw, -⟩ := added.raw x ((one_head added.one).mp here)
    unfold clusterOf
    rw [raw] at isDir ⊢
    rcases may with ⟨-, isFile⟩ | object
    · rw [isFile] at isDir
      cases isDir
    · obtain ⟨lives, same, -⟩ := added.frame.directory object.intact (object.apart_dir chains tree)
      intro y inside
      rw [lives] at inside
      exact (DirEdit.ownDots_congr (same y inside)).mpr (object.bare y inside)

theorem ChainTree.added (chains : ChainTree g disk) (tree : InTree g disk home)
    (added : Added g disk disk' home bytes new) (may : MayAdd g disk bytes home) : ChainTree g disk' := by
  classical
  -- a cluster that the directory got belongs to its entry, the new object's to the new one
  obtain ⟨owner, owned⟩ : ∃ owner : Loc, ∀ p x, InTree g disk p → Holds g disk p x → home ≠ 0 → clusterOf disk x = home →
      x = owner := by
    by_cases root : home = 0
    · exact ⟨(0, 0), fun _ _ _ _ sub => absurd root sub⟩
    · obtain ⟨q, l, treeQ, holdsQ, -, is⟩ := tree.owner root
      refine ⟨l, fun p x treeP holds _ same => ?_⟩
      exact (chains.same_entry treeQ treeP holdsQ holds (by rw [is]; exact root) (same.trans is.symm)).symm
  refine chains.edited (chains.added_edit tree added may)
    (fun c => if c ∈ fileClusters g disk (read16 (ofBytes bytes) 26) then new.head?.getD (0, 0) else owner)
    (fun p x treeP _ holds _ => ?_) fun x is mem => ?_
  · by_cases sub : clusterOf disk x = 0
    · rw [sub]
      exact inherits_zero
    by_cases here : clusterOf disk x = home
    · rw [here] at sub ⊢
      refine ⟨added.intact, fun c mem => ?_⟩
      rw [← fileClusters_regions sub] at mem
      rcases added.regions c mem with old | ⟨-, -, free⟩
      · rw [fileClusters_regions sub] at old
        exact .inl ⟨p, treeP, holds, here ▸ old⟩
      · refine .inr ⟨fun l owns => (chains.cell owns).taken free, ?_⟩
        beta_reduce
        rw [if_neg, owned p x treeP holds sub here]
        intro mine
        rcases may with ⟨zero, -⟩ | object
        · rw [zero] at mine
          cases mine
        · exact (fileClusters_cells object.intact c mine).taken free
    · have apart := chains.apart_entry tree treeP holds sub here
      rw [fileClusters_regions sub] at apart
      exact inherits_same treeP holds (added.frame.file (chains.intact p x treeP holds) apart)
  · obtain ⟨raw, -⟩ := added.raw x ((one_head added.one).mp is)
    have cluster : clusterOf disk' x = read16 (ofBytes bytes) 26 := by
      unfold clusterOf
      rw [raw]
    rw [cluster]
    rcases may with ⟨zero, -⟩ | object
    · rw [zero]
      exact inherits_zero
    · have apart := object.apart_dir chains tree
      rw [fileClusters_regions object.sub] at apart
      obtain ⟨intact', same⟩ := added.frame.file object.intact apart
      refine ⟨intact', fun c mine => .inr ⟨object.nobody c (same ▸ mine), ?_⟩⟩
      beta_reduce
      rw [if_pos (same ▸ mine), is]
      rfl

theorem VolumeTree.added (t : VolumeTree g disk) (tree : InTree g disk home)
    (added : Added g disk disk' home bytes new) (may : MayAdd g disk bytes home) : VolumeTree g disk' := by
  have chains := t.toChainTree
  refine t.edited (chains.added_edit tree added may) (chains.added tree added may)
    (fun x is mem => absurd mem (added.raw x ((one_head added.one).mp is)).2) (fun first there _ => ?_)
    fun x is mem isDir => ?_
  · by_cases here : first = home
    · exact here ▸ added.blank
    · exact (added.frame.directory (chains.dir there) fun r mem inHome =>
        here (chains.same_dir there tree mem inHome)).2.2 (t.blank first there)
  · obtain ⟨raw, -⟩ := added.raw x ((one_head added.one).mp is)
    unfold clusterOf
    rw [raw] at isDir ⊢
    rcases may with ⟨-, isFile⟩ | object
    · rw [isFile] at isDir
      cases isDir
    · obtain ⟨lives, same, blank⟩ := added.frame.directory object.intact (object.apart_dir chains tree)
      exact ⟨blank object.blank, object.sub, fun mid => (object.dots mid).congr fun y inside _ =>
        ⟨lives ▸ inside, same y inside⟩⟩

end Adding

section Removing

variable {g : Geometry} {disk disk' : Nat → Sector} {home first : Nat} {l x : Loc}

/-- The directory that goes with its entry. -/
def GoneWith (disk : Nat → Sector) (l : Loc) (c : Nat) : Prop :=
  c ≠ 0 ∧ c = clusterOf disk l ∧ entryType (rawAt disk l) = .dir

theorem freed_owned {c : Nat} (tree : InTree g disk home) (holds : Holds g disk home l)
    (mem : c ∈ givenBack g disk (clusterOf disk l)) : Owns g disk l c := by
  refine ⟨home, tree, holds, ?_⟩
  unfold givenBack at mem
  split at mem
  · exact mem
  · cases mem

theorem Removed.frame (removed : Removed g disk disk' home l) :
    Frame g disk disk' fun c => c ∈ givenBack g disk (clusterOf disk l) ∨ c ∈ regionsOf g disk home :=
  ⟨fun c cell other => by rw [removed.table c cell.bound, if_neg fun mem => other (.inl mem)],
    fun r region other => removed.sectors r (region.elim .inl Cell.isRegion) fun mem => other (.inr mem)⟩

theorem ChainTree.spared (chains : ChainTree g disk) (tree : InTree g disk home) (holds : Holds g disk home l)
    (there : InTree g disk first) (stays : ¬ GoneWith disk l first) (other : first ≠ home) :
    ∀ r ∈ regionsOf g disk first, ¬ (r ∈ givenBack g disk (clusterOf disk l) ∨ r ∈ regionsOf g disk home) := by
  rintro r mem (freed | inHome)
  · have owns := freed_owned tree holds freed
    have sub : first ≠ 0 := by
      rintro rfl
      obtain rfl := List.mem_singleton.mp mem
      exact absurd (chains.cell owns).low (by omega)
    obtain ⟨p, y, treeP, holdsY, isDir, is⟩ := there.owner sub
    rw [fileClusters_regions sub] at mem
    obtain rfl := chains.apart y l r ⟨p, treeP, holdsY, is ▸ mem⟩ owns
    exact stays ⟨sub, is.symm, isDir⟩
  · exact other (chains.same_dir there tree mem inHome)

theorem ChainTree.removed_edit (chains : ChainTree g disk) (tree : InTree g disk home) (holds : Holds g disk home l)
    (removed : Removed g disk disk' home l) : DirEdit g disk disk' home (some l) (GoneWith disk l) := by
  have entries : ∀ x, x ∈ live g disk' home ↔ x ∈ live g disk home ∧ x ≠ l := by
    intro x
    rw [removed.entries, List.mem_filter]
    simp
  refine ⟨tree, ⟨?_, fun gone => gone.1 rfl⟩, fun first there stays other => ?_, fun x apart => ?_, fun x apart mem => ?_,
    fun first x there holdsX apart gone => ?_, fun x is mem => ?_⟩
  · rintro ⟨sub, is, -⟩
    exact chains.not_own tree sub holds is.symm
  · have all := removed.frame.directory (chains.dir there) (chains.spared tree holds there stays other)
    exact ⟨all.1, all.2.1⟩
  · rw [entries, and_iff_left]
    rintro rfl
    exact apart rfl
  · exact removed.old x (realSlots_sub mem) fun here => apart (congrArg some here.symm)
  · obtain ⟨sub, is, -⟩ := gone
    obtain rfl := chains.same_entry there tree holdsX holds sub is.symm
    have here := chains.slot_dir there tree (realSlots_sub holdsX.mem) (realSlots_sub holds.mem)
    exact apart.elim (fun other => other rfl) fun other => other here
  · obtain rfl := Option.some.inj is
    exact absurd rfl ((entries l).mp mem).2

theorem ChainTree.removed (chains : ChainTree g disk) (tree : InTree g disk home) (holds : Holds g disk home l)
    (removed : Removed g disk disk' home l) : ChainTree g disk' := by
  refine chains.edited (chains.removed_edit tree holds removed) (fun _ => l) (fun p x treeP _ holdsX apart => ?_)
    fun x is mem => ?_
  · have other : x ≠ l := by
      rintro rfl
      have here := chains.slot_dir treeP tree (realSlots_sub holdsX.mem) (realSlots_sub holds.mem)
      exact apart.elim (fun differ => differ rfl) fun differ => differ here
    have intact := chains.intact p x treeP holdsX
    have kept : ∀ c ∈ fileClusters g disk (clusterOf disk x), fatEntry g disk' c = fatEntry g disk c := by
      intro c mem
      rw [removed.table c (fileClusters_cells intact c mem).bound, if_neg]
      exact fun freed => other (chains.apart x l c ⟨p, treeP, holdsX, mem⟩ (freed_owned tree holds freed))
    refine inherits_same treeP holdsX ?_
    by_cases sub : clusterOf disk x = 0
    · rw [sub]
      exact ⟨.inl rfl, rfl⟩
    · rw [← fileClusters_regions sub] at kept ⊢
      obtain ⟨intact', regions, -⟩ := intact.object_congr fun c mem _ => kept c mem
      exact ⟨intact', by rw [← fileClusters_regions sub, regions]⟩
  · rw [removed.entries, List.mem_filter] at mem
    obtain rfl := Option.some.inj is
    simp at mem

theorem VolumeTree.removed (t : VolumeTree g disk) (tree : InTree g disk home) (holds : Holds g disk home l)
    (removed : Removed g disk disk' home l) : VolumeTree g disk' := by
  have chains := t.toChainTree
  refine t.edited (chains.removed_edit tree holds removed) (chains.removed tree holds removed) (fun x is _ => ?_)
    (fun first there stays => ?_) fun x is mem => ?_
  · obtain rfl := Option.some.inj is
    exact holds.real
  · by_cases here : first = home
    · exact here ▸ removed.blank
    · exact (removed.frame.directory (chains.dir there) (chains.spared tree holds there stays here)).2.2 (t.blank first there)
  · rw [removed.entries, List.mem_filter] at mem
    obtain rfl := Option.some.inj is
    simp at mem

end Removing

/-- The first cluster and the size in the entry of a file have been written again. -/
structure Rewritten (g : Geometry) (disk disk' : Nat → Sector) (home : Nat) (l : Loc) (first size : Nat) : Prop where
  table : ∀ c < g.totalEntries, fatEntry g disk' c = fatEntry g disk c
  sectors : ∀ r, IsRegion r → r ∉ regionsOf g disk home → ∀ lba ∈ regionLbas g r, disk' lba = disk lba
  slots : dirSlots g disk' home = dirSlots g disk home
  entries : live g disk' home = live g disk home
  other : ∀ x ∈ dirSlots g disk home, x ≠ l → rawAt disk' x = rawAt disk x
  front : ∀ i < 26, rawAt disk' l i = rawAt disk l i
  cluster : clusterOf disk' l = first % 2 ^ 16
  size : read32 (rawAt disk' l) 28 = size % 2 ^ 32
  blank : Blank disk (dirSlots g disk home) → Blank disk' (dirSlots g disk home)

section Rewriting

variable {g : Geometry} {disk disk' : Nat → Sector} {home first size : Nat} {l x : Loc}

/-- The bytes that `fat_writeback_dirent` writes. -/
def metaBytes (first size : Nat) : List (BitVec 8) :=
  [byteOf first 0, byteOf first 1, byteOf size 0, byteOf size 1, byteOf size 2, byteOf size 3]

theorem read16_metaBytes (b : Nat → BitVec 8) : read16 (patch b 26 (metaBytes first size)) 26 = first % 2 ^ 16 := by
  simp [read16, patch, metaBytes, byteOf]
  omega

theorem read32_metaBytes (b : Nat → BitVec 8) : read32 (patch b 26 (metaBytes first size)) 28 = size % 2 ^ 32 := by
  simp [read32, patch, metaBytes, byteOf]
  omega

theorem realSlots_marks {slots : List Loc} (marks : ∀ x ∈ slots, rawAt disk' x 0 = rawAt disk x 0)
    (attrs : ∀ x ∈ slots, rawAt disk' x 11 = rawAt disk x 11) : realSlots disk' slots = realSlots disk slots := by
  have used : usedSlots disk' slots = usedSlots disk slots := (marks_congr fun x mem => by rw [marks x mem]).1
  unfold realSlots
  rw [used]
  refine List.filter_congr fun x mem => ?_
  have inSlots : x ∈ slots := (List.takeWhile_prefix _).subset mem
  unfold realEntry
  rw [marks x inSlots, attrs x inSlots]

theorem rewritten_entry (fats : 0 < g.numFats) (intact : Intact g disk home) (mem : l ∈ live g disk home) :
    Rewritten g disk (putAt disk l 26 (metaBytes first size)) home l first size := by
  have inSlots : l ∈ dirSlots g disk home := realSlots_sub mem
  have written : SlotWritten g disk (putAt disk l 26 (metaBytes first size)) home l :=
    putAt_written fats intact inSlots (by simp [metaBytes])
  have raw : rawAt (putAt disk l 26 (metaBytes first size)) l = patch (rawAt disk l) 26 (metaBytes first size) :=
    rawAt_putAt_self (by simp [metaBytes])
  have front : ∀ i < 26, rawAt (putAt disk l 26 (metaBytes first size)) l i = rawAt disk l i := by
    intro i low
    rw [raw]
    exact if_neg (by omega)
  have marks : ∀ i < 26, ∀ x ∈ dirSlots g disk home,
      rawAt (putAt disk l 26 (metaBytes first size)) x i = rawAt disk x i := by
    intro i low x inside
    by_cases here : x = l
    · exact here ▸ front i low
    · rw [written.edited x inside here]
  refine ⟨written.entries, fun r isRegion apart lba inside => written.sector isRegion apart inside, written.slots, ?_,
    written.edited, front, ?_, ?_, fun blank x inside => ?_⟩
  · unfold live
    rw [written.slots, realSlots_marks (marks 0 (by decide)) (marks 11 (by decide))]
  · unfold clusterOf
    rw [raw, read16_metaBytes]
  · rw [raw, read32_metaBytes]
  · have zeros : ∀ x ∈ dirSlots g disk home,
        (rawAt (putAt disk l 26 (metaBytes first size)) x 0 = 0#8 ↔ rawAt disk x 0 = 0#8) := fun x inside => by
      rw [marks 0 (by decide) x inside]
    rw [(marks_congr zeros).2] at inside
    have zero := blank x inside
    have differ : x ≠ l := by
      rintro rfl
      exact (mem_realSlots mem).1 (by rw [zero]; rfl)
    rw [written.edited x (List.dropWhile_subset _ (List.mem_of_mem_tail inside)) differ]
    exact zero

theorem Rewritten.type (h : Rewritten g disk disk' home l first size) : entryType (rawAt disk' l) = entryType (rawAt disk l) := by
  unfold entryType
  rw [h.front 11 (by decide)]

theorem Rewritten.display (h : Rewritten g disk disk' home l first size) : display disk' l = display disk l :=
  fatDecode83Name_congr fun i low => h.front i (by omega)

theorem Rewritten.frame (h : Rewritten g disk disk' home l first size) : Frame g disk disk' (· ∈ regionsOf g disk home) :=
  ⟨fun c cell _ => h.table c cell.bound, fun r region other => h.sectors r (region.elim .inl Cell.isRegion) other⟩

theorem Rewritten.object (h : Rewritten g disk disk' home l first size) {k : Nat} (intact : Intact g disk k) :
    Intact g disk' k ∧ fileClusters g disk' k = fileClusters g disk k := by
  by_cases sub : k = 0
  · subst sub
    exact ⟨.inl rfl, rfl⟩
  · obtain ⟨intact', regions, -⟩ := intact.object_congr fun c _ cell => h.table c cell.bound
    exact ⟨intact', by rw [← fileClusters_regions sub, ← fileClusters_regions sub, regions]⟩

theorem ChainTree.rewritten_edit (chains : ChainTree g disk) (tree : InTree g disk home)
    (isFile : entryType (rawAt disk l) = .file) (h : Rewritten g disk disk' home l first size) :
    DirEdit g disk disk' home (some l) fun _ => False := by
  refine ⟨tree, ⟨id, id⟩, fun first there _ other => ?_, fun x _ => by rw [h.entries], fun x apart mem => ?_,
    fun _ _ _ _ _ => id, fun x is mem isDir => ?_⟩
  · have all := h.frame.directory (chains.dir there) fun r mem inHome => other (chains.same_dir there tree mem inHome)
    exact ⟨all.1, all.2.1⟩
  · exact h.other x (realSlots_sub mem) fun here => apart (congrArg some here.symm)
  · obtain rfl := Option.some.inj is
    rw [h.type, isFile] at isDir
    cases isDir

/-- The chain that an entry is given must be its own or nobody's. -/
theorem ChainTree.rewritten (chains : ChainTree g disk) (tree : InTree g disk home)
    (isFile : entryType (rawAt disk l) = .file) (h : Rewritten g disk disk' home l first size) (short : first < 2 ^ 16)
    (intact : Intact g disk first) (own : ∀ c ∈ fileClusters g disk first, Owns g disk l c ∨ Unowned g disk c) :
    ChainTree g disk' := by
  refine chains.edited (chains.rewritten_edit tree isFile h) (fun _ => l) (fun p x treeP _ holdsX _ => ?_)
    fun x is mem => ?_
  · exact inherits_same treeP holdsX (h.object (chains.intact p x treeP holdsX))
  · obtain rfl := Option.some.inj is
    rw [h.cluster, Nat.mod_eq_of_lt short]
    obtain ⟨intact', same⟩ := h.object intact
    refine ⟨intact', fun c mine => ?_⟩
    rw [same] at mine
    exact (own c mine).imp_right fun nobody => ⟨nobody, rfl⟩

theorem VolumeTree.rewritten (t : VolumeTree g disk) (tree : InTree g disk home) (holds : Holds g disk home l)
    (isFile : entryType (rawAt disk l) = .file) (h : Rewritten g disk disk' home l first size) (chains : ChainTree g disk') :
    VolumeTree g disk' := by
  refine t.edited (t.rewritten_edit tree isFile h) chains (fun x is _ => ?_) (fun first there _ => ?_)
    fun x is mem isDir => ?_
  · obtain rfl := Option.some.inj is
    exact holds.real
  · by_cases here : first = home
    · rw [here, h.slots]
      exact h.blank (t.blank home tree)
    · exact (h.frame.directory (t.dir there) fun r mem inHome =>
        here (t.same_dir there tree mem inHome)).2.2 (t.blank first there)
  · obtain rfl := Option.some.inj is
    rw [h.type, isFile] at isDir
    cases isDir

end Rewriting

end Isunux
