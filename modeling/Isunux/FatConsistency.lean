import Isunux.FatLookups
import Isunux.FatMaps
import Isunux.FatWrites

/-! Files are created, written and removed on a freshly formatted volume. As long as no
directory is made to remove its own entry, every entry keeps a chain to itself. -/
namespace Isunux

section Conditions

variable (g : Geometry) (s : Fat)

/-- The root directory holds nothing yet. -/
structure FreshlyFormatted : Prop where
  calm : s.Calm
  fats : 0 < g.numFats
  per : 0 < g.sectorsPerCluster
  small : g.totalEntries ≤ 2 ^ 16
  empty : live g s.disk 0 = []
  blank : Blank s.disk (dirSlots g s.disk 0)

/-- The node is that of a directory as a lookup would hand it out now. -/
inductive JustLookedUp : Option Nat → Prop where
  | root : JustLookedUp none
  | sub {dir : Option Nat} {i : Nat} {l : Loc} (parent : JustLookedUp dir)
    (mem : l ∈ live g s.disk (s.metaOf dir).firstCluster) (isDir : entryType (rawAt s.disk l) = .dir)
    (node : s.nodes i = entryNode dir (display s.disk l) (rawAt s.disk l) l.1 l.2) : JustLookedUp (some i)

/-- The node is that of a file as a lookup would hand it out now. -/
def FileLookedUp (i : Nat) : Prop :=
  ∃ dir l, JustLookedUp g s dir ∧ l ∈ live g s.disk (s.metaOf dir).firstCluster ∧
    entryType (rawAt s.disk l) = .file ∧ s.nodes i = entryNode dir (display s.disk l) (rawAt s.disk l) l.1 l.2

/-- A call on nodes that have just been looked up, with any C string for a name. -/
def OnLookedUp : FatOp → Prop
  | .lookup dir _ | .unlink dir _ => JustLookedUp g s dir
  | .create dir name | .mkdir dir name => JustLookedUp g s dir ∧ 0#8 ∉ name
  | .write node _ _ _ => FileLookedUp g s node

/-- An unlink that finds the directory's own entry, or its parent's, is refused because that
directory is not empty. -/
def SparesDots : FatOp → Prop
  | .unlink dir name => s.count < fatMaxNodes → ∀ l, slotOf g s dir name = some l →
    OwnDots g s.disk (s.metaOf dir).firstCluster l → ∃ x ∈ live g s.disk (clusterOf s.disk l), ¬ isDots (display s.disk x) = true
  | _ => True

/-- Every entry with a first cluster starts a chain, and the chains of two entries share no cluster. -/
structure Consistent (disk : Nat → Sector) : Prop where
  chains : ∀ first l, InTree g disk first → l ∈ live g disk first → clusterOf disk l ≠ 0 →
    ∃ xs, ChainOf g disk (clusterOf disk l) xs
  apart : ∀ first l first' l', InTree g disk first → Holds g disk first l → InTree g disk first' → Holds g disk first' l' →
    l ≠ l' → ∀ c ∈ fileClusters g disk (clusterOf disk l), c ∉ fileClusters g disk (clusterOf disk l')

end Conditions

section Trees

variable {g : Geometry} {disk : Nat → Sector} {s : Fat} {dir : Option Nat} {first i : Nat} {l : Loc}

theorem dirSlots_high (sub : first ≠ 0) (high : ¬ first < fat16EocMin) : dirSlots g disk first = [] := by
  unfold dirSlots
  rw [if_neg sub, if_neg high]

theorem live_below (mem : l ∈ live g disk first) : first < fat16EocMin := by
  by_contra high
  have sub : first ≠ 0 := by
    rintro rfl
    exact high (by decide)
  unfold live at mem
  rw [dirSlots_high sub high] at mem
  cases mem

theorem VolumeTree.ownDots (t : VolumeTree g disk) (tree : InTree g disk first) (mem : l ∈ live g disk first)
    (dots : OwnDots g disk first l) :
    InTree g disk (clusterOf disk l) ∧ entryType (rawAt disk l) = .dir := by
  obtain ⟨p, x, parent, holds, isDir, is⟩ := tree.owner dots.sub
  obtain ⟨-, begins⟩ := t.dots p x parent holds isDir
  rw [is] at begins
  have two := begins (live_below mem)
  rcases dots.place with rfl | rfl
  · exact ⟨two.here_cluster.symm ▸ tree, two.here_dir⟩
  · exact ⟨two.up_cluster.symm ▸ parent, two.up_dir⟩

theorem VolumeTree.sub (t : VolumeTree g disk) (tree : InTree g disk first) (mem : l ∈ live g disk first)
    (isDir : entryType (rawAt disk l) = .dir) : InTree g disk (clusterOf disk l) := by
  by_cases dots : OwnDots g disk first l
  · exact (t.ownDots tree mem dots).1
  · exact .sub tree ⟨mem, dots⟩ isDir

theorem VolumeTree.entry (t : VolumeTree g disk) (tree : InTree g disk first) (mem : l ∈ live g disk first) :
    Intact g disk (clusterOf disk l) := by
  by_cases dots : OwnDots g disk first l
  · exact t.dir (t.ownDots tree mem dots).1
  · exact t.intact first l tree ⟨mem, dots⟩

theorem VolumeTree.file (t : VolumeTree g disk) (tree : InTree g disk first) (mem : l ∈ live g disk first)
    (isFile : entryType (rawAt disk l) = .file) : Holds g disk first l := by
  refine ⟨mem, fun dots => ?_⟩
  have isDir := (t.ownDots tree mem dots).2
  rw [isFile] at isDir
  cases isDir

theorem entryNode_cluster (node : s.nodes i = entryNode dir (display disk l) (rawAt disk l) l.1 l.2) :
    (s.metaOf (some i)).firstCluster = clusterOf disk l := by
  change (s.nodes i).priv.firstCluster = _
  rw [node]
  rfl

theorem JustLookedUp.inTree (h : JustLookedUp g s dir) (t : VolumeTree g s.disk) :
    InTree g s.disk (s.metaOf dir).firstCluster := by
  induction h with
  | root => exact .root
  | sub parent mem isDir node ih =>
    rw [entryNode_cluster node]
    exact t.sub ih mem isDir

theorem VolumeTree.consistent (t : VolumeTree g disk) : Consistent g disk := by
  refine ⟨fun first l tree mem sub => ?_, fun first l first' l' tree holds tree' holds' differ c mem mem' => ?_⟩
  · exact ⟨_, (t.entry tree mem).resolve_left sub⟩
  · exact differ (t.apart l l' c ⟨first, tree, holds, mem⟩ ⟨first', tree', holds', mem'⟩)

theorem FreshlyFormatted.only (fresh : FreshlyFormatted g s) (tree : InTree g s.disk first) : first = 0 := by
  induction tree with
  | root => rfl
  | @sub p x parent holds isDir ih =>
    subst ih
    have mem := holds.mem
    rw [fresh.empty] at mem
    cases mem

theorem FreshlyFormatted.tree (fresh : FreshlyFormatted g s) : VolumeTree g s.disk := by
  have none : ∀ first x, InTree g s.disk first → ¬ Holds g s.disk first x := by
    intro first x tree holds
    have mem := holds.mem
    rw [fresh.only tree, fresh.empty] at mem
    cases mem
  refine ⟨⟨fun first x tree holds => absurd holds (none first x tree), ?_⟩, fun first tree => ?_,
    fun first x tree holds => absurd holds (none first x tree)⟩
  · rintro l l' c ⟨first, tree, holds, -⟩
    exact absurd holds (none first l tree)
  · exact fresh.only tree ▸ fresh.blank

end Trees

section Calls

variable {g : Geometry} {fuel : Nat} {s t : Fat} {dir : Option Nat} {name : List (BitVec 8)} {l : Loc}

theorem FreshDir.dotsOf {disk d : Nat → Sector} {c parent : Nat} (fresh : FreshDir g disk d c parent)
    (per : 0 < g.sectorsPerCluster) (low : 2 ≤ c) (bound : c < g.totalEntries) (mid : c < fat16EocMin)
    (short : parent < 2 ^ 16) : DotsOf g d c parent := by
  obtain ⟨two, -⟩ := fresh.entries per low bound mid
  obtain ⟨-, -, isDir⟩ := fresh.dot_real
  obtain ⟨-, -, isDir'⟩ := fresh.dotDot_real
  refine ⟨by rw [two]; simp, ?_, isDir, ?_, by rw [two]; simp, ?_, isDir', ?_⟩
  · unfold display
    rw [fresh.dot]
    exact dotEntry_dot
  · unfold clusterOf
    rw [fresh.dot, dotEntry_cluster (by decide), Nat.mod_eq_of_lt (mid.trans (by decide))]
  · unfold display
    rw [fresh.dotDot]
    exact dotEntry_dotDot
  · unfold clusterOf
    rw [fresh.dotDot, dotEntry_cluster (by decide), Nat.mod_eq_of_lt short]

theorem FreshDir.object {disk d : Nat → Sector} {c parent : Nat} (fresh : FreshDir g disk d c parent)
    (per : 0 < g.sectorsPerCluster) (chains : ChainTree g disk) (low : 2 ≤ c) (bound : c < g.totalEntries)
    (short : c < 2 ^ 16) (free : fatEntry g disk c = 0) (shortP : parent < 2 ^ 16) : NewObject g d c parent := by
  have frame := fresh.frame low free
  have chain := fresh.chain low bound short
  have own : fileClusters g d c = [c] := fileClusters_chain chain
  have nobody : ∀ x ∈ fileClusters g d c, Unowned g d x := by
    intro x mem y owns
    rw [own, List.mem_singleton] at mem
    subst mem
    obtain ⟨p, tree, holds, mem⟩ := owns
    have edit := chains.framed_edit frame fun _ _ _ _ => id
    rcases edit.holds tree holds with ⟨old, -, was, same, -⟩ | ⟨-, is⟩
    · rw [DirEdit.clusterOf_congr same, (frame.file (chains.intact p y old was) fun _ _ => id).2] at mem
      exact (fileClusters_cells (chains.intact p y old was) x mem).taken free
    · cases is
  by_cases mid : c < fat16EocMin
  · have dots := fresh.dotsOf per low bound mid shortP
    obtain ⟨two, blank⟩ := fresh.entries per low bound mid
    refine ⟨chain.nonzero, chain.intact, nobody, fun y mem => ?_, blank, fun _ => dots⟩
    rw [two, List.mem_cons, List.mem_singleton] at mem
    rcases mem with rfl | rfl
    · exact (dots.own chain.nonzero).1
    · exact (dots.own chain.nonzero).2
  · have none : dirSlots g d c = [] := dirSlots_high chain.nonzero mid
    refine ⟨chain.nonzero, chain.intact, nobody, fun y mem => ?_, ?_, fun low => absurd low mid⟩
    · unfold live at mem
      rw [none] at mem
      cases mem
    · rw [none]
      exact blank_of_zero fun x mem => absurd mem List.not_mem_nil

theorem slotOf_cases (g : Geometry) (s : Fat) (dir : Option Nat) (name : List (BitVec 8)) :
    (∃ l, slotOf g s dir name = some l ∧ s.count < fatMaxNodes) ∨ slotOf g s dir name = none ∨ fatMaxNodes ≤ s.count := by
  cases found : slotOf g s dir name with
  | none => exact .inr (.inl rfl)
  | some l =>
    by_cases left : s.count < fatMaxNodes
    · exact .inl ⟨l, rfl, left⟩
    · exact .inr (.inr (by omega))

theorem Intact.first_short {disk : Nat → Sector} {first : Nat} (intact : Intact g disk first) : first < 2 ^ 16 := by
  by_cases root : first = 0
  · rw [root]
    decide
  · exact ((intact.resolve_left root).cells _ (intact.resolve_left root).mem_first).short

theorem create_effect (calm : s.Calm) (enough : fullFuel ≤ fuel) (intact : Intact g s.disk (s.metaOf dir).firstCluster)
    (name : List (BitVec 8)) :
    ∃ t e, fatDirCreate g fuel s dir name = some (t, e) ∧ t.Calm ∧ (e ≠ 0 ∧ t.disk = s.disk ∨
      e = 0 ∧ (slotOf g s dir name = none ∨ fatMaxNodes ≤ s.count) ∧ ∃ d, t = s.withDisk d ∧
        placed g s.disk (s.metaOf dir).firstCluster (newEntry name attrArchive 0) = some d) := by
  rcases slotOf_cases g s dir name with ⟨l, found, left⟩ | missing
  · exact ⟨_, _, create_found calm enough intact found left, calm, .inl ⟨by decide, rfl⟩⟩
  have call := create_missing calm enough intact missing
  cases is : placed g s.disk (s.metaOf dir).firstCluster (newEntry name attrArchive 0) with
  | none =>
    rw [is] at call
    exact ⟨_, _, call, calm, .inl ⟨by decide, rfl⟩⟩
  | some d =>
    rw [is] at call
    exact ⟨_, _, call, calm, .inr ⟨rfl, missing, d, rfl, rfl⟩⟩

theorem mkdir_effect (fats : 0 < g.numFats) (per : 0 < g.sectorsPerCluster) (small : g.totalEntries ≤ 2 ^ 16)
    (calm : s.Calm) (enough : fullFuel ≤ fuel) (intact : Intact g s.disk (s.metaOf dir).firstCluster) (name : List (BitVec 8)) :
    ∃ t e, fatDirMkdir g fuel s dir name = some (t, e) ∧ t.Calm ∧ (e ≠ 0 ∧ t.disk = s.disk ∨
      (slotOf g s dir name = none ∨ fatMaxNodes ≤ s.count) ∧ ∃ c, freeCluster g s.disk = some c ∧
        (e ≠ 0 ∧ t.disk = madeDir g s.disk c (s.metaOf dir).firstCluster ∨
          e = 0 ∧ ∃ d, t = s.withDisk d ∧ placed g (madeDir g s.disk c (s.metaOf dir).firstCluster)
            (s.metaOf dir).firstCluster (newEntry name attrDirectory c) = some d)) := by
  rcases slotOf_cases g s dir name with ⟨l, found, left⟩ | missing
  · exact ⟨_, _, mkdir_found calm enough intact found left, calm, .inl ⟨by decide, rfl⟩⟩
  cases free : freeCluster g s.disk with
  | none => exact ⟨_, _, mkdir_full calm enough intact missing free, calm, .inl ⟨by decide, rfl⟩⟩
  | some c =>
    obtain ⟨low, bound, zero⟩ := freeCluster_some free
    have fresh : FreshDir g s.disk (madeDir g s.disk c (s.metaOf dir).firstCluster) c (s.metaOf dir).firstCluster :=
      madeDir_made fats per low bound (bound.trans_le small)
    have intact' := ((fresh.frame low zero).object intact fun _ _ => id).1
    have call := mkdir_missing per calm enough intact missing free intact'
    cases is : placed g (madeDir g s.disk c (s.metaOf dir).firstCluster) (s.metaOf dir).firstCluster
        (newEntry name attrDirectory c) with
    | none =>
      rw [is] at call
      exact ⟨_, _, call, calm, .inr ⟨missing, c, rfl, .inl ⟨by decide, rfl⟩⟩⟩
    | some d =>
      rw [is] at call
      exact ⟨_, _, call, calm, .inr ⟨missing, c, rfl, .inr ⟨rfl, d, rfl, is⟩⟩⟩

/-- An entry that may be added leaves the tree a tree, wherever there is room for it. -/
theorem VolumeTree.placed {disk d : Nat → Sector} {first : Nat} {bytes : List (BitVec 8)} (t : VolumeTree g disk)
    (fats : 0 < g.numFats) (per : 0 < g.sectorsPerCluster) (small : g.totalEntries ≤ 2 ^ 16) (tree : InTree g disk first)
    (length : bytes.length = 32) (goes : ofBytes bytes 0 ≠ 0#8) (may : MayAdd g disk bytes first)
    (is : Isunux.placed g disk first bytes = some d) : VolumeTree g d := by
  obtain ⟨new, added, -⟩ := placed_added fats per (t.dir tree) (t.blank first tree)
    (fun _ c free => (freeCluster_some free).2.1.trans_le small) length goes is
  exact t.added tree added may

section Steps

variable (fats : 0 < g.numFats) (per : 0 < g.sectorsPerCluster) (small : g.totalEntries ≤ 2 ^ 16) (enough : fullFuel ≤ fuel)
  (calm : s.Calm) (tree : VolumeTree g s.disk) (looked : JustLookedUp g s dir)

include enough calm tree looked in
theorem lookup_keeps (name : List (BitVec 8)) : ∃ t r, fatDirLookup g fuel s dir name = some (t, r) ∧ t.Calm ∧ VolumeTree g t.disk := by
  have intact := tree.dir (looked.inTree tree)
  rcases slotOf_cases g s dir name with ⟨l, found, left⟩ | missing
  · exact ⟨_, _, lookup_found calm enough intact found left, calm, tree⟩
  · exact ⟨_, _, lookup_missing calm enough intact missing, calm, tree⟩

include fats per small enough calm tree looked in
theorem create_keeps (plain : 0#8 ∉ name) :
    ∃ t e, fatDirCreate g fuel s dir name = some (t, e) ∧ t.Calm ∧ VolumeTree g t.disk := by
  have inTree := looked.inTree tree
  obtain ⟨t, e, call, calm', effect⟩ := create_effect calm enough (tree.dir inTree) name
  refine ⟨t, e, call, calm', ?_⟩
  rcases effect with ⟨-, same⟩ | ⟨-, -, d, rfl, is⟩
  · rw [same]
    exact tree
  · exact tree.placed fats per small inTree newEntry_length (newEntry_first ▸ firstByte_ne_zero plain)
      (.inl ⟨newEntry_cluster, newEntry_file⟩) is

include fats per small tree looked in
/-- The tree is there while the cluster of a new directory is prepared, and may then have its entry. -/
theorem VolumeTree.prepared {c : Nat} (free : freeCluster g s.disk = some c) (name : List (BitVec 8)) :
    VolumeTree g (madeDir g s.disk c (s.metaOf dir).firstCluster) ∧
      InTree g (madeDir g s.disk c (s.metaOf dir).firstCluster) (s.metaOf dir).firstCluster ∧
      MayAdd g (madeDir g s.disk c (s.metaOf dir).firstCluster) (newEntry name attrDirectory c) (s.metaOf dir).firstCluster := by
  have inTree := looked.inTree tree
  obtain ⟨low, bound, zero⟩ := freeCluster_some free
  have short : c < 2 ^ 16 := bound.trans_le small
  have fresh : FreshDir g s.disk (madeDir g s.disk c (s.metaOf dir).firstCluster) c (s.metaOf dir).firstCluster :=
    madeDir_made fats per low bound short
  have frame := fresh.frame low zero
  have chains := tree.toChainTree.framed (fun _ => (0, 0)) frame (fun _ _ _ _ => id) fun _ _ _ _ => .inl fun _ _ => id
  have cluster : read16 (ofBytes (newEntry name attrDirectory c)) 26 = c :=
    newEntry_cluster.trans (Nat.mod_eq_of_lt short)
  refine ⟨tree.framed frame (fun _ _ _ _ => id) chains, tree.framed_tree frame (fun _ _ _ _ => id) inTree, .inr ?_⟩
  rw [cluster]
  exact fresh.object per tree.toChainTree low bound short zero (tree.dir inTree).first_short

include fats per small enough calm tree looked in
theorem mkdir_keeps (plain : 0#8 ∉ name) :
    ∃ t e, fatDirMkdir g fuel s dir name = some (t, e) ∧ t.Calm ∧ VolumeTree g t.disk := by
  have intact := tree.dir (looked.inTree tree)
  obtain ⟨t, e, call, calm', effect⟩ := mkdir_effect fats per small calm enough intact name
  refine ⟨t, e, call, calm', ?_⟩
  rcases effect with ⟨-, same⟩ | ⟨-, c, free, made⟩
  · rw [same]
    exact tree
  obtain ⟨tree', inTree', may⟩ := tree.prepared fats per small looked free name
  rcases made with ⟨-, same⟩ | ⟨-, d, rfl, is⟩
  · rw [same]
    exact tree'
  · exact tree'.placed fats per small inTree' newEntry_length (newEntry_first ▸ firstByte_ne_zero plain) may is

include fats enough calm tree looked in
/-- An unlink that spares the directory's own entries removes one of the others, or nothing. -/
theorem unlink_effect (spares : SparesDots g s (.unlink dir name)) :
    ∃ t e, fatDirUnlink g fuel s dir name = some (t, e) ∧ t.Calm ∧
      (t.disk = s.disk ∨ ∃ l, Holds g s.disk (s.metaOf dir).firstCluster l ∧
        Removed g s.disk t.disk (s.metaOf dir).firstCluster l) := by
  have inTree := looked.inTree tree
  have intact := tree.dir inTree
  rcases slotOf_cases g s dir name with ⟨l, found, left⟩ | missing
  · obtain ⟨mem, -⟩ := slotOf_live found
    have chain := tree.entry inTree mem
    have call := unlink_found fats calm enough intact found left chain
    by_cases refused : entryType (rawAt s.disk l) = .dir ∧
        ¬ ∀ x ∈ live g s.disk (clusterOf s.disk l), isDots (display s.disk x) = true
    · rw [if_pos refused] at call
      exact ⟨_, _, call, calm, .inl rfl⟩
    · rw [if_neg refused] at call
      have holds : Holds g s.disk (s.metaOf dir).firstCluster l := by
        refine ⟨mem, fun dots => refused ⟨(tree.ownDots inTree mem dots).2, fun bare => ?_⟩⟩
        obtain ⟨x, inside, other⟩ := spares left l found dots
        exact other (bare x inside)
      refine ⟨_, _, call, calm, .inr ⟨l, holds, removed_entry fats intact (tree.blank _ inTree) mem chain fun c freed inHome => ?_⟩⟩
      have owns := freed_owned inTree holds freed
      rcases tree.region_owner inTree inHome with ⟨-, rfl⟩ | ⟨sub, -, y, ownsY, is, -⟩
      · exact absurd (tree.cell owns).low (by omega)
      · obtain rfl := tree.apart y l c ownsY owns
        exact tree.not_own inTree sub holds is
  · exact ⟨_, _, unlink_missing calm enough intact missing, calm, .inl rfl⟩

include fats enough calm tree looked in
theorem unlink_keeps (spares : SparesDots g s (.unlink dir name)) :
    ∃ t e, fatDirUnlink g fuel s dir name = some (t, e) ∧ t.Calm ∧ VolumeTree g t.disk := by
  obtain ⟨t, e, call, calm', effect⟩ := unlink_effect fats enough calm tree looked spares
  refine ⟨t, e, call, calm', ?_⟩
  rcases effect with same | ⟨l, holds, removed⟩
  · rw [same]
    exact tree
  · exact tree.removed (looked.inTree tree) holds removed

include fats per small calm tree in
theorem write_keeps {node : Nat} (file : FileLookedUp g s node) (src : Nat → BitVec 8) (count offset : Nat) :
    (fatFileWrite g s node src count offset).1.Calm ∧ VolumeTree g (fatFileWrite g s node src count offset).1.disk := by
  obtain ⟨dir, l, looked, mem, isFile, is⟩ := file
  have inTree := looked.inTree tree
  have holds := tree.file inTree mem isFile
  have cluster : (s.nodes node).priv.firstCluster = clusterOf s.disk l := entryNode_cluster is
  have place : ((s.nodes node).priv.direntLba, (s.nodes node).priv.direntOffset) = l := by rw [is]; rfl
  have written := fatFileWrite_writes fats per (fun c bound => bound.trans_le small) calm tree.toChainTree inTree holds
    cluster place src count offset
  exact ⟨fatFileWrite_keeps calm node src count offset, tree.written fats inTree holds isFile written⟩

end Steps

end Calls

section Runs

variable {g : Geometry} {fuel : Nat} {s : Fat}

theorem fatStep_tree (fats : 0 < g.numFats) (per : 0 < g.sectorsPerCluster) (small : g.totalEntries ≤ 2 ^ 16)
    (enough : fullFuel ≤ fuel) (calm : s.Calm) (tree : VolumeTree g s.disk) {op : FatOp} (looked : OnLookedUp g s op)
    (spares : SparesDots g s op) : ∃ t, fatStep g fuel s op = some t ∧ t.Calm ∧ VolumeTree g t.disk := by
  cases op with
  | lookup dir name =>
    obtain ⟨t, r, call, after⟩ := lookup_keeps enough calm tree looked name
    exact ⟨t, by rw [fatStep, call, Option.map_some], after⟩
  | write node src count offset => exact ⟨_, rfl, write_keeps fats per small calm tree looked src count offset⟩
  | create dir name =>
    obtain ⟨t, e, call, after⟩ := create_keeps fats per small enough calm tree looked.1 looked.2
    exact ⟨t, by rw [fatStep, call, Option.map_some], after⟩
  | mkdir dir name =>
    obtain ⟨t, e, call, after⟩ := mkdir_keeps fats per small enough calm tree looked.1 looked.2
    exact ⟨t, by rw [fatStep, call, Option.map_some], after⟩
  | unlink dir name =>
    obtain ⟨t, e, call, after⟩ := unlink_keeps fats enough calm tree looked spares
    exact ⟨t, by rw [fatStep, call, Option.map_some], after⟩

theorem fatRun_tree (fats : 0 < g.numFats) (per : 0 < g.sectorsPerCluster) (small : g.totalEntries ≤ 2 ^ 16)
    (enough : fullFuel ≤ fuel) (ops : List FatOp) : ∀ {s : Fat}, s.Calm → VolumeTree g s.disk →
      Run.Along (fatCalls g fuel) (WhileRunning fun s op => OnLookedUp g s op ∧ SparesDots g s op) (some s) ops →
        ∃ t, (Run.run (fatCalls g fuel) (some s) ops).1 = some t ∧ t.Calm ∧ VolumeTree g t.disk := by
  induction ops with
  | nil =>
    intro s calm tree _
    exact ⟨s, rfl, calm, tree⟩
  | cons op rest ih =>
    rintro s calm tree ⟨⟨looked, spares⟩, along⟩
    obtain ⟨t, step, calm', tree'⟩ := fatStep_tree fats per small enough calm tree looked spares
    have next : (fatCalls g fuel (some s) op).1 = some t := step
    rw [next] at along
    rw [Run.run_cons, next]
    exact ih calm' tree' along

end Runs

/-- From a freshly formatted volume on, entries have chains of their own as long as no directory is
made to remove the entry of itself. -/
theorem fat_metadata_consistent (g : Geometry) (fuel : Nat) (s : Fat) (enough : fullFuel ≤ fuel)
    (fresh : FreshlyFormatted g s) (ops : List FatOp)
    (along : Run.Along (fatCalls g fuel) (WhileRunning fun s op => OnLookedUp g s op ∧ SparesDots g s op) (some s) ops) :
    ∃ t, (Run.run (fatCalls g fuel) (some s) ops).1 = some t ∧ Consistent g t.disk := by
  obtain ⟨t, run, -, tree⟩ := fatRun_tree fresh.fats fresh.per fresh.small enough ops fresh.calm fresh.tree along
  exact ⟨t, run, tree.consistent⟩

def formattedVolume : Fat where
  disk := fun lba i =>
    if lba = 0 then smallBoot 1#8 1#8 i
    else if lba = 1 ∧ i < 4 then 0xFF#8
    else 0#8
  nodes := fun _ => ⟨.file, [], none, 0#64, ⟨0, 0, 0, 0⟩⟩
  count := 0
  outcomes := fun _ => .done

theorem formattedVolume_fresh : FreshlyFormatted (geometryOf (smallBoot 1#8 1#8)) formattedVolume := by
  refine ⟨rfl, by decide, by decide, by decide, by decide +kernel, blank_of_zero fun x mem => ?_⟩
  have inRoot : x.1 ∈ rootLbas (geometryOf (smallBoot 1#8 1#8)) := (mem_slotsOf.mp mem).1
  have roots : rootLbas (geometryOf (smallBoot 1#8 1#8)) = [2] := by decide
  have sector : x.1 = 2 := by simpa [roots] using inRoot
  funext i
  unfold rawAt entryAt zeroEntry
  rw [sector]
  exact ite_self _

deriving instance DecidableEq for FatNode

/-- Node 0 is that of the entry at the start of the root directory, a directory. -/
abbrev FirstIsDir (s : Fat) : Prop :=
  (2, 0) ∈ live (geometryOf (smallBoot 1#8 1#8)) s.disk 0 ∧ entryType (rawAt s.disk (2, 0)) = .dir ∧
    s.nodes 0 = entryNode none (display s.disk (2, 0)) (rawAt s.disk (2, 0)) 2 0

theorem FirstIsDir.looked {s : Fat} (first : FirstIsDir s) : JustLookedUp (geometryOf (smallBoot 1#8 1#8)) s (some 0) :=
  .sub .root first.1 first.2.1 first.2.2

theorem whileRunning_of_shown {ok : Fat → FatOp → Prop} {shows : Fat → Prop} [DecidablePred shows] {op : FatOp}
    (r : Option Fat) (shown : (r.all fun s => decide (shows s)) = true) (meets : ∀ s, shows s → ok s op) :
    WhileRunning ok r op := by
  cases r with
  | none => trivial
  | some s => exact meets s (of_decide_eq_true shown)

/-- A directory gets a file, which is written. The directory's own entry stays then, and
the file is removed. -/
def busyRun : List FatOp :=
  [.mkdir none [0x64#8], .lookup none [0x64#8], .create (some 0) [0x66#8], .lookup (some 0) [0x66#8],
    .write 1 (fun _ => 0x78#8) 3 0, .unlink (some 0) dotName, .unlink (some 0) [0x66#8]]

set_option maxRecDepth 20000 in
theorem busyRun_along : Run.Along (fatCalls (geometryOf (smallBoot 1#8 1#8)) fullFuel)
    (WhileRunning fun s op => OnLookedUp (geometryOf (smallBoot 1#8 1#8)) s op ∧ SparesDots (geometryOf (smallBoot 1#8 1#8)) s op)
    (some formattedVolume) busyRun := by
  refine ⟨⟨⟨.root, by decide⟩, trivial⟩, ?_, ?_, ?_, ?_, ?_, ?_, trivial⟩
  · exact whileRunning_of_shown (Run.run (fatCalls (geometryOf (smallBoot 1#8 1#8)) fullFuel) (some formattedVolume)
      (busyRun.take 1)).1 (by decide +kernel) fun s (_ : True) => ⟨.root, trivial⟩
  · exact whileRunning_of_shown (Run.run (fatCalls (geometryOf (smallBoot 1#8 1#8)) fullFuel) (some formattedVolume)
      (busyRun.take 2)).1 (by decide +kernel) fun s (first : FirstIsDir s) => ⟨⟨first.looked, by decide⟩, trivial⟩
  · exact whileRunning_of_shown (Run.run (fatCalls (geometryOf (smallBoot 1#8 1#8)) fullFuel) (some formattedVolume)
      (busyRun.take 3)).1 (by decide +kernel) fun s (first : FirstIsDir s) => ⟨first.looked, trivial⟩
  · exact whileRunning_of_shown (Run.run (fatCalls (geometryOf (smallBoot 1#8 1#8)) fullFuel) (some formattedVolume)
      (busyRun.take 4)).1 (by decide +kernel) fun s (shown : FirstIsDir s ∧
        (3, 64) ∈ live (geometryOf (smallBoot 1#8 1#8)) s.disk (s.metaOf (some 0)).firstCluster ∧
          entryType (rawAt s.disk (3, 64)) = .file ∧
          s.nodes 1 = entryNode (some 0) (display s.disk (3, 64)) (rawAt s.disk (3, 64)) 3 64) =>
      ⟨⟨some 0, (3, 64), shown.1.looked, shown.2⟩, trivial⟩
  -- the directory still holds the file
  · exact whileRunning_of_shown (Run.run (fatCalls (geometryOf (smallBoot 1#8 1#8)) fullFuel) (some formattedVolume)
      (busyRun.take 5)).1 (by decide +kernel) fun s (shown : FirstIsDir s ∧
        slotOf (geometryOf (smallBoot 1#8 1#8)) s (some 0) dotName = some (3, 0) ∧
          (3, 64) ∈ live (geometryOf (smallBoot 1#8 1#8)) s.disk (clusterOf s.disk (3, 0)) ∧
          ¬ isDots (display s.disk (3, 64)) = true) =>
      ⟨shown.1.looked, fun _ l found _ => by
        obtain rfl := Option.some.inj (shown.2.1.symm.trans found)
        exact ⟨(3, 64), shown.2.2⟩⟩
  · exact whileRunning_of_shown (Run.run (fatCalls (geometryOf (smallBoot 1#8 1#8)) fullFuel) (some formattedVolume)
      (busyRun.take 6)).1 (by decide +kernel) fun s (shown : FirstIsDir s ∧
        slotOf (geometryOf (smallBoot 1#8 1#8)) s (some 0) [0x66#8] = some (3, 64)) =>
      ⟨shown.1.looked, fun _ l found dots => by
        obtain rfl := Option.some.inj (shown.2.symm.trans found)
        simpa using dots.place⟩

/-- With a directory and what happens in it. -/
theorem formattedVolume_consistent :
    ∃ t, (Run.run (fatCalls (geometryOf (smallBoot 1#8 1#8)) fullFuel) (some formattedVolume) busyRun).1 = some t ∧
      Consistent (geometryOf (smallBoot 1#8 1#8)) t.disk :=
  fat_metadata_consistent (geometryOf (smallBoot 1#8 1#8)) fullFuel formattedVolume le_rfl formattedVolume_fresh
    busyRun busyRun_along

/-- A directory is made, looked up and asked to remove the entry of itself. -/
def selfRemoval : List FatOp := [.mkdir none [0x64#8], .lookup none [0x64#8], .unlink (some 0) dotName]

theorem selfRemoval_looked : Run.Along (fatCalls (geometryOf (smallBoot 1#8 1#8)) fullFuel)
    (WhileRunning (OnLookedUp (geometryOf (smallBoot 1#8 1#8)))) (some formattedVolume) selfRemoval := by
  refine ⟨⟨.root, by decide⟩, ?_, ?_, trivial⟩
  · exact whileRunning_of_shown (Run.run (fatCalls (geometryOf (smallBoot 1#8 1#8)) fullFuel) (some formattedVolume)
      (selfRemoval.take 1)).1 (by decide +kernel) fun s (_ : True) => .root
  · exact whileRunning_of_shown (Run.run (fatCalls (geometryOf (smallBoot 1#8 1#8)) fullFuel) (some formattedVolume)
      (selfRemoval.take 2)).1 (by decide +kernel) fun s (first : FirstIsDir s) => first.looked

/-- The directory's cluster is free while its entry is there. -/
theorem selfRemoval_dangles :
    FreshlyFormatted (geometryOf (smallBoot 1#8 1#8)) formattedVolume ∧
    Run.Along (fatCalls (geometryOf (smallBoot 1#8 1#8)) fullFuel) (WhileRunning (OnLookedUp (geometryOf (smallBoot 1#8 1#8))))
      (some formattedVolume) selfRemoval ∧
    ∃ t, (Run.run (fatCalls (geometryOf (smallBoot 1#8 1#8)) fullFuel) (some formattedVolume) selfRemoval).1 = some t ∧
      ¬ Consistent (geometryOf (smallBoot 1#8 1#8)) t.disk := by
  refine ⟨formattedVolume_fresh, selfRemoval_looked, ?_⟩
  have freed : ((Run.run (fatCalls (geometryOf (smallBoot 1#8 1#8)) fullFuel) (some formattedVolume) selfRemoval).1).map
      (fun t => (live (geometryOf (smallBoot 1#8 1#8)) t.disk 0, clusterOf t.disk (2, 0),
        fatEntry (geometryOf (smallBoot 1#8 1#8)) t.disk 2)) = some ([(2, 0)], 2, 0) := by decide +kernel
  obtain ⟨t, run, is⟩ := Option.map_eq_some_iff.mp freed
  simp only [Prod.mk.injEq] at is
  obtain ⟨inRoot, cluster, zero⟩ := is
  refine ⟨t, run, fun consistent => ?_⟩
  obtain ⟨xs, chain⟩ := consistent.chains 0 (2, 0) .root (by rw [inRoot]; simp) (by rw [cluster]; decide)
  rw [cluster] at chain
  exact (chain.cells _ chain.mem_first).taken zero

end Isunux
