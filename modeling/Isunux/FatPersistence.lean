import Isunux.FatFills
import Isunux.FatMaps

/-! What a write to a file of a well-formed volume leaves behind: the file with the bytes in
it, and everything else as it was. -/
namespace Isunux

section Statements

variable (g : Geometry)

/-- Chains of entries end, do not meet and are as long as the sizes of files say; no entry that
could not be linked to is free. -/
structure WellFormed (disk : Nat → Sector) : Prop extends ChainTree g disk where
  fats : 0 < g.numFats
  per : 0 < g.sectorsPerCluster
  sizes : ∀ first l, InTree g disk first → Holds g disk first l → entryType (rawAt disk l) = .file →
    (fileClusters g disk (clusterOf disk l)).length = clustersFor g (read32 (rawAt disk l) 28)
  spare : ∀ c, fat16Bad ≤ c → c < g.totalEntries → fatEntry g disk c ≠ 0

/-- What the entry of a file says of it. -/
def entryMeta (disk : Nat → Sector) (l : Loc) : FatMeta := ⟨clusterOf disk l, read32 (rawAt disk l) 28, l.1, l.2⟩

/-- The node is that of a file whose entry is found under the name, and says what the entry says. -/
structure FileNode (s : Fat) (dir : Option Nat) (name : List (BitVec 8)) (l : Loc) (node : Nat) : Prop where
  tree : InTree g s.disk (s.metaOf dir).firstCluster
  found : slotOf g s dir name = some l
  real : ¬ OwnDots g s.disk (s.metaOf dir).firstCluster l
  isFile : entryType (rawAt s.disk l) = .file
  agrees : (s.nodes node).priv = entryMeta s.disk l
  apart : dir ≠ some node

def nodeBytes (s : Fat) (node : Nat) : List (BitVec 8) := (fatFileRead g s node (s.nodes node).priv.fileSize 0).2

/-- A list with a stretch of it replaced. -/
def spliced (old : List (BitVec 8)) (offset : Nat) (bytes : List (BitVec 8)) : List (BitVec 8) :=
  old.take offset ++ bytes ++ old.drop (offset + bytes.length)

/-- A lookup hands out a file node of this size through which these bytes are read. -/
def FindsFile (fuel : Nat) (t : Fat) (dir : Option Nat) (name : List (BitVec 8)) (size : Nat) (bytes : List (BitVec 8)) : Prop :=
  ∃ u i, fatDirLookup g fuel t dir name = some (u, some i) ∧ (u.nodes i).type = .file ∧ (u.nodes i).priv.fileSize = size ∧
    ∀ count offset, fatFileRead g u i count offset = (u, (bytes.drop offset).take count)

/-- Directories list the same entries, and all but the one at `l` are the same; files at other
entries have the same contents. -/
structure OthersUntouched (s t : Fat) (l : Loc) : Prop where
  dirs : ∀ first, InTree g s.disk first → InTree g t.disk first ∧ live g t.disk first = live g s.disk first ∧
    ∀ x ∈ live g s.disk first, x ≠ l → rawAt t.disk x = rawAt s.disk x
  entry : ∀ i < 26, rawAt t.disk l i = rawAt s.disk l i
  files : ∀ first x, InTree g s.disk first → Holds g s.disk first x → entryType (rawAt s.disk x) = .file → x ≠ l →
    fileBytes g t.disk (clusterOf t.disk x) (read32 (rawAt t.disk x) 28) =
        fileBytes g s.disk (clusterOf s.disk x) (read32 (rawAt s.disk x) 28) ∧
      ∀ j, (s.nodes j).priv = entryMeta s.disk x →
        ∀ count offset, (fatFileRead g t j count offset).2 = (fatFileRead g s j count offset).2

end Statements

section Trees

variable {g : Geometry} {disk d disk' : Nat → Sector} {home first size p : Nat} {l x : Loc} {xs : List Nat}
  {entry : Option Loc}

theorem DirEdit.forth (edit : DirEdit g disk disk' home entry fun _ => False)
    (other : ∀ x, entry = some x → entryType (rawAt disk x) ≠ .dir) (tree : InTree g disk p) : InTree g disk' p := by
  induction tree with
  | root => exact .root
  | @sub p x parent holds isDir ih =>
    have differs : entry ≠ some x := fun is => other x is isDir
    have kept : x ∈ live g disk' p ∧ rawAt disk' x = rawAt disk x := by
      by_cases here : p = home
      · subst here
        exact ⟨(edit.inside x differs).mpr holds.mem, edit.same x differs holds.mem⟩
      · obtain ⟨lives, raw⟩ := edit.others p parent id here
        exact ⟨lives ▸ holds.mem, raw x holds.mem⟩
    rw [← DirEdit.clusterOf_congr kept.2]
    exact .sub ih ⟨kept.1, fun dots => holds.real ((DirEdit.ownDots_congr kept.2).mp dots)⟩ (kept.2 ▸ isDir)

/-- A file was given clusters and bytes in them, in `d`, and its entry was written again. -/
structure FileWritten (g : Geometry) (disk d disk' : Nat → Sector) (l : Loc) (first size : Nat) (xs : List Nat) : Prop where
  chains : ChainTree g disk'
  dirs : ∀ p, InTree g disk p → InTree g disk' p ∧ live g disk' p = live g disk p ∧
    ∀ x ∈ live g disk p, x ≠ l → rawAt disk' x = rawAt disk x
  back : ∀ p x, InTree g disk' p → Holds g disk' p x → x ≠ l →
    InTree g disk p ∧ Holds g disk p x ∧ rawAt disk' x = rawAt disk x
  files : ∀ p x, InTree g disk p → Holds g disk p x → entryType (rawAt disk x) = .file → x ≠ l →
    Intact g disk' (clusterOf disk x) ∧ fileClusters g disk' (clusterOf disk x) = fileClusters g disk (clusterOf disk x) ∧
      ∀ c ∈ fileClusters g disk (clusterOf disk x), ∀ lba ∈ clusterLbas g c, disk' lba = disk lba
  front : ∀ i < 26, rawAt disk' l i = rawAt disk l i
  cluster : clusterOf disk' l = first
  size : read32 (rawAt disk' l) 28 = size
  chain : ChainOf g disk' first xs
  table : ∀ c < g.totalEntries, fatEntry g disk' c = fatEntry g d c
  sectors : ∀ c ∈ xs, ∀ lba ∈ clusterLbas g c, disk' lba = d lba

theorem file_written (chains : ChainTree g disk) (fats : 0 < g.numFats) (tree : InTree g disk home) (holds : Holds g disk home l)
    (isFile : entryType (rawAt disk l) = .file) (writing : Writing g disk d l first xs)
    (same : clusterOf disk l ≠ 0 → first = clusterOf disk l) (short : size < 2 ^ 32) :
    FileWritten g disk d (putAt d l 26 (metaBytes first size)) l first size xs := by
  have away := dirs_away chains isFile
  obtain ⟨intact, regions, slots⟩ := writing.frame.object (chains.dir tree) (away home tree)
  obtain ⟨lives, raw, -⟩ := writing.frame.directory (chains.dir tree) (away home tree)
  have tree' := chains.framed_tree writing.frame away tree
  have chains' := writing.chains chains isFile same
  obtain ⟨holds', rawL⟩ := chains.framed_holds writing.frame away tree holds
  have isFile' : entryType (rawAt d l) = .file := rawL ▸ isFile
  have rewritten : Rewritten g d (putAt d l 26 (metaBytes first size)) home l first size :=
    rewritten_entry fats (chains'.dir tree') holds'.mem
  have after : ChainTree g (putAt d l 26 (metaBytes first size)) :=
    chains.written fats tree holds isFile (.inr ⟨d, first, xs, writing, same, .inr ⟨size, rfl⟩⟩)
  generalize putAt d l 26 (metaBytes first size) = disk' at rewritten after
  have filled := chains.framed_edit writing.frame away
  have edit := chains'.rewritten_edit tree' isFile' rewritten
  have low := writing.chain.cells first writing.chain.mem_first
  have ownSectors : ∀ c, Cell g disk c ∨ c ∈ xs → c ∉ regionsOf g disk home → ∀ lba ∈ clusterLbas g c, disk' lba = d lba := by
    intro c is apart lba inside
    have cell : 2 ≤ c ∧ c < 2 ^ 16 := is.elim (fun cell => ⟨cell.low, cell.short⟩) fun mem =>
      have cell := writing.chain.cells c mem
      ⟨cell.low, cell.short⟩
    exact rewritten.sectors c (.inr cell) (regions ▸ apart) lba (clusterLbas_region cell.1 ▸ inside)
  refine ⟨after, fun p there => ?_, fun p x there holdsX other => ?_, fun p x there holdsX fileX other => ?_, fun i front => ?_, ?_, ?_, ?_,
    rewritten.table, fun c mem lba inside => ?_⟩
  · obtain ⟨livesP, rawP, -⟩ := writing.frame.directory (chains.dir there) (away p there)
    have there' := chains.framed_tree writing.frame away there
    have forth : InTree g disk' p := edit.forth (fun x is => by
      obtain rfl := Option.some.inj is
      rw [isFile']
      exact nofun) there'
    by_cases here : p = home
    · subst here
      exact ⟨forth, rewritten.entries.trans lives, fun x mem other =>
        (rewritten.other x (realSlots_sub (lives ▸ mem)) other).trans (raw x mem)⟩
    · obtain ⟨lives', raw'⟩ := edit.others p there' id here
      exact ⟨forth, lives'.trans livesP, fun x mem _ => (raw' x (livesP ▸ mem)).trans (rawP x mem)⟩
  · rcases edit.holds there holdsX with ⟨there', -, holds', same', -⟩ | ⟨-, is⟩
    · rcases filled.holds there' holds' with ⟨old, -, was, same'', -⟩ | ⟨-, is⟩
      · exact ⟨old, was, same'.trans same''⟩
      · cases is
    · exact absurd (Option.some.inj is).symm other
  · have loose : ∀ c ∈ fileClusters g disk (clusterOf disk x), ¬ Alterable g disk l c := fun c mem =>
      not_alterable chains ⟨p, there, holdsX, mem⟩ other
    obtain ⟨intactX, clusters⟩ := writing.frame.file (chains.intact p x there holdsX) loose
    obtain ⟨intactX', clusters'⟩ := rewritten.object intactX
    refine ⟨intactX', clusters'.trans clusters, fun c mem lba inside => ?_⟩
    have cell := fileClusters_cells (chains.intact p x there holdsX) c mem
    have sub : clusterOf disk x ≠ 0 := by
      intro zero
      rw [zero] at mem
      cases mem
    have differ : clusterOf disk x ≠ home := by
      intro is
      obtain ⟨q, y, treeQ, holdsY, isDir, isY⟩ := tree.owner (is ▸ sub)
      obtain rfl := chains.same_entry treeQ there holdsY holdsX (by rw [isY]; exact is ▸ sub) (is.trans isY.symm)
      rw [fileX] at isDir
      cases isDir
    have apart := chains.apart_entry tree there holdsX sub differ
    rw [fileClusters_regions sub] at apart
    rw [ownSectors c (.inl cell) (apart c mem) lba inside]
    exact writing.frame.regions c (.inr cell) (loose c mem) lba (clusterLbas_region cell.low ▸ inside)
  · rw [rewritten.front i front, rawL]
  · rw [rewritten.cluster, Nat.mod_eq_of_lt low.short]
  · rw [rewritten.size, Nat.mod_eq_of_lt short]
  · exact writing.chain.congr fun c mem => rewritten.table c (writing.chain.cells c mem).bound
  · exact ownSectors c (.inr mem) (fun inDir => away home tree c inDir (writing.own c mem)) lba inside

end Trees

section Writes

variable {g : Geometry} {s : Fat} {dir : Option Nat} {name : List (BitVec 8)} {l : Loc} {node first : Nat} {src : Nat → BitVec 8}
  {count offset n : Nat} {d : Nat → Sector} {xs : List Nat}

theorem FileNode.holds (h : FileNode g s dir name l node) : Holds g s.disk (s.metaOf dir).firstCluster l :=
  ⟨(slotOf_live h.found).1, h.real⟩

theorem FileNode.size (h : FileNode g s dir name l node) : (s.nodes node).priv.fileSize = read32 (rawAt s.disk l) 28 := by
  rw [h.agrees]
  rfl

theorem read32_lt (b : Nat → BitVec 8) (i : Nat) : read32 b i < 2 ^ 32 := by
  have byte0 := (b i).isLt
  have byte1 := (b (i + 1)).isLt
  have byte2 := (b (i + 2)).isLt
  have byte3 := (b (i + 3)).isLt
  unfold read32
  omega

abbrev oldByte (g : Geometry) (disk : Nat → Sector) (l : Loc) : Nat → BitVec 8 :=
  chainByte g disk (fileClusters g disk (clusterOf disk l))

theorem fatFileWrite_lands (calm : s.Calm) (well : WellFormed g s.disk) (file : FileNode g s dir name l node)
    (any : 0 < count) (inFile : offset ≤ read32 (rawAt s.disk l) 28) (fits : offset + count < 2 ^ 32) :
    (fatFileWrite g s node src count offset = (s, 0) ∨ fatFileWrite g s node src count offset = (s, -enospc)) ∧
        freeCluster g s.disk = none ∨
      ∃ d first xs n, Landed g s.disk l (oldByte g s.disk l) src (read32 (rawAt s.disk l) 28) offset d first xs n count ∧
        (clusterOf s.disk l ≠ 0 → first = clusterOf s.disk l) ∧
        fatFileWrite g s node src count offset =
          (s.rewrite node d ⟨first, max (read32 (rawAt s.disk l) 28) (offset + n), l.1, l.2⟩, (n : Int)) := by
  have positive := clusterSize_pos well.per
  have sized := well.sizes _ l file.tree file.holds file.isFile
  unfold fatFileWrite
  rw [if_neg (by omega), file.agrees]
  by_cases empty : clusterOf s.disk l = 0
  · have none : fileClusters g s.disk (clusterOf s.disk l) = [] := by
      rw [empty]
      rfl
    rw [none] at sized
    have zero : read32 (rawAt s.disk l) 28 = 0 := by
      have := size_le_clusters well.per (read32 (rawAt s.disk l) 28)
      rw [← sized] at this
      simpa using this
    have start : offset = 0 := by omega
    subst start
    rw [if_pos (show (entryMeta s.disk l).firstCluster = 0 from empty)]
    simp only [fatAllocCluster_calm calm]
    cases free : freeCluster g s.disk with
    | none => exact .inl ⟨.inr rfl, rfl⟩
    | some c =>
      right
      obtain ⟨low, bound, zero'⟩ := freeCluster_some free
      have below : c < fat16Bad := by
        by_contra high
        exact well.spare c (Nat.le_of_not_lt high) bound zero'
      have used : c ≠ 0 := by omega
      obtain ⟨writing, -⟩ : Writing g s.disk (setEntry g s.disk c fat16EocMin) l c [c] ∧ _ :=
        Writing.founded well.fats empty free (below.trans (by decide))
      simp only [if_neg used]
      have calm' : ((s.withDisk (setEntry g s.disk c fat16EocMin)).setMeta node ⟨c, read32 (rawAt s.disk l) 28, l.1, l.2⟩).Calm := calm
      have priv : (((s.withDisk (setEntry g s.disk c fat16EocMin)).setMeta node
          ⟨c, read32 (rawAt s.disk l) 28, l.1, l.2⟩).nodes node).priv = ⟨c, read32 (rawAt s.disk l) 28, l.1, l.2⟩ := by
        unfold Fat.setMeta
        simp
      have filling : Filling g s.disk l (oldByte g s.disk l) src (read32 (rawAt s.disk l) 28) 0
          (setEntry g s.disk c fat16EocMin) c [c] 0 := by
        refine ⟨writing, fun x high boundX => ?_, fun i wanted => by omega⟩
        rw [fatEntry_setEntry well.fats bound boundX]
        split
        · decide
        · exact well.spare x high boundX
      have lands := writeFrom_lands well.per well.fats calm' filling any inFile fits
        (.inl (by rw [← sized]; simp)) priv
      rcases lands with ⟨-, -, atEnd⟩ | ⟨d, xs, n, landed, call⟩
      · simp at atEnd
      · refine ⟨d, c, xs, n, landed, fun sub => absurd empty sub, ?_⟩
        rw [rewrite_setMeta] at call
        rw [withDisk_nodes, file.agrees]
        exact call
  · rw [if_neg (show ¬ (entryMeta s.disk l).firstCluster = 0 from empty)]
    obtain ⟨writing, -⟩ := Writing.start well.toChainTree file.tree file.holds empty
    have filling : Filling g s.disk l (oldByte g s.disk l) src (read32 (rawAt s.disk l) 28) offset s.disk (clusterOf s.disk l)
        (fileClusters g s.disk (clusterOf s.disk l)) 0 := by
      refine ⟨writing, well.spare, fun i wanted => ?_⟩
      rw [if_neg (by omega)]
    have length : (fileClusters g s.disk (clusterOf s.disk l)).length =
        max (clustersFor g (read32 (rawAt s.disk l) 28)) (offset / g.clusterSize + 1) ∨
        (fileClusters g s.disk (clusterOf s.disk l)).length = clustersFor g (read32 (rawAt s.disk l) 28) ∧
          offset / g.clusterSize = (fileClusters g s.disk (clusterOf s.disk l)).length := by
      have most : offset / g.clusterSize ≤ clustersFor g (read32 (rawAt s.disk l) 28) :=
        (Nat.div_le_div_right inFile).trans (Nat.div_le_div_right (Nat.le_add_right _ _))
      omega
    have lands := writeFrom_lands well.per well.fats calm filling any inFile fits length file.agrees
    rcases lands with ⟨stuck, full, -⟩ | ⟨d, xs, n, landed, call⟩
    · exact .inl ⟨.inl stuck, full⟩
    · exact .inr ⟨d, _, xs, n, landed, fun _ => rfl, call⟩

theorem freeCluster_congr {disk disk' : Nat → Sector} (same : ∀ c < g.totalEntries, fatEntry g disk' c = fatEntry g disk c) :
    freeCluster g disk' = freeCluster g disk := by
  refine List.find?_congr fun c mem => ?_
  rw [same c (by have := List.mem_range'_1.mp mem; omega)]

theorem fileBytes_length {disk : Nat → Sector} {size : Nat} : (fileBytes g disk first size).length = size := by
  simp [fileBytes]

theorem WellFormed.room (well : WellFormed g s.disk) {home : Nat} (tree : InTree g s.disk home) (holds : Holds g s.disk home l)
    (isFile : entryType (rawAt s.disk l) = .file) :
    read32 (rawAt s.disk l) 28 ≤ (fileClusters g s.disk (clusterOf s.disk l)).length * g.clusterSize :=
  well.sizes _ l tree holds isFile ▸ size_le_clusters well.per _

theorem WellFormed.read (well : WellFormed g s.disk) (calm : s.Calm) {home j : Nat} (tree : InTree g s.disk home)
    (holds : Holds g s.disk home l) (isFile : entryType (rawAt s.disk l) = .file)
    (agrees : (s.nodes j).priv = entryMeta s.disk l) (count offset : Nat) :
    fatFileRead g s j count offset =
      (s, ((fileBytes g s.disk (clusterOf s.disk l) (read32 (rawAt s.disk l) 28)).drop offset).take count) :=
  fatFileRead_file well.per calm (well.intact _ l tree holds) (by rw [agrees]; rfl) (by rw [agrees]; rfl)
    (well.room tree holds isFile) count offset

theorem FileNode.nodeBytes (file : FileNode g s dir name l node) (well : WellFormed g s.disk) (calm : s.Calm) :
    Isunux.nodeBytes g s node = fileBytes g s.disk (clusterOf s.disk l) (read32 (rawAt s.disk l) 28) := by
  unfold Isunux.nodeBytes
  rw [well.read calm file.tree file.holds file.isFile file.agrees, file.size, List.drop_zero,
    List.take_of_length_le fileBytes_length.le]

theorem WellFormed.finds {fuel : Nat} (well : WellFormed g s.disk) (calm : s.Calm) (enough : fullFuel ≤ fuel)
    (left : s.count < fatMaxNodes) (tree : InTree g s.disk (s.metaOf dir).firstCluster) (found : slotOf g s dir name = some l)
    (real : ¬ OwnDots g s.disk (s.metaOf dir).firstCluster l) (isFile : entryType (rawAt s.disk l) = .file) :
    FindsFile g fuel s dir name (read32 (rawAt s.disk l) 28)
      (fileBytes g s.disk (clusterOf s.disk l) (read32 (rawAt s.disk l) 28)) := by
  have well' : WellFormed g (s.took dir l).disk := well
  have calm' : (s.took dir l).Calm := calm
  have agrees : ((s.took dir l).nodes s.count).priv = entryMeta (s.took dir l).disk l := by
    rw [took_node]
    unfold entryNode
    rw [isFile]
    rfl
  refine ⟨_, _, lookup_found calm enough (well.dir tree) found left, ?_, ?_, fun count offset => ?_⟩
  · rw [took_node]
    exact isFile
  · rw [agrees]
    rfl
  · exact well'.read calm' tree ⟨(slotOf_live found).1, real⟩ isFile agrees count offset

end Writes

section After

variable {g : Geometry} {s t : Fat} {dir : Option Nat} {name : List (BitVec 8)} {disk d disk' : Nat → Sector} {l : Loc}
  {first size offset count n : Nat} {src : Nat → BitVec 8} {xs : List Nat}

theorem FileWritten.type (h : FileWritten g disk d disk' l first size xs) : entryType (rawAt disk' l) = entryType (rawAt disk l) := by
  unfold entryType
  rw [h.front 11 (by decide)]

theorem FileWritten.clusters (h : FileWritten g disk d disk' l first size xs) : fileClusters g disk' (clusterOf disk' l) = xs := by
  rw [h.cluster, fileClusters_chain h.chain]

theorem FileWritten.wellFormed (h : FileWritten g disk d disk' l first size xs) (well : WellFormed g disk)
    (length : xs.length = clustersFor g size) (spare : ∀ c, fat16Bad ≤ c → c < g.totalEntries → fatEntry g d c ≠ 0) :
    WellFormed g disk' := by
  refine ⟨h.chains, well.fats, well.per, fun p x tree holds isFile => ?_, fun c high bound => h.table c bound ▸ spare c high bound⟩
  by_cases here : x = l
  · subst here
    rw [h.clusters, h.size]
    exact length
  · obtain ⟨tree', holds', raw⟩ := h.back p x tree holds here
    rw [raw] at isFile ⊢
    rw [DirEdit.clusterOf_congr raw, (h.files p x tree' holds' isFile here).2.1]
    exact well.sizes p x tree' holds' isFile

theorem fileBytes_congr {k : Nat} (per : 0 < g.sectorsPerCluster) (clusters : fileClusters g disk' k = fileClusters g disk k)
    (room : size ≤ (fileClusters g disk k).length * g.clusterSize)
    (same : ∀ c ∈ fileClusters g disk k, ∀ lba ∈ clusterLbas g c, disk' lba = disk lba) :
    fileBytes g disk' k size = fileBytes g disk k size := by
  unfold fileBytes
  refine List.map_congr_left fun i mem => ?_
  have low := List.mem_range.mp mem
  have bytes : chainByte g disk' (fileClusters g disk k ++ []) i = chainByte g disk (fileClusters g disk k) i :=
    chainByte_congr per (by omega) same
  rw [List.append_nil] at bytes
  rw [clusters, bytes]

theorem FileWritten.bytes (h : FileWritten g disk d disk' l first (max size (offset + n)) xs) (per : 0 < g.sectorsPerCluster)
    (inFile : offset ≤ size)
    (landed : Landed g disk l (oldByte g disk l) src size offset d first xs n count) :
    fileBytes g disk' (clusterOf disk' l) (read32 (rawAt disk' l) 28) =
      spliced (fileBytes g disk (clusterOf disk l) size) offset ((List.range n).map src) := by
  have oldLength : (fileBytes g disk (clusterOf disk l) size).length = size := fileBytes_length
  have room : max size (offset + n) ≤ xs.length * g.clusterSize := landed.length ▸ size_le_clusters per _
  rw [h.size]
  refine List.ext_getElem ?_ fun i low high => ?_
  · simp only [spliced, fileBytes_length, List.length_append, List.length_take, List.length_map, List.length_range, List.length_drop]
    omega
  · rw [fileBytes_length] at low
    have same : chainByte g disk' (xs ++ []) i = chainByte g d xs i := chainByte_congr per (by omega) h.sectors
    rw [List.append_nil] at same
    have left : (fileBytes g disk' (clusterOf disk' l) (max size (offset + n)))[i] = chainByte g disk' xs i := by
      simp only [fileBytes, List.getElem_map, List.getElem_range]
      rw [h.clusters]
    rw [left, same, landed.bytes i (by omega)]
    simp only [spliced, List.append_assoc]
    by_cases before : i < offset
    · rw [if_neg (by omega), List.getElem_append_left (by simp [oldLength]; omega)]
      simp only [List.getElem_take, fileBytes, List.getElem_map, List.getElem_range]
    · by_cases inside : i < offset + n
      · rw [if_pos (by omega), List.getElem_append_right (by simp [oldLength]; omega),
          List.getElem_append_left (by simp [oldLength]; omega)]
        simp [oldLength, inFile]
      · rw [if_neg (by omega), List.getElem_append_right (by simp [oldLength]; omega),
          List.getElem_append_right (by simp [oldLength]; omega)]
        simp only [List.getElem_drop, List.length_take, oldLength, List.length_map, List.length_range]
        simp only [fileBytes, List.getElem_map, List.getElem_range]
        congr 1
        omega

theorem FileWritten.display (h : FileWritten g disk d disk' l first size xs) : display disk' l = display disk l :=
  fatDecode83Name_congr fun i low => h.front i (by omega)

theorem rewrite_other {node j : Nat} {m : FatMeta} (differ : j ≠ node) : (s.rewrite node d m).nodes j = s.nodes j :=
  Function.update_of_ne differ _ _

theorem rewrite_metaOf {node : Nat} {m : FatMeta} (apart : dir ≠ some node) : (s.rewrite node d m).metaOf dir = s.metaOf dir := by
  cases dir with
  | none => rfl
  | some i =>
    have differ : i ≠ node := fun is => apart (congrArg some is)
    change ((s.rewrite node d m).nodes i).priv = (s.nodes i).priv
    rw [rewrite_other differ]

theorem FileWritten.slot {home : Nat} (h : FileWritten g disk d disk' l first size xs) (tree : InTree g disk home)
    (name : List (BitVec 8)) :
    findSlot disk' (dirSlots g disk' home) name = findSlot disk (dirSlots g disk home) name := by
  obtain ⟨-, lives, raw⟩ := h.dirs home tree
  rw [findSlot_live, findSlot_live, lives]
  refine List.find?_congr fun x mem => ?_
  by_cases here : x = l
  · rw [here, h.display]
  · rw [display_congr (raw x mem here)]

theorem FileWritten.untouched {node : Nat} {m : FatMeta}
    (h : FileWritten g s.disk d (s.rewrite node d m).disk l first size xs) (well : WellFormed g s.disk)
    (well' : WellFormed g (s.rewrite node d m).disk) (calm : s.Calm)
    (agrees : (s.nodes node).priv = entryMeta s.disk l) :
    OthersUntouched g s (s.rewrite node d m) l := by
  refine ⟨h.dirs, h.front, fun p x there holdsX isFile other => ?_⟩
  obtain ⟨there', lives, raws⟩ := h.dirs p there
  obtain ⟨intact, clusters, sectors⟩ := h.files p x there holdsX isFile other
  have raw := raws x holdsX.mem other
  have same : fileBytes g (s.rewrite node d m).disk (clusterOf s.disk x) (read32 (rawAt s.disk x) 28) =
      fileBytes g s.disk (clusterOf s.disk x) (read32 (rawAt s.disk x) 28) :=
    fileBytes_congr well.per clusters (well.room there holdsX isFile) sectors
  rw [DirEdit.clusterOf_congr raw, raw]
  refine ⟨same, fun j saysX count offset => ?_⟩
  have differ : j ≠ node := by
    rintro rfl
    have metas := saysX.symm.trans agrees
    exact other (Prod.ext (congrArg FatMeta.direntLba metas) (congrArg FatMeta.direntOffset metas))
  have calm' : (s.rewrite node d m).Calm := calm
  have holds' : Holds g (s.rewrite node d m).disk p x :=
    ⟨lives ▸ holdsX.mem, fun dots => holdsX.real ((DirEdit.ownDots_congr raw).mp dots)⟩
  have says' : ((s.rewrite node d m).nodes j).priv = entryMeta (s.rewrite node d m).disk x := by
    rw [rewrite_other differ, saysX]
    unfold entryMeta
    rw [DirEdit.clusterOf_congr raw, raw]
  rw [well.read calm there holdsX isFile saysX, well'.read calm' there' holds' (raw ▸ isFile) says']
  dsimp only
  rw [DirEdit.clusterOf_congr raw, raw, same]

end After

/-- A write that reports bytes has put them into the file, as a fresh lookup finds it, and has
touched nothing else; it stops early only on a full volume. -/
theorem fat_writes_persist (g : Geometry) (fuel : Nat) (s : Fat) (dir : Option Nat) (name : List (BitVec 8)) (l : Loc)
    (node : Nat) (src : Nat → BitVec 8) (count offset n : Nat) (enough : fullFuel ≤ fuel) (calm : s.Calm)
    (well : WellFormed g s.disk) (file : FileNode g s dir name l node) (any : 0 < count)
    (inFile : offset ≤ (s.nodes node).priv.fileSize) (fits : offset + count < 2 ^ 32) (left : s.count < fatMaxNodes)
    (wrote : (fatFileWrite g s node src count offset).2 = (n : Int)) :
    let t := (fatFileWrite g s node src count offset).1
    n ≤ count ∧ FindsFile g fuel t dir name (max (s.nodes node).priv.fileSize (offset + n))
        (spliced (nodeBytes g s node) offset ((List.range n).map src)) ∧
      WellFormed g t.disk ∧ OthersUntouched g s t l ∧ (n < count → freeCluster g t.disk = none) := by
  rw [file.size] at inFile
  rw [file.nodeBytes well calm, file.size]
  rcases fatFileWrite_lands calm well file any inFile fits with ⟨stuck | failed, full⟩ |
    ⟨d, first, xs, m, landed, same, call⟩
  · rw [stuck] at wrote ⊢
    obtain rfl : n = 0 := (Int.ofNat.inj wrote).symm
    refine ⟨Nat.zero_le _, ?_, well, ⟨fun p there => ⟨there, rfl, fun _ _ _ => rfl⟩, fun _ _ => rfl,
      fun _ _ _ _ _ _ => ⟨rfl, fun _ _ _ _ => rfl⟩⟩, fun _ => full⟩
    have none : spliced (fileBytes g s.disk (clusterOf s.disk l) (read32 (rawAt s.disk l) 28)) offset ((List.range 0).map src) =
        fileBytes g s.disk (clusterOf s.disk l) (read32 (rawAt s.disk l) 28) := by simp [spliced]
    rw [none, Nat.add_zero, max_eq_left inFile]
    exact well.finds calm enough left file.tree file.found file.real file.isFile
  · rw [failed] at wrote
    have negative : -enospc = (n : Int) := wrote
    unfold enospc at negative
    omega
  · rw [call] at wrote ⊢
    obtain rfl : n = m := (Int.ofNat.inj wrote).symm
    have upTo := landed.upTo
    have short : max (read32 (rawAt s.disk l) 28) (offset + n) < 2 ^ 32 := by
      have := read32_lt (rawAt s.disk l) 28
      omega
    have written : FileWritten g s.disk d (s.rewrite node d ⟨first, max (read32 (rawAt s.disk l) 28) (offset + n), l.1, l.2⟩).disk l
        first (max (read32 (rawAt s.disk l) 28) (offset + n)) xs :=
      file_written well.toChainTree well.fats file.tree file.holds file.isFile landed.toWriting same short
    have well' := written.wellFormed well landed.length landed.spare
    refine ⟨upTo, ?_, well', written.untouched well well' calm file.agrees, fun less => ?_⟩
    · have bytes := written.bytes well.per inFile landed
      have calm' : (s.rewrite node d ⟨first, max (read32 (rawAt s.disk l) 28) (offset + n), l.1, l.2⟩).Calm := calm
      have home : (s.rewrite node d ⟨first, max (read32 (rawAt s.disk l) 28) (offset + n), l.1, l.2⟩).metaOf dir = s.metaOf dir :=
        rewrite_metaOf file.apart
      obtain ⟨tree', lives, raws⟩ := written.dirs _ file.tree
      have found : slotOf g (s.rewrite node d ⟨first, max (read32 (rawAt s.disk l) 28) (offset + n), l.1, l.2⟩) dir name = some l := by
        unfold slotOf
        rw [home, written.slot file.tree]
        exact file.found
      have finds := well'.finds calm' enough left (home ▸ tree') found (fun dots => by
        rw [home] at dots
        exact file.real ⟨dots.sub, dots.place, written.display ▸ dots.name⟩) (written.type.trans file.isFile)
      rw [bytes, written.size] at finds
      exact finds
    · rw [← landed.short less]
      exact freeCluster_congr written.table

/-- A volume with an empty file in its root directory, which has been looked up. -/
def emptyFileVolume : Fat where
  disk := fun lba i =>
    if lba = 0 then smallBoot 1#8 1#8 i
    else if lba = 1 ∧ i < 4 then 0xFF#8
    else if lba = 2 ∧ i < 32 then (newEntry [0x61#8] attrArchive 0).getD i 0#8
    else 0#8
  nodes := fun _ => ⟨.file, [0x61#8], none, 0o644#64, ⟨0, 0, 2, 0⟩⟩
  count := 1
  outcomes := fun _ => .done

theorem emptyFileVolume_live : live (geometryOf (smallBoot 1#8 1#8)) emptyFileVolume.disk 0 = [(2, 0)] := by decide +kernel

theorem emptyFileVolume_wellFormed : WellFormed (geometryOf (smallBoot 1#8 1#8)) emptyFileVolume.disk := by
  have cluster : clusterOf emptyFileVolume.disk (2, 0) = 0 := by decide +kernel
  have size : read32 (rawAt emptyFileVolume.disk (2, 0)) 28 = 0 := by decide +kernel
  have isFile : entryType (rawAt emptyFileVolume.disk (2, 0)) = .file := by decide +kernel
  have root : ∀ first, InTree (geometryOf (smallBoot 1#8 1#8)) emptyFileVolume.disk first → first = 0 := by
    intro first tree
    induction tree with
    | root => rfl
    | @sub p x parent holds isDir ih =>
      subst ih
      have mem := holds.mem
      rw [emptyFileVolume_live, List.mem_singleton] at mem
      rw [mem, isFile] at isDir
      cases isDir
  have only : ∀ first l, InTree (geometryOf (smallBoot 1#8 1#8)) emptyFileVolume.disk first →
      Holds (geometryOf (smallBoot 1#8 1#8)) emptyFileVolume.disk first l → l = (2, 0) := by
    intro first l tree holds
    have mem := holds.mem
    rw [root first tree, emptyFileVolume_live] at mem
    exact List.mem_singleton.mp mem
  refine ⟨⟨fun first l tree holds => ?_, ?_⟩, by decide, by decide, fun first l tree holds _ => ?_, fun c high bound => ?_⟩
  · rw [only first l tree holds, cluster]
    exact .inl rfl
  · rintro l l' c ⟨first, tree, holds, mem⟩ -
    rw [only first l tree holds, cluster] at mem
    cases mem
  · rw [only first l tree holds, cluster, size, clustersFor_zero]
    rfl
  · have total : (geometryOf (smallBoot 1#8 1#8)).totalEntries = 256 := by decide
    unfold fat16Bad at high
    omega

/-- Three bytes into the empty file. -/
theorem emptyFileVolume_persists :
    let g := geometryOf (smallBoot 1#8 1#8)
    let t := (fatFileWrite g emptyFileVolume 0 (fun i => BitVec.ofNat 8 i) 3 0).1
    3 ≤ 3 ∧ FindsFile g fullFuel t none [0x61#8] (max (emptyFileVolume.nodes 0).priv.fileSize (0 + 3))
        (spliced (nodeBytes g emptyFileVolume 0) 0 ((List.range 3).map fun i => BitVec.ofNat 8 i)) ∧
      WellFormed g t.disk ∧ OthersUntouched g emptyFileVolume t (2, 0) ∧ (3 < 3 → freeCluster g t.disk = none) := by
  refine fat_writes_persist (geometryOf (smallBoot 1#8 1#8)) fullFuel emptyFileVolume none [0x61#8] (2, 0) 0
    (fun i => BitVec.ofNat 8 i) 3 0 3 le_rfl rfl emptyFileVolume_wellFormed ⟨.root, by decide +kernel, fun dots => dots.sub rfl,
      by decide +kernel, by decide +kernel, nofun⟩ (by decide) (by decide) (by decide) (by decide) (by decide +kernel)

end Isunux
