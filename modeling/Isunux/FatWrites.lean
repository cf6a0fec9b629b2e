import Isunux.FatSteps

/-! Writing to a file of the volume: whatever the offset, nothing is touched but the
clusters of the file and clusters that were free. -/
namespace Isunux

section Writing

variable (g : Geometry) (disk d : Nat → Sector) (l : Loc)

/-- A cluster that a write to the file at `l` may change. -/
def Alterable (c : Nat) : Prop := Owns g disk l c ∨ 2 ≤ c ∧ fatEntry g disk c = 0

/-- In the middle of a write: `disk` has become `d`, where the file's chain is `xs`. -/
structure Writing (first : Nat) (xs : List Nat) : Prop where
  frame : Frame g disk d (Alterable g disk l)
  chain : ChainOf g d first xs
  own : ∀ c ∈ xs, Alterable g disk l c
  all : ∀ c, Owns g disk l c → c ∈ xs

/-- The cluster that is written to. A cluster whose number reads as an end mark does not get into
the chain. -/
structure Cursor (xs : List Nat) (c : Nat) : Prop where
  cell : Cell g d c
  own : Alterable g disk l c
  place : c ∈ xs ∨ fat16EocMin ≤ fatEntry g d c

end Writing

section Steps

variable {g : Geometry} {disk d : Nat → Sector} {l : Loc} {s : Fat} {first c : Nat} {xs : List Nat}

theorem nextOrExtend_calm (calm : s.Calm) (cluster : Nat) :
    nextOrExtend g s cluster =
      if fatEntry g s.disk cluster < 2 ∨ fatEntry g s.disk cluster ≥ fat16EocMin then
        match freeCluster g s.disk with
        | none => (s, none)
        | some c => (s.withDisk (linked g s.disk cluster c), some c)
      else (s, some (fatEntry g s.disk cluster)) := by
  unfold nextOrExtend
  rw [fatNextCluster_calm calm]
  simp only [fatAllocCluster_calm calm]
  cases free : freeCluster g s.disk with
  | none => rfl
  | some c =>
    have used : c ≠ 0 := by have := (freeCluster_some free).1; omega
    simp only [if_neg used, fatWriteFatEntry_calm calm.withDisk, withDisk_disk, withDisk_withDisk]
    rfl

theorem not_alterable (chains : ChainTree g disk) {r : Nat} {y : Loc} (owns : Owns g disk y r) (other : y ≠ l) :
    ¬ Alterable g disk l r := by
  rintro (mine | ⟨-, free⟩)
  · exact other (chains.apart y l r owns mine)
  · exact (chains.cell owns).taken free

theorem Writing.free (h : Writing g disk d l first xs) (low : 2 ≤ c) (bound : c < g.totalEntries) (short : c < 2 ^ 16)
    (free : fatEntry g d c = 0) : fatEntry g disk c = 0 := by
  by_contra taken
  by_cases mine : Owns g disk l c
  · exact (h.chain.cells c (h.all c mine)).taken free
  · have loose : ¬ Alterable g disk l c := fun loose => loose.elim mine fun both => taken both.2
    exact taken (free ▸ (h.frame.entries c ⟨low, bound, short, taken⟩ loose).symm)

theorem ChainOf.next (h : ChainOf g d first xs) (mem : c ∈ xs) :
    (∃ ys x zs, xs = ys ++ c :: x :: zs ∧ fatEntry g d c = x ∧ 2 ≤ x ∧ x < fat16EocMin) ∨
      ∃ ys, xs = ys ++ [c] ∧ fat16EocMin ≤ fatEntry g d c := by
  obtain ⟨ys, rest, rfl⟩ := List.append_of_mem mem
  match rest with
  | [] => exact .inr ⟨ys, rfl, h.next_last⟩
  | x :: zs => exact .inl ⟨ys, x, zs, rfl, h.next_mid⟩

theorem Writing.grow {d' : Nat → Sector} {own : Nat → Prop} (h : Writing g disk d l first xs) (step : Frame g d d' own)
    (loose : ∀ c, own c → Alterable g disk l c) : Frame g disk d' (Alterable g disk l) :=
  h.frame.trans (step.mono loose)

theorem Writing.extended (h : Writing g disk d l first xs) {cur : Nat} (at_ : Cursor g disk d l xs cur)
    (ends : fat16EocMin ≤ fatEntry g d cur) (fats : 0 < g.numFats) (free : freeCluster g d = some c) (short : c < 2 ^ 16) :
    ∃ xs', Writing g disk (linked g d cur c) l first xs' ∧ Cursor g disk (linked g d cur c) l xs' c ∧
      (c < fat16EocMin → cur ∈ xs → xs' = xs ++ [c]) := by
  obtain ⟨low, bound, zero⟩ := freeCluster_some free
  have longer : Lengthened g d (linked g d cur c) cur c := linked_lengthened fats bound short at_.cell.bound
  have zero' := h.free low bound short zero
  have frame : Frame g disk (linked g d cur c) (Alterable g disk l) :=
    h.grow (longer.frame low zero) fun x is => is ▸ at_.own
  have entry : fatEntry g (linked g d cur c) c = fat16EocMin := by
    rw [longer.table c bound, if_neg (Lengthened.cell_ne zero at_.cell).symm, if_pos rfl]
  have cell : Cell g (linked g d cur c) c := ⟨low, bound, short, by rw [entry]; decide⟩
  by_cases inside : cur ∈ xs
  · rcases h.chain.next inside with ⟨ys, x, zs, -, is, -, mid⟩ | ⟨ys, rfl, -⟩
    · omega
    · have chain := longer.chain low bound zero h.chain
      refine ⟨_, ⟨frame, chain, fun x mem => ?_, fun x mine => ?_⟩, ⟨cell, .inr ⟨low, zero'⟩, .inr (by rw [entry])⟩,
        fun mid _ => by rw [if_pos mid]; simp⟩
      · simp only [List.mem_append, List.mem_cons] at mem
        rcases mem with inYs | rfl | new
        · exact h.own x (by simp [inYs])
        · exact at_.own
        · split at new
          · obtain rfl := List.mem_singleton.mp new
            exact .inr ⟨low, zero'⟩
          · cases new
      · have old := h.all x mine
        simp only [List.mem_append, List.mem_cons, List.not_mem_nil, or_false] at old ⊢
        exact old.imp_right .inl
  · have chain : ChainOf g (linked g d cur c) first xs := by
      refine h.chain.congr fun x mem => ?_
      have cellX := h.chain.cells x mem
      have other : x ≠ cur := fun is => inside (is ▸ mem)
      rw [longer.table x cellX.bound, if_neg other, if_neg (Lengthened.cell_ne zero cellX)]
    exact ⟨xs, ⟨frame, chain, h.own, h.all⟩, ⟨cell, .inr ⟨low, zero'⟩, .inr (by rw [entry])⟩, fun _ mem => absurd mem inside⟩

theorem Writing.next (h : Writing g disk s.disk l first xs) {cur : Nat} (at_ : Cursor g disk s.disk l xs cur)
    (calm : s.Calm) (fats : 0 < g.numFats) (small : ∀ c, c < g.totalEntries → c < 2 ^ 16) :
    nextOrExtend g s cur = (s, none) ∨
      ∃ d c xs', nextOrExtend g s cur = (s.withDisk d, some c) ∧ Writing g disk d l first xs' ∧ Cursor g disk d l xs' c := by
  rw [nextOrExtend_calm calm]
  have extended : fat16EocMin ≤ fatEntry g s.disk cur → (match freeCluster g s.disk with
      | none => (s, none)
      | some c => (s.withDisk (linked g s.disk cur c), some c)) = (s, none) ∨
      ∃ d c xs', (match freeCluster g s.disk with
        | none => (s, none)
        | some c => (s.withDisk (linked g s.disk cur c), some c)) = (s.withDisk d, some c) ∧
          Writing g disk d l first xs' ∧ Cursor g disk d l xs' c := by
    intro ends
    cases free : freeCluster g s.disk with
    | none => exact .inl rfl
    | some c =>
      obtain ⟨xs', writing, cursor, -⟩ := h.extended at_ ends fats free (small c (freeCluster_some free).2.1)
      exact .inr ⟨_, c, xs', rfl, writing, cursor⟩
  rcases at_.place with mem | ends
  · rcases h.chain.next mem with ⟨ys, x, zs, is, entry, low, mid⟩ | ⟨ys, -, ends⟩
    · rw [if_neg (by omega), entry]
      have next : x ∈ xs := by rw [is]; simp
      exact .inr ⟨s.disk, x, xs, rfl, h, h.chain.cells x next, h.own x next, .inl next⟩
    · rw [if_pos (.inr ends)]
      exact extended ends
  · rw [if_pos (.inr ends)]
    exact extended ends

theorem Writing.walk (fats : 0 < g.numFats) (small : ∀ c, c < g.totalEntries → c < 2 ^ 16) (n : Nat) :
    ∀ {s : Fat} {xs : List Nat} {cur : Nat}, s.Calm → Writing g disk s.disk l first xs → Cursor g disk s.disk l xs cur →
      ∃ d xs', (walkTo g n s cur).1 = s.withDisk d ∧ Writing g disk d l first xs' ∧
        ∀ c, (walkTo g n s cur).2 = some c → Cursor g disk d l xs' c := by
  induction n with
  | zero =>
    intro s xs cur _ h at_
    exact ⟨s.disk, xs, rfl, h, fun c is => Option.some.inj is ▸ at_⟩
  | succ n ih =>
    intro s xs cur calm h at_
    unfold walkTo
    rcases h.next at_ calm fats small with is | ⟨d, c, xs', is, writing, cursor⟩
    · rw [is]
      exact ⟨s.disk, xs, rfl, h, fun c is => by cases is⟩
    · rw [is]
      exact ih calm.withDisk writing cursor

theorem Writing.store (h : Writing g disk d l first xs) {cur lba : Nat} (at_ : Cursor g disk d l xs cur)
    (fats : 0 < g.numFats) (inside : lba ∈ clusterLbas g cur) (sector : Sector) :
    Writing g disk (Function.update d lba sector) l first xs ∧ Cursor g disk (Function.update d lba sector) l xs cur ∧
      ∀ c, c < g.totalEntries → fatEntry g (Function.update d lba sector) c = fatEntry g d c := by
  have region : lba ∈ regionLbas g cur := by
    unfold regionLbas
    rw [if_neg (by have := at_.cell.low; omega)]
    exact inside
  obtain ⟨frame, entries⟩ : Frame g d (Function.update d lba sector) (· = cur) ∧ _ := by
    refine Frame.of_regions fats fun x changed => ⟨cur, at_.cell.isRegion, rfl, ?_⟩
    by_cases here : x = lba
    · exact here ▸ region
    · exact absurd (Function.update_of_ne here _ _) changed
  have cellOf : ∀ c, Cell g d c → Cell g (Function.update d lba sector) c := fun c cell =>
    ⟨cell.low, cell.bound, cell.short, entries c cell.bound ▸ cell.taken⟩
  refine ⟨⟨h.grow frame fun x is => is ▸ at_.own, h.chain.congr fun x mem => entries x (h.chain.cells x mem).bound, h.own,
    h.all⟩, ⟨cellOf cur at_.cell, at_.own, at_.place.imp_right fun ends => ?_⟩, entries⟩
  rw [entries cur at_.cell.bound]
  exact ends

theorem sector_inside {pos : Nat} (inside : pos < g.clusterSize) : sectorOf g c (pos / 512) ∈ clusterLbas g c := by
  refine List.mem_map.mpr ⟨pos / 512, List.mem_range.mpr ?_, rfl⟩
  unfold Geometry.clusterSize at inside
  omega

theorem Writing.loop (fats : 0 < g.numFats) (per : 0 < g.sectorsPerCluster)
    (small : ∀ c, c < g.totalEntries → c < 2 ^ 16) (src : Nat → BitVec 8) (fuel : Nat) :
    ∀ {s : Fat} {xs : List Nat} {cur pos left copied : Nat}, s.Calm → Writing g disk s.disk l first xs →
      Cursor g disk s.disk l xs cur → (left ≠ 0 → pos < g.clusterSize) →
      ∃ d xs' n, writeLoop g fuel s cur pos src left copied = (s.withDisk d, n) ∧ Writing g disk d l first xs' := by
  have size : g.clusterSize = g.sectorsPerCluster * 512 := rfl
  induction fuel with
  | zero =>
    intro s xs cur pos left copied _ h _ _
    exact ⟨s.disk, xs, copied, rfl, h⟩
  | succ fuel ih =>
    intro s xs cur pos left copied calm h at_ inside
    unfold writeLoop
    by_cases done : left = 0
    · rw [if_pos done]
      exact ⟨s.disk, xs, copied, rfl, h⟩
    have sector := sector_inside (c := cur) (inside done)
    rw [if_neg done]
    simp only [ataReadSector_calm calm]
    have old : ∃ sector, (if min left (512 - pos % 512) < 512 then (s, some (s.disk (sectorOf g cur (pos / 512))))
        else (s, some fun _ => 0#8)) = (s, some sector) := by
      split
      · exact ⟨_, rfl⟩
      · exact ⟨_, rfl⟩
    obtain ⟨before, old⟩ := old
    simp only [old, ataWriteSector_calm calm]
    obtain ⟨writing, cursor, -⟩ := h.store at_ fats sector
      (patch before (pos % 512) ((List.range (min left (512 - pos % 512))).map fun i => src (copied + i)))
    generalize Function.update s.disk (sectorOf g cur (pos / 512)) _ = d at writing cursor
    by_cases crosses : pos + min left (512 - pos % 512) ≥ g.clusterSize ∧ 0 < left - min left (512 - pos % 512)
    · rw [if_pos crosses]
      rcases writing.next (s := s.withDisk d) cursor calm fats small with is | ⟨d', c, xs', is, writing', cursor'⟩
      · rw [is]
        exact ⟨d, xs, _, rfl, writing⟩
      · rw [is]
        refine ih calm.withDisk writing' cursor' fun _ => ?_
        rw [size]
        omega
    · rw [if_neg crosses]
      exact ih (s := s.withDisk d) calm writing cursor fun some => by omega

end Steps

/-- What a write makes of the disk: clusters are added and filled, and then perhaps the entry is
written again. -/
def WrittenTo (g : Geometry) (disk : Nat → Sector) (l : Loc) (disk' : Nat → Sector) : Prop :=
  disk' = disk ∨ ∃ d first xs, Writing g disk d l first xs ∧ (clusterOf disk l ≠ 0 → first = clusterOf disk l) ∧
    (disk' = d ∨ ∃ size, disk' = putAt d l 26 (metaBytes first size))

section Writes

variable {g : Geometry} {s : Fat} {disk d : Nat → Sector} {l : Loc} {home first node : Nat} {xs : List Nat}

theorem fatWritebackDirent_calm (calm : s.Calm) (node : Nat) :
    fatWritebackDirent s node =
      s.withDisk (putAt s.disk ((s.nodes node).priv.direntLba, (s.nodes node).priv.direntOffset) 26
        (metaBytes (s.nodes node).priv.firstCluster (s.nodes node).priv.fileSize)) := by
  unfold fatWritebackDirent
  simp only [ataReadSector_calm calm, ataWriteSector_calm calm]
  rfl

theorem writeback_setMeta (calm : s.Calm) (node : Nat) (m : FatMeta) :
    fatWritebackDirent (s.setMeta node m) node =
      (s.setMeta node m).withDisk (putAt s.disk (m.direntLba, m.direntOffset) 26 (metaBytes m.firstCluster m.fileSize)) := by
  have calm' : (s.setMeta node m).Calm := calm
  have priv : ((s.setMeta node m).nodes node).priv = m := by
    unfold Fat.setMeta
    simp
  rw [fatWritebackDirent_calm calm', priv]
  rfl

theorem Writing.start (chains : ChainTree g disk) (tree : InTree g disk home) (holds : Holds g disk home l)
    (sub : clusterOf disk l ≠ 0) :
    Writing g disk disk l (clusterOf disk l) (fileClusters g disk (clusterOf disk l)) ∧
      Cursor g disk disk l (fileClusters g disk (clusterOf disk l)) (clusterOf disk l) := by
  have intact := chains.intact home l tree holds
  have chain : ChainOf g disk (clusterOf disk l) (fileClusters g disk (clusterOf disk l)) := by
    unfold fileClusters
    rw [if_neg sub]
    exact intact.resolve_left sub
  have owns : ∀ c ∈ fileClusters g disk (clusterOf disk l), Owns g disk l c := fun c mem => ⟨home, tree, holds, mem⟩
  refine ⟨⟨.refl, chain, fun c mem => .inl (owns c mem), fun c mine => ?_⟩, ⟨chain.cells _ chain.mem_first, .inl (owns _ chain.mem_first),
    .inl chain.mem_first⟩⟩
  obtain ⟨-, -, -, mem⟩ := mine
  exact mem

theorem Writing.founded {c : Nat} (fats : 0 < g.numFats) (empty : clusterOf disk l = 0) (free : freeCluster g disk = some c)
    (short : c < 2 ^ 16) :
    Writing g disk (setEntry g disk c fat16EocMin) l c [c] ∧ Cursor g disk (setEntry g disk c fat16EocMin) l [c] c := by
  obtain ⟨low, bound, zero⟩ := freeCluster_some free
  have table : ∀ x, x < g.totalEntries → fatEntry g (setEntry g disk c fat16EocMin) x =
      if x = c then fat16EocMin else fatEntry g disk x := fun x boundX => fatEntry_setEntry fats bound boundX
  have entry : fatEntry g (setEntry g disk c fat16EocMin) c = fat16EocMin := by rw [table c bound, if_pos rfl]
  have cell : Cell g (setEntry g disk c fat16EocMin) c := ⟨low, bound, short, by rw [entry]; decide⟩
  have loose : Alterable g disk l c := .inr ⟨low, zero⟩
  refine ⟨⟨⟨fun x cellX _ => ?_, fun r region _ lba mem => ?_⟩, ⟨⟨rfl, nextOf_end (by rw [entry])⟩, ?_⟩, ?_, fun x mine => ?_⟩,
    ⟨cell, loose, .inl List.mem_cons_self⟩⟩
  · rw [table x cellX.bound, if_neg (Lengthened.cell_ne zero cellX)]
  · exact setEntry_region bound (region.elim .inl Cell.isRegion) mem
  · exact List.forall_mem_singleton.mpr cell
  · exact List.forall_mem_singleton.mpr loose
  · obtain ⟨-, -, -, mem⟩ := mine
    rw [empty] at mem
    cases mem

theorem writeFrom_writes (fats : 0 < g.numFats) (per : 0 < g.sectorsPerCluster)
    (small : ∀ c, c < g.totalEntries → c < 2 ^ 16) (calm : s.Calm) (writing : Writing g disk s.disk l first xs)
    (cursor : Cursor g disk s.disk l xs first) (cluster : (s.nodes node).priv.firstCluster = first)
    (place : ((s.nodes node).priv.direntLba, (s.nodes node).priv.direntOffset) = l) (src : Nat → BitVec 8)
    (count offset : Nat) :
    ∃ d xs', Writing g disk d l first xs' ∧ ((writeFrom g s node src count offset).1.disk = d ∨
      ∃ size, (writeFrom g s node src count offset).1.disk = putAt d l 26 (metaBytes first size)) := by
  have size : 0 < g.clusterSize := Nat.mul_pos per (by decide)
  unfold writeFrom
  rw [cluster]
  obtain ⟨d, xs', is, writing', cursor'⟩ := writing.walk fats small (offset / g.clusterSize) calm cursor
  obtain ⟨t, found⟩ : ∃ r, r = walkTo g (offset / g.clusterSize) s first := ⟨_, rfl⟩
  rw [← found] at is cursor' ⊢
  obtain ⟨t, reached⟩ := t
  simp only at is cursor'
  subst is
  cases reached with
  | none => exact ⟨d, xs', writing', .inl rfl⟩
  | some cur =>
    obtain ⟨d', xs'', n, loop, writing''⟩ : ∃ d' xs'' n,
        writeLoop g count (s.withDisk d) cur (offset % g.clusterSize) src count 0 = ((s.withDisk d).withDisk d', n) ∧
          Writing g disk d' l first xs'' :=
      writing'.loop fats per small src count calm.withDisk (cursor' cur rfl) fun _ => Nat.mod_lt _ size
    refine ⟨d', xs'', writing'', .inr ?_⟩
    dsimp only
    rw [loop]
    dsimp only
    have calm' : ((s.withDisk d).withDisk d').Calm := calm
    rw [writeback_setMeta calm']
    refine ⟨if offset + n > (s.nodes node).priv.fileSize then (offset + n) % 2 ^ 32 else (s.nodes node).priv.fileSize, ?_⟩
    change putAt d' ((s.nodes node).priv.direntLba, (s.nodes node).priv.direntOffset) 26
      (metaBytes (s.nodes node).priv.firstCluster _) = _
    rw [place, cluster]
    rfl

/-- Whatever is written at whatever offset, through a node that agrees with the entry. -/
theorem fatFileWrite_writes (fats : 0 < g.numFats) (per : 0 < g.sectorsPerCluster)
    (small : ∀ c, c < g.totalEntries → c < 2 ^ 16) (calm : s.Calm) (chains : ChainTree g s.disk)
    (tree : InTree g s.disk home) (holds : Holds g s.disk home l)
    (cluster : (s.nodes node).priv.firstCluster = clusterOf s.disk l)
    (place : ((s.nodes node).priv.direntLba, (s.nodes node).priv.direntOffset) = l) (src : Nat → BitVec 8)
    (count offset : Nat) : WrittenTo g s.disk l (fatFileWrite g s node src count offset).1.disk := by
  unfold fatFileWrite
  by_cases nothing : count = 0
  · rw [if_pos nothing]
    exact .inl rfl
  rw [if_neg nothing]
  by_cases empty : (s.nodes node).priv.firstCluster = 0
  · rw [if_pos empty]
    simp only [fatAllocCluster_calm calm]
    have none : clusterOf s.disk l = 0 := cluster ▸ empty
    cases free : freeCluster g s.disk with
    | none => exact .inl rfl
    | some c =>
      have used : c ≠ 0 := by have := (freeCluster_some free).1; omega
      obtain ⟨writing, cursor⟩ : Writing g s.disk (setEntry g s.disk c fat16EocMin) l c [c] ∧ _ :=
        Writing.founded fats none free (small c (freeCluster_some free).2.1)
      simp only [if_neg used]
      have calm' : ((s.withDisk (setEntry g s.disk c fat16EocMin)).setMeta node
        { (s.nodes node).priv with firstCluster := c }).Calm := calm
      have priv : (((s.withDisk (setEntry g s.disk c fat16EocMin)).setMeta node
          { (s.nodes node).priv with firstCluster := c }).nodes node).priv =
            { (s.nodes node).priv with firstCluster := c } := by
        unfold Fat.setMeta
        simp
      obtain ⟨d, xs, done, is⟩ := writeFrom_writes fats per small calm' writing cursor (by rw [priv])
        (by rw [priv]; exact place) src count offset
      exact .inr ⟨d, c, xs, done, fun sub => absurd none sub, is⟩
  · rw [if_neg empty]
    have sub : clusterOf s.disk l ≠ 0 := cluster ▸ empty
    obtain ⟨writing, cursor⟩ := Writing.start chains tree holds sub
    obtain ⟨d, xs, done, is⟩ := writeFrom_writes fats per small calm writing cursor cluster place src count offset
    exact .inr ⟨d, _, xs, done, fun _ => rfl, is⟩

end Writes

section Written

variable {g : Geometry} {disk d disk' : Nat → Sector} {l : Loc} {home first : Nat} {xs : List Nat}

theorem dirs_away (chains : ChainTree g disk) (isFile : entryType (rawAt disk l) = .file) :
    ∀ first, InTree g disk first → ∀ r ∈ regionsOf g disk first, ¬ Alterable g disk l r := by
  intro first there r mem
  rcases chains.region_owner there mem with ⟨-, rfl⟩ | ⟨-, -, y, owns, -, isDir⟩
  · rintro (mine | ⟨low, -⟩)
    · exact absurd (chains.cell mine).low (by omega)
    · omega
  · refine not_alterable chains owns ?_
    rintro rfl
    rw [isFile] at isDir
    cases isDir

theorem fileClusters_chain (chain : ChainOf g d first xs) : fileClusters g d first = xs := by
  unfold fileClusters
  rw [if_neg chain.nonzero, chain.from_eq]

/-- The tree while clusters are added and filled: the entry still says what it said. -/
theorem Writing.chains (h : Writing g disk d l first xs) (chains : ChainTree g disk)
    (isFile : entryType (rawAt disk l) = .file)
    (same : clusterOf disk l ≠ 0 → first = clusterOf disk l) : ChainTree g d := by
  refine chains.framed (fun _ => l) h.frame (dirs_away chains isFile) fun p x treeP holdsX => ?_
  by_cases mine : x = l
  · subst mine
    right
    by_cases sub : clusterOf disk x = 0
    · rw [sub]
      exact inherits_zero
    · rw [← same sub]
      refine ⟨h.chain.intact, fun c mem => ?_⟩
      rw [fileClusters_chain h.chain] at mem
      exact (h.own c mem).imp_right fun free => ⟨fun y owns => (chains.cell owns).taken free.2, rfl⟩
  · exact .inl fun c mem => not_alterable chains ⟨p, treeP, holdsX, mem⟩ mine

theorem ChainTree.written (chains : ChainTree g disk) (fats : 0 < g.numFats) (tree : InTree g disk home)
    (holds : Holds g disk home l) (isFile : entryType (rawAt disk l) = .file) (written : WrittenTo g disk l disk') :
    ChainTree g disk' := by
  rcases written with rfl | ⟨d, first, xs, writing, same, done⟩
  · exact chains
  have away := dirs_away chains isFile
  have chains' := writing.chains chains isFile same
  rcases done with rfl | ⟨size, rfl⟩
  · exact chains'
  obtain ⟨holds', raw⟩ := chains.framed_holds writing.frame away tree holds
  have tree' := chains.framed_tree writing.frame away tree
  have isFile' : entryType (rawAt d l) = .file := raw ▸ isFile
  have short : first < 2 ^ 16 := (writing.chain.cells first writing.chain.mem_first).short
  refine chains'.rewritten tree' isFile' (rewritten_entry fats (chains'.dir tree') holds'.mem) short writing.chain.intact
    fun c mem => ?_
  rw [fileClusters_chain writing.chain] at mem
  by_cases sub : clusterOf disk l = 0
  · -- the chain is not yet that of an entry
    right
    rintro y ⟨p, treeP, holdsY, inY⟩
    have edit := chains.framed_edit writing.frame away
    rcases edit.holds treeP holdsY with ⟨old, -, was, same', -⟩ | ⟨-, is⟩
    · rw [DirEdit.clusterOf_congr same'] at inY
      by_cases mine : y = l
      · rw [mine, sub] at inY
        cases inY
      · have apart : ∀ c ∈ fileClusters g disk (clusterOf disk y), ¬ Alterable g disk l c := fun c mem =>
          not_alterable chains ⟨p, old, was, mem⟩ mine
        rw [(writing.frame.file (chains.intact p y old was) apart).2] at inY
        exact apart c inY (writing.own c mem)
    · cases is
  · left
    refine ⟨home, tree', holds', ?_⟩
    rw [DirEdit.clusterOf_congr raw, ← same sub, fileClusters_chain writing.chain]
    exact mem

theorem VolumeTree.written (t : VolumeTree g disk) (fats : 0 < g.numFats) (tree : InTree g disk home)
    (holds : Holds g disk home l) (isFile : entryType (rawAt disk l) = .file) (written : WrittenTo g disk l disk') :
    VolumeTree g disk' := by
  have chains := t.toChainTree
  have after := chains.written fats tree holds isFile written
  rcases written with rfl | ⟨d, first, xs, writing, same, done⟩
  · exact t
  have away := dirs_away chains isFile
  have t' := t.framed writing.frame away (writing.chains chains isFile same)
  rcases done with rfl | ⟨size, rfl⟩
  · exact t'
  obtain ⟨holds', raw⟩ := chains.framed_holds writing.frame away tree holds
  have tree' := chains.framed_tree writing.frame away tree
  exact t'.rewritten tree' holds' (raw ▸ isFile) (rewritten_entry fats (t'.dir tree') holds'.mem) after

end Written

end Isunux
