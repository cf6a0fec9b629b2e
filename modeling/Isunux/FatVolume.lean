import Isunux.FatUpdates

/-! Directories of a volume by their first clusters, 0 for the root. `Frame` says that
an operation leaves everything alone but some regions; what lies in other regions is
then found again as it was. -/
namespace Isunux

section Objects

variable (g : Geometry) (disk : Nat → Sector)

/-- The chain from a cluster, as far as a scan follows it. -/
def chainFrom (first : Nat) : List Nat := Chain.follow (nextOf g disk) fullFuel (some first)

/-- The regions of a file or directory. -/
def regionsOf (first : Nat) : List Nat := if first = 0 then [0] else chainFrom g disk first

/-- The first cluster is that of the root or starts a chain. -/
def Intact (first : Nat) : Prop := first = 0 ∨ ChainOf g disk first (chainFrom g disk first)

def dirSlots (first : Nat) : List Loc :=
  if first = 0 then slotsOf (rootLbas g)
  else if first < fat16EocMin then slotsOf (chainLbas g (chainFrom g disk first))
  else []

def live (first : Nat) : List Loc := realSlots disk (dirSlots g disk first)

def clusterOf (l : Loc) : Nat := read16 (rawAt disk l) 26

end Objects

section Facts

variable {g : Geometry} {disk disk' : Nat → Sector} {first : Nat} {xs : List Nat} {l : Loc}

theorem ChainOf.from_eq (h : ChainOf g disk first xs) : chainFrom g disk first = xs :=
  h.spells.follow_eq h.length_lt.le

theorem ChainOf.intact (h : ChainOf g disk first xs) : Intact g disk first := .inr (h.from_eq ▸ h)

theorem ChainOf.nonzero (h : ChainOf g disk first xs) : first ≠ 0 := by
  have := (h.cells first h.mem_first).low
  omega

theorem ChainOf.regions (h : ChainOf g disk first xs) : regionsOf g disk first = xs := by
  unfold regionsOf
  rw [if_neg h.nonzero, h.from_eq]

theorem Intact.regions (h : Intact g disk first) : ∀ r ∈ regionsOf g disk first, r = 0 ∨ Cell g disk r := by
  intro r mem
  unfold regionsOf at mem
  rcases h with rfl | chain
  · rw [if_pos rfl] at mem
    exact .inl (List.mem_singleton.mp mem)
  · rw [if_neg chain.nonzero] at mem
    exact .inr (chain.cells r mem)

theorem Intact.dirSlots (h : Intact g disk first) : DirSlots g disk first (dirSlots g disk first) := by
  unfold Isunux.dirSlots
  rcases h with rfl | chain
  · exact .root
  · rw [if_neg chain.nonzero]
    split
    · rename_i mid
      exact .chain chain mid
    · rename_i high
      exact .high (Nat.le_of_not_lt high)

theorem mem_dirSlots (h : Intact g disk first) (mem : l ∈ dirSlots g disk first) :
    Aligned l ∧ ∃ r ∈ regionsOf g disk first, (r = 0 ∨ Cell g disk r) ∧ l.1 ∈ regionLbas g r := by
  unfold dirSlots at mem
  unfold regionsOf
  rcases h with rfl | chain
  · rw [if_pos rfl] at mem ⊢
    exact ⟨aligned_of_mem mem, 0, List.mem_singleton.mpr rfl, .inl rfl, (mem_slotsOf.mp mem).1⟩
  · rw [if_neg chain.nonzero] at mem ⊢
    split at mem
    · refine ⟨aligned_of_mem mem, ?_⟩
      obtain ⟨r, inChain, inRegion⟩ := List.mem_flatMap.mp (mem_slotsOf.mp mem).1
      have cell := chain.cells r inChain
      refine ⟨r, inChain, .inr cell, ?_⟩
      unfold regionLbas
      rw [if_neg (by have := cell.low; omega)]
      exact inRegion
    · cases mem

theorem nodup_dirSlots (h : Intact g disk first) : (dirSlots g disk first).Nodup := by
  unfold dirSlots
  rcases h with rfl | chain
  · rw [if_pos rfl]
    exact nodup_slotsOf (nodup_regionLbas 0)
  · rw [if_neg chain.nonzero]
    split
    · refine nodup_slotsOf (List.nodup_flatMap.mpr ⟨fun r _ => ?_, ?_⟩)
      · exact nodup_clusterLbas r
      · refine List.Pairwise.imp_of_mem (fun {a b} memA memB apart lba inA inB => ?_) chain.nodup
        have cellA := chain.cells a memA
        have cellB := chain.cells b memB
        have region : ∀ {c}, Cell g disk c → regionLbas g c = clusterLbas g c := fun cell =>
          if_neg (by have := cell.low; omega)
        exact apart (region_apart cellA.isRegion cellB.isRegion (region cellA ▸ inA) (region cellB ▸ inB))
    · exact List.nodup_nil

theorem Intact.object_congr (h : Intact g disk first)
    (same : ∀ c ∈ regionsOf g disk first, Cell g disk c → fatEntry g disk' c = fatEntry g disk c) :
    Intact g disk' first ∧ regionsOf g disk' first = regionsOf g disk first ∧
      Isunux.dirSlots g disk' first = Isunux.dirSlots g disk first := by
  rcases h with rfl | chain
  · exact ⟨.inl rfl, rfl, rfl⟩
  · have regions : regionsOf g disk first = chainFrom g disk first := if_neg chain.nonzero
    rw [regions] at same
    have chain' : ChainOf g disk' first (chainFrom g disk first) :=
      chain.congr fun c mem => same c mem (chain.cells c mem)
    refine ⟨chain'.intact, chain'.regions.trans regions.symm, ?_⟩
    unfold Isunux.dirSlots
    rw [chain'.from_eq]

end Facts

/-- Nothing has changed but what belongs to `own`. -/
structure Frame (g : Geometry) (disk disk' : Nat → Sector) (own : Nat → Prop) : Prop where
  entries : ∀ c, Cell g disk c → ¬ own c → fatEntry g disk' c = fatEntry g disk c
  regions : ∀ r, r = 0 ∨ Cell g disk r → ¬ own r → ∀ lba ∈ regionLbas g r, disk' lba = disk lba

namespace Frame

variable {g : Geometry} {disk disk' disk'' : Nat → Sector} {own own' : Nat → Prop} {first : Nat} {l : Loc}

theorem refl : Frame g disk disk own := ⟨fun _ _ _ => rfl, fun _ _ _ _ _ => rfl⟩

theorem cell (h : Frame g disk disk' own) {c : Nat} (cell : Cell g disk c) (other : ¬ own c) :
    Cell g disk' c :=
  ⟨cell.low, cell.bound, cell.short, h.entries c cell other ▸ cell.taken⟩

theorem trans (h : Frame g disk disk' own) (h' : Frame g disk' disk'' own) : Frame g disk disk'' own := by
  refine ⟨fun c isCell other => ?_, fun r region other lba mem => ?_⟩
  · rw [h'.entries c (h.cell isCell other) other, h.entries c isCell other]
  · rw [h'.regions r (region.imp_right fun isCell => h.cell isCell other) other lba mem,
      h.regions r region other lba mem]

theorem mono (h : Frame g disk disk' own) (more : ∀ c, own c → own' c) : Frame g disk disk' own' :=
  ⟨fun c isCell other => h.entries c isCell fun mine => other (more c mine),
    fun r region other => h.regions r region fun mine => other (more r mine)⟩

theorem object (h : Frame g disk disk' own) (intact : Intact g disk first)
    (away : ∀ r ∈ regionsOf g disk first, ¬ own r) :
    Intact g disk' first ∧ regionsOf g disk' first = regionsOf g disk first ∧
      dirSlots g disk' first = dirSlots g disk first :=
  intact.object_congr fun c mem cell => h.entries c cell (away c mem)

theorem raw (h : Frame g disk disk' own) (intact : Intact g disk first)
    (away : ∀ r ∈ regionsOf g disk first, ¬ own r) (mem : l ∈ dirSlots g disk first) :
    rawAt disk' l = rawAt disk l := by
  obtain ⟨-, r, inObject, region, inRegion⟩ := mem_dirSlots intact mem
  unfold rawAt
  rw [h.regions r region (away r inObject) l.1 inRegion]

theorem directory (h : Frame g disk disk' own) (intact : Intact g disk first)
    (away : ∀ r ∈ regionsOf g disk first, ¬ own r) :
    live g disk' first = live g disk first ∧ (∀ l ∈ live g disk first, rawAt disk' l = rawAt disk l) ∧
      (Blank disk (dirSlots g disk first) → Blank disk' (dirSlots g disk' first)) := by
  obtain ⟨-, -, slots⟩ := h.object intact away
  have same : ∀ l ∈ dirSlots g disk first, rawAt disk' l = rawAt disk l := fun l mem => h.raw intact away mem
  refine ⟨?_, fun l mem => same l (realSlots_sub mem), fun blank => ?_⟩
  · unfold live
    rw [slots, realSlots_congr same]
  · rw [slots]
    exact blank.congr same

theorem of_regions (fats : 0 < g.numFats)
    (outside : ∀ lba, disk' lba ≠ disk lba → ∃ r, IsRegion r ∧ own r ∧ lba ∈ regionLbas g r) :
    Frame g disk disk' own ∧ ∀ c, c < g.totalEntries → fatEntry g disk' c = fatEntry g disk c := by
  have entries : ∀ c, c < g.totalEntries → fatEntry g disk' c = fatEntry g disk c := by
    refine fun c bound => fatEntry_congr bound (fun lba low => ?_) fats
    by_contra changed
    obtain ⟨r, region, -, mem⟩ := outside lba changed
    have := region_outside region mem
    omega
  refine ⟨⟨fun c cell _ => entries c cell.bound, fun r region other lba mem => ?_⟩, entries⟩
  by_contra changed
  obtain ⟨r', region', mine, mem'⟩ := outside lba changed
  have isRegion : IsRegion r := region.elim .inl Cell.isRegion
  rw [region_apart isRegion region' mem mem'] at other
  exact other mine

end Frame

/-! An entry added to a directory -/

/-- What a directory is like when an entry has been added. The list `new` is empty if no
scan will show the entry. -/
structure Added (g : Geometry) (disk disk' : Nat → Sector) (first : Nat) (entry : List (BitVec 8))
    (new : List Loc) : Prop where
  intact : Intact g disk' first
  place : ∃ before behind, live g disk first = before ++ behind ∧
    live g disk' first = before ++ new ++ behind
  one : new.length ≤ 1
  raw : ∀ l ∈ new, rawAt disk' l = ofBytes entry ∧ l ∉ live g disk first
  old : ∀ l ∈ live g disk first, rawAt disk' l = rawAt disk l
  blank : Blank disk' (dirSlots g disk' first)
  frame : Frame g disk disk' (· ∈ regionsOf g disk first)
  regions : ∀ r ∈ regionsOf g disk' first, r ∈ regionsOf g disk first ∨
    2 ≤ r ∧ r < g.totalEntries ∧ fatEntry g disk r = 0

section Adding

variable {g : Geometry} {disk : Nat → Sector} {first : Nat} {entry : List (BitVec 8)} {l : Loc}

structure SlotWritten (g : Geometry) (disk disk' : Nat → Sector) (first : Nat) (l : Loc) : Prop where
  changes : ∀ lba, disk' lba ≠ disk lba → ∃ r, IsRegion r ∧ r ∈ regionsOf g disk first ∧ lba ∈ regionLbas g r
  entries : ∀ c < g.totalEntries, fatEntry g disk' c = fatEntry g disk c
  frame : Frame g disk disk' (· ∈ regionsOf g disk first)
  intact : Intact g disk' first
  regions : regionsOf g disk' first = regionsOf g disk first
  slots : dirSlots g disk' first = dirSlots g disk first
  edited : EditedAt disk disk' (dirSlots g disk first) l

theorem putAt_written {k : Nat} {bytes : List (BitVec 8)} (fats : 0 < g.numFats) (intact : Intact g disk first)
    (mem : l ∈ dirSlots g disk first) (inside : k + bytes.length ≤ 32) :
    SlotWritten g disk (putAt disk l k bytes) first l := by
  obtain ⟨aligned, r, inDir, region, inRegion⟩ := mem_dirSlots intact mem
  have changes : ∀ lba, putAt disk l k bytes lba ≠ disk lba →
      ∃ r, IsRegion r ∧ r ∈ regionsOf g disk first ∧ lba ∈ regionLbas g r := by
    intro lba changed
    by_cases here : lba = l.1
    · exact ⟨r, region.elim .inl Cell.isRegion, inDir, here ▸ inRegion⟩
    · exact absurd (putAt_sector here) changed
  obtain ⟨frame, entries⟩ : Frame g disk (putAt disk l k bytes) (· ∈ regionsOf g disk first) ∧ _ :=
    Frame.of_regions fats changes
  obtain ⟨intact', regions, slots⟩ := intact.object_congr fun c _ cell => entries c cell.bound
  exact ⟨changes, entries, frame, intact', regions, slots, fun x inDir other =>
    rawAt_putAt_other inside aligned (mem_dirSlots intact inDir).1 other⟩

theorem SlotWritten.sector {disk' : Nat → Sector} {r lba : Nat} (h : SlotWritten g disk disk' first l) (isRegion : IsRegion r)
    (apart : r ∉ regionsOf g disk first) (mem : lba ∈ regionLbas g r) : disk' lba = disk lba := by
  by_contra changed
  obtain ⟨r', isRegion', mine, mem'⟩ := h.changes lba changed
  rw [region_apart isRegion isRegion' mem mem'] at apart
  exact apart mine

theorem added_in_place (fats : 0 < g.numFats) (intact : Intact g disk first)
    (blank : Blank disk (dirSlots g disk first)) (length : entry.length = 32) (goes : ofBytes entry 0 ≠ 0#8)
    (found : (dirSlots g disk first).find? (freeSlot disk) = some l) :
    Added g disk (putAt disk l 0 entry) first entry (ifReal (putAt disk l 0 entry) l) := by
  have written : SlotWritten g disk (putAt disk l 0 entry) first l :=
    putAt_written fats intact (List.mem_of_find?_eq_some found) (by omega)
  have raw : rawAt (putAt disk l 0 entry) l = ofBytes entry := by
    rw [rawAt_putAt_self (by omega), patch_whole length]
  obtain ⟨before, behind, old, new, blank', fresh⟩ :=
    fill_slot blank (nodup_dirSlots intact) written.edited found (raw ▸ goes)
  refine ⟨written.intact, ⟨before, behind, old, ?_⟩, ?_, fun x inNew => ?_, fun x inOld => ?_, written.slots ▸ blank',
    written.frame, fun c mem => .inl (written.regions ▸ mem)⟩
  · unfold live
    rw [written.slots, new]
  · unfold ifReal
    split <;> simp
  · have here : x = l := by
      unfold ifReal at inNew
      split at inNew
      · exact List.mem_singleton.mp inNew
      · cases inNew
    subst here
    refine ⟨raw, ?_⟩
    unfold live
    rw [old]
    exact fresh
  · refine written.edited x (realSlots_sub inOld) ?_
    rintro rfl
    unfold live at inOld
    rw [old] at inOld
    exact fresh inOld

end Adding

/-- The fresh cluster `c` has been linked behind `last`. -/
structure Lengthened (g : Geometry) (disk disk' : Nat → Sector) (last c : Nat) : Prop where
  table : ∀ x, x < g.totalEntries → fatEntry g disk' x =
    if x = last then c else if x = c then fat16EocMin else fatEntry g disk x
  regions : ∀ r, IsRegion r → r ≠ c → ∀ lba ∈ regionLbas g r, disk' lba = disk lba

section Lengthening

variable {g : Geometry} {disk disk' : Nat → Sector} {first last c : Nat} {ys zs : List Nat}

theorem linked_lengthened (fats : 0 < g.numFats) (bound : c < g.totalEntries) (short : c < 2 ^ 16)
    (boundL : last < g.totalEntries) : Lengthened g disk (linked g disk last c) last c := by
  refine ⟨fun x boundX => ?_, fun r region _ lba mem => linked_region bound boundL region mem⟩
  rw [fatEntry_linked fats bound boundL boundX, Nat.mod_eq_of_lt short]

theorem Lengthened.cell_ne (free : fatEntry g disk c = 0) {x : Nat} (cell : Cell g disk x) : x ≠ c := by
  rintro rfl
  exact cell.taken free

theorem Lengthened.frame (h : Lengthened g disk disk' last c) (low : 2 ≤ c) (free : fatEntry g disk c = 0) :
    Frame g disk disk' (· = last) := by
  refine ⟨fun x cell other => ?_, fun r region _ lba mem => ?_⟩
  · rw [h.table x cell.bound, if_neg other, if_neg (cell_ne free cell)]
  · refine h.regions r (region.elim .inl Cell.isRegion) ?_ lba mem
    rcases region with rfl | cell
    · omega
    · exact cell_ne free cell

/-- The chain that went through `last` now ends at the fresh cluster, or at `last` if the
number of the fresh cluster reads as an end mark. -/
theorem Lengthened.chain (h : Lengthened g disk disk' last c) (low : 2 ≤ c) (bound : c < g.totalEntries)
    (free : fatEntry g disk c = 0) (chain : ChainOf g disk first (ys ++ last :: zs)) :
    ChainOf g disk' first (ys ++ last :: if c < fat16EocMin then [c] else []) := by
  have cells := chain.cells
  have nodup := chain.nodup
  have same : ∀ x ∈ ys, fatEntry g disk' x = fatEntry g disk x := by
    intro x mem
    have cell := cells x (by simp [mem])
    rw [h.table x cell.bound, if_neg, if_neg (cell_ne free cell)]
    rintro rfl
    exact (List.nodup_append.mp nodup).2.2 x mem x List.mem_cons_self rfl
  have link : fatEntry g disk' last = c := by
    rw [h.table last (cells last (by simp)).bound, if_pos rfl]
  split
  · rename_i mid
    have eoc : fatEntry g disk' c = fat16EocMin := by
      rw [h.table c bound, if_neg (cell_ne free (cells last (by simp))).symm, if_pos rfl]
    have shortC : c < 2 ^ 16 := lt_trans mid (by decide)
    refine ⟨chain.spells.graft (fun x mem => ?_) ?_, fun x mem => ?_⟩
    · unfold nextOf
      rw [same x mem]
    · rw [nextOf_mid link mid]
      exact ⟨rfl, nextOf_end (by rw [eoc])⟩
    · simp only [List.mem_append, List.mem_cons, List.not_mem_nil, or_false] at mem
      rcases mem with inYs | rfl | rfl
      · obtain ⟨low, bound, short, taken⟩ := cells x (by simp [inYs])
        exact ⟨low, bound, short, same x inYs ▸ taken⟩
      · obtain ⟨lowL, boundL, shortL, -⟩ := cells x (by simp)
        exact ⟨lowL, boundL, shortL, by omega⟩
      · exact ⟨low, bound, shortC, by rw [eoc]; decide⟩
  · rename_i high
    exact chain.cut (by omega) same

end Lengthening

section Growing

variable {g : Geometry} {disk : Nat → Sector} {first last c : Nat} {entry : List (BitVec 8)}

/-- The disk after a directory got the cluster `c` with an entry in it. -/
def grownDir (g : Geometry) (disk : Nat → Sector) (last c : Nat) (entry : List (BitVec 8)) : Nat → Sector :=
  putAt (zeroed (linked g disk last c) (clusterLbas g c)) (clusterToLba g c, 0) 0 entry

theorem clusterSlots_cons (per : 0 < g.sectorsPerCluster) (c : Nat) :
    ∃ rest, slotsOf (clusterLbas g c) = (clusterToLba g c, 0) :: rest := by
  obtain ⟨k, hk⟩ : ∃ k, g.sectorsPerCluster = k + 1 := ⟨g.sectorsPerCluster - 1, by omega⟩
  obtain ⟨offs, first⟩ : ∃ offs, direntOffsets = 0 :: offs := ⟨_, rfl⟩
  unfold clusterLbas slotsOf sectorSlots
  rw [hk, List.range_succ_eq_map, List.map_cons, List.flatMap_cons, first, List.map_cons, List.cons_append,
    sectorOf_zero]
  exact ⟨_, rfl⟩

theorem firstLba_mem (per : 0 < g.sectorsPerCluster) : clusterToLba g c ∈ clusterLbas g c :=
  List.mem_map.mpr ⟨0, List.mem_range.mpr per, sectorOf_zero⟩

theorem grownDir_lengthened (fats : 0 < g.numFats) (per : 0 < g.sectorsPerCluster) (low : 2 ≤ c)
    (bound : c < g.totalEntries) (short : c < 2 ^ 16) (boundL : last < g.totalEntries) :
    Lengthened g disk (grownDir g disk last c entry) last c := by
  have linked : Lengthened g disk (linked g disk last c) last c := linked_lengthened fats bound short boundL
  have region : regionLbas g c = clusterLbas g c := if_neg (by omega)
  have change : ∀ lba, grownDir g disk last c entry lba ≠ Isunux.linked g disk last c lba →
      lba ∈ regionLbas g c := by
    intro lba changed
    rw [region]
    by_contra outside
    refine changed ?_
    unfold grownDir
    rw [putAt_sector, zeroed, if_neg outside]
    rintro rfl
    exact outside (firstLba_mem per)
  obtain ⟨-, entries⟩ : Frame g (Isunux.linked g disk last c) (grownDir g disk last c entry) (· = c) ∧ _ :=
    Frame.of_regions fats fun lba changed => ⟨c, .inr ⟨low, short⟩, rfl, change lba changed⟩
  refine ⟨fun x boundX => (entries x boundX).trans (linked.table x boundX), fun r isRegion other lba mem => ?_⟩
  rw [← linked.regions r isRegion other lba mem]
  by_contra changed
  exact other (region_apart isRegion (.inr ⟨low, short⟩) mem (change lba changed))

theorem grownDir_slots (per : 0 < g.sectorsPerCluster) (length : entry.length = 32) :
    rawAt (grownDir g disk last c entry) (clusterToLba g c, 0) = ofBytes entry ∧
      ∀ x ∈ slotsOf (clusterLbas g c), x ≠ (clusterToLba g c, 0) →
        rawAt (grownDir g disk last c entry) x = zeroEntry := by
  obtain ⟨rest, slots⟩ := clusterSlots_cons per c
  have aligned : Aligned (clusterToLba g c, 0) := rfl
  refine ⟨?_, fun x mem other => ?_⟩
  · unfold grownDir
    rw [rawAt_putAt_self (by omega), patch_whole length]
  · unfold grownDir
    rw [rawAt_putAt_other (by omega) aligned (aligned_of_mem mem) other]
    funext i
    unfold rawAt entryAt zeroed zeroEntry
    rw [if_pos (mem_slotsOf.mp mem).1]
    exact ite_self _

end Growing

end Isunux
