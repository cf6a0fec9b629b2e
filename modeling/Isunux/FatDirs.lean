import Isunux.FatTable

/-! Directories as lists of slots. The root region and a cluster chain differ in the
sectors they run through only, and a scan of either is a scan of its slots. -/
namespace Isunux

/-- A sector and a byte offset in it. -/
abbrev Loc := Nat × Nat

def rawAt (disk : Nat → Sector) (l : Loc) : Nat → BitVec 8 := entryAt (disk l.1) l.2

def display (disk : Nat → Sector) (l : Loc) : List (BitVec 8) := fatDecode83Name (rawAt disk l)

def sectorSlots (lba : Nat) : List Loc := direntOffsets.map fun off => (lba, off)

def slotsOf (lbas : List Nat) : List Loc := lbas.flatMap sectorSlots

/-- The slots in front of the end mark. -/
def usedSlots (disk : Nat → Sector) (slots : List Loc) : List Loc :=
  slots.takeWhile fun l => rawAt disk l 0 != 0#8

/-- The slots whose entries a visitor is called for. -/
def realSlots (disk : Nat → Sector) (slots : List Loc) : List Loc :=
  (usedSlots disk slots).filter fun l => realEntry (rawAt disk l)

section Scan

variable {σ : Type} {visitor : Visitor σ} {disk : Nat → Sector} {c : Fat × σ}

def scanSlots (visitor : Visitor σ) (disk : Nat → Sector) : List Loc → Fat × σ → Nat → (Fat × σ) × Nat × Bool
  | [], c, index => (c, index, false)
  | l :: rest, c, index =>
    if rawAt disk l 0 = 0#8 then (c, index, true)
    else if realEntry (rawAt disk l) then
      match visitor (display disk l) (rawAt disk l) index l.1 l.2 c with
      | (c, true) => (c, index, true)
      | (c, false) => scanSlots visitor disk rest c (index + 1)
    else scanSlots visitor disk rest c index

/-- A visitor that may take a node but does not touch the disk. -/
def SteadyVisitor (visitor : Visitor σ) : Prop :=
  ∀ name raw index lba off (c : Fat × σ), c.1.Calm →
    (visitor name raw index lba off c).1.1.Calm ∧ (visitor name raw index lba off c).1.1.disk = c.1.disk

theorem scanSlots_steady (steady : SteadyVisitor visitor) (calm : c.1.Calm) (slots : List Loc) (index : Nat) :
    (scanSlots visitor disk slots c index).1.1.Calm ∧
      (scanSlots visitor disk slots c index).1.1.disk = c.1.disk := by
  induction slots generalizing c index with
  | nil => exact ⟨calm, rfl⟩
  | cons l rest ih =>
    rw [scanSlots]
    split
    · exact ⟨calm, rfl⟩
    split
    · obtain ⟨calm', disk'⟩ := steady (display disk l) (rawAt disk l) index l.1 l.2 c calm
      split
      · rename_i next stop
        rw [stop] at calm' disk'
        exact ⟨calm', disk'⟩
      · rename_i next goes
        rw [goes] at calm' disk'
        rw [← disk']
        exact ih calm' _
    · exact ih calm _

theorem scanSlots_append (xs ys : List Loc) (index : Nat) :
    scanSlots visitor disk (xs ++ ys) c index =
      match scanSlots visitor disk xs c index with
      | (c, index, true) => (c, index, true)
      | (c, index, false) => scanSlots visitor disk ys c index := by
  induction xs generalizing c index with
  | nil => rfl
  | cons l rest ih =>
    rw [List.cons_append, scanSlots, scanSlots]
    split
    · rfl
    split
    · split
      · rfl
      · exact ih _
    · exact ih _

theorem fatScanSectorDirents_eq (lba : Nat) (offs : List Nat) (index : Nat) :
    fatScanSectorDirents visitor (disk lba) lba offs c index =
      scanSlots visitor disk (offs.map fun off => (lba, off)) c index := by
  induction offs generalizing c index with
  | nil => rfl
  | cons off rest ih =>
    rw [List.map_cons, scanSlots, fatScanSectorDirents]
    by_cases ended : rawAt disk (lba, off) 0 = 0#8
    · rw [if_pos ended]
      exact if_pos ended
    · rw [if_neg ended]
      refine (if_neg ended).trans ?_
      by_cases real : realEntry (rawAt disk (lba, off)) = true
      · rw [if_pos real]
        refine (if_pos real).trans ?_
        dsimp only [display, rawAt]
        cases visitor (fatDecode83Name (entryAt (disk lba) off)) (entryAt (disk lba) off) index lba off c with
        | mk next stop =>
          cases stop
          · exact ih _
          · rfl
      · rw [if_neg real]
        exact (if_neg real).trans (ih _)

theorem slotsOf_append (xs ys : List Nat) : slotsOf (xs ++ ys) = slotsOf xs ++ slotsOf ys :=
  List.flatMap_append

theorem scanSectors_calm (steady : SteadyVisitor visitor) (calm : c.1.Calm) (same : c.1.disk = disk)
    (lbas : List Nat) (index : Nat) :
    scanSectors visitor lbas c index = scanSlots visitor disk (slotsOf lbas) c index := by
  induction lbas generalizing c index with
  | nil => rfl
  | cons lba rest ih =>
    rw [scanSectors, ataReadSector_calm calm]
    dsimp only
    rw [same, fatScanSectorDirents_eq, slotsOf, List.flatMap_cons, scanSlots_append, ← sectorSlots]
    have after : (scanSlots visitor disk (sectorSlots lba) c index).1.1.Calm ∧
        (scanSlots visitor disk (sectorSlots lba) c index).1.1.disk = c.1.disk :=
      scanSlots_steady steady calm _ _
    generalize scanSlots visitor disk (sectorSlots lba) c index = r at after
    obtain ⟨next, index', stop⟩ := r
    cases stop
    · exact ih after.1 (after.2.trans same) _
    · rfl

section Real

variable {l : Loc} {rest : List Loc}

theorem realSlots_end (ended : rawAt disk l 0 = 0#8) : realSlots disk (l :: rest) = [] := by
  unfold realSlots usedSlots
  rw [List.takeWhile_cons_of_neg (by simpa using ended)]
  rfl

theorem realSlots_real (goes : rawAt disk l 0 ≠ 0#8) (real : realEntry (rawAt disk l) = true) :
    realSlots disk (l :: rest) = l :: realSlots disk rest := by
  unfold realSlots usedSlots
  rw [List.takeWhile_cons_of_pos (by simpa using goes)]
  exact List.filter_cons_of_pos (by exact real)

theorem realSlots_skip (goes : rawAt disk l 0 ≠ 0#8) (skip : ¬ realEntry (rawAt disk l) = true) :
    realSlots disk (l :: rest) = realSlots disk rest := by
  unfold realSlots usedSlots
  rw [List.takeWhile_cons_of_pos (by simpa using goes)]
  exact List.filter_cons_of_neg (by exact skip)

end Real

def visitSlots (visitor : Visitor σ) (disk : Nat → Sector) : List Loc → Fat × σ → Nat → Fat × σ
  | [], c, _ => c
  | l :: rest, c, index =>
    match visitor (display disk l) (rawAt disk l) index l.1 l.2 c with
    | (c, true) => c
    | (c, false) => visitSlots visitor disk rest c (index + 1)

theorem scanSlots_visits (slots : List Loc) (index : Nat) :
    (scanSlots visitor disk slots c index).1 = visitSlots visitor disk (realSlots disk slots) c index := by
  induction slots generalizing c index with
  | nil => rfl
  | cons l rest ih =>
    rw [scanSlots]
    by_cases ended : rawAt disk l 0 = 0#8
    · rw [if_pos ended, realSlots_end ended]
      rfl
    rw [if_neg ended]
    by_cases real : realEntry (rawAt disk l) = true
    · rw [if_pos real, realSlots_real ended real, visitSlots]
      cases visitor (display disk l) (rawAt disk l) index l.1 l.2 c with
      | mk next stop =>
        cases stop
        · exact ih _
        · rfl
    · rw [if_neg real, realSlots_skip ended real]
      exact ih _

variable {g : Geometry} {first : Nat} {xs : List Nat}

def chainLbas (g : Geometry) (xs : List Nat) : List Nat := xs.flatMap (clusterLbas g)

theorem scanChain_calm (steady : SteadyVisitor visitor) (calm : c.1.Calm) (same : c.1.disk = disk)
    (chain : ChainOf g disk first xs) (mid : first < fat16EocMin) {fuel : Nat} (enough : xs.length < fuel)
    (index : Nat) :
    scanChain g visitor fuel first c index =
      some (scanSlots visitor disk (slotsOf (chainLbas g xs)) c index).1 := by
  induction xs generalizing first c index fuel with
  | nil => cases chain.spells
  | cons x rest ih =>
    obtain rfl : first = x := Option.some.inj chain.spells.1
    obtain ⟨fuel, rfl⟩ : ∃ k, fuel = k + 1 := ⟨fuel - 1, by simp at enough; omega⟩
    have cell := chain.cells first List.mem_cons_self
    rw [scanChain, if_pos ⟨cell.low, mid⟩, scanSectors_calm steady calm same]
    have after : (scanSlots visitor disk (slotsOf (clusterLbas g first)) c index).1.1.Calm ∧
        (scanSlots visitor disk (slotsOf (clusterLbas g first)) c index).1.1.disk = c.1.disk :=
      scanSlots_steady steady calm _ _
    rw [chainLbas, List.flatMap_cons, slotsOf_append, scanSlots_append]
    generalize scanSlots visitor disk (slotsOf (clusterLbas g first)) c index = r at after
    obtain ⟨next, index', stop⟩ := r
    cases stop
    · have disk' := after.2.trans same
      dsimp only at after disk' ⊢
      rw [fatNextCluster_calm after.1, disk']
      cases rest with
      | nil =>
        have eoc := chain.only
        obtain ⟨fuel, rfl⟩ : ∃ k, fuel = k + 1 := ⟨fuel - 1, by simp at enough; omega⟩
        rw [scanChain, if_neg (by omega)]
        rfl
      | cons y ys =>
        obtain ⟨entry, mid', tail⟩ := chain.tail
        rw [entry]
        exact ih after.1 disk' tail mid' (by simp at enough ⊢; omega) _
    · rfl

end Scan

/-- The slots of the directory whose first cluster is `first`; 0 stands for the root. The
driver sees nothing of a directory whose first cluster reads as an end mark. -/
inductive DirSlots (g : Geometry) (disk : Nat → Sector) : Nat → List Loc → Prop where
  | root : DirSlots g disk 0 (slotsOf (rootLbas g))
  | chain {first : Nat} {xs : List Nat} (chain : ChainOf g disk first xs) (mid : first < fat16EocMin) :
    DirSlots g disk first (slotsOf (chainLbas g xs))
  | high {first : Nat} (high : fat16EocMin ≤ first) : DirSlots g disk first []

def fullFuel : Nat := 2 ^ 16

section Iterate

variable {σ : Type} {visitor : Visitor σ} {g : Geometry} {fuel : Nat} {s : Fat} {slots : List Loc}
  {dir : Option Nat}

theorem fatIterateDir_calm (steady : SteadyVisitor visitor) (calm : s.Calm) (enough : fullFuel ≤ fuel) {st : σ}
    (slotsAre : DirSlots g s.disk (s.metaOf dir).firstCluster slots) :
    fatIterateDir g visitor fuel dir (s, st) = some (visitSlots visitor s.disk (realSlots s.disk slots) (s, st) 0) := by
  unfold fatIterateDir
  dsimp only
  generalize (s.metaOf dir).firstCluster = first at slotsAre
  cases slotsAre with
  | root => rw [if_pos rfl, scanSectors_calm steady calm rfl, scanSlots_visits]
  | chain chain mid =>
    have cell := chain.cells _ chain.mem_first
    have low := cell.low
    have length := chain.length_lt
    unfold fullFuel at enough
    rw [if_neg (by omega), scanChain_calm steady calm rfl chain mid (by omega), scanSlots_visits]
  | high high =>
    unfold fat16EocMin at high
    unfold fullFuel at enough
    obtain ⟨fuel, rfl⟩ : ∃ k, fuel = k + 1 := ⟨fuel - 1, by omega⟩
    rw [if_neg (by omega), scanChain, if_neg (by unfold fat16EocMin; omega)]
    rfl

def findSlot (disk : Nat → Sector) (slots : List Loc) (name : List (BitVec 8)) : Option Loc :=
  (realSlots disk slots).find? fun l => display disk l == name

theorem fatAllocNode_steady (node : FatNode) (calm : s.Calm) :
    (fatAllocNode s node).1.Calm ∧ (fatAllocNode s node).1.disk = s.disk := by
  unfold fatAllocNode
  split
  · exact ⟨calm, rfl⟩
  · exact ⟨calm, rfl⟩

theorem fatLookupVisitor_steady (want : List (BitVec 8)) (parent : Option Nat) :
    SteadyVisitor (fatLookupVisitor want parent) := by
  intro name raw index lba off c calm
  have alloc := fatAllocNode_steady (entryNode parent name raw lba off) calm
  unfold fatLookupVisitor
  split
  · exact ⟨calm, rfl⟩
  · split
    · rename_i full
      rw [full] at alloc
      exact alloc
    · rename_i took
      rw [took] at alloc
      exact alloc

/-- The node of an entry, if the pool has one left. -/
def handOut (s : Fat) (dir : Option Nat) : Option Loc → Fat × Option Nat
  | none => (s, none)
  | some l => fatAllocNode s (entryNode dir (display s.disk l) (rawAt s.disk l) l.1 l.2)

theorem visitSlots_lookup (want : List (BitVec 8)) (real : List Loc) (index : Nat) :
    visitSlots (fatLookupVisitor want dir) s.disk real (s, none) index =
      handOut s dir (real.find? fun l => display s.disk l == want) := by
  induction real generalizing index with
  | nil => rfl
  | cons l rest ih =>
    rw [visitSlots]
    unfold fatLookupVisitor
    by_cases here : display s.disk l = want
    · rw [if_neg (not_not.mpr here), List.find?_cons_of_pos (by simpa using here)]
      dsimp only [handOut]
      generalize fatAllocNode s (entryNode dir (display s.disk l) (rawAt s.disk l) l.1 l.2) = r
      obtain ⟨s', node⟩ := r
      cases node <;> rfl
    · rw [if_pos here, List.find?_cons_of_neg (by simpa using here)]
      exact ih _

theorem fatDirLookup_calm (calm : s.Calm) (enough : fullFuel ≤ fuel)
    (slotsAre : DirSlots g s.disk (s.metaOf dir).firstCluster slots) (name : List (BitVec 8)) :
    fatDirLookup g fuel s dir name = some (handOut s dir (findSlot s.disk slots name)) := by
  unfold fatDirLookup
  rw [fatIterateDir_calm (fatLookupVisitor_steady name dir) calm enough slotsAre, visitSlots_lookup]
  rfl

theorem fatReaddirVisitor_steady (want size : Nat) : SteadyVisitor (fatReaddirVisitor want size) := by
  intro name raw index lba off c calm
  unfold fatReaddirVisitor
  split <;> exact ⟨calm, rfl⟩

theorem visitSlots_readdir (want size : Nat) (real : List Loc) {index : Nat} (ahead : index ≤ want) :
    visitSlots (fatReaddirVisitor want size) s.disk real (s, none) index =
      (s, (real[want - index]?).map fun l => (display s.disk l).take (size - 1)) := by
  induction real generalizing index with
  | nil => rfl
  | cons l rest ih =>
    rw [visitSlots]
    unfold fatReaddirVisitor
    by_cases here : index = want
    · subst here
      simp
    · rw [if_pos here, show want - index = (want - (index + 1)) + 1 by omega, List.getElem?_cons_succ]
      exact ih (by omega)

theorem fatDirReaddir_calm (calm : s.Calm) (enough : fullFuel ≤ fuel)
    (slotsAre : DirSlots g s.disk (s.metaOf dir).firstCluster slots) (index size : Nat) :
    fatDirReaddir g fuel s dir index size =
      some (s, ((realSlots s.disk slots)[index]?).map fun l => (display s.disk l).take (size - 1)) := by
  unfold fatDirReaddir
  rw [fatIterateDir_calm (fatReaddirVisitor_steady index size) calm enough slotsAre,
    visitSlots_readdir index size _ (Nat.zero_le _)]
  rfl

/-- The names of the entries that every subdirectory has for itself and its parent. -/
def isDots (name : List (BitVec 8)) : Bool := name == dotName || name == dotDotName

theorem fatDotCheckVisitor_steady : SteadyVisitor fatDotCheckVisitor := by
  intro name raw index lba off c calm
  unfold fatDotCheckVisitor
  split <;> exact ⟨calm, rfl⟩

theorem visitSlots_dotCheck (real : List Loc) (index : Nat) :
    visitSlots fatDotCheckVisitor s.disk real (s, true) index =
      (s, real.all fun l => isDots (display s.disk l)) := by
  induction real generalizing index with
  | nil => rfl
  | cons l rest ih =>
    rw [visitSlots, List.all_cons]
    unfold fatDotCheckVisitor
    by_cases proper : display s.disk l ≠ dotName ∧ display s.disk l ≠ dotDotName
    · simp [isDots, proper]
    · have dots : isDots (display s.disk l) = true := by
        unfold isDots
        simp only [Bool.or_eq_true, beq_iff_eq]
        tauto
      rw [if_neg proper, dots, Bool.true_and]
      exact ih _

theorem dotCheck_calm (calm : s.Calm) (enough : fullFuel ≤ fuel)
    (slotsAre : DirSlots g s.disk (s.metaOf dir).firstCluster slots) :
    fatIterateDir g fatDotCheckVisitor fuel dir (s, true) =
      some (s, (realSlots s.disk slots).all fun l => isDots (display s.disk l)) := by
  rw [fatIterateDir_calm fatDotCheckVisitor_steady calm enough slotsAre, visitSlots_dotCheck]

end Iterate

end Isunux
