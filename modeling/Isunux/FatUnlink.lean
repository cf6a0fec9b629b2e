import Isunux.FatVolume
import Isunux.FatCopies

/-! `fat_dir_unlink` on a disk whose calls fail at will. It gives the chain of the file
back before it looks at the entry again, so a call that fails behind that point has lost
the file already. -/
namespace Isunux

/-! Calls that may fail -/

/-- How the calls behind the next `n` end. -/
def laterOutcomes (o : Nat → Outcome) (n : Nat) : Nat → Outcome := fun i => o (i + n)

/-- What is left of the outcomes after an entry has been written to so many copies. A copy
that cannot be read is not written. -/
def copyCalls : Nat → (Nat → Outcome) → (Nat → Outcome)
  | 0, o => o
  | copies + 1, o => copyCalls copies (if o 0 = .done then laterOutcomes o 2 else laterOutcomes o 1)

/-- The sector of the first copy is read, and what is written to it arrives. -/
def Overwrites (o : Nat → Outcome) : Prop := o 0 = .done ∧ o 1 ≠ .failed

instance (o : Nat → Outcome) : Decidable (Overwrites o) := inferInstanceAs (Decidable (_ ∧ _))

/-- What is left of the outcomes after a chain of so many clusters has been given back,
and whether an entry of the first copy was overwritten. -/
def freeCalls (copies : Nat) : Nat → (Nat → Outcome) → (Nat → Outcome) × Bool
  | 0, o => (o, false)
  | clusters + 1, o =>
    let rest := copyCalls copies (laterOutcomes o 1)
    let hit := decide (Overwrites (laterOutcomes o 1))
    -- without the link of the first cluster the rest of the chain is not found
    if o 0 = .done then ((freeCalls copies clusters rest).1, hit || (freeCalls copies clusters rest).2)
    else (rest, hit)

section Entries

variable {g : Geometry} {s : Fat} {c value : Nat}

/-- One round of `fat_write_fat_entry`. -/
def writeCopy (g : Geometry) (cluster value : Nat) (s : Fat) (copy : Nat) : Fat :=
  let lba := g.firstFatSector + copy * g.fatSize16 + cluster * 2 / 512
  match ataReadSector s lba with
  | (s, none) => s
  | (s, some sector) =>
    (ataWriteSector s lba (patch sector (cluster * 2 % 512) [byteOf value 0, byteOf value 1])).1

theorem writeCopy_eq (copy : Nat) :
    writeCopy g c value s copy =
      { s with
        outcomes := if s.outcomes 0 = .done then laterOutcomes s.outcomes 2 else laterOutcomes s.outcomes 1
        disk :=
          if Overwrites s.outcomes then
            Function.update s.disk (g.firstFatSector + copy * g.fatSize16 + c * 2 / 512)
              (patch (s.disk (g.firstFatSector + copy * g.fatSize16 + c * 2 / 512)) (c * 2 % 512)
                [byteOf value 0, byteOf value 1])
          else s.disk } := by
  unfold writeCopy ataReadSector
  by_cases read : s.outcomes 0 = .done
  · dsimp only
    rw [if_pos read, if_pos read]
    dsimp only
    unfold ataWriteSector
    have next : s.tick.outcomes 0 = s.outcomes 1 := rfl
    rw [next]
    split
    · rename_i write
      have hit : Overwrites s.outcomes := ⟨read, by rw [write]; nofun⟩
      rw [if_pos hit]
      rfl
    · rename_i write
      have miss : ¬ Overwrites s.outcomes := fun both => both.2 write
      rw [if_neg miss]
      rfl
    · rename_i write
      have hit : Overwrites s.outcomes := ⟨read, by rw [write]; nofun⟩
      rw [if_pos hit]
      rfl
  · dsimp only
    have miss : ¬ Overwrites s.outcomes := fun both => read both.1
    rw [if_neg read, if_neg read, if_neg miss]
    rfl

/-- What an update of an entry leaves, whatever calls fail. -/
structure EntryCalls (g : Geometry) (s t : Fat) (c value : Nat) (outcomes : Nat → Outcome) (hit : Prop)
    [Decidable hit] : Prop where
  outcomes : t.outcomes = outcomes
  nodes : t.nodes = s.nodes
  count : t.count = s.count
  outside : ∀ lba, ¬ InTable g lba → t.disk lba = s.disk lba
  entries : ∀ c' < g.totalEntries,
    fatEntry g t.disk c' = if c' = c ∧ hit then value % 2 ^ 16 else fatEntry g s.disk c'

theorem otherCopies (bound : c < g.totalEntries) {copies : List Nat} (real : ∀ k ∈ copies, 0 < k ∧ k < g.numFats) :
    EntryCalls g s (copies.foldl (writeCopy g c value) s) c value (copyCalls copies.length s.outcomes) False := by
  have sector : c * 2 / 512 < g.fatSize16 := by
    unfold Geometry.totalEntries at bound
    omega
  induction copies generalizing s with
  | nil => exact ⟨rfl, rfl, rfl, fun _ _ => rfl, fun c' _ => (if_neg fun both => both.2).symm⟩
  | cons k rest ih =>
    obtain ⟨positive, low⟩ := real k List.mem_cons_self
    obtain ⟨outcomes, nodes, count, outside, entries⟩ := ih (s := writeCopy g c value s k) fun k mem =>
      real k (List.mem_cons_of_mem _ mem)
    have round := @writeCopy_eq g s c value k
    rw [round] at outcomes nodes count outside entries
    have there := table_sector low sector
    refine ⟨?_, ?_, ?_, fun lba out => ?_, fun c' bound' => ?_⟩
    · rw [List.foldl_cons, round]
      exact outcomes
    · rw [List.foldl_cons, round]
      exact nodes
    · rw [List.foldl_cons, round]
      exact count
    · rw [List.foldl_cons, round]
      refine (outside lba out).trans ?_
      dsimp only
      split
      · refine Function.update_of_ne ?_ _ _
        rintro rfl
        exact out there
      · rfl
    · have sector' : c' * 2 / 512 < g.fatSize16 := by
        unfold Geometry.totalEntries at bound'
        omega
      rw [List.foldl_cons, round]
      have none : ¬ (c' = c ∧ False) := fun both => both.2
      refine (entries c' bound').trans ?_
      rw [if_neg none, if_neg none]
      dsimp only
      split
      · have apart := copy_apart (Nat.ne_of_gt positive) sector' sector
        rw [Nat.zero_mul, Nat.add_zero] at apart
        rw [fatEntry, Function.update_of_ne apart]
        rfl
      · rfl

theorem fatWriteFatEntry_calls (fats : 0 < g.numFats) (bound : c < g.totalEntries) :
    EntryCalls g s (fatWriteFatEntry g s c value) c value (copyCalls g.numFats s.outcomes) (Overwrites s.outcomes) := by
  have sector : c * 2 / 512 < g.fatSize16 := by
    unfold Geometry.totalEntries at bound
    omega
  obtain ⟨n, many⟩ := Nat.exists_eq_succ_of_ne_zero (Nat.pos_iff_ne_zero.mp fats)
  have loop : fatWriteFatEntry g s c value = (List.range' 1 n).foldl (writeCopy g c value) (writeCopy g c value s 0) := by
    unfold fatWriteFatEntry writeCopies
    rw [many, List.range_eq_range', Nat.succ_eq_add_one, List.range'_succ]
    rfl
  have round := @writeCopy_eq g s c value 0
  obtain ⟨outcomes, nodes, count, outside, entries⟩ :=
      @otherCopies _ (writeCopy g c value s 0) _ value bound (List.range' 1 n) fun k mem => by
      rw [List.mem_range'_1] at mem
      omega
  rw [← loop] at outcomes nodes count outside entries
  rw [round] at outcomes nodes count outside entries
  rw [Nat.zero_mul, Nat.add_zero] at outcomes nodes count outside entries
  refine ⟨?_, nodes, count, fun lba out => (outside lba out).trans ?_, fun c' bound' => (entries c' bound').trans ?_⟩
  · rw [outcomes, List.length_range', many]
    rfl
  · dsimp only
    split
    · refine Function.update_of_ne ?_ _ _
      rintro rfl
      exact out (table_first fats sector)
    · rfl
  · have none : ¬ (c' = c ∧ False) := fun both => both.2
    rw [if_neg none]
    dsimp only
    by_cases hit : Overwrites s.outcomes
    · rw [if_pos hit]
      by_cases own : c' = c
      · rw [if_pos ⟨own, hit⟩, own, fatEntry, Function.update_self, read16_patch_self]
      · have other : ¬ (c' = c ∧ Overwrites s.outcomes) := fun both => own both.1
        rw [if_neg other, fatEntry, fatEntry]
        by_cases same : g.firstFatSector + c' * 2 / 512 = g.firstFatSector + c * 2 / 512
        · rw [same, Function.update_self, read16_patch_other]
          simp only [List.length_cons, List.length_nil]
          omega
        · rw [Function.update_of_ne same]
    · have miss : ¬ (c' = c ∧ Overwrites s.outcomes) := fun both => hit both.2
      rw [if_neg hit, if_neg miss]

end Entries

section Chains

variable {g : Geometry} {s : Fat} {first fuel : Nat} {xs : List Nat}

/-- What the loop that gives a chain back leaves, whatever calls fail. -/
structure ChainCalls (g : Geometry) (s t : Fat) (xs : List Nat) (calls : (Nat → Outcome) × Bool) : Prop where
  outcomes : t.outcomes = calls.1
  nodes : t.nodes = s.nodes
  outside : ∀ lba, ¬ InTable g lba → t.disk lba = s.disk lba
  others : ∀ c < g.totalEntries, c ∉ xs → fatEntry g t.disk c = fatEntry g s.disk c
  kept : calls.2 = false → ∀ c < g.totalEntries, fatEntry g t.disk c = fatEntry g s.disk c
  lost : calls.2 = true → ∃ c ∈ xs, fatEntry g t.disk c = 0

theorem EntryCalls.last {t : Fat} {c : Nat} {rest : List Nat} (h : EntryCalls g s.tick t c 0
    (copyCalls g.numFats (laterOutcomes s.outcomes 1)) (Overwrites (laterOutcomes s.outcomes 1)))
    (bound : c < g.totalEntries) :
    ChainCalls g s t (c :: rest) (copyCalls g.numFats (laterOutcomes s.outcomes 1),
      decide (Overwrites (laterOutcomes s.outcomes 1))) := by
  refine ⟨h.outcomes, h.nodes, h.outside, fun d low off => ?_, fun miss d low => ?_, fun hit => ?_⟩
  · have other : ¬ (d = c ∧ Overwrites (laterOutcomes s.outcomes 1)) := fun both => off (both.1 ▸ List.mem_cons_self)
    rw [h.entries d low, if_neg other]
    rfl
  · have other : ¬ (d = c ∧ Overwrites (laterOutcomes s.outcomes 1)) := fun both => of_decide_eq_false miss both.2
    rw [h.entries d low, if_neg other]
    rfl
  · refine ⟨c, List.mem_cons_self, ?_⟩
    rw [h.entries c bound, if_pos ⟨rfl, of_decide_eq_true hit⟩, Nat.zero_mod]

theorem freeChain_calls (fats : 0 < g.numFats) (chain : ChainOf g s.disk first xs) (mid : first < fat16EocMin)
    (enough : xs.length < fuel) :
    ∃ t, freeChain g fuel s first = some t ∧ ChainCalls g s t xs (freeCalls g.numFats xs.length s.outcomes) := by
  induction xs generalizing s first fuel with
  | nil => cases chain.spells
  | cons x rest ih =>
    obtain rfl : first = x := Option.some.inj chain.spells.1
    obtain ⟨fuel, rfl⟩ : ∃ k, fuel = k + 2 := ⟨fuel - 2, by simp at enough; omega⟩
    have cell := chain.cells first List.mem_cons_self
    have step := @fatWriteFatEntry_calls _ s.tick _ 0 fats cell.bound
    rw [freeChain, if_pos ⟨cell.low, mid⟩, List.length_cons, freeCalls]
    unfold fatNextCluster ataReadSector
    by_cases read : s.outcomes 0 = .done
    · rw [if_pos read, if_pos read]
      dsimp only
      change ∃ t, freeChain g (fuel + 1) (fatWriteFatEntry g s.tick first 0) (fatEntry g s.disk first) = some t ∧ _
      generalize fatWriteFatEntry g s.tick first 0 = u at step
      cases rest with
      | nil =>
        have eoc := chain.only
        rw [freeChain, if_neg (by omega)]
        have ends := @EntryCalls.last _ _ _ _ [] step cell.bound
        exact ⟨u, rfl, by simpa [freeCalls] using ends⟩
      | cons y ys =>
        obtain ⟨entry, mid', tail⟩ := chain.tail
        have apart : first ∉ y :: ys := (List.nodup_cons.mp chain.nodup).1
        have tail' : ChainOf g u.disk y (y :: ys) := by
          refine tail.congr fun d mem => ?_
          rw [step.entries d (tail.cells d mem).bound, if_neg]
          · rfl
          · rintro ⟨rfl, -⟩
            exact apart mem
        have enough' : (y :: ys).length < fuel + 1 := by simp at enough ⊢; omega
        obtain ⟨t, ends, calls⟩ := ih tail' mid' enough'
        rw [entry, ends]
        refine ⟨t, rfl, ?_, calls.nodes.trans step.nodes, fun lba out => (calls.outside lba out).trans (step.outside lba out),
          fun d low off => ?_, fun miss d low => ?_, fun hit => ?_⟩
        · rw [calls.outcomes, step.outcomes]
          rfl
        · rw [List.mem_cons, not_or] at off
          have other : ¬ (d = first ∧ Overwrites s.tick.outcomes) := fun both => off.1 both.1
          rw [calls.others d low off.2, step.entries d low, if_neg other]
          rfl
        · rw [step.outcomes] at calls
          rw [Bool.or_eq_false_iff] at miss
          have other : ¬ (d = first ∧ Overwrites s.tick.outcomes) := fun both => of_decide_eq_false miss.1 both.2
          rw [calls.kept miss.2 d low, step.entries d low, if_neg other]
          rfl
        · rw [step.outcomes] at calls
          rw [Bool.or_eq_true] at hit
          rcases hit with own | later
          · refine ⟨first, List.mem_cons_self, ?_⟩
            have hit : first = first ∧ Overwrites s.tick.outcomes := ⟨rfl, of_decide_eq_true own⟩
            rw [calls.others first cell.bound apart, step.entries first cell.bound, if_pos hit, Nat.zero_mod]
          · obtain ⟨c, mem, zero⟩ := calls.lost later
            exact ⟨c, List.mem_cons_of_mem _ mem, zero⟩
    · rw [if_neg read, if_neg read]
      dsimp only
      rw [freeChain, if_neg (by unfold fat16EocMin; omega)]
      exact ⟨_, rfl, step.last cell.bound⟩

end Chains

/-! Directories -/

section Scanning

variable {σ : Type} {visitor : Visitor σ} {disk : Nat → Sector} {R : List Loc → Fat × σ → Bool → Prop}

/-- A rule for scans whose reads may fail: what holds of the slots that are passed, and
whether the scan has been stopped. -/
structure ScanRule (visitor : Visitor σ) (disk : Nat → Sector) (R : List Loc → Fat × σ → Bool → Prop) : Prop where
  reads : ∀ {xs c}, R xs c false → c.1.disk = disk
  tick : ∀ {xs c}, R xs c false → R xs (c.1.tick, c.2) false
  stop : ∀ {xs c}, R xs c false → R xs c true
  skip : ∀ {xs c l}, R xs c false → rawAt disk l 0 ≠ 0#8 → ¬ realEntry (rawAt disk l) = true → R (xs ++ [l]) c false
  visit : ∀ {xs c l} index, R xs c false → rawAt disk l 0 ≠ 0#8 → realEntry (rawAt disk l) = true →
    R (xs ++ [l]) (visitor (display disk l) (rawAt disk l) index l.1 l.2 c).1
      (visitor (display disk l) (rawAt disk l) index l.1 l.2 c).2

/-- The rule holds of some of the slots, and of all of them unless the scan was stopped. -/
def ScannedSlots (R : List Loc → Fat × σ → Bool → Prop) (before slots : List Loc) (c : Fat × σ) (stop : Bool) : Prop :=
  ∃ ys zs, slots = ys ++ zs ∧ R (before ++ ys) c stop ∧ (stop = false → zs = [])

theorem ScannedSlots.stopped {before slots : List Loc} {c : Fat × σ} (h : R before c true) : ScannedSlots R before slots c true :=
  ⟨[], slots, rfl, (List.append_nil before).symm ▸ h, nofun⟩

theorem ScannedSlots.append {before xs ys : List Loc} {c : Fat × σ} {stop : Bool} (h : ScannedSlots R (before ++ xs) ys c stop) :
    ScannedSlots R before (xs ++ ys) c stop := by
  obtain ⟨as, bs, rfl, holds, all⟩ := h
  exact ⟨xs ++ as, bs, (List.append_assoc _ _ _).symm, by rwa [← List.append_assoc], all⟩

theorem ScannedSlots.front {before xs ys : List Loc} {c : Fat × σ} (h : ScannedSlots R before xs c true) :
    ScannedSlots R before (xs ++ ys) c true := by
  obtain ⟨as, bs, rfl, holds, -⟩ := h
  exact ⟨as, bs ++ ys, List.append_assoc _ _ _, holds, nofun⟩

theorem ScannedSlots.all {before slots : List Loc} {c : Fat × σ} (h : ScannedSlots R before slots c false) :
    R (before ++ slots) c false := by
  obtain ⟨as, bs, rfl, holds, all⟩ := h
  rw [all rfl, List.append_nil]
  exact holds

namespace ScanRule

variable {before : List Loc} {c : Fat × σ}

theorem slots (rule : ScanRule visitor disk R) (start : R before c false) (slots : List Loc) (index : Nat) :
    ScannedSlots R before slots (scanSlots visitor disk slots c index).1 (scanSlots visitor disk slots c index).2.2 := by
  induction slots generalizing before c index with
  | nil => exact ⟨[], [], rfl, (List.append_nil before).symm ▸ start, fun _ => rfl⟩
  | cons l rest ih =>
    rw [scanSlots]
    by_cases ended : rawAt disk l 0 = 0#8
    · rw [if_pos ended]
      exact .stopped (rule.stop start)
    rw [if_neg ended]
    by_cases real : realEntry (rawAt disk l) = true
    · rw [if_pos real]
      have visit := rule.visit index start ended real
      generalize visitor (display disk l) (rawAt disk l) index l.1 l.2 c = v at visit
      obtain ⟨c', stop⟩ := v
      cases stop with
      | true => exact ⟨[l], rest, rfl, visit, fun same => by cases same⟩
      | false => exact @ScannedSlots.append _ _ _ [l] _ _ _ (ih visit (index + 1))
    · rw [if_neg real]
      exact @ScannedSlots.append _ _ _ [l] _ _ _ (ih (rule.skip start ended real) index)

theorem sectors (rule : ScanRule visitor disk R) (start : R before c false) (lbas : List Nat) (index : Nat) :
    ScannedSlots R before (slotsOf lbas) (scanSectors visitor lbas c index).1 (scanSectors visitor lbas c index).2.2 := by
  induction lbas generalizing before c index with
  | nil => exact ⟨[], [], rfl, (List.append_nil before).symm ▸ start, fun _ => rfl⟩
  | cons lba rest ih =>
    rw [scanSectors, ataReadSector, slotsOf, List.flatMap_cons]
    by_cases read : c.1.outcomes 0 = .done
    · rw [if_pos read, rule.reads start]
      dsimp only
      rw [fatScanSectorDirents_eq]
      have sector := rule.slots (rule.tick start) (sectorSlots lba) index
      unfold sectorSlots at sector ⊢
      generalize scanSlots visitor disk _ (c.1.tick, c.2) index = v at sector
      obtain ⟨c', index', stop⟩ := v
      cases stop with
      | true => exact sector.front
      | false => exact (ih sector.all index').append
    · rw [if_neg read]
      exact .stopped (rule.stop (rule.tick start))

theorem chain {g : Geometry} {first fuel : Nat} {xs : List Nat} (rule : ScanRule visitor disk R)
    (start : R before c false) (chain : ChainOf g disk first xs) (mid : first < fat16EocMin) (enough : xs.length < fuel)
    (index : Nat) :
    ∃ r stop, scanChain g visitor fuel first c index = some r ∧ ScannedSlots R before (slotsOf (chainLbas g xs)) r stop := by
  induction xs generalizing before c first index fuel with
  | nil => cases chain.spells
  | cons x rest ih =>
    obtain rfl : first = x := Option.some.inj chain.spells.1
    obtain ⟨fuel, rfl⟩ : ∃ k, fuel = k + 2 := ⟨fuel - 2, by simp at enough; omega⟩
    have cell := chain.cells first List.mem_cons_self
    have cluster := rule.sectors start (clusterLbas g first) index
    rw [scanChain, if_pos ⟨cell.low, mid⟩, chainLbas, List.flatMap_cons, slotsOf_append]
    generalize scanSectors visitor (clusterLbas g first) c index = v at cluster
    obtain ⟨c', index', stop⟩ := v
    cases stop with
    | true => exact ⟨c', true, rfl, cluster.front⟩
    | false =>
      have passed := rule.tick cluster.all
      dsimp only at passed ⊢
      unfold fatNextCluster ataReadSector
      by_cases read : c'.1.outcomes 0 = .done
      · rw [if_pos read, rule.reads cluster.all]
        change ∃ r stop, scanChain g visitor (fuel + 1) (fatEntry g disk first) (c'.1.tick, c'.2) index' = some r ∧ _
        cases rest with
        | nil =>
          have eoc := chain.only
          rw [scanChain, if_neg (by omega)]
          exact ⟨_, false, rfl, .append ⟨[], [], rfl, (List.append_nil _).symm ▸ passed, fun _ => rfl⟩⟩
        | cons y ys =>
          obtain ⟨entry, mid', tail⟩ := chain.tail
          rw [entry]
          have enough' : (y :: ys).length < fuel + 1 := by simp at enough ⊢; omega
          obtain ⟨r, stop, ends, scanned⟩ := ih passed tail mid' enough' index'
          exact ⟨r, stop, ends, scanned.append⟩
      · rw [if_neg read]
        dsimp only
        rw [scanChain, if_neg (by unfold fat16EocMin; omega)]
        exact ⟨_, true, rfl, .append (.stopped (rule.stop passed))⟩

theorem directory {g : Geometry} {s : Fat} {dir : Option Nat} {fuel : Nat} {st : σ} (rule : ScanRule visitor s.disk R)
    (start : R [] (s, st) false) (intact : Intact g s.disk (s.metaOf dir).firstCluster) (enough : fullFuel ≤ fuel) :
    ∃ r stop, fatIterateDir g visitor fuel dir (s, st) = some r ∧
      ScannedSlots R [] (dirSlots g s.disk (s.metaOf dir).firstCluster) r stop := by
  unfold fatIterateDir dirSlots
  dsimp only
  unfold fullFuel at enough
  rcases intact with root | chain
  · rw [if_pos root, if_pos root]
    exact ⟨_, _, rfl, rule.sectors start _ 0⟩
  · rw [if_neg chain.nonzero, if_neg chain.nonzero]
    by_cases mid : (s.metaOf dir).firstCluster < fat16EocMin
    · have length := chain.length_lt
      rw [if_pos mid]
      exact rule.chain start chain mid (by omega) 0
    · obtain ⟨fuel, rfl⟩ : ∃ k, fuel = k + 1 := ⟨fuel - 1, by omega⟩
      rw [if_neg mid, scanChain, if_neg fun inside => mid inside.2]
      exact ⟨_, true, rfl, .stopped (rule.stop start)⟩

end ScanRule

end Scanning

section Searching

variable {g : Geometry} {s t : Fat} {disk disk' : Nat → Sector} {xs ys slots : List Loc} {name : List (BitVec 8)}
  {fuel : Nat} {dir : Option Nat} {l : Loc}

theorem findSlot_append (front : ∀ x ∈ xs, rawAt disk x 0 ≠ 0#8) :
    findSlot disk (xs ++ ys) name = (findSlot disk xs name).or (findSlot disk ys name) := by
  have whole : realSlots disk (xs ++ []) = xs.filter (fun l => realEntry (rawAt disk l)) ++ realSlots disk [] :=
    realSlots_append front
  rw [List.append_nil] at whole
  unfold findSlot
  rw [realSlots_append front, List.find?_append, whole]
  congr 2
  exact (List.append_nil _).symm

theorem findSlot_end (ended : rawAt disk l 0 = 0#8) : findSlot disk (l :: xs) name = none := by
  rw [findSlot, realSlots_end ended, List.find?_nil]

theorem findSlot_real (going : rawAt disk l 0 ≠ 0#8) (real : realEntry (rawAt disk l) = true) :
    findSlot disk (l :: xs) name = if display disk l = name then some l else findSlot disk xs name := by
  rw [findSlot, realSlots_real going real]
  by_cases here : display disk l = name
  · rw [if_pos here, List.find?_cons_of_pos (by simpa using here)]
  · rw [if_neg here, List.find?_cons_of_neg (by simpa using here)]
    rfl

theorem findSlot_skip (going : rawAt disk l 0 ≠ 0#8) (skip : ¬ realEntry (rawAt disk l) = true) :
    findSlot disk (l :: xs) name = findSlot disk xs name := by
  rw [findSlot, realSlots_skip going skip, findSlot]

theorem findSlot_front (found : findSlot disk xs name = some l) : findSlot disk (xs ++ ys) name = some l := by
  induction xs with
  | nil => cases found
  | cons x rest ih =>
    rw [List.cons_append]
    by_cases ended : rawAt disk x 0 = 0#8
    · rw [findSlot_end ended] at found
      cases found
    by_cases real : realEntry (rawAt disk x) = true
    · rw [findSlot_real ended real] at found ⊢
      by_cases here : display disk x = name
      · rw [if_pos here] at found ⊢
        exact found
      · rw [if_neg here] at found ⊢
        exact ih found
    · rw [findSlot_skip ended real] at found ⊢
      exact ih found

theorem findSlot_congr (same : ∀ x ∈ slots, rawAt disk' x = rawAt disk x) :
    findSlot disk' slots name = findSlot disk slots name := by
  unfold findSlot
  rw [realSlots_congr same]
  refine List.find?_congr fun x mem => ?_
  unfold display
  rw [same x (realSlots_sub mem)]

/-- The entry that a lookup has made a node of. -/
def TookNode (s : Fat) (dir : Option Nat) (slots : List Loc) (name : List (BitVec 8)) (t : Fat) (i : Nat) : Prop :=
  ∃ l, findSlot s.disk slots name = some l ∧
    t.nodes i = entryNode dir (display s.disk l) (rawAt s.disk l) l.1 l.2

/-- What a lookup has come to: nothing, or the next node of the pool is that of the entry. -/
structure Looking (s : Fat) (dir : Option Nat) (name : List (BitVec 8)) (xs : List Loc) (c : Fat × Option Nat)
    (stop : Bool) : Prop where
  disk : c.1.disk = s.disk
  goes : stop = false → c.2 = none ∧ findSlot s.disk xs name = none ∧ ∀ x ∈ xs, rawAt s.disk x 0 ≠ 0#8
  pool : c.2 = none ∧ c.1.nodes = s.nodes ∧ c.1.count = s.count ∨
    c.2 = some s.count ∧ c.1.count = s.count + 1 ∧ (∀ j, j ≠ s.count → c.1.nodes j = s.nodes j) ∧
      TookNode s dir xs name c.1 s.count

theorem lookup_rule : ScanRule (fatLookupVisitor name dir) s.disk (Looking s dir name) := by
  have idle : ∀ {xs ys : List Loc} {c : Fat × Option Nat}, Looking s dir name xs c false →
      c.2 = none ∧ c.1.nodes = s.nodes ∧ c.1.count = s.count ∨
        c.2 = some s.count ∧ c.1.count = s.count + 1 ∧ (∀ j, j ≠ s.count → c.1.nodes j = s.nodes j) ∧
          TookNode s dir ys name c.1 s.count := by
    intro xs ys c h
    refine h.pool.imp_right fun took => ?_
    rw [(h.goes rfl).1] at took
    cases took.1
  refine ⟨fun h => h.disk, fun h => ⟨h.disk, h.goes, h.pool⟩, fun h => ⟨h.disk, nofun, h.pool⟩,
    fun {xs c l} h going skip => ?_, fun {xs c l} index h going real => ?_⟩
  · obtain ⟨none, missing, passed⟩ := h.goes rfl
    refine ⟨h.disk, fun _ => ⟨none, ?_, ?_⟩, idle h⟩
    · rw [findSlot_append passed, missing, findSlot_skip going skip]
      rfl
    · exact List.forall_mem_append.mpr ⟨passed, List.forall_mem_singleton.mpr going⟩
  · obtain ⟨none, missing, passed⟩ := h.goes rfl
    obtain ⟨-, nodes, count⟩ := h.pool.resolve_right fun took => by
      rw [none] at took
      cases took.1
    obtain ⟨t, took⟩ := c
    obtain rfl : took = Option.none := none
    obtain disk : t.disk = s.disk := h.disk
    have one : findSlot s.disk (xs ++ [l]) name = if display s.disk l = name then some l else findSlot s.disk [] name := by
      rw [findSlot_append passed, missing, findSlot_real going real, Option.none_or]
    unfold fatLookupVisitor fatAllocNode
    by_cases here : display s.disk l = name
    · rw [if_pos here] at one
      rw [if_neg (not_not.mpr here)]
      by_cases full : t.count ≥ fatMaxNodes
      · rw [if_pos full]
        exact ⟨disk, nofun, .inl ⟨rfl, nodes, count⟩⟩
      · rw [if_neg full]
        dsimp only at nodes count
        refine ⟨disk, nofun, .inr ⟨congrArg some count, ?_, fun j other => ?_, l, one, ?_⟩⟩
        · exact congrArg (· + 1) count
        · rw [← count] at other
          exact (Function.update_of_ne other _ _).trans (congrFun nodes j)
        · rw [← count, ← disk]
          exact Function.update_self _ _ _
    · rw [if_neg here] at one
      rw [if_pos here]
      exact ⟨disk, fun _ => ⟨rfl, one, List.forall_mem_append.mpr ⟨passed, List.forall_mem_singleton.mpr going⟩⟩,
        .inl ⟨rfl, nodes, count⟩⟩

/-- What a lookup may do: it only reads, and what it finds is in the directory. -/
structure LooksUp (s : Fat) (dir : Option Nat) (slots : List Loc) (name : List (BitVec 8)) (t : Fat)
    (found : Option Nat) : Prop where
  disk : t.disk = s.disk
  pool : found = none ∧ t.nodes = s.nodes ∧ t.count = s.count ∨
    found = some s.count ∧ t.count = s.count + 1 ∧ (∀ j, j ≠ s.count → t.nodes j = s.nodes j) ∧
      TookNode s dir slots name t s.count

theorem fatDirLookup_looks (name : List (BitVec 8)) (intact : Intact g s.disk (s.metaOf dir).firstCluster) (enough : fullFuel ≤ fuel) :
    ∃ t found, fatDirLookup g fuel s dir name = some (t, found) ∧
      LooksUp s dir (dirSlots g s.disk (s.metaOf dir).firstCluster) name t found := by
  have start : Looking s dir name [] (s, none) false :=
    ⟨rfl, fun _ => ⟨rfl, rfl, fun _ mem => by cases mem⟩, .inl ⟨rfl, rfl, rfl⟩⟩
  obtain ⟨⟨t, found⟩, stop, ends, xs, ys, slots, looked, -⟩ := lookup_rule.directory start intact enough
  refine ⟨t, found, ends, looked.disk, looked.pool.imp_right fun ⟨took, count, others, l, isFound, node⟩ => ?_⟩
  exact ⟨took, count, others, l, slots ▸ findSlot_front isFound, node⟩

theorem LooksUp.took {slots : List Loc} {found : Option Nat} (h : LooksUp s dir slots name t found) {i : Nat}
    (is : found = some i) : TookNode s dir slots name t i := by
  rcases h.pool with ⟨none, -⟩ | ⟨some, -, -, took⟩
  · rw [none] at is
    cases is
  · rw [some] at is
    cases is
    exact took

theorem dotCheck_reads (intact : Intact g s.disk (s.metaOf dir).firstCluster) (enough : fullFuel ≤ fuel) :
    ∃ t empty, fatIterateDir g fatDotCheckVisitor fuel dir (s, true) = some (t, empty) ∧ t.disk = s.disk ∧
      t.nodes = s.nodes := by
  have rule : ScanRule fatDotCheckVisitor s.disk fun _ c _ => c.1.disk = s.disk ∧ c.1.nodes = s.nodes := by
    refine ⟨fun h => h.1, id, id, fun h _ _ => h, fun index h _ _ => ?_⟩
    unfold fatDotCheckVisitor
    split <;> exact h
  obtain ⟨⟨t, empty⟩, stop, ends, xs, ys, -, ⟨disk, nodes⟩, -⟩ := rule.directory ⟨rfl, rfl⟩ intact enough
  exact ⟨t, empty, ends, disk, nodes⟩

end Searching

/-! Removing -/

section Removing

variable {g : Geometry} {s t u : Fat} {disk disk' : Nat → Sector} {first fuel i : Nat} {name : List (BitVec 8)}
  {dir : Option Nat} {l : Loc}

/-- A directory whose entries are those of whole files and directories. -/
structure EntriesIntact (g : Geometry) (disk : Nat → Sector) (first : Nat) : Prop where
  intact : Intact g disk first
  entries : ∀ l ∈ live g disk first, Intact g disk (clusterOf disk l) ∧ clusterOf disk l < fat16EocMin

def fileClusters (g : Geometry) (disk : Nat → Sector) (first : Nat) : List Nat :=
  if first = 0 then [] else chainFrom g disk first

/-- The name is found as before, its entry is as before, and so are the links of its chain. -/
structure KeepsFile (g : Geometry) (disk disk' : Nat → Sector) (first : Nat) (name : List (BitVec 8)) : Prop where
  found : findSlot disk' (dirSlots g disk' first) name = findSlot disk (dirSlots g disk first) name
  entry : ∀ l, findSlot disk (dirSlots g disk first) name = some l → rawAt disk' l = rawAt disk l
  chain : ∀ l, findSlot disk (dirSlots g disk first) name = some l →
    ∀ c ∈ fileClusters g disk (clusterOf disk l), fatEntry g disk' c = fatEntry g disk c

/-- Where `fat_dir_unlink` begins to change the disk, and the node that it removes. -/
def removal (g : Geometry) (fuel : Nat) (s : Fat) (dir : Option Nat) (name : List (BitVec 8)) : Option (Fat × Nat) :=
  match fatDirLookup g fuel s dir name with
  | some (s, some target) =>
    if (s.nodes target).type = .dir then
      match fatIterateDir g fatDotCheckVisitor fuel (some target) (s, true) with
      | some (s, true) => some (s, target)
      | _ => none
    else some (s, target)
  | _ => none

/-- From there on either the entry is marked deleted, or nothing is lost: no entry of the
table has been overwritten and the write of the mark does not arrive. -/
def SparesFile (g : Geometry) (u : Fat) (i : Nat) : Prop :=
  let calls := freeCalls g.numFats (fileClusters g u.disk (u.nodes i).priv.firstCluster).length u.outcomes
  (calls.1 0 = .done ∧ calls.1 1 = .done) ∨ (calls.2 = false ∧ ¬ (calls.1 0 = .done ∧ calls.1 1 = .failedLate))

instance (g : Geometry) (u : Fat) (i : Nat) : Decidable (SparesFile g u i) := inferInstanceAs (Decidable (_ ∨ _))

theorem live_of_findSlot (found : findSlot disk (dirSlots g disk first) name = some l) : l ∈ live g disk first :=
  List.mem_of_find?_eq_some found

theorem dirSlots_out (intact : Intact g disk first) (mem : l ∈ dirSlots g disk first) : ¬ InTable g l.1 := by
  obtain ⟨-, r, -, region, inRegion⟩ := mem_dirSlots intact mem
  unfold regionLbas at inRegion
  rcases region with rfl | cell
  · rw [if_pos rfl] at inRegion
    exact root_out inRegion
  · have low := cell.low
    rw [if_neg (by omega)] at inRegion
    exact cluster_out low cell.bound inRegion

/-- Two disks that differ in the other copies of the table at most. -/
structure SameVolume (g : Geometry) (disk disk' : Nat → Sector) : Prop where
  outside : ∀ lba, ¬ InTable g lba → disk' lba = disk lba
  entries : ∀ c < g.totalEntries, fatEntry g disk' c = fatEntry g disk c

theorem SameVolume.of_eq (same : disk' = disk) : SameVolume g disk disk' :=
  ⟨fun lba _ => by rw [same], fun c _ => by rw [same]⟩

theorem SameVolume.slots (same : SameVolume g disk disk') (intact : Intact g disk first) :
    Intact g disk' first ∧ dirSlots g disk' first = dirSlots g disk first ∧
      ∀ x ∈ dirSlots g disk first, rawAt disk' x = rawAt disk x := by
  obtain ⟨intact', -, slots⟩ := intact.object_congr fun c _ cell => same.entries c cell.bound
  refine ⟨intact', slots, fun x mem => ?_⟩
  unfold rawAt
  rw [same.outside x.1 (dirSlots_out intact mem)]

theorem SameVolume.find (same : SameVolume g disk disk') (intact : Intact g disk first) :
    findSlot disk' (dirSlots g disk' first) name = findSlot disk (dirSlots g disk first) name := by
  obtain ⟨-, slots, raw⟩ := same.slots intact
  rw [slots, findSlot_congr raw]

theorem EntriesIntact.keeps (h : EntriesIntact g disk first) (volume : SameVolume g disk disk') :
    KeepsFile g disk disk' first name := by
  obtain ⟨-, -, same⟩ := volume.slots h.intact
  refine ⟨volume.find h.intact, fun l found => same l (realSlots_sub (live_of_findSlot found)), fun l found c mem => ?_⟩
  unfold fileClusters at mem
  split at mem
  · cases mem
  · rename_i nonzero
    have chain := (h.entries l (live_of_findSlot found)).1.resolve_left nonzero
    exact volume.entries c (chain.cells c mem).bound

theorem unlink_begins (name : List (BitVec 8)) (h : EntriesIntact g s.disk (s.metaOf dir).firstCluster) (enough : fullFuel ≤ fuel) :
    (∃ u i, removal g fuel s dir name = some (u, i) ∧ fatDirUnlink g fuel s dir name = removeEntry g fuel u i ∧
      u.disk = s.disk ∧ TookNode s dir (dirSlots g s.disk (s.metaOf dir).firstCluster) name u i) ∨
    (removal g fuel s dir name = none ∧ ∃ t e, fatDirUnlink g fuel s dir name = some (t, e) ∧ e < 0 ∧ t.disk = s.disk) := by
  obtain ⟨t, found, looked, looks⟩ := fatDirLookup_looks name h.intact enough
  have disk := looks.disk
  unfold removal fatDirUnlink
  rw [looked]
  cases found with
  | none => exact .inr ⟨rfl, t, _, rfl, by decide, disk⟩
  | some i =>
    dsimp only
    by_cases isDir : (t.nodes i).type = .dir
    · rw [if_pos isDir, if_pos isDir]
      obtain ⟨l, isFound, node⟩ := looks.took rfl
      have first : (t.metaOf (some i)).firstCluster = clusterOf s.disk l := congrArg (fun n => n.priv.firstCluster) node
      have target : Intact g t.disk (t.metaOf (some i)).firstCluster := by
        rw [first, disk]
        exact (h.entries l (live_of_findSlot isFound)).1
      obtain ⟨u, empty, checked, disk', nodes⟩ := dotCheck_reads target enough
      rw [checked]
      cases empty with
      | false => exact .inr ⟨rfl, u, _, rfl, by decide, disk'.trans disk⟩
      | true => exact .inl ⟨u, i, rfl, rfl, disk'.trans disk, l, isFound, nodes ▸ node⟩
    · rw [if_neg isDir, if_neg isDir]
      exact .inl ⟨t, i, rfl, rfl, disk, looks.took rfl⟩

theorem freeFile_calls (fats : 0 < g.numFats) (intact : Intact g s.disk first) (mid : first < fat16EocMin)
    (enough : fullFuel ≤ fuel) :
    ∃ t, freeChain g fuel s first = some t ∧ ChainCalls g s t (fileClusters g s.disk first)
      (freeCalls g.numFats (fileClusters g s.disk first).length s.outcomes) := by
  unfold fullFuel at enough
  rcases intact with rfl | chain
  · obtain ⟨fuel, rfl⟩ : ∃ k, fuel = k + 1 := ⟨fuel - 1, by omega⟩
    rw [freeChain, if_neg (by decide)]
    exact ⟨s, rfl, rfl, rfl, fun _ _ => rfl, fun _ _ _ => rfl, fun _ _ _ => rfl, fun lost => by cases lost⟩
  · have length := chain.length_lt
    have clusters : fileClusters g s.disk first = chainFrom g s.disk first := if_neg chain.nonzero
    rw [clusters]
    exact freeChain_calls fats chain mid (by omega)

theorem EntriesIntact.lost (h : EntriesIntact g disk first)
    (found : findSlot disk (dirSlots g disk first) name = some l)
    (lost : ∃ c ∈ fileClusters g disk (clusterOf disk l), fatEntry g disk' c = 0) : ¬ KeepsFile g disk disk' first name := by
  intro keeps
  obtain ⟨c, mem, zero⟩ := lost
  have same := keeps.chain l found c mem
  unfold fileClusters at mem
  split at mem
  · cases mem
  · rename_i nonzero
    have chain := (h.entries l (live_of_findSlot found)).1.resolve_left nonzero
    exact (chain.cells c mem).taken (same.symm.trans zero)

theorem marked_not_kept (found : findSlot disk (dirSlots g disk first) name = some l)
    (mark : rawAt disk' l 0 = deletedMark) : ¬ KeepsFile g disk disk' first name := by
  intro keeps
  have real := (mem_realSlots (live_of_findSlot found)).2
  rw [keeps.entry l found] at mark
  unfold realEntry at real
  rw [mark] at real
  cases real

/-- The entry is marked deleted, and the write of the mark says so. -/
def MarksEntry (g : Geometry) (u : Fat) (i : Nat) : Prop :=
  let calls := freeCalls g.numFats (fileClusters g u.disk (u.nodes i).priv.firstCluster).length u.outcomes
  calls.1 0 = .done ∧ calls.1 1 = .done

/-- Nothing is lost: no entry of the table has been overwritten, and the mark does not arrive. -/
def SparesEntry (g : Geometry) (u : Fat) (i : Nat) : Prop :=
  let calls := freeCalls g.numFats (fileClusters g u.disk (u.nodes i).priv.firstCluster).length u.outcomes
  calls.2 = false ∧ ¬ Overwrites calls.1

/-- What the removal of an entry comes to: the state behind the loop that gives the chain
back, and the mark that is written to it or not. -/
structure Removal (g : Geometry) (u : Fat) (i : Nat) (l : Loc) (t : Fat) (e : Int) : Prop where
  freed : ∃ v, ChainCalls g u v (fileClusters g u.disk (clusterOf u.disk l))
      (freeCalls g.numFats (fileClusters g u.disk (u.nodes i).priv.firstCluster).length u.outcomes) ∧
    (Overwrites v.outcomes → t.disk = putAt v.disk l 0 [deletedMark]) ∧ (¬ Overwrites v.outcomes → t.disk = v.disk)
  success : MarksEntry g u i → e = 0
  failure : ¬ MarksEntry g u i → e < 0

theorem removeEntry_calls (fats : 0 < g.numFats) (h : EntriesIntact g u.disk first)
    (found : findSlot u.disk (dirSlots g u.disk first) name = some l)
    (node : u.nodes i = entryNode dir (display u.disk l) (rawAt u.disk l) l.1 l.2) (enough : fullFuel ≤ fuel) :
    ∃ t e, removeEntry g fuel u i = some (t, e) ∧ Removal g u i l t e := by
  obtain ⟨intact, mid⟩ := h.entries l (live_of_findSlot found)
  have cluster : (u.nodes i).priv.firstCluster = clusterOf u.disk l := congrArg (fun n => n.priv.firstCluster) node
  have sector : (u.nodes i).priv.direntLba = l.1 := congrArg (fun n => n.priv.direntLba) node
  have offset : (u.nodes i).priv.direntOffset = l.2 := congrArg (fun n => n.priv.direntOffset) node
  obtain ⟨v, freed, calls⟩ := freeFile_calls fats intact mid enough
  have chain : ChainCalls g u v (fileClusters g u.disk (clusterOf u.disk l))
      (freeCalls g.numFats (fileClusters g u.disk (u.nodes i).priv.firstCluster).length u.outcomes) := by
    rw [cluster]
    exact calls
  have marks : MarksEntry g u i ↔ v.outcomes 0 = .done ∧ v.outcomes 1 = .done := by
    rw [chain.outcomes]
    exact Iff.rfl
  unfold removeEntry
  dsimp only
  rw [cluster, sector, offset, freed]
  dsimp only
  have failing : -eio < 0 := by decide
  unfold ataReadSector
  by_cases read : v.outcomes 0 = .done
  · rw [if_pos read]
    dsimp only
    unfold ataWriteSector
    have next : v.tick.outcomes 0 = v.outcomes 1 := rfl
    rw [next]
    cases write : v.outcomes 1 with
    | done =>
      have hit : Overwrites v.outcomes := ⟨read, by rw [write]; nofun⟩
      exact ⟨_, _, rfl, ⟨v, chain, fun _ => rfl, fun miss => absurd hit miss⟩, fun _ => rfl,
        fun fails => absurd (marks.mpr ⟨read, write⟩) fails⟩
    | failed =>
      have miss : ¬ Overwrites v.outcomes := fun both => both.2 write
      refine ⟨_, _, rfl, ⟨v, chain, fun hit => absurd hit miss, fun _ => rfl⟩, fun done => ?_, fun _ => failing⟩
      have written := (marks.mp done).2
      rw [write] at written
      cases written
    | failedLate =>
      have hit : Overwrites v.outcomes := ⟨read, by rw [write]; nofun⟩
      refine ⟨_, _, rfl, ⟨v, chain, fun _ => rfl, fun miss => absurd hit miss⟩, fun done => ?_, fun _ => failing⟩
      have written := (marks.mp done).2
      rw [write] at written
      cases written
  · rw [if_neg read]
    exact ⟨_, _, rfl, ⟨v, chain, fun hit => absurd hit.1 read, fun _ => rfl⟩,
      fun done => absurd (marks.mp done).1 read, fun _ => failing⟩

theorem sparesFile_iff : SparesFile g u i ↔ MarksEntry g u i ∨ SparesEntry g u i := by
  unfold SparesFile MarksEntry SparesEntry Overwrites
  dsimp only
  generalize freeCalls g.numFats (fileClusters g u.disk (u.nodes i).priv.firstCluster).length u.outcomes = calls
  cases write : calls.1 1 with
  | done =>
    simp
    tauto
  | failed => simp
  | failedLate =>
    simp

theorem Removal.same {e : Int} (removal : Removal g u i l t e) (spares : SparesEntry g u i) :
    SameVolume g u.disk t.disk := by
  obtain ⟨v, calls, -, unmarked⟩ := removal.freed
  have miss : ¬ Overwrites v.outcomes := by
    rw [calls.outcomes]
    exact spares.2
  rw [unmarked miss]
  exact ⟨calls.outside, calls.kept spares.1⟩

theorem Removal.keeps_iff {e : Int} (h : EntriesIntact g u.disk first)
    (found : findSlot u.disk (dirSlots g u.disk first) name = some l) (removal : Removal g u i l t e) :
    KeepsFile g u.disk t.disk first name ↔ SparesEntry g u i := by
  refine ⟨fun keeps => ?_, fun spares => h.keeps (removal.same spares)⟩
  obtain ⟨v, calls, marked, unmarked⟩ := removal.freed
  have outcomes := calls.outcomes
  unfold SparesEntry
  dsimp only
  rw [← outcomes]
  by_cases hit : Overwrites v.outcomes
  · refine absurd keeps (marked_not_kept found ?_)
    rw [marked hit, rawAt_putAt_self (by decide)]
    rfl
  · rw [unmarked hit] at keeps
    refine ⟨?_, hit⟩
    by_contra lost
    exact h.lost found (calls.lost (Bool.eq_true_of_not_eq_false lost)) keeps

theorem removeEntry_keeps_iff (fats : 0 < g.numFats) (h : EntriesIntact g u.disk first)
    (took : TookNode u dir (dirSlots g u.disk first) name u i) (enough : fullFuel ≤ fuel) :
    ∃ t e, removeEntry g fuel u i = some (t, e) ∧ ((e < 0 → KeepsFile g u.disk t.disk first name) ↔ SparesFile g u i) := by
  obtain ⟨l, found, node⟩ := took
  obtain ⟨t, e, ends, removal⟩ := removeEntry_calls fats h found node enough
  have keeps := removal.keeps_iff h found
  refine ⟨t, e, ends, ?_⟩
  rw [sparesFile_iff, ← keeps]
  by_cases marks : MarksEntry g u i
  · have zero := removal.success marks
    exact ⟨fun _ => .inl marks, fun _ negative => absurd negative (by omega)⟩
  · have negative := removal.failure marks
    exact ⟨fun kept => .inr (kept negative), fun spares _ => spares.resolve_left marks⟩

/-- A removal that fails keeps the file exactly if no entry of the first copy of the table
was overwritten and the mark did not arrive. -/
theorem failed_unlink_keeps_iff (fats : 0 < g.numFats) (enough : fullFuel ≤ fuel)
    (h : EntriesIntact g s.disk (s.metaOf dir).firstCluster) :
    ∃ t e, fatDirUnlink g fuel s dir name = some (t, e) ∧
      ((e < 0 → KeepsFile g s.disk t.disk (s.metaOf dir).firstCluster name) ↔
        ∀ u i, removal g fuel s dir name = some (u, i) → SparesFile g u i) := by
  rcases unlink_begins name h enough with ⟨u, i, begins, unlink, disk, took⟩ | ⟨none, t, e, unlink, -, disk⟩
  · rw [← disk] at h
    unfold TookNode at took
    rw [← disk] at took
    obtain ⟨t, e, ends, exact⟩ := removeEntry_keeps_iff fats h took enough
    rw [disk] at exact
    refine ⟨t, e, unlink.trans ends, exact.trans ⟨fun spares u' i' begins' => ?_, fun spares => spares u i begins⟩⟩
    rw [begins] at begins'
    cases begins'
    exact spares
  · refine ⟨t, e, unlink, fun _ u i begins => ?_, fun _ _ => ?_⟩
    · rw [none] at begins
      cases begins
    · exact h.keeps (.of_eq disk)

end Removing

def oneFileVolume (outcomes : Nat → Outcome) : Fat where
  disk := fun lba i =>
    if lba = 0 then smallBoot 1#8 1#8 i
    else if lba = 1 ∧ (i = 4 ∨ i = 5) then 0xFF#8
    else if lba = 2 ∧ i < 32 then (newEntry [0x61#8] attrArchive 2).getD i 0#8
    else 0#8
  nodes := fun _ => ⟨.file, [], none, 0#64, ⟨0, 0, 0, 0⟩⟩
  count := 0
  outcomes := outcomes

theorem oneFileVolume_cluster (outcomes : Nat → Outcome) : clusterOf (oneFileVolume outcomes).disk (2, 0) = 2 := by
  change clusterOf (oneFileVolume fun _ => .done).disk (2, 0) = 2
  decide +kernel

theorem oneFileVolume_chain (outcomes : Nat → Outcome) :
    ChainOf (geometryOf (smallBoot 1#8 1#8)) (oneFileVolume outcomes).disk 2 [2] := by
  change ChainOf (geometryOf (smallBoot 1#8 1#8)) (oneFileVolume fun _ => .done).disk 2 [2]
  refine ⟨⟨rfl, nextOf_end (by decide +kernel)⟩, List.forall_mem_singleton.mpr ?_⟩
  exact ⟨le_rfl, by decide, by decide, by decide +kernel⟩

theorem oneFileVolume_intact (outcomes : Nat → Outcome) :
    EntriesIntact (geometryOf (smallBoot 1#8 1#8)) (oneFileVolume outcomes).disk 0 := by
  have live : live (geometryOf (smallBoot 1#8 1#8)) (oneFileVolume outcomes).disk 0 = [(2, 0)] := by
    change live (geometryOf (smallBoot 1#8 1#8)) (oneFileVolume fun _ => .done).disk 0 = [(2, 0)]
    decide +kernel
  refine ⟨.inl rfl, fun l mem => ?_⟩
  rw [live] at mem
  obtain rfl := List.mem_singleton.mp mem
  rw [oneFileVolume_cluster]
  exact ⟨(oneFileVolume_chain outcomes).intact, by decide⟩

/-- Everything works but the write that would mark the entry: the file is still there, and
its cluster is free. -/
theorem failed_unlink_frees_chain :
    EntriesIntact (geometryOf (smallBoot 1#8 1#8)) (oneFileVolume fun n => if n = 5 then .failed else .done).disk 0 ∧
      ∃ t, fatDirUnlink (geometryOf (smallBoot 1#8 1#8)) fullFuel
          (oneFileVolume fun n => if n = 5 then .failed else .done) none [0x61#8] = some (t, -eio) ∧
        ¬ KeepsFile (geometryOf (smallBoot 1#8 1#8)) (oneFileVolume fun n => if n = 5 then .failed else .done).disk
          t.disk 0 [0x61#8] := by
  have intact := oneFileVolume_intact fun n => if n = 5 then .failed else .done
  refine ⟨intact, ?_⟩
  have ends : (fatDirUnlink (geometryOf (smallBoot 1#8 1#8)) fullFuel
      (oneFileVolume fun n => if n = 5 then .failed else .done) none [0x61#8]).map
        (fun r => (r.2, fatEntry (geometryOf (smallBoot 1#8 1#8)) r.1.disk 2)) = some (-eio, 0) := by decide +kernel
  obtain ⟨⟨t, e⟩, unlink, result⟩ := Option.map_eq_some_iff.mp ends
  obtain ⟨rfl, free⟩ := Prod.mk.inj result
  have found : findSlot (oneFileVolume fun n => if n = 5 then .failed else .done).disk
      (dirSlots (geometryOf (smallBoot 1#8 1#8)) (oneFileVolume fun n => if n = 5 then .failed else .done).disk 0)
      [0x61#8] = some (2, 0) := by decide +kernel
  refine ⟨t, unlink, intact.lost found ⟨2, ?_, free⟩⟩
  rw [oneFileVolume_cluster, fileClusters, if_neg (by decide), (oneFileVolume_chain _).from_eq]
  exact List.mem_singleton_self 2

/-- Behind the lookup no call succeeds any more. -/
theorem failed_unlink_keeps_deadDisk :
    ∃ t, fatDirUnlink (geometryOf (smallBoot 1#8 1#8)) fullFuel
        (oneFileVolume fun n => if n = 0 then .done else .failed) none [0x61#8] = some (t, -eio) ∧
      KeepsFile (geometryOf (smallBoot 1#8 1#8)) (oneFileVolume fun n => if n = 0 then .done else .failed).disk t.disk
        0 [0x61#8] := by
  obtain ⟨t, e, unlink, keeps⟩ :=
      @failed_unlink_keeps_iff (geometryOf (smallBoot 1#8 1#8)) _ fullFuel [0x61#8] none (by decide) le_rfl
        (oneFileVolume_intact fun n => if n = 0 then .done else .failed)
  have ends : (fatDirUnlink (geometryOf (smallBoot 1#8 1#8)) fullFuel
      (oneFileVolume fun n => if n = 0 then .done else .failed) none [0x61#8]).map (·.2) = some (-eio) := by
    decide +kernel
  rw [unlink] at ends
  obtain rfl : e = -eio := Option.some.inj ends
  have spares : ((removal (geometryOf (smallBoot 1#8 1#8)) fullFuel
      (oneFileVolume fun n => if n = 0 then .done else .failed) none [0x61#8]).all fun r =>
        SparesFile (geometryOf (smallBoot 1#8 1#8)) r.1 r.2) = true := by decide +kernel
  refine ⟨t, unlink, keeps.mpr (fun u i begins => ?_) (by decide)⟩
  rw [begins] at spares
  simpa using spares

end Isunux
