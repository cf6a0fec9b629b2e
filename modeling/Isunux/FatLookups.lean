import Isunux.FatMirrors
import Isunux.Lib.Walk

/-! What `fat_dir_lookup` answers on a disk that nothing vouches for, its chains included, and
after any number of calls. -/
namespace Isunux

section Prefix

variable (g : Geometry) (disk : Nat → Sector)

/-- The clusters that a scan comes to in some number of rounds. -/
def chainPrefix : Nat → Nat → List Nat
  | 0, _ => []
  | n + 1, c => if 2 ≤ c ∧ c < fat16EocMin then c :: chainPrefix n (fatEntry g disk c) else []

/-- The scan is over after this many rounds. -/
def chainEnds : Nat → Nat → Bool
  | 0, _ => false
  | n + 1, c => if 2 ≤ c ∧ c < fat16EocMin then chainEnds n (fatEntry g disk c) else true

/-- The slots of a directory up to some number of clusters. -/
def slotPrefix (n first : Nat) : List Loc :=
  if first = 0 then slotsOf (rootLbas g) else slotsOf (chainLbas g (chainPrefix g disk n first))

/-- Somewhere in the directory there is a live entry of a name. -/
def LiveEntry (first : Nat) (name : List (BitVec 8)) : Prop :=
  ∃ n, ∃ l ∈ realSlots disk (slotPrefix g disk n first), display disk l = name

variable {g disk}

theorem mem_chainPrefix {n c x : Nat} : x ∈ chainPrefix g disk n c ↔
    ∃ k < n, (∀ i ≤ k, 2 ≤ (fatEntry g disk)^[i] c ∧ (fatEntry g disk)^[i] c < fat16EocMin) ∧
      (fatEntry g disk)^[k] c = x := by
  induction n generalizing c with
  | zero => simp [chainPrefix]
  | succ n ih =>
    rw [chainPrefix]
    split
    · rename_i here
      rw [List.mem_cons, ih]
      constructor
      · rintro (rfl | ⟨k, less, inside, last⟩)
        · exact ⟨0, Nat.succ_pos n, fun i le => by rw [Nat.le_zero.mp le]; exact here, rfl⟩
        · refine ⟨k + 1, by omega, fun i le => ?_, last⟩
          cases i with
          | zero => exact here
          | succ i => exact inside i (by omega)
      · rintro ⟨k, less, inside, last⟩
        cases k with
        | zero => exact .inl last.symm
        | succ k => exact .inr ⟨k, by omega, fun i le => inside (i + 1) (by omega), last⟩
    · rename_i out
      constructor
      · intro mem
        cases mem
      · rintro ⟨k, -, inside, -⟩
        exact absurd (inside 0 (Nat.zero_le k)) out

/-- Every cluster that is ever met is met in the first 2^16 rounds. -/
theorem chainPrefix_early {n fuel c x : Nat} (enough : fullFuel ≤ fuel) (mem : x ∈ chainPrefix g disk n c) :
    x ∈ chainPrefix g disk fuel c := by
  obtain ⟨k, -, inside, last⟩ := mem_chainPrefix.mp mem
  have places : ∀ i ≤ k, (fatEntry g disk)^[i] c ∈ Finset.range fat16EocMin := by
    intro i le
    exact Finset.mem_range.mpr (inside i le).2
  obtain ⟨i, small, below, same⟩ := Walk.iterate_early places
  rw [Finset.card_range] at small
  unfold fat16EocMin at small
  unfold fullFuel at enough
  exact mem_chainPrefix.mpr ⟨i, by omega, fun j le => inside j (by omega), same.trans last⟩

theorem chainPrefix_append (g : Geometry) (disk : Nat → Sector) (n m c : Nat) :
    ∃ rest, chainPrefix g disk (n + m) c = chainPrefix g disk n c ++ rest := by
  induction n generalizing c with
  | zero => exact ⟨chainPrefix g disk (0 + m) c, rfl⟩
  | succ n ih =>
    rw [Nat.succ_add, chainPrefix, chainPrefix]
    split
    · obtain ⟨rest, eq⟩ := ih (fatEntry g disk c)
      exact ⟨rest, by rw [eq, List.cons_append]⟩
    · exact ⟨[], rfl⟩

theorem mem_realSlots_iff {slots : List Loc} {l : Loc} :
    l ∈ realSlots disk slots ↔ l ∈ usedSlots disk slots ∧ realEntry (rawAt disk l) = true := by
  unfold realSlots
  rw [List.mem_filter]

theorem usedSlots_front {xs ys : List Loc} {l : Loc} (used : l ∈ usedSlots disk xs) :
    l ∈ usedSlots disk (xs ++ ys) := by
  unfold usedSlots at used ⊢
  induction xs with
  | nil => cases used
  | cons x xs ih =>
    rw [List.cons_append]
    by_cases goes : rawAt disk x 0 = 0#8
    · rw [List.takeWhile_cons_of_neg (by simpa using goes)] at used
      cases used
    · rw [List.takeWhile_cons_of_pos (by simpa using goes), List.mem_cons] at used ⊢
      exact used.imp_right ih

theorem usedSlots_back {xs ys : List Loc} {l : Loc} (used : l ∈ usedSlots disk (xs ++ ys)) (mem : l ∈ xs) :
    l ∈ usedSlots disk xs := by
  unfold usedSlots at used ⊢
  induction xs with
  | nil => cases mem
  | cons x xs ih =>
    rw [List.cons_append] at used
    by_cases goes : rawAt disk x 0 = 0#8
    · rw [List.takeWhile_cons_of_neg (by simpa using goes)] at used
      cases used
    · rw [List.takeWhile_cons_of_pos (by simpa using goes), List.mem_cons] at used ⊢
      rcases used with rfl | later
      · exact .inl rfl
      · rcases List.mem_cons.mp mem with rfl | behind
        · exact .inl rfl
        · exact .inr (ih later behind)

theorem liveEntry_iff {first fuel : Nat} (enough : fullFuel ≤ fuel) (name : List (BitVec 8)) :
    LiveEntry g disk first name ↔
      ∃ l ∈ realSlots disk (slotPrefix g disk fuel first), display disk l = name := by
  refine ⟨?_, fun found => ⟨fuel, found⟩⟩
  rintro ⟨n, l, mem, named⟩
  refine ⟨l, ?_, named⟩
  unfold slotPrefix at mem ⊢
  by_cases root : first = 0
  · rw [if_pos root] at mem ⊢
    exact mem
  rw [if_neg root, mem_realSlots_iff] at mem ⊢
  obtain ⟨used, real⟩ := mem
  refine ⟨?_, real⟩
  have listed : l ∈ slotsOf (chainLbas g (chainPrefix g disk n first)) := List.takeWhile_subset _ used
  rw [mem_slotsOf, chainLbas, List.mem_flatMap] at listed
  obtain ⟨⟨c, cluster, sector⟩, place⟩ := listed
  have early : l ∈ slotsOf (chainLbas g (chainPrefix g disk fuel first)) := by
    rw [mem_slotsOf, chainLbas, List.mem_flatMap]
    exact ⟨⟨c, chainPrefix_early enough cluster, sector⟩, place⟩
  -- the longer of the two lists of slots begins with the shorter one
  rcases Nat.le_total n fuel with less | more
  · obtain ⟨rest, eq⟩ := chainPrefix_append g disk n (fuel - n) first
    rw [Nat.add_sub_cancel' less] at eq
    rw [eq, chainLbas, List.flatMap_append, slotsOf_append]
    exact usedSlots_front used
  · obtain ⟨rest, eq⟩ := chainPrefix_append g disk fuel (n - fuel) first
    rw [Nat.add_sub_cancel' more] at eq
    rw [eq, chainLbas, List.flatMap_append, slotsOf_append] at used
    exact usedSlots_back used early

end Prefix

section Lookup

variable {σ : Type} {visitor : Visitor σ} {disk : Nat → Sector} {c : Fat × σ} {g : Geometry}

theorem scanChain_begins (steady : SteadyVisitor visitor) (calm : c.1.Calm) (same : c.1.disk = disk)
    (fuel cluster index : Nat) :
    scanChain g visitor fuel cluster c index =
      match scanSlots visitor disk (slotsOf (chainLbas g (chainPrefix g disk fuel cluster))) c index with
      | (c, _, true) => some c
      | (c, _, false) => if chainEnds g disk fuel cluster then some c else none := by
  induction fuel generalizing cluster c index with
  | zero => rfl
  | succ fuel ih =>
    rw [scanChain, chainPrefix, chainEnds]
    by_cases here : 2 ≤ cluster ∧ cluster < fat16EocMin
    · simp only [if_pos here]
      rw [scanSectors_calm steady calm same, chainLbas, List.flatMap_cons, slotsOf_append, scanSlots_append]
      have after : (scanSlots visitor disk (slotsOf (clusterLbas g cluster)) c index).1.1.Calm ∧
          (scanSlots visitor disk (slotsOf (clusterLbas g cluster)) c index).1.1.disk = c.1.disk :=
        scanSlots_steady steady calm _ _
      generalize scanSlots visitor disk (slotsOf (clusterLbas g cluster)) c index = r at after
      obtain ⟨next, index', stop⟩ := r
      cases stop with
      | true => rfl
      | false =>
        have disk' := after.2.trans same
        dsimp only at after disk' ⊢
        rw [fatNextCluster_calm after.1, disk']
        exact ih after.1 disk' _ _
    · simp only [if_neg here]
      rfl

variable {s : Fat} {dir : Option Nat} {name : List (BitVec 8)}

theorem scanSlots_lookup (dir : Option Nat) {slots : List Loc} {l : Loc} (index : Nat)
    (found : (realSlots s.disk slots).find? (fun l => display s.disk l == name) = some l) :
    (scanSlots (fatLookupVisitor name dir) s.disk slots (s, none) index).2.2 = true := by
  induction slots generalizing index with
  | nil => cases found
  | cons x rest ih =>
    rw [scanSlots]
    by_cases ended : rawAt s.disk x 0 = 0#8
    · rw [if_pos ended]
    rw [if_neg ended]
    by_cases real : realEntry (rawAt s.disk x) = true
    · rw [if_pos real]
      rw [realSlots_real ended real] at found
      by_cases here : display s.disk x = name
      · have stops : (fatLookupVisitor name dir (display s.disk x) (rawAt s.disk x) index x.1 x.2 (s, none)).2 = true := by
          unfold fatLookupVisitor
          rw [if_neg (not_not.mpr here)]
          split <;> rfl
        split
        · rfl
        · rename_i goes
          rw [goes] at stops
          cases stops
      · rw [List.find?_cons_of_neg (by simpa using here)] at found
        have passes : fatLookupVisitor name dir (display s.disk x) (rawAt s.disk x) index x.1 x.2 (s, none) =
            ((s, none), false) := if_pos here
        rw [passes]
        exact ih _ found
    · rw [if_neg real]
      rw [realSlots_skip ended real] at found
      exact ih _ found

variable {fuel : Nat}

/-- The entry that a lookup comes to. -/
def liveSlot (g : Geometry) (s : Fat) (fuel : Nat) (dir : Option Nat) (name : List (BitVec 8)) : Option Loc :=
  (realSlots s.disk (slotPrefix g s.disk fuel (s.metaOf dir).firstCluster)).find? fun l => display s.disk l == name

theorem liveSlot_some (enough : fullFuel ≤ fuel) :
    (∃ l, liveSlot g s fuel dir name = some l) ↔ LiveEntry g s.disk (s.metaOf dir).firstCluster name := by
  rw [liveEntry_iff enough name]
  constructor
  · rintro ⟨l, found⟩
    exact ⟨l, List.mem_of_find?_eq_some found, by simpa using List.find?_some found⟩
  · rintro ⟨l, mem, named⟩
    apply Option.isSome_iff_exists.mp
    unfold liveSlot
    rw [List.find?_isSome]
    exact ⟨l, mem, by simpa using named⟩

theorem fatDirLookup_live (calm : s.Calm) {l : Loc} (found : liveSlot g s fuel dir name = some l) :
    fatDirLookup g fuel s dir name = some (handOut s dir (some l)) := by
  have steady := fatLookupVisitor_steady name dir
  unfold liveSlot slotPrefix at found
  unfold fatDirLookup fatIterateDir
  dsimp only
  by_cases root : (s.metaOf dir).firstCluster = 0
  · rw [if_pos root] at found ⊢
    rw [scanSectors_calm steady calm rfl, scanSlots_visits, visitSlots_lookup, found]
  · rw [if_neg root] at found ⊢
    rw [scanChain_begins steady calm rfl]
    have stop := scanSlots_lookup dir 0 found
    have visits : (scanSlots (fatLookupVisitor name dir) s.disk
        (slotsOf (chainLbas g (chainPrefix g s.disk fuel (s.metaOf dir).firstCluster))) (s, none) 0).1 =
        handOut s dir (some l) := by
      rw [scanSlots_visits, visitSlots_lookup, found]
    generalize scanSlots (fatLookupVisitor name dir) s.disk
      (slotsOf (chainLbas g (chainPrefix g s.disk fuel (s.metaOf dir).firstCluster))) (s, none) 0 = r at stop visits
    obtain ⟨next, index, stopped⟩ := r
    simp only at stop visits
    subst stop
    rw [visits]

theorem fatDirLookup_dead (calm : s.Calm) (missing : liveSlot g s fuel dir name = none) :
    fatDirLookup g fuel s dir name = none ∨ fatDirLookup g fuel s dir name = some (s, none) := by
  have steady := fatLookupVisitor_steady name dir
  unfold liveSlot slotPrefix at missing
  unfold fatDirLookup fatIterateDir
  dsimp only
  by_cases root : (s.metaOf dir).firstCluster = 0
  · rw [if_pos root] at missing ⊢
    rw [scanSectors_calm steady calm rfl, scanSlots_visits, visitSlots_lookup, missing]
    exact .inr rfl
  · rw [if_neg root] at missing ⊢
    rw [scanChain_begins steady calm rfl]
    have visits : (scanSlots (fatLookupVisitor name dir) s.disk
        (slotsOf (chainLbas g (chainPrefix g s.disk fuel (s.metaOf dir).firstCluster))) (s, none) 0).1 =
        handOut s dir none := by
      rw [scanSlots_visits, visitSlots_lookup, missing]
    generalize scanSlots (fatLookupVisitor name dir) s.disk
      (slotsOf (chainLbas g (chainPrefix g s.disk fuel (s.metaOf dir).firstCluster))) (s, none) 0 = r at visits
    obtain ⟨next, index, stopped⟩ := r
    simp only at visits
    subst visits
    cases stopped with
    | true => exact .inr rfl
    | false =>
      dsimp only
      split
      · exact .inr rfl
      · exact .inl rfl

end Lookup

section Codes

variable {g : Geometry} {fuel : Nat} {s t : Fat} {dir : Option Nat} {name : List (BitVec 8)}

/-- Codes that do not depend on a name. -/
def IoCode (code : Int) : Prop := code = -eio ∨ code = -enospc

theorem findInSectors_code {lbas : List Nat} {e : Int} (failed : (findInSectors lbas s).2 = .error e) :
    e = -eio := by
  induction lbas generalizing s with
  | nil => cases failed
  | cons lba rest ih =>
    rw [findInSectors] at failed
    split at failed
    · cases failed
      rfl
    · split at failed
      · cases failed
      · exact ih failed

theorem findInChain_code {cluster last : Nat} {e : Int}
    (failed : findInChain g fuel cluster last s = some (t, .error e)) : e = -eio := by
  induction fuel generalizing s cluster last with
  | zero => cases failed
  | succ fuel ih =>
    rw [findInChain] at failed
    split at failed
    · split at failed
      · rename_i found
        cases failed
        exact findInSectors_code (congrArg Prod.snd found)
      · cases failed
      · exact ih failed
    · cases failed

theorem fatFindFreeDirentSlot_code {e : Int} (failed : fatFindFreeDirentSlot g fuel s dir = some (t, .error e)) :
    IoCode e := by
  unfold fatFindFreeDirentSlot at failed
  dsimp only at failed
  split at failed
  · split at failed
    · rename_i found
      cases failed
      exact .inl (findInSectors_code (congrArg Prod.snd found))
    · cases failed
      exact .inr rfl
    · cases failed
  · split at failed
    · cases failed
    · rename_i found
      cases failed
      exact .inl (findInChain_code found)
    · cases failed
    · split at failed
      · cases failed
        exact .inr rfl
      · split at failed
        · cases failed
          exact .inl rfl
        · cases failed

theorem addEntry_code {entry : List (BitVec 8)} {writeError code : Int}
    (ends : addEntry g fuel s dir entry writeError = some (t, code)) : IoCode code ∨ code = 0 ∨ code = writeError := by
  unfold addEntry at ends
  split at ends
  · cases ends
  · rename_i failed
    cases ends
    exact .inl (fatFindFreeDirentSlot_code failed)
  · split at ends
    · cases ends
      exact .inl (.inl rfl)
    · cases ends
      split
      · exact .inr (.inl rfl)
      · exact .inr (.inr rfl)

theorem fatDirCreate_exists_iff : (∃ t, fatDirCreate g fuel s dir name = some (t, -eexist)) ↔
    ∃ t i, fatDirLookup g fuel s dir name = some (t, some i) := by
  unfold fatDirCreate
  constructor
  · rintro ⟨t, ends⟩
    split at ends
    · cases ends
    · rename_i u i looked
      exact ⟨u, i, looked⟩
    · rcases addEntry_code ends with (code | code) | code | code <;> cases code
  · rintro ⟨t, i, looked⟩
    rw [looked]
    exact ⟨t, rfl⟩

theorem fatDirMkdir_exists_iff : (∃ t, fatDirMkdir g fuel s dir name = some (t, -eexist)) ↔
    ∃ t i, fatDirLookup g fuel s dir name = some (t, some i) := by
  unfold fatDirMkdir
  constructor
  · rintro ⟨t, ends⟩
    split at ends
    · cases ends
    · rename_i u i looked
      exact ⟨u, i, looked⟩
    · dsimp only at ends
      split at ends
      · cases ends
      split at ends
      · cases ends
      split at ends
      · cases ends
      split at ends
      · cases ends
      · rcases addEntry_code ends with (code | code) | code | code <;> cases code
  · rintro ⟨t, i, looked⟩
    rw [looked]
    exact ⟨t, rfl⟩

theorem removeEntry_code {target : Nat} {code : Int} (ends : removeEntry g fuel s target = some (t, code)) :
    code = 0 ∨ code = -eio := by
  unfold removeEntry at ends
  dsimp only at ends
  split at ends
  · cases ends
  · split at ends
    · cases ends
      exact .inr rfl
    · cases ends
      split
      · exact .inl rfl
      · exact .inr rfl

theorem fatDirUnlink_absent_iff : (∃ t, fatDirUnlink g fuel s dir name = some (t, -enoent)) ↔
    ∃ t, fatDirLookup g fuel s dir name = some (t, none) := by
  unfold fatDirUnlink
  constructor
  · rintro ⟨t, ends⟩
    split at ends
    · cases ends
    · rename_i u looked
      exact ⟨u, looked⟩
    · split at ends
      · split at ends
        · cases ends
        · cases ends
        · rcases removeEntry_code ends with code | code <;> cases code
      · rcases removeEntry_code ends with code | code <;> cases code
  · rintro ⟨t, looked⟩
    rw [looked]
    exact ⟨t, rfl⟩

end Codes

section Calm

variable {g : Geometry} {fuel : Nat} {s t : Fat} {dir : Option Nat} {name : List (BitVec 8)}

theorem scanSectors_keeps {σ : Type} {visitor : Visitor σ} (steady : SteadyVisitor visitor) {c : Fat × σ}
    (calm : c.1.Calm) (lbas : List Nat) (index : Nat) : (scanSectors visitor lbas c index).1.1.Calm := by
  rw [scanSectors_calm steady calm rfl]
  exact (scanSlots_steady steady calm _ _).1

theorem fatIterateDir_keeps {σ : Type} {visitor : Visitor σ} (steady : SteadyVisitor visitor) (calm : s.Calm)
    {st : σ} {r : Fat × σ} (ends : fatIterateDir g visitor fuel dir (s, st) = some r) : r.1.Calm := by
  unfold fatIterateDir at ends
  dsimp only at ends
  split at ends
  · cases ends
    exact scanSectors_keeps steady calm _ _
  · rw [scanChain_begins steady calm rfl] at ends
    have after : (scanSlots visitor s.disk
        (slotsOf (chainLbas g (chainPrefix g s.disk fuel (s.metaOf dir).firstCluster))) (s, st) 0).1.1.Calm :=
      (scanSlots_steady steady calm _ 0).1
    generalize scanSlots visitor s.disk
      (slotsOf (chainLbas g (chainPrefix g s.disk fuel (s.metaOf dir).firstCluster))) (s, st) 0 = r' at ends after
    obtain ⟨next, index, stopped⟩ := r'
    cases stopped with
    | true =>
      cases ends
      exact after
    | false =>
      dsimp only at ends
      split at ends
      · cases ends
        exact after
      · cases ends

theorem fatAllocCluster_keeps (calm : s.Calm) : (fatAllocCluster g s).1.Calm := by
  rw [fatAllocCluster_calm calm]
  split <;> exact calm

theorem fatWriteFatEntry_keeps (calm : s.Calm) (c value : Nat) : (fatWriteFatEntry g s c value).Calm := by
  rw [fatWriteFatEntry_calm calm]
  exact calm

theorem nextOrExtend_keeps (calm : s.Calm) {c : Nat} {next : Option Nat} (ends : nextOrExtend g s c = (t, next)) :
    t.Calm := by
  unfold nextOrExtend at ends
  rw [fatNextCluster_calm calm] at ends
  dsimp only at ends
  split at ends
  · split at ends
    · cases ends
      exact fatAllocCluster_keeps calm
    · cases ends
      exact fatWriteFatEntry_keeps (fatAllocCluster_keeps calm) _ _
  · cases ends
    exact calm

theorem walkTo_keeps (calm : s.Calm) (n c : Nat) : (walkTo g n s c).1.Calm := by
  induction n generalizing s c with
  | zero => exact calm
  | succ n ih =>
    rw [walkTo]
    split
    · rename_i found
      exact nextOrExtend_keeps calm found
    · rename_i found
      exact ih (nextOrExtend_keeps calm found) _

theorem writeLoop_keeps (calm : s.Calm) (fuel c pos : Nat) (src : Nat → BitVec 8) (left copied : Nat) :
    (writeLoop g fuel s c pos src left copied).1.Calm := by
  induction fuel generalizing s c pos left copied with
  | zero => exact calm
  | succ fuel ih =>
    rw [writeLoop]
    split
    · exact calm
    dsimp only
    rw [ataReadSector_calm calm]
    split
    · rename_i none
      split at none <;> cases none
    · rename_i s' sector old
      have same : s' = s := by
        split at old <;> cases old <;> rfl
      subst same
      rw [ataWriteSector_calm calm]
      dsimp only
      split
      · split
        · rename_i found
          exact nextOrExtend_keeps calm.withDisk found
        · rename_i found
          exact ih (nextOrExtend_keeps calm.withDisk found) _ _ _ _
      · exact ih calm.withDisk _ _ _ _

theorem fatWritebackDirent_keeps (calm : s.Calm) (node : Nat) : (fatWritebackDirent s node).Calm := by
  unfold fatWritebackDirent
  dsimp only
  rw [ataReadSector_calm calm]
  dsimp only
  rw [ataWriteSector_calm calm]
  exact calm

theorem setMeta_keeps (calm : s.Calm) (node : Nat) (m : FatMeta) : (s.setMeta node m).Calm := calm

theorem writeFrom_keeps (calm : s.Calm) (node : Nat) (src : Nat → BitVec 8) (count offset : Nat) :
    (writeFrom g s node src count offset).1.Calm := by
  have walked := walkTo_keeps (g := g) calm (offset / g.clusterSize) (s.nodes node).priv.firstCluster
  unfold writeFrom
  split
  · rename_i found
    rw [found] at walked
    exact walked
  · rename_i found
    rw [found] at walked
    exact fatWritebackDirent_keeps (setMeta_keeps (writeLoop_keeps walked _ _ _ _ _ _) node _) node

theorem fatFileWrite_keeps (calm : s.Calm) (node : Nat) (src : Nat → BitVec 8) (count offset : Nat) :
    (fatFileWrite g s node src count offset).1.Calm := by
  have taken := fatAllocCluster_keeps (g := g) calm
  unfold fatFileWrite
  split
  · exact calm
  split
  · dsimp only
    split
    · exact taken
    · exact writeFrom_keeps (setMeta_keeps taken node _) _ _ _ _
  · exact writeFrom_keeps calm _ _ _ _

theorem findInSectors_keeps (calm : s.Calm) (lbas : List Nat) : (findInSectors lbas s).1.Calm := by
  rw [findInSectors_calm calm]
  exact calm

theorem findInChain_keeps (calm : s.Calm) {cluster last : Nat} {r : Except Int (Sum (Nat × Nat) Nat)}
    (ends : findInChain g fuel cluster last s = some (t, r)) : t.Calm := by
  induction fuel generalizing s cluster last with
  | zero => cases ends
  | succ fuel ih =>
    have searched := findInSectors_keeps calm (clusterLbas g cluster)
    rw [findInChain] at ends
    split at ends
    · split at ends
      · rename_i found
        rw [found] at searched
        cases ends
        exact searched
      · rename_i found
        rw [found] at searched
        cases ends
        exact searched
      · rename_i found
        rw [found] at searched
        rw [fatNextCluster_calm searched] at ends
        exact ih searched ends
    · cases ends
      exact calm

theorem fatFindFreeDirentSlot_keeps (calm : s.Calm) {r : Except Int (Nat × Nat)}
    (ends : fatFindFreeDirentSlot g fuel s dir = some (t, r)) : t.Calm := by
  unfold fatFindFreeDirentSlot at ends
  dsimp only at ends
  split at ends
  · have searched := findInSectors_keeps calm (rootLbas g)
    split at ends
    · rename_i found
      rw [found] at searched
      cases ends
      exact searched
    · rename_i found
      rw [found] at searched
      cases ends
      exact searched
    · rename_i found
      rw [found] at searched
      cases ends
      exact searched
  · split at ends
    · cases ends
    · rename_i found
      cases ends
      exact findInChain_keeps calm found
    · rename_i found
      cases ends
      exact findInChain_keeps calm found
    · rename_i u last found
      have searched := findInChain_keeps calm found
      have taken := fatAllocCluster_keeps (g := g) searched
      split at ends
      · cases ends
        exact taken
      · have written := fatWriteFatEntry_keeps (g := g) taken last (fatAllocCluster g u).2
        rw [zeroSectors_calm written] at ends
        cases ends
        exact written

theorem addEntry_keeps (calm : s.Calm) {entry : List (BitVec 8)} {writeError code : Int}
    (ends : addEntry g fuel s dir entry writeError = some (t, code)) : t.Calm := by
  unfold addEntry at ends
  split at ends
  · cases ends
  · rename_i found
    cases ends
    exact fatFindFreeDirentSlot_keeps calm found
  · rename_i u lba offset found
    have searched := fatFindFreeDirentSlot_keeps calm found
    rw [ataReadSector_calm searched] at ends
    dsimp only at ends
    rw [ataWriteSector_calm searched] at ends
    cases ends
    exact searched

theorem fatDirLookup_keeps (calm : s.Calm) {r : Fat × Option Nat}
    (ends : fatDirLookup g fuel s dir name = some r) : r.1.Calm :=
  fatIterateDir_keeps (fatLookupVisitor_steady name dir) calm ends

theorem freeChain_keeps (calm : s.Calm) {cluster : Nat} (ends : freeChain g fuel s cluster = some t) : t.Calm := by
  induction fuel generalizing s cluster with
  | zero => cases ends
  | succ fuel ih =>
    rw [freeChain, fatNextCluster_calm calm] at ends
    split at ends
    · exact ih (fatWriteFatEntry_keeps calm _ _) ends
    · cases ends
      exact calm

theorem removeEntry_keeps (calm : s.Calm) {target : Nat} {code : Int}
    (ends : removeEntry g fuel s target = some (t, code)) : t.Calm := by
  unfold removeEntry at ends
  dsimp only at ends
  split at ends
  · cases ends
  · rename_i freed
    have calm' := freeChain_keeps calm freed
    rw [ataReadSector_calm calm'] at ends
    dsimp only at ends
    rw [ataWriteSector_calm calm'] at ends
    cases ends
    exact calm'

theorem fatDirCreate_keeps (calm : s.Calm) {code : Int} (ends : fatDirCreate g fuel s dir name = some (t, code)) :
    t.Calm := by
  unfold fatDirCreate at ends
  split at ends
  · cases ends
  · rename_i looked
    cases ends
    exact fatDirLookup_keeps calm looked
  · rename_i looked
    exact addEntry_keeps (fatDirLookup_keeps calm looked) ends

theorem fatDirMkdir_keeps (calm : s.Calm) {code : Int} (ends : fatDirMkdir g fuel s dir name = some (t, code)) :
    t.Calm := by
  unfold fatDirMkdir at ends
  split at ends
  · cases ends
  · rename_i looked
    cases ends
    exact fatDirLookup_keeps calm looked
  · rename_i u looked
    have taken := fatAllocCluster_keeps (g := g) (fatDirLookup_keeps calm looked)
    dsimp only at ends
    split at ends
    · cases ends
      exact taken
    · rw [zeroSectors_calm taken] at ends
      dsimp only at ends
      rw [ataReadSector_calm taken.withDisk] at ends
      dsimp only at ends
      rw [ataWriteSector_calm taken.withDisk] at ends
      exact addEntry_keeps taken.withDisk ends

theorem fatDirUnlink_keeps (calm : s.Calm) {code : Int} (ends : fatDirUnlink g fuel s dir name = some (t, code)) :
    t.Calm := by
  unfold fatDirUnlink at ends
  split at ends
  · cases ends
  · rename_i looked
    cases ends
    exact fatDirLookup_keeps calm looked
  · rename_i looked
    have calm' := fatDirLookup_keeps calm looked
    split at ends
    · split at ends
      · cases ends
      · rename_i checked
        cases ends
        exact fatIterateDir_keeps fatDotCheckVisitor_steady calm' checked
      · rename_i checked
        exact removeEntry_keeps (fatIterateDir_keeps fatDotCheckVisitor_steady calm' checked) ends
    · exact removeEntry_keeps calm' ends

theorem fatStep_keeps (calm : s.Calm) {op : FatOp} (ends : fatStep g fuel s op = some t) : t.Calm := by
  cases op with
  | lookup dir name =>
    obtain ⟨r, looked, rfl⟩ := Option.map_eq_some_iff.mp ends
    exact fatDirLookup_keeps calm looked
  | write node src count offset =>
    cases ends
    exact fatFileWrite_keeps calm _ _ _ _
  | create dir name =>
    obtain ⟨r, made, rfl⟩ := Option.map_eq_some_iff.mp ends
    exact fatDirCreate_keeps calm made
  | mkdir dir name =>
    obtain ⟨r, made, rfl⟩ := Option.map_eq_some_iff.mp ends
    exact fatDirMkdir_keeps calm made
  | unlink dir name =>
    obtain ⟨r, removed, rfl⟩ := Option.map_eq_some_iff.mp ends
    exact fatDirUnlink_keeps calm removed

theorem fatCalls_keep (calm : s.Calm) (ops : List FatOp)
    (ends : (Run.run (fatCalls g fuel) (some s) ops).1 = some t) : t.Calm := by
  refine Run.run_invariant (fatCalls g fuel) (fun v => ∀ t, v = some t → t.Calm) ?_ (some s) ops
    (fun t same => Option.some.inj same ▸ calm) t ends
  intro v op before t ends
  cases v with
  | none => cases ends
  | some s => exact fatStep_keeps (before s rfl) ends

end Calm

structure AnswersByDisk (g : Geometry) (fuel : Nat) (s : Fat) (dir : Option Nat) (name : List (BitVec 8)) : Prop where
  lookup : (∃ t i, fatDirLookup g fuel s dir name = some (t, some i)) ↔
    LiveEntry g s.disk (s.metaOf dir).firstCluster name
  create : (∃ t, fatDirCreate g fuel s dir name = some (t, -eexist)) ↔
    LiveEntry g s.disk (s.metaOf dir).firstCluster name
  mkdir : (∃ t, fatDirMkdir g fuel s dir name = some (t, -eexist)) ↔
    LiveEntry g s.disk (s.metaOf dir).firstCluster name
  unlink : (∃ t, fatDirUnlink g fuel s dir name = some (t, -enoent)) →
    ¬ LiveEntry g s.disk (s.metaOf dir).firstCluster name

theorem answersByDisk_iff {g : Geometry} {fuel : Nat} (enough : fullFuel ≤ fuel) {s : Fat} (calm : s.Calm)
    (dir : Option Nat) (name : List (BitVec 8)) : AnswersByDisk g fuel s dir name ↔
      (LiveEntry g s.disk (s.metaOf dir).firstCluster name → s.count < fatMaxNodes) := by
  have live : (∃ l, liveSlot g s fuel dir name = some l) ↔
      LiveEntry g s.disk (s.metaOf dir).firstCluster name := liveSlot_some enough
  constructor
  · intro answers there
    by_contra full
    obtain ⟨t, i, looked⟩ := answers.lookup.mpr there
    obtain ⟨l, found⟩ := live.mpr there
    rw [fatDirLookup_live calm found] at looked
    simp only [handOut, fatAllocNode, if_pos (Nat.le_of_not_lt full), Option.some.injEq, Prod.mk.injEq, reduceCtorEq,
      and_false] at looked
  · intro room
    cases found : liveSlot g s fuel dir name with
    | none =>
      have dead : ¬ LiveEntry g s.disk (s.metaOf dir).firstCluster name := by
        intro there
        obtain ⟨l, found'⟩ := live.mpr there
        rw [found] at found'
        cases found'
      have lost : ¬ ∃ t i, fatDirLookup g fuel s dir name = some (t, some i) := by
        rintro ⟨t, i, looked⟩
        rcases fatDirLookup_dead calm found with endless | missed
        · rw [endless] at looked
          cases looked
        · rw [missed] at looked
          cases looked
      exact ⟨iff_of_false lost dead, fatDirCreate_exists_iff.trans (iff_of_false lost dead),
        fatDirMkdir_exists_iff.trans (iff_of_false lost dead), fun _ => dead⟩
    | some l =>
      have there := live.mp ⟨l, found⟩
      have looked := fatDirLookup_live calm found
      have left : ¬ s.count ≥ fatMaxNodes := Nat.not_le_of_lt (room there)
      simp only [handOut, fatAllocNode, if_neg left] at looked
      have given : ∃ t i, fatDirLookup g fuel s dir name = some (t, some i) := ⟨_, _, looked⟩
      refine ⟨iff_of_true given there, fatDirCreate_exists_iff.trans (iff_of_true given there),
        fatDirMkdir_exists_iff.trans (iff_of_true given there), fun absent => ?_⟩
      obtain ⟨t, missed⟩ := fatDirUnlink_absent_iff.mp absent
      rw [looked] at missed
      cases missed

/-- After any calls, lookups answer by the disk exactly as long as what is there can be given a node. -/
theorem fat_lookups_by_disk_iff (g : Geometry) (fuel : Nat) (enough : fullFuel ≤ fuel) (start : Fat) (calm : start.Calm)
    (ops : List FatOp) (s : Fat) (reached : (Run.run (fatCalls g fuel) (some start) ops).1 = some s)
    (dir : Option Nat) (name : List (BitVec 8)) :
    AnswersByDisk g fuel s dir name ↔
      (LiveEntry g s.disk (s.metaOf dir).firstCluster name → s.count < fatMaxNodes) :=
  answersByDisk_iff enough (fatCalls_keep calm ops reached) dir name

def repeatedLookups (n : Nat) : List FatOp := List.replicate n (.lookup none [0x61#8])

theorem repeated_reached : (Run.run (fatCalls twoCopies fullFuel) (some clusterOneVolume) (repeatedLookups 1)).1.isSome := by
  decide +kernel

theorem second_lookup_by_disk :
    ∃ s, (Run.run (fatCalls twoCopies fullFuel) (some clusterOneVolume) (repeatedLookups 1)).1 = some s ∧
      (AnswersByDisk twoCopies fullFuel s none [0x61#8] ↔
        (LiveEntry twoCopies s.disk (s.metaOf none).firstCluster [0x61#8] → s.count < fatMaxNodes)) := by
  obtain ⟨s, reached⟩ := Option.isSome_iff_exists.mp repeated_reached
  exact ⟨s, reached, fat_lookups_by_disk_iff twoCopies fullFuel (Nat.le_refl _) clusterOneVolume rfl
    (repeatedLookups 1) s reached none [0x61#8]⟩

/-- The file is there, and the lookup after 128 others does not find it. -/
theorem late_lookup_fails :
    ∃ s, (Run.run (fatCalls twoCopies fullFuel) (some clusterOneVolume) (repeatedLookups 128)).1 = some s ∧
      LiveEntry twoCopies s.disk (s.metaOf none).firstCluster [0x61#8] ∧
      ¬ ∃ t i, fatDirLookup twoCopies fullFuel s none [0x61#8] = some (t, some i) := by
  have run : ((Run.run (fatCalls twoCopies fullFuel) (some clusterOneVolume) (repeatedLookups 128)).1.map fun s =>
      ((realSlots s.disk (slotPrefix twoCopies s.disk 0 0)).any (fun l => display s.disk l == [0x61#8]),
        (fatDirLookup twoCopies fullFuel s none [0x61#8]).map fun r => r.2)) = some (true, some none) := by
    decide +kernel
  obtain ⟨s, reached, eq⟩ := Option.map_eq_some_iff.mp run
  rw [Prod.mk.injEq] at eq
  refine ⟨s, reached, ?_, ?_⟩
  · obtain ⟨l, mem, named⟩ := List.any_eq_true.mp eq.1
    exact ⟨0, l, mem, by simpa using named⟩
  · rintro ⟨t, i, looked⟩
    rw [looked] at eq
    cases eq.2

end Isunux
