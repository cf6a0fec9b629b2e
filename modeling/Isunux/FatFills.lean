import Isunux.FatBytes

/-! What a write puts into the clusters of a file, byte by byte, and how many clusters it
gives to the file. -/
namespace Isunux

section Filling

variable (g : Geometry) (disk : Nat → Sector) (l : Loc) (old src : Nat → BitVec 8) (size offset : Nat)

/-- In the middle of a write to a file of the given size: `copied` bytes have arrived at the offset,
the others of the file are the old ones, and no entry from the bad mark on is free. -/
structure Filling (d : Nat → Sector) (first : Nat) (xs : List Nat) (copied : Nat) : Prop extends
    Writing g disk d l first xs where
  spare : ∀ c, fat16Bad ≤ c → c < g.totalEntries → fatEntry g d c ≠ 0
  bytes : ∀ i, i < size ∨ offset ≤ i ∧ i < offset + copied →
    chainByte g d xs i = if offset ≤ i ∧ i < offset + copied then src (i - offset) else old i

/-- After the copying loop: the chain is as long as the file needs, and the loop stopped early only
because nothing was free. -/
structure Landed (d : Nat → Sector) (first : Nat) (xs : List Nat) (n count : Nat) : Prop extends
    Filling g disk l old src size offset d first xs n where
  any : 0 < n
  upTo : n ≤ count
  length : xs.length = clustersFor g (max size (offset + n))
  short : n < count → freeCluster g d = none

end Filling

section Counting

variable {g : Geometry} {k pos size : Nat}

theorem clustersFor_place (per : 0 < g.sectorsPerCluster) (some : 0 < pos) (most : pos ≤ g.clusterSize) :
    clustersFor g (k * g.clusterSize + pos) = k + 1 := by
  have positive := clusterSize_pos per
  have shift : k * g.clusterSize + pos + (g.clusterSize - 1) = g.clusterSize * (k + 1) + (pos - 1) := by
    rw [Nat.mul_add, Nat.mul_one, Nat.mul_comm k]
    omega
  unfold clustersFor
  rw [shift, Nat.mul_add_div positive, Nat.div_eq_of_lt (by omega), Nat.add_zero]

theorem size_le_clusters (per : 0 < g.sectorsPerCluster) (size : Nat) : size ≤ clustersFor g size * g.clusterSize := by
  have positive := clusterSize_pos per
  have split := Nat.div_add_mod' (size + (g.clusterSize - 1)) g.clusterSize
  have rest := Nat.mod_lt (size + (g.clusterSize - 1)) positive
  unfold clustersFor
  omega

theorem clustersFor_mono {size' : Nat} (le : size ≤ size') : clustersFor g size ≤ clustersFor g size' :=
  Nat.div_le_div_right (Nat.add_le_add_right le _)

theorem clustersFor_max (size size' : Nat) : clustersFor g (max size size') = max (clustersFor g size) (clustersFor g size') := by
  rcases Nat.le_total size size' with le | le
  · rw [max_eq_right le, max_eq_right (clustersFor_mono le)]
  · rw [max_eq_left le, max_eq_left (clustersFor_mono le)]

theorem clustersFor_zero : clustersFor g 0 = 0 := by
  unfold clustersFor
  rw [Nat.zero_add]
  by_cases none : g.clusterSize = 0
  · rw [none]
  · exact Nat.div_eq_of_lt (by omega)

end Counting

section Steps

variable {g : Geometry} {disk d : Nat → Sector} {l : Loc} {old src : Nat → BitVec 8} {size offset first c k pos copied chunk : Nat}
  {xs ys : List Nat} {s : Fat}

theorem chainByte_congr {d' : Nat → Sector} {i : Nat} (per : 0 < g.sectorsPerCluster) (low : i < xs.length * g.clusterSize)
    (same : ∀ c ∈ xs, ∀ lba ∈ clusterLbas g c, d' lba = d lba) : chainByte g d' (xs ++ ys) i = chainByte g d xs i := by
  have positive := clusterSize_pos per
  have inside : i / g.clusterSize < xs.length := (Nat.div_lt_iff_lt_mul positive).mpr low
  have here : xs[i / g.clusterSize]? = some xs[i / g.clusterSize] := List.getElem?_eq_getElem inside
  have here' : (xs ++ ys)[i / g.clusterSize]? = some xs[i / g.clusterSize] := by rw [List.getElem?_append_left inside, here]
  have place := chainByte_place (d := d) per here (Nat.mod_lt i positive)
  have place' := chainByte_place (d := d') per here' (Nat.mod_lt i positive)
  rw [Nat.div_add_mod'] at place place'
  rw [place, place', same _ (List.getElem_mem inside) _ (sector_inside (Nat.mod_lt i positive))]

theorem clusterLbas_region (low : 2 ≤ c) : regionLbas g c = clusterLbas g c := if_neg (by omega)

theorem chainByte_store (per : 0 < g.sectorsPerCluster) (chain : ChainOf g d first xs) (here : xs[k]? = some c)
    (inside : pos < g.clusterSize) (fits : pos % 512 + chunk ≤ 512) {before : Sector}
    (old : chunk < 512 → before = d (sectorOf g c (pos / 512))) {i : Nat} (low : i < xs.length * g.clusterSize) :
    chainByte g (Function.update d (sectorOf g c (pos / 512))
        (patch before (pos % 512) ((List.range chunk).map fun i => src (copied + i)))) xs i =
      if k * g.clusterSize + pos ≤ i ∧ i < k * g.clusterSize + pos + chunk then src (copied + (i - (k * g.clusterSize + pos)))
      else chainByte g d xs i := by
  have positive := clusterSize_pos per
  have size : g.clusterSize = g.sectorsPerCluster * 512 := rfl
  obtain ⟨k', p, rfl, below⟩ : ∃ k' p, i = k' * g.clusterSize + p ∧ p < g.clusterSize :=
    ⟨_, _, (Nat.div_add_mod' i g.clusterSize).symm, Nat.mod_lt i positive⟩
  have inChain : k' < xs.length := by
    by_contra out
    have := Nat.mul_le_mul_right g.clusterSize (Nat.le_of_not_lt out)
    omega
  have there : xs[k']? = some xs[k'] := List.getElem?_eq_getElem inChain
  rw [chainByte_place per there below, chainByte_place per there below]
  by_cases same : k' = k
  · subst same
    obtain rfl := Option.some.inj (there.symm.trans here)
    by_cases sector : p / 512 = pos / 512
    · rw [sector, Function.update_self]
      unfold patch
      rw [List.length_map, List.length_range]
      by_cases within : pos ≤ p ∧ p < pos + chunk
      · rw [if_pos (by omega), if_pos (by omega), List.getD_eq_getElem?_getD, List.getElem?_map,
          List.getElem?_range (by omega), Option.map_some, Option.getD_some]
        congr 1
        omega
      · rw [if_neg (by omega), if_neg (by omega), old (by omega)]
    · have few := g.perCluster_lt
      have other : ∀ c, sectorOf g c (p / 512) ≠ sectorOf g c (pos / 512) := fun c same =>
        sector (sectorOf_inj (by omega) (by omega) same)
      rw [Function.update_of_ne (other _), if_neg (by omega)]
  · have outside : ¬ (k * g.clusterSize + pos ≤ k' * g.clusterSize + p ∧ k' * g.clusterSize + p < k * g.clusterSize + pos + chunk) := by
      rcases Nat.lt_or_gt_of_ne same with less | more
      · have := Nat.mul_le_mul_right g.clusterSize (Nat.succ_le_of_lt less)
        rw [Nat.succ_mul] at this
        omega
      · have := Nat.mul_le_mul_right g.clusterSize (Nat.succ_le_of_lt more)
        rw [Nat.succ_mul] at this
        omega
    rw [if_neg outside, Function.update_of_ne]
    intro meets
    have cell := chain.cells _ (List.getElem_mem inChain)
    have cell' := chain.cells c (List.mem_of_getElem? here)
    have mem := sector_inside (c := xs[k']) below
    have mem' := sector_inside (c := c) inside
    rw [← clusterLbas_region cell.low] at mem
    rw [← clusterLbas_region cell'.low, ← meets] at mem'
    have again := region_apart cell.isRegion cell'.isRegion mem mem'
    obtain ⟨bound, is⟩ := List.getElem?_eq_some_iff.mp here
    exact same ((List.Nodup.getElem_inj_iff chain.nodup).mp (again.trans is.symm))

variable (per : 0 < g.sectorsPerCluster) (fats : 0 < g.numFats)

theorem Filling.cursor (h : Filling g disk l old src size offset d first xs copied) (here : xs[k]? = some c) :
    Cursor g disk d l xs c :=
  have mem := List.mem_of_getElem? here
  ⟨h.chain.cells c mem, h.own c mem, .inl mem⟩

include per fats in
theorem Filling.stored (h : Filling g disk l old src size offset d first xs copied) (here : xs[k]? = some c)
    (inside : pos < g.clusterSize) (fits : pos % 512 + chunk ≤ 512) (place : k * g.clusterSize + pos = offset + copied)
    (room : size ≤ xs.length * g.clusterSize) {before : Sector}
    (same : chunk < 512 → before = d (sectorOf g c (pos / 512))) :
    Filling g disk l old src size offset (Function.update d (sectorOf g c (pos / 512))
      (patch before (pos % 512) ((List.range chunk).map fun i => src (copied + i)))) first xs (copied + chunk) := by
  obtain ⟨writing, -, table⟩ := h.store (h.cursor here) fats (sector_inside inside)
    (patch before (pos % 512) ((List.range chunk).map fun i => src (copied + i)))
  have unit : g.clusterSize = g.sectorsPerCluster * 512 := rfl
  have whole : (k + 1) * g.clusterSize ≤ xs.length * g.clusterSize :=
    Nat.mul_le_mul_right _ (List.getElem?_eq_some_iff.mp here).1
  rw [Nat.add_mul, Nat.one_mul] at whole
  refine ⟨writing, fun c high bound => table c bound ▸ h.spare c high bound, fun i wanted => ?_⟩
  rw [chainByte_store per h.chain here inside fits same (by omega), place]
  by_cases new : offset + copied ≤ i ∧ i < offset + copied + chunk
  · rw [if_pos new, if_pos (by omega)]
    congr 1
    omega
  · rw [if_neg new, h.bytes i (by omega)]
    by_cases done : offset ≤ i ∧ i < offset + copied
    · rw [if_pos done, if_pos (by omega)]
    · rw [if_neg done, if_neg (by omega)]

include per fats in
theorem Filling.lengthened (h : Filling g disk l old src size offset d first xs copied) (here : xs[k]? = some c)
    (last : k + 1 = xs.length) (room : size ≤ xs.length * g.clusterSize) (most : offset + copied ≤ xs.length * g.clusterSize)
    {new : Nat} (free : freeCluster g d = some new) :
    Filling g disk l old src size offset (linked g d c new) first (xs ++ [new]) copied ∧ new < fat16EocMin := by
  obtain ⟨low, bound, zero⟩ := freeCluster_some free
  have below : new < fat16Bad := by
    by_contra high
    exact h.spare new (Nat.le_of_not_lt high) bound zero
  have mid : new < fat16EocMin := below.trans (by decide)
  have short : new < 2 ^ 16 := below.trans (by decide)
  have mem := List.mem_of_getElem? here
  have cell := h.chain.cells c mem
  have ends : fat16EocMin ≤ fatEntry g d c := by
    rcases h.chain.step here with ⟨x, next, -⟩ | ⟨-, ends⟩
    · have := (List.getElem?_eq_some_iff.mp next).1
      omega
    · exact ends
  obtain ⟨xs', writing, -, is⟩ := h.extended (h.cursor here) ends fats free short
  rw [is mid mem] at writing
  have longer : Lengthened g d (linked g d c new) c new := linked_lengthened fats bound short cell.bound
  refine ⟨⟨writing, fun x high boundX => ?_, fun i wanted => ?_⟩, mid⟩
  · rw [longer.table x boundX]
    split
    · omega
    · split
      · decide
      · exact h.spare x high boundX
  · rw [chainByte_congr per (by omega) fun x inChain lba inside => ?_]
    · exact h.bytes i wanted
    · have cellX := h.chain.cells x inChain
      exact longer.regions x cellX.isRegion (Lengthened.cell_ne zero cellX) lba (clusterLbas_region cellX.low ▸ inside)

theorem nextOrExtend_inside (calm : s.Calm) (low : 2 ≤ fatEntry g s.disk c) (mid : fatEntry g s.disk c < fat16EocMin) :
    nextOrExtend g s c = (s, some (fatEntry g s.disk c)) := by
  rw [nextOrExtend_calm calm, if_neg (by omega)]

theorem nextOrExtend_stuck (calm : s.Calm) (ends : fat16EocMin ≤ fatEntry g s.disk c) (full : freeCluster g s.disk = none) :
    nextOrExtend g s c = (s, none) := by
  rw [nextOrExtend_calm calm, if_pos (.inr ends), full]

theorem nextOrExtend_fresh (calm : s.Calm) (ends : fat16EocMin ≤ fatEntry g s.disk c) {new : Nat}
    (free : freeCluster g s.disk = some new) : nextOrExtend g s c = (s.withDisk (linked g s.disk c new), some new) := by
  rw [nextOrExtend_calm calm, if_pos (.inr ends), free]

include per in
theorem Filling.ends {n count : Nat} (h : Filling g disk l old src size offset d first xs n)
    (place : k * g.clusterSize + pos = offset + n) (some : 0 < pos) (most : pos ≤ g.clusterSize)
    (length : xs.length = max (clustersFor g size) (k + 1)) (any : 0 < n) (upTo : n ≤ count)
    (short : n < count → freeCluster g d = none) : Landed g disk l old src size offset d first xs n count := by
  refine ⟨h, any, upTo, ?_, short⟩
  rw [clustersFor_max, ← place, clustersFor_place per some most, length]

include per fats in
/-- The copying loop. The cursor is at place `k` of a chain that goes no further than it has to. -/
theorem Filling.landed {count : Nat} (any : 0 < count) (fuel : Nat) :
    ∀ {s : Fat} {xs : List Nat} {k c pos left copied : Nat}, s.Calm →
      Filling g disk l old src size offset s.disk first xs copied → xs[k]? = some c →
      k * g.clusterSize + pos = offset + copied → pos ≤ g.clusterSize → (left ≠ 0 → pos < g.clusterSize) → (left = 0 → 0 < pos) →
      xs.length = max (clustersFor g size) (k + 1) → left ≤ fuel → copied + left = count →
      ∃ d xs n, writeLoop g fuel s c pos src left copied = (s.withDisk d, n) ∧
        Landed g disk l old src size offset d first xs n count := by
  have unit : g.clusterSize = g.sectorsPerCluster * 512 := rfl
  induction fuel with
  | zero =>
    intro s xs k c pos left copied _ h _ place most _ started length enough total
    obtain rfl : left = 0 := by omega
    exact ⟨s.disk, xs, copied, rfl, h.ends per place (started rfl) most length (by omega) (by omega) fun less => by omega⟩
  | succ fuel ih =>
    intro s xs k c pos left copied calm h here place most inside started length enough total
    by_cases done : left = 0
    · subst done
      exact ⟨s.disk, xs, copied, rfl, h.ends per place (started rfl) most length (by omega) (by omega) fun less => by omega⟩
    have within := inside done
    obtain ⟨chunk, isChunk⟩ : ∃ chunk, chunk = min left (512 - pos % 512) := ⟨_, rfl⟩
    have room : size ≤ xs.length * g.clusterSize :=
      (size_le_clusters per size).trans (Nat.mul_le_mul_right _ (by omega))
    obtain ⟨before, read, same⟩ : ∃ before, (if chunk < 512 then (s, some (s.disk (sectorOf g c (pos / 512))))
        else (s, some fun _ => 0#8)) = (s, some before) ∧
          (chunk < 512 → before = s.disk (sectorOf g c (pos / 512))) := by
      by_cases part : chunk < 512
      · exact ⟨_, if_pos part, fun _ => rfl⟩
      · exact ⟨_, if_neg part, fun less => absurd less part⟩
    have fits : pos % 512 + chunk ≤ 512 := by omega
    have stored := h.stored per fats here within fits place room same
    unfold writeLoop
    rw [if_neg done]
    simp only [ataReadSector_calm calm, ← isChunk, read, ataWriteSector_calm calm]
    generalize Function.update s.disk (sectorOf g c (pos / 512)) _ = d at stored
    by_cases crosses : pos + chunk ≥ g.clusterSize ∧ 0 < left - chunk
    · rw [if_pos crosses]
      have calm' : (s.withDisk d).Calm := calm
      have whole : pos + chunk = g.clusterSize := by omega
      have next : (k + 1) * g.clusterSize + 0 = offset + (copied + chunk) := by
        rw [Nat.add_mul, Nat.one_mul]
        omega
      rcases stored.chain.step here with ⟨x, there, entry, low, mid⟩ | ⟨last, ends⟩
      · have inChain := (List.getElem?_eq_some_iff.mp there).1
        have step : nextOrExtend g (s.withDisk d) c = (s.withDisk d, some x) :=
          entry ▸ nextOrExtend_inside calm' (by rw [withDisk_disk, entry]; exact low) (by rw [withDisk_disk, entry]; exact mid)
        rw [step]
        exact ih calm' stored there next (by omega) (fun _ => by omega) (fun none => by omega) (by omega) (by omega) (by omega)
      · have most' : offset + (copied + chunk) ≤ xs.length * g.clusterSize := by
          rw [← last, ← next]
          omega
        cases free : freeCluster g d with
        | none =>
          rw [nextOrExtend_stuck calm' ends free]
          have ended : k * g.clusterSize + (pos + chunk) = offset + (copied + chunk) := by omega
          exact ⟨d, xs, copied + chunk, rfl, stored.ends per ended (by omega) (by omega) length (by omega) (by omega) fun _ => free⟩
        | some new =>
          rw [nextOrExtend_fresh calm' ends free]
          obtain ⟨longer, mid⟩ := stored.lengthened per fats here last room most' free
          have there : (xs ++ [new])[k + 1]? = some new := by
            rw [last, List.getElem?_append_right le_rfl, Nat.sub_self]
            rfl
          refine ih (s := s.withDisk (linked g d c new)) calm longer there next (by omega) (fun _ => by omega) (fun none => by omega)
            ?_ (by omega) (by omega)
          rw [List.length_append, List.length_singleton]
          omega
    · rw [if_neg crosses]
      exact ih (s := s.withDisk d) calm stored here (by omega) (by omega) (by omega) (by omega) length (by omega) (by omega)

end Steps

section Walks

variable {g : Geometry} {disk d : Nat → Sector} {l : Loc} {old src : Nat → BitVec 8} {size offset first c k : Nat}
  {xs : List Nat} {s : Fat}

theorem walkTo_chain (calm : s.Calm) (chain : ChainOf g s.disk first xs) (n : Nat) :
    ∀ {k c : Nat}, xs[k]? = some c → k + n < xs.length → walkTo g n s c = (s, xs[k + n]?) := by
  induction n with
  | zero =>
    intro k c here _
    rw [Nat.add_zero, here]
    rfl
  | succ n ih =>
    intro k c here inside
    rcases chain.step here with ⟨x, next, entry, low, mid⟩ | ⟨last, -⟩
    · unfold walkTo
      rw [nextOrExtend_inside calm (entry ▸ low) (entry ▸ mid), entry]
      dsimp only
      rw [ih next (by omega), show k + 1 + n = k + (n + 1) by omega]
    · omega

theorem walkTo_succ (n : Nat) : ∀ (s : Fat) (c : Nat), walkTo g (n + 1) s c =
    match walkTo g n s c with
    | (s, none) => (s, none)
    | (s, some x) => nextOrExtend g s x := by
  induction n with
  | zero =>
    intro s c
    change walkTo g 1 s c = nextOrExtend g s c
    rw [walkTo]
    cases nextOrExtend g s c with
    | mk t r =>
      cases r with
      | none => rfl
      | some x => rfl
  | succ n ih =>
    intro s c
    rw [walkTo, walkTo]
    cases is : nextOrExtend g s c with
    | mk t r =>
      cases r with
      | none => rfl
      | some x => exact ih t x

theorem Filling.walked (per : 0 < g.sectorsPerCluster) (fats : 0 < g.numFats) (calm : s.Calm)
    (h : Filling g disk l old src size offset s.disk first xs 0) (inFile : offset ≤ size)
    (length : xs.length = max (clustersFor g size) (offset / g.clusterSize + 1) ∨
      xs.length = clustersFor g size ∧ offset / g.clusterSize = xs.length) :
    walkTo g (offset / g.clusterSize) s first = (s, none) ∧ freeCluster g s.disk = none ∧ offset / g.clusterSize = xs.length ∨
      ∃ d xs' c, walkTo g (offset / g.clusterSize) s first = (s.withDisk d, some c) ∧
        Filling g disk l old src size offset d first xs' 0 ∧ xs'[offset / g.clusterSize]? = some c ∧
          xs'.length = max (clustersFor g size) (offset / g.clusterSize + 1) := by
  rcases length with enough | ⟨exact', atEnd⟩
  · have inside : offset / g.clusterSize < xs.length := by omega
    have there := List.getElem?_eq_getElem inside
    refine .inr ⟨s.disk, xs, xs[offset / g.clusterSize], ?_, h, there, enough⟩
    rw [walkTo_chain calm h.chain _ h.chain.first_at (by omega), Nat.zero_add, there]
    rfl
  · obtain ⟨rest, head⟩ := h.chain.head
    obtain ⟨n, isN⟩ : ∃ n, offset / g.clusterSize = n + 1 := ⟨rest.length, by rw [atEnd, head]; rfl⟩
    have inside : n < xs.length := by omega
    have there := List.getElem?_eq_getElem inside
    have last : n + 1 = xs.length := by omega
    have ends : fat16EocMin ≤ fatEntry g s.disk xs[n] := by
      rcases h.chain.step there with ⟨x, next, -⟩ | ⟨-, ends⟩
      · have := (List.getElem?_eq_some_iff.mp next).1
        omega
      · exact ends
    have before : walkTo g n s first = (s, some xs[n]) := by
      rw [walkTo_chain calm h.chain _ h.chain.first_at (by omega), Nat.zero_add, there]
    have room : size ≤ xs.length * g.clusterSize := exact' ▸ size_le_clusters per size
    rw [isN, walkTo_succ, before]
    dsimp only
    cases free : freeCluster g s.disk with
    | none => exact .inl ⟨nextOrExtend_stuck calm ends free, rfl, isN ▸ atEnd⟩
    | some new =>
      obtain ⟨longer, -⟩ := h.lengthened per fats there last room (by omega) free
      refine .inr ⟨_, _, new, nextOrExtend_fresh calm ends free, longer, ?_, ?_⟩
      · rw [last, List.getElem?_append_right le_rfl, Nat.sub_self]
        rfl
      · rw [List.length_append, List.length_singleton]
        omega

end Walks

/-- The driver after a file got new contents and its entry was written again. -/
def Fat.rewrite (s : Fat) (node : Nat) (d : Nat → Sector) (m : FatMeta) : Fat :=
  (s.setMeta node m).withDisk (putAt d (m.direntLba, m.direntOffset) 26 (metaBytes m.firstCluster m.fileSize))

section Writes

variable {g : Geometry} {s : Fat} {disk d : Nat → Sector} {l : Loc} {old src : Nat → BitVec 8} {size offset first node : Nat}
  {xs : List Nat}

theorem rewrite_setMeta (m m' : FatMeta) : ((s.withDisk disk).setMeta node m').rewrite node d m = s.rewrite node d m := by
  unfold Fat.rewrite Fat.setMeta Fat.withDisk
  simp

/-- A write to a file that has a cluster: it stops where it begins, or its bytes land. -/
theorem writeFrom_lands {count : Nat} (per : 0 < g.sectorsPerCluster) (fats : 0 < g.numFats) (calm : s.Calm)
    (h : Filling g disk l old src size offset s.disk first xs 0) (any : 0 < count) (inFile : offset ≤ size)
    (fits : offset + count < 2 ^ 32)
    (length : xs.length = max (clustersFor g size) (offset / g.clusterSize + 1) ∨
      xs.length = clustersFor g size ∧ offset / g.clusterSize = xs.length)
    (is : (s.nodes node).priv = ⟨first, size, l.1, l.2⟩) :
    writeFrom g s node src count offset = (s, 0) ∧ freeCluster g s.disk = none ∧ offset / g.clusterSize = xs.length ∨
      ∃ d xs n, Landed g disk l old src size offset d first xs n count ∧
        writeFrom g s node src count offset = (s.rewrite node d ⟨first, max size (offset + n), l.1, l.2⟩, (n : Int)) := by
  have positive := clusterSize_pos per
  unfold writeFrom
  rw [is]
  dsimp only
  rcases h.walked per fats calm inFile length with ⟨stuck, full⟩ | ⟨d, xs', c, walk, filling, here, longer⟩
  · rw [stuck]
    exact .inl ⟨rfl, full⟩
  · right
    have calm' : (s.withDisk d).Calm := calm
    have split : offset / g.clusterSize * g.clusterSize + offset % g.clusterSize = offset + 0 := Nat.div_add_mod' _ _
    have inside := Nat.mod_lt offset positive
    obtain ⟨d', xs'', n, loop, landed⟩ := Filling.landed per fats any count calm' filling here split inside.le (fun _ => inside)
      (fun none => by omega) longer le_rfl (by omega)
    refine ⟨d', xs'', n, landed, ?_⟩
    rw [walk]
    dsimp only
    rw [loop]
    dsimp only
    have calm'' : ((s.withDisk d).withDisk d').Calm := calm
    rw [writeback_setMeta calm'']
    have priv : (((s.withDisk d).withDisk d').nodes node).priv = ⟨first, size, l.1, l.2⟩ := is
    have sized : (if offset + n > size then (offset + n) % 2 ^ 32 else size) = max size (offset + n) := by
      have := landed.upTo
      split
      · rw [Nat.mod_eq_of_lt (by omega), max_eq_right (by omega)]
      · rw [max_eq_left (by omega)]
    rw [priv]
    dsimp only
    rw [sized]
    rfl

end Writes

end Isunux
