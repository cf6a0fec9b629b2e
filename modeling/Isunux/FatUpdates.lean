import Isunux.FatEdits
import Mathlib.Data.List.GetD

/-! The updates of the volume that `fat_dir_create`, `fat_dir_mkdir` and `fat_dir_unlink`
are made of: an entry added, a directory lengthened, a chain given back. -/
namespace Isunux

/-! New entries -/

section NewEntry

variable {name : List (BitVec 8)} {attr : BitVec 8} {cluster : Nat}

theorem padField_length (bytes : List (BitVec 8)) (len : Nat) : (padField bytes len).length = len := by
  unfold padField
  simp only [List.length_append, List.length_map, List.length_take, List.length_replicate]
  omega

theorem fatEncode83Name_length (name : List (BitVec 8)) : (fatEncode83Name name).length = 11 := by
  unfold fatEncode83Name
  rw [List.length_append, padField_length, padField_length]

theorem newEntry_length : (newEntry name attr cluster).length = 32 := by
  unfold newEntry
  simp [fatEncode83Name_length]

/-- An entry as the bytes of a buffer. -/
def ofBytes (bytes : List (BitVec 8)) : Nat → BitVec 8 := fun i => bytes.getD i 0#8

theorem patch_whole {disk : Nat → Sector} {l : Loc} {bytes : List (BitVec 8)} (length : bytes.length = 32) :
    patch (rawAt disk l) 0 bytes = ofBytes bytes := by
  funext i
  unfold patch ofBytes rawAt entryAt
  by_cases low : i < 32
  · rw [if_pos (by omega), Nat.sub_zero]
  · rw [if_neg (by omega), if_neg low, List.getD_eq_default _ _ (by omega)]

theorem newEntry_name {i : Nat} (low : i < 11) :
    ofBytes (newEntry name attr cluster) i = ofBytes (fatEncode83Name name) i := by
  unfold ofBytes newEntry
  simp only [List.append_assoc]
  rw [List.getD_append _ _ _ _ (by rw [fatEncode83Name_length]; exact low)]

theorem newEntry_rest (i : Nat) : ofBytes (newEntry name attr cluster) (11 + i) =
    ofBytes ([attr] ++ List.replicate 14 0#8 ++ [byteOf cluster 0, byteOf cluster 1] ++ List.replicate 4 0#8) i := by
  unfold ofBytes newEntry
  simp only [List.append_assoc]
  rw [List.getD_append_right _ _ _ _ (by rw [fatEncode83Name_length]; omega), fatEncode83Name_length,
    Nat.add_sub_cancel_left]

theorem newEntry_attr : ofBytes (newEntry name attr cluster) 11 = attr := newEntry_rest 0

theorem newEntry_cluster : read16 (ofBytes (newEntry name attr cluster)) 26 = cluster % 2 ^ 16 := by
  unfold read16
  rw [show 26 = 11 + 15 from rfl, newEntry_rest 15, show 11 + 15 + 1 = 11 + 16 from rfl, newEntry_rest 16]
  simp [ofBytes, byteOf]
  omega

theorem newEntry_size : read32 (ofBytes (newEntry name attr cluster)) 28 = 0 := by
  unfold read32
  rw [show 28 = 11 + 17 from rfl, newEntry_rest 17, show 11 + 17 + 1 = 11 + 18 from rfl, newEntry_rest 18,
    show 11 + 17 + 2 = 11 + 19 from rfl, newEntry_rest 19, show 11 + 17 + 3 = 11 + 20 from rfl, newEntry_rest 20]
  simp [ofBytes]

def displayAs (name : List (BitVec 8)) : List (BitVec 8) := fatDecode83Name (ofBytes (fatEncode83Name name))

theorem fatDecode83Name_congr {raw raw' : Nat → BitVec 8} (same : ∀ i, i < 11 → raw' i = raw i) :
    fatDecode83Name raw' = fatDecode83Name raw := by
  have field : ∀ start len, start + len ≤ 11 → trimField raw' start len = trimField raw start len := by
    intro start len inside
    unfold trimField
    rw [List.map_congr_left fun i mem => same (start + i) (by have := List.mem_range.mp mem; omega)]
  unfold fatDecode83Name
  rw [field 0 8 (by omega), field 8 3 (by omega), same 8 (by omega)]

theorem newEntry_display : fatDecode83Name (ofBytes (newEntry name attr cluster)) = displayAs name :=
  fatDecode83Name_congr fun _ low => newEntry_name low

def firstByte (name : List (BitVec 8)) : BitVec 8 := ofBytes (fatEncode83Name name) 0

theorem newEntry_first : ofBytes (newEntry name attr cluster) 0 = firstByte name := newEntry_name (by omega)

theorem firstByte_ne_zero (plain : 0#8 ∉ name) : firstByte name ≠ 0#8 := by
  unfold firstByte ofBytes fatEncode83Name
  rw [List.getD_append _ _ _ _ (by rw [padField_length]; omega)]
  unfold padField
  cases base : name.takeWhile (· ≠ dotByte) with
  | nil => decide
  | cons c rest =>
    have mem : c ∈ name := (List.takeWhile_prefix _).subset (base ▸ List.mem_cons_self)
    have nonzero : c ≠ 0#8 := fun zero => plain (zero ▸ mem)
    simp only [List.take_succ_cons, List.map_cons, List.cons_append, List.getD_cons_zero]
    unfold upperByte
    split
    · rename_i lower
      intro zero
      have := congrArg BitVec.toNat zero
      obtain ⟨lo, hi⟩ := lower
      rw [BitVec.le_def] at lo hi
      simp only [BitVec.toNat_ofNat] at lo hi
      rw [BitVec.toNat_sub] at this
      simp only [BitVec.toNat_ofNat] at this
      omega
    · exact nonzero

/-- Whether scans show a new entry. -/
def shown (name : List (BitVec 8)) : Bool := firstByte name != deletedMark

theorem newEntry_real (ordinary : attr = attrArchive ∨ attr = attrDirectory) :
    realEntry (ofBytes (newEntry name attr cluster)) = shown name := by
  unfold realEntry shown
  rw [newEntry_first, newEntry_attr]
  rcases ordinary with rfl | rfl <;> simp [attrArchive, attrDirectory, attrLfn, attrVolumeId]

end NewEntry

/-! Chains given back -/

section Free

variable {g : Geometry} {s : Fat} {disk : Nat → Sector} {fuel first c : Nat} {xs : List Nat}

def freed (g : Geometry) (disk : Nat → Sector) (xs : List Nat) : Nat → Sector :=
  xs.foldl (fun disk c => setEntry g disk c 0) disk

theorem fatEntry_freed (fats : 0 < g.numFats) (inside : ∀ x ∈ xs, x < g.totalEntries) (bound : c < g.totalEntries) :
    fatEntry g (freed g disk xs) c = if c ∈ xs then 0 else fatEntry g disk c := by
  induction xs generalizing disk with
  | nil => simp [freed]
  | cons x rest ih =>
    rw [freed, List.foldl_cons, ← freed, ih fun y mem => inside y (List.mem_cons_of_mem x mem),
      fatEntry_setEntry fats (inside x List.mem_cons_self) bound]
    by_cases here : c = x
    · simp [here]
    · simp [here]

theorem freed_region {lba r : Nat} (inside : ∀ x ∈ xs, x < g.totalEntries) (region : IsRegion r)
    (mem : lba ∈ regionLbas g r) : freed g disk xs lba = disk lba :=
  Run.foldl_rule (fun d : Nat → Sector => d lba = disk lba) _ _ disk rfl fun _ memX _ same =>
    (setEntry_region (inside _ memX) region mem).trans same

theorem freeChain_calm (calm : s.Calm) (fats : 0 < g.numFats) (chain : ChainOf g s.disk first xs)
    (mid : first < fat16EocMin) (enough : xs.length < fuel) :
    freeChain g fuel s first = some (s.withDisk (freed g s.disk xs)) := by
  induction xs generalizing s first fuel with
  | nil => cases chain.spells
  | cons x rest ih =>
    obtain rfl : first = x := Option.some.inj chain.spells.1
    obtain ⟨fuel, rfl⟩ : ∃ k, fuel = k + 1 := ⟨fuel - 1, by simp at enough; omega⟩
    have cell := chain.cells first List.mem_cons_self
    rw [freeChain, if_pos ⟨cell.low, mid⟩, fatNextCluster_calm calm]
    dsimp only
    rw [fatWriteFatEntry_calm calm]
    cases rest with
    | nil =>
      have eoc := chain.only
      obtain ⟨fuel, rfl⟩ : ∃ k, fuel = k + 1 := ⟨fuel - 1, by simp at enough; omega⟩
      rw [freeChain, if_neg (by omega)]
      rfl
    | cons y ys =>
      obtain ⟨entry, mid', tail⟩ := chain.tail
      have apart : first ∉ y :: ys := (List.nodup_cons.mp chain.nodup).1
      have tail' : ChainOf g (setEntry g s.disk first 0) y (y :: ys) := by
        refine tail.congr fun d mem => ?_
        rw [fatEntry_setEntry fats cell.bound (tail.cells d mem).bound, if_neg]
        rintro rfl
        exact apart mem
      have calm' : (s.withDisk (setEntry g s.disk first 0)).Calm := calm
      rw [entry, ih calm' tail' mid' (by simp at enough ⊢; omega)]
      rfl

end Free

/-! Directories that get a further cluster -/

section Extend

variable {g : Geometry} {disk : Nat → Sector} {first last c x : Nat} {xs ys : List Nat}

/-- A fresh cluster linked behind another. -/
def linked (g : Geometry) (disk : Nat → Sector) (last c : Nat) : Nat → Sector :=
  setEntry g (setEntry g disk c fat16EocMin) last c

theorem fatEntry_linked (fats : 0 < g.numFats) (boundC : c < g.totalEntries) (boundL : last < g.totalEntries)
    (bound : x < g.totalEntries) :
    fatEntry g (linked g disk last c) x =
      if x = last then c % 2 ^ 16 else if x = c then fat16EocMin else fatEntry g disk x := by
  unfold linked
  rw [fatEntry_setEntry fats boundL bound, fatEntry_setEntry fats boundC bound]
  rfl

theorem linked_region {lba r : Nat} (boundC : c < g.totalEntries) (boundL : last < g.totalEntries)
    (region : IsRegion r) (mem : lba ∈ regionLbas g r) : linked g disk last c lba = disk lba :=
  (setEntry_region boundL region mem).trans (setEntry_region boundC region mem)

/-- A chain whose cluster has been linked to one that reads as an end mark stops there. -/
theorem ChainOf.cut {disk' : Nat → Sector} (h : ChainOf g disk first (xs ++ last :: ys))
    (stop : fat16EocMin ≤ fatEntry g disk' last) (same : ∀ x ∈ xs, fatEntry g disk' x = fatEntry g disk x) :
    ChainOf g disk' first (xs ++ [last]) := by
  refine ⟨h.spells.graft (fun x mem => ?_) (nextOf_end stop), fun x mem => ?_⟩
  · unfold nextOf
    rw [same x mem]
  · simp only [List.mem_append, List.mem_cons, List.not_mem_nil, or_false] at mem
    rcases mem with inXs | rfl
    · obtain ⟨low, bound, short, taken⟩ := h.cells x (by simp [inXs])
      exact ⟨low, bound, short, same x inXs ▸ taken⟩
    · obtain ⟨lowL, boundL, shortL, -⟩ := h.cells x (by simp)
      refine ⟨lowL, boundL, shortL, ?_⟩
      unfold fat16EocMin at stop
      omega

end Extend

end Isunux
