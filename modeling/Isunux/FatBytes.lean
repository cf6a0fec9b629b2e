import Isunux.FatWrites

/-! The bytes of a file, by their places along its chain. -/
namespace Isunux

section Places

variable (g : Geometry) (disk : Nat → Sector)

/-- Byte `i` of what the clusters hold. -/
def chainByte (xs : List Nat) (i : Nat) : BitVec 8 :=
  disk (sectorOf g (xs.getD (i / g.clusterSize) 0) (i % g.clusterSize / 512)) (i % 512)

def fileBytes (first size : Nat) : List (BitVec 8) := (List.range size).map (chainByte g disk (fileClusters g disk first))

/-- The number of clusters that so many bytes fill. -/
def clustersFor (size : Nat) : Nat := (size + (g.clusterSize - 1)) / g.clusterSize

end Places

section Chains

variable {g : Geometry} {d : Nat → Sector} {first c k pos : Nat} {xs : List Nat}

theorem clusterSize_pos (per : 0 < g.sectorsPerCluster) : 0 < g.clusterSize := Nat.mul_pos per (by decide)

theorem chainByte_place (per : 0 < g.sectorsPerCluster) (here : xs[k]? = some c) (inside : pos < g.clusterSize) :
    chainByte g d xs (k * g.clusterSize + pos) = d (sectorOf g c (pos / 512)) (pos % 512) := by
  have size := clusterSize_pos per
  have index : (k * g.clusterSize + pos) / g.clusterSize = k := by
    rw [Nat.mul_comm, Nat.mul_add_div size, Nat.div_eq_of_lt inside, Nat.add_zero]
  have rest : (k * g.clusterSize + pos) % g.clusterSize = pos := by
    rw [Nat.mul_comm, Nat.mul_add_mod, Nat.mod_eq_of_lt inside]
  have low : (k * g.clusterSize + pos) % 512 = pos % 512 := by
    have whole : k * g.clusterSize = 512 * (k * g.sectorsPerCluster) := by
      unfold Geometry.clusterSize
      ring
    rw [whole, Nat.mul_add_mod]
  unfold chainByte
  rw [index, rest, low, List.getD_eq_getElem?_getD, here]
  rfl

theorem ChainOf.step (h : ChainOf g d first xs) (here : xs[k]? = some c) :
    (∃ x, xs[k + 1]? = some x ∧ fatEntry g d c = x ∧ 2 ≤ x ∧ x < fat16EocMin) ∨
      k + 1 = xs.length ∧ fat16EocMin ≤ fatEntry g d c := by
  obtain ⟨inside, is⟩ := List.getElem?_eq_some_iff.mp here
  have split : xs = xs.take k ++ c :: xs.drop (k + 1) := by
    rw [← is, ← List.drop_eq_getElem_cons inside, List.take_append_drop]
  cases rest : xs.drop (k + 1) with
  | nil =>
    rw [rest] at split
    rw [split] at h
    have ended : xs.length ≤ k + 1 := List.drop_eq_nil_iff.mp rest
    exact .inr ⟨by omega, h.next_last⟩
  | cons x zs =>
    rw [rest] at split
    rw [split] at h
    refine .inl ⟨x, ?_, h.next_mid⟩
    rw [← List.head?_drop, rest]
    rfl

theorem ChainOf.first_at (h : ChainOf g d first xs) : xs[0]? = some first := by
  obtain ⟨rest, rfl⟩ := h.head
  rfl

end Chains

section Reading

variable {g : Geometry} {s : Fat} {first c k pos left : Nat} {xs : List Nat}

theorem chunk_bytes {d : Nat → Sector} {chunk : Nat} (per : 0 < g.sectorsPerCluster) (here : xs[k]? = some c)
    (inside : pos < g.clusterSize) (fits : pos % 512 + chunk ≤ 512) :
    ((List.range chunk).map fun i => d (sectorOf g c (pos / 512)) (pos % 512 + i)) =
      (List.range chunk).map fun j => chainByte g d xs (k * g.clusterSize + pos + j) := by
  refine List.map_congr_left fun j mem => ?_
  have low := List.mem_range.mp mem
  have size : g.clusterSize = g.sectorsPerCluster * 512 := rfl
  have place : chainByte g d xs (k * g.clusterSize + (pos + j)) = _ := chainByte_place per here (by omega)
  rw [Nat.add_assoc, place, show (pos + j) / 512 = pos / 512 by omega, show (pos + j) % 512 = pos % 512 + j by omega]

theorem readLoop_chain (per : 0 < g.sectorsPerCluster) (calm : s.Calm) (chain : ChainOf g s.disk first xs) (fuel : Nat) :
    ∀ {k c pos left : Nat}, xs[k]? = some c → pos < g.clusterSize → left ≤ fuel →
      k * g.clusterSize + pos + left ≤ xs.length * g.clusterSize →
        readLoop g fuel s c pos left = (s, (List.range left).map fun j => chainByte g s.disk xs (k * g.clusterSize + pos + j)) := by
  induction fuel with
  | zero =>
    intro k c pos left _ _ enough _
    obtain rfl : left = 0 := by omega
    rfl
  | succ fuel ih =>
    intro k c pos left here inside enough room
    by_cases done : left = 0
    · subst done
      rfl
    have size : g.clusterSize = g.sectorsPerCluster * 512 := rfl
    obtain ⟨chunk, isChunk⟩ : ∃ chunk, chunk = min left (512 - pos % 512) := ⟨_, rfl⟩
    obtain ⟨rest, isRest⟩ : ∃ rest, left = chunk + rest := ⟨left - chunk, by omega⟩
    have fits : pos % 512 + chunk ≤ 512 := by omega
    have bytes := @chunk_bytes g _ _ _ xs s.disk chunk per here inside fits
    have halves : ((List.range left).map fun j => chainByte g s.disk xs (k * g.clusterSize + pos + j)) =
        ((List.range chunk).map fun j => chainByte g s.disk xs (k * g.clusterSize + pos + j)) ++
          (List.range rest).map fun j => chainByte g s.disk xs (k * g.clusterSize + pos + chunk + j) := by
      rw [isRest, List.range_add, List.map_append, List.map_map]
      refine congrArg _ (List.map_congr_left fun j _ => ?_)
      rw [Function.comp_apply, Nat.add_assoc _ chunk]
    unfold readLoop
    rw [if_neg done]
    simp only [ataReadSector_calm calm, ← isChunk, bytes, fatNextCluster_calm calm]
    rw [halves, show left - chunk = rest by omega]
    by_cases crosses : pos + chunk ≥ g.clusterSize
    · have whole : k * g.clusterSize + pos + chunk = (k + 1) * g.clusterSize + 0 := by
        rw [Nat.add_mul, Nat.one_mul]
        omega
      rw [if_pos crosses]
      rcases chain.step here with ⟨x, next, entry, low, mid⟩ | ⟨last, ends⟩
      · rw [entry, if_neg (by omega), ih next (by omega) (by omega) (by omega), whole]
      · rw [if_pos (.inr ends)]
        have none : rest = 0 := by
          rw [← last] at room
          omega
        subst none
        simp
    · rw [if_neg crosses, ih here (by omega) (by omega) (by omega), ← Nat.add_assoc]

theorem skipClusters_chain (calm : s.Calm) (chain : ChainOf g s.disk first xs) (n : Nat) :
    ∀ {k c : Nat}, xs[k]? = some c → k + n < xs.length → skipClusters g n s c = (s, xs[k + n]?) := by
  induction n with
  | zero =>
    intro k c here _
    rw [Nat.add_zero, here]
    rfl
  | succ n ih =>
    intro k c here inside
    unfold skipClusters
    simp only [fatNextCluster_calm calm]
    rcases chain.step here with ⟨x, next, entry, low, mid⟩ | ⟨last, -⟩
    · rw [entry, if_neg (by omega), ih next (by omega), show k + 1 + n = k + (n + 1) by omega]
    · omega

theorem fatFileRead_file {node size : Nat} (per : 0 < g.sectorsPerCluster) (calm : s.Calm) (intact : Intact g s.disk first)
    (cluster : (s.nodes node).priv.firstCluster = first) (isSize : (s.nodes node).priv.fileSize = size)
    (room : size ≤ (fileClusters g s.disk first).length * g.clusterSize) (count offset : Nat) :
    fatFileRead g s node count offset = (s, ((fileBytes g s.disk first size).drop offset).take count) := by
  have length : (fileBytes g s.disk first size).length = size := by simp [fileBytes]
  unfold fatFileRead
  simp only [cluster, isSize]
  by_cases past : offset ≥ size
  · rw [if_pos past, List.drop_eq_nil_of_le (by omega), List.take_nil]
  rw [if_neg past]
  have sub : first ≠ 0 := by
    rintro rfl
    have none : fileClusters g s.disk 0 = [] := rfl
    rw [none] at room
    simp at room
    omega
  have chain : ChainOf g s.disk first (fileClusters g s.disk first) := by
    unfold fileClusters
    rw [if_neg sub]
    exact intact.resolve_left sub
  have positive := clusterSize_pos per
  have split : offset / g.clusterSize * g.clusterSize + offset % g.clusterSize = offset := Nat.div_add_mod' _ _
  have inside : offset / g.clusterSize < (fileClusters g s.disk first).length :=
    (Nat.div_lt_iff_lt_mul positive).mpr (by omega)
  have there : (fileClusters g s.disk first)[offset / g.clusterSize]? = some (fileClusters g s.disk first)[offset / g.clusterSize] :=
    List.getElem?_eq_getElem inside
  rw [skipClusters_chain calm chain _ chain.first_at (by omega), Nat.zero_add, there]
  dsimp only
  rw [readLoop_chain per calm chain _ there (Nat.mod_lt _ positive) le_rfl (by omega), split]
  refine congrArg (Prod.mk s) (List.ext_getElem ?_ fun i low _ => ?_)
  · simp [length]
  · simp [fileBytes]

end Reading

end Isunux
