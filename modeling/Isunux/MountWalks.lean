import Isunux.Lib.Trek
import Isunux.Attributes

/-! Resolving a path on the mounted tree is a trek: a lookup in the FAT volume takes a vnode
from the pool. What such a lookup finds may differ from one time to the next, its depth in
the volume does not. -/
namespace Isunux.Mounts

open Route (Move trek walk)

section Treks

variable {g : Geometry} {fuel : Nat} {s t : Files Drivers} {v : Vnode}

theorem resolveLoop_trek (n : Nat) (s : Files Drivers) (current : Vnode) (p : List Char) :
    resolveLoop g fuel n s current p = trek parentOf (lookup g fuel) s current (moves (pieces n p)) := by
  induction n generalizing s current p with
  | zero => rfl
  | succ n ih =>
    cases p with
    | nil => rfl
    | cons c p =>
      simp only [resolveLoop, pieces, moves_cons]
      generalize takeComponent (vfsMaxName - 1) (c :: p) = r
      unfold moveOf
      by_cases stay : r.1 = [] ∨ r.1 = ['.']
      · simp only [if_pos stay]
        exact ih _ _ _
      by_cases up : r.1 = ['.', '.']
      · simp only [if_neg stay, if_pos up]
        exact ih _ _ _
      simp only [if_neg stay, if_neg up, Option.toList_some, List.singleton_append, trek]
      rcases lookup g fuel s current r.1 with _ | ⟨t, _ | next⟩
      · rfl
      · rfl
      · exact ih _ _ _

theorem vfsResolvePath_trek (s : Files Drivers) (p : List Char) :
    vfsResolvePath g fuel s ('/' :: p) = trek parentOf (lookup g fuel) s (.tmp 0) (route p) :=
  resolveLoop_trek p.length s (.tmp 0) p

theorem resolve_way (s : Files Drivers) {q : List Char} (absolute : q.head? = some '/') :
    vfsResolvePath g fuel s q = trek parentOf (lookup g fuel) s (.tmp 0) (wayTo q ++ route (lastName q)) := by
  obtain ⟨a, c, rfl, noSlash, start⟩ := absolute_append absolute
  rw [lastName_append a noSlash, wayTo_append a noSlash]
  rcases start with rfl | slash
  · exact vfsResolvePath_trek s c
  · obtain ⟨b, rfl⟩ := List.head?_eq_some_iff.mp slash
    rw [List.tail_cons, ← route_slash]
    exact vfsResolvePath_trek s (b ++ '/' :: c)

theorem resolve_splitDir (s : Files Drivers) {q : List Char} (absolute : q.head? = some '/') (short : q.length < vfsMaxPath) :
    vfsResolvePath g fuel s (vfsSplitPath q).1 = trek parentOf (lookup g fuel) s (.tmp 0) (wayTo q) := by
  obtain ⟨a, c, rfl, noSlash, start⟩ := absolute_append absolute
  rw [List.length_append, List.length_cons] at short
  rw [wayTo_append a noSlash, vfsSplitPath_append noSlash (by omega)]
  rcases start with rfl | slash
  · rfl
  · obtain ⟨b, rfl⟩ := List.head?_eq_some_iff.mp slash
    rw [if_neg (List.cons_ne_nil _ _), List.tail_cons]
    exact vfsResolvePath_trek s b

/-- What `resolve_parent_dir` has found. -/
structure Parted (g : Geometry) (fuel : Nat) (s t : Files Drivers) (q : List Char) (dir : Vnode) (name : List Char) :
    Prop where
  absolute : q.head? = some '/'
  short : q.length < vfsMaxPath
  cut : name = (lastName q).take (vfsMaxName - 1)
  named : lastName q ≠ []
  arrived : trek parentOf (lookup g fuel) s (.tmp 0) (wayTo q) = some (t, some dir)
  isDir : typeOf t dir = .dir

theorem parted {who : Process} {path name : List Char} {dir : Vnode}
    (found : resolveParentDir g fuel s who path = some (t, .ok (dir, name))) :
    Parted g fuel s t (vfsCombinePath who.cwd path) dir name := by
  have short := combined_length who.cwd path
  unfold resolveParentDir at found
  dsimp only at found
  generalize vfsCombinePath who.cwd path = q at found short ⊢
  split at found
  · cases found
  rename_i named
  split at found
  · cases found
  · cases found
  rename_i hit
  split at found
  swap
  · cases found
  rename_i isDir
  cases found
  have absolute : q.head? = some '/' := by
    refine absolute_of_split short ?_
    unfold vfsResolvePath at hit
    split at hit
    · rename_i same
      rw [same]
      rfl
    · cases hit
  rw [resolve_splitDir s absolute short] at hit
  refine ⟨absolute, short, splitName absolute short, fun none => named ?_, hit, isDir⟩
  rw [splitName absolute short, none]
  rfl

/-- No lookup of the moves is one in the FAT volume. -/
def Dry (s : Files Drivers) : Vnode → List (Move (List Char)) → Prop
  | _, [] => True
  | v, .up :: ms => Dry s (parentOf s v) ms
  | v, .down a :: ms => (∀ x, dirOps s v ≠ .fat x) ∧ ∀ w, nearLookup s v a = some w → Dry s w ms

theorem lookup_dry {name : List Char} (dry : ∀ x, dirOps s v ≠ .fat x) :
    lookup g fuel s v name = some (s, nearLookup s v name) := by
  unfold lookup nearLookup
  cases ops : dirOps s v with
  | none => rfl
  | tmpfs d => rfl
  | devfs => rfl
  | fat x => exact absurd ops (dry x)

theorem Dry.still {ms : List (Move (List Char))} (dry : Dry s v ms) :
    Route.Still parentOf (lookup g fuel) (nearLookup s) s v ms := by
  induction ms generalizing v with
  | nil => exact trivial
  | cons m ms ih =>
    cases m with
    | up => exact ih dry
    | down a => exact ⟨lookup_dry dry.1, fun w step => ih (dry.2 w step)⟩

theorem Dry.trek {ms : List (Move (List Char))} (dry : Dry s v ms) :
    trek parentOf (lookup g fuel) s v ms = some (s, walk (parentOf s) (nearLookup s) v ms) :=
  dry.still.trek

end Treks

/-! The pool of the driver -/

section Pools

variable {σ : Type} {g : Geometry} {fuel : Nat} {visitor : Visitor σ} {P : Fat × σ → Prop}

/-- What the visitor keeps, a scan keeps, whichever sectors can be read. -/
structure ScanKeeps (visitor : Visitor σ) (P : Fat × σ → Prop) : Prop where
  reads : ∀ s st, P (s, st) → P (s.tick, st)
  visits : ∀ display raw index lba off c, P c → P (visitor display raw index lba off c).1

theorem ScanKeeps.sectorDirents (keeps : ScanKeeps visitor P) (sector : Sector) (lba : Nat) (offs : List Nat) {c : Fat × σ}
    (here : P c) (index : Nat) : P (fatScanSectorDirents visitor sector lba offs c index).1 := by
  induction offs generalizing c index with
  | nil => exact here
  | cons off rest ih =>
    have after := keeps.visits (fatDecode83Name (entryAt sector off)) (entryAt sector off) index lba off c here
    rw [fatScanSectorDirents]
    split
    · exact here
    split
    · split
      · rename_i visit
        rw [visit] at after
        exact after
      · rename_i visit
        rw [visit] at after
        exact ih after (index + 1)
    · exact ih here index

theorem ScanKeeps.sectors (keeps : ScanKeeps visitor P) (lbas : List Nat) {c : Fat × σ} (here : P c) (index : Nat) :
    P (scanSectors visitor lbas c index).1 := by
  induction lbas generalizing c index with
  | nil => exact here
  | cons lba rest ih =>
    have ticked := keeps.reads c.1 c.2 here
    rw [scanSectors]
    split
    · rename_i s read
      obtain rfl : c.1.tick = s := congrArg Prod.fst read
      exact ticked
    · rename_i s sector read
      obtain rfl : c.1.tick = s := congrArg Prod.fst read
      have after := keeps.sectorDirents sector lba direntOffsets ticked index
      split
      · rename_i scan
        rw [scan] at after
        exact after
      · rename_i scan
        rw [scan] at after
        exact ih after _

theorem fatNextCluster_tick (s : Fat) (cluster : Nat) : (fatNextCluster g s cluster).1 = s.tick := by
  unfold fatNextCluster
  split
  · rename_i read
    exact (congrArg Prod.fst read).symm
  · rename_i read
    exact (congrArg Prod.fst read).symm

theorem ScanKeeps.chain (keeps : ScanKeeps visitor P) (cluster : Nat) {c c' : Fat × σ} (here : P c) (index : Nat)
    (done : scanChain g visitor fuel cluster c index = some c') : P c' := by
  induction fuel generalizing cluster c index with
  | zero => cases done
  | succ fuel ih =>
    have after := keeps.sectors (clusterLbas g cluster) here index
    rw [scanChain] at done
    split at done
    · split at done
      · rename_i scan
        rw [scan] at after
        cases done
        exact after
      · rename_i scan
        rw [scan] at after
        refine ih _ ?_ _ done
        rw [fatNextCluster_tick]
        exact keeps.reads _ _ after
    · cases done
      exact here

theorem ScanKeeps.iterate (keeps : ScanKeeps visitor P) {dir : Option Nat} {c c' : Fat × σ} (here : P c)
    (done : fatIterateDir g visitor fuel dir c = some c') : P c' := by
  unfold fatIterateDir at done
  dsimp only at done
  split at done
  · cases done
    exact keeps.sectors _ here 0
  · exact keeps.chain _ here 0 done

/-- From `s` to `t` vnodes were taken from the pool, `found` for an entry of `dir`. -/
structure Handed (s t : Fat) (dir found : Option Nat) : Prop where
  count : s.count ≤ t.count
  nodes : ∀ j < s.count, t.nodes j = s.nodes j
  node : ∀ i, found = some i → i < t.count ∧ (t.nodes i).parent = dir

theorem fatDirLookup_handed {s t : Fat} {dir found : Option Nat} {name : List (BitVec 8)}
    (done : fatDirLookup g fuel s dir name = some (t, found)) : Handed s t dir found := by
  have keeps : ScanKeeps (fatLookupVisitor name dir) fun c => Handed s c.1 dir c.2 := by
    refine ⟨fun _ _ h => ⟨h.count, h.nodes, h.node⟩, fun display raw _ lba off c h => ?_⟩
    unfold fatLookupVisitor fatAllocNode
    split
    · exact h
    split
    · rename_i full
      split at full
      · cases full
        exact h
      · cases full
    · rename_i i alloc
      split at alloc
      · cases alloc
      · cases alloc
        refine ⟨Nat.le_succ_of_le h.count, fun j low => ?_, fun i same => ?_⟩
        · have old : j ≠ c.1.count := by
            have grown := h.count
            omega
          exact (Function.update_of_ne old _ _).trans (h.nodes j low)
        · cases same
          refine ⟨Nat.lt_succ_self _, ?_⟩
          dsimp only
          rw [Function.update_self]
          rfl
  have start : Handed s s dir none := ⟨le_rfl, fun _ _ => rfl, nofun⟩
  exact keeps.iterate (c := (s, none)) start done

/-- So many steps lead up from a directory of the volume, or a file, to the mount point. -/
inductive Deep (s : Fat) : Option Nat → Nat → Prop
  | mount : Deep s none 0
  | node {i k : Nat} (low : i < s.count) (above : Deep s (s.nodes i).parent k) : Deep s (some i) (k + 1)

theorem Deep.handed {s t : Fat} {x dir found : Option Nat} {k : Nat} (deep : Deep s x k) (handed : Handed s t dir found) :
    Deep t x k := by
  induction deep with
  | mount => exact .mount
  | node low above ih => exact .node (Nat.lt_of_lt_of_le low handed.count) (by rwa [handed.nodes _ low])

theorem Deep.found {s t : Fat} {dir : Option Nat} {i k : Nat} (deep : Deep s dir k) (handed : Handed s t dir (some i)) :
    Deep t (some i) (k + 1) := by
  obtain ⟨low, parent⟩ := handed.node i rfl
  refine .node low ?_
  rw [parent]
  exact deep.handed handed

end Pools

end Isunux.Mounts
