import Isunux.MountFrames
import Isunux.FatUnlink

/-! `process_chmod` and `process_chown` write to the vnode that the path resolves to. In
tmpfs and on the devices that is the vnode every later resolution gives; in the FAT
volume every resolution makes a vnode of its own. -/
namespace Isunux.Mounts

open Route (walk visits)

section Near

variable {g : Geometry} {fuel : Nat} {s t : Files Drivers} {kids : Nat → List Nat} {q : List Char} {v : Vnode}

/-- A lookup that stays out of the FAT volume. -/
def nearLookup (s : Files Drivers) (dir : Vnode) (name : List Char) : Option Vnode :=
  match dirOps s dir with
  | .tmpfs d => (tmpfsDirLookup s.tmp d name).map .tmp
  | .devfs => (devfsLookup name).map .dev
  | _ => none

/-- The path leads to the vnode, and no lookup on the way is one in the volume. -/
def Near (s : Files Drivers) (q : List Char) (v : Vnode) : Prop :=
  q.head? = some '/' ∧ walk (parentOf s) (nearLookup s) (.tmp 0) (route q.tail) = some v

def wayOf (s : Files Drivers) (q : List Char) : List Vnode :=
  visits (parentOf s) (nearLookup s) (.tmp 0) (route q.tail)

theorem resolveLoop_near {n : Nat} {current : Vnode} {p : List Char}
    (arrived : walk (parentOf s) (nearLookup s) current (moves (pieces n p)) = some v) :
    resolveLoop g fuel n s current p = some (s, some v) := by
  induction n generalizing current p with
  | zero =>
    cases arrived
    rfl
  | succ n ih =>
    cases p with
    | nil =>
      cases arrived
      rfl
    | cons a p =>
      simp only [pieces, moves_cons] at arrived
      simp only [Mounts.resolveLoop]
      generalize takeComponent (vfsMaxName - 1) (a :: p) = r at arrived
      unfold moveOf at arrived
      by_cases stay : r.1 = [] ∨ r.1 = ['.']
      · rw [if_pos stay] at arrived ⊢
        exact ih arrived
      rw [if_neg stay] at arrived ⊢
      by_cases back : r.1 = ['.', '.']
      · rw [if_pos back] at arrived ⊢
        exact ih arrived
      rw [if_neg back] at arrived ⊢
      obtain ⟨next, step, later⟩ := Option.bind_eq_some_iff.mp arrived
      have looked : Mounts.lookup g fuel s current r.1 = some (s, some next) := by
        unfold nearLookup at step
        unfold Mounts.lookup
        cases ops : dirOps s current with
        | none =>
          rw [ops] at step
          cases step
        | fat dir =>
          rw [ops] at step
          cases step
        | tmpfs d =>
          rw [ops] at step
          exact congrArg (fun found => some (s, found)) step
        | devfs =>
          rw [ops] at step
          exact congrArg (fun found => some (s, found)) step
      rw [looked]
      exact ih later

theorem Near.resolves (near : Near s q v) : vfsResolvePath g fuel s q = some (s, some v) := by
  obtain ⟨absolute, arrived⟩ := near
  cases q with
  | nil => cases absolute
  | cons a p =>
    obtain rfl : a = '/' := Option.some.inj absolute
    exact resolveLoop_near arrived

def Outside (s : Files Drivers) : Vnode → Prop
  | .tmp i => i < s.tmp.count
  | .dev _ => True
  | .fat _ => False

theorem nearLookup_cases {dir w : Vnode} {name : List Char} (step : nearLookup s dir name = some w) :
    (∃ d i, dir = .tmp d ∧ w = .tmp i ∧ (s.tmp.nodes d).ops = .tmpfsDir ∧ tmpfsDirLookup s.tmp d name = some i) ∨
    ∃ d k, dir = .tmp d ∧ w = .dev k ∧ (s.tmp.nodes d).ops = .foreign ∧ d = s.devDir ∧ devfsLookup name = some k := by
  unfold nearLookup at step
  split at step
  · rename_i d native
    obtain ⟨rfl, ops⟩ := dirOps_tmpfs native
    obtain ⟨i, hit, rfl⟩ := Option.map_eq_some_iff.mp step
    exact .inl ⟨d, i, rfl, rfl, ops, hit⟩
  · rename_i device
    obtain ⟨k, hit, rfl⟩ := Option.map_eq_some_iff.mp step
    unfold dirOps at device
    split at device
    · rename_i d
      split at device
      · cases device
      · cases device
      · rename_i ops
        split at device
        · rename_i here
          exact .inr ⟨d, k, rfl, rfl, ops, here, hit⟩
        · cases device
    · cases device
    · split at device <;> cases device
  · cases step

theorem Rooted.way_outside (r : Rooted s kids) (q : List Char) : ∀ w ∈ wayOf s q, Outside s w := by
  refine Route.visits_all (fun w here => ?_) (fun w name next step => ?_) r.hosted.tree.root.2
  · cases w with
    | tmp i => exact (r.hosted.tree.upward i here).2
    | dev k => exact (r.hosted.dirs s.devDir (.inl rfl)).1
    | fat j => exact here.elim
  · rcases nearLookup_cases step with ⟨d, i, -, rfl, -, hit⟩ | ⟨-, k, -, rfl, -⟩
    · exact r.hosted.tree.inside d i (r.hosted.tree.lookup_mem hit)
    · exact trivial

theorem Near.outside (near : Near s q v) (r : Rooted s kids) : Outside s v := by
  rcases Route.walk_mem near.2 with rfl | mem
  · exact r.hosted.tree.root.2
  · exact r.way_outside q v mem

def Listed (t : Tmpfs) (i : Nat) : Prop := i ∈ t.children (t.nodes i).parent

/-- What is left of a way from `s` to a vnode with this owner. -/
structure Kept (s : Files Drivers) (way : List Vnode) (v : Vnode) (owner : Word × Word × Word) (t : Files Drivers) :
    Prop where
  rooted : ∃ kids, Rooted t kids
  count : s.tmp.count ≤ t.tmp.count
  labels : ∀ i < s.tmp.count, (t.tmp.nodes i).type = (s.tmp.nodes i).type ∧
    (t.tmp.nodes i).ops = (s.tmp.nodes i).ops ∧ (t.tmp.nodes i).name = (s.tmp.nodes i).name ∧
    (t.tmp.nodes i).parent = (s.tmp.nodes i).parent
  mounts : t.devDir = s.devDir ∧ t.mntDir = s.mntDir
  listed : ∀ i, .tmp i ∈ way → Listed s.tmp i → Listed t.tmp i
  owner : ownerOf t v = owner

theorem Kept.near (r : Rooted s kids) (near : Near s q v) {owner : Word × Word × Word}
    (kept : Kept s (wayOf s q) v owner t) : Near t q v := by
  obtain ⟨kids', r'⟩ := kept.rooted
  refine ⟨near.1, Route.walk_kept (fun w met => ?_) (fun w name next step met met' => ?_) near.2⟩
  · have here : Outside s w := by
      rcases met with rfl | mem
      · exact r.hosted.tree.root.2
      · exact r.way_outside q w mem
    cases w with
    | tmp i => exact congrArg Vnode.tmp (kept.labels i here).2.2.2
    | dev k => exact congrArg Vnode.tmp kept.mounts.1
    | fat j => exact here.elim
  · have here : Outside s w := by
      rcases met with rfl | mem
      · exact r.hosted.tree.root.2
      · exact r.way_outside q w mem
    rcases nearLookup_cases step with ⟨d, i, rfl, rfl, ops, hit⟩ | ⟨d, k, rfl, rfl, ops, dev, hit⟩
    · have mem := r.hosted.tree.lookup_mem hit
      have low := r.hosted.tree.inside d i mem
      have parent := r.parent d i mem
      have named : (s.tmp.nodes i).name = name := by
        unfold tmpfsDirLookup at hit
        simpa using List.find?_some hit
      have before : Listed s.tmp i := by
        rw [Listed, parent, r.hosted.tree.children]
        exact mem
      have after := kept.listed i met' before
      rw [Listed, (kept.labels i low).2.2.2, parent, r'.hosted.tree.children] at after
      have found := r'.lookup after
      rw [(kept.labels i low).2.2.1, named] at found
      have ops' : (t.tmp.nodes d).ops = .tmpfsDir := (kept.labels d here).2.1.trans ops
      simp only [nearLookup, dirOps, ops', found, Option.map_some]
    · have ops' : (t.tmp.nodes d).ops = .foreign := (kept.labels d here).2.1.trans ops
      have dev' : d = t.devDir := dev.trans kept.mounts.1.symm
      simp only [nearLookup, dirOps, ops', if_pos dev', hit, Option.map_some]

theorem Evolves.kept {u : Files Drivers} {way : List Vnode} {owner : Word × Word × Word} {w : Option Vnode}
    (kept : Kept s way v owner t) (h : Evolves t u w) (outside : Outside s v) (other : w ≠ some v)
    (listed : ∀ i, .tmp i ∈ way → Listed t.tmp i → Listed u.tmp i) : Kept s way v owner u := by
  refine ⟨h.rooted, kept.count.trans h.count, fun i low => ?_, ?_, fun i mem before =>
    listed i mem (kept.listed i mem before), ?_⟩
  · obtain ⟨type, ops, name, parent⟩ := kept.labels i low
    obtain ⟨type', ops', name', parent'⟩ := h.labels i (Nat.lt_of_lt_of_le low kept.count)
    exact ⟨type'.trans type, ops'.trans ops, name'.trans name, parent'.trans parent⟩
  · exact ⟨h.mounts.1.trans kept.mounts.1, h.mounts.2.trans kept.mounts.2⟩
  · rw [← kept.owner]
    cases v with
    | tmp i => exact h.owners i (Nat.lt_of_lt_of_le outside kept.count) other
    | dev k => exact h.devices k other
    | fat j => exact outside.elim

end Near

/-! Runs -/

/-- The calls on the tree. `resolve` stands for those that do no more than that: chdir and exec. -/
inductive VfsOp where
  | resolve (cwd path : List Char)
  | readdir (cwd path : List Char) (index size : Nat)
  | stat (who : Process) (path : List Char)
  | opens (who : Process) (path : List Char) (flags : Nat)
  | mkdir (who : Process) (path : List Char)
  | create (who : Process) (path : List Char)
  | unlink (who : Process) (path : List Char)
  | chmod (who : Process) (path : List Char) (mode : Word)
  | chown (who : Process) (path : List Char) (uid gid : Word)
  | read (node : Vnode) (count offset : Word)
  | write (node : Vnode) (src : Nat → BitVec 8) (count offset : Word)

section Steps

variable (g : Geometry) (fuel : Nat)

/-- The state after a call, or nothing when the call does not return. -/
def vfsStep (s : Files Drivers) : VfsOp → Option (Files Drivers)
  | .resolve cwd path => (vfsResolvePathCwd g fuel s cwd path).map (·.1)
  | .readdir cwd path index size => (vfsReaddirPath g fuel s cwd path index size).map (·.1)
  | .stat who path => (processStat g fuel s who path).map (·.1)
  | .opens who path flags => (locate g fuel s who path flags).map (·.1)
  | .mkdir who path => (processMkdir g fuel s who path).map (·.1)
  | .create who path => (processCreate g fuel s who path).map (·.1)
  | .unlink who path => (processUnlink g fuel s who path).map (·.1)
  | .chmod who path mode => (processChmod g fuel s who path mode).map (·.1)
  | .chown who path uid gid => (processChown g fuel s who path uid gid).map (·.1)
  | .read node count offset => some (readNode g s node count offset)
  | .write node src count offset => (writeNode g s node src count offset).map (·.1)

def SetsOwner (s : Files Drivers) (v : Vnode) : VfsOp → Prop
  | .chmod who path _ | .chown who path _ _ => ∃ t, vfsResolvePathCwd g fuel s who.cwd path = some (t, some v)
  | _ => False

/-- Calls of whatever processes that neither give `v` an owner or a mode nor unlink a node
of a way. A node that was unlinked is never listed again, so they do not recreate one either. -/
inductive Meanwhile (v : Vnode) (way : List Vnode) : Files Drivers → Files Drivers → Prop
  | none (s : Files Drivers) : Meanwhile v way s s
  | step {s t u : Files Drivers} {op : VfsOp} (before : Meanwhile v way s t) (spares : ¬ SetsOwner g fuel t v op)
    (done : vfsStep g fuel t op = some u) (listed : ∀ i, .tmp i ∈ way → Listed t.tmp i → Listed u.tmp i) :
    Meanwhile v way s u

/-- Whoever looks at the path sees these: stat reports them, and a permission check on the
vnode that the path resolves to goes by them. -/
structure Sees (s : Files Drivers) (q : List Char) (owner : Word × Word × Word) : Prop where
  checks : ∃ t v, vfsResolvePath g fuel s q = some (t, some v) ∧ ownerOf t v = owner
  stats : ∀ who path, vfsCombinePath who.cwd path = q → ∃ t st, processStat g fuel s who path = some (t, .ok st) ∧
    (st.uid, st.gid, st.mode) = owner

variable {g fuel} {s t u : Files Drivers} {kids : Nat → List Nat} {q : List Char} {v : Vnode}

theorem vfsReaddirPath_still (h : Hosted s kids) {cwd path : List Char} {index size : Nat} {entry : Except Int (Option (List Char))}
    (call : vfsReaddirPath g fuel s cwd path index size = some (t, entry)) : Still s t := by
  unfold vfsReaddirPath at call
  split at call
  · cases call
  · rename_i hit
    cases call
    exact (inside_resolve h hit).1
  · rename_i s₁ node hit
    have still := (inside_resolve h hit).1
    split at call
    · cases call
      exact still
    · unfold Mounts.readdir at call
      split at call
      · cases call
        exact still
      · cases call
        exact still
      · cases call
        exact still
      · obtain ⟨result, -, eq⟩ := Option.map_eq_some_iff.mp call
        cases eq
        exact still.trans (withFat_still result.1)

theorem processStat_still (h : Hosted s kids) {who : Process} {path : List Char} {st : Except Int VfsStat}
    (call : processStat g fuel s who path = some (t, st)) : Still s t := by
  unfold processStat at call
  split at call
  · cases call
  · rename_i hit
    cases call
    exact (inside_resolve h hit).1
  · rename_i hit
    cases call
    exact (inside_resolve h hit).1

/-- What `process_chmod` and `process_chown` do once they have found `found` in the state `u`. -/
def OwnerSet (u : Files Drivers) (found : Option Vnode) (t : Files Drivers) : Prop :=
  t = u ∨ ∃ v owner, found = some v ∧ t = setOwner u owner v

theorem processChmod_cases {who : Process} {path : List Char} {mode : Word} {e : Int}
    (call : processChmod g fuel s who path mode = some (t, e)) :
    ∃ u found, vfsResolvePathCwd g fuel s who.cwd path = some (u, found) ∧ OwnerSet u found t := by
  unfold processChmod at call
  split at call
  · cases call
  · rename_i hit
    cases call
    exact ⟨_, _, hit, .inl rfl⟩
  · rename_i s₁ node hit
    dsimp only at call
    split at call
    · cases call
      exact ⟨_, _, hit, .inl rfl⟩
    · obtain ⟨rfl, -⟩ := Prod.mk.inj (Option.some.inj call)
      exact ⟨_, _, hit, .inr ⟨node, _, rfl, rfl⟩⟩

theorem processChown_cases {who : Process} {path : List Char} {uid gid : Word} {e : Int}
    (call : processChown g fuel s who path uid gid = some (t, e)) :
    ∃ u found, vfsResolvePathCwd g fuel s who.cwd path = some (u, found) ∧ OwnerSet u found t := by
  unfold processChown at call
  split at call
  · cases call
  · rename_i hit
    cases call
    exact ⟨_, _, hit, .inl rfl⟩
  · rename_i s₁ node hit
    split at call
    · cases call
      exact ⟨_, _, hit, .inl rfl⟩
    · obtain ⟨rfl, -⟩ := Prod.mk.inj (Option.some.inj call)
      exact ⟨_, _, hit, .inr ⟨node, _, rfl, rfl⟩⟩

theorem vfsStep_evolves (r : Rooted s kids) {op : VfsOp} (done : vfsStep g fuel s op = some t) :
    ∃ w, Evolves s t w ∧ ∀ v, w = some v → SetsOwner g fuel s v op := by
  have sets : ∀ {who : Process} {path : List Char} {u t : Files Drivers} {found : Option Vnode},
      vfsResolvePathCwd g fuel s who.cwd path = some (u, found) → OwnerSet u found t →
        ∃ w, Evolves s t w ∧ ∀ v, w = some v → ∃ u, vfsResolvePathCwd g fuel s who.cwd path = some (u, some v) := by
    rintro who path u t found hit (rfl | ⟨v, owner, rfl, rfl⟩)
    · exact ⟨none, (inside_resolve r.hosted hit).1.evolves r, nofun⟩
    · have still := (inside_resolve r.hosted hit).1
      refine ⟨some v, (still.evolves r).trans ((still.rooted r).setOwner owner v), fun w same => ?_⟩
      cases same
      exact ⟨u, hit⟩
  cases op with
  | resolve cwd path =>
    obtain ⟨⟨u, found⟩, hit, rfl⟩ := Option.map_eq_some_iff.mp done
    exact ⟨none, (inside_resolve r.hosted hit).1.evolves r, nofun⟩
  | readdir cwd path index size =>
    obtain ⟨⟨u, entry⟩, call, rfl⟩ := Option.map_eq_some_iff.mp done
    exact ⟨none, (vfsReaddirPath_still r.hosted call).evolves r, nofun⟩
  | stat who path =>
    obtain ⟨⟨u, st⟩, call, rfl⟩ := Option.map_eq_some_iff.mp done
    exact ⟨none, (processStat_still r.hosted call).evolves r, nofun⟩
  | opens who path flags =>
    obtain ⟨⟨u, found⟩, call, rfl⟩ := Option.map_eq_some_iff.mp done
    exact ⟨none, r.locate call, nofun⟩
  | mkdir who path =>
    obtain ⟨⟨u, e⟩, call, rfl⟩ := Option.map_eq_some_iff.mp done
    exact ⟨none, r.parentCall_makes tmpfsDirMkdir_makes call, nofun⟩
  | create who path =>
    obtain ⟨⟨u, e⟩, call, rfl⟩ := Option.map_eq_some_iff.mp done
    exact ⟨none, r.parentCall_makes tmpfsDirCreate_makes call, nofun⟩
  | unlink who path =>
    obtain ⟨⟨u, e⟩, call, rfl⟩ := Option.map_eq_some_iff.mp done
    exact ⟨none, r.processUnlink call, nofun⟩
  | chmod who path mode =>
    obtain ⟨⟨u, e⟩, call, rfl⟩ := Option.map_eq_some_iff.mp done
    obtain ⟨s₁, found, hit, effect⟩ := processChmod_cases call
    exact sets hit effect
  | chown who path uid gid =>
    obtain ⟨⟨u, e⟩, call, rfl⟩ := Option.map_eq_some_iff.mp done
    obtain ⟨s₁, found, hit, effect⟩ := processChown_cases call
    exact sets hit effect
  | read node count offset =>
    obtain rfl := Option.some.inj done
    refine ⟨none, ?_, nofun⟩
    cases node with
    | tmp i => exact Still.refl.evolves r
    | dev k => exact Still.refl.evolves r
    | fat j => exact (withFat_still _).evolves r
  | write node src count offset =>
    obtain ⟨⟨u, n⟩, call, rfl⟩ := Option.map_eq_some_iff.mp done
    exact ⟨none, r.writeNode call, nofun⟩

theorem Rooted.run (r : Rooted s kids) {way : List Vnode} (calls : Meanwhile g fuel v way s t) :
    ∃ kids, Rooted t kids := by
  induction calls with
  | none => exact ⟨kids, r⟩
  | step before spares done listed ih =>
    obtain ⟨kids', r'⟩ := ih
    obtain ⟨w, evolves, -⟩ := vfsStep_evolves r' done
    exact evolves.rooted

theorem Kept.run {way : List Vnode} {owner : Word × Word × Word} (kept : Kept s way v owner t) (outside : Outside s v)
    (calls : Meanwhile g fuel v way t u) : Kept s way v owner u := by
  induction calls with
  | none => exact kept
  | step before spares done listed ih =>
    obtain ⟨kids', r'⟩ := ih.rooted
    obtain ⟨w, evolves, sets⟩ := vfsStep_evolves r' done
    exact evolves.kept ih outside (fun same => spares (sets v same)) listed

theorem ownerOf_setOwner (owner : Word × Word × Word) (outside : Outside s v) :
    ownerOf (setOwner s owner v) v = owner := by
  cases v with
  | tmp i => simp only [ownerOf, setOwner, Tmpfs.set, Function.update_self]
  | dev k => exact Function.update_self _ _ _
  | fat j => exact outside.elim

theorem Rooted.listed_setOwner (r : Rooted s kids) (owner : Word × Word × Word) (w : Vnode) (i : Nat) :
    Listed (Mounts.setOwner s owner w).tmp i ↔ Listed s.tmp i := by
  cases w with
  | tmp j =>
    have entries : SameEntries s (Mounts.setOwner s owner (.tmp j)) :=
      .set rfl ⟨rfl, rfl⟩ ⟨rfl, rfl⟩ ⟨rfl, rfl⟩ Iff.rfl rfl
    rw [Listed, Listed, (entries.types i).2, (entries.hosted r.hosted).tree.children, r.hosted.tree.children]
  | dev k => exact Iff.rfl
  | fat j => exact Iff.rfl

theorem Near.sees (near : Near s q v) : Sees g fuel s q (ownerOf s v) := by
  refine ⟨⟨s, v, near.resolves, rfl⟩, fun who path same => ?_⟩
  unfold processStat vfsResolvePathCwd
  rw [same, near.resolves]
  exact ⟨s, _, rfl, rfl⟩

theorem Near.persists (r : Rooted s kids) (near : Near s q v) (owner : Word × Word × Word)
    (calls : Meanwhile g fuel v (wayOf s q) (setOwner s owner v) t) : Sees g fuel t q owner := by
  have outside := near.outside r
  have set := r.setOwner owner v
  have kept : Kept s (wayOf s q) v owner (setOwner s owner v) :=
    ⟨set.rooted, set.count, set.labels, set.mounts, fun i _ before => (r.listed_setOwner owner v i).mpr before,
      ownerOf_setOwner owner outside⟩
  have later := kept.run outside calls
  have sees : Sees g fuel t q (ownerOf t v) := (later.near r near).sees
  rwa [later.owner] at sees

/-- A chmod or chown of a path that does not lead into the FAT volume takes effect. -/
theorem attributes_take_effect {who : Process} {path : List Char} (tree : ∃ kids, Rooted s kids)
    (near : Near s (vfsCombinePath who.cwd path) v) :
    (∀ mode u, processChmod g fuel s who path mode = some (u, 0) →
      ∀ t, Meanwhile g fuel v (wayOf s (vfsCombinePath who.cwd path)) u t →
        Sees g fuel t (vfsCombinePath who.cwd path) ((ownerOf s v).1, (ownerOf s v).2.1, mode &&& 0o777#64)) ∧
    ∀ uid gid u, processChown g fuel s who path uid gid = some (u, 0) →
      ∀ t, Meanwhile g fuel v (wayOf s (vfsCombinePath who.cwd path)) u t →
        Sees g fuel t (vfsCombinePath who.cwd path) (uid, gid, (ownerOf s v).2.2) := by
  obtain ⟨kids, r⟩ := tree
  have resolved : vfsResolvePathCwd g fuel s who.cwd path = some (s, some v) := near.resolves
  refine ⟨fun mode u set t calls => ?_, fun uid gid u set t calls => ?_⟩
  · unfold processChmod at set
    rw [resolved] at set
    dsimp only at set
    split at set
    · cases set
    · obtain ⟨rfl, -⟩ := Prod.mk.inj (Option.some.inj set)
      exact near.persists r _ calls
  · unfold processChown at set
    rw [resolved] at set
    dsimp only at set
    split at set
    · cases set
    · obtain ⟨rfl, -⟩ := Prod.mk.inj (Option.some.inj set)
      exact near.persists r _ calls

end Steps

/-- A tree with the directories `/mnt` and `/dev`, and the volume with one file on `/mnt`. -/
def mountedVolume : Files Drivers where
  tmp :=
    { nodes := fun i =>
        match i with
        | 0 => { TmpfsNode.zero with type := .dir, ops := .tmpfsDir, name := ['/'], mode := 0o755#64, firstChild := some 2 }
        | 1 => { TmpfsNode.zero with type := .dir, ops := .foreign, name := ['m', 'n', 't'], mode := 0o755#64 }
        | 2 =>
          { TmpfsNode.zero with
            type := .dir, ops := .foreign, name := ['d', 'e', 'v'], mode := 0o755#64, nextSibling := some 1 }
        | _ => .zero
      count := 3 }
  pmm := eightPages
  mem := fun _ _ => 0#64
  other :=
    { devices := fun _ => (0#64, 0#64, 0o666#64)
      fat := oneFileVolume fun _ => .done
      fatOwner := fun _ => (0#64, 0#64) }
  devDir := 2
  mntDir := 1

def mountedKids : Nat → List Nat
  | 0 => [2, 1]
  | _ + 1 => []

theorem mem_mountedKids {d i : Nat} (mem : i ∈ mountedKids d) : d = 0 ∧ (i = 2 ∨ i = 1) := by
  cases d with
  | zero => simpa [mountedKids] using mem
  | succ d => cases mem

theorem mountedVolume_rooted : Rooted mountedVolume mountedKids where
  hosted :=
    { tree :=
        { chain := fun d =>
            match d with
            | 0 => ⟨rfl, rfl, rfl⟩
            | 1 => rfl
            | 2 => rfl
            | _ + 3 => rfl
          inside := fun d i mem => by
            obtain ⟨-, rfl | rfl⟩ := mem_mountedKids mem <;> decide
          nodup := fun d => by
            cases d with
            | zero => decide
            | succ d => exact List.nodup_nil
          apart := fun d d' i mem mem' => (mem_mountedKids mem).1.trans (mem_mountedKids mem').1.symm
          above := fun d i mem => by
            obtain ⟨rfl, -⟩ := mem_mountedKids mem
            exact ⟨rfl, by decide⟩
          upward := fun i low =>
            match i with
            | 0 => ⟨rfl, by decide⟩
            | 1 => ⟨rfl, by decide⟩
            | 2 => ⟨rfl, by decide⟩
            | k + 3 => absurd low (Nat.not_lt_of_le (Nat.le_add_left 3 k))
          root := ⟨rfl, by decide⟩
          most := by decide
          ops := fun i low =>
            match i with
            | 0 => by decide
            | 1 => by decide
            | 2 => by decide
            | k + 3 => absurd low (Nat.not_lt_of_le (Nat.le_add_left 3 k)) }
      dirs := fun d mount => by
        rcases mount with rfl | rfl
        · exact ⟨by decide, rfl⟩
        · exact ⟨by decide, rfl⟩ }
  parent d i mem := by
    obtain ⟨rfl, rfl | rfl⟩ := mem_mountedKids mem <;> rfl
  names d := by
    cases d with
    | zero => decide
    | succ d => exact List.nodup_nil

def mntFile : List Char := ['/', 'm', 'n', 't', '/', 'a']

/-- Both calls succeed on a file of the volume, and the next stat reports what was there before. -/
theorem volume_attributes_lost :
    (∃ s t st, processChmod (geometryOf (smallBoot 1#8 1#8)) fullFuel mountedVolume .zero mntFile 0o600#64 = some (s, 0) ∧
      processStat (geometryOf (smallBoot 1#8 1#8)) fullFuel s .zero mntFile = some (t, .ok st) ∧ st.mode = 0o644#64) ∧
    ∃ s t st, processChown (geometryOf (smallBoot 1#8 1#8)) fullFuel mountedVolume .zero mntFile 5#64 5#64 = some (s, 0) ∧
      processStat (geometryOf (smallBoot 1#8 1#8)) fullFuel s .zero mntFile = some (t, .ok st) ∧ st.uid = 0#64 := by
  have stats : ∀ {call : Option (Files Drivers × Int)} {field : VfsStat → Word} {seen : Word},
      (call.bind fun r => (processStat (geometryOf (smallBoot 1#8 1#8)) fullFuel r.1 .zero mntFile).map fun q =>
        (r.2, q.2.toOption.map field)) = some (0, some seen) →
      ∃ s t st, call = some (s, 0) ∧
        processStat (geometryOf (smallBoot 1#8 1#8)) fullFuel s .zero mntFile = some (t, .ok st) ∧ field st = seen := by
    intro call field seen run
    obtain ⟨⟨s, e⟩, called, rest⟩ := Option.bind_eq_some_iff.mp run
    obtain ⟨⟨t, found⟩, stat, result⟩ := Option.map_eq_some_iff.mp rest
    obtain ⟨rfl, fields⟩ := Prod.mk.inj result
    cases found with
    | error e => cases fields
    | ok st => exact ⟨s, t, st, called, stat, Option.some.inj fields⟩
  exact ⟨stats (by decide +kernel), stats (by decide +kernel)⟩

def ttyPath : List Char := ['/', 'd', 'e', 'v', '/', 't', 't', 'y']

/-- The mode of a device is set, and a directory is made before anybody looks. -/
theorem attributes_take_effect_tty :
    ∃ s t, processChmod (geometryOf (smallBoot 1#8 1#8)) fullFuel mountedVolume .zero ttyPath 0o600#64 = some (s, 0) ∧
      vfsStep (geometryOf (smallBoot 1#8 1#8)) fullFuel s (.mkdir .zero ['/', 'x']) = some t ∧
      Sees (geometryOf (smallBoot 1#8 1#8)) fullFuel t (vfsCombinePath Process.zero.cwd ttyPath)
        (0#64, 0#64, 0o600#64) := by
  have near : Near mountedVolume (vfsCombinePath Process.zero.cwd ttyPath) (.dev 0) := ⟨rfl, by decide +kernel⟩
  have chmod : processChmod (geometryOf (smallBoot 1#8 1#8)) fullFuel mountedVolume .zero ttyPath 0o600#64 =
      some (setOwner mountedVolume (0#64, 0#64, 0o600#64) (.dev 0), 0) := by
    have resolved : vfsResolvePathCwd (geometryOf (smallBoot 1#8 1#8)) fullFuel mountedVolume Process.zero.cwd ttyPath =
      some (mountedVolume, some (.dev 0)) := near.resolves
    unfold processChmod
    rw [resolved]
    rfl
  have mkdir : (vfsStep (geometryOf (smallBoot 1#8 1#8)) fullFuel
      (setOwner mountedVolume (0#64, 0#64, 0o600#64) (.dev 0)) (.mkdir .zero ['/', 'x'])).map
        (fun t => decide (2 ∈ t.tmp.children (t.tmp.nodes 2).parent)) = some true := by decide +kernel
  obtain ⟨t, step, listed⟩ := Option.map_eq_some_iff.mp mkdir
  have way : wayOf mountedVolume (vfsCombinePath Process.zero.cwd ttyPath) = [.tmp 2, .dev 0] := by decide +kernel
  have calls : Meanwhile (geometryOf (smallBoot 1#8 1#8)) fullFuel (.dev 0)
      (wayOf mountedVolume (vfsCombinePath Process.zero.cwd ttyPath))
      (setOwner mountedVolume (0#64, 0#64, 0o600#64) (.dev 0)) t := by
    refine .step (.none _) id step fun i mem _ => ?_
    rw [way] at mem
    obtain rfl : i = 2 := by simpa using mem
    have still := of_decide_eq_true listed
    exact still
  exact ⟨_, t, chmod, step, (attributes_take_effect ⟨_, mountedVolume_rooted⟩ near).1 0o600#64 _ chmod t calls⟩

end Isunux.Mounts
