import Isunux.Exec
import Isunux.Mounts
import Isunux.Naming

/-! What processes that are not root's can do to the files of others. Each tmpfs node has a
byte array of its own: pages are allocated for it as ever, but its bytes are not in them. -/
namespace Isunux

/-! tmpfs.c on such arrays -/

/-- `tmpfs_file_read`. -/
def arrayRead (n : TmpfsNode) (bytes : Nat → BitVec 8) (count offset : Word) : List (BitVec 8) :=
  if n.size ≤ offset then []
  else
    let avail := n.size - offset
    let len := if count < avail then count else avail
    (List.range len.toNat).map fun j => bytes (offset.toNat + j)

theorem arrayRead_length (n : TmpfsNode) (bytes : Nat → BitVec 8) (count offset : Word) :
    (arrayRead n bytes count offset).length ≤ count.toNat := by
  unfold arrayRead
  dsimp only
  split
  · exact Nat.zero_le _
  · rw [List.length_map, List.length_range]
    split
    · exact le_rfl
    · rename_i wide
      rw [BitVec.lt_def] at wide
      omega

/-- The byte loop of `tmpfs_file_write`. -/
def arrayStore (bytes : Nat → BitVec 8) (offset : Word) (src : Nat → BitVec 8) (len : Nat) : Nat → BitVec 8 :=
  (List.range len).foldl (fun bytes j => Function.update bytes (storeIndex offset j) (src j)) bytes

section Arrays

variable {F : Type} (s : Files F) (bytes : Nat → BitVec 8) (i : Nat) (src : Nat → BitVec 8)

/-- What every way out of `tmpfs_file_write` does with the bytes it can place. -/
def arrayPut (count offset : Word) : Files F × (Nat → BitVec 8) :=
  let n := s.tmp.nodes i
  let n' := if n.size < offset + count then { n with size := offset + count } else n
  ({ s with tmp := s.tmp.set i n' }, arrayStore bytes offset src count.toNat)

/-- `tmpfs_file_write`, or nothing when it does not return. Behind the bytes copied into it
a larger buffer has what was there before, `fresh`. -/
def arrayWrite (fresh : Nat → BitVec 8) (count offset : Word) : Option ((Files F × (Nat → BitVec 8)) × Int) :=
  let n := s.tmp.nodes i
  let needed := offset + count
  if n.capacity < needed then
    let start := n.capacity / 4096#64
    (growPages needed 65 (if start = 0#64 then 1#64 else start)).map fun pages =>
      let a := pmmAllocPages s.pmm pages.toNat
      if a.2 = 0 then
        let s := { s with pmm := a.1 }
        if n.capacity < offset then ((s, bytes), -enomem)
        else
          let space := n.capacity - offset
          let len := if count < space then count else space
          (arrayPut s bytes i src len offset, len.toInt)
      else
        let grown : Files F := { s with
          tmp := s.tmp.set i { n with data := some a.2, capacity := pages * 4096#64 }
          pmm := pmmFreePages a.1 (n.data.getD 0) n.pages }
        (arrayPut grown (fun o => if o < n.size.toNat then bytes o else fresh o) i src count offset, count.toInt)
  else some (arrayPut s bytes i src count offset, count.toInt)

end Arrays

/-! process.c: attributes and identities -/

section Attributes

variable {F : Type} (fs : Foreign F) (chmodElsewhere : F → Nat → Word → F) (s : Files F)

/-- `node->mode = mode`. -/
def Files.chmod (mode : Word) : Place → Files F
  | .tmp i => { s with tmp := s.tmp.set i { s.tmp.nodes i with mode := mode } }
  | .foreign j => { s with other := chmodElsewhere s.other j mode }

def processChmod (who : Process) (path : List Char) (mode : Word) : Files F × Int :=
  match vfsResolvePathCwd fs s who.cwd path with
  | none => (s, -enoent)
  | some node =>
    if who.uid ≠ 0#64 ∧ who.uid ≠ (s.ownerOf fs node).1 then (s, -eperm)
    else (s.chmod chmodElsewhere (mode &&& 0o777#64) node, 0)

def processChown (who : Process) (path : List Char) (uid gid : Word) : Files F × Int :=
  match vfsResolvePathCwd fs s who.cwd path with
  | none => (s, -enoent)
  | some node => if who.uid ≠ 0#64 then (s, -eperm) else (s.chown fs uid gid node, 0)

end Attributes

def processSetuid (k : Kernel) (p : Nat) (uid : Word) : Kernel × Int :=
  if (k.procs p).uid ≠ 0#64 ∧ uid ≠ (k.procs p).uid then (k, -eperm)
  else (k.setProc p fun x => { x with uid := uid }, 0)

def processSetgid (k : Kernel) (p : Nat) (gid : Word) : Kernel × Int :=
  if (k.procs p).uid ≠ 0#64 ∧ gid ≠ (k.procs p).gid then (k, -eperm)
  else (k.setProc p fun x => { x with gid := gid }, 0)

/-! Runs -/

/-- The kernel with its current task, the files, and the array of each tmpfs node. There is
one page allocator, the kernel's. -/
structure Realm (F : Type) where
  caller : Caller
  files : Files F
  bytes : Nat → Nat → BitVec 8

inductive Deed where
  | opens (path : List Char) (flags : Nat)
  | read (fd : Nat) (count : Word)
  | write (fd : Nat) (src fresh : Nat → BitVec 8) (count : Word)
  | mkdir (path : List Char)
  | create (path : List Char)
  | unlink (path : List Char)
  | chmod (path : List Char) (mode : Word)
  | chown (path : List Char) (uid gid : Word)
  | chdir (path : List Char)
  | setuid (uid : Word)
  | setgid (gid : Word)
  | fork (returnPoint : Word)
  | exec (path : List Char) (argv envp : List CString) (seed : Word)
  | dup2 (oldfd newfd : Nat)
  | close (fd : Nat)

section Machine

variable {F : Type} (fs : Foreign F) (chmodElsewhere : F → Nat → Word → F)
  (transferElsewhere : F → Vnode → Word → Word → F × Int) (elsewhere : F → Nat → FileReader)

namespace Realm

variable (r : Realm F)

def kernel : Kernel := r.caller.kernel

def setKernel (k : Kernel) : Realm F := { r with caller := { r.caller with kernel := k } }

/-- The files as tmpfs sees them, with the kernel's page allocator. -/
def seen : Files F := { r.files with pmm := r.kernel.vm.pmm }

def setFiles (s : Files F) : Realm F :=
  { r with caller := r.caller.setVm { r.kernel.vm with pmm := s.pmm }, files := s }

/-- `process_read`, or nothing where it follows a null pointer. -/
def processRead (p fd : Nat) (count : Word) : Option (Realm F × Int) :=
  match Isunux.processRead (vfsTree fs) r.kernel r.seen p fd with
  | .refused e => some (r, e)
  | .crashes => none
  | .performs v offset =>
    match tmpfsFile v with
    | some i =>
      let n := (BitVec.ofNat 64 (arrayRead (r.files.tmp.nodes i) (r.bytes i) count offset).length).toInt
      some (r.setKernel (advanceOffset r.kernel p fd n), n)
    | none =>
      let t := transferElsewhere r.files.other v count offset
      some ((r.setFiles { r.seen with other := t.1 }).setKernel (advanceOffset r.kernel p fd t.2), t.2)

/-- `process_write`, or nothing where it does not return. -/
def processWrite (p fd : Nat) (src fresh : Nat → BitVec 8) (count : Word) : Option (Realm F × Int) :=
  match Isunux.processWrite (vfsTree fs) r.kernel r.seen p fd with
  | .refused e => some (r, e)
  | .crashes => none
  | .performs v offset =>
    match tmpfsFile v with
    | some i =>
      (arrayWrite r.seen (r.bytes i) i src fresh count offset).map fun w =>
        let t := { r.setKernel (advanceOffset r.kernel p fd w.2) with bytes := Function.update r.bytes i w.1.2 }
        (t.setFiles w.1.1, w.2)
    | none =>
      let t := transferElsewhere r.files.other v count offset
      some ((r.setFiles { r.seen with other := t.1 }).setKernel (advanceOffset r.kernel p fd t.2), t.2)

/-- `ops->read` of a node, for `do_exec`. -/
def reader : Place → FileReader
  | .tmp i =>
    { read := fun count offset =>
        .ok (arrayRead (r.files.tmp.nodes i) (r.bytes i) (BitVec.ofNat 64 count) (BitVec.ofNat 64 offset))
      bounded := by
        intro count offset bytes h
        cases h
        refine (arrayRead_length _ _ _ _).trans ?_
        rw [BitVec.toNat_ofNat]
        exact Nat.mod_le _ _ }
  | .foreign j => elsewhere r.files.other j

def doExec (p : Nat) (path : List Char) (argv envp : List CString) (seed : Word) : Realm F × Int :=
  let proc := r.kernel.procs p
  match vfsResolvePathCwd fs r.files proc.cwd path with
  | none => (r, -enoent)
  | some node =>
    if r.files.readable fs node = false then (r, -eacces)
    else if vfsCheckPerm (r.files.ownerOf fs node) proc.uid proc.gid 1#64 = false then (r, -eacces)
    else
      let c := execFile r.caller p (fun _ => r.reader elsewhere node) (stage maxExecArgs execArgMaxlen argv)
        (stage maxExecEnvs execEnvMaxlen envp) seed
      ({ r with caller := c.1 }, c.2)

/-- One call of the current process `p`, or nothing when it does not return. -/
def call (p : Nat) : Deed → Option (Realm F × Int)
  | .opens path flags =>
    let o := processOpen (vfsTree fs) r.kernel r.seen p path flags
    some ((r.setKernel o.1).setFiles o.2.1, o.2.2)
  | .read fd count => r.processRead fs transferElsewhere p fd count
  | .write fd src fresh count => r.processWrite fs transferElsewhere p fd src fresh count
  | .mkdir path => let c := processMkdir fs r.seen (r.kernel.procs p) path; some (r.setFiles c.1, c.2)
  | .create path => let c := processCreate fs r.seen (r.kernel.procs p) path; some (r.setFiles c.1, c.2)
  | .unlink path => let c := processUnlink fs r.seen (r.kernel.procs p) path; some (r.setFiles c.1, c.2)
  | .chmod path mode =>
    let c := processChmod fs chmodElsewhere r.seen (r.kernel.procs p) path mode
    some (r.setFiles c.1, c.2)
  | .chown path uid gid =>
    let c := processChown fs r.seen (r.kernel.procs p) path uid gid
    some (r.setFiles c.1, c.2)
  | .chdir path =>
    match processChdir fs r.files (r.kernel.procs p) path with
    | .error e => some (r, e)
    | .ok cwd => some (r.setKernel (r.kernel.setProc p fun x => { x with cwd := cwd }), 0)
  | .setuid uid => let c := processSetuid r.kernel p uid; some (r.setKernel c.1, c.2)
  | .setgid gid => let c := processSetgid r.kernel p gid; some (r.setKernel c.1, c.2)
  | .fork returnPoint => let c := doFork r.kernel returnPoint r.caller.frame; some (r.setKernel c.1, c.2)
  | .exec path argv envp seed => some (r.doExec fs elsewhere p path argv envp seed)
  | .dup2 oldfd newfd => let c := processDup2 r.kernel p oldfd newfd; some (r.setKernel c.1, c.2)
  | .close fd => let c := processClose r.kernel p fd; some (r.setKernel c.1, c.2)

end Realm

/-- The slot that `do_fork` takes for the child. -/
def Deed.offspring (k : Kernel) (p : Nat) : Deed → Option Nat
  | .fork _ => (processAlloc k (k.procs p).pid).2
  | _ => none

/-- Calls of process `p` and its descendants, the slots in `family`, whichever of them is
given the processor. -/
inductive Acts (start : Realm F) (p : Nat) : (Nat → Prop) → Realm F → Prop
  | none : Acts start p (· = p) start
  | switch {family : Nat → Prop} {r : Realm F} (before : Acts start p family r) (task : Nat) (cpu : Cpu)
      (frame : TrapFrame) :
      Acts start p family { r with caller := ⟨{ r.kernel with current := task }, cpu, frame⟩ }
  | call {family : Nat → Prop} {r r' : Realm F} {q : Nat} {deed : Deed} {result : Int}
      (before : Acts start p family r) (member : family q) (current : r.kernel.currentProcess = some q)
      (done : r.call fs chmodElsewhere transferElsewhere elsewhere q deed = some (r', result)) :
      Acts start p (fun i => family i ∨ deed.offspring r.kernel q = some i) r'

end Machine

/-! Who a process is -/

/-- Every slot has its owner, group and pid, and the next pid is the same. -/
structure SameIds (k k' : Kernel) : Prop where
  ids : ∀ q, (k'.procs q).uid = (k.procs q).uid ∧ (k'.procs q).gid = (k.procs q).gid ∧
    (k'.procs q).pid = (k.procs q).pid
  next : k'.nextPid = k.nextPid

section Identities

variable {k k' k'' : Kernel}

theorem SameIds.of_procs (procs : k'.procs = k.procs) (next : k'.nextPid = k.nextPid) : SameIds k k' := by
  refine ⟨fun q => ?_, next⟩
  rw [procs]
  exact ⟨rfl, rfl, rfl⟩

theorem SameIds.refl (k : Kernel) : SameIds k k := .of_procs rfl rfl

theorem SameIds.trans (h : SameIds k k') (h' : SameIds k' k'') : SameIds k k'' := by
  refine ⟨fun q => ?_, h'.next.trans h.next⟩
  obtain ⟨uid, gid, pid⟩ := h.ids q
  obtain ⟨uid', gid', pid'⟩ := h'.ids q
  exact ⟨uid'.trans uid, gid'.trans gid, pid'.trans pid⟩

theorem SameIds.of_update {i : Nat} {x : Process} (procs : k'.procs = Function.update k.procs i x)
    (next : k'.nextPid = k.nextPid)
    (keeps : x.uid = (k.procs i).uid ∧ x.gid = (k.procs i).gid ∧ x.pid = (k.procs i).pid) : SameIds k k' := by
  refine ⟨fun q => ?_, next⟩
  rw [procs]
  by_cases here : q = i
  · subst here
    rw [Function.update_self]
    exact keeps
  · rw [Function.update_of_ne here]
    exact ⟨rfl, rfl, rfl⟩

theorem setFd_ids (k : Kernel) (p fd : Nat) (e : FdEntry) : SameIds k (k.setFd p fd e) :=
  .of_update rfl rfl ⟨rfl, rfl, rfl⟩

theorem vnodeDup_ids (k : Kernel) (v : Option Vnode) : SameIds k (vnodeDup k v) := by
  refine .of_procs (vnodeDup_procs k v) ?_
  unfold vnodeDup
  split <;> rfl

theorem vnodeClose_ids (k : Kernel) (v : Option Vnode) : SameIds k (vnodeClose k v) := by
  refine .of_procs (vnodeClose_procs k v) ?_
  unfold vnodeClose
  split
  · dsimp only
    split <;> rfl
  · dsimp only
    split <;> rfl
  · rfl

theorem processClose_ids (k : Kernel) (p fd : Nat) : SameIds k (processClose k p fd).1 := by
  unfold processClose
  dsimp only
  split
  · exact .refl k
  · exact (vnodeClose_ids k _).trans (setFd_ids _ p fd _)

theorem processDup2_ids (k : Kernel) (p oldfd newfd : Nat) : SameIds k (processDup2 k p oldfd newfd).1 := by
  unfold processDup2
  split
  · exact .refl k
  split
  · exact .refl k
  split
  · exact .refl k
  dsimp only
  split
  · exact ((processClose_ids k p newfd).trans (setFd_ids _ p newfd _)).trans (vnodeDup_ids _ _)
  · exact (setFd_ids k p newfd _).trans (vnodeDup_ids _ _)

theorem advanceOffset_ids (k : Kernel) (p fd : Nat) (n : Int) : SameIds k (advanceOffset k p fd n) := by
  unfold advanceOffset
  split
  · exact setFd_ids k p fd _
  · exact .refl k

theorem processOpen_ids {σ : Type} (tree : FileTree σ) (k : Kernel) (files : σ) (p : Nat) (path : List Char)
    (flags : Nat) : SameIds k (processOpen tree k files p path flags).1 := by
  unfold processOpen
  split
  · exact .refl k
  · dsimp only
    unfold installFd
    dsimp only
    split
    · exact .refl k
    split
    · exact .refl k
    split
    · exact .refl k
    · exact setFd_ids k p _ _

theorem processSetuid_ids {p : Nat} (plain : (k.procs p).uid ≠ 0#64) (uid : Word) :
    SameIds k (processSetuid k p uid).1 := by
  unfold processSetuid
  split
  · exact .refl k
  · rename_i allowed
    have own : uid = (k.procs p).uid := by_contra fun other => allowed ⟨plain, other⟩
    exact .of_update rfl rfl ⟨own, rfl, rfl⟩

theorem processSetgid_ids {p : Nat} (plain : (k.procs p).uid ≠ 0#64) (gid : Word) :
    SameIds k (processSetgid k p gid).1 := by
  unfold processSetgid
  split
  · exact .refl k
  · rename_i allowed
    have own : gid = (k.procs p).gid := by_contra fun other => allowed ⟨plain, other⟩
    exact .of_update rfl rfl ⟨rfl, own, rfl⟩

theorem execFile_ids (c : Caller) (p : Nat) (file : Vm → FileReader) (argv envp : List (List (BitVec 8)))
    (seed : Word) : SameIds c.kernel (execFile c p file argv envp seed).1.kernel := by
  unfold execFile
  dsimp only
  split
  · exact .of_procs rfl rfl
  split
  · exact .of_procs rfl rfl
  unfold execLoaded
  split
  · exact .of_procs rfl rfl
  unfold execCommit
  dsimp only
  split
  · exact .of_procs rfl rfl
  · exact .of_update rfl rfl ⟨rfl, rfl, rfl⟩

theorem cloneFd_ids (dst src : Nat) (k : Kernel) (fd : Nat) : SameIds k (cloneFd dst src k fd) := by
  unfold cloneFd
  dsimp only
  split
  · exact (setFd_ids k dst fd _).trans (vnodeDup_ids _ _)
  · exact setFd_ids k dst fd _

theorem processCloneInto_ids (k : Kernel) (dst src pml4 : Nat) :
    let s := k.procs src
    SameIds (k.setProc dst fun d => { d with uid := s.uid, gid := s.gid }) (processCloneInto k dst src pml4) := by
  intro s
  unfold processCloneInto
  have filled : SameIds (k.setProc dst fun d => { d with uid := s.uid, gid := s.gid })
      (k.setProc dst fun d =>
        { d with
          pml4 := pml4, heapStart := s.heapStart, heapEnd := s.heapEnd, mmapNext := s.mmapNext
          uid := s.uid, gid := s.gid, fsBase := s.fsBase, cwd := s.cwd }) := by
    refine ⟨fun q => ?_, rfl⟩
    unfold Kernel.setProc
    by_cases here : q = dst
    · subst here
      simp
    · simp [here]
  exact Run.foldl_rule (SameIds _) _ _ _ filled fun fd _ t h => h.trans (cloneFd_ids dst src t fd)

theorem unlinkTaskFromRing_nextPid (k : Kernel) (t : Nat) : (unlinkTaskFromRing k t).nextPid = k.nextPid := by
  unfold unlinkTaskFromRing
  split
  · rfl
  · dsimp only
    split <;> rfl

theorem taskAllocRaw_ids (k : Kernel) : SameIds k (taskAllocRaw k).1 := by
  refine .of_procs (taskAllocRaw_procs k) ?_
  unfold taskAllocRaw
  split
  · rfl
  · split
    · rfl
    · dsimp only [spliceTask, Kernel.setTask]
      split <;> exact unlinkTaskFromRing_nextPid k _

theorem forkTask_ids (k : Kernel) (child : Nat) (point : Word) (frame : TrapFrame) :
    SameIds k (forkTask k child point frame).1 := by
  have allocated := taskAllocRaw_ids k
  unfold forkTask
  split
  · rename_i failed
    rw [failed] at allocated
    exact allocated
  · rename_i k₁ task made
    rw [made] at allocated
    dsimp only
    have linked : SameIds k₁ ((k₁.setTask task fun t => { t with proc := some child }).setProc child fun c =>
        { c with task := some task }) := .of_update rfl rfl ⟨rfl, rfl, rfl⟩
    split
    · exact allocated.trans linked
    · exact (allocated.trans linked).trans (.of_procs rfl rfl)

theorem doFork_ids {p : Nat} (current : k.currentProcess = some p) (live : (k.procs p).pid ≠ 0) (point : Word)
    (frame : TrapFrame) :
    match (processAlloc k (k.procs p).pid).2 with
    | none => (doFork k point frame).1 = k
    | some child => child ≠ p ∧ ((doFork k point frame).1.procs child).uid = (k.procs p).uid ∧
        ((doFork k point frame).1.procs child).gid = (k.procs p).gid ∧
        ((doFork k point frame).1.procs child).pid = k.nextPid ∧
        (∀ q, q ≠ child → ((doFork k point frame).1.procs q).uid = (k.procs q).uid ∧
          ((doFork k point frame).1.procs q).gid = (k.procs q).gid ∧
          ((doFork k point frame).1.procs q).pid = (k.procs q).pid) ∧
        (doFork k point frame).1.nextPid = k.nextPid + 1 := by
  unfold doFork
  rw [current]
  dsimp only
  cases slot : (processAlloc k (k.procs p).pid).2 with
  | none =>
    have failed : processAlloc k (k.procs p).pid = (k, none) := Prod.ext (processAlloc_failed slot) slot
    rw [failed]
  | some child =>
    obtain ⟨-, vacant, made⟩ := processAlloc_eq slot
    have apart : child ≠ p := fun same => live (same ▸ vacant)
    rw [show processAlloc k (k.procs p).pid = ((processAlloc k (k.procs p).pid).1, some child) from
      Prod.ext rfl slot, made]
    dsimp only
    refine ⟨apart, ?_⟩
    generalize vmmCloneLowerHalf _ _ _ = vm
    generalize (vmmNewAddressSpace k.vm).2 = pml4
    have same := (processCloneInto_ids { k with
      procs := Function.update k.procs child { Process.zero with pid := k.nextPid, parentPid := (k.procs p).pid }
      nextPid := k.nextPid + 1
      processCount := k.processCount + 1
      vm := vm } child p pml4).trans (forkTask_ids _ child point frame)
    refine ⟨?_, ?_, ?_, fun q other => ?_, same.next⟩
    · simpa [Kernel.setProc, Function.update_of_ne apart.symm] using (same.ids child).1
    · simpa [Kernel.setProc, Function.update_of_ne apart.symm] using (same.ids child).2.1
    · simpa [Kernel.setProc, Function.update_of_ne apart.symm] using (same.ids child).2.2
    · simpa [Kernel.setProc, Function.update_of_ne apart.symm, Function.update_of_ne other] using same.ids q

end Identities

/-! Nodes out of reach -/

/-- The node is not the user's, and the mode bits that apply to the user have no W. -/
def Shut (t : Tmpfs) (uid gid : Word) (i : Nat) : Prop := (t.nodes i).uid ≠ uid ∧ ¬ MayWrite t uid gid i

/-- The tree of tmpfs with its mounts, and children know their directory. -/
def Housed {F : Type} (s : Files F) : Prop := ∃ kids, Hosted s kids ∧ ∀ d i, i ∈ kids d → (s.tmp.nodes i).parent = d

/-- Nodes that are shut to the user keep what they are and whom they list. -/
structure LeftAlone {F : Type} (uid gid : Word) (s s' : Files F) : Prop where
  housed : Housed s'
  count : s.tmp.count ≤ s'.tmp.count
  labels : ∀ i < s.tmp.count, Shut s.tmp uid gid i → (s'.tmp.nodes i).label = (s.tmp.nodes i).label
  children : ∀ d < s.tmp.count, Shut s.tmp uid gid d → s'.tmp.children d = s.tmp.children d

section Nodes

variable {F : Type} (fs : Foreign F) {s s' s'' : Files F} {uid gid : Word} {kids : Nat → List Nat} {d i : Nat}
  {who : Process} {path : List Char}

theorem Shut.label {t t' : Tmpfs} (shut : Shut t uid gid i) (label : (t'.nodes i).label = (t.nodes i).label) :
    Shut t' uid gid i := by
  obtain ⟨owner, group, mode⟩ := (TmpfsNode.label_eq label).owner
  unfold Shut MayWrite at shut ⊢
  rwa [owner, group, mode]

theorem LeftAlone.trans (h : LeftAlone uid gid s s') (h' : LeftAlone uid gid s' s'') : LeftAlone uid gid s s'' := by
  refine ⟨h'.housed, h.count.trans h'.count, fun i low shut => ?_, fun d low shut => ?_⟩
  · have label := h.labels i low shut
    exact (h'.labels i (Nat.lt_of_lt_of_le low h.count) (shut.label label)).trans label
  · have label := h.labels d low shut
    exact (h'.children d (Nat.lt_of_lt_of_le low h.count) (shut.label label)).trans (h.children d low shut)

theorem LeftAlone.entries (housed : Housed s) (entries : SameEntries s s')
    (others : ∀ j, Shut s.tmp uid gid j → (s'.tmp.nodes j).label = (s.tmp.nodes j).label) : LeftAlone uid gid s s' := by
  obtain ⟨kids, hosted, parent⟩ := housed
  have hosted' := entries.hosted hosted
  refine ⟨⟨kids, hosted', fun d i mem => ?_⟩, entries.count.ge, fun i _ shut => others i shut, fun d _ _ => ?_⟩
  · rw [(entries.types i).2]
    exact parent d i mem
  · rw [hosted'.tree.children, hosted.tree.children]

theorem LeftAlone.same (housed : Housed s) (tmp : s'.tmp = s.tmp)
    (mounts : s'.devDir = s.devDir ∧ s'.mntDir = s.mntDir) : LeftAlone uid gid s s' := by
  refine .entries housed (.tmp tmp mounts) fun j _ => ?_
  rw [tmp]

theorem LeftAlone.set (housed : Housed s) {n : TmpfsNode} (open_ : ¬ Shut s.tmp uid gid i)
    (tmp : s'.tmp = s.tmp.set i n) (mounts : s'.devDir = s.devDir ∧ s'.mntDir = s.mntDir)
    (links : n.firstChild = (s.tmp.nodes i).firstChild ∧ n.nextSibling = (s.tmp.nodes i).nextSibling)
    (types : n.type = (s.tmp.nodes i).type ∧ n.parent = (s.tmp.nodes i).parent)
    (ops : n.ops = (s.tmp.nodes i).ops) (name : n.name = (s.tmp.nodes i).name) : LeftAlone uid gid s s' := by
  refine .entries housed (.set tmp mounts links types (by rw [ops]) name) fun j shut => ?_
  have other : j ≠ i := fun same => open_ (same ▸ shut)
  rw [tmp]
  exact congrArg TmpfsNode.label (Function.update_of_ne other _ _)

theorem LeftAlone.made (housed : Housed s) {n : TmpfsNode}
    (made : Makes (MayWrite s.tmp uid gid) uid gid s.tmp s'.tmp d n)
    (mounts : s'.devDir = s.devDir ∧ s'.mntDir = s.mntDir) : LeftAlone uid gid s s' := by
  obtain ⟨kids, hosted, parent⟩ := housed
  have kin : Kin s'.tmp (withKid kids d s.tmp.count) := Kin.made ⟨hosted.tree, parent⟩ made
  have labels : ∀ j < s.tmp.count, (s'.tmp.nodes j).label = (s.tmp.nodes j).label := by
    intro j low
    rw [made.after]
    exact grow_label made.bound (Nat.ne_of_lt low)
  have count : s'.tmp.count = s.tmp.count + 1 := by
    rw [made.after]
    rfl
  refine ⟨⟨_, ⟨kin.tree, fun e he => ?_⟩, kin.parent⟩, ?_, fun j low _ => labels j low, fun e _ shut => ?_⟩
  · rw [mounts.1, mounts.2] at he
    obtain ⟨below, isDir⟩ := hosted.dirs e he
    rw [(TmpfsNode.label_eq (labels e below)).type, count]
    exact ⟨Nat.lt_succ_of_lt below, isDir⟩
  · rw [count]
    exact Nat.le_succ _
  · have other : e ≠ d := fun same => shut.2 (same ▸ made.writable)
    rw [kin.tree.children, hosted.tree.children, withKid, Function.update_of_ne other]

theorem LeftAlone.removed (housed : Housed s) (removed : Removes (MayWrite s.tmp uid gid) s.tmp s'.tmp d i)
    (mounts : s'.devDir = s.devDir ∧ s'.mntDir = s.mntDir) : LeftAlone uid gid s s' := by
  obtain ⟨kids, hosted, parent⟩ := housed
  have kin : Kin s'.tmp (withoutKid kids d i) := Kin.removed ⟨hosted.tree, parent⟩ removed
  have listed := removed.listed
  rw [hosted.tree.children] at listed
  refine ⟨⟨_, hosted.unchain listed removed.after mounts, kin.parent⟩, ?_, fun j _ _ => ?_, fun e _ shut => ?_⟩
  · rw [removed.after, unchain_count]
  · rw [removed.after]
    exact unchain_label s.tmp d i j
  · have other : e ≠ d := fun same => shut.2 (same ▸ removed.writable)
    rw [kin.tree.children, hosted.tree.children, withoutKid, Function.update_of_ne other]

theorem makes_leaves (housed : Housed s) {op : Files F → Nat → List Char → Files F × Int}
    (foreign : F → Place → List Char → F × Int) (makes : MakesOrFails op)
    (keeps : ∀ d name, (op s d name).1.devDir = s.devDir ∧ (op s d name).1.mntDir = s.mntDir) :
    LeftAlone who.uid who.gid s (parentCall fs s (dirOp s op foreign) true who path).1 := by
  have mounts := @parentCall_mounts _ fs _ who path _ foreign true keeps
  obtain ⟨kids, hosted, parent⟩ := housed
  have settled : ∀ d name, resolveParentDir fs s who path = .ok (.tmp d, name) → d < s.tmp.count :=
    fun d name found => (hosted.parentDir fs found).1
  rcases makes_cases fs hosted.tree foreign makes settled with ⟨same, -⟩ | ⟨-, d, n, name, -, made⟩
  · exact .same ⟨kids, hosted, parent⟩ same mounts
  · exact .made ⟨kids, hosted, parent⟩ made mounts

theorem processCreate_leaves (housed : Housed s) : LeftAlone who.uid who.gid s (processCreate fs s who path).1 :=
  makes_leaves fs housed fs.create tmpfsDirCreate_makes (tmpfsDirCreate_mounts s)

theorem processMkdir_leaves (housed : Housed s) : LeftAlone who.uid who.gid s (processMkdir fs s who path).1 :=
  makes_leaves fs housed fs.mkdir tmpfsDirMkdir_makes (tmpfsDirMkdir_mounts s)

theorem processUnlink_leaves (housed : Housed s) : LeftAlone who.uid who.gid s (processUnlink fs s who path).1 := by
  have mounts := @parentCall_mounts _ fs _ who path _ fs.unlink false (tmpfsDirUnlink_mounts s)
  rcases @processUnlink_cases F fs s who path with ⟨same, -⟩ | ⟨-, d, i, name, -, removed⟩
  · exact .same housed same mounts
  · exact .removed housed removed mounts

/-- O_CREAT and O_TRUNC come before the check of the file, and spare what is shut all the same. -/
theorem processOpen_leaves (housed : Housed s) (k : Kernel) (p : Nat) (flags : Nat) :
    LeftAlone (k.procs p).uid (k.procs p).gid s (processOpen (vfsTree fs) k s p path flags).2.1 := by
  have located : LeftAlone (k.procs p).uid (k.procs p).gid s (locate (vfsTree fs) s (k.procs p) path flags).1 :=
    locate_keeps fs (LeftAlone (k.procs p).uid (k.procs p).gid s)
      (fun _ before => before.trans (processCreate_leaves fs before.housed))
      (fun _ before => before.trans (processUnlink_leaves fs before.housed)) flags (.same housed rfl ⟨rfl, rfl⟩)
  rwa [processOpen_files]

theorem processChmod_leaves (housed : Housed s) (chmodElsewhere : F → Nat → Word → F) (plain : who.uid ≠ 0#64)
    (mode : Word) : LeftAlone who.uid who.gid s (processChmod fs chmodElsewhere s who path mode).1 := by
  unfold processChmod
  split
  · exact .same housed rfl ⟨rfl, rfl⟩
  · rename_i node found
    split
    · exact .same housed rfl ⟨rfl, rfl⟩
    · rename_i allowed
      cases node with
      | foreign j => exact .same housed rfl ⟨rfl, rfl⟩
      | tmp i =>
        have owner : (s.tmp.nodes i).uid = who.uid := by_contra fun other => allowed ⟨plain, fun same => other same.symm⟩
        exact .set housed (fun shut => shut.1 owner) rfl ⟨rfl, rfl⟩ ⟨rfl, rfl⟩ ⟨rfl, rfl⟩ rfl rfl

theorem processChown_refused (plain : who.uid ≠ 0#64) (newUid newGid : Word) :
    (processChown fs s who path newUid newGid).1 = s := by
  unfold processChown
  split
  · rfl
  · rw [if_pos plain]

end Nodes

section Writes

variable {F : Type} {s s' : Files F} {uid gid : Word} {i : Nat} {bytes src fresh after : Nat → BitVec 8}
  {count offset : Word} {n : Int}

theorem arrayPut_leaves (housed : Housed s) (open_ : ¬ Shut s.tmp uid gid i) :
    LeftAlone uid gid s (arrayPut s bytes i src count offset).1 := by
  unfold arrayPut
  dsimp only
  split
  · exact .set housed open_ rfl ⟨rfl, rfl⟩ ⟨rfl, rfl⟩ ⟨rfl, rfl⟩ rfl rfl
  · exact .set housed open_ rfl ⟨rfl, rfl⟩ ⟨rfl, rfl⟩ ⟨rfl, rfl⟩ rfl rfl

theorem arrayWrite_leaves (housed : Housed s) (open_ : ¬ Shut s.tmp uid gid i)
    (done : arrayWrite s bytes i src fresh count offset = some ((s', after), n)) : LeftAlone uid gid s s' := by
  unfold arrayWrite at done
  dsimp only at done
  split at done
  · obtain ⟨pages, -, result⟩ := Option.map_eq_some_iff.mp done
    split at result
    · split at result
      · cases result
        exact .same housed rfl ⟨rfl, rfl⟩
      · obtain rfl := congrArg (fun r => r.1.1) result
        have taken : LeftAlone uid gid s { s with pmm := (pmmAllocPages s.pmm pages.toNat).1 } := .same housed rfl ⟨rfl, rfl⟩
        exact taken.trans (arrayPut_leaves taken.housed open_)
    · obtain rfl := congrArg (fun r => r.1.1) result
      have grown : LeftAlone uid gid s { s with
          tmp := s.tmp.set i { s.tmp.nodes i with
            data := some (pmmAllocPages s.pmm pages.toNat).2, capacity := pages * 4096#64 }
          pmm := pmmFreePages (pmmAllocPages s.pmm pages.toNat).1 ((s.tmp.nodes i).data.getD 0) (s.tmp.nodes i).pages } :=
        .set housed open_ rfl ⟨rfl, rfl⟩ ⟨rfl, rfl⟩ ⟨rfl, rfl⟩ rfl rfl
      refine grown.trans (arrayPut_leaves grown.housed fun shut => open_ ?_)
      unfold Shut MayWrite at shut ⊢
      simpa [Tmpfs.set] using shut
  · obtain rfl := congrArg (fun r => r.1.1) (Option.some.inj done)
    exact arrayPut_leaves housed open_

end Writes

/-! Whole runs -/

section Runs

variable {F : Type} {fs : Foreign F} {chmodElsewhere : F → Nat → Word → F}
  {transferElsewhere : F → Vnode → Word → Word → F × Int} {elsewhere : F → Nat → FileReader}
  {start r r' : Realm F} {p q : Nat} {deed : Deed} {result : Int} {uid gid : Word} {family : Nat → Prop}

/-- Whatever is shut to the user is left alone, bytes included. -/
structure Harmless (uid gid : Word) (r r' : Realm F) : Prop where
  files : LeftAlone uid gid r.files r'.files
  bytes : ∀ i < r.files.tmp.count, Shut r.files.tmp uid gid i → r'.bytes i = r.bytes i

theorem Harmless.trans {r'' : Realm F} (h : Harmless uid gid r r') (h' : Harmless uid gid r' r'') :
    Harmless uid gid r r'' := by
  refine ⟨h.files.trans h'.files, fun i low shut => ?_⟩
  have still : Shut r'.files.tmp uid gid i := shut.label (h.files.labels i low shut)
  exact (h'.bytes i (Nat.lt_of_lt_of_le low h.files.count) still).trans (h.bytes i low shut)

theorem Harmless.of_files (files : LeftAlone uid gid r.files r'.files) (bytes : r'.bytes = r.bytes) :
    Harmless uid gid r r' :=
  ⟨files, fun i _ _ => by rw [bytes]⟩

theorem Harmless.same (housed : Housed r.files) (tmp : r'.files.tmp = r.files.tmp)
    (mounts : r'.files.devDir = r.files.devDir ∧ r'.files.mntDir = r.files.mntDir) (bytes : r'.bytes = r.bytes) :
    Harmless uid gid r r' :=
  .of_files (.same housed tmp mounts) bytes

theorem Housed.seen (housed : Housed r.files) : Housed r.seen := by
  obtain ⟨kids, hosted, parent⟩ := housed
  exact ⟨kids, ⟨hosted.tree, hosted.dirs⟩, parent⟩

theorem LeftAlone.seen {s : Files F} (h : LeftAlone uid gid r.seen s) : LeftAlone uid gid r.files s :=
  ⟨h.housed, h.count, h.labels, h.children⟩

/-- The write bit is checked at every write, whatever the descriptor was opened for. -/
theorem processWrite_checked {fd i : Nat} {v : Vnode} {offset : Word}
    (performs : Isunux.processWrite (vfsTree fs) r.kernel r.seen q fd = .performs v offset) (file : tmpfsFile v = some i) :
    MayWrite r.files.tmp (r.kernel.procs q).uid (r.kernel.procs q).gid i := by
  obtain ⟨low, rfl⟩ := tmpfsFile_some file
  have place : placeOf (fileId i) = .tmp i := by
    unfold placeOf fileId
    rw [if_pos (by omega), show 2 * i / 2 = i by omega]
  have checked : (vfsTree fs).checkPerm r.seen (.node (fileId i)) (r.kernel.procs q).uid (r.kernel.procs q).gid
      .write = true := by
    unfold Isunux.processWrite transfer at performs
    dsimp only at performs
    split at performs
    · cases performs
    split at performs
    · cases performs
    split at performs
    · cases performs
    split at performs
    · cases performs
    split at performs
    · cases performs
    · rename_i allowed
      cases performs
      simpa using allowed
  unfold vfsTree at checked
  dsimp only at checked
  rwa [place] at checked

theorem processWrite_harmless (housed : Housed r.files) {fd : Nat} {src fresh : Nat → BitVec 8} {count : Word}
    (done : r.processWrite fs transferElsewhere q fd src fresh count = some (r', result)) :
    Harmless (r.kernel.procs q).uid (r.kernel.procs q).gid r r' := by
  unfold Realm.processWrite at done
  split at done
  · cases done
    exact .same housed rfl ⟨rfl, rfl⟩ rfl
  · cases done
  · rename_i v offset performs
    split at done
    · rename_i i file
      obtain ⟨⟨⟨s, after⟩, n⟩, written, eq⟩ := Option.map_eq_some_iff.mp done
      cases eq
      have open_ : ¬ Shut r.files.tmp (r.kernel.procs q).uid (r.kernel.procs q).gid i :=
        fun shut => shut.2 (processWrite_checked performs file)
      refine ⟨(arrayWrite_leaves housed.seen open_ written).seen, fun j _ shut => ?_⟩
      have other : j ≠ i := fun same => open_ (same ▸ shut)
      exact Function.update_of_ne other _ _
    · cases done
      exact .same housed rfl ⟨rfl, rfl⟩ rfl

theorem processRead_harmless (housed : Housed r.files) {fd : Nat} {count : Word}
    (done : r.processRead fs transferElsewhere q fd count = some (r', result)) : Harmless uid gid r r' := by
  unfold Realm.processRead at done
  split at done
  · cases done
    exact .same housed rfl ⟨rfl, rfl⟩ rfl
  · cases done
  · split at done
    · cases done
      exact .same housed rfl ⟨rfl, rfl⟩ rfl
    · cases done
      exact .same housed rfl ⟨rfl, rfl⟩ rfl

theorem call_harmless (housed : Housed r.files) (plain : (r.kernel.procs q).uid ≠ 0#64)
    (done : r.call fs chmodElsewhere transferElsewhere elsewhere q deed = some (r', result)) :
    Harmless (r.kernel.procs q).uid (r.kernel.procs q).gid r r' := by
  cases deed with
  | opens path flags =>
    cases done
    exact .of_files (processOpen_leaves fs housed.seen r.kernel q flags).seen rfl
  | read fd count => exact processRead_harmless housed done
  | write fd src fresh count => exact processWrite_harmless housed done
  | mkdir path =>
    cases done
    exact .of_files (processMkdir_leaves fs housed.seen).seen rfl
  | create path =>
    cases done
    exact .of_files (processCreate_leaves fs housed.seen).seen rfl
  | unlink path =>
    cases done
    exact .of_files (processUnlink_leaves fs housed.seen).seen rfl
  | chmod path mode =>
    cases done
    exact .of_files (processChmod_leaves fs housed.seen chmodElsewhere plain mode).seen rfl
  | chown path newUid newGid =>
    cases done
    have refused : (processChown fs r.seen (r.kernel.procs q) path newUid newGid).1 = r.seen :=
      processChown_refused fs plain newUid newGid
    rw [refused]
    exact .same housed rfl ⟨rfl, rfl⟩ rfl
  | chdir path =>
    unfold Realm.call at done
    dsimp only at done
    split at done
    · cases done
      exact .same housed rfl ⟨rfl, rfl⟩ rfl
    · cases done
      exact .same housed rfl ⟨rfl, rfl⟩ rfl
  | setuid _ | setgid _ | fork _ | dup2 _ _ | close _ =>
    cases done
    exact .same housed rfl ⟨rfl, rfl⟩ rfl
  | exec path argv envp seed =>
    have after := congrArg Prod.fst (Option.some.inj done)
    have kept : (r.doExec fs elsewhere q path argv envp seed).1.files = r.files ∧
        (r.doExec fs elsewhere q path argv envp seed).1.bytes = r.bytes := by
      unfold Realm.doExec
      dsimp only
      split
      · exact ⟨rfl, rfl⟩
      split
      · exact ⟨rfl, rfl⟩
      split <;> exact ⟨rfl, rfl⟩
    dsimp only at after
    rw [after] at kept
    exact .same housed (congrArg Files.tmp kept.1) ⟨congrArg Files.devDir kept.1, congrArg Files.mntDir kept.1⟩ kept.2

/-- A call other than fork leaves every process its owner, group and pid. -/
theorem call_ids (plain : (r.kernel.procs q).uid ≠ 0#64)
    (done : r.call fs chmodElsewhere transferElsewhere elsewhere q deed = some (r', result)) :
    (∃ point, deed = .fork point) ∨ deed.offspring r.kernel q = none ∧ SameIds r.kernel r'.kernel := by
  cases deed with
  | fork point => exact .inl ⟨point, rfl⟩
  | opens path flags =>
    cases done
    exact .inr ⟨rfl, (processOpen_ids (vfsTree fs) r.kernel r.seen q path flags).trans (.of_procs rfl rfl)⟩
  | read fd count =>
    refine .inr ⟨rfl, ?_⟩
    have done : r.processRead fs transferElsewhere q fd count = some (r', result) := done
    unfold Realm.processRead at done
    split at done
    · cases done
      exact .refl _
    · cases done
    · split at done
      · cases done
        exact advanceOffset_ids _ _ _ _
      · cases done
        exact advanceOffset_ids _ _ _ _
  | write fd src fresh count =>
    refine .inr ⟨rfl, ?_⟩
    have done : r.processWrite fs transferElsewhere q fd src fresh count = some (r', result) := done
    unfold Realm.processWrite at done
    split at done
    · cases done
      exact .refl _
    · cases done
    · split at done
      · obtain ⟨⟨⟨s, after⟩, n⟩, -, eq⟩ := Option.map_eq_some_iff.mp done
        cases eq
        exact (advanceOffset_ids r.kernel q fd n).trans (.of_procs rfl rfl)
      · cases done
        exact advanceOffset_ids _ _ _ _
  | mkdir _ | create _ | unlink _ | chmod _ _ | chown _ _ _ =>
    cases done
    exact .inr ⟨rfl, .of_procs rfl rfl⟩
  | chdir path =>
    refine .inr ⟨rfl, ?_⟩
    unfold Realm.call at done
    dsimp only at done
    split at done
    · cases done
      exact .refl _
    · cases done
      exact .of_update rfl rfl ⟨rfl, rfl, rfl⟩
  | setuid uid =>
    cases done
    exact .inr ⟨rfl, processSetuid_ids plain uid⟩
  | setgid gid =>
    cases done
    exact .inr ⟨rfl, processSetgid_ids plain gid⟩
  | exec path argv envp seed =>
    refine .inr ⟨rfl, ?_⟩
    have after := congrArg Prod.fst (Option.some.inj done)
    have same : SameIds r.kernel (r.doExec fs elsewhere q path argv envp seed).1.kernel := by
      unfold Realm.doExec
      dsimp only
      split
      · exact .refl _
      split
      · exact .refl _
      split
      · exact .refl _
      · exact execFile_ids r.caller q _ _ _ seed
    dsimp only at after
    rwa [after] at same
  | dup2 oldfd newfd =>
    cases done
    exact .inr ⟨rfl, processDup2_ids r.kernel q oldfd newfd⟩
  | close fd =>
    cases done
    exact .inr ⟨rfl, processClose_ids r.kernel q fd⟩

theorem call_fork {point : Word}
    (done : r.call fs chmodElsewhere transferElsewhere elsewhere q (.fork point) = some (r', result)) :
    r'.kernel = (doFork r.kernel point r.caller.frame).1 := by
  cases done
  rfl

/-- The family is still of the one user and group, and what was shut to them is as it was. -/
structure Confined (start : Realm F) (uid gid : Word) (family : Nat → Prop) (r : Realm F) : Prop where
  members : ∀ q, family q → (r.kernel.procs q).uid = uid ∧ (r.kernel.procs q).gid = gid ∧ (r.kernel.procs q).pid ≠ 0
  pids : 0 < r.kernel.nextPid
  harmless : Harmless uid gid start r

theorem Confined.call (h : Confined start uid gid family r) (user : uid ≠ 0#64) (member : family q)
    (current : r.kernel.currentProcess = some q)
    (done : r.call fs chmodElsewhere transferElsewhere elsewhere q deed = some (r', result)) :
    Confined start uid gid (fun i => family i ∨ deed.offspring r.kernel q = some i) r' := by
  obtain ⟨owner, group, live⟩ := h.members q member
  have plain : (r.kernel.procs q).uid ≠ 0#64 := owner ▸ user
  have harmless := call_harmless h.harmless.files.housed plain done
  rw [owner, group] at harmless
  rcases call_ids plain done with ⟨point, rfl⟩ | ⟨childless, same⟩
  · have forked := doFork_ids current live point r.caller.frame
    rw [← call_fork done] at forked
    unfold Deed.offspring
    cases slot : (processAlloc r.kernel (r.kernel.procs q).pid).2 with
    | none =>
      rw [slot] at forked
      refine ⟨fun i known => ?_, ?_, h.harmless.trans harmless⟩
      · rw [forked]
        exact h.members i (known.resolve_right nofun)
      · rw [forked]
        exact h.pids
    | some child =>
      rw [slot] at forked
      obtain ⟨-, childUid, childGid, childPid, others, next⟩ := forked
      have pids := h.pids
      refine ⟨fun i known => ?_, by omega, h.harmless.trans harmless⟩
      by_cases isChild : i = child
      · rw [isChild, childUid, childGid, childPid]
        exact ⟨owner, group, by omega⟩
      · have old : family i := known.resolve_right fun same => isChild (Option.some.inj same).symm
        obtain ⟨uid', gid', pid'⟩ := others i isChild
        rw [uid', gid', pid']
        exact h.members i old
  · refine ⟨fun i known => ?_, same.next ▸ h.pids, h.harmless.trans harmless⟩
    obtain ⟨uid', gid', pid'⟩ := same.ids i
    rw [uid', gid', pid']
    rw [childless] at known
    exact h.members i (known.resolve_right nofun)

theorem Acts.confined (housed : Housed start.files) (user : (start.kernel.procs p).uid ≠ 0#64)
    (live : (start.kernel.procs p).pid ≠ 0) (pids : 0 < start.kernel.nextPid)
    (acts : Acts fs chmodElsewhere transferElsewhere elsewhere start p family r) :
    Confined start (start.kernel.procs p).uid (start.kernel.procs p).gid family r := by
  induction acts with
  | none =>
    refine ⟨?_, pids, .same housed rfl ⟨rfl, rfl⟩ rfl⟩
    rintro q rfl
    exact ⟨rfl, rfl, live⟩
  | switch before task cpu frame ih =>
    exact ⟨ih.members, ih.pids, ih.harmless.files, ih.harmless.bytes⟩
  | call before member current done ih => exact ih.call user member current done

/-- Processes that are not root's stay what they are, and neither they nor their descendants
change a node of tmpfs that is shut to them in a directory that is shut to them. -/
theorem non_root_confined (housed : Housed start.files) (user : (start.kernel.procs p).uid ≠ 0#64)
    (live : (start.kernel.procs p).pid ≠ 0) (pids : 0 < start.kernel.nextPid)
    (acts : Acts fs chmodElsewhere transferElsewhere elsewhere start p family r) :
    let uid := (start.kernel.procs p).uid
    let gid := (start.kernel.procs p).gid
    (∀ q, family q → (r.kernel.procs q).uid = uid ∧ (r.kernel.procs q).gid = gid) ∧
    ∀ i < start.files.tmp.count, Shut start.files.tmp uid gid i →
      Shut start.files.tmp uid gid (start.files.tmp.nodes i).parent →
      let before := start.files.tmp.nodes i
      let after := r.files.tmp.nodes i
      r.bytes i = start.bytes i ∧ after.size = before.size ∧ after.name = before.name ∧
        after.parent = before.parent ∧ after.mode = before.mode ∧ after.uid = before.uid ∧ after.gid = before.gid ∧
        (i ∈ start.files.tmp.children before.parent → i ∈ r.files.tmp.children after.parent) := by
  intro uid gid
  have confined := acts.confined housed user live pids
  refine ⟨fun q member => ?_, fun i low shut parentShut => ?_⟩
  · obtain ⟨owner, group, -⟩ := confined.members q member
    exact ⟨owner, group⟩
  · have same := TmpfsNode.label_eq (confined.harmless.files.labels i low shut)
    have above : (start.files.tmp.nodes i).parent < start.files.tmp.count := by
      obtain ⟨kids, hosted, -⟩ := housed
      exact (hosted.tree.upward i low).2
    refine ⟨confined.harmless.bytes i low shut, same.size, same.name, same.parent, same.owner.2.2, same.owner.1,
      same.owner.2.1, fun listed => ?_⟩
    rw [same.parent, confined.harmless.files.children _ above parentShut]
    exact listed

end Runs

/-- A file system that has only the root directory, and root's file `/a` in it. -/
def bareFiles : Files Unit := ⟨tmpfsInit, eightPages, fun _ _ => 0#64, (), 0, 0⟩

def rootsFile : Files Unit := (processCreate consoleOnly bareFiles { Process.zero with cwd := ['/'] } ['/', 'a']).1

theorem bareFiles_housed : Housed bareFiles := by
  refine ⟨fun _ => [], ⟨tmpfsInit_ok, fun d mount => ?_⟩, nofun⟩
  rcases mount with rfl | rfl
  · exact ⟨by decide, rfl⟩
  · exact ⟨by decide, rfl⟩

theorem rootsFile_housed : Housed rootsFile := (processCreate_leaves consoleOnly bareFiles_housed).housed

def guestRealm : Realm Unit where
  caller :=
    { kernel :=
        { atBoot.kernel with
          tasks := fun t => { atBoot.kernel.tasks t with proc := if t = 0 then some 0 else none }
          current := 0
          procs := fun i => if i = 0 then { Process.zero with uid := 7#64, gid := 7#64, pid := 1, cwd := ['/'] } else .zero
          nextPid := 2 }
      cpu := ⟨0, 0#64⟩
      frame := zeroFrameRegs }
  files := rootsFile
  bytes := fun _ _ => 42#8

def silentReader : Unit → Nat → FileReader := fun _ _ => ⟨fun _ _ => .error (-eio), nofun⟩

def guestCall (r : Realm Unit) (deed : Deed) : Option (Realm Unit × Int) :=
  r.call consoleOnly (fun _ _ _ => ()) nothingElse silentReader 0 deed

/-- The guest forks, and tries to open the file with O_WRONLY and O_TRUNC. -/
theorem guest_confined :
    ∃ family r, Acts consoleOnly (fun _ _ _ => ()) nothingElse silentReader guestRealm 0 family r ∧ family 1 ∧
      (r.kernel.procs 1).uid = 7#64 ∧ r.bytes 1 = guestRealm.bytes 1 ∧ (r.files.tmp.nodes 1).mode = 0o644#64 ∧
      1 ∈ r.files.tmp.children (r.files.tmp.nodes 1).parent := by
  obtain ⟨⟨forked, pid⟩, fork⟩ := Option.isSome_iff_exists.mp (show (guestCall guestRealm (.fork 0#64)).isSome from rfl)
  have current : forked.kernel.currentProcess = some 0 := by
    rw [call_fork fork]
    decide +kernel
  obtain ⟨⟨after, fd⟩, opens⟩ := Option.isSome_iff_exists.mp
    (show (guestCall forked (.opens ['/', 'a'] 0x201)).isSome from rfl)
  have acts := Acts.call (Acts.call .none rfl rfl fork) (.inl rfl) current opens
  have shut : ∀ i, i = 0 ∨ i = 1 → Shut guestRealm.files.tmp 7#64 7#64 i := by
    rintro i (rfl | rfl)
    · exact ⟨by decide +kernel, by unfold MayWrite; decide +kernel⟩
    · exact ⟨by decide +kernel, by unfold MayWrite; decide +kernel⟩
  have child : (Deed.fork 0#64).offspring guestRealm.kernel 0 = some 1 := by decide +kernel
  have confined := non_root_confined rootsFile_housed (by decide) (by decide) (by decide) acts
  obtain ⟨bytes, -, -, -, mode, -, -, listed⟩ := confined.2 1 (by decide +kernel) (shut 1 (.inr rfl))
    (shut _ (.inl (by decide +kernel)))
  refine ⟨_, after, acts, .inl (.inr child), (confined.1 1 (.inl (.inr child))).1, bytes, ?_, ?_⟩
  · rw [mode]
    decide +kernel
  · exact listed (by decide +kernel)

end Isunux
