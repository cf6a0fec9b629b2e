import Isunux.Vfs
import Isunux.Fat

/-! The three file systems behind one tree: tmpfs, the devices on one of its directories
and the FAT volume on another. Every lookup in the volume takes a fresh vnode from the
driver's pool, so resolving a path changes the state; it gives nothing where a loop of
the driver runs out of fuel. -/
namespace Isunux

def eperm : Int := 1

/-- What devfs and the FAT driver keep. Devices have an owner, a group and a mode. The
owner and group of a pool vnode stand here, its mode in the node. -/
structure Drivers where
  devices : Nat → Word × Word × Word
  fat : Fat
  fatOwner : Nat → Word × Word

namespace Mounts

/-- A slot of the tmpfs pool, a device, or a slot of the pool of the FAT driver. -/
inductive Vnode where
  | tmp (i : Nat)
  | dev (k : Nat)
  | fat (j : Nat)
  deriving DecidableEq

/-! devfs.c -/

/-- `devices`. -/
def devNames : List (List Char) := [['t', 't', 'y'], ['n', 'u', 'l', 'l'], ['z', 'e', 'r', 'o']]

def devfsLookup (name : List Char) : Option Nat := devNames.findIdx? fun n => n = name

def devfsReaddir (index size : Nat) : Option (List Char) := (devNames[index]?).map (copyName size)

/-! Names: the FAT driver compares bytes. -/

def nameBytes (name : List Char) : List (BitVec 8) := name.map fun c => BitVec.ofNat 8 c.toNat

def bytesName (bytes : List (BitVec 8)) : List Char := bytes.map fun b => Char.ofNat b.toNat

/-! Vnodes -/

/-- The directory operations behind `vnode->ops`. -/
inductive DirOps where
  | none
  | tmpfs (d : Nat)
  | devfs
  -- the mount point itself, or a node of the pool
  | fat (dir : Option Nat)

section Nodes

variable (s : Files Drivers)

def dirOps : Vnode → DirOps
  | .tmp i =>
    match (s.tmp.nodes i).ops with
    | .tmpfsFile => .none
    | .tmpfsDir => .tmpfs i
    | .foreign => if i = s.devDir then .devfs else .fat none
  | .dev _ => .none
  | .fat j => if (s.other.fat.nodes j).type = .dir then .fat (some j) else .none

def typeOf : Vnode → NodeType
  | .tmp i => (s.tmp.nodes i).type
  | .dev _ => .file
  | .fat j => (s.other.fat.nodes j).type

def parentOf : Vnode → Vnode
  | .tmp i => .tmp (s.tmp.nodes i).parent
  | .dev _ => .tmp s.devDir
  | .fat j =>
    match (s.other.fat.nodes j).parent with
    | none => .tmp s.mntDir
    | some dir => .fat dir

/-- `uid`, `gid` and `mode`. -/
def ownerOf : Vnode → Word × Word × Word
  | .tmp i => ((s.tmp.nodes i).uid, (s.tmp.nodes i).gid, (s.tmp.nodes i).mode)
  | .dev k => s.other.devices k
  | .fat j => ((s.other.fatOwner j).1, (s.other.fatOwner j).2, (s.other.fat.nodes j).mode)

def setOwner (owner : Word × Word × Word) : Vnode → Files Drivers
  | .tmp i => { s with tmp := s.tmp.set i { s.tmp.nodes i with uid := owner.1, gid := owner.2.1, mode := owner.2.2 } }
  | .dev k => { s with other := { s.other with devices := Function.update s.other.devices k owner } }
  | .fat j =>
    { s with other := { s.other with
      fat := { s.other.fat with
        nodes := Function.update s.other.fat.nodes j { s.other.fat.nodes j with mode := owner.2.2 } }
      fatOwner := Function.update s.other.fatOwner j (owner.1, owner.2.1) } }

/-- What `ops->stat` finds, 0 without it. -/
def sizeOf : Vnode → Word
  | .tmp i => if (s.tmp.nodes i).ops = .tmpfsFile then (s.tmp.nodes i).size else 0#64
  | .dev _ => 0#64
  | .fat j =>
    if (s.other.fat.nodes j).type = .dir then 0#64 else BitVec.ofNat 64 (s.other.fat.nodes j).priv.fileSize

/-- The state after a call of the FAT driver. The vnodes that it took from the pool have
been zeroed, so they are root's. -/
def withFat (fat : Fat) : Files Drivers :=
  { s with other := { s.other with
    fat := fat
    fatOwner := fun j => if s.other.fat.count ≤ j ∧ j < fat.count then (0#64, 0#64) else s.other.fatOwner j } }

end Nodes

section Calls

variable (g : Geometry) (fuel : Nat) (s : Files Drivers)

/-- `ops->lookup`, nothing found where there is none. -/
def lookup (dir : Vnode) (name : List Char) : Option (Files Drivers × Option Vnode) :=
  match dirOps s dir with
  | .none => some (s, none)
  | .tmpfs d => some (s, (tmpfsDirLookup s.tmp d name).map .tmp)
  | .devfs => some (s, (devfsLookup name).map .dev)
  | .fat d => (fatDirLookup g fuel s.other.fat d (nameBytes name)).map fun r => (withFat s r.1, r.2.map .fat)

/-- `ops->readdir`: a name, or nothing past the last entry. -/
def readdir (dir : Vnode) (index size : Nat) : Option (Files Drivers × Except Int (Option (List Char))) :=
  match dirOps s dir with
  | .none => some (s, .error (-enotdir))
  | .tmpfs d => some (s, .ok (tmpfsDirReaddir s.tmp d index size))
  | .devfs => some (s, .ok (devfsReaddir index size))
  | .fat d =>
    (fatDirReaddir g fuel s.other.fat d index size).map fun r => (withFat s r.1, .ok (r.2.map bytesName))

/-! vfs.c -/

/-- The loop of `vfs_resolve_path`; every round consumes a character. -/
def resolveLoop : Nat → Files Drivers → Vnode → List Char → Option (Files Drivers × Option Vnode)
  | 0, s, current, _ => some (s, some current)
  | _ + 1, s, current, [] => some (s, some current)
  | n + 1, s, current, p =>
    let r := takeComponent (vfsMaxName - 1) p
    let rest := if r.2.head? = some '/' then r.2.tail else r.2
    if r.1 = [] ∨ r.1 = ['.'] then resolveLoop n s current rest
    else if r.1 = ['.', '.'] then resolveLoop n s (parentOf s current) rest
    else
      match lookup g fuel s current r.1 with
      | none => none
      | some (s, none) => some (s, none)
      | some (s, some next) => resolveLoop n s next rest

def vfsResolvePath : List Char → Option (Files Drivers × Option Vnode)
  | '/' :: p => resolveLoop g fuel p.length s (.tmp 0) p
  | _ => some (s, none)

def vfsResolvePathCwd (cwd path : List Char) : Option (Files Drivers × Option Vnode) :=
  vfsResolvePath g fuel s (vfsCombinePath cwd path)

def vfsReaddirPath (cwd path : List Char) (index size : Nat) :
    Option (Files Drivers × Except Int (Option (List Char))) :=
  match vfsResolvePathCwd g fuel s cwd path with
  | none => none
  | some (s, none) => some (s, .error (-enoent))
  | some (s, some node) => if typeOf s node ≠ .dir then some (s, .error (-enotdir)) else readdir g fuel s node index size

/-! process.c -/

def resolveParentDir (who : Process) (path : List Char) : Option (Files Drivers × Except Int (Vnode × List Char)) :=
  let split := vfsSplitPath (vfsCombinePath who.cwd path)
  if split.2 = [] then some (s, .error (-einval))
  else
    match vfsResolvePath g fuel s split.1 with
    | none => none
    | some (s, none) => some (s, .error (-enoent))
    | some (s, some dir) =>
      if typeOf s dir = .dir then some (s, .ok (dir, split.2)) else some (s, .error (-enotdir))

/-- One of `ops->create`, `ops->mkdir` and `ops->unlink`; devfs has none of them. -/
def dirCall (tmpfs : Files Drivers → Nat → List Char → Files Drivers × Int)
    (fat : Fat → Option Nat → List (BitVec 8) → Option (Fat × Int)) (dir : Vnode) (name : List Char) :
    Option (Files Drivers × Int) :=
  match dirOps s dir with
  | .tmpfs d => some (tmpfs s d name)
  | .fat d => (fat s.other.fat d (nameBytes name)).map fun r => (withFat s r.1, r.2)
  | _ => some (s, -erofs)

/-- Whether the directory has the three calls. -/
def hasCalls (dir : Vnode) : Bool :=
  match dirOps s dir with
  | .tmpfs _ => true
  | .fat _ => true
  | _ => false

/-- The frame that `process_mkdir`, `process_create` and `process_unlink` share. A node
that was made is looked up again and given to the caller. -/
def parentCall (op : Files Drivers → Vnode → List Char → Option (Files Drivers × Int)) (owned : Bool) (who : Process)
    (path : List Char) : Option (Files Drivers × Int) :=
  match resolveParentDir g fuel s who path with
  | none => none
  | some (s, .error e) => some (s, e)
  | some (s, .ok (dir, name)) =>
    if hasCalls s dir = false then some (s, -erofs)
    else if vfsCheckPerm (ownerOf s dir) who.uid who.gid (permBits .write) = false then some (s, -eacces)
    else
      match op s dir name with
      | none => none
      | some (s, e) =>
        if owned ∧ e = 0 then
          match lookup g fuel s dir name with
          | none => none
          | some (s, none) => some (s, e)
          | some (s, some created) => some (setOwner s (who.uid, who.gid, (ownerOf s created).2.2) created, e)
        else some (s, e)

def processMkdir (who : Process) (path : List Char) : Option (Files Drivers × Int) :=
  parentCall g fuel s (fun s => dirCall s tmpfsDirMkdir (fatDirMkdir g fuel)) true who path

def processCreate (who : Process) (path : List Char) : Option (Files Drivers × Int) :=
  parentCall g fuel s (fun s => dirCall s tmpfsDirCreate (fatDirCreate g fuel)) true who path

def processUnlink (who : Process) (path : List Char) : Option (Files Drivers × Int) :=
  parentCall g fuel s (fun s => dirCall s tmpfsDirUnlink (fatDirUnlink g fuel)) false who path

/-- `vfs_stat_t`. -/
structure VfsStat where
  type : NodeType
  size : Word
  uid : Word
  gid : Word
  mode : Word

def processStat (who : Process) (path : List Char) : Option (Files Drivers × Except Int VfsStat) :=
  match vfsResolvePathCwd g fuel s who.cwd path with
  | none => none
  | some (s, none) => some (s, .error (-enoent))
  | some (s, some node) =>
    let owner := ownerOf s node
    some (s, .ok ⟨typeOf s node, sizeOf s node, owner.1, owner.2.1, owner.2.2⟩)

def processChmod (who : Process) (path : List Char) (mode : Word) : Option (Files Drivers × Int) :=
  match vfsResolvePathCwd g fuel s who.cwd path with
  | none => none
  | some (s, none) => some (s, -enoent)
  | some (s, some node) =>
    let owner := ownerOf s node
    if who.uid ≠ 0#64 ∧ who.uid ≠ owner.1 then some (s, -eperm)
    else some (setOwner s (owner.1, owner.2.1, mode &&& 0o777#64) node, 0)

def processChown (who : Process) (path : List Char) (uid gid : Word) : Option (Files Drivers × Int) :=
  match vfsResolvePathCwd g fuel s who.cwd path with
  | none => none
  | some (s, none) => some (s, -enoent)
  | some (s, some node) =>
    if who.uid ≠ 0#64 then some (s, -eperm) else some (setOwner s (uid, gid, (ownerOf s node).2.2) node, 0)

/-- `process_create` and the second resolution in `process_open`. -/
def createAndResolve (who : Process) (path : List Char) : Option (Files Drivers × Except Int Vnode) :=
  match processCreate g fuel s who path with
  | none => none
  | some (s, e) =>
    if e < 0 then some (s, .error e)
    else
      match vfsResolvePathCwd g fuel s who.cwd path with
      | none => none
      | some (s, none) => some (s, .error (-eio))
      | some (s, some node) => some (s, .ok node)

/-- The beginning of `process_open`: the node to open. -/
def locate (who : Process) (path : List Char) (flags : Nat) : Option (Files Drivers × Except Int Vnode) :=
  match vfsResolvePathCwd g fuel s who.cwd path with
  | none => none
  | some (s, none) => if flags &&& oCreat = 0 then some (s, .error (-enoent)) else createAndResolve g fuel s who path
  | some (s, some node) =>
    if flags &&& oCreat ≠ 0 ∧ flags &&& oExcl ≠ 0 then some (s, .error (-eexist))
    else if flags &&& oTrunc ≠ 0 ∧ flags &&& oAccmode ≠ oRdonly then
      match processUnlink g fuel s who path with
      | none => none
      | some (s, e) => if e < 0 then some (s, .error e) else createAndResolve g fuel s who path
    else some (s, .ok node)

/-- `ops->read` of an open node. -/
def readNode (node : Vnode) (count offset : Word) : Files Drivers :=
  match node with
  | .fat j => withFat s (fatFileRead g s.other.fat j count.toNat offset.toNat).1
  | _ => s

/-- `ops->write` of an open node; what the devices do with the bytes is left out. -/
def writeNode (node : Vnode) (src : Nat → BitVec 8) (count offset : Word) : Option (Files Drivers × Int) :=
  match node with
  | .tmp i => tmpfsFileWrite s i src count offset
  | .dev _ => some (s, count.toInt)
  | .fat j =>
    let r := fatFileWrite g s.other.fat j src count.toNat offset.toNat
    some (withFat s r.1, r.2)

end Calls

end Mounts

end Isunux
