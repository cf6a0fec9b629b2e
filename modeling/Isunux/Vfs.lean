import Isunux.Fds
import Isunux.Lib.Chain

/-! Paths and the file tree: vfs.c, tmpfs.c and the path calls of process.c. A C
string is the list of its characters before the NUL. devfs and FAT serve the
directories they were installed on; here they are a parameter. -/
namespace Isunux

def enotdir : Int := 20
def erofs : Int := 30
def enotempty : Int := 39

def vfsMaxName : Nat := 64
def vfsMaxPath : Nat := 128
def tmpfsMaxNodes : Nat := 128

inductive NodeType where
  | file | dir
  deriving DecidableEq, Repr

/-- `vnode->ops` of a tmpfs node. `foreign` is a directory that `devfs_install` or
`fat_install` has given other operations. -/
inductive NodeOps where
  | tmpfsFile | tmpfsDir | foreign
  deriving DecidableEq, Repr

/-- `tmpfs_node_t`. `data` is the first frame of the buffer; parents are tmpfs
directories. -/
structure TmpfsNode where
  type : NodeType
  ops : NodeOps
  name : List Char
  parent : Nat
  uid : Word
  gid : Word
  mode : Word
  data : Option Nat
  size : Word
  capacity : Word
  firstChild : Option Nat
  nextSibling : Option Nat

/-- A node after `k_memset`. -/
def TmpfsNode.zero : TmpfsNode :=
  ⟨.file, .tmpfsFile, [], 0, 0#64, 0#64, 0#64, none, 0#64, 0#64, none, none⟩

/-- `node_pool` and `node_count`. The root is node 0. -/
structure Tmpfs where
  nodes : Nat → TmpfsNode
  count : Nat

def Tmpfs.set (t : Tmpfs) (i : Nat) (n : TmpfsNode) : Tmpfs :=
  { t with nodes := Function.update t.nodes i n }

/-! tmpfs.c: the tree -/

/-- `set_name`, and the copies into buffers of `VFS_MAX_NAME` bytes. -/
def setName (name : List Char) : List Char := name.take (vfsMaxName - 1)

def tmpfsAllocNode (t : Tmpfs) : Option (Tmpfs × Nat) :=
  if t.count ≥ tmpfsMaxNodes then none
  else some ({ nodes := Function.update t.nodes t.count .zero, count := t.count + 1 }, t.count)

/-- The children of a directory, in the order of its sibling list. -/
def Tmpfs.children (t : Tmpfs) (d : Nat) : List Nat :=
  Chain.follow (fun i => (t.nodes i).nextSibling) tmpfsMaxNodes (t.nodes d).firstChild

def tmpfsDirLookup (t : Tmpfs) (d : Nat) (name : List Char) : Option Nat :=
  (t.children d).find? fun i => (t.nodes i).name = name

/-- A name copied out into a buffer of `size` bytes. The bound `size - 1` wraps for an
empty buffer. -/
def copyName (size : Nat) (name : List Char) : List Char :=
  if size = 0 then name else name.take (size - 1)

/-- The name of a directory's child at an index, or nothing behind the last one. -/
def tmpfsDirReaddir (t : Tmpfs) (d index size : Nat) : Option (List Char) :=
  ((t.children d)[index]?).map fun i => copyName size (t.nodes i).name

/-- Puts a filled-in node at the head of a directory's sibling list. -/
def Tmpfs.link (t : Tmpfs) (d i : Nat) (n : TmpfsNode) : Tmpfs :=
  let t := t.set i { n with nextSibling := (t.nodes d).firstChild }
  t.set d { t.nodes d with firstChild := some i }

/-- The sibling before `i` in a list of siblings. -/
def siblingBefore (i : Nat) : List Nat → Option Nat
  | [] => none
  | [_] => none
  | a :: b :: rest => if b = i then some a else siblingBefore i (b :: rest)

/-- Takes a child out of the sibling list. -/
def Tmpfs.unchain (t : Tmpfs) (d child : Nat) : Tmpfs :=
  match siblingBefore child (t.children d) with
  | some prev => t.set prev { t.nodes prev with nextSibling := (t.nodes child).nextSibling }
  | none => t.set d { t.nodes d with firstChild := (t.nodes child).nextSibling }

def tmpfsInit : Tmpfs where
  nodes := Function.update (fun _ => .zero) 0
    { TmpfsNode.zero with type := .dir, ops := .tmpfsDir, name := ['/'], mode := 0o755#64 }
  count := 1

/-! Files and their pages -/

/-- Everything a file system call can change: the tmpfs tree, the page allocator,
memory, the state of the other file systems, and the directories that
`devfs_install` and `fat_install` were called on. -/
structure Files (F : Type) where
  tmp : Tmpfs
  pmm : Pmm
  mem : PhysMem
  other : F
  devDir : Nat
  mntDir : Nat

section Tmpfs

variable {F : Type} (s : Files F)

/-- `tmpfs_create_file`. A failed allocation is not noticed: address 0 becomes the
buffer. -/
def tmpfsCreateFile (d : Nat) (name : List Char) : Files F × Option Nat :=
  match tmpfsAllocNode s.tmp with
  | none => (s, none)
  | some (t, i) =>
    let a := pmmAllocPages s.pmm 1
    let n : TmpfsNode :=
      { TmpfsNode.zero with
        type := .file, ops := .tmpfsFile, name := setName name, parent := d, mode := 0o644#64
        data := some a.2, capacity := 4096#64 }
    ({ s with tmp := t.link d i n, pmm := a.1 }, some i)

def tmpfsCreateDir (d : Nat) (name : List Char) : Files F × Option Nat :=
  match tmpfsAllocNode s.tmp with
  | none => (s, none)
  | some (t, i) =>
    let n : TmpfsNode :=
      { TmpfsNode.zero with
        type := .dir, ops := .tmpfsDir, name := setName name, parent := d, mode := 0o755#64 }
    ({ s with tmp := t.link d i n }, some i)

def tmpfsDirCreate (d : Nat) (name : List Char) : Files F × Int :=
  match tmpfsDirLookup s.tmp d name with
  | some _ => (s, -eexist)
  | none =>
    let r := tmpfsCreateFile s d name
    (r.1, if r.2.isSome then 0 else -enomem)

def tmpfsDirMkdir (d : Nat) (name : List Char) : Files F × Int :=
  match tmpfsDirLookup s.tmp d name with
  | some _ => (s, -eexist)
  | none =>
    let r := tmpfsCreateDir s d name
    (r.1, if r.2.isSome then 0 else -enomem)

/-- The number of pages behind a file's data pointer. -/
def TmpfsNode.pages (n : TmpfsNode) : Nat := n.capacity.toNat / 4096

def tmpfsDirUnlink (d : Nat) (name : List Char) : Files F × Int :=
  match tmpfsDirLookup s.tmp d name with
  | none => (s, -enoent)
  | some i =>
    let child := s.tmp.nodes i
    if child.type = .dir ∧ child.firstChild ≠ none then (s, -enotempty)
    else
      let s' := { s with tmp := s.tmp.unchain d i }
      match child.type, child.data with
      | .file, some f => ({ s' with pmm := pmmFreePages s.pmm f child.pages }, 0)
      | _, _ => (s', 0)

/-- Byte `o` of the buffer that starts at frame `f`. -/
def bufferByte (mem : PhysMem) (f o : Nat) : BitVec 8 := byteAt (mem (f + o / 4096)) (o % 4096)

def tmpfsFileRead (i : Nat) (count offset : Word) : List (BitVec 8) :=
  let n := s.tmp.nodes i
  if n.size ≤ offset then []
  else
    let avail := n.size - offset
    let len := if count < avail then count else avail
    (List.range len.toNat).map fun j => bufferByte s.mem (n.data.getD 0) (offset.toNat + j)

/-- The index `offset + j` of a byte loop, in 64-bit arithmetic. -/
def storeIndex (offset : Word) (j : Nat) : Nat := (offset + BitVec.ofNat 64 j).toNat

/-- The byte loop of `tmpfs_file_write`. -/
def storeBytes (mem : PhysMem) (f : Nat) (offset : Word) (src : Nat → BitVec 8) (n : Nat) : PhysMem :=
  (List.range n).foldl (fun mem j =>
    storeByte mem (f + storeIndex offset j / 4096) (storeIndex offset j % 4096) (src j)) mem

/-- The doubling loop. It never ends when the product wraps before it reaches
`needed`: once the page count itself has become 0 it stays there. -/
def growPages (needed : Word) : Nat → Word → Option Word
  | 0, _ => none
  | fuel + 1, pages =>
    if pages * 4096#64 < needed then growPages needed fuel (pages * 2#64) else some pages

/-- `k_memcpy` of `n` bytes between two buffers. -/
def copyBuffer (mem : PhysMem) (dst src n : Nat) : PhysMem :=
  (List.range n).foldl (fun m j =>
    storeByte m (dst + j / 4096) (j % 4096) (bufferByte m src j)) mem

/-- What every way out of `tmpfs_file_write` does with the bytes it can place. -/
def putBytes (i : Nat) (offset : Word) (src : Nat → BitVec 8) (len : Word) : Files F :=
  let n := s.tmp.nodes i
  let n' := if n.size < offset + len then { n with size := offset + len } else n
  { s with tmp := s.tmp.set i n', mem := storeBytes s.mem (n.data.getD 0) offset src len.toNat }

/-- The growth part: a larger buffer, or nothing when memory is out. -/
def growFile (i : Nat) (pages : Word) : Option (Files F) :=
  let n := s.tmp.nodes i
  let a := pmmAllocPages s.pmm pages.toNat
  if a.2 = 0 then none
  else
    some { s with
      tmp := s.tmp.set i { n with data := some a.2, capacity := pages * 4096#64 }
      pmm := pmmFreePages a.1 (n.data.getD 0) n.pages
      mem := copyBuffer s.mem a.2 (n.data.getD 0) n.size.toNat }

/-- `tmpfs_file_write`, or nothing when it does not return. -/
def tmpfsFileWrite (i : Nat) (src : Nat → BitVec 8) (count offset : Word) : Option (Files F × Int) :=
  let n := s.tmp.nodes i
  let needed := offset + count
  if n.capacity < needed then
    let start := n.capacity / 4096#64
    (growPages needed 65 (if start = 0#64 then 1#64 else start)).map fun pages =>
      match growFile s i pages with
      | some grown => (putBytes grown i offset src count, count.toInt)
      | none =>
        -- out of memory: whatever still fits in the buffer. A failed allocation of
        -- pages that start at frame 0 has taken them all the same.
        let s := { s with pmm := (pmmAllocPages s.pmm pages.toNat).1 }
        if n.capacity < offset then (s, -enomem)
        else
          let space := n.capacity - offset
          let len := if count < space then count else space
          (putBytes s i offset src len, len.toInt)
  else some (putBytes s i offset src count, count.toInt)

end Tmpfs

/-! vfs.c: paths -/

/-- A vnode: a slot of the tmpfs pool, or a node of devfs or FAT. -/
inductive Place where
  | tmp (i : Nat)
  | foreign (j : Nat)
  deriving DecidableEq, Repr

/-- `vnode->parent` of a node of devfs or FAT. -/
inductive Up where
  | node (j : Nat)
  | dev
  | mnt
  deriving DecidableEq, Repr

/-- What the tree needs to know about devfs and FAT. A FAT node is named here by the
entry it stands for, so that looking a name up twice gives the same node. -/
structure Foreign (F : Type) where
  lookup : F → Place → List Char → Option Nat
  parent : F → Nat → Up
  name : F → Nat → List Char
  type : F → Nat → NodeType
  owner : F → Nat → Word × Word × Word
  mutable : F → Place → Bool
  create : F → Place → List Char → F × Int
  mkdir : F → Place → List Char → F × Int
  unlink : F → Place → List Char → F × Int
  chown : F → Nat → Word → Word → F
  size : F → Nat → Option Word
  reads : Nat → Bool
  writes : Nat → Bool
  console : Nat
  console_reads : reads console = true
  console_writes : writes console = true

section Paths

variable {F : Type} (fs : Foreign F) (s : Files F)

def Files.typeOf : Place → NodeType
  | .tmp i => (s.tmp.nodes i).type
  | .foreign j => fs.type s.other j

def Files.parentOf : Place → Place
  | .tmp i => .tmp (s.tmp.nodes i).parent
  | .foreign j =>
    match fs.parent s.other j with
    | .node j' => .foreign j'
    | .dev => .tmp s.devDir
    | .mnt => .tmp s.mntDir

def Files.nameOf : Place → List Char
  | .tmp i => (s.tmp.nodes i).name
  | .foreign j => fs.name s.other j

/-- `ops->lookup` of a node, or nothing where there is none. -/
def Files.lookup : Place → List Char → Option Place
  | .tmp i, name =>
    match (s.tmp.nodes i).ops with
    | .tmpfsFile => none
    | .tmpfsDir => (tmpfsDirLookup s.tmp i name).map .tmp
    | .foreign => (fs.lookup s.other (.tmp i) name).map .foreign
  | .foreign j, name => (fs.lookup s.other (.foreign j) name).map .foreign

/-- The inner loop of `vfs_resolve_path`: the characters up to a slash, but no more
than fit into the component buffer. -/
def takeComponent : Nat → List Char → List Char × List Char
  | 0, p => ([], p)
  | _ + 1, [] => ([], [])
  | room + 1, c :: p =>
    if c = '/' then ([], c :: p)
    else
      let r := takeComponent room p
      (c :: r.1, r.2)

/-- The outer loop. Every round consumes a character. -/
def resolveLoop : Nat → Place → List Char → Option Place
  | 0, current, _ => some current
  | _ + 1, current, [] => some current
  | fuel + 1, current, p =>
    let r := takeComponent (vfsMaxName - 1) p
    let rest := if r.2.head? = some '/' then r.2.tail else r.2
    if r.1 = [] ∨ r.1 = ['.'] then resolveLoop fuel current rest
    else if r.1 = ['.', '.'] then resolveLoop fuel (s.parentOf fs current) rest
    else
      match s.lookup fs current r.1 with
      | none => none
      | some next => resolveLoop fuel next rest

def vfsResolvePath : List Char → Option Place
  | '/' :: p => resolveLoop fs s p.length (.tmp 0) p
  | _ => none

/-- `vfs_combine_path` into a buffer of `VFS_MAX_PATH` bytes. -/
def vfsCombinePath (cwd path : List Char) : List Char :=
  if path.head? = some '/' then path.take (vfsMaxPath - 1)
  else
    let out := cwd.take (vfsMaxPath - 2)
    let out := if out.getLast? = some '/' then out else out ++ ['/']
    out ++ path.take (vfsMaxPath - 1 - out.length)

def vfsResolvePathCwd (cwd path : List Char) : Option Place :=
  vfsResolvePath fs s (vfsCombinePath cwd path)

def lastSlash (path : List Char) : Option Nat :=
  (List.range path.length).reverse.find? fun i => path[i]? = some '/'

/-- `vfs_split_path` into buffers of `VFS_MAX_PATH` and `VFS_MAX_NAME` bytes. -/
def vfsSplitPath (path : List Char) : List Char × List Char :=
  match lastSlash path with
  | none => (['.'], path.take (vfsMaxName - 1))
  | some 0 => (['/'], (path.drop 1).take (vfsMaxName - 1))
  | some n => (path.take (min n (vfsMaxPath - 1)), (path.drop (n + 1)).take (vfsMaxName - 1))

/-- The ancestors of a node below the root, innermost first. -/
def ancestors : Nat → Place → List Place
  | 0, _ => []
  | fuel + 1, current =>
    if s.parentOf fs current = current then [] else current :: ancestors fuel (s.parentOf fs current)

/-- `vfs_canonical_path` into a buffer of `VFS_MAX_PATH` bytes. -/
def vfsCanonicalPath (node : Place) : List Char :=
  let names := (ancestors fs s vfsMaxPath node).reverse.map (s.nameOf fs)
  ('/' :: (names.intersperse ['/']).flatten).take (vfsMaxPath - 1)

def permBits : Perm → Word
  | .read => 4#64
  | .write => 2#64

/-- `vfs_check_perm` on the owner, group and mode of a node. -/
def vfsCheckPerm (node : Word × Word × Word) (uid gid want : Word) : Bool :=
  if uid = 0#64 then true
  else
    let bits :=
      if uid = node.1 then (node.2.2 >>> 6) &&& 7#64
      else if gid = node.2.1 then (node.2.2 >>> 3) &&& 7#64
      else node.2.2 &&& 7#64
    bits &&& want == want

def Files.ownerOf : Place → Word × Word × Word
  | .tmp i => ((s.tmp.nodes i).uid, (s.tmp.nodes i).gid, (s.tmp.nodes i).mode)
  | .foreign j => fs.owner s.other j

/-! process.c: the path calls -/

def resolveParentDir (who : Process) (path : List Char) : Except Int (Place × List Char) :=
  let split := vfsSplitPath (vfsCombinePath who.cwd path)
  if split.2 = [] then .error (-einval)
  else
    match vfsResolvePath fs s split.1 with
    | none => .error (-enoent)
    | some dir => if s.typeOf fs dir = .dir then .ok (dir, split.2) else .error (-enotdir)

/-- Whether `ops->create`, `ops->mkdir` and `ops->unlink` are there. -/
def Files.mutable : Place → Bool
  | .tmp i =>
    match (s.tmp.nodes i).ops with
    | .tmpfsFile => false
    | .tmpfsDir => true
    | .foreign => fs.mutable s.other (.tmp i)
  | .foreign j => fs.mutable s.other (.foreign j)

/-- The operation a directory's table has for one of the three calls. -/
def dirOp (tmpfs : Files F → Nat → List Char → Files F × Int)
    (foreign : F → Place → List Char → F × Int) (dir : Place) (name : List Char) : Files F × Int :=
  let other : Files F × Int :=
    let r := foreign s.other dir name
    ({ s with other := r.1 }, r.2)
  match dir with
  | .tmp i => if (s.tmp.nodes i).ops = .tmpfsDir then tmpfs s i name else other
  | .foreign _ => other

/-- `devfs_install` and, for the other flag, `fat_install`. -/
def Files.install (dev : Bool) (d : Nat) : Files F :=
  let tmp := s.tmp.set d { s.tmp.nodes d with ops := .foreign }
  if dev then { s with tmp := tmp, devDir := d } else { s with tmp := tmp, mntDir := d }

def Files.chown (uid gid : Word) : Place → Files F
  | .tmp i => { s with tmp := s.tmp.set i { s.tmp.nodes i with uid := uid, gid := gid } }
  | .foreign j => { s with other := fs.chown s.other j uid gid }

/-- The frame that `process_mkdir`, `process_create` and `process_unlink` share. -/
def parentCall (op : Place → List Char → Files F × Int) (owned : Bool) (who : Process)
    (path : List Char) : Files F × Int :=
  match resolveParentDir fs s who path with
  | .error e => (s, e)
  | .ok (dir, name) =>
    if s.mutable fs dir = false then (s, -erofs)
    else if vfsCheckPerm (s.ownerOf fs dir) who.uid who.gid (permBits .write) = false then (s, -eacces)
    else
      let r := op dir name
      if owned ∧ r.2 = 0 then
        match r.1.lookup fs dir name with
        | none => r
        | some created => (r.1.chown fs who.uid who.gid created, r.2)
      else r

def processMkdir (who : Process) (path : List Char) : Files F × Int :=
  parentCall fs s (dirOp s tmpfsDirMkdir fs.mkdir) true who path

def processCreate (who : Process) (path : List Char) : Files F × Int :=
  parentCall fs s (dirOp s tmpfsDirCreate fs.create) true who path

def processUnlink (who : Process) (path : List Char) : Files F × Int :=
  parentCall fs s (dirOp s tmpfsDirUnlink fs.unlink) false who path

/-- `process_chdir`: the new working directory, or an error. The search permission
is the x bit. -/
def processChdir (who : Process) (path : List Char) : Except Int (List Char) :=
  match vfsResolvePath fs s (vfsCombinePath who.cwd path) with
  | none => .error (-enoent)
  | some node =>
    if s.typeOf fs node ≠ .dir then .error (-enotdir)
    else if vfsCheckPerm (s.ownerOf fs node) who.uid who.gid 1#64 = false then .error (-eacces)
    else .ok (vfsCanonicalPath fs s node)

end Paths

/-! The tree as the descriptor calls see it. A node number tells the pool slot and
the type, which a slot keeps for good. -/

def fileId (i : Nat) : Nat := 2 * i
def dirId (i : Nat) : Nat := 2 * i + 1
def foreignId (j : Nat) : Nat := 2 * tmpfsMaxNodes + j

def Files.idOf {F : Type} (s : Files F) : Place → Nat
  | .tmp i => if (s.tmp.nodes i).type = .file then fileId i else dirId i
  | .foreign j => foreignId j

def placeOf (id : Nat) : Place :=
  if id < 2 * tmpfsMaxNodes then .tmp (id / 2) else .foreign (id - 2 * tmpfsMaxNodes)

def isFileId (id : Nat) : Bool := id < 2 * tmpfsMaxNodes && id % 2 == 0

/-- `vfs.c`, tmpfs and the other file systems as one tree. A pipe's vnode is never
given an owner or a mode. -/
def vfsTree {F : Type} (fs : Foreign F) : FileTree (Files F) where
  resolve s cwd path := (vfsResolvePathCwd fs s cwd path).map s.idOf
  create s who path := processCreate fs s who path
  unlink s who path := processUnlink fs s who path
  checkPerm s v uid gid want :=
    match v with
    | .node id => vfsCheckPerm (s.ownerOf fs (placeOf id)) uid gid (permBits want)
    | _ => vfsCheckPerm (0#64, 0#64, 0#64) uid gid (permBits want)
  size s id :=
    match placeOf id with
    | .tmp i => if isFileId id then some (s.tmp.nodes i).size else none
    | .foreign j => fs.size s.other j
  reads id := if id < 2 * tmpfsMaxNodes then isFileId id else fs.reads (id - 2 * tmpfsMaxNodes)
  writes id := if id < 2 * tmpfsMaxNodes then isFileId id else fs.writes (id - 2 * tmpfsMaxNodes)
  console := foreignId fs.console
  console_reads := by simp [foreignId, fs.console_reads]
  console_writes := by simp [foreignId, fs.console_writes]

end Isunux
