import Isunux.TmpfsCalls

/-! Runs of the calls that reach tmpfs, by any processes and in any order, beside a
kernel that takes pages, shares them, writes to them and gives them back. Reads and
writes of nodes outside tmpfs, pipes among them, are a parameter. -/
namespace Isunux

/-- tmpfs, the descriptors and the pages held by the rest of the kernel. -/
structure Store (F : Type) where
  fds : FdWorld (Files F)
  lent : Nat → Bool

inductive StoreOp (F : Type) where
  | call (op : FdOp)
  | read (p fd : Nat) (count : Word)
  | write (p fd : Nat) (src : Nat → BitVec 8) (count : Word)
  | create (p : Nat) (path : List Char)
  | mkdir (p : Nat) (path : List Char)
  | unlink (p : Nat) (path : List Char)
  | chdir (p : Nat) (path : List Char)
  -- `vfs_init` and the installation of devfs and FAT
  | seedFile (d : Nat) (name : List Char) (src : Nat → BitVec 8) (count : Word) (mode : Word)
  | seedDir (d : Nat) (name : List Char)
  | install (dev : Bool) (d : Nat)
  -- the rest of the kernel
  | takePage
  | takePages (count : Nat)
  | sharePage (f : Nat)
  | givePage (f : Nat)
  | fillPage (f : Nat) (page : Nat → Word)
  | elsewhere (other : F)

/-- What a call hands back, or nothing when it does not return. -/
abbrev Reply := Option (Int × List (BitVec 8))

section Machine

variable {F : Type} (fs : Foreign F) (transferElsewhere : F → Vnode → Word → Word → F × Int)

def Store.files (w : Store F) : Files F := w.fds.files
def Store.kernel (w : Store F) : Kernel := w.fds.kernel

def Store.setFiles (w : Store F) (s : Files F) : Store F := { w with fds := { w.fds with files := s } }
def Store.setKernel (w : Store F) (k : Kernel) : Store F := { w with fds := { w.fds with kernel := k } }

def tmpfsFile : Vnode → Option Nat
  | .node id => if isFileId id then some (id / 2) else none
  | _ => none

/-- `if (n > 0) p->fds[fd].offset += (uint64_t)n`. -/
def advanceOffset (k : Kernel) (p fd : Nat) (n : Int) : Kernel :=
  if 0 < n then
    k.setFd p fd { (k.procs p).fds fd with offset := ((k.procs p).fds fd).offset + BitVec.ofInt 64 n }
  else k

def storeRead (w : Store F) (p fd : Nat) (count : Word) : Store F × Reply :=
  match processRead (vfsTree fs) w.kernel w.files p fd with
  | .refused e => (w, some (e, []))
  | .crashes => (w, none)
  | .performs v offset =>
    match tmpfsFile v with
    | some i =>
      let bytes := tmpfsFileRead w.files i count offset
      let n := (BitVec.ofNat 64 bytes.length).toInt
      (w.setKernel (advanceOffset w.kernel p fd n), some (n, bytes))
    | none =>
      let r := transferElsewhere w.files.other v count offset
      ((w.setKernel (advanceOffset w.kernel p fd r.2)).setFiles { w.files with other := r.1 }, some (r.2, []))

def storeWrite (w : Store F) (p fd : Nat) (src : Nat → BitVec 8) (count : Word) : Store F × Reply :=
  match processWrite (vfsTree fs) w.kernel w.files p fd with
  | .refused e => (w, some (e, []))
  | .crashes => (w, none)
  | .performs v offset =>
    match tmpfsFile v with
    | some i =>
      match tmpfsFileWrite w.files i src count offset with
      | none => (w, none)
      | some (s, n) => ((w.setKernel (advanceOffset w.kernel p fd n)).setFiles s, some (n, []))
    | none =>
      let r := transferElsewhere w.files.other v count offset
      ((w.setKernel (advanceOffset w.kernel p fd r.2)).setFiles { w.files with other := r.1 }, some (r.2, []))

/-- A file made and filled by `vfs_init`. -/
def seedFile (s : Files F) (d : Nat) (name : List Char) (src : Nat → BitVec 8) (count mode : Word) :
    Files F :=
  match tmpfsCreateFile s d name with
  | (s, none) => s
  | (s, some i) =>
    let s := ((tmpfsFileWrite s i src count 0#64).map Prod.fst).getD s
    { s with tmp := s.tmp.set i { s.tmp.nodes i with mode := mode } }

/-- A directory of the pool, as `vfs_init` and the installers are given. -/
def Tmpfs.isDir (t : Tmpfs) (d : Nat) : Bool := d < t.count && (t.nodes d).type == .dir

/-- Pages that were not lent before are now. -/
def Store.lend (w : Store F) (p : Pmm) (start count : Nat) : Store F :=
  { w.setFiles { w.files with pmm := p } with
    lent := fun f => w.lent f || (start != 0 && start ≤ f && f < start + count) }

def storeStep (w : Store F) : StoreOp F → Store F × Reply
  | .call op => let r := fdStep (vfsTree fs) w.fds op; ({ w with fds := r.1 }, some (r.2, []))
  | .read p fd count => storeRead fs transferElsewhere w p fd count
  | .write p fd src count => storeWrite fs transferElsewhere w p fd src count
  | .create p path =>
    let r := processCreate fs w.files (w.kernel.procs p) path
    (w.setFiles r.1, some (r.2, []))
  | .mkdir p path =>
    let r := processMkdir fs w.files (w.kernel.procs p) path
    (w.setFiles r.1, some (r.2, []))
  | .unlink p path =>
    let r := processUnlink fs w.files (w.kernel.procs p) path
    (w.setFiles r.1, some (r.2, []))
  | .chdir p path =>
    match processChdir fs w.files (w.kernel.procs p) path with
    | .error e => (w, some (e, []))
    | .ok cwd => (w.setKernel (w.kernel.setProc p fun x => { x with cwd := cwd }), some (0, []))
  | .seedFile d name src count mode =>
    (if w.files.tmp.isDir d then w.setFiles (seedFile w.files d name src count mode) else w, some (0, []))
  | .seedDir d name =>
    (if w.files.tmp.isDir d then w.setFiles (tmpfsCreateDir w.files d name).1 else w, some (0, []))
  | .install dev d =>
    (if w.files.tmp.isDir d then w.setFiles (w.files.install dev d) else w, some (0, []))
  | .takePage =>
    let a := pmmAllocPage w.files.pmm
    (w.lend a.1 a.2 1, some (a.2, []))
  | .takePages count =>
    let a := pmmAllocPages w.files.pmm count
    (w.lend a.1 a.2 count, some (a.2, []))
  | .sharePage f =>
    (if w.lent f then w.setFiles { w.files with pmm := pmmPageRef w.files.pmm f } else w, some (0, []))
  | .givePage f =>
    if w.lent f then
      let p := pmmFreePage w.files.pmm f
      ({ w.setFiles { w.files with pmm := p } with
          lent := fun g => w.lent g && (g != f || p.bitmap f) }, some (0, []))
    else (w, some (0, []))
  | .fillPage f page =>
    (if w.lent f then w.setFiles { w.files with mem := Function.update w.files.mem f page } else w,
      some (0, []))
  | .elsewhere other => (w.setFiles { w.files with other := other }, some (0, []))

end Machine

/-- Some descriptor in use refers to the file in slot `i`. -/
def Referenced (k : Kernel) (i : Nat) : Prop :=
  i < tmpfsMaxNodes ∧ ∃ p fd, ((k.procs p).fds fd).used = true ∧
    ((k.procs p).fds fd).node = some (.node (fileId i))

/-- Descriptors of tmpfs nodes are as before or copies of such, some of them rewound. -/
def Descends (k k' : Kernel) : Prop :=
  ∀ p fd id, id < 2 * tmpfsMaxNodes → ((k'.procs p).fds fd).used = true →
    ((k'.procs p).fds fd).node = some (.node id) →
    ∃ p₀ fd₀, ((k.procs p₀).fds fd₀).used = true ∧ ((k.procs p₀).fds fd₀).node = some (.node id) ∧
      (((k'.procs p).fds fd).offset = ((k.procs p₀).fds fd₀).offset ∨
        ((k'.procs p).fds fd).offset = 0#64)

section Descent

theorem FewerFds.descends {k k' : Kernel} (h : FewerFds k k') : Descends k k' := by
  intro p fd id _ used node
  have same := h p fd used
  rw [same] at used node ⊢
  exact ⟨p, fd, used, node, .inl rfl⟩

theorem Descends.trans {k₁ k₂ k₃ : Kernel} (h : Descends k₁ k₂) (h' : Descends k₂ k₃) :
    Descends k₁ k₃ := by
  intro p fd id low used node
  obtain ⟨p₁, fd₁, used₁, node₁, offset₁⟩ := h' p fd id low used node
  obtain ⟨p₀, fd₀, used₀, node₀, offset₀⟩ := h p₁ fd₁ id low used₁ node₁
  refine ⟨p₀, fd₀, used₀, node₀, ?_⟩
  rcases offset₁ with same | zero
  · rw [same]
    exact offset₀
  · exact .inr zero

theorem Descends.referenced {k k' : Kernel} (h : Descends k k') {i : Nat} (ref : Referenced k' i) :
    Referenced k i := by
  obtain ⟨low, p, fd, used, node⟩ := ref
  obtain ⟨p₀, fd₀, used₀, node₀, -⟩ := h p fd _ (by unfold fileId; omega) used node
  exact ⟨low, p₀, fd₀, used₀, node₀⟩

theorem processDup2_descends (k : Kernel) (p oldfd newfd : Nat) :
    Descends k (processDup2 k p oldfd newfd).1 := by
  have idle : Descends k k := FewerFds.descends fun _ _ _ => rfl
  unfold processDup2
  split
  · exact idle
  rename_i good
  split
  · exact idle
  split
  · exact idle
  rename_i apart
  have used : ((k.procs p).fds oldfd).used = true := by simpa using fun h => good (.inr h)
  dsimp only
  generalize hk : (if ((k.procs p).fds newfd).used = true then (processClose k p newfd).1 else k) = k₁
  have closed : FewerFds k k₁ ∧ (k₁.procs p).fds oldfd = (k.procs p).fds oldfd := by
    rw [← hk]
    split
    · refine ⟨processClose_fewer _ _ _, ?_⟩
      rcases processClose_fds k p newfd p oldfd with h | ⟨-, h, -⟩
      · exact h
      · exact absurd h apart
    · exact ⟨fun _ _ _ => rfl, rfl⟩
  intro p' fd' id low used' node'
  simp only [vnodeDup_procs] at used' node' ⊢
  rw [setFd_fds] at used' node' ⊢
  by_cases here : p' = p ∧ fd' = newfd
  · rw [if_pos here] at node' ⊢
    dsimp only at node' ⊢
    rw [closed.2] at node'
    exact ⟨p, oldfd, used, node', .inr rfl⟩
  · rw [if_neg here] at used' node' ⊢
    exact closed.1.descends p' fd' id low used' node'

theorem processPipe_descends (k : Kernel) (p : Nat) : Descends k (processPipe k p).1 := by
  rcases processPipe_cases k p with ⟨same, -⟩ | ⟨i, a, b, -, -, -, fds⟩
  · exact FewerFds.descends fun _ _ _ => by rw [same]
  · intro p' fd id _ used node
    rw [fds] at used node ⊢
    by_cases hb : p' = p ∧ fd = b
    · rw [if_pos hb] at node
      cases node
    · rw [if_neg hb] at used node ⊢
      by_cases ha : p' = p ∧ fd = a
      · rw [if_pos ha] at node
        cases node
      · rw [if_neg ha] at used node ⊢
        exact ⟨p', fd, used, node, .inl rfl⟩

variable {F : Type} {fs : Foreign F}

theorem spawn_descends (w : FdWorld (Files F)) (parent : Int) (pml4 : Nat) (heap : Word) :
    Descends w.kernel (fdStep (vfsTree fs) w (.spawn parent pml4 heap)).1.kernel := by
  simp only [fdStep]
  split
  · rename_i k none
    have idle := processAlloc_failed (k := w.kernel) (by rw [none])
    rw [none] at idle
    subst idle
    exact FewerFds.descends fun _ _ _ => rfl
  · rename_i k i some
    have alloc := fun p fd => (processAlloc_fds (k := w.kernel) (i := i) (p := p) (by rw [some]) fd).2
    rw [some] at alloc
    intro p fd id low used node
    simp only [processInit_fds] at used node ⊢
    by_cases console : p = i ∧ fd < 3
    · rw [if_pos console] at node
      injection node with node
      injection node with node
      simp only [vfsTree, foreignId] at node
      omega
    · rw [if_neg console, alloc] at used node ⊢
      split at used
      · cases used
      · rename_i old
        rw [if_neg old] at node ⊢
        exact ⟨p, fd, used, node, .inl rfl⟩

theorem fork_descends (w : FdWorld (Files F)) (src pml4 : Nat) :
    Descends w.kernel (fdStep (vfsTree fs) w (.fork src pml4)).1.kernel := by
  simp only [fdStep]
  split
  · exact FewerFds.descends fun _ _ _ => rfl
  · rename_i live
    split
    · rename_i k none
      have idle := processAlloc_failed (k := w.kernel) (by rw [none])
      rw [none] at idle
      subst idle
      exact FewerFds.descends fun _ _ _ => rfl
    · rename_i k i some
      have alloc := fun p fd => processAlloc_fds (k := w.kernel) (i := i) (p := p) (by rw [some]) fd
      rw [some] at alloc
      have apart : src ≠ i := by
        rintro rfl
        exact live (alloc 0 0).1
      intro p fd id low used node
      dsimp only at used node ⊢
      rw [processCloneInto_fds k apart] at used node ⊢
      by_cases copied : p = i ∧ fd < maxFds
      · rw [if_pos copied, (alloc _ _).2, if_neg apart] at used node ⊢
        exact ⟨src, fd, used, node, .inl rfl⟩
      · rw [if_neg copied, (alloc _ _).2] at used node ⊢
        split at used
        · cases used
        · rename_i old
          rw [if_neg old] at node ⊢
          exact ⟨p, fd, used, node, .inl rfl⟩

theorem fdStep_descends (w : FdWorld (Files F)) {op : FdOp}
    (notOpen : ∀ p path flags, op ≠ .opens p path flags) :
    (fdStep (vfsTree fs) w op).1.files = w.files ∧
      Descends w.kernel (fdStep (vfsTree fs) w op).1.kernel := by
  cases op with
  | spawn parent pml4 heap =>
    refine ⟨?_, spawn_descends w parent pml4 heap⟩
    simp only [fdStep]
    split <;> rfl
  | opens p path flags => exact absurd rfl (notOpen p path flags)
  | pipe p =>
    have descends := processPipe_descends w.kernel p
    simp only [fdStep]
    split <;> exact ⟨rfl, descends⟩
  | dup2 p oldfd newfd => exact ⟨rfl, processDup2_descends w.kernel p oldfd newfd⟩
  | close p fd => exact ⟨rfl, (processClose_fewer w.kernel p fd).descends⟩
  | fork src pml4 =>
    refine ⟨?_, fork_descends w src pml4⟩
    simp only [fdStep]
    split
    · rfl
    · split <;> rfl
  | terminate p task code => exact ⟨rfl, (processTerminate_fewer w.kernel p task code).descends⟩
  | reap p =>
    simp only [fdStep]
    split
    · refine ⟨rfl, (setProc_fewer w.kernel p (fun _ => .zero) ?_).descends⟩
      intro x fd used
      cases used
    · exact ⟨rfl, FewerFds.descends fun _ _ _ => rfl⟩

theorem advanceOffset_fds (k : Kernel) (p fd : Nat) (n : Int) (p' fd' : Nat) :
    (((advanceOffset k p fd n).procs p').fds fd').used = ((k.procs p').fds fd').used ∧
    (((advanceOffset k p fd n).procs p').fds fd').node = ((k.procs p').fds fd').node ∧
    (((advanceOffset k p fd n).procs p').fds fd').offset =
      if p' = p ∧ fd' = fd ∧ 0 < n then ((k.procs p).fds fd).offset + BitVec.ofInt 64 n
      else ((k.procs p').fds fd').offset := by
  unfold advanceOffset
  split
  · rename_i positive
    rw [setFd_fds]
    by_cases here : p' = p ∧ fd' = fd
    · obtain ⟨rfl, rfl⟩ := here
      simp [positive]
    · rw [if_neg here, if_neg fun h => here ⟨h.1, h.2.1⟩]
      exact ⟨rfl, rfl, rfl⟩
  · rename_i idle
    rw [if_neg fun h => idle h.2.2]
    exact ⟨rfl, rfl, rfl⟩

theorem advanceOffset_referenced {k : Kernel} {p fd : Nat} {n : Int} {i : Nat}
    (ref : Referenced (advanceOffset k p fd n) i) : Referenced k i := by
  obtain ⟨low, p', fd', used, node⟩ := ref
  rw [(advanceOffset_fds k p fd n p' fd').1] at used
  rw [(advanceOffset_fds k p fd n p' fd').2.1] at node
  exact ⟨low, p', fd', used, node⟩

end Descent

section Steps

variable {F : Type} (fs : Foreign F) (transferElsewhere : F → Vnode → Word → Word → F × Int)
  {w w' : Store F} {kids : Nat → List Nat}

/-- No descriptor refers to the file that `process_unlink` would free. -/
def Unheld (w : Store F) (p : Nat) (path : List Char) : Prop :=
  ∀ i, unlinkTarget fs w.files (w.kernel.procs p) path = some i →
    (w.files.tmp.nodes i).type = .file → ¬ Referenced w.kernel i

/-- Files that are in use are neither unlinked nor truncated. -/
def Spares (w : Store F) : StoreOp F → Prop
  | .unlink p path => Unheld fs w p path
  | .call (.opens p path flags) => Truncates fs w.files (w.kernel.procs p) path flags → Unheld fs w p path
  | _ => True

def Affords (w : Store F) : StoreOp F → Prop
  | .create _ _ => Room w.files
  | .seedFile _ _ _ _ _ => Room w.files
  | .call (.opens p path flags) => Affordable fs w.files (w.kernel.procs p) path flags
  | _ => True

/-- The files that a step takes out of the tree. -/
def Gone (w : Store F) : StoreOp F → Nat → Prop
  | .unlink p path => fun i => unlinkTarget fs w.files (w.kernel.procs p) path = some i
  | .call (.opens p path flags) => fun i =>
    Truncates fs w.files (w.kernel.procs p) path flags ∧
      unlinkTarget fs w.files (w.kernel.procs p) path = some i
  | _ => fun _ => False

/-- A file has been made in a directory, if a slot was left. -/
structure Made (s : Files F) (kids : Nat → List Nat) (R : Nat → Prop) (lent : Nat → Bool) (d : Nat)
    (name : List Char) (kids' : Nat → List Nat) : Prop where
  stored : Stored (tmpfsCreateFile s d name).1 kids' R lent
  carried : Carried (fun _ => False) s kids (tmpfsCreateFile s d name).1 kids'
  live : ∀ i, (tmpfsCreateFile s d name).2 = some i → Live (tmpfsCreateFile s d name).1.tmp kids' R i

/-- What a step leaves of the files. Writes are described on their own. -/
def Effect (w : Store F) (kids : Nat → List Nat) : StoreOp F → Files F → (Nat → List Nat) → Prop
  | .write _ _ _ _ => fun _ kids' => kids' = kids
  | .fillPage _ _ => fun _ kids' => kids' = kids
  | .seedFile d name _ _ _ => fun _ kids' =>
    w.files.tmp.isDir d = true → Made w.files kids (Referenced w.kernel) w.lent d name kids'
  | op => Carried (Gone fs w op) w.files kids

def Onward (w : Store F) (kids : Nat → List Nat) (fund : Prop)
    (effect : Files F → (Nat → List Nat) → Prop) (w' : Store F) : Prop :=
  ∃ kids', Stored w'.files kids' (Referenced w'.kernel) w'.lent ∧
    (Furnished w.files kids (Referenced w.kernel) → fund →
      Furnished w'.files kids' (Referenced w'.kernel)) ∧ effect w'.files kids'

variable {fund : Prop} {effect : Files F → (Nat → List Nat) → Prop} {gone : Nat → Prop}

theorem Onward.refer {s : Files F} {k : Kernel}
    (h : ∃ kids', Stored s kids' (Referenced w.kernel) w.lent ∧
      (Furnished w.files kids (Referenced w.kernel) → fund → Furnished s kids' (Referenced w.kernel)) ∧
      effect s kids')
    (sub : ∀ kids', Stored s kids' (Referenced w.kernel) w.lent →
      ∀ i, Referenced k i → Live s.tmp kids' (Referenced w.kernel) i) :
    Onward w kids fund effect ((w.setKernel k).setFiles s) := by
  obtain ⟨kids', stored, furnished, result⟩ := h
  obtain ⟨stored', fewer⟩ := stored.refer (sub kids' stored)
  refine ⟨kids', stored', fun start funds => ?_, result⟩
  obtain ⟨zero, backed⟩ := furnished start funds
  exact ⟨zero, fun i live => backed i (fewer i live)⟩

theorem Stored.referenced {s : Files F} {R : Nat → Prop} {lent : Nat → Bool}
    (h : Stored s kids R lent) {i : Nat} (ref : R i) : Live s.tmp kids R i :=
  ⟨(h.refs i ref).2, .inr ref⟩

theorem Onward.kernel (h : Stored w.files kids (Referenced w.kernel) w.lent) {k : Kernel}
    (sub : ∀ i, Referenced k i → Referenced w.kernel i) :
    Onward w kids fund (Carried gone w.files kids) (w.setKernel k) :=
  Onward.refer (Continues.refl h) fun _ stored i ref => stored.referenced (sub i ref)

theorem Onward.idle (h : Stored w.files kids (Referenced w.kernel) w.lent) :
    Onward w kids fund (Carried gone w.files kids) w :=
  Continues.refl h

omit fs in
theorem processOpen_files {fs : Foreign F} (k : Kernel) (s : Files F) {p : Nat} {path : List Char} {flags : Nat} :
    (processOpen (vfsTree fs) k s p path flags).2.1 =
      (locate (vfsTree fs) s (k.procs p) path flags).1 := by
  unfold processOpen
  split <;> rename_i eq <;> rw [eq]

theorem opens_onward (h : Stored w.files kids (Referenced w.kernel) w.lent) {p : Nat} {path : List Char}
    {flags : Nat} (spares : Truncates fs w.files (w.kernel.procs p) path flags → Unheld fs w p path) :
    Onward w kids (Affordable fs w.files (w.kernel.procs p) path flags)
      (Carried (Gone fs w (.call (.opens p path flags))) w.files kids)
      { w with fds := (fdStep (vfsTree fs) w.fds (.opens p path flags)).1 } := by
  obtain ⟨kids', stored, furnished, carried, live⟩ :=
    locate_continues fs h (w.kernel.procs p) path flags spares
  have refs : ∀ i, Referenced (processOpen (vfsTree fs) w.kernel w.files p path flags).1 i →
      Live (locate (vfsTree fs) w.files (w.kernel.procs p) path flags).1.tmp kids'
        (Referenced w.kernel) i := by
    rintro i ⟨low, p', fd', used, node⟩
    have old : ∀ k : Kernel, k = w.kernel → ((k.procs p').fds fd').used = true →
        ((k.procs p').fds fd').node = some (.node (fileId i)) → Referenced w.kernel i := by
      rintro k rfl used node
      exact ⟨low, p', fd', used, node⟩
    rcases processOpen_cases (vfsTree fs) w.kernel w.files p path flags with
      ⟨same, -⟩ | ⟨id, fd, start, found, -, kernel, -⟩
    · exact stored.referenced (old _ same used node)
    · rw [kernel, setFd_fds] at used node
      by_cases here : p' = p ∧ fd' = fd
      · rw [if_pos here] at node
        injection node with node
        injection node with node
        exact live i low (node ▸ found)
      · rw [if_neg here] at used node
        exact stored.referenced (old _ rfl used node)
  have after : (fdStep (vfsTree fs) w.fds (.opens p path flags)).1.files =
      (locate (vfsTree fs) w.files (w.kernel.procs p) path flags).1 := processOpen_files w.kernel w.files
  obtain ⟨stored', fewer⟩ := stored.refer refs
  refine ⟨kids', ?_, fun start funds => ?_, ?_⟩ <;> simp only [Store.files, Store.kernel] <;> rw [after]
  · exact stored'
  · obtain ⟨zero, backed⟩ := furnished start funds
    exact ⟨zero, fun i hi => backed i (fewer i hi)⟩
  · exact carried

theorem call_onward (h : Stored w.files kids (Referenced w.kernel) w.lent) {op : FdOp}
    (spares : Spares fs w (.call op)) :
    Onward w kids (Affords fs w (.call op)) (Carried (Gone fs w (.call op)) w.files kids)
      { w with fds := (fdStep (vfsTree fs) w.fds op).1 } := by
  by_cases opens : ∃ p path flags, op = .opens p path flags
  · obtain ⟨p, path, flags, rfl⟩ := opens
    exact opens_onward fs h spares
  · obtain ⟨files, descends⟩ : (fdStep (vfsTree fs) w.fds op).1.files = w.fds.files ∧
        Descends w.fds.kernel (fdStep (vfsTree fs) w.fds op).1.kernel :=
      fdStep_descends w.fds fun p path flags eq => opens ⟨p, path, flags, eq⟩
    obtain ⟨stored, fewer⟩ := h.refer fun i ref => h.referenced (descends.referenced ref)
    refine ⟨kids, ?_, fun furnished _ => ?_, ?_⟩ <;> simp only [Store.files, Store.kernel] <;> rw [files]
    · exact stored
    · exact ⟨furnished.1, fun i live => furnished.2 i (fewer i live)⟩
    · exact .refl

/-- A descriptor that passes the checks of `process_read` or `process_write` is in use. -/
theorem transfer_performs {σ : Type} {tree : FileTree σ} {forbidden : Nat} {able : Vnode → Bool}
    {perm : Perm} {k : Kernel} {files : σ} {p fd : Nat} {v : Vnode} {offset : Word}
    (h : transfer tree forbidden able perm k files p fd = .performs v offset) :
    ((k.procs p).fds fd).used = true ∧ ((k.procs p).fds fd).node = some v ∧
      offset = ((k.procs p).fds fd).offset := by
  unfold transfer at h
  dsimp only at h
  split at h
  · cases h
  rename_i good
  split at h
  · cases h
  split at h
  · cases h
  rename_i v' node
  split at h
  · cases h
  split at h
  · cases h
  cases h
  exact ⟨by simpa using fun unused => good (.inr unused), node, rfl⟩

theorem tmpfsFile_some {v : Vnode} {i : Nat} (h : tmpfsFile v = some i) :
    i < tmpfsMaxNodes ∧ v = .node (fileId i) := by
  unfold tmpfsFile at h
  split at h
  · split at h
    · rename_i id isFile
      cases h
      simp only [isFileId, Bool.and_eq_true, decide_eq_true_eq, beq_iff_eq] at isFile
      refine ⟨by omega, ?_⟩
      unfold fileId
      rw [show 2 * (id / 2) = id by omega]
    · cases h
  · cases h

theorem read_onward (h : Stored w.files kids (Referenced w.kernel) w.lent) (p fd : Nat) (count : Word) :
    Onward w kids fund (Carried (fun _ => False) w.files kids)
      (storeRead fs transferElsewhere w p fd count).1 := by
  unfold storeRead
  split
  · exact .idle h
  · exact .idle h
  · split
    · exact Onward.kernel h fun i ref => advanceOffset_referenced ref
    · refine Onward.refer ⟨kids, (h.other _).1, fun furnished _ => (h.other _).2.1 furnished, (h.other _).2.2⟩ ?_
      exact fun _ stored i ref => stored.referenced (advanceOffset_referenced ref)

theorem write_onward (h : Stored w.files kids (Referenced w.kernel) w.lent) (p fd : Nat)
    (src : Nat → BitVec 8) (count : Word) :
    Onward w kids fund (fun _ kids' => kids' = kids) (storeWrite fs transferElsewhere w p fd src count).1 := by
  have idle : Onward w kids fund (fun _ kids' => kids' = kids) w :=
    ⟨kids, h, fun furnished _ => furnished, rfl⟩
  unfold storeWrite
  split
  · exact idle
  · exact idle
  · rename_i v offset performs
    obtain ⟨used, node, -⟩ := transfer_performs performs
    split
    · rename_i i isFile
      obtain ⟨low, rfl⟩ := tmpfsFile_some isFile
      split
      · exact idle
      · rename_i s n done
        obtain ⟨stored, furnished⟩ := h.fileWrite (h.referenced ⟨low, p, fd, used, node⟩) done
        refine Onward.refer ⟨kids, stored, fun start _ => furnished start, rfl⟩ ?_
        exact fun _ stored i ref => stored.referenced (advanceOffset_referenced ref)
    · refine Onward.refer ⟨kids, (h.other _).1, fun furnished _ => (h.other _).2.1 furnished, rfl⟩ ?_
      exact fun _ stored i ref => stored.referenced (advanceOffset_referenced ref)

theorem seedFile_onward (h : Stored w.files kids (Referenced w.kernel) w.lent) {d : Nat}
    (isDir : w.files.tmp.isDir d = true) (name : List Char) (src : Nat → BitVec 8) (count mode : Word) :
    Onward w kids (Room w.files) (fun _ => Made w.files kids (Referenced w.kernel) w.lent d name)
      (w.setFiles (seedFile w.files d name src count mode)) := by
  simp only [Tmpfs.isDir, Bool.and_eq_true, decide_eq_true_eq, beq_iff_eq] at isDir
  obtain ⟨kids', stored, furnished, carried, live⟩ := h.createFile isDir.1 isDir.2 name
  have made : Made w.files kids (Referenced w.kernel) w.lent d name kids' := ⟨stored, carried, live⟩
  unfold seedFile
  generalize tmpfsCreateFile w.files d name = r at stored furnished live
  obtain ⟨s, slot⟩ := r
  cases slot with
  | none => exact ⟨kids', stored, furnished, made⟩
  | some i =>
    dsimp only at stored furnished live ⊢
    have written : ∀ s', s' = ((tmpfsFileWrite s i src count 0#64).map Prod.fst).getD s →
        Stored s' kids' (Referenced w.kernel) w.lent ∧
          (Furnished s kids' (Referenced w.kernel) → Furnished s' kids' (Referenced w.kernel)) := by
      rintro s' rfl
      cases done : tmpfsFileWrite s i src count 0#64 with
      | none => exact ⟨stored, id⟩
      | some r => exact stored.fileWrite (live i rfl) done
    obtain ⟨stored', furnished'⟩ := written _ rfl
    generalize ((tmpfsFileWrite s i src count 0#64).map Prod.fst).getD s = s' at stored' furnished' ⊢
    have tree : TreeOk (s'.tmp.set i { s'.tmp.nodes i with mode := mode }) kids' :=
      stored'.tree.set i rfl rfl rfl rfl Iff.rfl
    obtain ⟨same, furnished''⟩ := stored'.restyle i tree rfl rfl rfl
    exact ⟨kids', same, fun start funds => furnished'' (furnished' (furnished start funds)), made⟩

theorem install_onward (h : Stored w.files kids (Referenced w.kernel) w.lent) {d : Nat}
    (isDir : w.files.tmp.isDir d = true) (dev : Bool) :
    Onward w kids fund (Carried (fun _ => False) w.files kids) (w.setFiles (w.files.install dev d)) := by
  simp only [Tmpfs.isDir, Bool.and_eq_true, decide_eq_true_eq, beq_iff_eq] at isDir
  have notFile : (w.files.tmp.nodes d).ops ≠ .tmpfsFile := by
    intro isFile
    have type := (h.tree.ops d isDir.1).mp isFile
    rw [isDir.2] at type
    cases type
  have tree : TreeOk (w.files.tmp.set d { w.files.tmp.nodes d with ops := .foreign }) kids :=
    h.tree.set d rfl rfl rfl rfl ⟨fun foreign => NodeOps.noConfusion foreign, fun isFile => absurd isFile notFile⟩
  obtain ⟨same, furnished⟩ := h.restyle d tree rfl rfl rfl
  have mount : ∀ a b, (a = w.files.devDir ∨ a = d) → (b = w.files.mntDir ∨ b = d) →
      Stored { w.files with
        tmp := w.files.tmp.set d { w.files.tmp.nodes d with ops := .foreign }, devDir := a, mntDir := b }
        kids (Referenced w.kernel) w.lent := by
    intro a b ha hb
    refine same.keep same.tree (fun e he => ?_) same.refs (fun _ live => live) (fun _ _ => ⟨rfl, rfl⟩) rfl
      (fun _ used _ => ⟨used, rfl⟩)
    have old : e = w.files.devDir ∨ e = w.files.mntDir ∨ e = d := by
      rcases he with rfl | rfl
      · exact ha.elim .inl fun h => .inr (.inr h)
      · exact .inr (hb.elim .inl .inr)
    rcases old with dev | mnt | rfl
    · exact same.dirs e (.inl dev)
    · exact same.dirs e (.inr mnt)
    · simp only [Tmpfs.set, Function.update_self]
      exact isDir
  unfold Files.install
  cases dev
  · exact ⟨kids, mount _ _ (.inl rfl) (.inr rfl), fun start _ => furnished start, .set rfl rfl rfl rfl rfl rfl⟩
  · exact ⟨kids, mount _ _ (.inr rfl) (.inl rfl), fun start _ => furnished start, .set rfl rfl rfl rfl rfl rfl⟩

theorem Carried.pmm {s : Files F} (p : Pmm) : Carried gone s kids { s with pmm := p } kids :=
  ⟨fun _ listed _ => listed, le_rfl, fun _ _ => ⟨rfl, rfl, rfl, rfl⟩,
    fun _ lo hi => absurd hi (Nat.not_lt_of_le lo), rfl⟩

/-! The rest of the kernel -/

theorem lend_onward (h : Stored w.files kids (Referenced w.kernel) w.lent) {p : Pmm} {start count : Nat}
    (grown : Grown w.files.pmm p)
    (fresh : start ≠ 0 → ∀ g, start ≤ g → g < start + count →
      w.files.pmm.bitmap g = false ∧ p.bitmap g = true) :
    Onward w kids fund (Carried gone w.files kids) (w.lend p start count) := by
  obtain ⟨stored, furnished⟩ := h.grownPmm grown
  refine ⟨kids, ⟨stored.tree, stored.dirs, stored.refs, stored.sized, stored.used, stored.apart,
    fun g hg => ?_⟩, fun begin _ => furnished begin, .pmm p⟩
  simp only [Store.lend, Bool.or_eq_true, Bool.and_eq_true, bne_iff_ne, ne_eq, decide_eq_true_eq] at hg
  rcases hg with old | ⟨⟨nonzero, lo⟩, hi⟩
  · exact stored.away g old
  · obtain ⟨clear, used⟩ := fresh nonzero g lo hi
    refine ⟨by omega, used, fun i live held => ?_⟩
    have before := (h.used i live g held).used
    rw [clear] at before
    cases before

theorem share_onward (h : Stored w.files kids (Referenced w.kernel) w.lent) {f : Nat}
    (isLent : w.lent f = true) :
    Onward w kids fund (Carried gone w.files kids)
      (w.setFiles { w.files with pmm := pmmPageRef w.files.pmm f }) := by
  have bits : (pmmPageRef w.files.pmm f).bitmap = w.files.pmm.bitmap := by
    unfold pmmPageRef
    split <;> rfl
  have counts : ∀ g, g ≠ f → (pmmPageRef w.files.pmm f).refcount g = w.files.pmm.refcount g := by
    intro g hg
    unfold pmmPageRef
    split
    · exact Function.update_of_ne hg _ _
    · rfl
  refine ⟨kids, ⟨h.tree, h.dirs, h.refs, h.sized, fun i live g hg => ?_, h.apart, fun g hg => ?_⟩,
    fun begin _ => ⟨?_, begin.2⟩, .pmm _⟩
  · have own := h.used i live g hg
    have other : g ≠ f := by
      rintro rfl
      exact (h.away g isLent).2.2 i live hg
    exact ⟨(pmmPageRef_total _ f).symm ▸ own.bound, bits ▸ own.used, (counts g other).trans own.sole⟩
  · obtain ⟨nonzero, used, off⟩ := h.away g hg
    exact ⟨nonzero, bits ▸ used, off⟩
  · intro bound
    rw [show ((w.setFiles { w.files with pmm := pmmPageRef w.files.pmm f }).files.pmm).bitmap 0 =
      w.files.pmm.bitmap 0 from congrFun bits 0]
    exact begin.1 ((pmmPageRef_total _ f) ▸ bound)

theorem give_onward (h : Stored w.files kids (Referenced w.kernel) w.lent) {f : Nat}
    (isLent : w.lent f = true) :
    Onward w kids fund (Carried gone w.files kids)
      { w.setFiles { w.files with pmm := pmmFreePage w.files.pmm f } with
        lent := fun g => w.lent g && (g != f || (pmmFreePage w.files.pmm f).bitmap f) } := by
  have others := fun {g} (hg : g ≠ f) => pmmFreePage_other w.files.pmm hg
  refine ⟨kids, ⟨h.tree, h.dirs, h.refs, h.sized, fun i live g hg => ?_, h.apart, fun g hg => ?_⟩,
    fun begin _ => ⟨?_, begin.2⟩, .pmm _⟩
  · have own := h.used i live g hg
    have other : g ≠ f := by
      rintro rfl
      exact (h.away g isLent).2.2 i live hg
    exact ⟨(pmmFreePage_total _ f).symm ▸ own.bound, (others other).1.trans own.used,
      (others other).2.trans own.sole⟩
  · simp only [Bool.and_eq_true, Bool.or_eq_true, bne_iff_ne, ne_eq] at hg
    obtain ⟨nonzero, used, off⟩ := h.away g hg.1
    refine ⟨nonzero, ?_, off⟩
    by_cases other : g = f
    · subst other
      exact hg.2.resolve_left fun different => different rfl
    · exact (others other).1.trans used
  · intro bound
    refine (others (h.away f isLent).1.symm).1.trans (begin.1 ?_)
    exact (pmmFreePage_total _ f) ▸ bound

theorem storeStep_onward (h : Stored w.files kids (Referenced w.kernel) w.lent) (op : StoreOp F)
    (spares : Spares fs w op) :
    Onward w kids (Affords fs w op) (Effect fs w kids op) (storeStep fs transferElsewhere w op).1 := by
  cases op with
  | call op => exact call_onward fs h spares
  | read p fd count => exact read_onward fs transferElsewhere h p fd count
  | write p fd src count => exact write_onward fs transferElsewhere h p fd src count
  | create p path => exact processCreate_continues fs h _ path
  | mkdir p path => exact processMkdir_continues fs h _ path
  | unlink p path => exact processUnlink_continues fs h _ path spares
  | chdir p path =>
    simp only [storeStep]
    split
    · exact .idle h
    · rename_i cwd _
      refine Onward.kernel h fun i ref => ?_
      exact (setProc_fewer w.kernel p (fun x => { x with cwd := cwd })
        fun _ _ _ => rfl).descends.referenced ref
  | seedFile d name src count mode =>
    simp only [storeStep]
    split
    · rename_i isDir
      obtain ⟨kids', stored, furnished, made⟩ := seedFile_onward h isDir name src count mode
      exact ⟨kids', stored, furnished, fun _ => made⟩
    · rename_i notDir
      exact ⟨kids, h, fun furnished _ => furnished, fun isDir => absurd isDir notDir⟩
  | seedDir d name =>
    simp only [storeStep]
    split
    · rename_i isDir
      simp only [Tmpfs.isDir, Bool.and_eq_true, decide_eq_true_eq, beq_iff_eq] at isDir
      obtain ⟨kids', stored, furnished, carried⟩ := h.createDir isDir.1 isDir.2 name
      exact ⟨kids', stored, fun start _ => furnished start, carried⟩
    · exact .idle h
  | install dev d =>
    simp only [storeStep]
    split
    · rename_i isDir
      exact install_onward h isDir dev
    · exact .idle h
  | takePage =>
    refine lend_onward h (pmmAllocPage_grown _) fun ok g lo hi => ?_
    obtain ⟨bound, clear, after⟩ := pmmAllocPage_fresh ok
    rw [show g = (pmmAllocPage w.files.pmm).2 by omega]
    exact ⟨clear, by rw [after]; simp [Pmm.take]⟩
  | takePages count =>
    refine lend_onward h (pmmAllocPages_grown _ _) fun ok g lo hi => ?_
    rcases pmmAllocPages_cases w.files.pmm count with e | ⟨start, -, -, clear, e⟩
    · rw [e] at ok
      exact absurd rfl ok
    · rw [e] at lo hi ⊢
      exact ⟨clear g lo hi, by simp [lo, hi]⟩
  | sharePage f =>
    simp only [storeStep]
    split
    · exact share_onward h (by assumption)
    · exact .idle h
  | givePage f =>
    simp only [storeStep]
    split
    · exact give_onward h (by assumption)
    · exact .idle h
  | fillPage f page =>
    simp only [storeStep]
    split
    · exact ⟨kids, h.remember _, fun start _ => start, rfl⟩
    · exact ⟨kids, h, fun start _ => start, rfl⟩
  | elsewhere other => exact ⟨kids, (h.other other).1, fun start _ => (h.other other).2.1 start, (h.other other).2.2⟩

end Steps

/-- After `tmpfs_init`, before `vfs_init` has made the first file. -/
structure Booted {F : Type} (w : Store F) : Prop where
  tmp : w.files.tmp = tmpfsInit
  dirs : w.files.devDir = 0 ∧ w.files.mntDir = 0
  closed : ∀ p fd, ((w.kernel.procs p).fds fd).used = false
  zero : Held w.files.pmm 0
  lent : ∀ g, w.lent g = true → g ≠ 0 ∧ w.files.pmm.bitmap g = true

theorem Booted.stored {F : Type} {w : Store F} (h : Booted w) :
    Stored w.files (fun _ => []) (Referenced w.kernel) w.lent ∧
      Furnished w.files (fun _ => []) (Referenced w.kernel) := by
  have unreferenced : ∀ i, ¬ Referenced w.kernel i := by
    rintro i ⟨-, p, fd, used, -⟩
    rw [h.closed p fd] at used
    cases used
  have none : ∀ i, ¬ Live w.files.tmp (fun _ => []) (Referenced w.kernel) i := by
    rintro i ⟨-, ⟨d, mem⟩ | ref⟩
    · cases mem
    · exact unreferenced i ref
  refine ⟨⟨h.tmp ▸ tmpfsInit_ok, fun d hd => ?_, fun i ref => absurd ref (unreferenced i),
    fun i live => absurd live (none i), fun i live => absurd live (none i),
    fun i _ live => absurd live (none i), fun g hg => ?_⟩, h.zero, fun i live => absurd live (none i)⟩
  · have root : d = 0 := by
      rw [h.dirs.1, h.dirs.2] at hd
      omega
    subst root
    rw [h.tmp]
    exact ⟨Nat.one_pos, rfl⟩
  · exact ⟨(h.lent g hg).1, (h.lent g hg).2, fun i live => absurd live (none i)⟩

section Ownership

variable {F : Type} (fs : Foreign F) (transferElsewhere : F → Vnode → Word → Word → F × Int)

/-- A tmpfs file that is linked in the tree or that a descriptor refers to. -/
def FileInUse (w : Store F) (i : Nat) : Prop :=
  (w.files.tmp.nodes i).type = .file ∧
    ((∃ d, i ∈ w.files.tmp.children d) ∨ Referenced w.kernel i)

/-- The steps that leave every file its pages. -/
def Careful (w : Store F) (op : StoreOp F) : Prop := Spares fs w op ∧ Affords fs w op

/-- In every run that unlinks and truncates only files no descriptor refers to, and
creates files only while a page is free: the pages behind each file's data pointer are
allocated, nobody else's, and not handed out again. -/
theorem tmpfs_files_own_their_pages (start : Store F) (boot : Booted start) (ops : List (StoreOp F))
    (along : Run.Along (storeStep fs transferElsewhere) (Careful fs) start ops) :
    let w := (Run.run (storeStep fs transferElsewhere) start ops).1
    ∀ i, FileInUse w i →
      (∃ f, (w.files.tmp.nodes i).data = some f ∧
        (w.files.tmp.nodes i).capacity.toNat = (w.files.tmp.nodes i).pages * 4096 ∧
        ∀ g, f ≤ g → g < f + (w.files.tmp.nodes i).pages → (w.files.tmp.nodes i).Holds g) ∧
      ∀ g, (w.files.tmp.nodes i).Holds g →
        g < w.files.pmm.totalPages ∧ w.files.pmm.bitmap g = true ∧
        (∀ j, FileInUse w j → (w.files.tmp.nodes j).Holds g → j = i) ∧
        w.lent g = false ∧ (pmmAllocPage w.files.pmm).2 ≠ g ∧
        ∀ count, ((pmmAllocPages w.files.pmm count).2 ≠ 0) →
          ¬ ((pmmAllocPages w.files.pmm count).2 ≤ g ∧ g < (pmmAllocPages w.files.pmm count).2 + count) := by
  intro w
  have inv : ∃ kids, Stored w.files kids (Referenced w.kernel) w.lent ∧
      Furnished w.files kids (Referenced w.kernel) :=
    Run.run_invariant_along (storeStep fs transferElsewhere) (Careful fs)
      (fun w => ∃ kids, Stored w.files kids (Referenced w.kernel) w.lent ∧
        Furnished w.files kids (Referenced w.kernel))
      (by
        rintro w op ⟨kids, stored, furnished⟩ ⟨spares, affords⟩
        obtain ⟨kids', stored', furnished', -⟩ := storeStep_onward fs transferElsewhere stored op spares
        exact ⟨kids', stored', furnished' furnished affords⟩)
      start ops ⟨_, boot.stored⟩ along
  obtain ⟨kids, stored, -, backed⟩ := inv
  have live : ∀ i, FileInUse w i → Live w.files.tmp kids (Referenced w.kernel) i := by
    rintro i ⟨file, ⟨d, mem⟩ | ref⟩
    · exact ⟨file, .inl ⟨d, stored.tree.children d ▸ mem⟩⟩
    · exact ⟨file, .inr ref⟩
  intro i inUse
  have sized := stored.sized i (live i inUse)
  refine ⟨?_, fun g hg => ?_⟩
  · obtain ⟨f, data⟩ := Option.isSome_iff_exists.mp sized.buffer
    refine ⟨f, data, sized.whole, fun g lo hi => ⟨f, data, ?_, lo, hi⟩⟩
    rintro rfl
    exact backed i (live i inUse) data
  · have own := stored.used i (live i inUse) g hg
    have taken : ∀ {g'}, w.files.pmm.bitmap g' = false → g' ≠ g := by
      rintro g' clear rfl
      rw [own.used] at clear
      cases clear
    refine ⟨own.bound, own.used, fun j inUse' hg' => ?_, ?_, ?_, fun count ok => ?_⟩
    · exact stored.apart j i (live j inUse') (live i inUse) g hg' hg
    · by_contra isLent
      exact (stored.away g (by simpa using isLent)).2.2 i (live i inUse) hg
    · by_cases failed : (pmmAllocPage w.files.pmm).2 = 0
      · rw [failed]
        obtain ⟨f, -, nonzero, lo, -⟩ := hg
        omega
      · obtain ⟨-, clear, -⟩ := pmmAllocPage_fresh failed
        exact taken clear
    · rcases pmmAllocPages_cases w.files.pmm count with e | ⟨first, -, -, clear, e⟩
      · rw [e] at ok
        exact absurd rfl ok
      · rw [e]
        rintro ⟨lo, hi⟩
        exact taken (clear g lo hi) rfl

end Ownership

/-- Neither devfs nor FAT has any nodes but the console. -/
def consoleOnly : Foreign Unit where
  lookup := fun _ _ _ => none
  parent := fun _ _ => .dev
  name := fun _ _ => []
  type := fun _ _ => .file
  owner := fun _ _ => (0#64, 0#64, 0#64)
  mutable := fun _ _ => false
  create := fun _ _ _ => ((), -erofs)
  mkdir := fun _ _ _ => ((), -erofs)
  unlink := fun _ _ _ => ((), -erofs)
  chown := fun _ _ _ _ => ()
  size := fun _ _ => none
  reads := fun _ => true
  writes := fun _ => true
  console := 0
  console_reads := rfl
  console_writes := rfl

def eightPages : Pmm := .small 8#6 (fun f => f < 2) (fun _ => 0) 6 2

def smallStore : Store Unit where
  fds := ⟨atBoot.kernel, ⟨tmpfsInit, eightPages, fun _ _ => 0#64, (), 0, 0⟩, atBoot.desc⟩
  lent := fun f => f == 1

theorem smallStore_booted : Booted smallStore where
  tmp := rfl
  dirs := ⟨rfl, rfl⟩
  closed _ _ := rfl
  zero _ := rfl
  lent g hg := by
    obtain rfl : g = 1 := by simpa [smallStore] using hg
    exact ⟨by decide, rfl⟩

def nothingElse : Unit → Vnode → Word → Word → Unit × Int := fun _ _ _ _ => ((), 0)

def creatRdwr : Nat := 0x42

/-- A file is created, grown to two pages, and the kernel takes a page. -/
def growingRun : List (StoreOp Unit) :=
  [.call (.spawn 0 0 0#64), .call (.opens 0 ['/', 'a'] creatRdwr), .write 0 3 (fun _ => 7#8) 5000#64,
    .takePage]

theorem growingRun_careful :
    Run.Along (storeStep consoleOnly nothingElse) (Careful consoleOnly) smallStore growingRun := by
  have plain : ∀ s who path, ¬ Truncates consoleOnly s who path creatRdwr :=
    fun s who path truncates => absurd truncates.2.2.1 (by decide)
  refine ⟨⟨trivial, trivial⟩, ⟨fun truncates => absurd truncates (plain _ _ _), fun _ _ => ?_,
    fun truncates => absurd truncates (plain _ _ _)⟩, ⟨trivial, trivial⟩, ⟨trivial, trivial⟩, trivial⟩
  decide +kernel

theorem tmpfs_files_own_their_pages_growingRun :
    let w := (Run.run (storeStep consoleOnly nothingElse) smallStore growingRun).1
    FileInUse w 1 ∧ (w.files.tmp.nodes 1).data = some 3 ∧ (w.files.tmp.nodes 1).pages = 2 ∧
      ∀ g, (w.files.tmp.nodes 1).Holds g → w.files.pmm.bitmap g = true ∧ w.lent g = false := by
  intro w
  have inUse : FileInUse w 1 :=
    ⟨by decide +kernel, .inr ⟨by decide, 0, 3, by decide +kernel, by decide +kernel⟩⟩
  refine ⟨inUse, by decide +kernel, by decide +kernel, fun g hg => ?_⟩
  have owned := (tmpfs_files_own_their_pages consoleOnly nothingElse smallStore smallStore_booted
    growingRun growingRun_careful 1 inUse).2 g hg
  exact ⟨owned.2.1, owned.2.2.2.1⟩

/-- An open file is unlinked and the kernel takes a page: it gets the page that the
descriptor still writes to. -/
theorem unlinked_file_loses_page :
    let w := (Run.run (storeStep consoleOnly nothingElse) smallStore
      [.call (.spawn 0 0 0#64), .call (.opens 0 ['/', 'a'] creatRdwr), .unlink 0 ['/', 'a'], .takePage]).1
    FileInUse w 1 ∧ (w.files.tmp.nodes 1).Holds 2 ∧ w.lent 2 = true := by
  intro w
  refine ⟨⟨by decide +kernel, .inr ⟨by decide, 0, 3, by decide +kernel, by decide +kernel⟩⟩, ?_,
    by decide +kernel⟩
  exact ⟨2, by decide +kernel, by decide, le_rfl, by decide +kernel⟩

end Isunux
