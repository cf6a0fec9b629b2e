import Isunux.Kernel

/-! File descriptors and the mode of the description behind them. The file tree is
a parameter: what a path leads to, and which of the two transfer operations a
node has. -/
namespace Isunux

def enoent : Int := 2
def eio : Int := 5

def oAccmode : Nat := 3
def oCreat : Nat := 0x40
def oExcl : Nat := 0x80
def oTrunc : Nat := 0x200
def oAppend : Nat := 0x400

inductive Perm where
  | read | write
  deriving DecidableEq

/-- The operations of vfs.c and of the file systems that process.c calls. A vnode
keeps its operation table for good, so `reads` and `writes` are fixed. -/
structure FileTree (σ : Type) where
  resolve : σ → List Char → List Char → Option Nat
  create : σ → Process → List Char → σ × Int
  unlink : σ → Process → List Char → σ × Int
  checkPerm : σ → Vnode → Word → Word → Perm → Bool
  size : σ → Nat → Option Word
  reads : Nat → Bool
  writes : Nat → Bool
  console : Nat
  console_reads : reads console = true
  console_writes : writes console = true

section Calls

variable {σ : Type} (tree : FileTree σ)

/-- The end of `process_open`: permission checks and the search for a slot. -/
def installFd (k : Kernel) (files : σ) (p node flags : Nat) : Kernel × Int :=
  let mode := flags &&& oAccmode
  let who := k.procs p
  if (mode = oRdonly ∨ mode = oRdwr) ∧
      tree.checkPerm files (.node node) who.uid who.gid .read = false then (k, -eacces)
  else if (mode = oWronly ∨ mode = oRdwr) ∧
      tree.checkPerm files (.node node) who.uid who.gid .write = false then (k, -eacces)
  else
    match findFreeFd k p 3 with
    | none => (k, -emfile)
    | some fd =>
      let start := if flags &&& oAppend ≠ 0 then (tree.size files node).getD 0#64 else 0#64
      (k.setFd p fd ⟨some (.node node), start, true, mode⟩, fd)

/-- `process_create` and a second look at the path. -/
def createAndResolve (files : σ) (who : Process) (path : List Char) : σ × Except Int Nat :=
  let c := tree.create files who path
  if c.2 < 0 then (c.1, .error c.2)
  else
    match tree.resolve c.1 who.cwd path with
    | none => (c.1, .error (-eio))
    | some node => (c.1, .ok node)

/-- The beginning of `process_open`: the node to open, with O_CREAT, O_EXCL and
O_TRUNC taken care of. -/
def locate (files : σ) (who : Process) (path : List Char) (flags : Nat) : σ × Except Int Nat :=
  match tree.resolve files who.cwd path with
  | none =>
    if flags &&& oCreat = 0 then (files, .error (-enoent)) else createAndResolve tree files who path
  | some node =>
    if flags &&& oCreat ≠ 0 ∧ flags &&& oExcl ≠ 0 then (files, .error (-eexist))
    else if flags &&& oTrunc ≠ 0 ∧ flags &&& oAccmode ≠ oRdonly then
      let u := tree.unlink files who path
      if u.2 < 0 then (u.1, .error u.2) else createAndResolve tree u.1 who path
    else (files, .ok node)

def processOpen (k : Kernel) (files : σ) (p : Nat) (path : List Char) (flags : Nat) :
    Kernel × σ × Int :=
  match locate tree files (k.procs p) path flags with
  | (files, .error e) => (k, files, e)
  | (files, .ok node) => let r := installFd tree k files p node flags; (r.1, files, r.2)

/-- How a read or write call ends up: an error code, or a call of the node's own
operation (whose results are byte counts, -1, -EIO or -ENOMEM). A used slot
without node would be dereferenced. -/
inductive Transfer where
  | refused (errno : Int)
  | performs (node : Vnode) (offset : Word)
  | crashes
  deriving DecidableEq

def Vnode.reads : Vnode → Bool
  | .pipeRead _ => true
  | .pipeWrite _ => false
  | .node id => tree.reads id

def Vnode.writes : Vnode → Bool
  | .pipeRead _ => false
  | .pipeWrite _ => true
  | .node id => tree.writes id

/-- `process_read` and `process_write` up to the operation of the node. -/
def transfer (forbidden : Nat) (able : Vnode → Bool) (perm : Perm) (k : Kernel) (files : σ)
    (p fd : Nat) : Transfer :=
  let e := (k.procs p).fds fd
  if fd ≥ maxFds ∨ e.used = false then .refused (-ebadf)
  else if e.accessMode = forbidden then .refused (-ebadf)
  else
    match e.node with
    | none => .crashes
    | some v =>
      if able v = false then .refused (-ebadf)
      else if tree.checkPerm files v (k.procs p).uid (k.procs p).gid perm = false then
        .refused (-eacces)
      else .performs v e.offset

def processRead : Kernel → σ → Nat → Nat → Transfer :=
  transfer tree oWronly (Vnode.reads tree) .read

def processWrite : Kernel → σ → Nat → Nat → Transfer :=
  transfer tree oRdonly (Vnode.writes tree) .write

def processInit (k : Kernel) (p pml4 : Nat) (heapStart : Word) : Kernel :=
  let console : FdEntry := ⟨some (.node tree.console), 0#64, true, oRdwr⟩
  let k := k.setProc p fun x =>
    { x with
      pml4 := pml4, heapStart := heapStart, heapEnd := heapStart, mmapNext := 0x40000000#64
      cwd := ['/'], uid := 0#64, gid := 0#64, fsBase := 0#64 }
  ((k.setFd p 0 console).setFd p 1 console).setFd p 2 console

end Calls

/-- The open file description a descriptor descends from. -/
inductive Desc where
  | opened (mode : Nat)
  | readEnd
  | writeEnd
  | console
  deriving DecidableEq

def Desc.readable : Desc → Bool
  | .opened m => m == oRdonly || m == oRdwr
  | .readEnd => true
  | .writeEnd => false
  | .console => true

def Desc.writable : Desc → Bool
  | .opened m => m == oWronly || m == oRdwr
  | .readEnd => false
  | .writeEnd => true
  | .console => true

/-- The access modes that say what the description says. -/
def Desc.suits : Desc → Nat → Bool
  | .opened m, a => a == m
  | .readEnd, a => a == oRdonly || a == oRdwr
  | .writeEnd, a => a == oWronly || a == oRdwr
  | .console, a => a == oRdwr

/-- The kernel, the file tree and, per descriptor, the description it descends
from. The last is not in the source. -/
structure FdWorld (σ : Type) where
  kernel : Kernel
  files : σ
  desc : Nat → Nat → Desc

inductive FdOp where
  | spawn (parent : Int) (pml4 : Nat) (heapStart : Word)
  | opens (p : Nat) (path : List Char) (flags : Nat)
  | pipe (p : Nat)
  | dup2 (p oldfd newfd : Nat)
  | close (p fd : Nat)
  | fork (src newPml4 : Nat)
  | terminate (p task exitCode : Nat)
  | reap (p : Nat)

def FdWorld.setDesc {σ : Type} (w : FdWorld σ) (p fd : Nat) (d : Desc) : Nat → Nat → Desc :=
  Function.update w.desc p (Function.update (w.desc p) fd d)

/-- One call. Answers are the return values of process.c. -/
def fdStep {σ : Type} (tree : FileTree σ) (w : FdWorld σ) : FdOp → FdWorld σ × Int
  | .spawn parent pml4 heapStart =>
    match processAlloc w.kernel parent with
    | (k, none) => ({ w with kernel := k }, -eagain)
    | (k, some p) =>
      ({ w with
          kernel := processInit tree k p pml4 heapStart
          desc := Function.update w.desc p fun _ => .console }, (k.procs p).pid)
  | .opens p path flags =>
    let r := processOpen tree w.kernel w.files p path flags
    ({ kernel := r.1, files := r.2.1,
       desc := if 0 ≤ r.2.2 then w.setDesc p r.2.2.toNat (.opened (flags &&& oAccmode)) else w.desc },
      r.2.2)
  | .pipe p =>
    let r := processPipe w.kernel p
    match r.2.2 with
    | none => ({ w with kernel := r.1 }, r.2.1)
    | some (a, b) =>
      ({ w with
          kernel := r.1
          desc := Function.update w.desc p
            (Function.update (Function.update (w.desc p) a .readEnd) b .writeEnd) }, r.2.1)
  | .dup2 p oldfd newfd =>
    let r := processDup2 w.kernel p oldfd newfd
    ({ w with kernel := r.1,
              desc := if 0 ≤ r.2 then w.setDesc p newfd (w.desc p oldfd) else w.desc }, r.2)
  | .close p fd =>
    let r := processClose w.kernel p fd
    ({ w with kernel := r.1 }, r.2)
  | .fork src newPml4 =>
    if (w.kernel.procs src).pid = 0 then (w, -einval)
    else
      match processAlloc w.kernel (w.kernel.procs src).pid with
      | (k, none) => ({ w with kernel := k }, -eagain)
      | (k, some child) =>
        ({ w with
            kernel := processCloneInto k child src newPml4
            desc := Function.update w.desc child (w.desc src) }, (k.procs child).pid)
  | .terminate p task exitCode => ({ w with kernel := processTerminate w.kernel p task exitCode }, 0)
  | .reap p =>
    if (w.kernel.procs p).isZombie then
      ({ w with kernel := w.kernel.setProc p fun _ => .zero }, (w.kernel.procs p).pid)
    else (w, -echild)

/-- The steps on which the modes stay right: `process_dup2` and `process_pipe`
find a fitting mode left in the slots they fill, and an opened node has the
operations its mode asks for. -/
def FdOp.fitting {σ : Type} (tree : FileTree σ) (w : FdWorld σ) : FdOp → Prop
  | .dup2 p oldfd newfd =>
    ((w.kernel.procs p).fds oldfd).used = true → newfd < maxFds → oldfd ≠ newfd →
      (w.desc p oldfd).suits ((w.kernel.procs p).fds newfd).accessMode = true
  | .pipe p =>
    ∀ r s, findFreeFd w.kernel p 3 = some r → findFreeFd w.kernel p (r + 1) = some s →
      Desc.readEnd.suits ((w.kernel.procs p).fds r).accessMode = true ∧
        Desc.writeEnd.suits ((w.kernel.procs p).fds s).accessMode = true
  | .opens p path flags =>
    ∀ node, (locate tree w.files (w.kernel.procs p) path flags).2 = .ok node →
      ((Desc.opened (flags &&& oAccmode)).readable = true → tree.reads node = true) ∧
        ((Desc.opened (flags &&& oAccmode)).writable = true → tree.writes node = true)
  | _ => True

/-- A used slot agrees with its description, which its node can serve. -/
structure FdEntry.Agrees {σ : Type} (tree : FileTree σ) (e : FdEntry) (d : Desc) : Prop where
  mode : d.suits e.accessMode = true
  reads : d.readable = true → ∀ v, e.node = some v → v.reads tree = true
  writes : d.writable = true → ∀ v, e.node = some v → v.writes tree = true

def FdInv {σ : Type} (tree : FileTree σ) (w : FdWorld σ) : Prop :=
  ∀ p fd, ((w.kernel.procs p).fds fd).used = true →
    ((w.kernel.procs p).fds fd).Agrees tree (w.desc p fd)

section Effects

theorem setFd_fds (k : Kernel) (p fd p' fd' : Nat) (e : FdEntry) :
    ((k.setFd p fd e).procs p').fds fd' =
      if p' = p ∧ fd' = fd then e else (k.procs p').fds fd' := by
  unfold Kernel.setFd Kernel.setProc
  by_cases hp : p' = p
  · subst hp
    by_cases hf : fd' = fd
    · subst hf; simp
    · simp [hf]
  · simp [hp]

theorem processClose_fds (k : Kernel) (p fd p' fd' : Nat) :
    (((processClose k p fd).1.procs p').fds fd' = (k.procs p').fds fd') ∨
      (p' = p ∧ fd' = fd ∧ (((processClose k p fd).1.procs p').fds fd').used = false ∧
        (((processClose k p fd).1.procs p').fds fd').accessMode = ((k.procs p').fds fd').accessMode) := by
  unfold processClose
  simp only
  split
  · exact .inl rfl
  · rw [setFd_fds, vnodeClose_procs]
    by_cases h : p' = p ∧ fd' = fd
    · obtain ⟨rfl, rfl⟩ := h
      right
      simp
    · left
      simp [h]

/-- Every slot in use afterwards was in use before, with the same contents. -/
def FewerFds (k k' : Kernel) : Prop :=
  ∀ p fd, ((k'.procs p).fds fd).used = true → (k'.procs p).fds fd = (k.procs p).fds fd

theorem FewerFds.trans {k₁ k₂ k₃ : Kernel} (h : FewerFds k₁ k₂) (h' : FewerFds k₂ k₃) :
    FewerFds k₁ k₃ := by
  intro p fd used
  have same := h' p fd used
  rw [same] at used ⊢
  exact h p fd used

theorem processClose_fewer (k : Kernel) (p fd : Nat) : FewerFds k (processClose k p fd).1 := by
  intro p' fd' used
  rcases processClose_fds k p fd p' fd' with same | ⟨-, -, unused, -⟩
  · exact same
  · rw [unused] at used
    cases used

theorem setProc_fewer (k : Kernel) (i : Nat) (f : Process → Process)
    (keeps : ∀ x fd, ((f x).fds fd).used = true → (f x).fds fd = x.fds fd) :
    FewerFds k (k.setProc i f) := by
  intro p fd used
  unfold Kernel.setProc at used ⊢
  by_cases h : p = i
  · subst h
    simp only [Function.update_self] at used ⊢
    exact keeps _ fd used
  · simp [h]

theorem processTerminate_fewer (k : Kernel) (p task code : Nat) :
    FewerFds k (processTerminate k p task code) := by
  have closed : FewerFds k ((List.range maxFds).foldl (fun k fd => (processClose k p fd).1) k) :=
    Run.foldl_rule (FewerFds k) _ _ k (fun _ _ _ => rfl)
      fun fd _ k' h => h.trans (processClose_fewer k' p fd)
  refine closed.trans ?_
  have marked : FewerFds ((List.range maxFds).foldl (fun k fd => (processClose k p fd).1) k)
      (processMarkZombie ((List.range maxFds).foldl (fun k fd => (processClose k p fd).1) k) p code) := by
    have zombie := setProc_fewer ((List.range maxFds).foldl (fun k fd => (processClose k p fd).1) k) p
      (fun x => { x with exitCode := code, isZombie := true }) fun _ _ _ => rfl
    unfold processMarkZombie
    simp only
    split <;> exact zombie
  exact marked

theorem cloneFd_fds (dst src : Nat) (k : Kernel) (fd p fd' : Nat) :
    ((cloneFd dst src k fd).procs p).fds fd' =
      if p = dst ∧ fd' = fd then (k.procs src).fds fd else (k.procs p).fds fd' := by
  unfold cloneFd
  simp only
  split
  · rw [vnodeDup_procs, setFd_fds]
  · rw [setFd_fds]

theorem processCloneInto_fds (k : Kernel) {dst src : Nat} (apart : src ≠ dst) (pml4 p fd : Nat) :
    ((processCloneInto k dst src pml4).procs p).fds fd =
      if p = dst ∧ fd < maxFds then (k.procs src).fds fd else (k.procs p).fds fd := by
  have loop := Run.range_rule
    (fun n (k' : Kernel) => ∀ p fd, (k'.procs p).fds fd =
      if p = dst ∧ fd < n then (k.procs src).fds fd else (k.procs p).fds fd)
    (cloneFd dst src) maxFds
    (k.setProc dst fun d =>
      { d with
        pml4 := pml4, heapStart := (k.procs src).heapStart, heapEnd := (k.procs src).heapEnd
        mmapNext := (k.procs src).mmapNext, uid := (k.procs src).uid, gid := (k.procs src).gid
        fsBase := (k.procs src).fsBase, cwd := (k.procs src).cwd })
    (by
      intro p fd
      by_cases h : p = dst
      · subst h; simp [Kernel.setProc]
      · simp [Kernel.setProc, h])
    (by
      intro n _ k' same p fd
      have kept : (k'.procs src).fds n = (k.procs src).fds n := by
        rw [same src n, if_neg (fun h => apart h.1)]
      rw [cloneFd_fds, kept, same p fd]
      by_cases hp : p = dst
      · subst hp
        by_cases hn : fd = n
        · subst hn; simp
        · by_cases hlt : fd < n
          · simp [hn, hlt, Nat.lt_succ_of_lt hlt]
          · have : ¬ fd < n + 1 := by omega
            simp [hn, hlt, this]
      · simp [hp])
  exact loop p fd

theorem findFreeFd_some {k : Kernel} {p start fd : Nat} (h : findFreeFd k p start = some fd) :
    start ≤ fd ∧ fd < maxFds ∧ ((k.procs p).fds fd).used = false := by
  have unused := List.find?_some h
  have range := List.mem_range'_1.mp (List.mem_of_find?_eq_some h)
  simp only [decide_eq_true_eq] at unused
  exact ⟨range.1, by omega, unused⟩

end Effects

section Steps

variable {σ : Type} {tree : FileTree σ}

theorem FdInv.fewer {w w' : FdWorld σ} (inv : FdInv tree w) (fewer : FewerFds w.kernel w'.kernel)
    (desc : w'.desc = w.desc) : FdInv tree w' := by
  intro p fd used
  have same := fewer p fd used
  rw [same] at used ⊢
  rw [desc]
  exact inv p fd used

theorem FdInv.fill {w w' : FdWorld σ} (inv : FdInv tree w) (p fd : Nat) (d : Desc)
    (entry : ((w'.kernel.procs p).fds fd).Agrees tree d)
    (others : ∀ p' fd', ¬ (p' = p ∧ fd' = fd) → ((w'.kernel.procs p').fds fd').used = true →
      (w'.kernel.procs p').fds fd' = (w.kernel.procs p').fds fd')
    (desc : w'.desc = w.setDesc p fd d) : FdInv tree w' := by
  intro p' fd' used
  by_cases h : p' = p ∧ fd' = fd
  · obtain ⟨rfl, rfl⟩ := h
    rw [desc]
    simpa [FdWorld.setDesc] using entry
  · have same := others p' fd' h used
    have keep : w'.desc p' fd' = w.desc p' fd' := by
      rw [desc, FdWorld.setDesc]
      by_cases hp : p' = p
      · subst hp
        have hf : fd' ≠ fd := fun hf => h ⟨rfl, hf⟩
        simp [hf]
      · simp [hp]
    rw [same] at used ⊢
    rw [keep]
    exact inv p' fd' used

theorem locate_error {files : σ} {who : Process} {path : List Char} {flags : Nat} {e : Int}
    (h : (locate tree files who path flags).2 = .error e) : e < 0 := by
  have made : ∀ files, (createAndResolve tree files who path).2 = .error e → e < 0 := by
    intro files h
    unfold createAndResolve at h
    simp only at h
    split at h
    · cases h; assumption
    · split at h
      · cases h; decide
      · cases h
  unfold locate at h
  split at h
  · split at h
    · cases h; decide
    · exact made _ h
  · split at h
    · cases h; decide
    · split at h
      · simp only at h
        split at h
        · cases h; assumption
        · exact made _ h
      · cases h

theorem processOpen_cases (tree : FileTree σ) (k : Kernel) (files : σ) (p : Nat) (path : List Char) (flags : Nat) :
    ((processOpen tree k files p path flags).1 = k ∧
      (processOpen tree k files p path flags).2.2 < 0) ∨
    ∃ node fd start, (locate tree files (k.procs p) path flags).2 = .ok node ∧
      findFreeFd k p 3 = some fd ∧
      (processOpen tree k files p path flags).1 =
        k.setFd p fd ⟨some (.node node), start, true, flags &&& oAccmode⟩ ∧
      (processOpen tree k files p path flags).2.2 = fd := by
  unfold processOpen
  split
  · rename_i files' e found
    exact .inl ⟨rfl, locate_error (by rw [found])⟩
  · rename_i files' node found
    unfold installFd
    simp only
    split
    · exact .inl ⟨rfl, show -eacces < 0 by decide⟩
    split
    · exact .inl ⟨rfl, show -eacces < 0 by decide⟩
    split
    · exact .inl ⟨rfl, show -emfile < 0 by decide⟩
    · rename_i fd free
      exact .inr ⟨node, fd, _, by rw [found], free, rfl, rfl⟩

theorem FdInv.opens {w : FdWorld σ} (inv : FdInv tree w) (p : Nat) (path : List Char) (flags : Nat)
    (ok : (FdOp.opens p path flags).fitting tree w) :
    FdInv tree (fdStep tree w (.opens p path flags)).1 := by
  simp only [fdStep]
  rcases processOpen_cases tree w.kernel w.files p path flags with
    ⟨same, negative⟩ | ⟨node, fd, start, found, free, kernel, result⟩
  · refine inv.fewer ?_ (if_neg (by omega))
    intro p' fd' _
    simp only [same]
  · obtain ⟨canRead, canWrite⟩ := ok node found
    refine inv.fill p fd (.opened (flags &&& oAccmode)) ?_ ?_ ?_
    · simp only [kernel]
      rw [setFd_fds, if_pos ⟨rfl, rfl⟩]
      refine ⟨by simp [Desc.suits], ?_, ?_⟩
      · rintro readable v ⟨⟩
        exact canRead readable
      · rintro writable v ⟨⟩
        exact canWrite writable
    · intro p' fd' hne _
      simp only [kernel]
      rw [setFd_fds, if_neg hne]
    · rw [result, if_pos (Int.natCast_nonneg fd), Int.toNat_natCast]

theorem FdInv.dup2 {w : FdWorld σ} (inv : FdInv tree w) (p oldfd newfd : Nat)
    (ok : (FdOp.dup2 p oldfd newfd).fitting tree w) :
    FdInv tree (fdStep tree w (.dup2 p oldfd newfd)).1 := by
  simp only [fdStep]
  by_cases bad : oldfd ≥ maxFds ∨ ((w.kernel.procs p).fds oldfd).used = false
  · have r : processDup2 w.kernel p oldfd newfd = (w.kernel, -ebadf) := if_pos bad
    simp only [r, show ¬ 0 ≤ -ebadf by decide, if_false]
    exact inv
  by_cases high : newfd ≥ maxFds
  · have r : processDup2 w.kernel p oldfd newfd = (w.kernel, -ebadf) := by
      rw [processDup2, if_neg bad, if_pos high]
    simp only [r, show ¬ 0 ≤ -ebadf by decide, if_false]
    exact inv
  by_cases same : oldfd = newfd
  · subst same
    have r : processDup2 w.kernel p oldfd oldfd = (w.kernel, (oldfd : Int)) := by
      rw [processDup2, if_neg bad, if_neg high, if_pos rfl]
    rw [r, if_pos (Int.natCast_nonneg _)]
    have self : w.setDesc p oldfd (w.desc p oldfd) = w.desc := by
      rw [FdWorld.setDesc, Function.update_eq_self, Function.update_eq_self]
    rw [self]
    exact inv
  have used : ((w.kernel.procs p).fds oldfd).used = true := by
    simpa using fun h => bad (.inr h)
  have suits := ok used (by omega) same
  -- the table after the slot was emptied
  set k₁ := if ((w.kernel.procs p).fds newfd).used then (processClose w.kernel p newfd).1 else w.kernel
    with hk₁
  have closed : FewerFds w.kernel k₁ ∧
      ((k₁.procs p).fds newfd).accessMode = ((w.kernel.procs p).fds newfd).accessMode ∧
      (k₁.procs p).fds oldfd = (w.kernel.procs p).fds oldfd := by
    rw [hk₁]
    split
    · refine ⟨processClose_fewer _ _ _, ?_, ?_⟩
      · rcases processClose_fds w.kernel p newfd p newfd with h | ⟨-, -, -, h⟩
        · rw [h]
        · exact h
      · rcases processClose_fds w.kernel p newfd p oldfd with h | ⟨-, h, -⟩
        · exact h
        · exact False.elim (same h)
    · exact ⟨fun _ _ _ => rfl, rfl, rfl⟩
  obtain ⟨fewer, mode, kept⟩ := closed
  have r : processDup2 w.kernel p oldfd newfd =
      (vnodeDup (k₁.setFd p newfd { (k₁.procs p).fds newfd with
        node := ((k₁.procs p).fds oldfd).node, offset := 0#64, used := true })
        ((k₁.procs p).fds oldfd).node, (newfd : Int)) := by
    rw [processDup2, if_neg bad, if_neg high, if_neg same]
  obtain ⟨-, reads, writes⟩ := inv p oldfd used
  rw [r, if_pos (Int.natCast_nonneg _)]
  refine inv.fill p newfd (w.desc p oldfd) ?_ ?_ rfl
  · simp only [vnodeDup_procs]
    rw [setFd_fds, if_pos ⟨rfl, rfl⟩]
    refine ⟨?_, ?_, ?_⟩
    · simp only [mode]
      exact suits
    · intro readable v hv
      exact reads readable v (by rw [← kept]; exact hv)
    · intro writable v hv
      exact writes writable v (by rw [← kept]; exact hv)
  · intro p' fd' hne used
    simp only [vnodeDup_procs] at used ⊢
    rw [setFd_fds, if_neg hne] at used ⊢
    exact fewer p' fd' used

/-- `process_pipe` fails without touching the table or fills the first two free
slots, whose access modes it leaves. -/
theorem processPipe_cases (k : Kernel) (p : Nat) :
    ((processPipe k p).1.procs = k.procs ∧ (processPipe k p).2.2 = none) ∨
    ∃ i a b, findFreeFd k p 3 = some a ∧ findFreeFd k p (a + 1) = some b ∧
      (processPipe k p).2.2 = some (a, b) ∧
      ∀ p' fd, ((processPipe k p).1.procs p').fds fd =
        if p' = p ∧ fd = b then
          { (k.procs p).fds b with node := some (.pipeWrite i), offset := 0#64, used := true }
        else if p' = p ∧ fd = a then
          { (k.procs p).fds a with node := some (.pipeRead i), offset := 0#64, used := true }
        else (k.procs p').fds fd := by
  unfold processPipe
  split
  · exact .inl ⟨rfl, rfl⟩
  · rename_i i _
    have same : ∀ start, findFreeFd (k.setPipe i pipeCreate) p start = findFreeFd k p start :=
      fun _ => rfl
    simp only [same]
    cases first : findFreeFd k p 3 with
    | none => exact .inl ⟨by simp, rfl⟩
    | some a =>
      cases second : findFreeFd k p (a + 1) with
      | none => exact .inl ⟨by simp [second], by simp [second]⟩
      | some b =>
        right
        have apart : b ≠ a := by
          have := (findFreeFd_some second).1
          omega
        refine ⟨i, a, b, rfl, second, by simp [second], ?_⟩
        intro p' fd
        simp only [Option.bind_some, second, Option.map_some]
        rw [setFd_fds, setFd_fds, setFd_fds]
        by_cases hb : p' = p ∧ fd = b
        · simp [hb, apart]
        · simp only [hb, if_false]
          split
          · simp
          · simp

theorem FdInv.pipe {w : FdWorld σ} (inv : FdInv tree w) (p : Nat)
    (ok : (FdOp.pipe p).fitting tree w) : FdInv tree (fdStep tree w (.pipe p)).1 := by
  simp only [fdStep]
  rcases processPipe_cases w.kernel p with ⟨same, none⟩ | ⟨i, a, b, first, second, ends, fds⟩
  · simp only [none]
    refine inv.fewer ?_ rfl
    intro p' fd _
    simp only [same]
  · obtain ⟨readMode, writeMode⟩ := ok a b first second
    simp only [ends]
    intro p' fd used
    simp only [fds] at used ⊢
    by_cases hb : p' = p ∧ fd = b
    · obtain ⟨rfl, rfl⟩ := hb
      simp only [and_self, if_true, Function.update_self]
      refine ⟨writeMode, by simp [Desc.readable], ?_⟩
      rintro - v ⟨⟩
      rfl
    · by_cases ha : p' = p ∧ fd = a
      · obtain ⟨rfl, rfl⟩ := ha
        have apart : fd ≠ b := fun h => hb ⟨rfl, h⟩
        simp only [apart, and_false, if_false, and_self, if_true, Function.update_self,
          Function.update_of_ne apart]
        refine ⟨readMode, ?_, by simp [Desc.writable]⟩
        rintro - v ⟨⟩
        rfl
      · simp only [hb, ha, if_false] at used ⊢
        have keep : Function.update w.desc p
            (Function.update (Function.update (w.desc p) a Desc.readEnd) b Desc.writeEnd) p' fd =
            w.desc p' fd := by
          by_cases hp : p' = p
          · subst hp
            have h₁ : fd ≠ b := fun h => hb ⟨rfl, h⟩
            have h₂ : fd ≠ a := fun h => ha ⟨rfl, h⟩
            simp [h₁, h₂]
          · simp [hp]
        rw [keep]
        exact inv p' fd used

theorem processAlloc_fds {k : Kernel} {parent : Int} {i : Nat}
    (h : (processAlloc k parent).2 = some i) (p fd : Nat) :
    (k.procs i).pid = 0 ∧ ((processAlloc k parent).1.procs p).fds fd =
      if p = i then FdEntry.zero else (k.procs p).fds fd := by
  obtain ⟨-, vacant, eq⟩ := processAlloc_eq h
  refine ⟨vacant, ?_⟩
  rw [eq]
  by_cases hp : p = i
  · subst hp; simp [Process.zero]
  · simp [hp]

theorem processInit_fds (k : Kernel) (p pml4 : Nat) (heap : Word) (p' fd : Nat) :
    ((processInit tree k p pml4 heap).procs p').fds fd =
      if p' = p ∧ fd < 3 then ⟨some (.node tree.console), 0#64, true, oRdwr⟩
      else (k.procs p').fds fd := by
  have base : ((k.setProc p fun x =>
      { x with
        pml4 := pml4, heapStart := heap, heapEnd := heap, mmapNext := 0x40000000#64
        cwd := ['/'], uid := 0#64, gid := 0#64, fsBase := 0#64 }).procs p').fds fd =
      (k.procs p').fds fd := by
    by_cases hp : p' = p
    · subst hp; simp [Kernel.setProc]
    · simp [Kernel.setProc, hp]
  unfold processInit
  simp only
  rw [setFd_fds, setFd_fds, setFd_fds, base]
  by_cases hp : p' = p
  · subst hp
    by_cases h : fd < 3
    · have : fd = 0 ∨ fd = 1 ∨ fd = 2 := by omega
      rcases this with rfl | rfl | rfl <;> simp
    · have h₀ : fd ≠ 0 := by omega
      have h₁ : fd ≠ 1 := by omega
      have h₂ : fd ≠ 2 := by omega
      simp [h, h₀, h₁, h₂]
  · simp [hp]

theorem FdInv.spawn {w : FdWorld σ} (inv : FdInv tree w) (parent : Int) (pml4 : Nat) (heap : Word) :
    FdInv tree (fdStep tree w (.spawn parent pml4 heap)).1 := by
  simp only [fdStep]
  split
  · rename_i k none
    have idle := processAlloc_failed (k := w.kernel) (by rw [none])
    rw [none] at idle
    subst idle
    exact inv
  · rename_i k i some
    have alloc := fun p fd => (processAlloc_fds (k := w.kernel) (i := i) (p := p) (by rw [some]) fd).2
    rw [some] at alloc
    simp only at alloc
    intro p fd used
    simp only [processInit_fds] at used ⊢
    by_cases hp : p = i
    · subst hp
      by_cases h : fd < 3
      · simp only [h, and_self, if_true, Function.update_self]
        refine ⟨rfl, ?_, ?_⟩
        · rintro - v ⟨⟩
          exact tree.console_reads
        · rintro - v ⟨⟩
          exact tree.console_writes
      · simp only [h, and_false, if_false, alloc, if_true] at used
        cases used
    · simp only [hp, false_and, if_false, alloc, Function.update_of_ne hp] at used ⊢
      exact inv p fd used

theorem FdInv.fork {w : FdWorld σ} (inv : FdInv tree w) (src pml4 : Nat) :
    FdInv tree (fdStep tree w (.fork src pml4)).1 := by
  simp only [fdStep]
  split
  · exact inv
  · rename_i live
    split
    · rename_i k none
      have idle := processAlloc_failed (k := w.kernel) (by rw [none])
      rw [none] at idle
      subst idle
      exact inv
    · rename_i k i some
      have alloc := fun p fd => processAlloc_fds (k := w.kernel) (i := i) (p := p) (by rw [some]) fd
      rw [some] at alloc
      simp only at alloc
      have apart : src ≠ i := by
        rintro rfl
        exact live (alloc 0 0).1
      intro p fd used
      simp only [processCloneInto_fds k apart, (alloc _ _).2] at used ⊢
      by_cases hp : p = i
      · subst hp
        by_cases h : fd < maxFds
        · simp only [h, and_self, if_true, apart, if_false, Function.update_self] at used ⊢
          exact inv src fd used
        · simp only [h, and_false, if_false, if_true] at used
          cases used
      · simp only [hp, false_and, if_false, Function.update_of_ne hp] at used ⊢
        exact inv p fd used

theorem fdStep_inv (w : FdWorld σ) (op : FdOp) (inv : FdInv tree w) (ok : op.fitting tree w) :
    FdInv tree (fdStep tree w op).1 := by
  cases op with
  | spawn parent pml4 heap => exact inv.spawn parent pml4 heap
  | opens p path flags => exact inv.opens p path flags ok
  | pipe p => exact inv.pipe p ok
  | dup2 p oldfd newfd => exact inv.dup2 p oldfd newfd ok
  | close p fd => exact inv.fewer (processClose_fewer w.kernel p fd) rfl
  | fork src pml4 => exact inv.fork src pml4
  | terminate p task code => exact inv.fewer (processTerminate_fewer w.kernel p task code) rfl
  | reap p =>
    simp only [fdStep]
    split
    · refine inv.fewer (setProc_fewer w.kernel p (fun _ => .zero) ?_) rfl
      intro x fd used
      cases used
    · exact inv

/-- A call on a slot that agrees with its description gets past every check
whose failure is -EBADF. -/
theorem transfer_not_ebadf (forbidden : Nat) (able : Vnode → Bool) (perm : Perm) (k : Kernel)
    (files : σ) (p fd : Nat) (bound : fd < maxFds) (used : ((k.procs p).fds fd).used = true)
    (mode : ((k.procs p).fds fd).accessMode ≠ forbidden)
    (serves : ∀ v, ((k.procs p).fds fd).node = some v → able v = true) :
    transfer tree forbidden able perm k files p fd ≠ .refused (-ebadf) := by
  have open' : ¬ (fd ≥ maxFds ∨ ((k.procs p).fds fd).used = false) := by
    rintro (high | unused)
    · omega
    · rw [used] at unused
      cases unused
  unfold transfer
  simp only [open', mode, if_false]
  split
  · simp
  · rename_i v node
    simp only [serves v node, Bool.true_eq_false, if_false]
    split
    · decide
    · simp

theorem Desc.suits_readable {d : Desc} {mode : Nat} (suits : d.suits mode = true)
    (readable : d.readable = true) : mode ≠ oWronly := by
  rintro rfl
  cases d with
  | opened m =>
    simp only [Desc.suits, beq_iff_eq] at suits
    subst suits
    cases readable
  | readEnd => cases suits
  | writeEnd => cases readable
  | console => cases suits

theorem Desc.suits_writable {d : Desc} {mode : Nat} (suits : d.suits mode = true)
    (writable : d.writable = true) : mode ≠ oRdonly := by
  rintro rfl
  cases d with
  | opened m =>
    simp only [Desc.suits, beq_iff_eq] at suits
    subst suits
    cases writable
  | readEnd => cases writable
  | writeEnd => cases suits
  | console => cases suits

/-- Along a run of fitting steps from an empty table, every used descriptor has
the mode of its description, and calls the description allows are never answered
with -EBADF. -/
theorem access_mode_follows_description (tree : FileTree σ) (start : FdWorld σ) (ops : List FdOp)
    (empty : ∀ p fd, ((start.kernel.procs p).fds fd).used = false)
    (fitting : Run.Along (fdStep tree) (fun w op => op.fitting tree w) start ops) :
    let w := (Run.run (fdStep tree) start ops).1
    ∀ p fd, fd < maxFds → ((w.kernel.procs p).fds fd).used = true →
      (w.desc p fd).suits ((w.kernel.procs p).fds fd).accessMode = true ∧
      ((w.desc p fd).readable = true → processRead tree w.kernel w.files p fd ≠ .refused (-ebadf)) ∧
      ((w.desc p fd).writable = true →
        processWrite tree w.kernel w.files p fd ≠ .refused (-ebadf)) := by
  intro w p fd bound used
  have inv : FdInv tree w := by
    refine Run.run_invariant_along (fdStep tree) _ (FdInv tree) fdStep_inv start ops ?_ fitting
    intro p fd used
    rw [empty p fd] at used
    cases used
  have agrees := inv p fd used
  refine ⟨agrees.mode, fun readable => ?_, fun writable => ?_⟩
  · exact transfer_not_ebadf _ _ _ _ _ _ _ bound used
      (Desc.suits_readable agrees.mode readable) (agrees.reads readable)
  · exact transfer_not_ebadf _ _ _ _ _ _ _ bound used
      (Desc.suits_writable agrees.mode writable) (agrees.writes writable)

end Steps

/-- A root directory with one file besides the console. -/
def oneFile : FileTree Unit where
  resolve := fun _ _ path => if path = ['f'] then some 1 else none
  create := fun _ _ _ => ((), -eacces)
  unlink := fun _ _ _ => ((), -eacces)
  checkPerm := fun _ _ _ _ _ => true
  size := fun _ _ => some 0#64
  reads := fun _ => true
  writes := fun _ => true
  console := 0
  console_reads := rfl
  console_writes := rfl

def atBoot : FdWorld Unit where
  kernel :=
    { vm :=
        { pmm := ⟨fun _ => false, fun _ => 0, 0, 0, 0, 0, false, by decide, by decide⟩
          mem := fun _ _ => 0#64
          kernelPml4 := 0 }
      hhdm := 0#64
      tasks := fun _ => ⟨0#64, 0, 0, 0#64, 0#64, 0#64, .ready, none, none, 0⟩
      taskCount := 1
      current := 0
      procs := fun _ => .zero
      processCount := 0
      nextPid := 1
      pipes := fun _ => ⟨fun _ => 0#8, 0, 0, 0, 0, false⟩ }
  files := ()
  desc := fun _ _ => .console

/-- Two descriptors opened for both directions make room for a pipe. -/
def reusingRun : List FdOp :=
  [.spawn 0 0 0#64, .opens 0 ['f'] oRdwr, .opens 0 ['f'] oRdwr, .close 0 3, .close 0 4, .pipe 0]

theorem reusingRun_fitting :
    Run.Along (fdStep oneFile) (fun w op => op.fitting oneFile w) atBoot reusingRun := by
  refine ⟨trivial, ?_, ?_, trivial, trivial, ?_, trivial⟩
  · exact fun _ _ => ⟨fun _ => rfl, fun _ => rfl⟩
  · exact fun _ _ => ⟨fun _ => rfl, fun _ => rfl⟩
  · intro r s first second
    have three : r = 3 := Option.some_inj.mp (first.symm.trans (by decide +kernel))
    subst three
    have four : s = 4 := Option.some_inj.mp (second.symm.trans (by decide +kernel))
    subst four
    exact ⟨by decide +kernel, by decide +kernel⟩

theorem access_mode_follows_reusingRun :
    let w := (Run.run (fdStep oneFile) atBoot reusingRun).1
    (((w.kernel.procs 0).fds 4).used = true ∧ w.desc 0 4 = .writeEnd) ∧
      processWrite oneFile w.kernel w.files 0 4 ≠ .refused (-ebadf) := by
  intro w
  have used : ((w.kernel.procs 0).fds 4).used = true := by decide +kernel
  have desc : w.desc 0 4 = .writeEnd := by decide +kernel
  refine ⟨⟨used, desc⟩, ?_⟩
  have follows := access_mode_follows_description oneFile atBoot reusingRun (fun _ _ => rfl)
    reusingRun_fitting 0 4 (by decide) used
  exact follows.2.2 (by rw [desc]; rfl)

/-- In a fresh process the write end of a pipe has the mode O_RDONLY of a cleared
slot, and a duplicate of the console on descriptor 5 has it too. -/
theorem pipe_write_end_unwritable :
    let w := (Run.run (fdStep oneFile) atBoot [.spawn 0 0 0#64, .pipe 0, .dup2 0 1 5]).1
    (((w.kernel.procs 0).fds 4).used = true ∧ w.desc 0 4 = .writeEnd ∧
        (w.desc 0 4).suits ((w.kernel.procs 0).fds 4).accessMode = false ∧
        processWrite oneFile w.kernel w.files 0 4 = .refused (-ebadf)) ∧
      ((w.kernel.procs 0).fds 5).used = true ∧ w.desc 0 5 = .console ∧
        (w.desc 0 5).suits ((w.kernel.procs 0).fds 5).accessMode = false ∧
        processWrite oneFile w.kernel w.files 0 5 = .refused (-ebadf) := by
  decide +kernel

end Isunux
