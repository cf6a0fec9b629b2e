import Isunux.MountNear

/-! `process_open` on the mounted tree. A call that does not come to write to a directory
leaves the tree alone, whatever it looks up. A call that stays out of the FAT volume does
what it does to tmpfs and the devices alone. -/
namespace Isunux.Mounts

section Model

variable (g : Geometry) (fuel : Nat) (k : Kernel) (s : Files Drivers) (p : Nat)

/-- The number of a vnode in a descriptor. -/
def nodeId (v : Vnode) : Nat := s.idOf v.place

/-- The end of `process_open`: permission checks and the search for a slot. -/
def installFd (node : Vnode) (flags : Nat) : Kernel × Int :=
  let mode := flags &&& oAccmode
  let who := k.procs p
  if (mode = oRdonly ∨ mode = oRdwr) ∧ vfsCheckPerm (ownerOf s node) who.uid who.gid (permBits .read) = false then
    (k, -eacces)
  else if (mode = oWronly ∨ mode = oRdwr) ∧
      vfsCheckPerm (ownerOf s node) who.uid who.gid (permBits .write) = false then
    (k, -eacces)
  else
    match findFreeFd k p 3 with
    | none => (k, -emfile)
    | some fd =>
      let start := if flags &&& oAppend ≠ 0 then sizeOf s node else 0#64
      (k.setFd p fd ⟨some (.node (nodeId s node)), start, true, mode⟩, fd)

def processOpen (path : List Char) (flags : Nat) : Option (Kernel × Files Drivers × Int) :=
  match locate g fuel s (k.procs p) path flags with
  | none => none
  | some (s, .error e) => some (k, s, e)
  | some (s, .ok node) => let r := installFd k s p node flags; some (r.1, s, r.2)

/-- What an open owes that does not create or empty a file of the volume: the tree of tmpfs and
the devices as `OpenMeets` says, and the volume as it was. -/
def OpenOwes (path : List Char) (flags : Nat) : Prop :=
  ∀ k' s' ret, processOpen g fuel k s p path flags = some (k', s', ret) →
    OpenMeets (devForeign s.devDir) (fun _ _ => []) s s' k p path flags k' ret ∧
      s'.other.fat.disk = s.other.fat.disk

variable (who : Process) (path : List Char) (flags : Nat)

/-- The call would come to write to the directory of the path. -/
def Reaches : Prop :=
  ∃ t dir name, resolveParentDir g fuel s who path = some (t, .ok (dir, name)) ∧ hasCalls t dir = true ∧
    vfsCheckPerm (ownerOf t dir) who.uid who.gid (permBits .write) = true

/-- The open is to create a file or to empty one, and comes to write to its directory. -/
def Changes : Prop :=
  ∃ t found, vfsResolvePathCwd g fuel s who.cwd path = some (t, found) ∧
    (if found = none then flags &&& oCreat ≠ 0
      else ¬ (flags &&& oCreat ≠ 0 ∧ flags &&& oExcl ≠ 0) ∧ flags &&& oTrunc ≠ 0 ∧ flags &&& oAccmode ≠ oRdonly) ∧
    Reaches g fuel t who path

end Model

section Idle

variable {g : Geometry} {fuel : Nat} {k k' : Kernel} {s t u : Files Drivers} {p : Nat} {v : Vnode} {who : Process}
  {path : List Char} {flags : Nat}

/-- Vnodes have been taken from the pool, and nothing else has happened. -/
structure Looked (s t : Files Drivers) : Prop where
  tmp : t.tmp = s.tmp
  mem : t.mem = s.mem
  devices : t.other.devices = s.other.devices
  mounts : t.devDir = s.devDir ∧ t.mntDir = s.mntDir
  disk : t.other.fat.disk = s.other.fat.disk

theorem Looked.refl : Looked s s := ⟨rfl, rfl, rfl, ⟨rfl, rfl⟩, rfl⟩

theorem Looked.trans (h : Looked s t) (h' : Looked t u) : Looked s u :=
  ⟨h'.tmp.trans h.tmp, h'.mem.trans h.mem, h'.devices.trans h.devices,
    ⟨h'.mounts.1.trans h.mounts.1, h'.mounts.2.trans h.mounts.2⟩, h'.disk.trans h.disk⟩

theorem fatDirLookup_disk {s t : Fat} {dir found : Option Nat} {name : List (BitVec 8)}
    (done : fatDirLookup g fuel s dir name = some (t, found)) : t.disk = s.disk := by
  have keeps : ScanKeeps (fatLookupVisitor name dir) fun c => c.1.disk = s.disk := by
    refine ⟨fun _ _ same => same, fun display raw _ lba off c same => ?_⟩
    unfold fatLookupVisitor fatAllocNode
    split
    · exact same
    split
    · rename_i full
      split at full <;> cases full
      exact same
    · rename_i alloc
      split at alloc <;> cases alloc
      exact same
  exact keeps.iterate (c := (s, none)) rfl done

theorem lookup_looked {dir : Vnode} {name : List Char} {found : Option Vnode}
    (done : lookup g fuel s dir name = some (t, found)) : Looked s t := by
  unfold lookup at done
  split at done
  · cases done
    exact .refl
  · cases done
    exact .refl
  · cases done
    exact .refl
  · obtain ⟨⟨fat, r⟩, looked, result⟩ := Option.map_eq_some_iff.mp done
    cases result
    exact ⟨rfl, rfl, rfl, ⟨rfl, rfl⟩, fatDirLookup_disk looked⟩

theorem resolve_looked {q : List Char} {found : Option Vnode} (done : vfsResolvePath g fuel s q = some (t, found)) :
    Looked s t := by
  have loop : ∀ {n : Nat} {s : Files Drivers} {v : Vnode} {p : List Char},
      resolveLoop g fuel n s v p = some (t, found) → Looked s t := by
    intro n s v p done
    rw [resolveLoop_trek] at done
    generalize moves (pieces n p) = ms at done
    induction ms generalizing s v with
    | nil =>
      cases done
      exact .refl
    | cons m ms ih =>
      cases m with
      | up => exact ih done
      | down a =>
        rw [Route.trek] at done
        rcases step : lookup g fuel s v a with _ | ⟨u, _ | w⟩
        · rw [step] at done
          cases done
        · rw [step] at done
          cases done
          exact lookup_looked step
        · rw [step] at done
          exact (lookup_looked step).trans (ih done)
  unfold vfsResolvePath at done
  split at done
  · exact loop done
  · cases done
    exact .refl

theorem resolveParentDir_looked {found : Except Int (Vnode × List Char)}
    (done : resolveParentDir g fuel s who path = some (t, found)) :
    Looked s t ∧ ∀ e, found = .error e → e < 0 := by
  unfold resolveParentDir at done
  dsimp only at done
  split at done
  · cases done
    exact ⟨.refl, fun e same => by cases same; decide⟩
  split at done
  · cases done
  · rename_i hit
    cases done
    exact ⟨resolve_looked hit, fun e same => by cases same; decide⟩
  · rename_i hit
    split at done
    · cases done
      exact ⟨resolve_looked hit, nofun⟩
    · cases done
      exact ⟨resolve_looked hit, fun e same => by cases same; decide⟩

/-- A call that does not come to write to the directory fails. -/
theorem parentCall_looked {op : Files Drivers → Vnode → List Char → Option (Files Drivers × Int)} {owned : Bool} {e : Int}
    (idle : ¬ Reaches g fuel s who path) (done : parentCall g fuel s op owned who path = some (t, e)) :
    Looked s t ∧ e < 0 := by
  unfold parentCall at done
  split at done
  · cases done
  · rename_i hit
    cases done
    exact ⟨(resolveParentDir_looked hit).1, (resolveParentDir_looked hit).2 _ rfl⟩
  · rename_i hit
    have looked := (resolveParentDir_looked hit).1
    split at done
    · cases done
      exact ⟨looked, by decide⟩
    rename_i calls
    split at done
    · cases done
      exact ⟨looked, by decide⟩
    rename_i allowed
    exact absurd ⟨_, _, _, hit, Bool.eq_true_of_not_eq_false calls, Bool.eq_true_of_not_eq_false allowed⟩ idle

theorem locate_looked {found : Except Int Vnode} (idle : ¬ Changes g fuel s who path flags)
    (done : locate g fuel s who path flags = some (t, found)) : Looked s t := by
  unfold locate at done
  split at done
  · cases done
  · rename_i s₁ hit
    have looked := resolve_looked hit
    split at done
    · cases done
      exact looked
    rename_i creates
    have stays : ¬ Reaches g fuel s₁ who path := fun reaches => idle ⟨_, none, hit, by rwa [if_pos rfl], reaches⟩
    unfold createAndResolve at done
    split at done
    · cases done
    rename_i e made
    obtain ⟨later, failed⟩ := parentCall_looked stays made
    rw [if_pos failed] at done
    cases done
    exact looked.trans later
  · rename_i s₁ node hit
    have looked := resolve_looked hit
    split at done
    · cases done
      exact looked
    rename_i exclusive
    split at done
    swap
    · cases done
      exact looked
    rename_i truncates
    have stays : ¬ Reaches g fuel s₁ who path := fun reaches =>
      idle ⟨_, some node, hit, by rw [if_neg (by simp)]; exact ⟨exclusive, truncates⟩, reaches⟩
    split at done
    · cases done
    rename_i e taken
    obtain ⟨later, failed⟩ := parentCall_looked stays taken
    rw [if_pos failed] at done
    cases done
    exact looked.trans later

theorem installFd_refused (failed : (installFd k s p v flags).2 < 0) : (installFd k s p v flags).1 = k := by
  unfold installFd at failed ⊢
  dsimp only at failed ⊢
  split
  · rfl
  · rename_i reads
    rw [if_neg reads] at failed
    split
    · rfl
    · rename_i writes
      rw [if_neg writes] at failed
      cases free : findFreeFd k p 3 with
      | none => rfl
      | some fd =>
        rw [free] at failed
        exact absurd failed (Int.not_lt.mpr (Int.natCast_nonneg fd))

theorem Looked.sees (looked : Looked s t) :
    SameTree (devForeign s.devDir) (fun _ _ => []) s t ∧ KeepsDirs (devForeign s.devDir) s t := by
  have look : t.lookup (devForeign s.devDir) = s.lookup (devForeign s.devDir) := by
    funext place name
    cases place with
    | tmp i =>
      unfold Files.lookup
      dsimp only
      rw [looked.tmp]
      rfl
    | foreign j => rfl
  have reached : ∀ names, t.reached (devForeign s.devDir) names = s.reached (devForeign s.devDir) names := fun names => by
    unfold Files.reached
    rw [look]
  refine ⟨fun names => ?_, fun names d here isDir => ⟨(reached names).trans here, ?_⟩⟩
  · unfold Files.view
    rw [reached]
    congr 1
    funext place
    cases place with
    | tmp i => simp only [Files.look, Files.ownerOf, contents, looked.tmp, looked.mem]
    | foreign j => simp only [Files.look, Files.ownerOf, Files.typeOf, devForeign, looked.devices]
  · rw [← isDir]
    cases d with
    | tmp i => simp only [Files.typeOf, looked.tmp]
    | foreign j => rfl

theorem idle_owes (idle : ¬ Changes g fuel s (k.procs p) path flags) : OpenOwes g fuel k s p path flags := by
  intro k' s' ret done
  unfold processOpen at done
  split at done
  · cases done
  · rename_i located
    cases done
    have looked := locate_looked idle located
    obtain ⟨same, dirs⟩ := looked.sees
    exact ⟨⟨fun _ => ⟨same, rfl⟩, fun _ => .inl same, dirs⟩, looked.disk⟩
  · rename_i located
    cases done
    have looked := locate_looked idle located
    obtain ⟨same, dirs⟩ := looked.sees
    exact ⟨⟨fun failed => ⟨same, installFd_refused failed⟩, fun _ => .inl same, dirs⟩, looked.disk⟩

end Idle

section Near

variable {g : Geometry} {fuel : Nat} {k : Kernel} {s t : Files Drivers} {kids : Nat → List Nat} {p : Nat} {v : Vnode}
  {who : Process} {path : List Char} {flags : Nat}

/-- The outcome of a call on the mounted tree, and of the same call without the volume. -/
structure Agrees (s t : Files Drivers) (found : Except Int Vnode) (r : Files Drivers × Except Int Nat) : Prop where
  files : r.1 = t
  nodes : r.2 = found.map fun v => nodeId t v
  settled : ∃ kids, Hosted t kids ∧ ∀ v, found = .ok v → Ashore v ∧ Settled t.tmp kids v.place
  other : t.other = s.other
  dev : t.devDir = s.devDir

theorem devForeign_fixed {dir : Place} (abroad : Abroad s dir) : s.mutable (devForeign s.devDir) dir = false := by
  cases dir with
  | tmp i =>
    unfold Files.mutable
    dsimp only
    cases ops : (s.tmp.nodes i).ops with
    | tmpfsFile => rfl
    | tmpfsDir => exact absurd ops abroad
    | foreign => rfl
  | foreign j => rfl

variable (g fuel) in
theorem resolve_agrees (h : Hosted s kids) {q : List Char}
    (dry : Dry s (.tmp 0) (wayTo q ++ Isunux.route (lastName q))) :
    ∃ found : Option Vnode, vfsResolvePath g fuel s q = some (s, found) ∧
      Isunux.vfsResolvePath (devForeign s.devDir) s q = found.map Vnode.place ∧
        ∀ v, found = some v → Ashore v ∧ Settled s.tmp kids v.place := by
  obtain ⟨found, resolved, ashore, other⟩ := resolve_near g fuel dry
  refine ⟨found, resolved, other, fun v same => ⟨ashore v same, ?_⟩⟩
  rw [same] at other
  exact h.resolve_settled _ other

variable (g fuel) in
theorem createAndResolve_near (h : Hosted s kids) (near : WayNear s (vfsCombinePath who.cwd path)) :
    ∃ t found, createAndResolve g fuel s who path = some (t, found) ∧
      Agrees s t found (Isunux.createAndResolve (vfsTree (devForeign s.devDir)) s who path) := by
  unfold createAndResolve Isunux.createAndResolve
  rw [processCreate_near h near]
  have create : (vfsTree (devForeign s.devDir)).create s who path = Isunux.processCreate (devForeign s.devDir) s who path := rfl
  rw [create]
  obtain ⟨found, resolved, ok, other⟩ := resolveParentDir_near g fuel near
  have outcome : (∃ e, e < 0 ∧ Isunux.processCreate (devForeign s.devDir) s who path = (s, e)) ∨
      ∃ d name, Isunux.resolveParentDir (devForeign s.devDir) s who path = .ok (.tmp d, name) ∧
        (s.tmp.nodes d).type = .dir ∧ (createdNode s who d name).name = name ∧
        Makes (MayWrite s.tmp who.uid who.gid) who.uid who.gid s.tmp (s.tmp.grow d (createdNode s who d name)) d
          (createdNode s who d name) ∧
        Isunux.processCreate (devForeign s.devDir) s who path =
          (withEntry d (createdNode s who d name) (pmmAllocPages s.pmm 1).1 s, 0) := by
    rcases @parentDir_cases _ (devForeign s.devDir) s who path with
      ⟨e, failed, negative⟩ | ⟨d, name, home, native⟩ | ⟨dir, name, away, abroad⟩
    · exact .inl ⟨e, negative, parentCall_error failed⟩
    · obtain ⟨bound, isDir⟩ := h.parentDir _ home
      rcases processCreate_home (devForeign s.devDir) h.tree bound home native with
        ⟨same, failed, -⟩ | ⟨-, named, made, result⟩
      · exact .inl ⟨_, failed, Prod.ext same rfl⟩
      · exact .inr ⟨d, name, home, isDir, named, made, result⟩
    · exact .inl ⟨-erofs, by decide, parentCall_fixed away (devForeign_fixed abroad)⟩
  rcases outcome with ⟨e, failed, result⟩ | ⟨d, name, home, isDir, named, made, result⟩
  · rw [result]
    dsimp only
    rw [if_pos failed, if_pos failed]
    exact ⟨s, .error e, rfl, rfl, rfl, ⟨kids, h, fun v same => by cases same⟩, rfl, rfl⟩
  · rw [result]
    have place : found = .ok (.tmp d, name) := by
      rw [home] at other
      cases found with
      | error e => cases other
      | ok r =>
        obtain ⟨v, name'⟩ := r
        obtain ⟨here, -, -⟩ := ok v name' rfl
        obtain ⟨same, rfl⟩ := Prod.mk.inj (Except.ok.inj other)
        cases v with
        | tmp i =>
          cases same
          rfl
        | dev j => cases same
        | fat j => exact here.elim
    obtain ⟨-, -, arrived⟩ := ok _ _ place
    have parts := parted (place ▸ resolved : resolveParentDir g fuel s who path = some (s, .ok (.tmp d, name)))
    have root : Outside s (.tmp 0) := h.tree.root.2
    obtain ⟨dry, walked⟩ := Dry.grown (pmmAllocPages s.pmm 1).1 h made isDir root near.1 arrived
    have last := end_dry (pmmAllocPages s.pmm 1).1 h made isDir parts.named (lastName_plain parts.absolute)
      (lastName_short parts.absolute parts.short) (named.trans parts.cut)
    obtain ⟨kids', hosted, -⟩ := @Hosted.create _ (devForeign s.devDir) _ _ who path h
    rw [result] at hosted
    have hosted : Hosted (withEntry d (createdNode s who d name) (pmmAllocPages s.pmm 1).1 s) kids' := hosted
    obtain ⟨found', onto, other', settled⟩ := resolve_agrees g fuel hosted
      (dry_append.mpr ⟨dry, fun w arrived' => by
        rw [walked] at arrived'
        cases arrived'
        exact last⟩)
    have zero : ¬ (0 : Int) < 0 := by decide
    dsimp only
    rw [if_neg zero, if_neg zero]
    have onto : vfsResolvePathCwd g fuel (withEntry d (createdNode s who d name) (pmmAllocPages s.pmm 1).1 s) who.cwd path =
        some (withEntry d (createdNode s who d name) (pmmAllocPages s.pmm 1).1 s, found') := onto
    have resolve : (vfsTree (devForeign s.devDir)).resolve
        (withEntry d (createdNode s who d name) (pmmAllocPages s.pmm 1).1 s) who.cwd path =
        (found'.map Vnode.place).map (withEntry d (createdNode s who d name) (pmmAllocPages s.pmm 1).1 s).idOf :=
      congrArg (Option.map _) other'
    rw [onto, resolve]
    cases found' with
    | none => exact ⟨_, _, rfl, rfl, rfl, ⟨kids', hosted, fun v same => by cases same⟩, rfl, rfl⟩
    | some node =>
      refine ⟨_, _, rfl, rfl, rfl, ⟨kids', hosted, fun v same => ?_⟩, rfl, rfl⟩
      cases same
      exact settled node rfl

variable (g fuel flags) in
theorem locate_near (r : Regular (devForeign s.devDir) s kids) (near : StaysNear s (vfsCombinePath who.cwd path)) :
    ∃ t found, locate g fuel s who path flags = some (t, found) ∧
      Agrees s t found (Isunux.locate (vfsTree (devForeign s.devDir)) s who path flags) := by
  have h := r.hosted
  obtain ⟨found, resolved, other, settled⟩ := resolve_agrees g fuel h near.1
  have onto : vfsResolvePathCwd g fuel s who.cwd path = some (s, found) := resolved
  have resolve : (vfsTree (devForeign s.devDir)).resolve s who.cwd path = (found.map Vnode.place).map s.idOf :=
    congrArg (Option.map _) other
  unfold locate Isunux.locate
  rw [onto, resolve]
  cases found with
  | none =>
    dsimp only [Option.map_none]
    by_cases creates : flags &&& oCreat = 0
    · rw [if_pos creates, if_pos creates]
      exact ⟨s, _, rfl, rfl, rfl, ⟨kids, h, fun v same => by cases same⟩, rfl, rfl⟩
    · rw [if_neg creates, if_neg creates]
      exact createAndResolve_near _ _ h near.way
  | some node =>
    dsimp only [Option.map_some]
    by_cases exclusive : flags &&& oCreat ≠ 0 ∧ flags &&& oExcl ≠ 0
    · rw [if_pos exclusive, if_pos exclusive]
      exact ⟨s, _, rfl, rfl, rfl, ⟨kids, h, fun v same => by cases same⟩, rfl, rfl⟩
    rw [if_neg exclusive, if_neg exclusive]
    by_cases truncates : flags &&& oTrunc ≠ 0 ∧ flags &&& oAccmode ≠ oRdonly
    swap
    · rw [if_neg truncates, if_neg truncates]
      refine ⟨s, _, rfl, rfl, rfl, ⟨kids, h, fun v same => ?_⟩, rfl, rfl⟩
      cases same
      exact settled node rfl
    rw [if_pos truncates, if_pos truncates, processUnlink_near h near.way]
    have unlink : (vfsTree (devForeign s.devDir)).unlink s who path = Isunux.processUnlink (devForeign s.devDir) s who path :=
      rfl
    rw [unlink]
    have outcome : (∃ e, e < 0 ∧ Isunux.processUnlink (devForeign s.devDir) s who path = (s, e)) ∨
        ∃ d i name pmm, Unlinks (devForeign s.devDir) s who path d i name ∧
          Isunux.processUnlink (devForeign s.devDir) s who path = (s.without d i pmm, 0) := by
      rcases @parentDir_cases _ (devForeign s.devDir) s who path with
        ⟨e, failed, negative⟩ | ⟨d, name, home, native⟩ | ⟨dir, name, away, abroad⟩
      · exact .inl ⟨e, negative, parentCall_error failed⟩
      · rcases processUnlink_home (devForeign s.devDir) home native with ⟨same, failed, -⟩ | ⟨i, pmm, u, result⟩
        · exact .inl ⟨_, failed, Prod.ext same rfl⟩
        · exact .inr ⟨d, i, name, pmm, u, result⟩
      · exact .inl ⟨-erofs, by decide, parentCall_fixed away (devForeign_fixed abroad)⟩
    rcases outcome with ⟨e, failed, result⟩ | ⟨d, i, name, pmm, u, result⟩
    · rw [result]
      dsimp only
      rw [if_pos failed, if_pos failed]
      exact ⟨s, .error e, rfl, rfl, rfl, ⟨kids, h, fun v same => by cases same⟩, rfl, rfl⟩
    · rw [result]
      have zero : ¬ (0 : Int) < 0 := by decide
      dsimp only
      rw [if_neg zero, if_neg zero]
      have hosted : Hosted (s.without d i pmm) (withoutKid kids d i) :=
        h.unchain (r.listed _ u.entry).1 rfl ⟨rfl, rfl⟩
      obtain ⟨t, found, done, agrees⟩ := createAndResolve_near g fuel hosted
        (wayNear_without r u.entry pmm near.way)
      exact ⟨t, found, done, agrees.files, agrees.nodes, agrees.settled, agrees.other, agrees.dev⟩

theorem sizeOf_place (h : Hosted s kids) (here : Ashore v) (settled : Settled s.tmp kids v.place) :
    ((vfsTree (devForeign s.devDir)).size s (nodeId s v)).getD 0#64 = sizeOf s v := by
  have place : placeOf (nodeId s v) = v.place := placeOf_idOf h settled
  unfold vfsTree
  dsimp only
  rw [place]
  cases v with
  | tmp i =>
    have low : i < s.tmp.count := settled.1
    have most := h.tree.most
    have opened := h.tree.ops i low
    simp only [Vnode.place, nodeId, Files.idOf, sizeOf, fileId, dirId, isFileId]
    by_cases file : (s.tmp.nodes i).type = .file
    · have even : (2 * i) % 2 = 0 := by omega
      have small : 2 * i < 2 * tmpfsMaxNodes := by omega
      simp [file, opened.mpr file, even, small]
    · have odd : (2 * i + 1) % 2 = 1 := by omega
      have closed : (s.tmp.nodes i).ops ≠ .tmpfsFile := fun ops => file (opened.mp ops)
      simp [file, closed, odd]
  | dev j => rfl
  | fat j => exact here.elim

variable (k p flags) in
theorem installFd_near (h : Hosted s kids) (here : Ashore v) (settled : Settled s.tmp kids v.place) :
    Isunux.installFd (vfsTree (devForeign s.devDir)) k s p (nodeId s v) flags = installFd k s p v flags := by
  have place : placeOf (nodeId s v) = v.place := placeOf_idOf h settled
  have check : ∀ want, (vfsTree (devForeign s.devDir)).checkPerm s (.node (nodeId s v)) (k.procs p).uid (k.procs p).gid want =
      vfsCheckPerm (ownerOf s v) (k.procs p).uid (k.procs p).gid (permBits want) := by
    intro want
    unfold vfsTree
    dsimp only
    rw [place, ownerOf_place here]
  unfold Isunux.installFd installFd
  cases findFreeFd k p 3 with
  | none => simp only [check]
  | some fd => simp only [check, sizeOf_place h here settled]

variable (g fuel flags) in
/-- An open that stays out of the volume is what tmpfs and the devices alone make of it. -/
theorem processOpen_near (r : Regular (devForeign s.devDir) s kids)
    (near : StaysNear s (vfsCombinePath (k.procs p).cwd path)) :
    processOpen g fuel k s p path flags = some (Isunux.processOpen (vfsTree (devForeign s.devDir)) k s p path flags) ∧
      (Isunux.processOpen (vfsTree (devForeign s.devDir)) k s p path flags).2.1.other = s.other := by
  obtain ⟨t, found, located, agrees⟩ := locate_near g fuel flags r near
  obtain ⟨files, nodes, ⟨kids', hosted, settled⟩, other, dev⟩ := agrees
  unfold processOpen Isunux.processOpen
  rw [located]
  generalize Isunux.locate (vfsTree (devForeign s.devDir)) s (k.procs p) path flags = l at files nodes
  obtain ⟨t', id⟩ := l
  obtain rfl : t' = t := files
  obtain rfl : id = found.map fun v => nodeId t' v := nodes
  cases found with
  | error e => exact ⟨rfl, other⟩
  | ok v =>
    obtain ⟨here, place⟩ := settled v rfl
    have install := installFd_near k p flags hosted here place
    rw [dev] at install
    dsimp only [Except.map]
    rw [install]
    exact ⟨rfl, other⟩

end Near

theorem Rooted.regular {s : Files Drivers} {kids : Nat → List Nat} (r : Rooted s kids) (top : ∀ d, 0 ∉ kids d)
    (root : (s.tmp.nodes 0).parent = 0) : Regular (devForeign s.devDir) s kids := by
  refine ⟨r.hosted, r.parent, r.names, top, congrArg Place.tmp root, fun place a next step => ?_⟩
  cases next with
  | tmp i =>
    obtain ⟨e, rfl, -, found⟩ := lookup_tmp _ step
    exact congrArg Place.tmp (r.parent e i (r.hosted.tree.lookup_mem found))
  | foreign j =>
    have device : ∀ {place : Place}, ((devForeign s.devDir).lookup s.other place a).map Place.foreign = some (.foreign j) →
        place = .tmp s.devDir := by
      intro place step
      by_contra other
      simp only [devForeign, if_neg other] at step
      cases step
    unfold Files.lookup at step
    split at step
    · split at step
      · cases step
      · obtain ⟨i, -, same⟩ := Option.map_eq_some_iff.mp step
        cases same
      · exact (device step).symm
    · exact (device step).symm

/-- A freshly started process, root in the root directory. -/
def firstShell : Kernel := (storeStep consoleOnly nothingElse smallStore (.call (.spawn 0 0 0#64))).1.kernel

theorem mountedVolume_regular : Regular (devForeign mountedVolume.devDir) mountedVolume mountedKids :=
  mountedVolume_rooted.regular (fun d mem => by
    obtain ⟨-, same | same⟩ := mem_mountedKids mem
    · cases same
    · cases same) rfl

end Isunux.Mounts
