import Isunux.TmpfsRuns

/-! What the path calls do to the tmpfs tree: they put one new node into a directory,
take one entry out of a directory, or leave the tree alone. -/
namespace Isunux

def TmpfsNode.label (n : TmpfsNode) : TmpfsNode := { n with firstChild := none, nextSibling := none }

/-- One node more in directory `d`, with a name that the directory does not have, made
by someone who may write to the directory. -/
structure Makes (W : Nat → Prop) (uid gid : Word) (t t' : Tmpfs) (d : Nat) (n : TmpfsNode) : Prop where
  writable : W d
  bound : d < t.count
  native : (t.nodes d).ops = .tmpfsDir
  room : t.count < tmpfsMaxNodes
  fresh : tmpfsDirLookup t d n.name = none
  short : n.name.length < vfsMaxName
  bare : n.firstChild = none
  parent : n.parent = d
  kind : n.ops = .tmpfsFile ∧ n.type = .file ∨ n.ops = .tmpfsDir ∧ n.type = .dir
  owner : n.uid = uid ∧ n.gid = gid
  after : t' = t.grow d n

/-- The entry `i` taken out of directory `d`. -/
structure Removes (W : Nat → Prop) (t t' : Tmpfs) (d i : Nat) : Prop where
  writable : W d
  listed : i ∈ t.children d
  empty : (t.nodes i).type = .dir → (t.nodes i).firstChild = none
  after : t' = t.unchain d i

/-- Two nodes agree in everything but the links. -/
structure SameLabel (a b : TmpfsNode) : Prop where
  type : a.type = b.type
  ops : a.ops = b.ops
  name : a.name = b.name
  parent : a.parent = b.parent
  owner : a.uid = b.uid ∧ a.gid = b.gid ∧ a.mode = b.mode
  size : a.size = b.size

theorem TmpfsNode.label_eq {a b : TmpfsNode} (h : a.label = b.label) : SameLabel a b := by
  simp only [TmpfsNode.label, TmpfsNode.mk.injEq] at h
  obtain ⟨type, ops, name, parent, uid, gid, mode, -, size, -⟩ := h
  exact ⟨type, ops, name, parent, ⟨uid, gid, mode⟩, size⟩

section Labels

variable {t : Tmpfs} {d i : Nat}

theorem set_label (t : Tmpfs) (i : Nat) {n : TmpfsNode} (same : n.label = (t.nodes i).label) (j : Nat) :
    ((t.set i n).nodes j).label = (t.nodes j).label := by
  by_cases here : j = i
  · subst here
    simpa [Tmpfs.set] using same
  · simp [Tmpfs.set, here]

theorem unchain_label (t : Tmpfs) (d i j : Nat) : ((t.unchain d i).nodes j).label = (t.nodes j).label := by
  unfold Tmpfs.unchain
  split
  · refine set_label t _ ?_ j
    rfl
  · refine set_label t _ ?_ j
    rfl

theorem grow_newNode (n : TmpfsNode) (bound : d < t.count) :
    (t.grow d n).nodes t.count = { n with nextSibling := (t.nodes d).firstChild } := by
  rw [grow_nodes n bound, if_neg (Nat.ne_of_lt bound).symm, if_pos rfl]

theorem grow_oldNode (n : TmpfsNode) (bound : d < t.count) {j : Nat} (old : j ≠ t.count) :
    (t.grow d n).nodes j = if j = d then { t.nodes d with firstChild := some t.count } else t.nodes j := by
  rw [grow_nodes n bound, if_neg old]

theorem grow_label {n : TmpfsNode} (bound : d < t.count) {j : Nat} (old : j ≠ t.count) :
    ((t.grow d n).nodes j).label = (t.nodes j).label := by
  rw [grow_oldNode n bound old]
  split
  · rename_i here
    subst here
    rfl
  · rfl

theorem grow_set (n : TmpfsNode) (bound : d < t.count) (uid gid : Word) :
    (t.grow d n).set t.count { (t.grow d n).nodes t.count with uid := uid, gid := gid } =
      t.grow d { n with uid := uid, gid := gid } := by
  have nodes : ((t.grow d n).set t.count
      { (t.grow d n).nodes t.count with uid := uid, gid := gid }).nodes =
      (t.grow d { n with uid := uid, gid := gid }).nodes := by
    funext j
    simp only [Tmpfs.set]
    by_cases here : j = t.count
    · subst here
      rw [Function.update_self, grow_newNode n bound, grow_newNode _ bound]
    · rw [Function.update_of_ne here, grow_oldNode n bound here, grow_oldNode _ bound here]
  exact congrArg (fun nodes => Tmpfs.mk nodes (t.count + 1)) nodes

end Labels

/-- `vfs_check_perm` for writing to a node of the pool. -/
def MayWrite (t : Tmpfs) (uid gid : Word) (i : Nat) : Prop :=
  vfsCheckPerm ((t.nodes i).uid, (t.nodes i).gid, (t.nodes i).mode) uid gid (permBits .write) = true

section Calls

variable {F : Type} (fs : Foreign F) {s : Files F} {who : Process} {path : List Char}
  {kids : Nat → List Nat}

/-- The directory is another file system's. -/
def Abroad (s : Files F) : Place → Prop
  | .tmp d => (s.tmp.nodes d).ops ≠ .tmpfsDir
  | .foreign _ => True

theorem resolveParentDir_ok {dir : Place} {name : List Char}
    (found : resolveParentDir fs s who path = .ok (dir, name)) :
    name.length < vfsMaxName ∧ s.typeOf fs dir = .dir ∧ ∃ q, vfsResolvePath fs s q = some dir := by
  unfold resolveParentDir at found
  dsimp only at found
  split at found
  · cases found
  · split at found
    · cases found
    · rename_i hit
      split at found
      · rename_i isDir
        cases found
        refine ⟨?_, isDir, _, hit⟩
        have cut : ∀ w : List Char, (w.take (vfsMaxName - 1)).length < vfsMaxName := by
          intro w
          have := List.length_take_le (vfsMaxName - 1) w
          exact Nat.lt_of_le_of_lt this (by decide)
        unfold vfsSplitPath
        split <;> exact cut _
      · cases found

theorem parentCall_cases (op : Place → List Char → Files F × Int) (owned : Bool) :
    ((parentCall fs s op owned who path).1 = s ∧ (parentCall fs s op owned who path).2 < 0) ∨
    ∃ dir name, resolveParentDir fs s who path = .ok (dir, name) ∧
      vfsCheckPerm (s.ownerOf fs dir) who.uid who.gid (permBits .write) = true ∧
      (parentCall fs s op owned who path).2 = (op dir name).2 ∧
      ((parentCall fs s op owned who path).1 = (op dir name).1 ∧
          (owned = true → (op dir name).2 = 0 → (op dir name).1.lookup fs dir name = none) ∨
        owned = true ∧ (op dir name).2 = 0 ∧ ∃ created, (op dir name).1.lookup fs dir name = some created ∧
          (parentCall fs s op owned who path).1 = (op dir name).1.chown fs who.uid who.gid created) := by
  unfold parentCall
  cases found : resolveParentDir fs s who path with
  | error e =>
    have negative : e < 0 := by
      unfold resolveParentDir at found
      dsimp only at found
      split at found
      · cases found
        decide
      · split at found
        · cases found
          decide
        · split at found
          · cases found
          · cases found
            decide
    exact .inl ⟨rfl, negative⟩
  | ok target =>
    obtain ⟨dir, name⟩ := target
    dsimp only
    split
    · exact .inl ⟨rfl, (by decide : -erofs < 0)⟩
    split
    · exact .inl ⟨rfl, (by decide : -eacces < 0)⟩
    rename_i allowed
    rw [Bool.not_eq_false] at allowed
    refine .inr ⟨dir, name, rfl, allowed, ?_⟩
    split
    · rename_i success
      cases hit : (op dir name).1.lookup fs dir name with
      | none => exact ⟨rfl, .inl ⟨rfl, fun _ _ => rfl⟩⟩
      | some created => exact ⟨rfl, .inr ⟨success.1, success.2, created, rfl, rfl⟩⟩
    · rename_i failed
      exact ⟨rfl, .inl ⟨rfl, fun isOwned zero => absurd ⟨isOwned, zero⟩ failed⟩⟩

/-- A new node, as `tmpfs_create_file` and `tmpfs_create_dir` fill it in. -/
structure FreshNode (d : Nat) (name : List Char) (n : TmpfsNode) : Prop where
  name : n.name = setName name
  bare : n.firstChild = none
  parent : n.parent = d
  kind : n.ops = .tmpfsFile ∧ n.type = .file ∨ n.ops = .tmpfsDir ∧ n.type = .dir

/-- `tmpfs_dir_create` and `tmpfs_dir_mkdir` fail, or link a fresh node. -/
def MakesOrFails (op : Files F → Nat → List Char → Files F × Int) : Prop :=
  ∀ s d name, ((op s d name).1 = s ∧ (op s d name).2 < 0) ∨
    tmpfsDirLookup s.tmp d name = none ∧ s.tmp.count < tmpfsMaxNodes ∧
      ∃ n pmm, FreshNode d name n ∧ op s d name = ({ s with tmp := s.tmp.grow d n, pmm := pmm }, 0)

/-- One call of the two fails, or links this node. -/
def AddsOrFails (op : Files F → Nat → List Char → Files F × Int) (s : Files F) (d : Nat) (name : List Char)
    (n : TmpfsNode) (pmm : Pmm) : Prop :=
  ((op s d name).1 = s ∧ (op s d name).2 < 0) ∨
    tmpfsDirLookup s.tmp d name = none ∧ s.tmp.count < tmpfsMaxNodes ∧
      op s d name = ({ s with tmp := s.tmp.grow d n, pmm := pmm }, 0)

theorem fileNode_fresh (d : Nat) (name : List Char) (f : Nat) : FreshNode d name (fileNode d name f) :=
  ⟨rfl, rfl, rfl, .inl ⟨rfl, rfl⟩⟩

theorem dirNode_fresh (d : Nat) (name : List Char) : FreshNode d name (dirNode d name) :=
  ⟨rfl, rfl, rfl, .inr ⟨rfl, rfl⟩⟩

theorem MakesOrFails.adds {op : Files F → Nat → List Char → Files F × Int} (makes : MakesOrFails op) (s : Files F)
    (d : Nat) (name : List Char) : ∃ n pmm, FreshNode d name n ∧ AddsOrFails op s d name n pmm := by
  rcases makes s d name with failed | ⟨absent, room, n, pmm, fresh, eq⟩
  · exact ⟨dirNode d name, s.pmm, dirNode_fresh d name, .inl failed⟩
  · exact ⟨n, pmm, fresh, .inr ⟨absent, room, eq⟩⟩

theorem tmpfsDirCreate_adds (s : Files F) (d : Nat) (name : List Char) :
    AddsOrFails tmpfsDirCreate s d name (fileNode d name (pmmAllocPages s.pmm 1).2) (pmmAllocPages s.pmm 1).1 := by
  unfold AddsOrFails tmpfsDirCreate
  cases absent : tmpfsDirLookup s.tmp d name with
  | some i => exact .inl ⟨rfl, (by decide : -eexist < 0)⟩
  | none =>
    dsimp only
    rw [tmpfsCreateFile_eq]
    by_cases full : s.tmp.count ≥ tmpfsMaxNodes
    · rw [if_pos full]
      exact .inl ⟨rfl, (by decide : -enomem < 0)⟩
    · rw [if_neg full]
      exact .inr ⟨rfl, Nat.lt_of_not_le full, rfl⟩

theorem tmpfsDirMkdir_adds (s : Files F) (d : Nat) (name : List Char) :
    AddsOrFails tmpfsDirMkdir s d name (dirNode d name) s.pmm := by
  unfold AddsOrFails tmpfsDirMkdir
  cases absent : tmpfsDirLookup s.tmp d name with
  | some i => exact .inl ⟨rfl, (by decide : -eexist < 0)⟩
  | none =>
    dsimp only
    rw [tmpfsCreateDir_eq]
    by_cases full : s.tmp.count ≥ tmpfsMaxNodes
    · rw [if_pos full]
      exact .inl ⟨rfl, (by decide : -enomem < 0)⟩
    · rw [if_neg full]
      exact .inr ⟨rfl, Nat.lt_of_not_le full, rfl⟩

theorem tmpfsDirCreate_makes : MakesOrFails (F := F) tmpfsDirCreate := by
  intro s d name
  refine (tmpfsDirCreate_adds s d name).imp_right fun ⟨absent, room, eq⟩ => ?_
  exact ⟨absent, room, _, _, fileNode_fresh d name _, eq⟩

theorem tmpfsDirMkdir_makes : MakesOrFails (F := F) tmpfsDirMkdir := by
  intro s d name
  refine (tmpfsDirMkdir_adds s d name).imp_right fun ⟨absent, room, eq⟩ => ?_
  exact ⟨absent, room, _, _, dirNode_fresh d name, eq⟩

theorem opened_of_kind {n : TmpfsNode}
    (kind : n.ops = .tmpfsFile ∧ n.type = .file ∨ n.ops = .tmpfsDir ∧ n.type = .dir) :
    n.ops = .tmpfsFile ↔ n.type = .file := by
  rcases kind with ⟨ops, type⟩ | ⟨ops, type⟩ <;> rw [ops, type] <;> decide

theorem lookup_grown (ok : TreeOk s.tmp kids) {d : Nat} {n : TmpfsNode} {name : List Char} (pmm : Pmm)
    (bound : d < s.tmp.count) (dir : (s.tmp.nodes d).type = .dir) (native : (s.tmp.nodes d).ops = .tmpfsDir)
    (room : s.tmp.count < tmpfsMaxNodes) (fresh : FreshNode d name n) (short : name.length < vfsMaxName) :
    Files.lookup fs { s with tmp := s.tmp.grow d n, pmm := pmm } (.tmp d) name = some (.tmp s.tmp.count) := by
  have other : d ≠ s.tmp.count := Nat.ne_of_lt bound
  have grown := ok.grow bound dir room fresh.bare fresh.parent (opened_of_kind fresh.kind)
  have ops : ((s.tmp.grow d n).nodes d).ops = .tmpfsDir := by
    rw [grow_oldNode n bound other, if_pos rfl]
    exact native
  have hit : tmpfsDirLookup (s.tmp.grow d n) d name = some s.tmp.count := by
    unfold tmpfsDirLookup
    rw [grown.children, withKid, Function.update_self, List.find?_cons_of_pos]
    rw [grow_newNode n bound, decide_eq_true_eq]
    dsimp only
    rw [fresh.name, setName, List.take_of_length_le (Nat.le_sub_one_of_lt short)]
  unfold Files.lookup
  dsimp only
  rw [ops]
  dsimp only
  rw [hit]
  rfl

theorem lookup_abroad {dir created : Place} {name : List Char} (abroad : Abroad s dir)
    (hit : s.lookup fs dir name = some created) : ∃ j, created = .foreign j := by
  unfold Files.lookup at hit
  cases dir with
  | tmp d =>
    dsimp only at hit
    split at hit
    · cases hit
    · rename_i native
      exact absurd native abroad
    · obtain ⟨j, -, rfl⟩ := Option.map_eq_some_iff.mp hit
      exact ⟨j, rfl⟩
  | foreign i =>
    obtain ⟨j, -, rfl⟩ := Option.map_eq_some_iff.mp hit
    exact ⟨j, rfl⟩

theorem dirOp_abroad (op : Files F → Nat → List Char → Files F × Int)
    (foreign : F → Place → List Char → F × Int) {dir : Place} (abroad : Abroad s dir) (name : List Char) :
    dirOp s op foreign dir name = ({ s with other := (foreign s.other dir name).1 }, (foreign s.other dir name).2) := by
  unfold dirOp
  cases dir with
  | tmp d => exact if_neg abroad
  | foreign j => rfl

theorem not_abroad {dir : Place} (home : ¬ Abroad s dir) :
    ∃ d, dir = .tmp d ∧ (s.tmp.nodes d).ops = .tmpfsDir := by
  cases dir with
  | tmp d => exact ⟨d, rfl, not_not.mp home⟩
  | foreign j => exact absurd trivial home

theorem parentCall_abroad {op : Files F → Nat → List Char → Files F × Int}
    {foreign : F → Place → List Char → F × Int} {owned : Bool} {dir : Place} {name : List Char}
    (abroad : Abroad s dir) {after : Files F}
    (effect : after = (dirOp s op foreign dir name).1 ∧
          (owned = true → (dirOp s op foreign dir name).2 = 0 →
            (dirOp s op foreign dir name).1.lookup fs dir name = none) ∨
        owned = true ∧ (dirOp s op foreign dir name).2 = 0 ∧
          ∃ created, (dirOp s op foreign dir name).1.lookup fs dir name = some created ∧
            after = (dirOp s op foreign dir name).1.chown fs who.uid who.gid created) :
    after.tmp = s.tmp := by
  rw [dirOp_abroad op foreign abroad] at effect
  rcases effect with ⟨rfl, -⟩ | ⟨-, -, created, hit, rfl⟩
  · rfl
  · obtain ⟨j, rfl⟩ := lookup_abroad fs (s := { s with other := (foreign s.other dir name).1 }) abroad hit
    rfl

/-- In a directory of tmpfs they fail, or link the node that the operation makes there and give
it to the caller. -/
theorem made_at_home (ok : TreeOk s.tmp kids) {op : Files F → Nat → List Char → Files F × Int}
    (foreign : F → Place → List Char → F × Int) {d : Nat} {name : List Char} {n : TmpfsNode} {pmm : Pmm}
    (found : resolveParentDir fs s who path = .ok (.tmp d, name)) (native : (s.tmp.nodes d).ops = .tmpfsDir)
    (bound : d < s.tmp.count) (fresh : FreshNode d name n)
    (does : AddsOrFails op s d name n pmm) :
    let r := parentCall fs s (dirOp s op foreign) true who path
    let n' := { n with uid := who.uid, gid := who.gid }
    (r.1 = s ∧ r.2 < 0) ∨
      r.2 = 0 ∧ n.name = name ∧ r.1 = { s with tmp := s.tmp.grow d n', pmm := pmm } ∧
        Makes (MayWrite s.tmp who.uid who.gid) who.uid who.gid s.tmp r.1.tmp d n' := by
  intro r n'
  rcases @parentCall_cases _ fs s who path (dirOp s op foreign) true with
    ⟨same, failed⟩ | ⟨dir, name', found', allowed, result, effect⟩
  · exact .inl ⟨same, failed⟩
  rw [found] at found'
  cases found'
  obtain ⟨short, isDir, -⟩ := resolveParentDir_ok fs found
  have home : dirOp s op foreign (.tmp d) name = op s d name := if_pos native
  rw [home] at result effect
  rcases does with ⟨same, failed⟩ | ⟨absent, room, eq⟩
  · refine .inl ⟨?_, result ▸ failed⟩
    rcases effect with ⟨after, -⟩ | ⟨-, zero, -⟩
    · exact after.trans same
    · omega
  · rw [eq] at result effect
    have hit := lookup_grown fs ok pmm bound isDir native room fresh short
    rcases effect with ⟨-, missing⟩ | ⟨-, -, created, here, after⟩
    · rw [missing rfl rfl] at hit
      cases hit
    · cases hit.symm.trans here
      have name_eq : n.name = name := by
        rw [fresh.name, setName, List.take_of_length_le (Nat.le_sub_one_of_lt short)]
      have whole : r.1 = { s with tmp := s.tmp.grow d n', pmm := pmm } := by
        rw [show r.1 = _ from after, Files.chown]
        dsimp only
        rw [grow_set n bound who.uid who.gid]
      refine .inr ⟨result, name_eq, whole, allowed, bound, native, room, ?_, ?_, fresh.bare, fresh.parent, fresh.kind,
        ⟨rfl, rfl⟩, congrArg Files.tmp whole⟩
      · rw [name_eq]
        exact absent
      · rw [name_eq]
        exact short

theorem makes_cases (ok : TreeOk s.tmp kids) {op : Files F → Nat → List Char → Files F × Int}
    (foreign : F → Place → List Char → F × Int) (makes : MakesOrFails op)
    (settled : ∀ d name, resolveParentDir fs s who path = .ok (.tmp d, name) → d < s.tmp.count) :
    let r := parentCall fs s (dirOp s op foreign) true who path
    (r.1.tmp = s.tmp ∧ (r.2 < 0 ∨
      ∃ dir name, resolveParentDir fs s who path = .ok (dir, name) ∧ Abroad s dir)) ∨
    r.2 = 0 ∧ ∃ d n name, resolveParentDir fs s who path = .ok (.tmp d, name) ∧
      Makes (MayWrite s.tmp who.uid who.gid) who.uid who.gid s.tmp r.1.tmp d n := by
  intro r
  rcases parentCall_cases fs (dirOp s op foreign) true (s := s) with
    ⟨same, failed⟩ | ⟨dir, name, found, allowed, result, effect⟩
  · exact .inl ⟨congrArg Files.tmp same, .inl failed⟩
  by_cases abroad : Abroad s dir
  · exact .inl ⟨parentCall_abroad fs abroad effect, .inr ⟨dir, name, found, abroad⟩⟩
  · obtain ⟨d, rfl, native⟩ := not_abroad abroad
    obtain ⟨n, pmm, fresh, does⟩ := makes.adds s d name
    rcases made_at_home fs ok foreign found native (settled d name found) fresh does with
      ⟨same, negative⟩ | ⟨zero, -, -, made⟩
    · exact .inl ⟨congrArg Files.tmp same, .inl negative⟩
    · exact .inr ⟨zero, d, _, name, found, made⟩

theorem tmpfsDirUnlink_removes (s : Files F) (d : Nat) (name : List Char) :
    ((tmpfsDirUnlink s d name).1 = s ∧ (tmpfsDirUnlink s d name).2 < 0) ∨
    (tmpfsDirUnlink s d name).2 = 0 ∧ ∃ i, i ∈ s.tmp.children d ∧
      ((s.tmp.nodes i).type = .dir → (s.tmp.nodes i).firstChild = none) ∧
      (tmpfsDirUnlink s d name).1.tmp = s.tmp.unchain d i := by
  unfold tmpfsDirUnlink
  cases found : tmpfsDirLookup s.tmp d name with
  | none => exact .inl ⟨rfl, (by decide : -enoent < 0)⟩
  | some i =>
    dsimp only
    split
    · exact .inl ⟨rfl, (by decide : -enotempty < 0)⟩
    · rename_i free
      have empty : (s.tmp.nodes i).type = .dir → (s.tmp.nodes i).firstChild = none :=
        fun isDir => by_contra fun full => free ⟨isDir, full⟩
      split
      · exact .inr ⟨rfl, i, List.mem_of_find?_eq_some found, empty, rfl⟩
      · exact .inr ⟨rfl, i, List.mem_of_find?_eq_some found, empty, rfl⟩

theorem processUnlink_cases :
    let r := processUnlink fs s who path
    (r.1.tmp = s.tmp ∧ (r.2 < 0 ∨
      ∃ dir name, resolveParentDir fs s who path = .ok (dir, name) ∧ Abroad s dir)) ∨
    r.2 = 0 ∧ ∃ d i name, resolveParentDir fs s who path = .ok (.tmp d, name) ∧
      Removes (MayWrite s.tmp who.uid who.gid) s.tmp r.1.tmp d i := by
  intro r
  rcases parentCall_cases fs (dirOp s tmpfsDirUnlink fs.unlink) false (s := s) with
    ⟨same, failed⟩ | ⟨dir, name, found, allowed, result, effect⟩
  · exact .inl ⟨congrArg Files.tmp same, .inl failed⟩
  by_cases abroad : Abroad s dir
  · exact .inl ⟨parentCall_abroad fs abroad effect, .inr ⟨dir, name, found, abroad⟩⟩
  · obtain ⟨d, rfl, native⟩ := not_abroad abroad
    have home : dirOp s tmpfsDirUnlink fs.unlink (.tmp d) name = tmpfsDirUnlink s d name := if_pos native
    rw [home] at result effect
    obtain ⟨after, -⟩ := effect.resolve_right fun owned => by cases owned.1
    rcases tmpfsDirUnlink_removes s d name with ⟨same, failed⟩ | ⟨zero, i, listed, empty, unchained⟩
    · exact .inl ⟨congrArg Files.tmp (after.trans same), .inl (result ▸ failed)⟩
    · exact .inr ⟨result.trans zero, d, i, name, found, allowed, listed, empty,
        (congrArg Files.tmp after).trans unchained⟩

theorem processCreate_cases (ok : TreeOk s.tmp kids)
    (settled : ∀ d name, resolveParentDir fs s who path = .ok (.tmp d, name) → d < s.tmp.count) :
    let r := processCreate fs s who path
    (r.1.tmp = s.tmp ∧ (r.2 < 0 ∨
      ∃ dir name, resolveParentDir fs s who path = .ok (dir, name) ∧ Abroad s dir)) ∨
    r.2 = 0 ∧ ∃ d n name, resolveParentDir fs s who path = .ok (.tmp d, name) ∧
      Makes (MayWrite s.tmp who.uid who.gid) who.uid who.gid s.tmp r.1.tmp d n :=
  makes_cases fs ok fs.create tmpfsDirCreate_makes settled

theorem processMkdir_cases (ok : TreeOk s.tmp kids)
    (settled : ∀ d name, resolveParentDir fs s who path = .ok (.tmp d, name) → d < s.tmp.count) :
    let r := processMkdir fs s who path
    (r.1.tmp = s.tmp ∧ (r.2 < 0 ∨
      ∃ dir name, resolveParentDir fs s who path = .ok (dir, name) ∧ Abroad s dir)) ∨
    r.2 = 0 ∧ ∃ d n name, resolveParentDir fs s who path = .ok (.tmp d, name) ∧
      Makes (MayWrite s.tmp who.uid who.gid) who.uid who.gid s.tmp r.1.tmp d n :=
  makes_cases fs ok fs.mkdir tmpfsDirMkdir_makes settled

theorem locate_keeps (P : Files F → Prop) (create : ∀ s, P s → P (processCreate fs s who path).1)
    (unlink : ∀ s, P s → P (processUnlink fs s who path).1) (flags : Nat) (start : P s) :
    P (locate (vfsTree fs) s who path flags).1 := by
  have created : ∀ s, P s → P (createAndResolve (vfsTree fs) s who path).1 := by
    intro s start
    unfold createAndResolve
    rw [show (vfsTree fs).create s who path = processCreate fs s who path from rfl]
    dsimp only
    split
    · exact create s start
    · split <;> exact create s start
  unfold locate
  split
  · split
    · exact start
    · exact created s start
  · split
    · exact start
    · split
      · rw [show (vfsTree fs).unlink s who path = processUnlink fs s who path from rfl]
        dsimp only
        split
        · exact unlink s start
        · exact created _ (unlink s start)
      · exact start

end Calls

/-- The sibling lists of a tree, and every child's parent pointer leads to the
directory that lists it. -/
structure Kin (t : Tmpfs) (kids : Nat → List Nat) : Prop where
  tree : TreeOk t kids
  parent : ∀ d i, i ∈ kids d → (t.nodes i).parent = d

section Kin

variable {t t' : Tmpfs} {kids : Nat → List Nat} {W : Nat → Prop} {uid gid : Word} {d i : Nat} {n : TmpfsNode}

theorem Kin.made (h : Kin t kids) (made : Makes W uid gid t t' d n) :
    Kin t' (withKid kids d t.count) := by
  have isDir : (t.nodes d).type = .dir := by
    cases type : (t.nodes d).type with
    | dir => rfl
    | file =>
      have ops := (h.tree.ops d made.bound).mpr type
      rw [made.native] at ops
      cases ops
  rw [made.after]
  refine ⟨h.tree.grow made.bound isDir made.room made.bare made.parent (opened_of_kind made.kind),
    fun e j mem => ?_⟩
  rcases mem_withKid mem with old | ⟨rfl, rfl⟩
  · have label := grow_label (n := n) made.bound (Nat.ne_of_lt (h.tree.inside e j old))
    rw [(TmpfsNode.label_eq label).parent]
    exact h.parent e j old
  · rw [grow_newNode n made.bound]
    exact made.parent

theorem Kin.removed (h : Kin t kids) (removed : Removes W t t' d i) : Kin t' (withoutKid kids d i) := by
  have listed := removed.listed
  rw [h.tree.children] at listed
  rw [removed.after]
  refine ⟨h.tree.unchain listed, fun e j mem => ?_⟩
  rw [(unchain_nodes t d i j).2.1]
  exact h.parent e j ((mem_withoutKid (h.tree.nodup d)).mp mem).1

end Kin

end Isunux
