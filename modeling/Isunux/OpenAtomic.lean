import Isunux.Naming
import Isunux.TmpfsBytes

/-! `process_open` and the tree as programs see it: what stands under which names, of what
type, whose, and with what contents. Creation and the unlinking and making again that stand
for truncation come before the checks that can still refuse the call. -/
namespace Isunux

open Route (Move walk)

structure Look where
  type : NodeType
  owner : Word × Word × Word
  bytes : List (BitVec 8)

section Views

variable {F : Type} (fs : Foreign F) (data : F → Nat → List (BitVec 8)) (s s' : Files F)

def Files.look : Place → Look
  | .tmp i => ⟨(s.tmp.nodes i).type, s.ownerOf fs (.tmp i), contents s i⟩
  | .foreign j => ⟨s.typeOf fs (.foreign j), s.ownerOf fs (.foreign j), data s.other j⟩

def Files.view (names : List (List Char)) : Option Look := (s.reached fs names).map (s.look fs data)

def SameTree : Prop := ∀ names, s'.view fs data names = s.view fs data names

/-- The only change is a new empty file where the path leads. -/
def Created (cwd path : List Char) : Prop :=
  vfsResolvePathCwd fs s cwd path = none ∧ ∃ x, vfsResolvePathCwd fs s' cwd path = some x ∧
    ∀ names, s'.view fs data names = s.view fs data names ∨
      s'.reached fs names = some x ∧ s.view fs data names = none ∧
        ∃ owner, s'.view fs data names = some ⟨.file, owner, []⟩

/-- The only change is that the file to which the path leads has become empty. -/
def Emptied (cwd path : List Char) : Prop :=
  ∃ y x, vfsResolvePathCwd fs s cwd path = some y ∧ vfsResolvePathCwd fs s' cwd path = some x ∧
    ∀ names, s'.view fs data names = s.view fs data names ∨
      s.reached fs names = some y ∧ s'.reached fs names = some x ∧
        ∃ owner bytes, s.view fs data names = some ⟨.file, owner, bytes⟩ ∧
          s'.view fs data names = some ⟨.file, owner, []⟩

/-- No directory is removed or replaced. -/
def KeepsDirs : Prop :=
  ∀ names d, s.reached fs names = some d → s.typeOf fs d = .dir →
    s'.reached fs names = some d ∧ s'.typeOf fs d = .dir

def wantsWrite (flags : Nat) : Prop := flags &&& oAccmode = oWronly ∨ flags &&& oAccmode = oRdwr

instance (flags : Nat) : Decidable (wantsWrite flags) := inferInstanceAs (Decidable (_ ∨ _))

/-- What a call owes: a failure changes nothing, and a success nothing but the file that was to
be created or emptied. -/
structure OpenMeets (k : Kernel) (p : Nat) (path : List Char) (flags : Nat) (k' : Kernel) (ret : Int) : Prop where
  refused : ret < 0 → SameTree fs data s s' ∧ k' = k
  opened : 0 ≤ ret → SameTree fs data s s' ∨
    (flags &&& oCreat ≠ 0 ∧ Created fs data s s' (k.procs p).cwd path) ∨
    (flags &&& oTrunc ≠ 0 ∧ wantsWrite flags ∧ Emptied fs data s s' (k.procs p).cwd path)
  dirs : KeepsDirs fs s s'

/-- One entry of the tree is new, or leads to a new node in the place of a file. -/
structure Replaces (s s' : Files F) (dir : Place) (name : List Char) (old : Option Place) (x : Place) : Prop where
  graft : Route.Graft (s.lookup fs) (s'.lookup fs) dir name old x
  top : (Place.tmp 0) ≠ x ∧ old ≠ some (.tmp 0)
  looks : ∀ p, p ≠ x → old ≠ some p → s'.look fs data p = s.look fs data p
  newborn : (s'.look fs data x).type = .file ∧ (s'.look fs data x).bytes = []
  file : ∀ y, old = some y → (s.look fs data y).type = .file

variable {fs data s s'} {dir x : Place} {name : List Char} {old : Option Place}

theorem look_type (p : Place) : (s.look fs data p).type = s.typeOf fs p := by cases p <;> rfl

variable (h : Replaces fs data s s' dir name old x)

include h in
theorem Replaces.views (names : List (List Char)) :
    (s.reached fs names = old ∧ s'.reached fs names = some x) ∨
      (s'.reached fs names = s.reached fs names ∧ s'.view fs data names = s.view fs data names) := by
  rcases h.graft.locate h.top.1 h.top.2 names with entry | ⟨same, other⟩
  · exact .inl entry
  · have kept : s'.reached fs names = s.reached fs names := same
    refine .inr ⟨kept, ?_⟩
    unfold Files.view
    rw [kept]
    cases here : s.reached fs names with
    | none => rfl
    | some p =>
      rw [Option.map_some, Option.map_some, h.looks p (h.graft.locate_old h.top.1 here) fun isOld => other p isOld here]

include h in
theorem Replaces.dirs : KeepsDirs fs s s' := by
  intro names d here isDir
  have type : (s.look fs data d).type = .dir := (look_type d).trans isDir
  have notOld : old ≠ some d := by
    intro isOld
    rw [h.file d isOld] at type
    cases type
  rcases h.views names with ⟨entry, -⟩ | ⟨kept, -⟩
  · exact absurd (entry.symm.trans here) notOld
  · refine ⟨kept.trans here, ?_⟩
    rw [← @look_type _ _ data, h.looks d (h.graft.locate_old h.top.1 here) notOld]
    exact type

theorem Replaces.created (h : Replaces fs data s s' dir name none x) {cwd path : List Char}
    (absent : vfsResolvePathCwd fs s cwd path = none) (found : vfsResolvePathCwd fs s' cwd path = some x) :
    Created fs data s s' cwd path := by
  refine ⟨absent, x, found, fun names => ?_⟩
  rcases h.views names with ⟨gone, here⟩ | ⟨-, same⟩
  · refine .inr ⟨here, by rw [Files.view, gone]; rfl, (s'.look fs data x).owner, ?_⟩
    rw [Files.view, here, Option.map_some, ← h.newborn.1, ← h.newborn.2]
  · exact .inl same

theorem Replaces.emptied {y : Place} (h : Replaces fs data s s' dir name (some y) x)
    (owner : (s'.look fs data x).owner = (s.look fs data y).owner) {cwd path : List Char}
    (before : vfsResolvePathCwd fs s cwd path = some y) (after : vfsResolvePathCwd fs s' cwd path = some x) :
    Emptied fs data s s' cwd path := by
  refine ⟨y, x, before, after, fun names => ?_⟩
  rcases h.views names with ⟨there, here⟩ | ⟨-, same⟩
  · refine .inr ⟨there, here, (s.look fs data y).owner, (s.look fs data y).bytes, ?_, ?_⟩
    · rw [Files.view, there, Option.map_some, ← h.file y rfl]
    · rw [Files.view, here, Option.map_some, ← h.newborn.1, ← h.newborn.2, ← owner]
  · exact .inl same

theorem Replaces.unseen {y : Place} (h : Replaces fs data s s' dir name (some y) x)
    (same : s'.look fs data x = s.look fs data y) : SameTree fs data s s' := by
  intro names
  rcases h.views names with ⟨there, here⟩ | ⟨-, kept⟩
  · rw [Files.view, Files.view, there, here, Option.map_some, Option.map_some, same]
  · exact kept

end Views

section Entries

variable {F : Type} (fs : Foreign F) (data : F → Nat → List (BitVec 8)) {s s' s'' : Files F}
  {kids : Nat → List Nat} {W : Nat → Prop} {uid gid : Word} {d i : Nat} {n : TmpfsNode}

/-- A tree in good order: children know their directories, names are unique in a directory, and
nothing lists the root. -/
structure Regular (s : Files F) (kids : Nat → List Nat) : Prop where
  hosted : Hosted s kids
  parent : ∀ d i, i ∈ kids d → (s.tmp.nodes i).parent = d
  names : ∀ d, ((kids d).map fun i => (s.tmp.nodes i).name).Nodup
  top : ∀ d, 0 ∉ kids d
  family : FamilyTree fs s

theorem look_label {i : Nat} (label : (s'.tmp.nodes i).label = (s.tmp.nodes i).label) (mem : s'.mem = s.mem) :
    s'.look fs data (.tmp i) = s.look fs data (.tmp i) := by
  have same := TmpfsNode.label_eq label
  have buffers : (s'.tmp.nodes i).label.data = (s.tmp.nodes i).label.data := congrArg TmpfsNode.data label
  have buffer : (s'.tmp.nodes i).data = (s.tmp.nodes i).data := buffers
  obtain ⟨uid, gid, mode⟩ := same.owner
  simp only [Files.look, Files.ownerOf, contents, same.type, same.size, uid, gid, mode, buffer, mem]

theorem look_grow (bound : d < s.tmp.count) (pmm : Pmm) {p : Place} (old : p ≠ .tmp s.tmp.count) :
    Files.look fs data { s with tmp := s.tmp.grow d n, pmm := pmm } p = s.look fs data p := by
  cases p with
  | foreign j => rfl
  | tmp i =>
    have other : i ≠ s.tmp.count := fun same => old (same ▸ rfl)
    exact look_label fs data (grow_label bound other) rfl

theorem Makes.replaces (ok : TreeOk s.tmp kids) (made : Makes W uid gid s.tmp (s.tmp.grow d n) d n)
    (dir : (s.tmp.nodes d).type = .dir) (pmm : Pmm) (file : n.type = .file) (size : n.size = 0#64) :
    Replaces fs data s { s with tmp := s.tmp.grow d n, pmm := pmm } (.tmp d) n.name none
      (.tmp s.tmp.count) := by
  refine ⟨made.graft fs ok dir pmm, ⟨fun same => ?_, nofun⟩, fun p old _ => look_grow fs data made.bound pmm old, ?_,
    nofun⟩
  · have zero := Place.tmp.inj same
    have positive := ok.root.2
    omega
  · simp only [Files.look, contents, grow_newNode n made.bound]
    rw [file, size]
    exact ⟨rfl, rfl⟩

/-- The directory lists nothing by a name whose entry has been taken out, and the rest as it did. -/
theorem lookup_unchain (r : Regular fs s kids) {name : List Char} (found : tmpfsDirLookup s.tmp d name = some i)
    (e : Nat) (a : List Char) :
    tmpfsDirLookup (s.tmp.unchain d i) e a = if e = d ∧ a = name then none else tmpfsDirLookup s.tmp e a := by
  have ok := r.hosted.tree
  have mem := ok.lookup_mem found
  have isName : (s.tmp.nodes i).name = name :=
    of_decide_eq_true (List.find?_some (p := fun i => decide ((s.tmp.nodes i).name = name)) found)
  have names : ∀ j ∈ withoutKid kids d i e,
      decide (((s.tmp.unchain d i).nodes j).name = a) = decide ((s.tmp.nodes j).name = a) := by
    intro j _
    rw [(TmpfsNode.label_eq (unchain_label s.tmp d i j)).name]
  unfold tmpfsDirLookup
  rw [(ok.unchain mem).children, ok.children, List.find?_congr names]
  by_cases here : e = d
  · subst here
    rw [withoutKid, Function.update_self]
    by_cases named : a = name
    · rw [if_pos ⟨rfl, named⟩, List.find?_eq_none]
      intro j listed
      rw [(ok.nodup e).mem_erase_iff] at listed
      rw [decide_eq_true_eq, named, ← isName]
      exact fun same => listed.1 (List.inj_on_of_nodup_map (r.names e) listed.2 mem same)
    · rw [if_neg fun entry => named entry.2]
      obtain ⟨before, after, split⟩ := List.append_of_mem mem
      have out : i ∉ before := by
        have nodup := ok.nodup e
        rw [split] at nodup
        exact fun there => (List.disjoint_of_nodup_append nodup) there List.mem_cons_self
      rw [split, List.erase_append_right _ out, List.erase_cons_head, List.find?_append, List.find?_append,
        List.find?_cons_of_neg (by simpa [isName] using Ne.symm named)]
  · rw [withoutKid, Function.update_of_ne here, if_neg fun entry => here entry.1]

end Entries

def Files.without {F : Type} (s : Files F) (d i : Nat) (pmm : Pmm) : Files F :=
  { s with tmp := s.tmp.unchain d i, pmm := pmm }

section Calls

variable {F : Type} (fs : Foreign F) {s : Files F} {kids : Nat → List Nat} {who : Process} {path name : List Char}
  {d i : Nat}

theorem parentCall_home {op : Files F → Nat → List Char → Files F × Int} (foreign : F → Place → List Char → F × Int)
    (owned : Bool) (found : resolveParentDir fs s who path = .ok (.tmp d, name))
    (native : (s.tmp.nodes d).ops = .tmpfsDir) :
    ((parentCall fs s (dirOp s op foreign) owned who path).1 = s ∧
        (parentCall fs s (dirOp s op foreign) owned who path).2 < 0 ∧ ¬ MayWrite s.tmp who.uid who.gid d) ∨
      (MayWrite s.tmp who.uid who.gid d ∧ (parentCall fs s (dirOp s op foreign) owned who path).2 = (op s d name).2 ∧
        (owned = false ∨ (op s d name).2 ≠ 0 →
          (parentCall fs s (dirOp s op foreign) owned who path).1 = (op s d name).1)) := by
  have changeable : s.mutable fs (.tmp d) = true := by
    unfold Files.mutable
    dsimp only
    rw [native]
  have home : dirOp s op foreign (.tmp d) name = op s d name := if_pos native
  unfold parentCall
  rw [found]
  dsimp only
  rw [if_neg (by rw [changeable]; decide), home]
  by_cases allowed : MayWrite s.tmp who.uid who.gid d
  · have granted : ¬ vfsCheckPerm (s.ownerOf fs (.tmp d)) who.uid who.gid (permBits .write) = false := by
      rw [Bool.not_eq_false]
      exact allowed
    rw [if_neg granted]
    refine .inr ⟨allowed, ?_, fun plain => ?_⟩
    · split
      · split <;> rfl
      · rfl
    · rw [if_neg]
      rintro ⟨isOwned, zero⟩
      rcases plain with no | nonzero
      · rw [isOwned] at no
        cases no
      · exact nonzero zero
  · have denied : vfsCheckPerm (s.ownerOf fs (.tmp d)) who.uid who.gid (permBits .write) = false :=
      eq_false_of_ne_true allowed
    rw [if_pos denied]
    exact .inl ⟨rfl, (by decide : -eacces < 0), allowed⟩

/-- `process_unlink` takes the entry `i` out of a directory of tmpfs. -/
structure Unlinks (s : Files F) (who : Process) (path : List Char) (d i : Nat) (name : List Char) : Prop where
  found : resolveParentDir fs s who path = .ok (.tmp d, name)
  native : (s.tmp.nodes d).ops = .tmpfsDir
  allowed : MayWrite s.tmp who.uid who.gid d
  entry : tmpfsDirLookup s.tmp d name = some i
  empty : ¬ ((s.tmp.nodes i).type = .dir ∧ (s.tmp.nodes i).firstChild ≠ none)

/-- `process_create` makes a file in a directory of tmpfs. -/
structure Creates (s : Files F) (who : Process) (path : List Char) (d : Nat) (name : List Char) : Prop where
  found : resolveParentDir fs s who path = .ok (.tmp d, name)
  native : (s.tmp.nodes d).ops = .tmpfsDir
  allowed : MayWrite s.tmp who.uid who.gid d
  absent : tmpfsDirLookup s.tmp d name = none
  room : s.tmp.count < tmpfsMaxNodes

theorem processUnlink_home (found : resolveParentDir fs s who path = .ok (.tmp d, name))
    (native : (s.tmp.nodes d).ops = .tmpfsDir) :
    ((processUnlink fs s who path).1 = s ∧ (processUnlink fs s who path).2 < 0 ∧
        ∀ i, ¬ Unlinks fs s who path d i name) ∨
      ∃ i pmm, Unlinks fs s who path d i name ∧
        processUnlink fs s who path = (s.without d i pmm, 0) := by
  rcases @parentCall_home _ fs _ _ _ _ _ tmpfsDirUnlink fs.unlink false found native with
    ⟨same, failed, denied⟩ | ⟨allowed, ret, files⟩
  · exact .inl ⟨same, failed, fun i unlinks => denied unlinks.allowed⟩
  have files := files (.inl rfl)
  have whole : processUnlink fs s who path = tmpfsDirUnlink s d name := Prod.ext files ret
  rw [whole, tmpfsDirUnlink]
  cases hit : tmpfsDirLookup s.tmp d name with
  | none =>
    refine .inl ⟨rfl, (by decide : -enoent < 0), fun i unlinks => ?_⟩
    rw [unlinks.entry] at hit
    cases hit
  | some i =>
    dsimp only
    by_cases full : (s.tmp.nodes i).type = .dir ∧ (s.tmp.nodes i).firstChild ≠ none
    · rw [if_pos full]
      refine .inl ⟨rfl, (by decide : -enotempty < 0), fun j unlinks => ?_⟩
      rw [unlinks.entry] at hit
      cases hit
      exact unlinks.empty full
    · rw [if_neg full]
      refine .inr ⟨i, ?_⟩
      have unlinks : Unlinks fs s who path d i name := ⟨found, native, allowed, hit, full⟩
      split
      · exact ⟨_, unlinks, rfl⟩
      · exact ⟨s.pmm, unlinks, rfl⟩

def createdNode (s : Files F) (who : Process) (d : Nat) (name : List Char) : TmpfsNode :=
  { fileNode d name (pmmAllocPages s.pmm 1).2 with uid := who.uid, gid := who.gid }

theorem processCreate_home (ok : TreeOk s.tmp kids) (bound : d < s.tmp.count)
    (found : resolveParentDir fs s who path = .ok (.tmp d, name)) (native : (s.tmp.nodes d).ops = .tmpfsDir) :
    ((processCreate fs s who path).1 = s ∧ (processCreate fs s who path).2 < 0 ∧ ¬ Creates fs s who path d name) ∨
      (Creates fs s who path d name ∧ (createdNode s who d name).name = name ∧
        Makes (MayWrite s.tmp who.uid who.gid) who.uid who.gid s.tmp (s.tmp.grow d (createdNode s who d name)) d
          (createdNode s who d name) ∧
        processCreate fs s who path =
          ({ s with tmp := s.tmp.grow d (createdNode s who d name), pmm := (pmmAllocPages s.pmm 1).1 }, 0)) := by
  have adds := tmpfsDirCreate_adds s d name
  rcases made_at_home fs ok fs.create found native bound (fileNode_fresh d name _) adds with
    ⟨same, failed⟩ | ⟨zero, name_eq, files, made⟩
  · refine .inl ⟨same, failed, fun creates => ?_⟩
    have ret : (processCreate fs s who path).2 = (tmpfsDirCreate s d name).2 := by
      rcases @parentCall_home _ fs _ _ _ _ _ tmpfsDirCreate fs.create true found native with ⟨-, -, denied⟩ | ⟨-, ret, -⟩
      · exact absurd creates.allowed denied
      · exact ret
    have done : (tmpfsDirCreate s d name).2 = 0 := by
      rw [tmpfsDirCreate, creates.absent]
      dsimp only
      rw [tmpfsCreateFile_eq, if_neg (Nat.not_le_of_lt creates.room)]
      rfl
    have failed : (processCreate fs s who path).2 < 0 := failed
    omega
  · rw [files] at made
    refine .inr ⟨⟨found, native, made.writable, ?_, made.room⟩, name_eq, made, Prod.ext files zero⟩
    have fresh := made.fresh
    dsimp only at fresh
    rwa [name_eq] at fresh

variable {pmm : Pmm}

theorem Regular.listed (r : Regular fs s kids) (entry : tmpfsDirLookup s.tmp d name = some i) :
    i ∈ kids d ∧ (s.tmp.nodes i).name = name :=
  ⟨r.hosted.tree.lookup_mem entry,
    of_decide_eq_true (List.find?_some (p := fun i => decide ((s.tmp.nodes i).name = name)) entry)⟩

theorem Unlinks.lookup (r : Regular fs s kids) (u : Unlinks fs s who path d i name) (pmm : Pmm) (p : Place)
    (a : List Char) :
    (s.without d i pmm).lookup fs p a = if p = .tmp d ∧ a = name then none else s.lookup fs p a := by
  cases p with
  | foreign j => rfl
  | tmp e =>
    have ops := (TmpfsNode.label_eq (unchain_label s.tmp d i e)).ops
    have hit := lookup_unchain fs r u.entry e a
    unfold Files.lookup Files.without
    dsimp only
    rw [ops, hit]
    by_cases entry : e = d ∧ a = name
    · obtain ⟨rfl, rfl⟩ := entry
      rw [if_pos ⟨rfl, rfl⟩, if_pos ⟨rfl, rfl⟩, u.native]
      rfl
    · rw [if_neg entry, if_neg fun both => entry ⟨Place.tmp.inj both.1, both.2⟩]

theorem parentOf_without (pmm : Pmm) (p : Place) : (s.without d i pmm).parentOf fs p = s.parentOf fs p := by
  cases p with
  | foreign j => rfl
  | tmp e =>
    unfold Files.parentOf Files.without
    dsimp only
    rw [(TmpfsNode.label_eq (unchain_label s.tmp d i e)).parent]

theorem lookup_file (r : Regular fs s kids) (entry : tmpfsDirLookup s.tmp d name = some i) {p : Place} {a : List Char}
    (hit : s.lookup fs p a = some (.tmp i)) : p = .tmp d ∧ a = name := by
  obtain ⟨mem, isName⟩ := r.listed fs entry
  obtain ⟨e, rfl, -, found⟩ := lookup_tmp fs hit
  obtain ⟨mem', isName'⟩ := r.listed fs found
  exact ⟨congrArg Place.tmp (r.hosted.tree.apart _ _ i mem' mem), isName'.symm.trans isName⟩

theorem Settled.parent_ne (h : Hosted s kids) {p : Place} (inside : Settled s.tmp kids p)
    (file : (s.tmp.nodes i).type = .file) : s.parentOf fs p ≠ .tmp i := by
  have dir : ∀ j, (s.tmp.nodes j).type = .dir → Place.tmp j ≠ .tmp i := by
    intro j isDir same
    rw [Place.tmp.inj same, file] at isDir
    cases isDir
  cases p with
  | tmp j => exact dir _ (h.tree.upward j inside.1).1
  | foreign j =>
    unfold Files.parentOf
    dsimp only
    cases fs.parent s.other j with
    | node j' => exact nofun
    | dev => exact dir _ (h.dirs _ (.inl rfl)).2
    | mnt => exact dir _ (h.dirs _ (.inr rfl)).2

/-- The directory of the path is still found exactly if the way there does not lead through the
file that is gone. -/
theorem Unlinks.way (r : Regular fs s kids) (u : Unlinks fs s who path d i name)
    (file : (s.tmp.nodes i).type = .file) (pmm : Pmm) {ms : List (Move (List Char))} {p : Place} :
    walk ((s.without d i pmm).parentOf fs) ((s.without d i pmm).lookup fs) (.tmp 0) ms = some p ↔
      walk (s.parentOf fs) (s.lookup fs) (.tmp 0) ms = some p ∧
        .tmp i ∉ Route.visits (s.parentOf fs) (s.lookup fs) (.tmp 0) ms := by
  have up : (s.without d i pmm).parentOf fs = s.parentOf fs := funext (parentOf_without fs pmm)
  rw [up]
  refine Route.walk_without (D := Settled s.tmp kids) (fun p inside => ?_) (fun _ _ _ found => r.hosted.lookup_settled fs found)
    (fun p a _ hit => ?_) (fun p a _ other => ?_) ⟨r.hosted.tree.root.2, .inl r.hosted.tree.root.1⟩
  · exact ⟨r.hosted.parentOf_settled fs inside, inside.parent_ne fs r.hosted file⟩
  · rw [u.lookup fs r pmm, if_pos (lookup_file fs r u.entry hit)]
  · rw [u.lookup fs r pmm, if_neg]
    rintro ⟨rfl, rfl⟩
    refine other ?_
    rw [lookup_native fs u.native, u.entry]
    rfl

/-- The path names the same directory again, if the way to it does not lead through the file. -/
theorem Unlinks.again (r : Regular fs s kids) (u : Unlinks fs s who path d i name)
    (file : (s.tmp.nodes i).type = .file) (pmm : Pmm) :
    (resolveParentDir fs (s.without d i pmm) who path = .ok (.tmp d, name) ∧
        .tmp i ∉ Route.visits (s.parentOf fs) (s.lookup fs) (.tmp 0) (wayTo (vfsCombinePath who.cwd path))) ∨
      (resolveParentDir fs (s.without d i pmm) who path = .error (-enoent) ∧
        .tmp i ∈ Route.visits (s.parentOf fs) (s.lookup fs) (.tmp 0) (wayTo (vfsCombinePath who.cwd path))) := by
  obtain ⟨-, -, -, here, isDir, again⟩ := resolveParentDir_again fs s u.found
  have type : (s.without d i pmm).typeOf fs (.tmp d) = .dir :=
    ((TmpfsNode.label_eq (unchain_label s.tmp d i d)).type).trans isDir
  rw [again]
  by_cases through :
      .tmp i ∈ Route.visits (s.parentOf fs) (s.lookup fs) (.tmp 0) (wayTo (vfsCombinePath who.cwd path))
  · refine .inr ⟨?_, through⟩
    cases arrived : walk ((s.without d i pmm).parentOf fs) ((s.without d i pmm).lookup fs) (.tmp 0)
        (wayTo (vfsCombinePath who.cwd path)) with
    | none => rfl
    | some p => exact absurd through ((u.way fs r file pmm).mp arrived).2
  · refine .inl ⟨?_, through⟩
    rw [(u.way fs r file pmm).mpr ⟨here, through⟩]
    dsimp only
    rw [if_pos type]

/-- A new file can take the place of the old one. -/
structure Recreates (s : Files F) (who : Process) (path : List Char) (i : Nat) : Prop where
  file : (s.tmp.nodes i).type = .file
  room : s.tmp.count < tmpfsMaxNodes
  way : .tmp i ∉ Route.visits (s.parentOf fs) (s.lookup fs) (.tmp 0) (wayTo (vfsCombinePath who.cwd path))

/-- Making the file again works exactly if a node is left and the way does not lead through it. -/
theorem Unlinks.recreate (r : Regular fs s kids) (u : Unlinks fs s who path d i name)
    (file : (s.tmp.nodes i).type = .file) (pmm : Pmm) :
    let s₁ := s.without d i pmm
    ((processCreate fs s₁ who path).1 = s₁ ∧ (processCreate fs s₁ who path).2 < 0 ∧
        ¬ Recreates fs s who path i) ∨
      (Recreates fs s who path i ∧ (createdNode s₁ who d name).name = name ∧
        Makes (MayWrite s₁.tmp who.uid who.gid) who.uid who.gid s₁.tmp (s₁.tmp.grow d (createdNode s₁ who d name)) d
          (createdNode s₁ who d name) ∧
        processCreate fs s₁ who path =
          ({ s₁ with tmp := s₁.tmp.grow d (createdNode s₁ who d name), pmm := (pmmAllocPages s₁.pmm 1).1 }, 0)) := by
  intro s₁
  obtain ⟨listed, -⟩ := r.listed fs u.entry
  have same := TmpfsNode.label_eq (unchain_label s.tmp d i d)
  have count : s₁.tmp.count = s.tmp.count := unchain_count s.tmp d i
  obtain ⟨uid, gid, mode⟩ := same.owner
  rcases u.again fs r file pmm with ⟨found, way⟩ | ⟨lost, through⟩
  · have bound : d < s₁.tmp.count := count ▸ (r.hosted.tree.above d i listed).2
    rcases processCreate_home fs (r.hosted.tree.unchain listed) bound found (same.ops.trans u.native) with
      ⟨unchanged, failed, refused⟩ | ⟨creates, made⟩
    · refine .inl ⟨unchanged, failed, fun recreates => refused ⟨found, same.ops.trans u.native, ?_, ?_, ?_⟩⟩
      · have allowed := u.allowed
        unfold MayWrite at allowed ⊢
        rwa [show (s₁.tmp.nodes d).uid = _ from uid, show (s₁.tmp.nodes d).gid = _ from gid,
          show (s₁.tmp.nodes d).mode = _ from mode]
      · exact (lookup_unchain fs r u.entry d name).trans (if_pos ⟨rfl, rfl⟩)
      · rw [count]
        exact recreates.room
    · exact .inr ⟨⟨file, count ▸ creates.room, way⟩, made⟩
  · have failed : processCreate fs s₁ who path = (s₁, -enoent) := by
      unfold processCreate parentCall
      rw [show resolveParentDir fs s₁ who path = _ from lost]
    rw [failed]
    exact .inl ⟨rfl, (by decide : -enoent < 0), fun recreates => recreates.way through⟩

end Calls

section Replacing

variable {F : Type} (fs : Foreign F) (data : F → Nat → List (BitVec 8)) {s : Files F} {kids : Nat → List Nat}
  {who : Process} {path name : List Char} {d i : Nat} {n : TmpfsNode} {pmm : Pmm} (pmm' : Pmm)

theorem Unlinks.replaces (r : Regular fs s kids) (u : Unlinks fs s who path d i name)
    (file : (s.tmp.nodes i).type = .file) (named : n.name = name)
    (made : Makes (MayWrite (s.without d i pmm).tmp who.uid who.gid) who.uid who.gid (s.without d i pmm).tmp
      ((s.without d i pmm).tmp.grow d n) d n) (plain : n.type = .file) (size : n.size = 0#64) :
    Replaces fs data s { s.without d i pmm with tmp := (s.without d i pmm).tmp.grow d n, pmm := pmm' } (.tmp d) name
      (some (.tmp i)) (.tmp s.tmp.count) := by
  obtain ⟨listed, -⟩ := r.listed fs u.entry
  have count : (s.without d i pmm).tmp.count = s.tmp.count := unchain_count s.tmp d i
  have isDir : ((s.without d i pmm).tmp.nodes d).type = .dir :=
    ((TmpfsNode.label_eq (unchain_label s.tmp d i d)).type).trans (r.hosted.tree.above d i listed).1
  have step := made.replaces fs data (r.hosted.tree.unchain listed) isDir pmm' plain size
  rw [named] at step
  rw [← count]
  have inside := r.hosted.tree.inside d i listed
  refine ⟨⟨?_, step.graft.after, ?_, step.graft.leaf, ?_, ?_, ?_⟩, ⟨step.top.1, ?_⟩, ?_, step.newborn, ?_⟩
  · rw [lookup_native fs u.native, u.entry]
    rfl
  · rintro y same a
    cases same
    unfold Files.lookup
    dsimp only
    rw [(r.hosted.tree.ops i inside).mpr file]
  · rintro y same p a hit
    cases same
    exact lookup_file fs r u.entry hit
  · intro p a hit
    rw [count] at hit
    exact (r.hosted.lookup_settled fs hit).old rfl
  · intro p a new old off
    rw [step.graft.rest p a new nofun off, u.lookup fs r pmm, if_neg (not_and_or.mpr off)]
  · intro same
    cases same
    exact r.top d listed
  · intro p new old
    rw [step.looks p new nofun]
    cases p with
    | foreign j => rfl
    | tmp e => exact look_label fs data (unchain_label s.tmp d i e) rfl
  · rintro y same
    cases same
    exact file

theorem created_owner (who : Process) (name : List Char) (pmm' : Pmm) (bound : d < s.tmp.count) :
    Files.ownerOf fs { s with tmp := s.tmp.grow d (createdNode s who d name), pmm := pmm' } (.tmp s.tmp.count) =
      (who.uid, who.gid, 0o644#64) := by
  unfold Files.ownerOf
  dsimp only
  rw [grow_newNode _ bound]
  rfl

theorem Unlinks.found_again (r : Regular fs s kids) (u : Unlinks fs s who path d i name)
    (file : (s.tmp.nodes i).type = .file) (named : n.name = name)
    (made : Makes (MayWrite (s.without d i pmm).tmp who.uid who.gid) who.uid who.gid (s.without d i pmm).tmp
      ((s.without d i pmm).tmp.grow d n) d n) (plain : n.type = .file) (size : n.size = 0#64)
    (before : vfsResolvePathCwd fs s who.cwd path = some (.tmp i)) :
    vfsResolvePathCwd fs { s.without d i pmm with tmp := (s.without d i pmm).tmp.grow d n, pmm := pmm' } who.cwd path =
      some (.tmp s.tmp.count) := by
  have replaces := u.replaces fs (fun _ _ => []) pmm' r file named made plain size
  obtain ⟨listed, -⟩ := r.listed fs u.entry
  obtain ⟨-, splits⟩ := resolveParentDir_splits fs s u.found
  have count : (s.without d i pmm).tmp.count = s.tmp.count := unchain_count s.tmp d i
  have root : Settled s.tmp kids (.tmp 0) := ⟨r.hosted.tree.root.2, .inl r.hosted.tree.root.1⟩
  have here : Settled s.tmp kids (.tmp d) := ⟨count ▸ made.bound, .inl (r.hosted.tree.above d i listed).1⟩
  have walked : walk (s.parentOf fs) (s.lookup fs) (.tmp 0)
      (wayTo (vfsCombinePath who.cwd path) ++ route (lastName (vfsCombinePath who.cwd path))) = some (.tmp i) :=
    (splits.on s).symm.trans before
  have up : ∀ p, Settled s.tmp kids p → p ≠ .tmp s.tmp.count →
      Files.parentOf fs { s.without d i pmm with tmp := (s.without d i pmm).tmp.grow d n, pmm := pmm' } p =
        s.parentOf fs p := by
    intro p _ new
    rw [← count] at new
    rw [parentOf_grow fs made.bound pmm' new, parentOf_without fs pmm]
  have kept : ∀ p, Settled s.tmp kids p → some (Place.tmp i) ≠ some (s.parentOf fs p) := fun p inside same =>
    inside.parent_ne fs r.hosted file (Option.some.inj same).symm
  have back : ∀ y, some (Place.tmp i) = some y → s.parentOf fs y = .tmp d ∧
      Files.parentOf fs { s.without d i pmm with tmp := (s.without d i pmm).tmp.grow d n, pmm := pmm' }
        (.tmp s.tmp.count) = .tmp d := by
    intro y isOld
    cases isOld
    refine ⟨congrArg Place.tmp (r.parent d i listed), ?_⟩
    unfold Files.parentOf
    dsimp only
    rw [← count, grow_newNode n made.bound]
    exact congrArg Place.tmp made.parent
  obtain ⟨x, onto, same⟩ := replaces.graft.walk (D := Settled s.tmp kids) root.old replaces.top.2 here.old root
    (fun _ inside => r.hosted.parentOf_settled fs inside) (fun _ _ _ hit => r.hosted.lookup_settled fs hit)
    (fun p inside new _ => ⟨up p inside new, (r.hosted.parentOf_settled fs inside).old, kept p inside⟩) back walked
  rcases same with ⟨rfl, -, -, other⟩ | ⟨-, rfl⟩
  · exact absurd rfl other
  · exact (splits.on _).trans onto

end Replacing

section Opening

variable {F : Type} (fs : Foreign F) (data : F → Nat → List (BitVec 8)) (k : Kernel) (p : Nat) {s s' s₁ : Files F}
  {kids : Nat → List Nat} {path name : List Char} {flags : Nat} {x : Place} {who : Process}

/-- The permission checks of an open. -/
def Grants (s : Files F) (who : Process) (x : Place) (flags : Nat) : Prop :=
  (flags &&& oAccmode = oRdonly ∨ flags &&& oAccmode = oRdwr →
      vfsCheckPerm (s.ownerOf fs x) who.uid who.gid (permBits .read) = true) ∧
    (wantsWrite flags → vfsCheckPerm (s.ownerOf fs x) who.uid who.gid (permBits .write) = true)

/-- The path leads to a node that may be opened, and a descriptor is left. -/
def Opens (s : Files F) (path : List Char) (flags : Nat) : Prop :=
  (findFreeFd k p 3).isSome = true ∧
    ∃ x, vfsResolvePathCwd fs s (k.procs p).cwd path = some x ∧ Grants fs s (k.procs p) x flags

theorem placeOf_idOf (hosted : Hosted s kids) (here : Settled s.tmp kids x) : placeOf (s.idOf x) = x := by
  cases x with
  | tmp i =>
    have low : i < tmpfsMaxNodes := Nat.lt_of_lt_of_le here.1 hosted.tree.most
    have half : (2 * i) / 2 = i ∧ (2 * i + 1) / 2 = i := by omega
    unfold Files.idOf placeOf fileId dirId
    dsimp only
    split
    · rw [if_pos (by omega), half.1]
    · rw [if_pos (by omega), half.2]
  | foreign j =>
    have high : ¬ 2 * tmpfsMaxNodes + j < 2 * tmpfsMaxNodes := by omega
    unfold Files.idOf placeOf foreignId
    rw [if_neg high, Nat.add_sub_cancel_left]

theorem installFd_opens (place : placeOf (s.idOf x) = x) :
    0 ≤ (installFd (vfsTree fs) k s p (s.idOf x) flags).2 ↔
      Grants fs s (k.procs p) x flags ∧ (findFreeFd k p 3).isSome = true := by
  have check : ∀ want, (vfsTree fs).checkPerm s (.node (s.idOf x)) (k.procs p).uid (k.procs p).gid want =
      vfsCheckPerm (s.ownerOf fs x) (k.procs p).uid (k.procs p).gid (permBits want) := by
    intro want
    unfold vfsTree
    dsimp only
    rw [place]
  have denied : ¬ 0 ≤ -eacces := by decide
  have none : ¬ 0 ≤ -emfile := by decide
  unfold installFd Grants
  dsimp only
  rw [check, check]
  split
  · rename_i refused
    refine iff_of_false denied fun granted => ?_
    rw [granted.1.1 refused.1] at refused
    exact Bool.noConfusion refused.2
  rename_i reads
  split
  · rename_i refused
    refine iff_of_false denied fun granted => ?_
    rw [granted.1.2 refused.1] at refused
    exact Bool.noConfusion refused.2
  rename_i writes
  cases free : findFreeFd k p 3 with
  | none => exact iff_of_false none fun both => by cases both.2
  | some fd =>
    refine iff_of_true (Int.natCast_nonneg fd) ⟨⟨fun wants => ?_, fun wants => ?_⟩, rfl⟩
    · exact Bool.eq_true_of_not_eq_false fun no => reads ⟨wants, no⟩
    · exact Bool.eq_true_of_not_eq_false fun no => writes ⟨wants, no⟩

theorem processOpen_making (located : locate (vfsTree fs) s (k.procs p) path flags =
      createAndResolve (vfsTree fs) s₁ (k.procs p) path) (hosted : Hosted s₁ kids) :
    let r := processOpen (vfsTree fs) k s p path flags
    let c := processCreate fs s₁ (k.procs p) path
    r.2.1 = c.1 ∧ (0 ≤ r.2.2 ↔ 0 ≤ c.2 ∧ Opens fs k p c.1 path flags) := by
  intro r c
  obtain ⟨kids', after, -⟩ := @Hosted.create _ fs _ _ (k.procs p) path hosted
  refine ⟨?_, ?_⟩
  · rw [processOpen_files, located]
    exact createAndResolve_files fs
  have result : r = processOpen (vfsTree fs) k s p path flags := rfl
  unfold processOpen at result
  rw [located, createAndResolve, show (vfsTree fs).create s₁ (k.procs p) path = c from rfl] at result
  dsimp only at result
  by_cases failed : c.2 < 0
  · rw [if_pos failed] at result
    rw [result]
    exact iff_of_false (Int.not_le.mpr failed) fun both => Int.not_le.mpr failed both.1
  · rw [if_neg failed] at result
    have resolve : (vfsTree fs).resolve c.1 (k.procs p).cwd path =
        (vfsResolvePathCwd fs c.1 (k.procs p).cwd path).map c.1.idOf := rfl
    rw [resolve] at result
    cases hit : vfsResolvePathCwd fs c.1 (k.procs p).cwd path with
    | none =>
      rw [hit] at result
      rw [result]
      refine iff_of_false (by decide : ¬ 0 ≤ -eio) fun both => ?_
      obtain ⟨-, -, x, found, -⟩ := both
      rw [hit] at found
      cases found
    | some x =>
      rw [hit] at result
      rw [result]
      have place := placeOf_idOf after (after.resolve_settled fs hit)
      refine (installFd_opens fs k p place).trans ⟨fun both => ⟨Int.not_lt.mp failed, both.2, x, hit, both.1⟩, ?_⟩
      rintro ⟨-, free, y, found, granted⟩
      rw [hit] at found
      cases found
      exact ⟨granted, free⟩

end Opening

section Seen

variable {F : Type} {fs : Foreign F} {data : F → Nat → List (BitVec 8)} {s s' : Files F} {kids : Nat → List Nat}
  {who : Process} {path name : List Char} {d i : Nat} {dir x : Place} {old : Option Place}

theorem SameTree.refl : SameTree fs data s s := fun _ => rfl

theorem KeepsDirs.refl : KeepsDirs fs s s := fun _ _ here isDir => ⟨here, isDir⟩

theorem Regular.located (r : Regular fs s kids) (found : resolveParentDir fs s who path = .ok (dir, name)) :
    ∃ names, s.reached fs names = some dir := by
  obtain ⟨-, splits⟩ := resolveParentDir_splits fs s found
  exact ⟨_, (r.family.arrives (h := []) rfl splits.here).2⟩

theorem Replaces.seen (h : Replaces fs data s s' dir name old x) {names : List (List Char)}
    (here : s.reached fs names = some dir) :
    s.reached fs (name :: names) = old ∧ s'.reached fs (name :: names) = some x := by
  have kept : s'.reached fs names = some dir := by
    rcases h.graft.locate h.top.1 h.top.2 names with ⟨gone, -⟩ | ⟨same, -⟩
    · -- a file has no entries
      have isOld : old = some dir := gone.symm.trans here
      have bare := h.graft.bare dir isOld name
      rw [h.graft.before, isOld] at bare
      cases bare
    · exact same.trans here
  refine ⟨?_, ?_⟩
  · unfold Files.reached at here ⊢
    rw [Route.locate, here, Option.bind_some, h.graft.before]
  · unfold Files.reached at kept ⊢
    rw [Route.locate, kept, Option.bind_some, h.graft.after]

theorem Regular.lookup_top (r : Regular fs s kids) (p : Place) (a : List Char) : s.lookup fs p a ≠ some (.tmp 0) := by
  intro hit
  obtain ⟨e, -, -, found⟩ := lookup_tmp fs hit
  exact r.top e (r.hosted.tree.lookup_mem found)

theorem Unlinks.seen (r : Regular fs s kids) (u : Unlinks fs s who path d i name) (pmm : Pmm) {names : List (List Char)}
    (here : s.reached fs names = some (.tmp d)) :
    s.reached fs (name :: names) = some (.tmp i) ∧ (s.without d i pmm).reached fs (name :: names) = none := by
  have kept : Route.locate ((s.without d i pmm).lookup fs) (.tmp 0) names = some (.tmp d) := by
    refine @Route.Lineal.locate_kept _ _ _ _ _ _ _ r.family r.lookup_top _ (fun _ => True) name trivial
      (fun _ _ _ _ => trivial) (fun p a _ off => ?_) here
    rw [u.lookup fs r pmm, if_neg (not_and_or.mpr off)]
  refine ⟨?_, ?_⟩
  · have enters : s.lookup fs (.tmp d) name = some (.tmp i) := by
      rw [lookup_native fs u.native, u.entry]
      rfl
    unfold Files.reached at here ⊢
    rw [Route.locate, here, Option.bind_some, enters]
  · unfold Files.reached
    rw [Route.locate, kept, Option.bind_some, u.lookup fs r pmm, if_pos ⟨rfl, rfl⟩]

theorem Unlinks.dir_lost (r : Regular fs s kids) (u : Unlinks fs s who path d i name) (isDir : (s.tmp.nodes i).type = .dir)
    (pmm : Pmm) : ¬ KeepsDirs fs s (processCreate fs (s.without d i pmm) who path).1 := by
  intro keeps
  obtain ⟨names, here⟩ := r.located u.found
  obtain ⟨listed, -⟩ := r.listed fs u.entry
  have back := (keeps _ _ (u.seen r pmm here).1 isDir).1
  have hosted : Hosted (s.without d i pmm) (withoutKid kids d i) := r.hosted.unchain listed rfl ⟨rfl, rfl⟩
  obtain ⟨kids', after, only⟩ := @Hosted.create _ fs _ _ who path hosted
  unfold Files.reached at back
  obtain ⟨m, -, hit⟩ := Option.bind_eq_some_iff.mp back
  -- nothing lists the node any more, and a new node has another number
  have unlisted : ∀ e, i ∉ kids' e := by
    intro e mem
    rcases only e i mem with old | new
    · obtain ⟨mem, other⟩ := (mem_withoutKid (r.hosted.tree.nodup d)).mp old
      exact other ⟨r.hosted.tree.apart _ _ i mem listed, rfl⟩
    · have count : (s.without d i pmm).tmp.count = s.tmp.count := unchain_count s.tmp d i
      exact Nat.ne_of_lt (r.hosted.tree.inside d i listed) (new.trans count)
  obtain ⟨e, -, -, found⟩ := lookup_tmp fs hit
  exact unlisted e (after.tree.lookup_mem found)

end Seen

section Serving

variable {F : Type} (fs : Foreign F) (data : F → Nat → List (BitVec 8)) (k : Kernel) (p : Nat) (s : Files F)
  (path : List Char) (flags : Nat)

/-- Creation makes just the file, and it can be opened, or leaves the tree as it was. -/
def JustCreates : Prop :=
  let c := processCreate fs s (k.procs p) path
  KeepsDirs fs s c.1 ∧
    (SameTree fs data s c.1 ∨ (0 ≤ c.2 ∧ Created fs data s c.1 (k.procs p).cwd path ∧ Opens fs k p c.1 path flags))

/-- The same for a file that is to be taken out and made again. -/
def JustTruncates : Prop :=
  let u := processUnlink fs s (k.procs p) path
  let c := processCreate fs u.1 (k.procs p) path
  if u.2 < 0 then KeepsDirs fs s u.1 ∧ SameTree fs data s u.1
  else
    KeepsDirs fs s c.1 ∧ (SameTree fs data s c.1 ∨
      (0 ≤ c.2 ∧ wantsWrite flags ∧ Emptied fs data s c.1 (k.procs p).cwd path ∧ Opens fs k p c.1 path flags))

/-- When an open keeps its promise. Whoever makes a file needs a plain last name and a
descriptor. Whoever truncates needs a file of his own with the mode of a new one, a node, a way
that does not lead through the file, and a descriptor for writing unless the file is empty. -/
structure OpenServed : Prop where
  created : CreatesNew fs s (k.procs p) path flags → ∀ d name, Creates fs s (k.procs p) path d name →
    PlainEnd (lastName (vfsCombinePath (k.procs p).cwd path)) ∧ (findFreeFd k p 3).isSome = true
  truncated : Truncates fs s (k.procs p) path flags → ∀ d i name, Unlinks fs s (k.procs p) path d i name →
    Recreates fs s (k.procs p) path i ∧
      s.ownerOf fs (.tmp i) = ((k.procs p).uid, (k.procs p).gid, 0o644#64) ∧
        ((s.tmp.nodes i).size = 0#64 ∨
          (wantsWrite flags ∧ (findFreeFd k p 3).isSome = true ∧
            vfsResolvePathCwd fs s (k.procs p).cwd path = some (.tmp i)))

variable {fs data k p s path flags} {kids : Nat → List Nat} {s₁ : Files F}

theorem openMeets_iff {s' : Files F} {k' : Kernel} {ret : Int} (kernel : ret < 0 → k' = k) :
    OpenMeets fs data s s' k p path flags k' ret ↔
      KeepsDirs fs s s' ∧ (SameTree fs data s s' ∨ (0 ≤ ret ∧
        ((flags &&& oCreat ≠ 0 ∧ Created fs data s s' (k.procs p).cwd path) ∨
          (flags &&& oTrunc ≠ 0 ∧ wantsWrite flags ∧ Emptied fs data s s' (k.procs p).cwd path)))) := by
  constructor
  · intro meets
    refine ⟨meets.dirs, ?_⟩
    rcases Int.lt_or_le ret 0 with failed | done
    · exact .inl (meets.refused failed).1
    · exact (meets.opened done).imp_right fun changed => ⟨done, changed⟩
  · rintro ⟨dirs, outcome⟩
    refine ⟨fun failed => ⟨?_, kernel failed⟩, fun _ => outcome.imp_right fun both => both.2, dirs⟩
    exact outcome.resolve_right fun both => Int.not_le.mpr failed both.1

theorem processOpen_kernel (failed : (processOpen (vfsTree fs) k s p path flags).2.2 < 0) :
    (processOpen (vfsTree fs) k s p path flags).1 = k := by
  rcases processOpen_cases (vfsTree fs) k s p path flags with ⟨same, -⟩ | ⟨node, fd, start, -, -, -, ret⟩
  · exact same
  · rw [ret] at failed
    exact absurd failed (Int.not_lt.mpr (Int.natCast_nonneg fd))

theorem locate_creates (creates : CreatesNew fs s (k.procs p) path flags) :
    locate (vfsTree fs) s (k.procs p) path flags = createAndResolve (vfsTree fs) s (k.procs p) path := by
  have resolve : (vfsTree fs).resolve s (k.procs p).cwd path = none := congrArg (Option.map s.idOf) creates.1
  unfold locate
  rw [resolve]
  exact if_neg creates.2

theorem locate_truncates (truncates : Truncates fs s (k.procs p) path flags) :
    locate (vfsTree fs) s (k.procs p) path flags =
      let u := processUnlink fs s (k.procs p) path
      if u.2 < 0 then (u.1, .error u.2) else createAndResolve (vfsTree fs) u.1 (k.procs p) path := by
  obtain ⟨x, found⟩ := Option.isSome_iff_exists.mp truncates.1
  have resolve : (vfsTree fs).resolve s (k.procs p).cwd path = some (s.idOf x) := congrArg (Option.map s.idOf) found
  unfold locate
  rw [resolve]
  dsimp only
  rw [if_neg truncates.2.1, if_pos truncates.2.2]
  rfl

theorem locate_idle (old : ¬ CreatesNew fs s (k.procs p) path flags)
    (whole : ¬ Truncates fs s (k.procs p) path flags) : (locate (vfsTree fs) s (k.procs p) path flags).1 = s := by
  have resolve : (vfsTree fs).resolve s (k.procs p).cwd path =
      (vfsResolvePathCwd fs s (k.procs p).cwd path).map s.idOf := rfl
  unfold locate
  rw [resolve]
  cases found : vfsResolvePathCwd fs s (k.procs p).cwd path with
  | none =>
    dsimp only [Option.map_none]
    split
    · rfl
    · rename_i creat
      exact absurd ⟨found, creat⟩ old
  | some x =>
    dsimp only [Option.map_some]
    split
    · rfl
    rename_i notExclusive
    split
    · rename_i truncating
      exact absurd ⟨by rw [found]; rfl, notExclusive, truncating⟩ whole
    · rfl

def OpenOwes (fs : Foreign F) (data : F → Nat → List (BitVec 8)) (k : Kernel) (p : Nat) (s : Files F)
    (path : List Char) (flags : Nat) : Prop :=
  let r := processOpen (vfsTree fs) k s p path flags
  OpenMeets fs data s r.2.1 k p path flags r.1 r.2.2

theorem owes_creates (hosted : Hosted s kids) (creates : CreatesNew fs s (k.procs p) path flags) :
    OpenOwes fs data k p s path flags ↔ JustCreates fs data k p s path flags := by
  obtain ⟨files, ret⟩ := processOpen_making fs k p (locate_creates creates) hosted
  unfold OpenOwes JustCreates
  dsimp only
  rw [openMeets_iff processOpen_kernel, files, ret]
  refine and_congr_right fun _ => or_congr_right ⟨?_, ?_⟩
  · rintro ⟨⟨done, opens⟩, ⟨-, created⟩ | ⟨-, -, y, x, before, -⟩⟩
    · exact ⟨done, created, opens⟩
    · rw [creates.1] at before
      cases before
  · rintro ⟨done, created, opens⟩
    exact ⟨⟨done, opens⟩, .inl ⟨creates.2, created⟩⟩

theorem owes_truncates (hosted : Hosted s kids) (truncates : Truncates fs s (k.procs p) path flags) :
    OpenOwes fs data k p s path flags ↔ JustTruncates fs data k p s path flags := by
  have located := locate_truncates truncates
  dsimp only at located
  unfold OpenOwes JustTruncates
  dsimp only
  rw [openMeets_iff processOpen_kernel]
  by_cases failed : (processUnlink fs s (k.procs p) path).2 < 0
  · rw [if_pos failed] at located ⊢
    have files := @processOpen_files _ fs k s p path flags
    have refused : (processOpen (vfsTree fs) k s p path flags).2.2 < 0 := by
      unfold processOpen
      rw [located]
      exact failed
    rw [files, located]
    refine and_congr_right fun _ => or_iff_left fun both => ?_
    exact Int.not_le.mpr refused both.1
  · rw [if_neg failed] at located ⊢
    obtain ⟨kids₁, hosted₁⟩ := @Hosted.unlink _ fs _ _ (k.procs p) path hosted
    obtain ⟨files, ret⟩ := processOpen_making fs k p located hosted₁
    rw [files, ret]
    refine and_congr_right fun _ => or_congr_right ⟨?_, ?_⟩
    · rintro ⟨⟨done, opens⟩, ⟨-, absent, -⟩ | ⟨-, wants, emptied⟩⟩
      · have present := truncates.1
        rw [absent] at present
        cases present
      · exact ⟨done, wants, emptied, opens⟩
    · rintro ⟨done, wants, emptied, opens⟩
      exact ⟨⟨done, opens⟩, .inr ⟨truncates.2.2.1, wants, emptied⟩⟩

theorem grants_owner {x : Place} {who : Process} (owner : s.ownerOf fs x = (who.uid, who.gid, 0o644#64)) :
    Grants fs s who x flags := by
  have allows : ∀ want, vfsCheckPerm (s.ownerOf fs x) who.uid who.gid (permBits want) = true := by
    intro want
    rw [owner]
    unfold vfsCheckPerm
    dsimp only
    rw [if_pos rfl]
    cases want
    · split <;> rfl
    · split <;> rfl
  exact ⟨fun _ => allows .read, fun _ => allows .write⟩

/-- Creation in a directory of tmpfs is all there is to see exactly if the path leads to the new
file and a descriptor is left. -/
theorem Creates.only_iff (r : Regular fs s kids) {d : Nat} {name : List Char}
    (absent : vfsResolvePathCwd fs s (k.procs p).cwd path = none) (creates : Creates fs s (k.procs p) path d name) :
    JustCreates fs data k p s path flags ↔
      PlainEnd (lastName (vfsCombinePath (k.procs p).cwd path)) ∧ (findFreeFd k p 3).isSome = true := by
  obtain ⟨bound, dir⟩ := r.hosted.parentDir fs creates.found
  obtain ⟨cut, splits⟩ := resolveParentDir_splits fs s creates.found
  obtain ⟨names, here⟩ := r.located creates.found
  rcases processCreate_home fs r.hosted.tree bound creates.found creates.native with
    ⟨-, -, refused⟩ | ⟨-, named, made, result⟩
  · exact absurd creates refused
  have replaces := made.replaces fs data r.hosted.tree dir (pmmAllocPages s.pmm 1).1 rfl rfl
  have resolves := created_resolves_iff fs r.hosted made dir (pmmAllocPages s.pmm 1).1 splits (named.trans cut)
  have owner := created_owner fs (k.procs p) name (pmmAllocPages s.pmm 1).1 bound
  rw [named] at replaces
  obtain ⟨gone, new⟩ := replaces.seen here
  unfold JustCreates
  rw [result]
  dsimp only
  constructor
  · rintro ⟨-, same | ⟨-, created, opens⟩⟩
    · have view := same (name :: names)
      unfold Files.view at view
      rw [gone, new] at view
      cases view
    · obtain ⟨-, x, leads, only⟩ := created
      refine ⟨resolves.mp ?_, opens.1⟩
      rcases only (name :: names) with view | ⟨isNew, -⟩
      · unfold Files.view at view
        rw [gone, new] at view
        cases view
      · rw [new] at isNew
        cases isNew
        exact leads
  · rintro ⟨plain, free⟩
    have leads := resolves.mpr plain
    exact ⟨replaces.dirs, .inr ⟨le_rfl, replaces.created absent leads, free, _, leads, grants_owner owner⟩⟩

/-- An entry of tmpfs is truncated rightly exactly if it is a file of the caller's own that can be
made again, and is empty already or found again and opened for writing. -/
theorem Unlinks.only_iff (r : Regular fs s kids) {d i : Nat} {name : List Char}
    (u : Unlinks fs s (k.procs p) path d i name) :
    JustTruncates fs data k p s path flags ↔
      Recreates fs s (k.procs p) path i ∧
        s.ownerOf fs (.tmp i) = ((k.procs p).uid, (k.procs p).gid, 0o644#64) ∧
          ((s.tmp.nodes i).size = 0#64 ∨
            (wantsWrite flags ∧ (findFreeFd k p 3).isSome = true ∧
              vfsResolvePathCwd fs s (k.procs p).cwd path = some (.tmp i))) := by
  obtain ⟨names, here⟩ := r.located u.found
  obtain ⟨listed, -⟩ := r.listed fs u.entry
  obtain ⟨pmm, result⟩ : ∃ pmm, processUnlink fs s (k.procs p) path = (s.without d i pmm, 0) := by
    rcases processUnlink_home fs u.found u.native with ⟨-, -, refused⟩ | ⟨j, pmm, found, result⟩
    · exact absurd u (refused i)
    · have same := found.entry
      rw [u.entry] at same
      cases same
      exact ⟨pmm, result⟩
  obtain ⟨before, gone⟩ := u.seen r pmm here
  unfold JustTruncates
  rw [result]
  dsimp only
  rw [if_neg (by decide)]
  cases type : (s.tmp.nodes i).type with
  | dir =>
    refine iff_of_false (fun meets => u.dir_lost r type pmm meets.1) fun served => ?_
    rw [served.1.file] at type
    cases type
  | file =>
    have seen : s.view fs data (name :: names) = some ⟨.file, s.ownerOf fs (.tmp i), contents s i⟩ := by
      rw [Files.view, before, Option.map_some, ← type]
      rfl
    rcases u.recreate fs r type pmm with ⟨lost, -, never⟩ | ⟨recreates, named, made, done⟩
    · -- the file is gone
      rw [lost]
      have unseen : (s.without d i pmm).view fs data (name :: names) = none := by rw [Files.view, gone]; rfl
      refine iff_of_false (fun meets => ?_) fun served => never served.1
      rcases meets.2 with same | ⟨-, -, ⟨y, x, -, -, only⟩, -⟩
      · have view := same (name :: names)
        rw [seen, unseen] at view
        cases view
      · rcases only (name :: names) with view | ⟨-, there, -⟩
        · rw [seen, unseen] at view
          cases view
        · rw [gone] at there
          cases there
    · rw [done]
      dsimp only
      have count : (s.without d i pmm).tmp.count = s.tmp.count := unchain_count s.tmp d i
      have owner := created_owner fs (k.procs p) name (pmmAllocPages (s.without d i pmm).pmm 1).1 made.bound
      have replaces := u.replaces fs data (pmmAllocPages (s.without d i pmm).pmm 1).1 r type named made rfl rfl
      have leads := u.found_again fs (pmmAllocPages (s.without d i pmm).pmm 1).1 r type named made rfl rfl
      rw [count] at owner
      generalize hs' : ({ s.without d i pmm with
        tmp := (s.without d i pmm).tmp.grow d (createdNode (s.without d i pmm) (k.procs p) d name)
        pmm := (pmmAllocPages (s.without d i pmm).pmm 1).1 } : Files F) = s' at owner replaces leads ⊢
      obtain ⟨-, new⟩ := replaces.seen here
      have look : s'.look fs data (.tmp s.tmp.count) =
          ⟨.file, ((k.procs p).uid, (k.procs p).gid, 0o644#64), []⟩ := by
        rw [← owner, ← replaces.newborn.1, ← replaces.newborn.2]
        rfl
      have seen' : s'.view fs data (name :: names) =
          some ⟨.file, ((k.procs p).uid, (k.procs p).gid, 0o644#64), []⟩ := by
        rw [Files.view, new, Option.map_some, look]
      have empty : contents s i = [] ↔ (s.tmp.nodes i).size = 0#64 := by
        rw [← List.length_eq_zero_iff, contents, Bytes.table_length, ← BitVec.toNat_inj]
        rfl
      have unchanged : s'.view fs data (name :: names) = s.view fs data (name :: names) →
          s.ownerOf fs (.tmp i) = ((k.procs p).uid, (k.procs p).gid, 0o644#64) ∧ (s.tmp.nodes i).size = 0#64 := by
        intro view
        rw [seen, seen', Option.some_inj, Look.mk.injEq] at view
        exact ⟨view.2.1.symm, empty.mp view.2.2.symm⟩
      constructor
      · rintro ⟨-, same | ⟨-, wants, ⟨y, x, found, -, only⟩, opens⟩⟩
        · obtain ⟨owned, size⟩ := unchanged (same (name :: names))
          exact ⟨recreates, owned, .inl size⟩
        · rcases only (name :: names) with view | ⟨there, -, mine, bytes, was, is⟩
          · obtain ⟨owned, size⟩ := unchanged view
            exact ⟨recreates, owned, .inl size⟩
          · rw [before] at there
            cases there
            rw [seen, Option.some_inj, Look.mk.injEq] at was
            rw [seen', Option.some_inj, Look.mk.injEq] at is
            exact ⟨recreates, was.2.1.trans is.2.1.symm, .inr ⟨wants, opens.1, found⟩⟩
      · rintro ⟨-, owned, outcome⟩
        refine ⟨replaces.dirs, outcome.imp (fun size => replaces.unseen ?_) fun both => ?_⟩
        · rw [look, Files.look, type, owned, empty.mpr size]
        · obtain ⟨wants, free, found⟩ := both
          refine ⟨le_rfl, wants, replaces.emptied ?_ found (leads found), free, _, leads found, grants_owner owner⟩
          rw [look]
          exact owned.symm

theorem parentDir_cases {who : Process} {path : List Char} :
    (∃ e, resolveParentDir fs s who path = .error e ∧ e < 0) ∨
      (∃ d name, resolveParentDir fs s who path = .ok (.tmp d, name) ∧ (s.tmp.nodes d).ops = .tmpfsDir) ∨
      ∃ dir name, resolveParentDir fs s who path = .ok (dir, name) ∧ Abroad s dir := by
  cases found : resolveParentDir fs s who path with
  | error e =>
    refine .inl ⟨e, rfl, ?_⟩
    unfold resolveParentDir at found
    dsimp only at found
    split at found
    · cases found
      decide
    split at found
    · cases found
      decide
    split at found
    · cases found
    · cases found
      decide
  | ok both =>
    obtain ⟨dir, name⟩ := both
    by_cases abroad : Abroad s dir
    · exact .inr (.inr ⟨dir, name, rfl, abroad⟩)
    · obtain ⟨d, rfl, native⟩ := not_abroad abroad
      exact .inr (.inl ⟨d, name, rfl, native⟩)

theorem parentCall_error {op : Place → List Char → Files F × Int} {owned : Bool} {who : Process} {path : List Char}
    {e : Int} (failed : resolveParentDir fs s who path = .error e) : parentCall fs s op owned who path = (s, e) := by
  unfold parentCall
  rw [failed]

theorem parentCall_fixed {op : Place → List Char → Files F × Int} {owned : Bool} {who : Process} {path name : List Char}
    {dir : Place} (found : resolveParentDir fs s who path = .ok (dir, name)) (fixed : s.mutable fs dir = false) :
    parentCall fs s op owned who path = (s, -erofs) := by
  unfold parentCall
  rw [found]
  exact if_pos fixed

variable (data) in
/-- An open keeps its promise exactly if it is served, where only tmpfs makes and removes files. -/
theorem served_iff (r : Regular fs s kids) (fixed : ∀ dir, Abroad s dir → s.mutable fs dir = false) :
    OpenOwes fs data k p s path flags ↔ OpenServed fs k p s path flags := by
  by_cases creates : CreatesNew fs s (k.procs p) path flags
  · have whole : ¬ Truncates fs s (k.procs p) path flags := by
      intro truncates
      have present := truncates.1
      rw [creates.1] at present
      cases present
    have unchanged : (processCreate fs s (k.procs p) path).1 = s → JustCreates fs data k p s path flags := by
      intro same
      unfold JustCreates
      dsimp only
      rw [same]
      exact ⟨KeepsDirs.refl, .inl SameTree.refl⟩
    rw [owes_creates r.hosted creates]
    constructor
    · intro meets
      refine ⟨fun _ d name makes => (makes.only_iff r creates.1).mp meets,
        fun truncates => absurd truncates whole⟩
    · intro served
      have home := served.created creates
      rcases @parentDir_cases _ fs s (k.procs p) path with
        ⟨e, failed, -⟩ | ⟨d, name, found, native⟩ | ⟨dir, name, found, away⟩
      · exact unchanged (congrArg Prod.fst (parentCall_error failed))
      · rcases processCreate_home fs r.hosted.tree (r.hosted.parentDir fs found).1 found native with
          ⟨same, -, -⟩ | ⟨makes, -⟩
        · exact unchanged same
        · exact (makes.only_iff r creates.1).mpr (home d name makes)
      · exact unchanged (congrArg Prod.fst (parentCall_fixed found (fixed dir away)))
  by_cases truncates : Truncates fs s (k.procs p) path flags
  · have unchanged : ∀ e, e < 0 → processUnlink fs s (k.procs p) path = (s, e) →
        JustTruncates fs data k p s path flags := by
      intro e negative same
      unfold JustTruncates
      rw [same]
      dsimp only
      rw [if_pos negative]
      exact ⟨KeepsDirs.refl, SameTree.refl⟩
    rw [owes_truncates r.hosted truncates]
    constructor
    · intro meets
      exact ⟨fun new => absurd new creates,
        fun _ d i name u => (u.only_iff r).mp meets⟩
    · intro served
      have home := served.truncated truncates
      rcases @parentDir_cases _ fs s (k.procs p) path with
        ⟨e, failed, negative⟩ | ⟨d, name, found, native⟩ | ⟨dir, name, found, away⟩
      · exact unchanged e negative (parentCall_error failed)
      · rcases processUnlink_home fs found native with ⟨same, failed, -⟩ | ⟨i, pmm, u, -⟩
        · exact unchanged _ failed (Prod.ext same rfl)
        · exact (u.only_iff r).mpr (home d i name u)
      · exact unchanged (-erofs) (by decide) (parentCall_fixed found (fixed dir away))
  · have files := @processOpen_files _ fs k s p path flags
    rw [locate_idle creates truncates] at files
    have meets : OpenOwes fs data k p s path flags := by
      unfold OpenOwes
      dsimp only
      rw [openMeets_iff processOpen_kernel, files]
      exact ⟨KeepsDirs.refl, .inl SameTree.refl⟩
    exact iff_of_true meets ⟨fun new => absurd new creates, fun whole => absurd whole truncates⟩

end Serving

end Isunux
