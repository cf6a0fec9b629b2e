import Isunux.Endings

/-! What a created path resolves to. A name that is cut to 63 characters, or that means a
directory to `vfs_resolve_path`, makes an entry that its path does not lead to. -/
namespace Isunux

open Route (Move walk)

/-- The last component of a path is the name of an entry: it fits and is neither `.` nor `..`,
or all that does not fit is one dot. -/
def PlainEnd (c : List Char) : Prop :=
  (c.length < vfsMaxName ∧ c ≠ ['.'] ∧ c ≠ ['.', '.']) ∨ c.drop (vfsMaxName - 1) = ['.']

instance (c : List Char) : Decidable (PlainEnd c) := inferInstanceAs (Decidable (_ ∨ _))

theorem moveOf_long {c : List Char} (long : vfsMaxName ≤ c.length) :
    moveOf (c.take (vfsMaxName - 1)) = some (.down (c.take (vfsMaxName - 1))) := by
  have length : (c.take (vfsMaxName - 1)).length = vfsMaxName - 1 := by
    rw [List.length_take]
    simp only [vfsMaxName] at long ⊢
    omega
  have notDot : ∀ w : List Char, w.length < vfsMaxName - 1 → c.take (vfsMaxName - 1) ≠ w := by
    rintro w short rfl
    omega
  unfold moveOf
  rw [if_neg (by rw [not_or]; exact ⟨notDot [] (by decide), notDot ['.'] (by decide)⟩),
    if_neg (notDot ['.', '.'] (by decide))]

section Ending

variable {N : Type} {parent : N → N} {child : N → List Char → Option N} {dir x : N} {c : List Char}

theorem walk_end (named : c ≠ []) (noSlash : '/' ∉ c) (short : c.length < vfsMaxPath - 1)
    (enters : child dir (c.take (vfsMaxName - 1)) = some x) (leaf : ∀ a, child x a = none) (apart : dir ≠ x)
    (up : parent dir ≠ x) (back : parent x ≠ x) : walk parent child dir (route c) = some x ↔ PlainEnd c := by
  rw [route_name named noSlash short]
  by_cases whole : c.length < vfsMaxName
  · have take : c.take (vfsMaxName - 1) = c := List.take_of_length_le (Nat.le_sub_one_of_lt whole)
    have drop : c.drop (vfsMaxName - 1) = [] := List.drop_eq_nil_of_le (Nat.le_sub_one_of_lt whole)
    rw [take] at enters ⊢
    unfold PlainEnd
    rw [drop]
    by_cases dot : c = ['.']
    · subst dot
      simp [moveOf, walk, apart]
    · by_cases dots : c = ['.', '.']
      · subst dots
        simp [moveOf, walk, up]
      · simp [moveOf, walk, named, dot, dots, enters, whole]
  · have down := moveOf_long (Nat.le_of_not_lt whole)
    have more : c.drop (vfsMaxName - 1) ≠ [] := by
      intro none
      rw [List.drop_eq_nil_iff] at none
      simp only [vfsMaxName] at whole none
      omega
    rw [down, Option.toList_some, List.singleton_append, walk, enters, Option.bind_some]
    unfold PlainEnd
    by_cases dot : c.drop (vfsMaxName - 1) = ['.']
    · rw [dot]
      simp [moveOf, walk]
    · by_cases dots : c.drop (vfsMaxName - 1) = ['.', '.']
      · rw [dots]
        simp [moveOf, walk, back, whole]
      · simp [moveOf, walk, more, dot, dots, leaf, whole]

end Ending

section Creating

variable {F : Type} (fs : Foreign F) {s : Files F} {kids : Nat → List Nat} {W : Nat → Prop} {uid gid : Word}
  {d : Nat} {n : TmpfsNode}

theorem lookup_grow (ok : TreeOk s.tmp kids) (made : Makes W uid gid s.tmp (s.tmp.grow d n) d n)
    (dir : (s.tmp.nodes d).type = .dir) {e : Nat} {a : List Char}
    (off : e ≠ d ∨ a ≠ n.name) : tmpfsDirLookup (s.tmp.grow d n) e a = tmpfsDirLookup s.tmp e a := by
  have grown := ok.grow made.bound dir made.room made.bare made.parent (opened_of_kind made.kind)
  unfold tmpfsDirLookup
  rw [grown.children, ok.children, withKid]
  have names : ∀ i ∈ kids e, decide (((s.tmp.grow d n).nodes i).name = a) = decide ((s.tmp.nodes i).name = a) := by
    intro i mem
    have label := grow_label (n := n) made.bound (Nat.ne_of_lt (ok.inside e i mem))
    rw [(TmpfsNode.label_eq label).name]
  by_cases here : e = d
  · subst here
    have other : ((s.tmp.grow e n).nodes s.tmp.count).name ≠ a := by
      rw [grow_newNode n made.bound]
      exact (off.resolve_left (fun no => no rfl)).symm
    rw [Function.update_self, List.find?_cons_of_neg (by simpa using other)]
    exact List.find?_congr names
  · rw [Function.update_of_ne here]
    exact List.find?_congr names

theorem TreeOk.lookup_new {t : Tmpfs} (ok : TreeOk t kids) (bound : d < t.count) (dir : (t.nodes d).type = .dir)
    (room : t.count < tmpfsMaxNodes) (bare : n.firstChild = none) (parent : n.parent = d)
    (opened : n.ops = .tmpfsFile ↔ n.type = .file) : tmpfsDirLookup (t.grow d n) d n.name = some t.count := by
  have grown := ok.grow bound dir room bare parent opened
  unfold tmpfsDirLookup
  rw [grown.children, withKid, Function.update_self, List.find?_cons_of_pos]
  rw [grow_newNode n bound]
  exact decide_eq_true rfl

theorem TreeOk.children_new {t : Tmpfs} (ok : TreeOk t kids) (bound : d < t.count) (dir : (t.nodes d).type = .dir)
    (room : t.count < tmpfsMaxNodes) (bare : n.firstChild = none) (parent : n.parent = d)
    (opened : n.ops = .tmpfsFile ↔ n.type = .file) : (t.grow d n).children t.count = [] := by
  have none : kids t.count = [] := by
    by_contra some
    obtain ⟨j, mem⟩ := List.exists_mem_of_ne_nil _ some
    exact Nat.lt_irrefl _ (ok.above _ j mem).2
  rw [(ok.grow bound dir room bare parent opened).children, withKid, Function.update_of_ne (Nat.ne_of_lt bound).symm, none]

theorem Makes.graft (ok : TreeOk s.tmp kids) (made : Makes W uid gid s.tmp (s.tmp.grow d n) d n)
    (dir : (s.tmp.nodes d).type = .dir) (pmm : Pmm) :
    Route.Graft (s.lookup fs) (Files.lookup fs { s with tmp := s.tmp.grow d n, pmm := pmm }) (.tmp d) n.name none
      (.tmp s.tmp.count) := by
  have ops : ∀ e, e ≠ s.tmp.count → ((s.tmp.grow d n).nodes e).ops = (s.tmp.nodes e).ops := fun e old =>
    (TmpfsNode.label_eq (grow_label made.bound old)).ops
  refine ⟨?_, ?_, nofun, fun a => ?_, nofun, fun p a found => ?_, fun p a new _ off => ?_⟩
  · rw [lookup_native fs made.native, made.fresh]
    rfl
  · have hit := ok.lookup_new made.bound dir made.room made.bare made.parent (opened_of_kind made.kind)
    rw [lookup_native fs ((ops d (Nat.ne_of_lt made.bound)).trans made.native), hit]
    rfl
  · have newOps : ((s.tmp.grow d n).nodes s.tmp.count).ops = n.ops := by rw [grow_newNode n made.bound]
    unfold Files.lookup
    dsimp only
    rw [newOps]
    rcases made.kind with ⟨file, -⟩ | ⟨native, -⟩
    · rw [file]
    · rw [native]
      dsimp only
      rw [tmpfsDirLookup, ok.children_new made.bound dir made.room made.bare made.parent (opened_of_kind made.kind)]
      rfl
  · obtain ⟨e, -, -, hit⟩ := lookup_tmp fs found
    exact Nat.lt_irrefl _ (ok.inside _ _ (ok.lookup_mem hit))
  · cases p with
    | foreign j => rfl
    | tmp e =>
      have old : e ≠ s.tmp.count := fun same => new (same ▸ rfl)
      unfold Files.lookup
      dsimp only
      rw [ops e old, lookup_grow ok made dir (off.imp_left fun other same => other (same ▸ rfl))]

theorem Settled.old {t : Tmpfs} {p : Place} (here : Settled t kids p) : p ≠ .tmp t.count := by
  rintro rfl
  exact Nat.lt_irrefl _ here.1

theorem parentOf_grow (bound : d < s.tmp.count) (pmm : Pmm) {p : Place} (old : p ≠ .tmp s.tmp.count) :
    Files.parentOf fs { s with tmp := s.tmp.grow d n, pmm := pmm } p = s.parentOf fs p := by
  cases p with
  | foreign j => rfl
  | tmp i =>
    have other : i ≠ s.tmp.count := fun same => old (same ▸ rfl)
    unfold Files.parentOf
    dsimp only
    rw [(TmpfsNode.label_eq (grow_label bound other)).parent]

/-- The path of a new entry leads to it exactly if the last component is its whole name. -/
theorem created_resolves_iff (h : Hosted s kids) (made : Makes W uid gid s.tmp (s.tmp.grow d n) d n)
    (dir : (s.tmp.nodes d).type = .dir) (pmm : Pmm) {q : List Char}
    (splits : Splits fs s q (.tmp d)) (name : n.name = (lastName q).take (vfsMaxName - 1)) :
    vfsResolvePath fs { s with tmp := s.tmp.grow d n, pmm := pmm } q = some (.tmp s.tmp.count) ↔
      PlainEnd (lastName q) := by
  have graft := made.graft fs h.tree dir pmm
  have root : Settled s.tmp kids (.tmp 0) := ⟨h.tree.root.2, .inl h.tree.root.1⟩
  have here : Settled s.tmp kids (.tmp d) := ⟨made.bound, .inl dir⟩
  obtain ⟨dir', onto, same⟩ := graft.walk (D := Settled s.tmp kids) root.old nofun here.old root
    (fun _ inside => h.parentOf_settled fs inside) (fun _ _ _ found => h.lookup_settled fs found)
    (fun p inside new _ => ⟨parentOf_grow fs made.bound pmm new, (h.parentOf_settled fs inside).old, nofun⟩)
    nofun splits.here
  obtain ⟨rfl, -⟩ := same.resolve_right nofun
  rw [splits.on, Route.walk_append, onto, Option.bind_some]
  have enters := graft.after
  rw [name] at enters
  refine walk_end splits.named splits.plain splits.short enters graft.leaf here.old ?_ ?_
  · rw [parentOf_grow fs made.bound pmm here.old]
    exact (h.parentOf_settled fs here).old
  · unfold Files.parentOf
    dsimp only
    rw [grow_newNode n made.bound]
    dsimp only
    rw [made.parent]
    exact here.old

end Creating

/-! Whole runs. An entry is only made by the calls with a path and when the tree is filled at
boot, and keeps its name. -/

def ProperName (name : List Char) : Prop := name ≠ [] ∧ name ≠ ['.'] ∧ name ≠ ['.', '.']

instance (name : List Char) : Decidable (ProperName name) := inferInstanceAs (Decidable (_ ∧ _))

theorem properName_take {name : List Char} (proper : ProperName name) : ProperName (name.take (vfsMaxName - 1)) := by
  by_cases whole : name.length < vfsMaxName
  · rwa [List.take_of_length_le (Nat.le_sub_one_of_lt whole)]
  · have cut : ∀ w : List Char, w.length < vfsMaxName - 1 → name.take (vfsMaxName - 1) ≠ w := by
      rintro w short rfl
      rw [List.length_take] at short
      simp only [vfsMaxName] at whole short
      omega
    exact ⟨cut [] (by decide), cut ['.'] (by decide), cut ['.', '.'] (by decide)⟩

theorem PlainEnd.proper {c : List Char} (named : c ≠ []) (plain : PlainEnd c) :
    ProperName (c.take (vfsMaxName - 1)) := by
  refine properName_take ⟨named, ?_, ?_⟩
  · rintro rfl
    exact absurd plain (by decide)
  · rintro rfl
    exact absurd plain (by decide)

section Names

variable {F : Type} (fs : Foreign F) {s s' s'' : Files F} {kids : Nat → List Nat} {who : Process} {path : List Char}

/-- A tree whose entries all have proper names. -/
def Named (s : Files F) : Prop :=
  ∃ kids, Hosted s kids ∧ ∀ d i, i ∈ kids d → ProperName (s.tmp.nodes i).name

structure SameEntries (s s' : Files F) : Prop where
  count : s'.tmp.count = s.tmp.count
  links : ∀ i, (s'.tmp.nodes i).firstChild = (s.tmp.nodes i).firstChild ∧
    (s'.tmp.nodes i).nextSibling = (s.tmp.nodes i).nextSibling
  types : ∀ i, (s'.tmp.nodes i).type = (s.tmp.nodes i).type ∧ (s'.tmp.nodes i).parent = (s.tmp.nodes i).parent
  opened : ∀ i, (s'.tmp.nodes i).ops = .tmpfsFile ↔ (s.tmp.nodes i).ops = .tmpfsFile
  names : ∀ i, (s'.tmp.nodes i).name = (s.tmp.nodes i).name
  mounts : s'.devDir = s.devDir ∧ s'.mntDir = s.mntDir

theorem SameEntries.tmp (tmp : s'.tmp = s.tmp) (mounts : s'.devDir = s.devDir ∧ s'.mntDir = s.mntDir) :
    SameEntries s s' := by
  exact ⟨by rw [tmp], fun i => by rw [tmp]; exact ⟨rfl, rfl⟩, fun i => by rw [tmp]; exact ⟨rfl, rfl⟩,
    fun i => by rw [tmp], fun i => by rw [tmp], mounts⟩

theorem SameEntries.trans (h : SameEntries s s') (h' : SameEntries s' s'') : SameEntries s s'' :=
  ⟨h'.count.trans h.count, fun i => ⟨(h'.links i).1.trans (h.links i).1, (h'.links i).2.trans (h.links i).2⟩,
    fun i => ⟨(h'.types i).1.trans (h.types i).1, (h'.types i).2.trans (h.types i).2⟩,
    fun i => (h'.opened i).trans (h.opened i), fun i => (h'.names i).trans (h.names i),
    ⟨h'.mounts.1.trans h.mounts.1, h'.mounts.2.trans h.mounts.2⟩⟩

theorem SameEntries.hosted (h : SameEntries s s') (hosted : Hosted s kids) : Hosted s' kids := by
  refine ⟨hosted.tree.relabel h.count h.links h.types h.opened, fun d hd => ?_⟩
  rw [h.mounts.1, h.mounts.2] at hd
  rw [h.count, (h.types d).1]
  exact hosted.dirs d hd

theorem SameEntries.named (h : SameEntries s s') (named : Named s) : Named s' := by
  obtain ⟨kids, hosted, proper⟩ := named
  refine ⟨kids, h.hosted hosted, fun d i mem => ?_⟩
  rw [h.names i]
  exact proper d i mem

theorem SameEntries.set {i : Nat} {n : TmpfsNode} (tmp : s'.tmp = s.tmp.set i n)
    (mounts : s'.devDir = s.devDir ∧ s'.mntDir = s.mntDir)
    (links : n.firstChild = (s.tmp.nodes i).firstChild ∧ n.nextSibling = (s.tmp.nodes i).nextSibling)
    (types : n.type = (s.tmp.nodes i).type ∧ n.parent = (s.tmp.nodes i).parent)
    (opened : n.ops = .tmpfsFile ↔ (s.tmp.nodes i).ops = .tmpfsFile) (name : n.name = (s.tmp.nodes i).name) :
    SameEntries s s' := by
  have at_ : ∀ j, s'.tmp.nodes j = if j = i then n else s.tmp.nodes j := by
    intro j
    rw [tmp]
    simp only [Tmpfs.set, Function.update_apply]
  refine ⟨by rw [tmp]; rfl, fun j => ?_, fun j => ?_, fun j => ?_, fun j => ?_, mounts⟩
  all_goals
    rw [at_ j]
    by_cases here : j = i
  · rw [if_pos here, here]
    exact links
  · rw [if_neg here]
    exact ⟨rfl, rfl⟩
  · rw [if_pos here, here]
    exact types
  · rw [if_neg here]
    exact ⟨rfl, rfl⟩
  · rw [if_pos here, here]
    exact opened
  · rw [if_neg here]
  · rw [if_pos here, here]
    exact name
  · rw [if_neg here]

theorem tmpfsFileWrite_entries {i : Nat} {src : Nat → BitVec 8} {count offset : Word} {n : Int}
    (done : tmpfsFileWrite s i src count offset = some (s', n)) : SameEntries s s' := by
  have put : ∀ (t : Files F) (len : Word), SameEntries t (putBytes t i offset src len) := by
    intro t len
    refine .set rfl ⟨rfl, rfl⟩ ?_ ?_ ?_ ?_ <;> split <;> first | exact ⟨rfl, rfl⟩ | rfl
  unfold tmpfsFileWrite at done
  dsimp only at done
  split at done
  · obtain ⟨pages, -, result⟩ := Option.map_eq_some_iff.mp done
    cases grew : growFile s i pages with
    | some grown =>
      rw [grew] at result
      cases result
      obtain ⟨start, -, -, -, -, -, rfl⟩ := growFile_some grew
      refine SameEntries.trans ?_ (put _ count)
      exact .set rfl ⟨rfl, rfl⟩ ⟨rfl, rfl⟩ ⟨rfl, rfl⟩ Iff.rfl rfl
    | none =>
      rw [grew] at result
      dsimp only at result
      have same : SameEntries s { s with pmm := (pmmAllocPages s.pmm pages.toNat).1 } := .tmp rfl ⟨rfl, rfl⟩
      split at result
      · cases result
        exact same
      · cases result
        exact same.trans (put _ _)
  · cases done
    exact put s count

theorem Named.install (named : Named s) (dev : Bool) {d : Nat} (bound : d < s.tmp.count)
    (dir : (s.tmp.nodes d).type = .dir) : Named (s.install dev d) := by
  obtain ⟨kids, hosted, proper⟩ := named
  have opened : NodeOps.foreign = .tmpfsFile ↔ (s.tmp.nodes d).ops = .tmpfsFile := by
    rw [hosted.tree.ops d bound, dir]
    decide
  have same : SameEntries s { s with tmp := s.tmp.set d { s.tmp.nodes d with ops := .foreign } } :=
    .set rfl ⟨rfl, rfl⟩ ⟨rfl, rfl⟩ ⟨rfl, rfl⟩ opened rfl
  have hosted' := same.hosted hosted
  have names : ∀ e i, i ∈ kids e → ProperName ((s.install dev d).tmp.nodes i).name := by
    intro e i mem
    have name : ((s.install dev d).tmp.nodes i).name = (s.tmp.nodes i).name := by
      unfold Files.install
      cases dev
      · exact same.names i
      · exact same.names i
    rw [name]
    exact proper e i mem
  have here : d < (s.tmp.set d { s.tmp.nodes d with ops := .foreign }).count ∧
      ((s.tmp.set d { s.tmp.nodes d with ops := .foreign }).nodes d).type = .dir := by
    refine ⟨bound, ?_⟩
    rw [(same.types d).1]
    exact dir
  refine ⟨kids, ?_, names⟩
  unfold Files.install
  cases dev
  · refine ⟨hosted'.tree, fun e he => ?_⟩
    rcases he with old | rfl
    · exact hosted'.dirs e (.inl old)
    · exact here
  · refine ⟨hosted'.tree, fun e he => ?_⟩
    rcases he with rfl | old
    · exact here
    · exact hosted'.dirs e (.inr old)

theorem Hosted.same (hosted : Hosted s kids) (tmp : s'.tmp = s.tmp)
    (mounts : s'.devDir = s.devDir ∧ s'.mntDir = s.mntDir) : Hosted s' kids :=
  (SameEntries.tmp tmp mounts).hosted hosted

theorem Hosted.grow (hosted : Hosted s kids) {d : Nat} {n : TmpfsNode} (bound : d < s.tmp.count)
    (dir : (s.tmp.nodes d).type = .dir) (room : s.tmp.count < tmpfsMaxNodes) (bare : n.firstChild = none)
    (parent : n.parent = d) (opened : n.ops = .tmpfsFile ↔ n.type = .file) (tmp : s'.tmp = s.tmp.grow d n)
    (mounts : s'.devDir = s.devDir ∧ s'.mntDir = s.mntDir) : Hosted s' (withKid kids d s.tmp.count) := by
  refine ⟨?_, fun e he => ?_⟩
  · rw [tmp]
    exact hosted.tree.grow bound dir room bare parent opened
  · rw [mounts.1, mounts.2] at he
    obtain ⟨below, isDir⟩ := hosted.dirs e he
    rw [tmp, (TmpfsNode.label_eq (grow_label bound (Nat.ne_of_lt below))).type]
    exact ⟨Nat.lt_succ_of_lt below, isDir⟩

theorem Hosted.unchain (hosted : Hosted s kids) {d i : Nat} (listed : i ∈ kids d) (tmp : s'.tmp = s.tmp.unchain d i)
    (mounts : s'.devDir = s.devDir ∧ s'.mntDir = s.mntDir) : Hosted s' (withoutKid kids d i) := by
  refine ⟨?_, fun e he => ?_⟩
  · rw [tmp]
    exact hosted.tree.unchain listed
  · rw [mounts.1, mounts.2] at he
    obtain ⟨below, isDir⟩ := hosted.dirs e he
    rw [tmp, unchain_count, (TmpfsNode.label_eq (unchain_label s.tmp d i e)).type]
    exact ⟨below, isDir⟩

theorem Named.grow (named : Named s) {d : Nat} {n : TmpfsNode} (bound : d < s.tmp.count)
    (dir : (s.tmp.nodes d).type = .dir) (room : s.tmp.count < tmpfsMaxNodes) (bare : n.firstChild = none)
    (parent : n.parent = d) (opened : n.ops = .tmpfsFile ↔ n.type = .file) (proper : ProperName n.name)
    (tmp : s'.tmp = s.tmp.grow d n) (mounts : s'.devDir = s.devDir ∧ s'.mntDir = s.mntDir) : Named s' := by
  obtain ⟨kids, hosted, names⟩ := named
  refine ⟨withKid kids d s.tmp.count, hosted.grow bound dir room bare parent opened tmp mounts, fun e i mem => ?_⟩
  rw [tmp]
  rcases mem_withKid mem with old | ⟨rfl, rfl⟩
  · rw [(TmpfsNode.label_eq (grow_label bound (Nat.ne_of_lt (hosted.tree.inside e i old)))).name]
    exact names e i old
  · rw [grow_newNode n bound]
    exact proper

theorem Named.seedFile {s : Files F} (named : Named s) {d : Nat} (isDir : s.tmp.isDir d = true) {name : List Char}
    (proper : ProperName name) (src : Nat → BitVec 8) (count mode : Word) :
    Named (Isunux.seedFile s d name src count mode) := by
  simp only [Tmpfs.isDir, Bool.and_eq_true, decide_eq_true_eq, beq_iff_eq] at isDir
  unfold Isunux.seedFile
  rw [tmpfsCreateFile_eq]
  by_cases full : s.tmp.count ≥ tmpfsMaxNodes
  · rw [if_pos full]
    exact named
  · rw [if_neg full]
    have fresh := fileNode_fresh d name (pmmAllocPages s.pmm 1).2
    have made : Named { s with
        tmp := s.tmp.grow d (fileNode d name (pmmAllocPages s.pmm 1).2), pmm := (pmmAllocPages s.pmm 1).1 } :=
      named.grow isDir.1 isDir.2 (Nat.lt_of_not_le full) fresh.bare fresh.parent (opened_of_kind fresh.kind)
        (properName_take proper) rfl ⟨rfl, rfl⟩
    dsimp only
    generalize { s with
      tmp := s.tmp.grow d (fileNode d name (pmmAllocPages s.pmm 1).2), pmm := (pmmAllocPages s.pmm 1).1 } = t at made ⊢
    have written : Named (((tmpfsFileWrite t s.tmp.count src count 0#64).map Prod.fst).getD t) := by
      cases done : tmpfsFileWrite t s.tmp.count src count 0#64 with
      | none => exact made
      | some r => exact (tmpfsFileWrite_entries done).named made
    refine SameEntries.named ?_ written
    exact .set rfl ⟨rfl, rfl⟩ ⟨rfl, rfl⟩ ⟨rfl, rfl⟩ Iff.rfl rfl

theorem Named.seedDir {s : Files F} (named : Named s) {d : Nat} (isDir : s.tmp.isDir d = true) {name : List Char}
    (proper : ProperName name) : Named (tmpfsCreateDir s d name).1 := by
  simp only [Tmpfs.isDir, Bool.and_eq_true, decide_eq_true_eq, beq_iff_eq] at isDir
  rw [tmpfsCreateDir_eq]
  by_cases full : s.tmp.count ≥ tmpfsMaxNodes
  · rw [if_pos full]
    exact named
  · rw [if_neg full]
    have fresh := dirNode_fresh d name
    exact named.grow isDir.1 isDir.2 (Nat.lt_of_not_le full) fresh.bare fresh.parent (opened_of_kind fresh.kind)
      (properName_take proper) rfl ⟨rfl, rfl⟩

theorem Named.unchain (named : Named s) {d i : Nat} (listed : i ∈ s.tmp.children d)
    (tmp : s'.tmp = s.tmp.unchain d i) (mounts : s'.devDir = s.devDir ∧ s'.mntDir = s.mntDir) : Named s' := by
  obtain ⟨kids, hosted, names⟩ := named
  rw [hosted.tree.children] at listed
  refine ⟨withoutKid kids d i, hosted.unchain listed tmp mounts, fun e j mem => ?_⟩
  rw [tmp, (TmpfsNode.label_eq (unchain_label s.tmp d i j)).name]
  exact names e j ((mem_withoutKid (hosted.tree.nodup d)).mp mem).1

theorem parentCall_mounts {op : Files F → Nat → List Char → Files F × Int}
    (foreign : F → Place → List Char → F × Int) (owned : Bool)
    (keeps : ∀ d name, (op s d name).1.devDir = s.devDir ∧ (op s d name).1.mntDir = s.mntDir) :
    (parentCall fs s (dirOp s op foreign) owned who path).1.devDir = s.devDir ∧
      (parentCall fs s (dirOp s op foreign) owned who path).1.mntDir = s.mntDir := by
  have does : ∀ dir name, (dirOp s op foreign dir name).1.devDir = s.devDir ∧
      (dirOp s op foreign dir name).1.mntDir = s.mntDir := by
    intro dir name
    by_cases abroad : Abroad s dir
    · rw [dirOp_abroad op foreign abroad]
      exact ⟨rfl, rfl⟩
    · obtain ⟨d, rfl, native⟩ := not_abroad abroad
      have home : dirOp s op foreign (.tmp d) name = op s d name := if_pos native
      rw [home]
      exact keeps d name
  rcases @parentCall_cases _ fs s who path (dirOp s op foreign) owned with
    ⟨same, -⟩ | ⟨dir, name, -, -, -, ⟨after, -⟩ | ⟨-, -, created, -, after⟩⟩
  · rw [same]
    exact ⟨rfl, rfl⟩
  · rw [after]
    exact does dir name
  · rw [after]
    cases created with
    | tmp i => exact does dir name
    | foreign j => exact does dir name

theorem tmpfsDirUnlink_mounts (s : Files F) (d : Nat) (name : List Char) :
    (tmpfsDirUnlink s d name).1.devDir = s.devDir ∧ (tmpfsDirUnlink s d name).1.mntDir = s.mntDir := by
  unfold tmpfsDirUnlink
  split
  · exact ⟨rfl, rfl⟩
  · dsimp only
    split
    · exact ⟨rfl, rfl⟩
    · split <;> exact ⟨rfl, rfl⟩

theorem Hosted.unlink (hosted : Hosted s kids) : ∃ kids', Hosted (processUnlink fs s who path).1 kids' := by
  have mounts := @parentCall_mounts _ fs _ who path _ fs.unlink false (tmpfsDirUnlink_mounts s)
  rcases @processUnlink_cases F fs s who path with ⟨same, -⟩ | ⟨-, d, i, name, -, removed⟩
  · exact ⟨kids, hosted.same same mounts⟩
  · have listed := removed.listed
    rw [hosted.tree.children] at listed
    exact ⟨_, hosted.unchain listed removed.after mounts⟩

theorem tmpfsDirCreate_mounts (s : Files F) (d : Nat) (name : List Char) :
    (tmpfsDirCreate s d name).1.devDir = s.devDir ∧ (tmpfsDirCreate s d name).1.mntDir = s.mntDir := by
  rcases tmpfsDirCreate_adds s d name with ⟨same, -⟩ | ⟨-, -, eq⟩
  · rw [same]
    exact ⟨rfl, rfl⟩
  · rw [eq]
    exact ⟨rfl, rfl⟩

theorem tmpfsDirMkdir_mounts (s : Files F) (d : Nat) (name : List Char) :
    (tmpfsDirMkdir s d name).1.devDir = s.devDir ∧ (tmpfsDirMkdir s d name).1.mntDir = s.mntDir := by
  rcases tmpfsDirMkdir_adds s d name with ⟨same, -⟩ | ⟨-, -, eq⟩
  · rw [same]
    exact ⟨rfl, rfl⟩
  · rw [eq]
    exact ⟨rfl, rfl⟩

theorem Hosted.create (hosted : Hosted s kids) :
    ∃ kids', Hosted (processCreate fs s who path).1 kids' ∧
      ∀ e j, j ∈ kids' e → j ∈ kids e ∨ j = s.tmp.count := by
  have mounts := @parentCall_mounts _ fs _ who path _ fs.create true (tmpfsDirCreate_mounts s)
  rcases processCreate_cases fs hosted.tree fun d name found => (hosted.parentDir fs found).1 with
    ⟨same, -⟩ | ⟨-, d, n, name, found, made⟩
  · exact ⟨kids, hosted.same same mounts, fun e j mem => .inl mem⟩
  · obtain ⟨bound, dir⟩ := hosted.parentDir fs found
    refine ⟨_, hosted.grow bound dir made.room made.bare made.parent (opened_of_kind made.kind) made.after mounts,
      fun e j mem => ?_⟩
    exact (mem_withKid mem).imp_right fun new => new.2

theorem createAndResolve_files : (createAndResolve (vfsTree fs) s who path).1 = (processCreate fs s who path).1 := by
  unfold createAndResolve
  rw [show (vfsTree fs).create s who path = processCreate fs s who path from rfl]
  dsimp only
  split
  · rfl
  · split <;> rfl

end Names

end Isunux
