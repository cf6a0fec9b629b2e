import Isunux.TmpfsTree

/-! Which pages tmpfs files own. `R` tells which pool slots a descriptor refers to,
`lent` which pages the rest of the kernel holds. A file whose first allocation failed
has page 0 for a buffer and owns nothing. -/
namespace Isunux

/-- Page `g` is behind the data pointer of the node. -/
def TmpfsNode.Holds (n : TmpfsNode) (g : Nat) : Prop :=
  ∃ f, n.data = some f ∧ f ≠ 0 ∧ f ≤ g ∧ g < f + n.pages

structure TmpfsNode.Sized (n : TmpfsNode) : Prop where
  buffer : n.data.isSome = true
  whole : n.capacity.toNat = n.pages * 4096
  some : 0 < n.pages
  few : n.pages ≤ maxPages
  bare : n.data = .some 0 → n.pages = 1

section Same

variable {m n : TmpfsNode} (data : n.data = m.data) (capacity : n.capacity = m.capacity)
include data capacity

theorem TmpfsNode.Sized.same (h : m.Sized) : n.Sized := by
  obtain ⟨buffer, whole, some, few, bare⟩ := h
  unfold TmpfsNode.pages at whole some few bare
  refine ⟨data ▸ buffer, ?_, ?_, ?_, ?_⟩
  all_goals
    unfold TmpfsNode.pages
    rw [capacity]
    try rw [data]
    assumption

theorem TmpfsNode.holds_same (g : Nat) : n.Holds g ↔ m.Holds g := by
  unfold TmpfsNode.Holds TmpfsNode.pages
  rw [data, capacity]

end Same

structure SolelyOwned (p : Pmm) (g : Nat) : Prop where
  bound : g < p.totalPages
  used : p.bitmap g = true
  sole : p.refcount g = 1

theorem SolelyOwned.grown {p q : Pmm} {g : Nat} (h : SolelyOwned p g) (grown : Grown p q) : SolelyOwned q g :=
  ⟨grown.total ▸ h.bound, (grown.used g h.used).1, (grown.used g h.used).2.trans h.sole⟩

/-- A file that is linked in the tree or that a descriptor refers to. -/
def Live (t : Tmpfs) (kids : Nat → List Nat) (R : Nat → Prop) (i : Nat) : Prop :=
  (t.nodes i).type = .file ∧ ((∃ d, i ∈ kids d) ∨ R i)

structure Stored {F : Type} (s : Files F) (kids : Nat → List Nat) (R : Nat → Prop)
    (lent : Nat → Bool) : Prop where
  tree : TreeOk s.tmp kids
  dirs : ∀ d, d = s.devDir ∨ d = s.mntDir → d < s.tmp.count ∧ (s.tmp.nodes d).type = .dir
  refs : ∀ i, R i → i < s.tmp.count ∧ (s.tmp.nodes i).type = .file
  sized : ∀ i, Live s.tmp kids R i → (s.tmp.nodes i).Sized
  used : ∀ i, Live s.tmp kids R i → ∀ g, (s.tmp.nodes i).Holds g → SolelyOwned s.pmm g
  apart : ∀ i j, Live s.tmp kids R i → Live s.tmp kids R j → ∀ g, (s.tmp.nodes i).Holds g →
    (s.tmp.nodes j).Holds g → i = j
  away : ∀ g, lent g = true → g ≠ 0 ∧ s.pmm.bitmap g = true ∧
    ∀ i, Live s.tmp kids R i → ¬ (s.tmp.nodes i).Holds g

section Keep

variable {F : Type} {s s' : Files F} {kids kids' : Nat → List Nat} {R R' : Nat → Prop}
  {lent : Nat → Bool}

theorem Stored.bound (h : Stored s kids R lent) {i : Nat} (live : Live s.tmp kids R i) :
    i < s.tmp.count := by
  rcases live.2 with ⟨d, mem⟩ | ref
  · exact h.tree.inside d i mem
  · exact (h.refs i ref).1

theorem Stored.keep (h : Stored s kids R lent) (tree : TreeOk s'.tmp kids')
    (dirs : ∀ d, d = s'.devDir ∨ d = s'.mntDir → d < s'.tmp.count ∧ (s'.tmp.nodes d).type = .dir)
    (refs : ∀ i, R' i → i < s'.tmp.count ∧ (s'.tmp.nodes i).type = .file)
    (fewer : ∀ i, Live s'.tmp kids' R' i → Live s.tmp kids R i)
    (same : ∀ i, Live s'.tmp kids' R' i → (s'.tmp.nodes i).data = (s.tmp.nodes i).data ∧
      (s'.tmp.nodes i).capacity = (s.tmp.nodes i).capacity)
    (total : s'.pmm.totalPages = s.pmm.totalPages)
    (pmm : ∀ g, s.pmm.bitmap g = true → lent g = true ∨ (∃ i, Live s'.tmp kids' R' i ∧
      (s'.tmp.nodes i).Holds g) →
      s'.pmm.bitmap g = true ∧ s'.pmm.refcount g = s.pmm.refcount g) : Stored s' kids' R' lent := by
  have holds : ∀ i, Live s'.tmp kids' R' i → ∀ g, (s'.tmp.nodes i).Holds g → (s.tmp.nodes i).Holds g := by
    exact fun i live g => (TmpfsNode.holds_same (same i live).1 (same i live).2 g).mp
  refine ⟨tree, dirs, refs, fun i live => ?_, fun i live g hg => ?_, fun i j live live' g hg hg' => ?_,
    fun g hg => ?_⟩
  · exact (h.sized i (fewer i live)).same (same i live).1 (same i live).2
  · have before := h.used i (fewer i live) g (holds i live g hg)
    obtain ⟨used, sole⟩ := pmm g before.used (.inr ⟨i, live, hg⟩)
    exact ⟨total ▸ before.bound, used, sole.trans before.sole⟩
  · exact h.apart i j (fewer i live) (fewer j live') g (holds i live g hg) (holds j live' g hg')
  · obtain ⟨nonzero, used, off⟩ := h.away g hg
    exact ⟨nonzero, (pmm g used (.inl hg)).1, fun i live held => off i (fewer i live) (holds i live g held)⟩

theorem Stored.set (h : Stored s kids R lent) (i : Nat) {n : TmpfsNode}
    (tree : TreeOk (s.tmp.set i n) kids) (type : n.type = (s.tmp.nodes i).type)
    (data : n.data = (s.tmp.nodes i).data) (capacity : n.capacity = (s.tmp.nodes i).capacity)
    (tmp : s'.tmp = s.tmp.set i n) (pmm : s'.pmm = s.pmm)
    (dirs : s'.devDir = s.devDir ∧ s'.mntDir = s.mntDir) : Stored s' kids R lent := by
  have at_ : ∀ j, (s'.tmp.nodes j).type = (s.tmp.nodes j).type ∧
      (s'.tmp.nodes j).data = (s.tmp.nodes j).data ∧
      (s'.tmp.nodes j).capacity = (s.tmp.nodes j).capacity := by
    intro j
    rw [tmp]
    by_cases same : j = i
    · subst same
      simp only [Tmpfs.set, Function.update_self]
      exact ⟨type, data, capacity⟩
    · simp only [Tmpfs.set, Function.update_of_ne same, and_self]
  have count : s'.tmp.count = s.tmp.count := by rw [tmp]; rfl
  refine h.keep (tmp ▸ tree) (fun d hd => ?_) (fun j hj => ?_) (fun j live => ?_) (fun j _ => (at_ j).2)
    (by rw [pmm]) (fun g used _ => by rw [pmm]; exact ⟨used, rfl⟩)
  · rw [dirs.1, dirs.2] at hd
    rw [count, (at_ d).1]
    exact h.dirs d hd
  · rw [count, (at_ j).1]
    exact h.refs j hj
  · exact ⟨(at_ j).1 ▸ live.1, live.2⟩

theorem Stored.refer (h : Stored s kids R lent) (sub : ∀ i, R' i → Live s.tmp kids R i) :
    Stored s kids R' lent ∧ ∀ i, Live s.tmp kids R' i → Live s.tmp kids R i := by
  have fewer : ∀ i, Live s.tmp kids R' i → Live s.tmp kids R i := by
    rintro i ⟨file, linked | ref⟩
    · exact ⟨file, .inl linked⟩
    · exact sub i ref
  refine ⟨h.keep h.tree h.dirs (fun i ref => ?_) fewer (fun _ _ => ⟨rfl, rfl⟩) rfl
    (fun _ used _ => ⟨used, rfl⟩), fewer⟩
  exact ⟨h.bound (sub i ref), (sub i ref).1⟩

end Keep

section Grow

variable {F : Type} {s s' : Files F} {kids : Nat → List Nat} {R : Nat → Prop} {lent : Nat → Bool}
  {d : Nat} {n : TmpfsNode}

theorem grow_old {t : Tmpfs} (bound : d < t.count) {j : Nat} (old : j ≠ t.count) :
    ((t.grow d n).nodes j).type = (t.nodes j).type ∧ ((t.grow d n).nodes j).data = (t.nodes j).data ∧
    ((t.grow d n).nodes j).capacity = (t.nodes j).capacity ∧
    ((t.grow d n).nodes j).size = (t.nodes j).size := by
  rw [grow_nodes n bound]
  by_cases hd : j = d
  · subst hd
    rw [if_pos rfl]
    exact ⟨rfl, rfl, rfl, rfl⟩
  · rw [if_neg hd, if_neg old]
    exact ⟨rfl, rfl, rfl, rfl⟩

theorem grow_new {t : Tmpfs} (bound : d < t.count) :
    ((t.grow d n).nodes t.count).type = n.type ∧ ((t.grow d n).nodes t.count).data = n.data ∧
    ((t.grow d n).nodes t.count).capacity = n.capacity := by
  rw [grow_nodes n bound, if_neg (Nat.ne_of_gt bound), if_pos rfl]
  exact ⟨rfl, rfl, rfl⟩

theorem Live.grown (bound : d < s.tmp.count) {i : Nat}
    (live : Live (s.tmp.grow d n) (withKid kids d s.tmp.count) R i) :
    (i ≠ s.tmp.count ∧ Live s.tmp kids R i) ∨ (i = s.tmp.count ∧ n.type = .file) := by
  by_cases new : i = s.tmp.count
  · subst new
    exact .inr ⟨rfl, (grow_new bound).1 ▸ live.1⟩
  · refine .inl ⟨new, (grow_old bound new).1 ▸ live.1, ?_⟩
    rcases live.2 with ⟨e, mem⟩ | ref
    · rcases mem_withKid mem with old | ⟨-, rfl⟩
      · exact .inl ⟨e, old⟩
      · exact absurd rfl new
    · exact .inr ref

theorem Stored.grow (h : Stored s kids R lent) (bound : d < s.tmp.count)
    (dir : (s.tmp.nodes d).type = .dir) (room : s.tmp.count < tmpfsMaxNodes)
    (first : n.firstChild = none) (parent : n.parent = d) (opened : n.ops = .tmpfsFile ↔ n.type = .file)
    (sized : n.type = .file → n.Sized) (tmp : s'.tmp = s.tmp.grow d n)
    (dirs : s'.devDir = s.devDir ∧ s'.mntDir = s.mntDir) (grown : Grown s.pmm s'.pmm)
    (fresh : ∀ g, n.Holds g → s.pmm.bitmap g = false ∧ SolelyOwned s'.pmm g) :
    Stored s' (withKid kids d s.tmp.count) R lent := by
  have holds : ∀ {i g}, i ≠ s.tmp.count → ((s.tmp.grow d n).nodes i).Holds g →
      (s.tmp.nodes i).Holds g := by
    intro i g old
    exact (TmpfsNode.holds_same (grow_old bound old).2.1 (grow_old bound old).2.2.1 g).mp
  have holds_new : ∀ {g}, ((s.tmp.grow d n).nodes s.tmp.count).Holds g → n.Holds g := by
    exact fun {g} => (TmpfsNode.holds_same (grow_new bound).2.1 (grow_new bound).2.2 g).mp
  -- a page of the new file is nobody else's
  have clash : ∀ {g}, n.Holds g → s.pmm.bitmap g = true → False := by
    intro g hn used
    rw [(fresh g hn).1] at used
    cases used
  refine ⟨tmp ▸ h.tree.grow bound dir room first parent opened, fun e he => ?_, fun i hi => ?_,
    fun i live => ?_, fun i live g hg => ?_, fun i j live live' g hg hg' => ?_, fun g hg => ?_⟩
  · rw [dirs.1, dirs.2] at he
    obtain ⟨below, isDir⟩ := h.dirs e he
    rw [tmp, (grow_old bound (Nat.ne_of_lt below)).1]
    exact ⟨Nat.lt_succ_of_lt below, isDir⟩
  · obtain ⟨below, isFile⟩ := h.refs i hi
    rw [tmp, (grow_old bound (Nat.ne_of_lt below)).1]
    exact ⟨Nat.lt_succ_of_lt below, isFile⟩
  · rw [tmp] at live ⊢
    rcases live.grown bound with ⟨old, live⟩ | ⟨rfl, file⟩
    · exact (h.sized i live).same (grow_old bound old).2.1 (grow_old bound old).2.2.1
    · exact (sized file).same (grow_new bound).2.1 (grow_new bound).2.2
  · rw [tmp] at live hg
    rcases live.grown bound with ⟨old, live⟩ | ⟨rfl, file⟩
    · exact (h.used i live g (holds old hg)).grown grown
    · exact (fresh g (holds_new hg)).2
  · rw [tmp] at live live' hg hg'
    rcases live.grown bound with ⟨old, live⟩ | ⟨rfl, file⟩
    · rcases live'.grown bound with ⟨old', live'⟩ | ⟨rfl, file'⟩
      · exact h.apart i j live live' g (holds old hg) (holds old' hg')
      · exact absurd (h.used i live g (holds old hg)).used (clash (holds_new hg'))
    · rcases live'.grown bound with ⟨old', live'⟩ | ⟨rfl, file'⟩
      · exact absurd (h.used j live' g (holds old' hg')).used (clash (holds_new hg))
      · rfl
  · obtain ⟨nonzero, used, off⟩ := h.away g hg
    refine ⟨nonzero, (grown.used g used).1, fun i live held => ?_⟩
    rw [tmp] at live held
    rcases live.grown bound with ⟨old, live⟩ | ⟨rfl, file⟩
    · exact off i live (holds old held)
    · exact clash (holds_new held) used

/-- Whether all files have a buffer of their own, and page 0 is not on offer. -/
def Furnished (s : Files F) (kids : Nat → List Nat) (R : Nat → Prop) : Prop :=
  Held s.pmm 0 ∧ ∀ i, Live s.tmp kids R i → (s.tmp.nodes i).data ≠ some 0

/-- What a path call leaves of the files: those in `gone` are no longer listed, new
ones are empty, and no byte of a buffer has changed. -/
structure Carried (gone : Nat → Prop) (s : Files F) (kids : Nat → List Nat) (s' : Files F)
    (kids' : Nat → List Nat) : Prop where
  linked : ∀ i, (∃ d, i ∈ kids d) → ¬ gone i → ∃ d, i ∈ kids' d
  count : s.tmp.count ≤ s'.tmp.count
  old : ∀ i, i < s.tmp.count → (s'.tmp.nodes i).type = (s.tmp.nodes i).type ∧
    (s'.tmp.nodes i).data = (s.tmp.nodes i).data ∧ (s'.tmp.nodes i).size = (s.tmp.nodes i).size ∧
    (s'.tmp.nodes i).capacity = (s.tmp.nodes i).capacity
  new : ∀ i, s.tmp.count ≤ i → i < s'.tmp.count → (s'.tmp.nodes i).size = 0#64 ∧ ∃ d, i ∈ kids' d
  mem : s'.mem = s.mem

theorem Carried.refl {gone : Nat → Prop} : Carried gone s kids s kids :=
  ⟨fun _ h _ => h, le_rfl, fun _ _ => ⟨rfl, rfl, rfl, rfl⟩, fun i h h' => by omega, rfl⟩

theorem Carried.trans {gone : Nat → Prop} {s'' : Files F} {kids₁ kids₂ : Nat → List Nat}
    (h : Carried gone s kids s' kids₁) (h' : Carried (fun _ => False) s' kids₁ s'' kids₂) :
    Carried gone s kids s'' kids₂ := by
  refine ⟨fun i listed stays => h'.linked i (h.linked i listed stays) id, h.count.trans h'.count,
    fun i below => ?_, fun i above below => ?_, h'.mem.trans h.mem⟩
  · obtain ⟨type, data, size, capacity⟩ := h.old i below
    obtain ⟨type', data', size', capacity'⟩ := h'.old i (below.trans_le h.count)
    exact ⟨type'.trans type, data'.trans data, size'.trans size, capacity'.trans capacity⟩
  · by_cases first : i < s'.tmp.count
    · obtain ⟨empty, listed⟩ := h.new i above first
      rw [(h'.old i first).2.2.1]
      exact ⟨empty, h'.linked i listed id⟩
    · exact h'.new i (Nat.le_of_not_lt first) below

theorem Carried.grow {gone : Nat → Prop} {p : Pmm} (bound : d < s.tmp.count) (size : n.size = 0#64) :
    Carried gone s kids { s with tmp := s.tmp.grow d n, pmm := p } (withKid kids d s.tmp.count) := by
  refine ⟨?_, Nat.le_succ _, fun i below => ?_, fun i above below => ?_, rfl⟩
  · rintro i ⟨e, mem⟩ -
    refine ⟨e, ?_⟩
    unfold withKid
    by_cases same : e = d
    · subst same
      rw [Function.update_self]
      exact List.mem_cons_of_mem _ mem
    · rw [Function.update_of_ne same]
      exact mem
  · obtain ⟨type, data, capacity, size⟩ := grow_old (n := n) bound (Nat.ne_of_lt below)
    exact ⟨type, data, size, capacity⟩
  · have here : i = s.tmp.count := Nat.le_antisymm (Nat.lt_succ_iff.mp below) above
    subst here
    dsimp only
    rw [grow_nodes n bound, if_neg (Nat.ne_of_gt bound), if_pos rfl]
    exact ⟨size, d, by simp [withKid]⟩

theorem Carried.set {gone : Nat → Prop} {i : Nat} {n : TmpfsNode} (tmp : s'.tmp = s.tmp.set i n)
    (mem : s'.mem = s.mem) (type : n.type = (s.tmp.nodes i).type) (data : n.data = (s.tmp.nodes i).data)
    (size : n.size = (s.tmp.nodes i).size) (capacity : n.capacity = (s.tmp.nodes i).capacity) :
    Carried gone s kids s' kids := by
  have count : s'.tmp.count = s.tmp.count := by
    rw [tmp]
    rfl
  refine ⟨fun _ listed _ => listed, count.ge, fun j _ => ?_, fun j lo hi => ?_, mem⟩
  · rw [tmp]
    by_cases here : j = i
    · subst here
      simp only [Tmpfs.set, Function.update_self]
      exact ⟨type, data, size, capacity⟩
    · simp only [Tmpfs.set, Function.update_of_ne here, and_self]
  · exact absurd hi (Nat.not_lt_of_le (count ▸ lo))

theorem Stored.restyle (h : Stored s kids R lent) (i : Nat) {n : TmpfsNode}
    (tree : TreeOk (s.tmp.set i n) kids) (type : n.type = (s.tmp.nodes i).type)
    (data : n.data = (s.tmp.nodes i).data) (capacity : n.capacity = (s.tmp.nodes i).capacity) :
    Stored { s with tmp := s.tmp.set i n } kids R lent ∧
      (Furnished s kids R → Furnished { s with tmp := s.tmp.set i n } kids R) := by
  refine ⟨h.set i tree type data capacity rfl rfl ⟨rfl, rfl⟩, ?_⟩
  rintro ⟨zero, backed⟩
  refine ⟨zero, fun j live => ?_⟩
  have same : ((s.tmp.set i n).nodes j).type = (s.tmp.nodes j).type ∧
      ((s.tmp.set i n).nodes j).data = (s.tmp.nodes j).data := by
    by_cases here : j = i
    · subst here
      simp only [Tmpfs.set, Function.update_self]
      exact ⟨type, data⟩
    · simp only [Tmpfs.set, Function.update_of_ne here, and_self]
  dsimp only
  rw [same.2]
  exact backed j ⟨same.1 ▸ live.1, live.2⟩

/-- The node `tmpfs_create_file` fills in. -/
def fileNode (d : Nat) (name : List Char) (f : Nat) : TmpfsNode :=
  { TmpfsNode.zero with
    type := .file, ops := .tmpfsFile, name := setName name, parent := d, mode := 0o644#64
    data := some f, capacity := 4096#64 }

def dirNode (d : Nat) (name : List Char) : TmpfsNode :=
  { TmpfsNode.zero with
    type := .dir, ops := .tmpfsDir, name := setName name, parent := d, mode := 0o755#64 }

theorem tmpfsCreateFile_eq (s : Files F) (d : Nat) (name : List Char) :
    tmpfsCreateFile s d name =
      if s.tmp.count ≥ tmpfsMaxNodes then (s, none)
      else
        ({ s with
            tmp := s.tmp.grow d (fileNode d name (pmmAllocPages s.pmm 1).2)
            pmm := (pmmAllocPages s.pmm 1).1 }, some s.tmp.count) := by
  unfold tmpfsCreateFile tmpfsAllocNode
  by_cases full : s.tmp.count ≥ tmpfsMaxNodes
  · rw [if_pos full, if_pos full]
  · rw [if_neg full, if_neg full]
    rfl

theorem tmpfsCreateDir_eq (s : Files F) (d : Nat) (name : List Char) :
    tmpfsCreateDir s d name =
      if s.tmp.count ≥ tmpfsMaxNodes then (s, none)
      else ({ s with tmp := s.tmp.grow d (dirNode d name) }, some s.tmp.count) := by
  unfold tmpfsCreateDir tmpfsAllocNode
  by_cases full : s.tmp.count ≥ tmpfsMaxNodes
  · rw [if_pos full, if_pos full]
  · rw [if_neg full, if_neg full]
    rfl

theorem fileNode_pages (d : Nat) (name : List Char) (f : Nat) : (fileNode d name f).pages = 1 := by
  simp [fileNode, TmpfsNode.pages]

theorem fileNode_sized (d : Nat) (name : List Char) (f : Nat) : (fileNode d name f).Sized := by
  refine ⟨rfl, ?_, ?_, ?_, fun _ => fileNode_pages d name f⟩ <;> rw [fileNode_pages]
  · simp [fileNode]
  · exact Nat.one_pos
  · decide

theorem fileNode_holds {name : List Char} {f g : Nat} :
    (fileNode d name f).Holds g ↔ g = f ∧ f ≠ 0 := by
  have one := fileNode_pages d name f
  constructor
  · rintro ⟨f', data, nonzero, lo, hi⟩
    cases data
    rw [one] at hi
    exact ⟨by omega, nonzero⟩
  · rintro ⟨rfl, nonzero⟩
    exact ⟨g, rfl, nonzero, le_rfl, by rw [one]; omega⟩

theorem Stored.createFile (h : Stored s kids R lent) (bound : d < s.tmp.count)
    (dir : (s.tmp.nodes d).type = .dir) (name : List Char) :
    ∃ kids', Stored (tmpfsCreateFile s d name).1 kids' R lent ∧
      (Furnished s kids R → (s.tmp.count < tmpfsMaxNodes → 0 < freeFrames s.pmm) →
        Furnished (tmpfsCreateFile s d name).1 kids' R) ∧
      Carried (fun _ => False) s kids (tmpfsCreateFile s d name).1 kids' ∧
      ∀ i, (tmpfsCreateFile s d name).2 = some i → Live (tmpfsCreateFile s d name).1.tmp kids' R i := by
  rw [tmpfsCreateFile_eq]
  split
  · exact ⟨kids, h, fun furnished _ => furnished, .refl, fun i none => by cases none⟩
  · rename_i room
    have room : s.tmp.count < tmpfsMaxNodes := Nat.lt_of_not_le room
    have grown := pmmAllocPages_grown s.pmm 1
    have fresh : ∀ g, (fileNode d name (pmmAllocPages s.pmm 1).2).Holds g →
        s.pmm.bitmap g = false ∧ SolelyOwned (pmmAllocPages s.pmm 1).1 g := by
      intro g hg
      obtain ⟨rfl, nonzero⟩ := fileNode_holds.mp hg
      rcases pmmAllocPages_cases s.pmm 1 with e | ⟨start, -, inside, clear, e⟩
      · rw [e] at nonzero
        exact absurd rfl nonzero
      · rw [e]
        exact ⟨clear start le_rfl (by omega), ⟨by simp; omega, by simp, by simp⟩⟩
    refine ⟨withKid kids d s.tmp.count, h.grow bound dir room rfl rfl ⟨fun _ => rfl, fun _ => rfl⟩
      (fun _ => fileNode_sized d name _) rfl ⟨rfl, rfl⟩ grown fresh, ?_, .grow bound rfl, ?_⟩
    · rintro ⟨zero, backed⟩ enough
      refine ⟨grown.held zero, fun i live => ?_⟩
      rcases live.grown bound with ⟨old, live⟩ | ⟨rfl, -⟩
      · dsimp only
        rw [(grow_old bound old).2.1]
        exact backed i live
      · dsimp only
        rw [(grow_new bound).2.1]
        intro none
        exact (pmmAllocPages_one zero).mpr (enough room) (Option.some.inj none)
    · rintro i ⟨⟩
      exact ⟨(grow_new bound).1, .inl ⟨d, by simp [withKid]⟩⟩

theorem Stored.createDir (h : Stored s kids R lent) (bound : d < s.tmp.count)
    (dir : (s.tmp.nodes d).type = .dir) (name : List Char) :
    ∃ kids', Stored (tmpfsCreateDir s d name).1 kids' R lent ∧
      (Furnished s kids R → Furnished (tmpfsCreateDir s d name).1 kids' R) ∧
      Carried (fun _ => False) s kids (tmpfsCreateDir s d name).1 kids' := by
  rw [tmpfsCreateDir_eq]
  split
  · exact ⟨kids, h, id, .refl⟩
  · rename_i room
    refine ⟨withKid kids d s.tmp.count, h.grow bound dir (Nat.lt_of_not_le room) rfl rfl (by simp [dirNode])
      (fun isFile => by cases isFile) rfl ⟨rfl, rfl⟩ (.refl _) ?_, ?_, .grow bound rfl⟩
    · rintro g ⟨f, data, -⟩
      cases data
    · rintro ⟨zero, backed⟩
      refine ⟨zero, fun i live => ?_⟩
      rcases live.grown bound with ⟨old, live⟩ | ⟨-, file⟩
      · dsimp only
        rw [(grow_old bound old).2.1]
        exact backed i live
      · cases file

end Grow

section Unlink

variable {F : Type} {s : Files F} {kids : Nat → List Nat} {R : Nat → Prop} {lent : Nat → Bool}
  {d i : Nat}

theorem tmpfsDirUnlink_cases (s : Files F) (d : Nat) (name : List Char) :
    (tmpfsDirUnlink s d name).1 = s ∨
    ∃ i p, tmpfsDirLookup s.tmp d name = some i ∧
      (tmpfsDirUnlink s d name).1 = { s with tmp := s.tmp.unchain d i, pmm := p } ∧
      ((p = s.pmm ∧ ((s.tmp.nodes i).type = .file → (s.tmp.nodes i).data = none)) ∨
        ∃ f, (s.tmp.nodes i).type = .file ∧ (s.tmp.nodes i).data = some f ∧
          p = pmmFreePages s.pmm f (s.tmp.nodes i).pages) := by
  unfold tmpfsDirUnlink
  split
  · exact .inl rfl
  · rename_i i found
    dsimp only
    split
    · exact .inl rfl
    · split
      · rename_i f file data
        exact .inr ⟨i, _, found, rfl, .inr ⟨f, file, data, rfl⟩⟩
      · rename_i other
        refine .inr ⟨i, s.pmm, found, rfl, .inl ⟨rfl, fun file => ?_⟩⟩
        cases data : (s.tmp.nodes i).data with
        | none => rfl
        | some f => exact absurd data (other f file)

theorem Live.unchained (h : Stored s kids R lent) (mem : i ∈ kids d)
    (unreferenced : (s.tmp.nodes i).type = .file → ¬ R i) {j : Nat}
    (live : Live (s.tmp.unchain d i) (withoutKid kids d i) R j) : Live s.tmp kids R j ∧ j ≠ i := by
  have type := (unchain_nodes s.tmp d i j).1 ▸ live.1
  rcases live.2 with ⟨e, inKids⟩ | ref
  · obtain ⟨old, off⟩ := (mem_withoutKid (h.tree.nodup d)).mp inKids
    refine ⟨⟨type, .inl ⟨e, old⟩⟩, ?_⟩
    rintro rfl
    exact off ⟨h.tree.apart e d j old mem, rfl⟩
  · refine ⟨⟨type, .inr ref⟩, ?_⟩
    rintro rfl
    exact unreferenced type ref

theorem Stored.unlink (h : Stored s kids R lent) (name : List Char)
    (unreferenced : ∀ i, tmpfsDirLookup s.tmp d name = some i → (s.tmp.nodes i).type = .file → ¬ R i) :
    ∃ kids', Stored (tmpfsDirUnlink s d name).1 kids' R lent ∧
      (Furnished s kids R → Furnished (tmpfsDirUnlink s d name).1 kids' R) ∧
      Carried (fun i => tmpfsDirLookup s.tmp d name = some i) s kids (tmpfsDirUnlink s d name).1 kids' := by
  rcases tmpfsDirUnlink_cases s d name with same | ⟨i, p, found, after, freed⟩
  · rw [same]
    exact ⟨kids, h, id, .refl⟩
  rw [after]
  have mem := h.tree.lookup_mem found
  have lives := fun {j} => Live.unchained (j := j) h mem (unreferenced i found)
  have own : (s.tmp.nodes i).type = .file → Live s.tmp kids R i := fun file => ⟨file, .inl ⟨d, mem⟩⟩
  -- what is freed are pages of the child alone, or page 0
  have kept : ∀ g, g ≠ 0 → (∀ (_ : (s.tmp.nodes i).type = .file), ¬ (s.tmp.nodes i).Holds g) →
      p.bitmap g = s.pmm.bitmap g ∧ p.refcount g = s.pmm.refcount g := by
    intro g nonzero off
    rcases freed with ⟨rfl, -⟩ | ⟨f, file, data, rfl⟩
    · exact ⟨rfl, rfl⟩
    · apply pmmFreePages_other
      rintro ⟨lo, hi⟩
      by_cases bare : f = 0
      · subst bare
        have one := (h.sized i (own file)).bare data
        omega
      · exact off file ⟨f, data, bare, lo, hi⟩
  have total : p.totalPages = s.pmm.totalPages := by
    rcases freed with ⟨rfl, -⟩ | ⟨f, -, -, rfl⟩
    · rfl
    · exact pmmFreePages_total _ _ _
  have nodes : ∀ j, ((s.tmp.unchain d i).nodes j).type = (s.tmp.nodes j).type ∧
      ((s.tmp.unchain d i).nodes j).data = (s.tmp.nodes j).data ∧
      ((s.tmp.unchain d i).nodes j).capacity = (s.tmp.nodes j).capacity := by
    intro j
    obtain ⟨type, -, -, data, -, capacity⟩ := unchain_nodes s.tmp d i j
    exact ⟨type, data, capacity⟩
  refine ⟨withoutKid kids d i, h.keep (h.tree.unchain mem) (fun e he => ?_) (fun j hj => ?_)
    (fun j live => (lives live).1) (fun j _ => (nodes j).2) total (fun g used kind => ?_), ?_, ?_⟩
  · dsimp only
    rw [unchain_count, (nodes e).1]
    exact h.dirs e he
  · dsimp only
    rw [unchain_count, (nodes j).1]
    exact h.refs j hj
  · dsimp only at kind ⊢
    have same : p.bitmap g = s.pmm.bitmap g ∧ p.refcount g = s.pmm.refcount g := by
      rcases kind with isLent | ⟨j, live, held⟩
      · obtain ⟨nonzero, -, off⟩ := h.away g isLent
        exact kept g nonzero fun file => off i (own file)
      · obtain ⟨old, other⟩ := lives live
        have before := (TmpfsNode.holds_same (nodes j).2.1 (nodes j).2.2 g).mp held
        have nonzero : g ≠ 0 := by
          obtain ⟨f, -, bare, lo, -⟩ := before
          omega
        exact kept g nonzero fun file own' => other (h.apart j i old (own file) g before own')
    exact ⟨same.1.trans used, same.2⟩
  · rintro ⟨zero, backed⟩
    refine ⟨?_, fun j live => ?_⟩
    · intro bound
      dsimp only at bound ⊢
      rcases freed with ⟨rfl, -⟩ | ⟨f, file, data, rfl⟩
      · exact zero bound
      · have off : ¬ (f ≤ 0 ∧ 0 < f + (s.tmp.nodes i).pages) := by
          rintro ⟨lo, -⟩
          exact backed i (own file) (by rw [data, Nat.le_zero.mp lo])
        rw [(pmmFreePages_other _ off).1]
        exact zero (total ▸ bound)
    · dsimp only
      rw [(nodes j).2.1]
      exact backed j (lives live).1
  · refine ⟨?_, (unchain_count _ _ _).ge, fun j _ => ?_, fun j above below => ?_, rfl⟩
    · rintro j ⟨e, listed⟩ stays
      refine ⟨e, (mem_withoutKid (h.tree.nodup d)).mpr ⟨listed, ?_⟩⟩
      rintro ⟨-, rfl⟩
      exact stays found
    · obtain ⟨type, -, -, data, size, capacity⟩ := unchain_nodes s.tmp d i j
      exact ⟨type, data, size, capacity⟩
    · dsimp only at below
      rw [unchain_count] at below
      omega

theorem Stored.unlink_frees (h : Stored s kids R lent) (furnished : Furnished s kids R) {name : List Char}
    (found : tmpfsDirLookup s.tmp d name = some i) (file : (s.tmp.nodes i).type = .file) :
    0 < freeFrames (tmpfsDirUnlink s d name).1.pmm := by
  have live : Live s.tmp kids R i := ⟨file, .inl ⟨d, h.tree.lookup_mem found⟩⟩
  have sized := h.sized i live
  obtain ⟨f, data⟩ := Option.isSome_iff_exists.mp sized.buffer
  have nonzero : f ≠ 0 := by
    rintro rfl
    exact furnished.2 i live data
  have own := h.used i live f ⟨f, data, nonzero, le_rfl, by have := sized.some; omega⟩
  have after : (tmpfsDirUnlink s d name).1.pmm = pmmFreePages s.pmm f (s.tmp.nodes i).pages := by
    unfold tmpfsDirUnlink
    rw [found]
    dsimp only
    rw [if_neg (fun dir => by rw [file] at dir; cases dir.1), file, data]
  rw [after]
  refine Finset.card_pos.mpr ⟨f, Finset.mem_filter.mpr ⟨Finset.mem_range.mpr ?_, ?_⟩⟩
  · rw [pmmFreePages_total]
    exact own.bound
  · exact pmmFreePages_clear _ le_rfl (by have := sized.some; omega) own.bound own.sole

end Unlink

section Write

variable {F : Type} {s : Files F} {kids : Nat → List Nat} {R : Nat → Prop} {lent : Nat → Bool}
  {i : Nat}

theorem Stored.remember (h : Stored s kids R lent) (mem : PhysMem) :
    Stored { s with mem := mem } kids R lent :=
  h.keep h.tree h.dirs h.refs (fun _ live => live) (fun _ _ => ⟨rfl, rfl⟩) rfl
    (fun _ used _ => ⟨used, rfl⟩)

theorem Stored.putBytes (h : Stored s kids R lent) (i : Nat) (offset : Word) (src : Nat → BitVec 8)
    (len : Word) : Stored (putBytes s i offset src len) kids R lent ∧
      (Furnished s kids R → Furnished (putBytes s i offset src len) kids R) := by
  unfold Isunux.putBytes
  dsimp only
  have links : ∀ n : TmpfsNode, n = (if (s.tmp.nodes i).size < offset + len then
      { s.tmp.nodes i with size := offset + len } else s.tmp.nodes i) →
      n.firstChild = (s.tmp.nodes i).firstChild ∧ n.nextSibling = (s.tmp.nodes i).nextSibling ∧
      n.type = (s.tmp.nodes i).type ∧ n.parent = (s.tmp.nodes i).parent ∧
      n.ops = (s.tmp.nodes i).ops ∧ n.data = (s.tmp.nodes i).data ∧
      n.capacity = (s.tmp.nodes i).capacity := by
    rintro n rfl
    split <;> exact ⟨rfl, rfl, rfl, rfl, rfl, rfl, rfl⟩
  obtain ⟨first, next, type, parent, ops, data, capacity⟩ := links _ rfl
  generalize (if (s.tmp.nodes i).size < offset + len then
    { s.tmp.nodes i with size := offset + len } else s.tmp.nodes i) = n at first next type parent ops data capacity ⊢
  have tree := h.tree.set i first next type parent (by rw [ops])
  obtain ⟨stored, furnished⟩ := h.restyle i tree type data capacity
  exact ⟨stored.remember _, furnished⟩

theorem Stored.grownPmm (h : Stored s kids R lent) {p : Pmm} (grown : Grown s.pmm p) :
    Stored { s with pmm := p } kids R lent ∧
      (Furnished s kids R → Furnished { s with pmm := p } kids R) :=
  ⟨h.keep h.tree h.dirs h.refs (fun _ live => live) (fun _ _ => ⟨rfl, rfl⟩) grown.total
    (fun g used _ => grown.used g used), fun furnished => ⟨grown.held furnished.1, furnished.2⟩⟩

theorem growFile_some {pages : Word} {s' : Files F} (grew : growFile s i pages = some s') :
    ∃ start, start ≠ 0 ∧ 0 < pages.toNat ∧ start + pages.toNat ≤ s.pmm.totalPages ∧
      (∀ g, start ≤ g → g < start + pages.toNat → s.pmm.bitmap g = false) ∧
      (∀ g, start ≤ g → g < start + pages.toNat → SolelyOwned (pmmAllocPages s.pmm pages.toNat).1 g) ∧
      s' = { s with
        tmp := s.tmp.set i { s.tmp.nodes i with data := some start, capacity := pages * 4096#64 }
        pmm := pmmFreePages (pmmAllocPages s.pmm pages.toNat).1 ((s.tmp.nodes i).data.getD 0)
          (s.tmp.nodes i).pages
        mem := copyBuffer s.mem start ((s.tmp.nodes i).data.getD 0) (s.tmp.nodes i).size.toNat } := by
  unfold growFile at grew
  dsimp only at grew
  split at grew
  · cases grew
  · rename_i ok
    cases grew
    rcases pmmAllocPages_cases s.pmm pages.toNat with e | ⟨start, some, inside, clear, e⟩
    · rw [e] at ok
      exact absurd rfl ok
    · rw [e] at ok ⊢
      refine ⟨start, ok, some, inside, clear, fun g lo hi => ⟨?_, ?_, ?_⟩, rfl⟩
      · exact (Nat.lt_of_lt_of_le hi inside)
      · simp [lo, hi]
      · simp [lo, hi]

theorem pages_mul {pages : Word} (few : pages.toNat ≤ maxPages) :
    (pages * 4096#64).toNat = pages.toNat * 4096 := by
  rw [BitVec.toNat_mul]
  simp only [maxPages, BitVec.toNat_ofNat] at *
  omega

theorem Stored.growFile (h : Stored s kids R lent) (live : Live s.tmp kids R i) {pages : Word}
    {s' : Files F} (grew : growFile s i pages = some s') :
    Stored s' kids R lent ∧ (Furnished s kids R → Furnished s' kids R) := by
  obtain ⟨start, nonzero, some, inside, clear, owned, rfl⟩ := growFile_some grew
  obtain ⟨f, data⟩ := Option.isSome_iff_exists.mp (h.sized i live).buffer
  rw [data, Option.getD_some]
  have few : pages.toNat ≤ maxPages := by
    have := s.pmm.total_le
    omega
  have grown := pmmAllocPages_grown s.pmm pages.toNat
  generalize (pmmAllocPages s.pmm pages.toNat).1 = p at owned grown
  have cap := pages_mul few
  -- the node afterwards, and the pages it holds
  have held : ∀ g, TmpfsNode.Holds
      { s.tmp.nodes i with data := .some start, capacity := pages * 4096#64 } g ↔
      start ≤ g ∧ g < start + pages.toNat := by
    intro g
    have count : (TmpfsNode.pages
        { s.tmp.nodes i with data := .some start, capacity := pages * 4096#64 }) = pages.toNat := by
      unfold TmpfsNode.pages
      dsimp only
      rw [cap]
      omega
    unfold TmpfsNode.Holds
    rw [count]
    constructor
    · rintro ⟨f', e, -, lo, hi⟩
      cases e
      exact ⟨lo, hi⟩
    · rintro ⟨lo, hi⟩
      exact ⟨start, rfl, nonzero, lo, hi⟩
  have kept : ∀ g, g ≠ 0 → ¬ (s.tmp.nodes i).Holds g →
      (pmmFreePages p f (s.tmp.nodes i).pages).bitmap g = p.bitmap g ∧
      (pmmFreePages p f (s.tmp.nodes i).pages).refcount g = p.refcount g := by
    intro g notZero off
    apply pmmFreePages_other
    rintro ⟨lo, hi⟩
    by_cases bare : f = 0
    · subst bare
      have one := (h.sized i live).bare data
      omega
    · exact off ⟨f, data, bare, lo, hi⟩
  have total : (pmmFreePages p f (s.tmp.nodes i).pages).totalPages = s.pmm.totalPages :=
    (pmmFreePages_total _ _ _).trans grown.total
  -- the old buffer is in use, the new one was not
  have moved : ∀ g, start ≤ g → g < start + pages.toNat → ¬ (s.tmp.nodes i).Holds g := by
    intro g lo hi old
    have used := (h.used i live g old).used
    rw [clear g lo hi] at used
    cases used
  have other : ∀ {j} (_ : j ≠ i) n, (s.tmp.set i n).nodes j = s.tmp.nodes j := by
    intro j hj n
    simp only [Tmpfs.set, Function.update_of_ne hj]
  have here : ∀ n, (s.tmp.set i n).nodes i = n := fun n => by simp only [Tmpfs.set, Function.update_self]
  generalize new : ({ s.tmp.nodes i with data := .some start, capacity := pages * 4096#64 } : TmpfsNode) = n
    at held
  have typed : ∀ j, ((s.tmp.set i n).nodes j).type = (s.tmp.nodes j).type := by
    intro j
    by_cases same : j = i
    · subst same
      rw [here, ← new]
    · rw [other same]
  have lives : ∀ {j}, Live (s.tmp.set i n) kids R j → Live s.tmp kids R j :=
    fun hj => ⟨typed _ ▸ hj.1, hj.2⟩
  have owner : ∀ {j g}, Live (s.tmp.set i n) kids R j → ((s.tmp.set i n).nodes j).Holds g →
      SolelyOwned (pmmFreePages p f (s.tmp.nodes i).pages) g := by
    intro j g hj hg
    have one : g ≠ 0 ∧ ¬ (s.tmp.nodes i).Holds g ∧ SolelyOwned p g := by
      by_cases same : j = i
      · subst same
        rw [here, held] at hg
        exact ⟨by omega, moved g hg.1 hg.2, owned g hg.1 hg.2⟩
      · rw [other same] at hg
        refine ⟨?_, fun mine => same (h.apart j i (lives hj) live g hg mine),
          (h.used j (lives hj) g hg).grown grown⟩
        obtain ⟨f', -, notZero, lo, -⟩ := hg
        omega
    obtain ⟨bit, count⟩ := kept g one.1 one.2.1
    exact ⟨total ▸ grown.total ▸ one.2.2.bound, bit.trans one.2.2.used, count.trans one.2.2.sole⟩
  refine ⟨⟨h.tree.set i (by rw [← new]) (by rw [← new]) (by rw [← new]) (by rw [← new]) (by rw [← new]),
    fun d hd => ?_, fun j hj => ?_, fun j hj => ?_, fun j hj g hg => owner hj hg,
    fun j k hj hk g hg hg' => ?_, fun g hg => ?_⟩, ?_⟩
  · dsimp only
    rw [typed]
    exact h.dirs d hd
  · dsimp only
    rw [typed]
    exact h.refs j hj
  · dsimp only at hj ⊢
    by_cases same : j = i
    · subst same
      rw [here, ← new]
      have count : (pages * 4096#64).toNat / 4096 = pages.toNat := by omega
      refine ⟨rfl, ?_, ?_, ?_, fun bare => absurd (Option.some.inj bare) nonzero⟩
      all_goals
        unfold TmpfsNode.pages
        dsimp only
        rw [count]
        assumption
    · rw [other same]
      exact h.sized j (lives hj)
  · dsimp only at hj hk hg hg'
    -- a page of the new buffer was free, so no other file has it
    have fresh : ∀ {k}, k ≠ i → Live (s.tmp.set i n) kids R k → n.Holds g →
        ¬ ((s.tmp.set i n).nodes k).Holds g := by
      intro k hk live' mine theirs
      rw [other hk] at theirs
      have used := (h.used k (lives live') g theirs).used
      rw [clear g ((held g).mp mine).1 ((held g).mp mine).2] at used
      cases used
    by_cases same : j = i
    · by_cases same' : k = i
      · rw [same, same']
      · subst same
        rw [here] at hg
        exact absurd hg' (fresh same' hk hg)
    · by_cases same' : k = i
      · subst same'
        rw [here] at hg'
        exact absurd hg (fresh same hj hg')
      · rw [other same] at hg
        rw [other same'] at hg'
        exact h.apart j k (lives hj) (lives hk) g hg hg'
  · obtain ⟨notZero, used, off⟩ := h.away g hg
    obtain ⟨bit, -⟩ := kept g notZero (off i live)
    refine ⟨notZero, bit.trans (grown.used g used).1, fun j hj mine => ?_⟩
    dsimp only at hj mine
    by_cases same : j = i
    · subst same
      rw [here, held] at mine
      rw [clear g mine.1 mine.2] at used
      cases used
    · rw [other same] at mine
      exact off j (lives hj) mine
  · rintro ⟨zero, backed⟩
    refine ⟨fun bound => ?_, fun j hj => ?_⟩
    · dsimp only at bound ⊢
      have off : ¬ (f ≤ 0 ∧ 0 < f + (s.tmp.nodes i).pages) := by
        rintro ⟨lo, -⟩
        exact backed i live (by rw [data, Nat.le_zero.mp lo])
      rw [(pmmFreePages_other p off).1]
      exact grown.held zero (by rw [grown.total]; exact total ▸ bound)
    · dsimp only at hj ⊢
      by_cases same : j = i
      · subst same
        rw [here, ← new]
        exact fun bare => nonzero (Option.some.inj bare)
      · rw [other same]
        exact backed j (lives hj)

theorem Stored.fileWrite (h : Stored s kids R lent) (live : Live s.tmp kids R i)
    {src : Nat → BitVec 8} {count offset : Word} {s' : Files F} {n : Int}
    (done : tmpfsFileWrite s i src count offset = some (s', n)) :
    Stored s' kids R lent ∧ (Furnished s kids R → Furnished s' kids R) := by
  unfold tmpfsFileWrite at done
  dsimp only at done
  split at done
  · rw [Option.map_eq_some_iff] at done
    obtain ⟨pages, -, result⟩ := done
    split at result
    · rename_i grown grew
      cases result
      obtain ⟨stored, furnished⟩ := h.growFile live grew
      obtain ⟨stored', furnished'⟩ := stored.putBytes i offset src count
      exact ⟨stored', furnished' ∘ furnished⟩
    · obtain ⟨stored, furnished⟩ := h.grownPmm (pmmAllocPages_grown s.pmm pages.toNat)
      split at result
      · cases result
        exact ⟨stored, furnished⟩
      · cases result
        obtain ⟨stored', furnished'⟩ := stored.putBytes i offset src
          (if count < (s.tmp.nodes i).capacity - offset then count else (s.tmp.nodes i).capacity - offset)
        exact ⟨stored', furnished' ∘ furnished⟩
  · cases done
    exact h.putBytes i offset src count

end Write

end Isunux
