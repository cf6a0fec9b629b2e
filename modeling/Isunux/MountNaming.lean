import Isunux.MountWalks
import Isunux.Naming

/-! What a path of the mounted tree resolves to after a node of tmpfs was made there. The way to
the directory is walked a second time, and each lookup in the volume takes another vnode, so
it may fail where it went well before; where it comes through it leads to the same
directory. -/
namespace Isunux.Mounts

open Route (Move trek walk)

/-- The vnodes that two resolutions of one path have come to: the same one, or two of the
volume that are equally deep. -/
inductive Level (s a b : Files Drivers) : Vnode → Vnode → Prop
  | tmp {i : Nat} (old : i < s.tmp.count) : Level s a b (.tmp i) (.tmp i)
  | dev (k : Nat) : Level s a b (.dev k) (.dev k)
  | fat {i j k : Nat} (left : Deep a.other.fat (some i) k) (right : Deep b.other.fat (some j) k) :
    Level s a b (.fat i) (.fat j)

/-- How far two resolutions of one path in the tree of `s` have come. -/
structure Abreast (s : Files Drivers) (a b : Files Drivers × Vnode) : Prop where
  left : Still s a.1
  right : Still s b.1
  level : Level s a.1 b.1 a.2 b.2

/-- The files with one more node in a directory of tmpfs. -/
def withEntry (d : Nat) (n : TmpfsNode) (pmm : Pmm) (s : Files Drivers) : Files Drivers :=
  { s with tmp := s.tmp.grow d n, pmm := pmm }

section Entries

variable {g : Geometry} {fuel : Nat} {s t u : Files Drivers} {a b : Files Drivers × Vnode} {kids : Nat → List Nat}
  {W : Nat → Prop} {uid gid : Word} {d : Nat} {n : TmpfsNode} {pmm : Pmm} {q : List Char}

theorem Level.up (h : Hosted s kids) (left : Still s a.1) (right : Still s b.1) (level : Level s a.1 b.1 a.2 b.2) :
    Level s a.1 b.1 (parentOf a.1 a.2) (parentOf b.1 b.2) := by
  have mount : Level s a.1 b.1 (.tmp a.1.mntDir) (.tmp b.1.mntDir) := by
    rw [left.mounts.2, right.mounts.2]
    exact .tmp (h.dirs s.mntDir (.inr rfl)).1
  obtain ⟨a, v⟩ := a
  obtain ⟨b, w⟩ := b
  dsimp only at left right level mount ⊢
  cases level with
  | tmp old =>
    simp only [parentOf, left.tmp, right.tmp]
    exact .tmp (h.tree.upward _ old).2
  | dev k =>
    simp only [parentOf, left.mounts.1, right.mounts.1]
    exact .tmp (h.dirs s.devDir (.inl rfl)).1
  | fat deep deep' =>
    rename_i i j k
    cases deep with
    | node low above =>
      cases deep' with
      | node low' above' =>
        simp only [parentOf]
        generalize (a.other.fat.nodes i).parent = x at above
        generalize (b.other.fat.nodes j).parent = y at above'
        cases above with
        | mount =>
          cases above'
          exact mount
        | node low above =>
          cases above' with
          | node low' above' => exact .fat (.node low above) (.node low' above')

theorem Level.volume {x y : Option Nat} {k : Nat} {name : List (BitVec 8)} {r r' : Fat × Option Nat} {v w : Vnode}
    (deep : Deep a.1.other.fat x k) (deep' : Deep b.1.other.fat y k)
    (looked : fatDirLookup g fuel a.1.other.fat x name = some r) (hit : r.2.map Vnode.fat = some v)
    (looked' : fatDirLookup g fuel b.1.other.fat y name = some r') (hit' : r'.2.map Vnode.fat = some w) :
    Level s (withFat a.1 r.1) (withFat b.1 r'.1) v w := by
  obtain ⟨i, found, rfl⟩ := Option.map_eq_some_iff.mp hit
  obtain ⟨j, found', rfl⟩ := Option.map_eq_some_iff.mp hit'
  have handed := fatDirLookup_handed (found ▸ looked : fatDirLookup g fuel a.1.other.fat x name = some (r.1, some i))
  have handed' := fatDirLookup_handed (found' ▸ looked' : fatDirLookup g fuel b.1.other.fat y name = some (r'.1, some j))
  exact .fat (deep.found handed) (deep'.found handed')

theorem dirOps_still (still : Still s t) (i : Nat) : dirOps t (.tmp i) = dirOps s (.tmp i) := by
  simp only [dirOps, still.tmp, still.mounts.1]

theorem dirOps_mount {i : Nat} {x : Option Nat} (volume : dirOps s (.tmp i) = .fat x) : x = none := by
  simp only [dirOps] at volume
  split at volume
  · cases volume
  · cases volume
  · split at volume
    · cases volume
    · cases volume
      rfl

theorem dirOps_withEntry (bound : d < s.tmp.count) {i : Nat} (old : i < s.tmp.count) :
    dirOps (withEntry d n pmm s) (.tmp i) = dirOps s (.tmp i) := by
  have ops : ((withEntry d n pmm s).tmp.nodes i).ops = (s.tmp.nodes i).ops :=
    (TmpfsNode.label_eq (grow_label bound (Nat.ne_of_lt old))).ops
  unfold dirOps
  dsimp only
  rw [ops]
  rfl

theorem Abreast.up (h : Hosted s kids) (bound : d < s.tmp.count) (abreast : Abreast s a b) :
    Abreast s (a.1, parentOf a.1 a.2) (b.1, parentOf b.1 b.2) ∧
      parentOf (withEntry d n pmm b.1) b.2 = parentOf b.1 b.2 := by
  obtain ⟨left, right, level⟩ := abreast
  refine ⟨⟨left, right, level.up h left right⟩, ?_⟩
  obtain ⟨a, v⟩ := a
  obtain ⟨b, w⟩ := b
  dsimp only at right level ⊢
  cases level with
  | tmp old =>
    have bound' : d < b.tmp.count := right.tmp ▸ bound
    have new : _ ≠ b.tmp.count := right.tmp ▸ Nat.ne_of_lt old
    simp only [parentOf, withEntry, (TmpfsNode.label_eq (grow_label bound' new)).parent]
  | dev k => rfl
  | fat deep deep' => rfl

/-- What the first resolution has found, the second looks up with the new entry as without it. -/
theorem Abreast.down (h : Hosted s kids) (made : Makes W uid gid s.tmp (s.tmp.grow d n) d n)
    (dir : (s.tmp.nodes d).type = .dir) (abreast : Abreast s a b) {name : List Char} {m : Vnode}
    (step : lookup g fuel a.1 a.2 name = some (t, some m)) :
    lookup g fuel (withEntry d n pmm b.1) b.2 name =
        (lookup g fuel b.1 b.2 name).map (fun r => (withEntry d n pmm r.1, r.2)) ∧
      ∀ t' m', lookup g fuel b.1 b.2 name = some (t', some m') → Abreast s (t, m) (t', m') := by
  obtain ⟨left, right, level⟩ := abreast
  obtain ⟨a, v⟩ := a
  obtain ⟨b, w⟩ := b
  dsimp only at left right level step ⊢
  have volume : ∀ {x y k}, Deep a.other.fat x k → Deep b.other.fat y k →
      (fatDirLookup g fuel a.other.fat x (nameBytes name)).map (fun r => (withFat a r.1, r.2.map Vnode.fat)) =
        some (t, some m) → ∀ t' m',
      (fatDirLookup g fuel b.other.fat y (nameBytes name)).map (fun r => (withFat b r.1, r.2.map Vnode.fat)) =
        some (t', some m') → Abreast s (t, m) (t', m') := by
    intro x y k deep deep' first t' m' second
    obtain ⟨r, looked, result⟩ := Option.map_eq_some_iff.mp first
    obtain ⟨r', looked', result'⟩ := Option.map_eq_some_iff.mp second
    obtain ⟨rfl, hit⟩ := Prod.mk.inj result
    obtain ⟨rfl, hit'⟩ := Prod.mk.inj result'
    exact ⟨left.trans (withFat_still r.1), right.trans (withFat_still r'.1),
      Level.volume (a := (a, .tmp 0)) (b := (b, .tmp 0)) deep deep' looked hit looked' hit'⟩
  unfold lookup at step ⊢
  cases level with
  | @tmp i old =>
    have bound' : d < b.tmp.count := right.tmp ▸ made.bound
    rw [dirOps_still left] at step
    rw [dirOps_withEntry bound' (right.tmp ▸ old), dirOps_still right]
    cases ops : dirOps s (.tmp i) with
    | none =>
      rw [ops] at step
      cases step
    | tmpfs e =>
      rw [ops] at step
      dsimp only at step ⊢
      obtain ⟨rfl, hit⟩ := Prod.mk.inj (Option.some.inj step)
      obtain ⟨j, found, rfl⟩ := Option.map_eq_some_iff.mp hit
      rw [left.tmp] at found
      have off : e ≠ d ∨ name ≠ n.name := by
        by_contra same
        obtain ⟨rfl, rfl⟩ := not_or.mp same |>.imp not_not.mp not_not.mp
        rw [made.fresh] at found
        cases found
      refine ⟨?_, fun t' m' second => ?_⟩
      · rw [Option.map_some, withEntry, right.tmp, lookup_grow h.tree made dir off]
      · obtain ⟨rfl, hit'⟩ := Prod.mk.inj (Option.some.inj second)
        rw [right.tmp, found] at hit'
        cases hit'
        exact ⟨left, right, .tmp (h.tree.inside e j (h.tree.lookup_mem found))⟩
    | devfs =>
      rw [ops] at step
      dsimp only at step ⊢
      obtain ⟨rfl, hit⟩ := Prod.mk.inj (Option.some.inj step)
      obtain ⟨k, found, rfl⟩ := Option.map_eq_some_iff.mp hit
      refine ⟨rfl, fun t' m' second => ?_⟩
      obtain ⟨rfl, hit'⟩ := Prod.mk.inj (Option.some.inj second)
      rw [found] at hit'
      cases hit'
      exact ⟨left, right, .dev k⟩
    | fat x =>
      obtain rfl := dirOps_mount ops
      rw [ops] at step
      dsimp only at step ⊢
      refine ⟨?_, volume .mount .mount step⟩
      rw [Option.map_map]
      rfl
  | dev k => cases step
  | @fat i j k deep deep' =>
    simp only [dirOps] at step ⊢
    have sub : (withEntry d n pmm b).other = b.other := rfl
    rw [sub]
    by_cases isDir : (a.other.fat.nodes i).type = .dir
    · rw [if_pos isDir] at step
      by_cases isDir' : (b.other.fat.nodes j).type = .dir
      · rw [if_pos isDir']
        dsimp only at step ⊢
        refine ⟨?_, volume deep deep' step⟩
        rw [Option.map_map]
        rfl
      · rw [if_neg isDir']
        exact ⟨rfl, fun t' m' second => by cases second⟩
    · rw [if_neg isDir] at step
      cases step

/-- The way to the directory of the path, walked once more, leads there again. -/
def LeadsTo (g : Geometry) (fuel : Nat) (s : Files Drivers) (q : List Char) (dir : Vnode) : Prop :=
  ∃ t, vfsResolvePath g fuel s (vfsSplitPath q).1 = some (t, some dir)

/-- A last component from a directory of tmpfs on stays out of the volume, if what it leads to
is no directory of the volume. -/
theorem dry_end {v : Vnode} {c : List Char} (named : c ≠ []) (noSlash : '/' ∉ c) (short : c.length < vfsMaxPath - 1)
    (here : ∀ x, dirOps s v ≠ .fat x)
    (next : ∀ w, nearLookup s v (c.take (vfsMaxName - 1)) = some w → ∀ x, dirOps s w ≠ .fat x) :
    Dry s v (route c) := by
  rw [route_name named noSlash short]
  by_cases whole : c.length < vfsMaxName
  · rw [List.drop_eq_nil_of_le (Nat.le_sub_one_of_lt whole)]
    have last : (moveOf ([] : List Char)).toList = [] := rfl
    rw [last, List.append_nil]
    cases moveOf (c.take (vfsMaxName - 1)) with
    | none => exact trivial
    | some m =>
      cases m with
      | up => exact trivial
      | down a => exact ⟨here, fun _ _ => trivial⟩
  · rw [moveOf_long (Nat.le_of_not_lt whole)]
    refine ⟨here, fun w step => ?_⟩
    have beyond := next w step
    cases moveOf (c.drop (vfsMaxName - 1)) with
    | none => exact trivial
    | some m =>
      cases m with
      | up => exact trivial
      | down a => exact ⟨beyond, fun _ _ => trivial⟩

variable (pmm) in
/-- A new entry is found in its directory, is none of the volume and has no entries. -/
theorem entry_looks (h : Hosted s kids) (made : Makes W uid gid s.tmp (s.tmp.grow d n) d n)
    (dir : (s.tmp.nodes d).type = .dir) :
    dirOps (withEntry d n pmm s) (.tmp d) = .tmpfs d ∧
      nearLookup (withEntry d n pmm s) (.tmp d) n.name = some (.tmp s.tmp.count) ∧
      (∀ x, dirOps (withEntry d n pmm s) (.tmp s.tmp.count) ≠ .fat x) ∧
      ∀ a, nearLookup (withEntry d n pmm s) (.tmp s.tmp.count) a = none := by
  have newNode : (withEntry d n pmm s).tmp.nodes s.tmp.count = { n with nextSibling := (s.tmp.nodes d).firstChild } :=
    grow_newNode n made.bound
  have ops : dirOps (withEntry d n pmm s) (.tmp d) = .tmpfs d := by
    rw [dirOps_withEntry made.bound made.bound]
    simp only [dirOps, made.native]
  have hit := h.tree.lookup_new made.bound dir made.room made.bare made.parent (opened_of_kind made.kind)
  have newOps : dirOps (withEntry d n pmm s) (.tmp s.tmp.count) = .none ∨
      dirOps (withEntry d n pmm s) (.tmp s.tmp.count) = .tmpfs s.tmp.count := by
    rcases made.kind with ⟨file, -⟩ | ⟨native, -⟩
    · exact .inl (by simp only [dirOps, newNode, file])
    · exact .inr (by simp only [dirOps, newNode, native])
  refine ⟨ops, ?_, fun x volume => ?_, fun a => ?_⟩
  · unfold nearLookup
    rw [ops]
    exact congrArg (Option.map Vnode.tmp) hit
  · rcases newOps with none | native
    · rw [none] at volume
      cases volume
    · rw [native] at volume
      cases volume
  · unfold nearLookup
    rcases newOps with none | native
    · rw [none]
    · have children : (withEntry d n pmm s).tmp.children s.tmp.count = [] :=
        h.tree.children_new made.bound dir made.room made.bare made.parent (opened_of_kind made.kind)
      rw [native]
      dsimp only
      rw [tmpfsDirLookup, children]
      rfl

variable (pmm) in
theorem end_dry (h : Hosted s kids) (made : Makes W uid gid s.tmp (s.tmp.grow d n) d n)
    (dir : (s.tmp.nodes d).type = .dir) (named : lastName q ≠ []) (noSlash : '/' ∉ lastName q)
    (short : (lastName q).length < vfsMaxPath - 1) (name : n.name = (lastName q).take (vfsMaxName - 1)) :
    Dry (withEntry d n pmm s) (.tmp d) (route (lastName q)) := by
  obtain ⟨ops, enters, outside, -⟩ := entry_looks pmm h made dir
  refine dry_end named noSlash short (fun x volume => ?_) fun w step => ?_
  · rw [ops] at volume
    cases volume
  · rw [← name, enters] at step
    cases step
    exact outside

variable (g fuel pmm) in
/-- From the directory of a new entry, the last component leads to the entry exactly if it is
the whole name. -/
theorem end_resolves_iff (h : Hosted s kids) (made : Makes W uid gid s.tmp (s.tmp.grow d n) d n)
    (dir : (s.tmp.nodes d).type = .dir) (named : lastName q ≠ []) (noSlash : '/' ∉ lastName q)
    (short : (lastName q).length < vfsMaxPath - 1) (name : n.name = (lastName q).take (vfsMaxName - 1)) :
    (∃ t, trek parentOf (lookup g fuel) (withEntry d n pmm s) (.tmp d) (route (lastName q)) =
        some (t, some (.tmp s.tmp.count))) ↔ PlainEnd (lastName q) := by
  obtain ⟨-, enters, -, leaf⟩ := entry_looks pmm h made dir
  have dry := end_dry pmm h made dir named noSlash short name
  rw [name] at enters
  have old : d ≠ s.tmp.count := Nat.ne_of_lt made.bound
  have up : parentOf (withEntry d n pmm s) (.tmp d) ≠ .tmp s.tmp.count := by
    have parent : ((withEntry d n pmm s).tmp.nodes d).parent = (s.tmp.nodes d).parent :=
      (TmpfsNode.label_eq (grow_label made.bound old)).parent
    intro same
    simp only [parentOf, parent, Vnode.tmp.injEq] at same
    have inside := (h.tree.upward d made.bound).2
    omega
  have back : parentOf (withEntry d n pmm s) (.tmp s.tmp.count) ≠ .tmp s.tmp.count := by
    have newNode : (withEntry d n pmm s).tmp.nodes s.tmp.count = { n with nextSibling := (s.tmp.nodes d).firstChild } :=
      grow_newNode n made.bound
    simp only [parentOf, newNode, made.parent, ne_eq, Vnode.tmp.injEq]
    exact old
  rw [← walk_end named noSlash short enters leaf (fun same => old (Vnode.tmp.inj same)) up back, dry.trek]
  constructor
  · rintro ⟨t, result⟩
    exact (Prod.mk.inj (Option.some.inj result)).2
  · intro arrived
    exact ⟨_, by rw [arrived]⟩

/-- The path of a new node leads to it exactly if the way to its directory still does and the
last component is the whole name. -/
theorem entry_resolves_iff (h : Hosted s kids) (still : Still s u) {name : List Char}
    (made : Makes W uid gid u.tmp (u.tmp.grow d n) d n) (parts : Parted g fuel s u q (.tmp d) name)
    (name_eq : n.name = name) :
    (∃ t, vfsResolvePath g fuel (withEntry d n pmm u) q = some (t, some (.tmp u.tmp.count))) ↔
      PlainEnd (lastName q) ∧ LeadsTo g fuel u q (.tmp d) := by
  have h' := still.hosted h
  have dir : (u.tmp.nodes d).type = .dir := parts.isDir
  have start : Abreast u (s, .tmp 0) (u, .tmp 0) := by
    refine ⟨⟨still.tmp.symm, still.devices.symm, still.mounts.1.symm, still.mounts.2.symm⟩, .refl, .tmp ?_⟩
    exact h'.tree.root.2
  obtain ⟨image, related⟩ := Route.trek_guided (f := withEntry d n pmm)
    (fun a b abreast => Abreast.up h' made.bound abreast)
    (fun a b c t m abreast step => Abreast.down h' made dir abreast step) start parts.arrived
  have last := fun (w : Files Drivers) (same : Still u w) =>
    have made' : Makes W uid gid w.tmp (w.tmp.grow d n) d n := same.tmp ▸ made
    end_resolves_iff g fuel pmm (same.hosted h') made' (same.tmp ▸ dir) parts.named
      (lastName_plain parts.absolute) (lastName_short parts.absolute parts.short) (name_eq.trans parts.cut)
  rw [resolve_way _ parts.absolute, Route.trek_append, image, LeadsTo, resolve_splitDir _ parts.absolute parts.short]
  constructor
  · rintro ⟨t, result⟩
    obtain ⟨w', m, onto, later⟩ := (Route.goOn_some (by simp)).mp result
    obtain ⟨⟨w, m'⟩, walked, eq⟩ := Option.map_eq_some_iff.mp onto
    obtain ⟨rfl, rfl⟩ := Prod.mk.inj eq
    obtain ⟨-, still', level⟩ := related w m walked
    cases level
    have count : w.tmp.count = u.tmp.count := by rw [still'.tmp]
    exact ⟨(last w still').mp ⟨t, count ▸ later⟩, w, walked⟩
  · rintro ⟨plain, w, walked⟩
    obtain ⟨-, still', -⟩ := related w _ walked
    obtain ⟨t, later⟩ := (last w still').mpr plain
    have count : w.tmp.count = u.tmp.count := by rw [still'.tmp]
    rw [walked]
    exact ⟨t, count ▸ later⟩

/-- A call that made a node: where its path leads. -/
def ResolvesNew (g : Geometry) (fuel : Nat) (s t : Files Drivers) (cwd path : List Char) (type : NodeType) : Prop :=
  ∃ u, vfsResolvePathCwd g fuel t cwd path = some (u, some (.tmp s.tmp.count)) ∧ typeOf u (.tmp s.tmp.count) = type

variable {op : Files Drivers → Nat → List Char → Files Drivers × Int}
  {fat : Fat → Option Nat → List (BitVec 8) → Option (Fat × Int)} {who : Process} {path name : List Char}

/-- A call that returns 0 in a directory of tmpfs has linked its node there and given it to the
caller. -/
theorem made_here (h : Hosted s kids) (found : resolveParentDir g fuel s who path = some (u, .ok (.tmp d, name)))
    (native : (u.tmp.nodes d).ops = .tmpfsDir) (fresh : FreshNode d name n) (does : AddsOrFails op u d name n pmm)
    (done : parentCall g fuel s (fun s => dirCall s op fat) true who path = some (t, 0)) :
    let n' := { n with uid := who.uid, gid := who.gid }
    n.name = name ∧ t = withEntry d n' pmm u ∧
      Makes (fun _ => True) who.uid who.gid u.tmp (u.tmp.grow d n') d n' := by
  intro n'
  obtain ⟨still, -, target⟩ := inside_resolveParentDir h found
  obtain ⟨bound, isDir, short⟩ := target _ _ rfl
  have bound : d < u.tmp.count := bound
  have named : n.name = name := by
    rw [fresh.name, setName, List.take_of_length_le (Nat.le_sub_one_of_lt short)]
  have home : dirCall u op fat (.tmp d) name = some (op u d name) := by simp only [dirCall, dirOps, native]
  have refused : ∀ {e : Int}, e ≠ 0 → some (u, e) ≠ some (t, 0) := fun wrong same => wrong (Prod.mk.inj (Option.some.inj same)).2
  unfold parentCall at done
  rw [found] at done
  dsimp only at done
  split at done
  · exact absurd done (refused (by decide))
  split at done
  · exact absurd done (refused (by decide))
  rw [home] at done
  rcases does with ⟨-, failed⟩ | ⟨absent, room, eq⟩
  · have wrong : ¬ (true = true ∧ (op u d name).2 = 0) := fun both => by omega
    dsimp only at done
    rw [if_neg wrong] at done
    have zero := (Prod.mk.inj (Option.some.inj done)).2
    omega
  · have hit : tmpfsDirLookup (u.tmp.grow d n) d name = some u.tmp.count := by
      rw [← named]
      exact (still.hosted h).tree.lookup_new bound isDir room fresh.bare fresh.parent (opened_of_kind fresh.kind)
    have looked : lookup g fuel { u with tmp := u.tmp.grow d n, pmm := pmm } (.tmp d) name =
        some ({ u with tmp := u.tmp.grow d n, pmm := pmm }, some (.tmp u.tmp.count)) := by
      have ops : dirOps { u with tmp := u.tmp.grow d n, pmm := pmm } (.tmp d) = .tmpfs d := by
        have same : dirOps { u with tmp := u.tmp.grow d n, pmm := pmm } (.tmp d) = dirOps u (.tmp d) :=
          dirOps_withEntry bound bound
        rw [same]
        simp only [dirOps, native]
      unfold lookup
      rw [ops]
      exact congrArg (fun found => some (_, Option.map Vnode.tmp found)) hit
    rw [eq] at done
    dsimp only at done
    rw [if_pos ⟨rfl, rfl⟩, looked] at done
    obtain ⟨after, -⟩ := Prod.mk.inj (Option.some.inj done)
    have given : setOwner { u with tmp := u.tmp.grow d n, pmm := pmm }
        (who.uid, who.gid, (ownerOf { u with tmp := u.tmp.grow d n, pmm := pmm } (.tmp u.tmp.count)).2.2)
        (.tmp u.tmp.count) = withEntry d n' pmm u := by
      have set := grow_set n bound who.uid who.gid
      unfold setOwner ownerOf
      dsimp only
      rw [set]
      rfl
    refine ⟨named, after.symm.trans given, trivial, bound, native, room, ?_, ?_, fresh.bare, fresh.parent, fresh.kind,
      ⟨rfl, rfl⟩, rfl⟩
    · exact named.symm ▸ absent
    · exact named.symm ▸ short

/-- What a call that makes nodes has made is what its path leads to, exactly if the way to the
directory still leads there and the last component is the name of the entry. -/
theorem made_resolves_iff (h : Hosted s kids) (found : resolveParentDir g fuel s who path = some (u, .ok (.tmp d, name)))
    (native : (u.tmp.nodes d).ops = .tmpfsDir) (fresh : FreshNode d name n) (does : AddsOrFails op u d name n pmm)
    (done : parentCall g fuel s (fun s => dirCall s op fat) true who path = some (t, 0)) :
    ResolvesNew g fuel s t who.cwd path n.type ↔
      PlainEnd (lastName (vfsCombinePath who.cwd path)) ∧ LeadsTo g fuel u (vfsCombinePath who.cwd path) (.tmp d) := by
  obtain ⟨named, rfl, made⟩ := made_here h found native fresh does done
  have still := (inside_resolveParentDir h found).1
  have hosted : Hosted (withEntry d { n with uid := who.uid, gid := who.gid } pmm u) (withKid kids d u.tmp.count) :=
    (still.hosted h).grow made.bound (parted found).isDir made.room made.bare made.parent (opened_of_kind made.kind) rfl
      ⟨rfl, rfl⟩
  rw [← entry_resolves_iff h still made (parted found) named]
  constructor
  · rintro ⟨w, arrived, -⟩
    rw [← still.tmp] at arrived
    exact ⟨w, arrived⟩
  · rintro ⟨w, arrived⟩
    refine ⟨w, still.tmp ▸ arrived, ?_⟩
    have same := (inside_resolve hosted arrived).1.tmp
    have new : w.tmp.nodes u.tmp.count =
        { n with uid := who.uid, gid := who.gid, nextSibling := (u.tmp.nodes d).firstChild } := by
      rw [same]
      exact grow_newNode _ made.bound
    rw [← still.tmp]
    simp only [typeOf, new]

end Entries

/-! Runs. An entry is only made by the calls with a path and when the tree is filled at boot,
and keeps its name. -/

/-- A call on the tree, or what fills it and mounts on it at boot. The rest of the kernel takes
and gives pages and writes to them. -/
inductive TreeOp where
  | call (op : VfsOp)
  | seedFile (d : Nat) (name : List Char) (src : Nat → BitVec 8) (count mode : Word)
  | seedDir (d : Nat) (name : List Char)
  | install (dev : Bool) (d : Nat)
  | pages (pmm : Pmm) (mem : Nat → Nat → Word)

section Runs

variable (g : Geometry) (fuel : Nat)

def treeStep (s : Files Drivers) : TreeOp → Option (Files Drivers)
  | .call op => vfsStep g fuel s op
  | .seedFile d name src count mode => some (if s.tmp.isDir d then seedFile s d name src count mode else s)
  | .seedDir d name => some (if s.tmp.isDir d then (tmpfsCreateDir s d name).1 else s)
  | .install dev d => some (if s.tmp.isDir d then s.install dev d else s)
  | .pages pmm mem => some { s with pmm := pmm, mem := mem }

/-- One step after the other, as long as they return. -/
def treeCalls : Option (Files Drivers) → TreeOp → Option (Files Drivers) × Unit
  | none, _ => (none, ())
  | some s, op => (treeStep g fuel s op, ())

/-- What the steps of a run are made on. -/
def WhileUp (ok : Files Drivers → TreeOp → Prop) : Option (Files Drivers) → TreeOp → Prop
  | none, _ => True
  | some s, op => ok s op

/-- A path that ends in a directory of tmpfs has a plain last component, and the way to the
directory, walked once more, leads there. -/
def PlainPath (s : Files Drivers) (who : Process) (path : List Char) : Prop :=
  ∀ t d name, resolveParentDir g fuel s who path = some (t, .ok (.tmp d, name)) → (t.tmp.nodes d).ops = .tmpfsDir →
    PlainEnd (lastName (vfsCombinePath who.cwd path)) ∧ LeadsTo g fuel t (vfsCombinePath who.cwd path) (.tmp d)

/-- `O_CREAT`, or `O_TRUNC` with write access. -/
def MayMake (flags : Nat) : Prop := flags &&& oCreat ≠ 0 ∨ flags &&& oTrunc ≠ 0 ∧ flags &&& oAccmode ≠ oRdonly

/-- The steps that keep the names: what is made has a plain path. An open that may make a file
has a proper last name, where lookups in the volume lie on its way. -/
def PlainStep (s : Files Drivers) : TreeOp → Prop
  | .call (.create who path) => (∃ t, processCreate g fuel s who path = some (t, 0)) → PlainPath g fuel s who path
  | .call (.mkdir who path) => (∃ t, processMkdir g fuel s who path = some (t, 0)) → PlainPath g fuel s who path
  | .call (.opens who path flags) => MayMake flags → ¬ Dry s (.tmp 0) (wayTo (vfsCombinePath who.cwd path)) →
    ProperName (lastName (vfsCombinePath who.cwd path))
  | .seedFile _ name _ _ _ => ProperName name
  | .seedDir _ name => ProperName name
  | _ => True

/-- What a creation in a directory of tmpfs owes: its path leads to the new node. -/
def CreationMeets (s : Files Drivers) : TreeOp → Prop
  | .call (.create who path) => ∀ t u d name, resolveParentDir g fuel s who path = some (t, .ok (.tmp d, name)) →
    (t.tmp.nodes d).ops = .tmpfsDir → processCreate g fuel s who path = some (u, 0) →
      ResolvesNew g fuel s u who.cwd path .file
  | .call (.mkdir who path) => ∀ t u d name, resolveParentDir g fuel s who path = some (t, .ok (.tmp d, name)) →
    (t.tmp.nodes d).ops = .tmpfsDir → processMkdir g fuel s who path = some (u, 0) →
      ResolvesNew g fuel s u who.cwd path .dir
  | _ => True

variable {g fuel} {s t u : Files Drivers} {kids : Nat → List Nat} {who : Process} {path name : List Char} {e : Int}

theorem Still.entries (still : Still s t) : SameEntries s t := .tmp still.tmp still.mounts

theorem setOwner_entries (owner : Word × Word × Word) (w : Vnode) : SameEntries s (setOwner s owner w) := by
  cases w with
  | tmp i => exact .set rfl ⟨rfl, rfl⟩ ⟨rfl, rfl⟩ ⟨rfl, rfl⟩ Iff.rfl rfl
  | dev k => exact .tmp rfl ⟨rfl, rfl⟩
  | fat j => exact .tmp rfl ⟨rfl, rfl⟩

/-- `process_create` and `process_mkdir` keep the names, if the one they make is proper. -/
theorem named_makes (named : Named s) {op : Files Drivers → Nat → List Char → Files Drivers × Int}
    {fat : Fat → Option Nat → List (BitVec 8) → Option (Fat × Int)} (makes : MakesOrFails op)
    (proper : e = 0 → ∀ u d name, resolveParentDir g fuel s who path = some (u, .ok (.tmp d, name)) →
      (u.tmp.nodes d).ops = .tmpfsDir → ProperName name)
    (done : parentCall g fuel s (fun s => dirCall s op fat) true who path = some (t, e)) : Named t := by
  obtain ⟨kids, h, -⟩ := id named
  unfold parentCall at done
  split at done
  · cases done
  · rename_i resolved
    cases done
    exact (inside_resolveParentDir h resolved).1.entries.named named
  · rename_i s₁ dir name resolved
    obtain ⟨still, -, target⟩ := inside_resolveParentDir h resolved
    obtain ⟨inside, isDir, short⟩ := target dir name rfl
    have named₁ := still.entries.named named
    split at done
    · cases done
      exact named₁
    split at done
    · cases done
      exact named₁
    split at done
    · cases done
    rename_i s₂ e₂ called
    have after : (e₂ = 0 → e = 0) → Named s₂ := by
      intro same
      simp only [dirCall] at called
      split at called
      · rename_i d native
        obtain ⟨rfl, ops⟩ := dirOps_tmpfs native
        rcases makes s₁ d name with ⟨same, -⟩ | ⟨absent, room, n, pmm, fresh, eq⟩
        · have state : (op s₁ d name).1 = s₂ := congrArg Prod.fst (Option.some.inj called)
          rw [← state, same]
          exact named₁
        · rw [eq] at called
          cases called
          have given := proper (same rfl) s₁ d name resolved ops
          refine named₁.grow inside isDir room fresh.bare fresh.parent (opened_of_kind fresh.kind) ?_ rfl ⟨rfl, rfl⟩
          rw [fresh.name]
          exact properName_take given
      · obtain ⟨result, -, eq⟩ := Option.map_eq_some_iff.mp called
        cases eq
        exact (withFat_still result.1).entries.named named₁
      · cases called
        exact named₁
    split at done
    · rename_i success
      split at done
      · cases done
      · rename_i looked
        cases done
        exact (lookup_still looked).entries.named (after id)
      · rename_i s₃ w looked
        obtain ⟨rfl, rfl⟩ := Prod.mk.inj (Option.some.inj done)
        exact (setOwner_entries _ w).named ((lookup_still looked).entries.named (after id))
    · cases done
      exact after id

theorem named_unlink (named : Named s) (done : processUnlink g fuel s who path = some (t, e)) : Named t := by
  obtain ⟨kids, h, -⟩ := id named
  unfold processUnlink parentCall at done
  split at done
  · cases done
  · rename_i resolved
    cases done
    exact (inside_resolveParentDir h resolved).1.entries.named named
  · rename_i s₁ dir name resolved
    have named₁ := (inside_resolveParentDir h resolved).1.entries.named named
    split at done
    · cases done
      exact named₁
    split at done
    · cases done
      exact named₁
    split at done
    · cases done
    rename_i s₂ e₂ called
    rw [if_neg (by simp)] at done
    cases done
    simp only [dirCall] at called
    split at called
    · rename_i d native
      have state : (tmpfsDirUnlink s₁ d name).1 = t := congrArg Prod.fst (Option.some.inj called)
      rw [← state]
      have mounts := tmpfsDirUnlink_mounts s₁ d name
      rcases tmpfsDirUnlink_removes s₁ d name with ⟨same, -⟩ | ⟨-, i, listed, -, unchained⟩
      · rw [same]
        exact named₁
      · exact named₁.unchain listed unchained mounts
    · obtain ⟨result, -, eq⟩ := Option.map_eq_some_iff.mp called
      cases eq
      exact (withFat_still result.1).entries.named named₁
    · cases called
      exact named₁

theorem Dry.again (still : Still s t) {v : Vnode} {ms : List (Move (List Char))} (near : ∀ j, v ≠ .fat j)
    (dry : Dry s v ms) :
    Dry t v ms ∧ walk (parentOf t) (nearLookup t) v ms = walk (parentOf s) (nearLookup s) v ms := by
  have ops : ∀ {v}, (∀ j, v ≠ .fat j) → dirOps t v = dirOps s v := by
    intro v near
    cases v with
    | tmp i => exact dirOps_still still i
    | dev k => rfl
    | fat j => exact absurd rfl (near j)
  induction ms generalizing v with
  | nil => exact ⟨trivial, rfl⟩
  | cons m ms ih =>
    cases m with
    | up =>
      have same : parentOf t v = parentOf s v ∧ ∀ j, parentOf s v ≠ .fat j := by
        cases v with
        | tmp i => exact ⟨by simp only [parentOf, still.tmp], fun j => by simp [parentOf]⟩
        | dev k => exact ⟨by simp only [parentOf, still.mounts.1], fun j => by simp [parentOf]⟩
        | fat j => exact absurd rfl (near j)
      have later := ih same.2 dry
      unfold Dry walk
      rwa [same.1]
    | down a =>
      obtain ⟨here, beyond⟩ := dry
      have look : nearLookup t v a = nearLookup s v a := by
        unfold nearLookup
        rw [ops near, still.tmp]
      have goes : ∀ w, nearLookup s v a = some w → ∀ j, w ≠ .fat j := by
        intro w step j same
        rcases nearLookup_cases step with ⟨_, i, -, rfl, -⟩ | ⟨_, k, -, rfl, -⟩ <;> cases same
      unfold Dry walk
      rw [look, ops near]
      refine ⟨⟨here, fun w step => (ih (goes w step) (beyond w step)).1⟩, ?_⟩
      cases step : nearLookup s v a with
      | none => rfl
      | some w => exact (ih (goes w step) (beyond w step)).2

/-- A dry way leads to one directory, however often it is walked. -/
theorem Parted.again {s' t' : Files Drivers} {q name' : List Char} {v w : Vnode} (parts : Parted g fuel s t q v name)
    (parts' : Parted g fuel s' t' q w name') (still : Still u s) (still' : Still u s')
    (dry : Dry u (.tmp 0) (wayTo q)) : w = v ∧ t = s := by
  obtain ⟨dry₁, same₁⟩ := dry.again still (v := .tmp 0) (fun _ same => by cases same)
  obtain ⟨dry₂, same₂⟩ := dry.again still' (v := .tmp 0) (fun _ same => by cases same)
  have first := parts.arrived
  have second := parts'.arrived
  rw [dry₁.trek, same₁] at first
  rw [dry₂.trek, same₂] at second
  obtain ⟨state, found⟩ := Prod.mk.inj (Option.some.inj first)
  obtain ⟨-, found'⟩ := Prod.mk.inj (Option.some.inj second)
  exact ⟨Option.some.inj (found'.symm.trans found), state.symm⟩

theorem unresolved_proper {q : List Char} (dry : Dry s (.tmp 0) (wayTo q)) (still : Still s t)
    (absent : vfsResolvePath g fuel s q = some (t, none)) {v : Vnode} (parts : Parted g fuel t u q v name) :
    ProperName (lastName q) := by
  obtain ⟨dry', same⟩ := dry.again still (v := .tmp 0) (fun _ same => by cases same)
  have arrived := parts.arrived
  rw [dry'.trek, same] at arrived
  have found : walk (parentOf s) (nearLookup s) (.tmp 0) (wayTo q) = some v := (Prod.mk.inj (Option.some.inj arrived)).2
  rw [resolve_way s parts.absolute, Route.trek_append, dry.trek, found] at absent
  refine ⟨parts.named, fun dot => ?_, fun dots => ?_⟩
  · rw [dot] at absent
    cases absent
  · rw [dots] at absent
    cases absent

/-- What `process_unlink` has taken out was listed in a directory of tmpfs, or lay in the volume. -/
theorem unlinked_cases (done : processUnlink g fuel s who path = some (t, e)) (success : ¬ e < 0) :
    ∃ u dir name, resolveParentDir g fuel s who path = some (u, .ok (dir, name)) ∧
      ((∃ d i, dirOps u dir = .tmpfs d ∧ i ∈ u.tmp.children d ∧ (u.tmp.nodes i).name = name) ∨
        (∃ x, dirOps u dir = .fat x) ∧ Still u t) := by
  unfold processUnlink parentCall at done
  split at done
  · cases done
  · rename_i resolved
    cases done
    have failed : e < 0 := by
      unfold resolveParentDir at resolved
      dsimp only at resolved
      split at resolved
      · cases resolved
        decide
      split at resolved
      · cases resolved
      · cases resolved
        decide
      split at resolved
      · cases resolved
      · cases resolved
        decide
    exact absurd failed success
  · rename_i s₁ dir name resolved
    refine ⟨s₁, dir, name, resolved, ?_⟩
    split at done
    · cases done
      exact absurd (by decide) success
    rename_i calls
    split at done
    · cases done
      exact absurd (by decide) success
    split at done
    · cases done
    rename_i s₂ e₂ called
    rw [if_neg (by simp)] at done
    cases done
    simp only [dirCall] at called
    split at called
    · rename_i d native
      refine .inl ⟨d, ?_⟩
      have result : (tmpfsDirUnlink s₁ d name).2 = e := congrArg Prod.snd (Option.some.inj called)
      cases hit : tmpfsDirLookup s₁.tmp d name with
      | none =>
        rw [tmpfsDirUnlink, hit] at result
        rw [← result] at success
        exact absurd (by decide : -enoent < 0) success
      | some i =>
        have same := List.find?_some (p := fun i => decide ((s₁.tmp.nodes i).name = name)) hit
        exact ⟨i, native, List.mem_of_find?_eq_some hit, of_decide_eq_true same⟩
    · rename_i x volume
      obtain ⟨result, -, eq⟩ := Option.map_eq_some_iff.mp called
      cases eq
      exact .inr ⟨⟨x, volume⟩, withFat_still result.1⟩
    · rename_i away
      cases called
      exact absurd (by decide) success

theorem named_createAndResolve (named : Named s) {found : Except Int Vnode}
    (proper : ∀ u d name, resolveParentDir g fuel s who path = some (u, .ok (.tmp d, name)) →
      (u.tmp.nodes d).ops = .tmpfsDir → ProperName name)
    (done : createAndResolve g fuel s who path = some (t, found)) : Named t := by
  unfold createAndResolve at done
  split at done
  · cases done
  rename_i s₁ e created
  have made := named_makes named tmpfsDirCreate_makes (fun _ => proper) created
  obtain ⟨kids, h, -⟩ := id made
  split at done
  · cases done
    exact made
  split at done
  · cases done
  · rename_i resolved
    cases done
    exact (inside_resolve h resolved).1.entries.named made
  · rename_i resolved
    cases done
    exact (inside_resolve h resolved).1.entries.named made

theorem named_locate (named : Named s) {flags : Nat} {found : Except Int Vnode}
    (proper : MayMake flags → ¬ Dry s (.tmp 0) (wayTo (vfsCombinePath who.cwd path)) →
      ProperName (lastName (vfsCombinePath who.cwd path)))
    (done : locate g fuel s who path flags = some (t, found)) : Named t := by
  obtain ⟨kids, h, -⟩ := id named
  have cut : ∀ {s u v name}, resolveParentDir g fuel s who path = some (u, .ok (v, name)) →
      ProperName (lastName (vfsCombinePath who.cwd path)) → ProperName name := fun found given => by
    rw [(parted found).cut]
    exact properName_take given
  unfold locate at done
  split at done
  · cases done
  · rename_i s₁ resolved
    have still := (inside_resolve h resolved).1
    have named₁ := still.entries.named named
    split at done
    · cases done
      exact named₁
    · rename_i creates
      refine named_createAndResolve named₁ (fun u d name found _ => cut found ?_) done
      by_cases dry : Dry s (.tmp 0) (wayTo (vfsCombinePath who.cwd path))
      · exact unresolved_proper dry still resolved (parted found)
      · exact proper (.inl creates) dry
  · rename_i s₁ node resolved
    have still := (inside_resolve h resolved).1
    have named₁ := still.entries.named named
    split at done
    · cases done
      exact named₁
    split at done
    swap
    · cases done
      exact named₁
    rename_i truncates
    split at done
    · cases done
    rename_i s₂ e unlinked
    have named₂ := named_unlink named₁ unlinked
    split at done
    · cases done
      exact named₂
    rename_i success
    refine named_createAndResolve named₂ (fun u d name found native => ?_) done
    by_cases dry : Dry s (.tmp 0) (wayTo (vfsCombinePath who.cwd path))
    swap
    · exact cut found (proper (.inr truncates) dry)
    obtain ⟨u₁, dir, name₁, found₁, gone⟩ := unlinked_cases unlinked success
    have parts := parted found
    have parts₁ := parted found₁
    have still₁ := (inside_resolveParentDir (still.hosted h) found₁).1
    rcases gone with ⟨e, i, -, listed, same⟩ | ⟨⟨x, volume⟩, onto⟩
    · -- the entry that is made again has the name of the one that is gone
      rw [parts.cut, ← parts₁.cut, ← same]
      obtain ⟨kids₁, h₁, names⟩ := still₁.entries.named named₁
      rw [h₁.tree.children] at listed
      exact names e i listed
    · -- the directory is the same one, which is none of tmpfs
      have still₂ : Still s s₂ := (still.trans still₁).trans onto
      obtain ⟨rfl, -⟩ := parts₁.again parts still still₂ dry
      have tmp : u.tmp = u₁.tmp := (inside_resolveParentDir (still₂.hosted h) found).1.tmp.trans onto.tmp
      rw [tmp] at native
      simp only [dirOps, native] at volume
      cases volume

theorem vfsStep_entries (h : Hosted s kids) {op : VfsOp} (done : vfsStep g fuel s op = some t)
    (quiet : match op with | .opens _ _ _ | .mkdir _ _ | .create _ _ | .unlink _ _ => False | _ => True) :
    SameEntries s t := by
  have sets : ∀ {who : Process} {path : List Char} {u t : Files Drivers} {found : Option Vnode},
      vfsResolvePathCwd g fuel s who.cwd path = some (u, found) → OwnerSet u found t → SameEntries s t := by
    rintro who path u t found hit (rfl | ⟨v, owner, rfl, rfl⟩)
    · exact (inside_resolve h hit).1.entries
    · exact (inside_resolve h hit).1.entries.trans (setOwner_entries _ v)
  cases op with
  | resolve cwd path =>
    obtain ⟨⟨u, found⟩, hit, rfl⟩ := Option.map_eq_some_iff.mp done
    exact (inside_resolve h hit).1.entries
  | readdir cwd path index size =>
    obtain ⟨⟨u, entry⟩, call, rfl⟩ := Option.map_eq_some_iff.mp done
    exact (vfsReaddirPath_still h call).entries
  | stat who path =>
    obtain ⟨⟨u, st⟩, call, rfl⟩ := Option.map_eq_some_iff.mp done
    exact (processStat_still h call).entries
  | opens who path flags => exact quiet.elim
  | mkdir who path => exact quiet.elim
  | create who path => exact quiet.elim
  | unlink who path => exact quiet.elim
  | chmod who path mode =>
    obtain ⟨⟨u, e⟩, call, rfl⟩ := Option.map_eq_some_iff.mp done
    obtain ⟨s₁, found, hit, effect⟩ := processChmod_cases call
    exact sets hit effect
  | chown who path uid gid =>
    obtain ⟨⟨u, e⟩, call, rfl⟩ := Option.map_eq_some_iff.mp done
    obtain ⟨s₁, found, hit, effect⟩ := processChown_cases call
    exact sets hit effect
  | read node count offset =>
    obtain rfl := Option.some.inj done
    cases node with
    | tmp i => exact .tmp rfl ⟨rfl, rfl⟩
    | dev k => exact .tmp rfl ⟨rfl, rfl⟩
    | fat j => exact (withFat_still _).entries
  | write node src count offset =>
    obtain ⟨⟨u, n⟩, call, rfl⟩ := Option.map_eq_some_iff.mp done
    unfold writeNode at call
    cases node with
    | tmp i => exact tmpfsFileWrite_entries call
    | dev k =>
      cases call
      exact .tmp rfl ⟨rfl, rfl⟩
    | fat j =>
      obtain ⟨rfl, -⟩ := Prod.mk.inj (Option.some.inj call)
      exact (withFat_still _).entries

theorem PlainPath.proper (plain : PlainPath g fuel s who path) {d : Nat}
    (found : resolveParentDir g fuel s who path = some (u, .ok (.tmp d, name))) (native : (u.tmp.nodes d).ops = .tmpfsDir) :
    ProperName name := by
  rw [(parted found).cut]
  exact (plain u d name found native).1.proper (parted found).named

theorem named_call (named : Named s) {op : VfsOp} (plain : PlainStep g fuel s (.call op))
    (done : vfsStep g fuel s op = some t) : Named t := by
  obtain ⟨kids, h, -⟩ := id named
  cases op with
  | opens who path flags =>
    obtain ⟨⟨u, found⟩, call, rfl⟩ := Option.map_eq_some_iff.mp done
    exact named_locate named plain call
  | mkdir who path =>
    obtain ⟨⟨u, e⟩, call, rfl⟩ := Option.map_eq_some_iff.mp done
    refine named_makes named tmpfsDirMkdir_makes (fun zero u d name found native => ?_) call
    rw [zero] at call
    exact (plain ⟨_, call⟩).proper found native
  | create who path =>
    obtain ⟨⟨u, e⟩, call, rfl⟩ := Option.map_eq_some_iff.mp done
    refine named_makes named tmpfsDirCreate_makes (fun zero u d name found native => ?_) call
    rw [zero] at call
    exact (plain ⟨_, call⟩).proper found native
  | unlink who path =>
    obtain ⟨⟨u, e⟩, call, rfl⟩ := Option.map_eq_some_iff.mp done
    exact named_unlink named call
  | resolve cwd path => exact (vfsStep_entries h done trivial).named named
  | readdir cwd path index size => exact (vfsStep_entries h done trivial).named named
  | stat who path => exact (vfsStep_entries h done trivial).named named
  | chmod who path mode => exact (vfsStep_entries h done trivial).named named
  | chown who path uid gid => exact (vfsStep_entries h done trivial).named named
  | read node count offset => exact (vfsStep_entries h done trivial).named named
  | write node src count offset => exact (vfsStep_entries h done trivial).named named

theorem named_step (named : Named s) {op : TreeOp} (plain : PlainStep g fuel s op)
    (done : treeStep g fuel s op = some t) : Named t := by
  have isDir : ∀ {d}, s.tmp.isDir d = true → d < s.tmp.count ∧ (s.tmp.nodes d).type = .dir := by
    intro d dir
    simpa only [Tmpfs.isDir, Bool.and_eq_true, decide_eq_true_eq, beq_iff_eq] using dir
  cases op with
  | call op => exact named_call named plain done
  | seedFile d name src count mode =>
    cases done
    split
    · rename_i dir
      exact named.seedFile dir plain src count mode
    · exact named
  | seedDir d name =>
    cases done
    split
    · rename_i dir
      exact named.seedDir dir plain
    · exact named
  | install dev d =>
    cases done
    split
    · rename_i dir
      exact named.install dev (isDir dir).1 (isDir dir).2
    · exact named
  | pages pmm mem =>
    cases done
    exact SameEntries.named (s := s) (.tmp rfl ⟨rfl, rfl⟩) named

theorem named_meets (named : Named s) {op : TreeOp} (plain : PlainStep g fuel s op) : CreationMeets g fuel s op := by
  obtain ⟨kids, h, -⟩ := named
  cases op with
  | call op =>
    cases op with
    | create who path =>
      intro t u d name found native zero
      exact (made_resolves_iff h found native (fileNode_fresh d name _) (tmpfsDirCreate_adds t d name) zero).mpr
        (plain ⟨u, zero⟩ t d name found native)
    | mkdir who path =>
      intro t u d name found native zero
      exact (made_resolves_iff h found native (dirNode_fresh d name) (tmpfsDirMkdir_adds t d name) zero).mpr
        (plain ⟨u, zero⟩ t d name found native)
    | _ => exact trivial
  | _ => exact trivial

/-- A successful creation in a directory of tmpfs is found under its path exactly if the last
component is plain and the way to the directory leads there once more; and in a run in which
all are so, each is found, and no directory ever has an entry named nothing, `.` or `..`. -/
theorem created_paths_resolve (g : Geometry) (fuel : Nat) :
    (∀ (s : Files Drivers) (kids : Nat → List Nat), Hosted s kids →
      ∀ (who : Process) (path name : List Char) (t u : Files Drivers) (d : Nat),
        resolveParentDir g fuel s who path = some (t, .ok (.tmp d, name)) → (t.tmp.nodes d).ops = .tmpfsDir →
          (processMkdir g fuel s who path = some (u, 0) →
            (ResolvesNew g fuel s u who.cwd path .dir ↔
              PlainEnd (lastName (vfsCombinePath who.cwd path)) ∧
                LeadsTo g fuel t (vfsCombinePath who.cwd path) (.tmp d))) ∧
          (processCreate g fuel s who path = some (u, 0) →
            (ResolvesNew g fuel s u who.cwd path .file ↔
              PlainEnd (lastName (vfsCombinePath who.cwd path)) ∧
                LeadsTo g fuel t (vfsCombinePath who.cwd path) (.tmp d)))) ∧
    ∀ (s : Files Drivers) (ops : List TreeOp), Named s →
      Run.Along (treeCalls g fuel) (WhileUp (PlainStep g fuel)) (some s) ops →
        Run.Along (treeCalls g fuel) (WhileUp (CreationMeets g fuel)) (some s) ops ∧
          ∀ t, (Run.run (treeCalls g fuel) (some s) ops).1 = some t →
            ∀ d i, i ∈ t.tmp.children d → ProperName (t.tmp.nodes i).name := by
  refine ⟨fun s kids h who path name t u d found native => ⟨fun zero => ?_, fun zero => ?_⟩, fun s ops named plain => ?_⟩
  · exact made_resolves_iff h found native (dirNode_fresh d name) (tmpfsDirMkdir_adds t d name) zero
  · exact made_resolves_iff h found native (fileNode_fresh d name _) (tmpfsDirCreate_adds t d name) zero
  · have start : ∀ s', some s = some s' → Named s' := fun s' same => Option.some.inj same ▸ named
    have keeps : ∀ v op, (∀ s, v = some s → Named s) → WhileUp (PlainStep g fuel) v op →
        ∀ t, (treeCalls g fuel v op).1 = some t → Named t := by
      intro v op named plain t done
      cases v with
      | none => cases done
      | some s => exact named_step (named s rfl) plain done
    refine ⟨plain.gives (fun v => ∀ s, v = some s → Named s) keeps (fun v op named plain => ?_) start, fun t ends => ?_⟩
    · cases v with
      | none => exact trivial
      | some s => exact named_meets (named s rfl) plain
    · obtain ⟨kids, hosted, names⟩ := Run.run_invariant_along _ (WhileUp (PlainStep g fuel)) (fun v => ∀ s, v = some s → Named s)
        keeps (some s) ops start plain t ends
      intro d i mem
      rw [hosted.tree.children] at mem
      exact names d i mem

end Runs

/-- The way to a directory leads there again, where no lookup on it is one in the volume. -/
theorem Parted.leads {g : Geometry} {fuel : Nat} {s t : Files Drivers} {q name : List Char} {dir : Vnode}
    (parts : Parted g fuel s t q dir name) (dry : Dry s (.tmp 0) (wayTo q)) : LeadsTo g fuel t q dir := by
  have arrived := parts.arrived
  rw [dry.trek] at arrived
  obtain ⟨rfl, found⟩ := Prod.mk.inj (Option.some.inj arrived)
  exact ⟨s, by rw [resolve_splitDir s parts.absolute parts.short, dry.trek, found]⟩

/-- Whether `resolve_parent_dir` and the way walked once more come to one directory. -/
def walksTwice (g : Geometry) (fuel : Nat) (who : Process) (path : List Char) (s : Files Drivers) : Option Bool :=
  (resolveParentDir g fuel s who path).bind fun r => r.2.toOption.bind fun parts =>
    (vfsResolvePath g fuel r.1 (vfsSplitPath (vfsCombinePath who.cwd path)).1).map fun again => again.2 = some parts.1

theorem PlainPath.of_walksTwice {g : Geometry} {fuel : Nat} {s : Files Drivers} {who : Process} {path : List Char}
    (last : PlainEnd (lastName (vfsCombinePath who.cwd path))) (twice : walksTwice g fuel who path s = some true) :
    PlainPath g fuel s who path := by
  intro t d name found _
  refine ⟨last, ?_⟩
  unfold walksTwice at twice
  rw [found] at twice
  obtain ⟨⟨u, dir⟩, again, same⟩ := Option.map_eq_some_iff.mp twice
  obtain rfl : dir = some (.tmp d) := of_decide_eq_true same
  exact ⟨u, again⟩

def rootShell : Process := { Process.zero with cwd := ['/'] }

/-- A directory, a file in it, and a file in the root whose path goes through the volume. -/
def namingRun : List TreeOp :=
  [.call (.mkdir rootShell ['d']), .call (.create rootShell ['d', '/', 'b']),
    .call (.create rootShell (mntFile ++ ['/', '.', '.', '/', '.', '.', '/', 'x']))]

theorem mountedVolume_named : Named mountedVolume := by
  refine ⟨mountedKids, mountedVolume_rooted.hosted, fun d i mem => ?_⟩
  obtain ⟨-, rfl | rfl⟩ := mem_mountedKids mem
  · decide
  · decide

theorem namingRun_plain :
    Run.Along (treeCalls (geometryOf (smallBoot 1#8 1#8)) fullFuel)
      (WhileUp (PlainStep (geometryOf (smallBoot 1#8 1#8)) fullFuel)) (some mountedVolume) namingRun := by
  have plain : ∀ {v : Option (Files Drivers)} {path : List Char}, PlainEnd (lastName (vfsCombinePath rootShell.cwd path)) →
      v.bind (walksTwice (geometryOf (smallBoot 1#8 1#8)) fullFuel rootShell path) = some true →
      ∀ s, v = some s → PlainPath (geometryOf (smallBoot 1#8 1#8)) fullFuel s rootShell path := by
    rintro v path last twice s rfl
    exact .of_walksTwice last twice
  have up : ∀ {v : Option (Files Drivers)} {op : TreeOp},
      (∀ s, v = some s → PlainStep (geometryOf (smallBoot 1#8 1#8)) fullFuel s op) →
      WhileUp (PlainStep (geometryOf (smallBoot 1#8 1#8)) fullFuel) v op := by
    intro v op plain
    cases v with
    | none => exact trivial
    | some s => exact plain s rfl
  exact ⟨up fun s same _ => plain (by decide) (by decide +kernel) s same,
    up fun s same _ => plain (by decide) (by decide +kernel) s same,
    up fun s same _ => plain (by decide) (by decide +kernel) s same, trivial⟩

theorem created_paths_resolve_namingRun :
    Run.Along (treeCalls (geometryOf (smallBoot 1#8 1#8)) fullFuel)
        (WhileUp (CreationMeets (geometryOf (smallBoot 1#8 1#8)) fullFuel)) (some mountedVolume) namingRun ∧
      ∃ t, (Run.run (treeCalls (geometryOf (smallBoot 1#8 1#8)) fullFuel) (some mountedVolume) namingRun).1 = some t ∧
        t.tmp.children 0 = [5, 3, 2, 1] ∧ ProperName (t.tmp.nodes 5).name := by
  obtain ⟨meets, names⟩ := (created_paths_resolve (geometryOf (smallBoot 1#8 1#8)) fullFuel).2 mountedVolume namingRun
    mountedVolume_named namingRun_plain
  have root : (Run.run (treeCalls (geometryOf (smallBoot 1#8 1#8)) fullFuel) (some mountedVolume) namingRun).1.map
      (fun t => t.tmp.children 0) = some [5, 3, 2, 1] := by decide +kernel
  obtain ⟨t, ends, listed⟩ := Option.map_eq_some_iff.mp root
  refine ⟨meets, t, ends, listed, names t ends 0 5 ?_⟩
  rw [listed]
  exact List.mem_cons_self

/-- `mkdir(".")` in the root makes an entry `.`, and the path leads to the root. -/
theorem mkdir_dot_names_dot :
    ¬ CreationMeets (geometryOf (smallBoot 1#8 1#8)) fullFuel mountedVolume (.call (.mkdir rootShell ['.'])) ∧
      (treeStep (geometryOf (smallBoot 1#8 1#8)) fullFuel mountedVolume (.call (.mkdir rootShell ['.']))).map
        (fun t => (t.tmp.children 0, (t.tmp.nodes 3).name)) = some ([3, 2, 1], ['.']) := by
  refine ⟨fun meets => ?_, by decide +kernel⟩
  have parent : (resolveParentDir (geometryOf (smallBoot 1#8 1#8)) fullFuel mountedVolume rootShell ['.']).map
      (fun r => (r.1.tmp.nodes 0).ops) = some .tmpfsDir := by decide +kernel
  have found : (resolveParentDir (geometryOf (smallBoot 1#8 1#8)) fullFuel mountedVolume rootShell ['.']).bind
      (fun r => r.2.toOption) = some (.tmp 0, ['.']) := by decide +kernel
  have zero : (processMkdir (geometryOf (smallBoot 1#8 1#8)) fullFuel mountedVolume rootShell ['.']).map (·.2) = some 0 := by
    decide +kernel
  have root : (processMkdir (geometryOf (smallBoot 1#8 1#8)) fullFuel mountedVolume rootShell ['.']).bind (fun r =>
      (vfsResolvePathCwd (geometryOf (smallBoot 1#8 1#8)) fullFuel r.1 rootShell.cwd ['.']).bind (·.2)) = some (.tmp 0) := by
    decide +kernel
  obtain ⟨⟨t, r⟩, resolved, ok⟩ := Option.bind_eq_some_iff.mp found
  obtain ⟨⟨u, e⟩, made, rfl⟩ := Option.map_eq_some_iff.mp zero
  rw [resolved] at parent
  cases r with
  | error e => cases ok
  | ok parts =>
    cases ok
    obtain ⟨w, arrived, -⟩ := meets t u 0 ['.'] resolved (Option.some.inj parent) made
    rw [made] at root
    dsimp only [Option.bind_some] at root
    rw [arrived] at root
    cases root

end Isunux.Mounts
