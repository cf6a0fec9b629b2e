import Isunux.MountNaming
import Isunux.OpenAtomic

/-! Calls that stay out of the FAT volume. What they do on the mounted tree is what they do on
the tree of tmpfs and the devices alone, where resolving a path changes nothing. -/
namespace Isunux.Mounts

open Route (Move trek walk)

def devForeign (devDir : Nat) : Foreign Drivers where
  lookup _ dir name := if dir = .tmp devDir then devfsLookup name else none
  parent _ _ := .dev
  name _ k := (devNames[k]?).getD []
  type _ _ := .file
  owner other k := other.devices k
  mutable _ _ := false
  create other _ _ := (other, -erofs)
  mkdir other _ _ := (other, -erofs)
  unlink other _ _ := (other, -erofs)
  chown other k uid gid := { other with devices := Function.update other.devices k (uid, gid, (other.devices k).2.2) }
  size _ _ := none
  reads _ := true
  writes _ := true
  console := 0
  console_reads := rfl
  console_writes := rfl

/-- Where the vnode stands in that tree; vnodes of the volume come behind the devices. -/
def Vnode.place : Vnode → Place
  | .tmp i => .tmp i
  | .dev k => .foreign k
  | .fat j => .foreign (devNames.length + j)

def Ashore : Vnode → Prop
  | .fat _ => False
  | _ => True

section Walks

variable {g : Geometry} {fuel : Nat} {s t : Files Drivers} {kids : Nat → List Nat} {v w : Vnode} {q : List Char}
  {ms ns : List (Move (List Char))}

theorem ashore_parentOf (here : Ashore v) : Ashore (parentOf s v) := by
  cases v with
  | tmp i => exact trivial
  | dev k => exact trivial
  | fat j => exact here.elim

theorem ashore_lookup {a : List Char} (step : nearLookup s v a = some w) : Ashore w := by
  rcases nearLookup_cases step with ⟨_, _, -, rfl, -⟩ | ⟨_, _, -, rfl, -⟩ <;> exact trivial

theorem ashore_walk (here : Ashore v) (arrived : walk (parentOf s) (nearLookup s) v ms = some w) : Ashore w := by
  induction ms generalizing v with
  | nil =>
    cases arrived
    exact here
  | cons m ms ih =>
    cases m with
    | up => exact ih (ashore_parentOf here) arrived
    | down a =>
      obtain ⟨next, step, later⟩ := Option.bind_eq_some_iff.mp arrived
      exact ih (ashore_lookup step) later

theorem lookup_place (here : Ashore v) (a : List Char) :
    s.lookup (devForeign s.devDir) v.place a = (nearLookup s v a).map Vnode.place := by
  cases v with
  | tmp i =>
    unfold Files.lookup nearLookup
    simp only [Vnode.place, dirOps]
    cases ops : (s.tmp.nodes i).ops with
    | tmpfsFile => rfl
    | tmpfsDir =>
      dsimp only
      cases tmpfsDirLookup s.tmp i a <;> rfl
    | foreign =>
      dsimp only [devForeign]
      by_cases dev : i = s.devDir
      · rw [if_pos (congrArg Place.tmp dev), if_pos dev]
        dsimp only
        cases devfsLookup a <;> rfl
      · rw [if_neg fun same => dev (Place.tmp.inj same), if_neg dev]
        rfl
  | dev k => rfl
  | fat j => exact here.elim

theorem parentOf_place (here : Ashore v) : s.parentOf (devForeign s.devDir) v.place = (parentOf s v).place := by
  cases v with
  | tmp i => rfl
  | dev k => rfl
  | fat j => exact here.elim

theorem walk_place (here : Ashore v) :
    walk (s.parentOf (devForeign s.devDir)) (s.lookup (devForeign s.devDir)) v.place ms =
      (walk (parentOf s) (nearLookup s) v ms).map Vnode.place := by
  induction ms generalizing v with
  | nil => rfl
  | cons m ms ih =>
    cases m with
    | up =>
      rw [walk, parentOf_place here]
      exact ih (ashore_parentOf here)
    | down a =>
      rw [walk, walk, lookup_place here]
      cases step : nearLookup s v a with
      | none => rfl
      | some next => exact ih (ashore_lookup step)

theorem dry_append : Dry s v (ms ++ ns) ↔
    Dry s v ms ∧ ∀ w, walk (parentOf s) (nearLookup s) v ms = some w → Dry s w ns := by
  induction ms generalizing v with
  | nil =>
    refine ⟨fun dry => ⟨trivial, fun w same => ?_⟩, fun dry => dry.2 v rfl⟩
    cases same
    exact dry
  | cons m ms ih =>
    cases m with
    | up => exact ih
    | down a =>
      constructor
      · rintro ⟨here, later⟩
        refine ⟨⟨here, fun w step => (ih.mp (later w step)).1⟩, fun w arrived => ?_⟩
        obtain ⟨next, step, rest⟩ := Option.bind_eq_some_iff.mp arrived
        exact (ih.mp (later next step)).2 w rest
      · rintro ⟨⟨here, later⟩, last⟩
        refine ⟨here, fun w step => ih.mpr ⟨later w step, fun x arrived => last x ?_⟩⟩
        rw [walk, step]
        exact arrived

/-- No lookup on the way of the path is one in the volume, and its directory is none of it. -/
def StaysNear (s : Files Drivers) (q : List Char) : Prop :=
  Dry s (.tmp 0) (wayTo q ++ route (lastName q)) ∧
    ∀ v, walk (parentOf s) (nearLookup s) (.tmp 0) (wayTo q) = some v → ∀ x, dirOps s v ≠ .fat x

def WayNear (s : Files Drivers) (q : List Char) : Prop :=
  Dry s (.tmp 0) (wayTo q) ∧
    ∀ v, walk (parentOf s) (nearLookup s) (.tmp 0) (wayTo q) = some v → ∀ x, dirOps s v ≠ .fat x

theorem StaysNear.way (near : StaysNear s q) : WayNear s q := ⟨(dry_append.mp near.1).1, near.2⟩

variable (g fuel) in
theorem resolve_near (dry : Dry s (.tmp 0) (wayTo q ++ route (lastName q))) :
    ∃ found : Option Vnode, vfsResolvePath g fuel s q = some (s, found) ∧ (∀ v, found = some v → Ashore v) ∧
      Isunux.vfsResolvePath (devForeign s.devDir) s q = found.map Vnode.place := by
  by_cases absolute : q.head? = some '/'
  · refine ⟨_, (resolve_way s absolute).trans dry.trek, fun v arrived => ashore_walk (v := .tmp 0) trivial arrived, ?_⟩
    rw [vfsResolvePath_way _ s absolute]
    exact walk_place (v := .tmp 0) trivial
  · refine ⟨none, ?_, nofun, ?_⟩
    · unfold vfsResolvePath
      split
      · exact absurd rfl absolute
      · rfl
    · unfold Isunux.vfsResolvePath
      split
      · exact absurd rfl absolute
      · rfl

variable (g fuel) in
theorem resolveSplit_near (dry : Dry s (.tmp 0) (wayTo q)) (short : q.length < vfsMaxPath) :
    ∃ found : Option Vnode, vfsResolvePath g fuel s (vfsSplitPath q).1 = some (s, found) ∧
      (∀ v, found = some v → Ashore v ∧ walk (parentOf s) (nearLookup s) (.tmp 0) (wayTo q) = some v) ∧
      Isunux.vfsResolvePath (devForeign s.devDir) s (vfsSplitPath q).1 = found.map Vnode.place := by
  by_cases absolute : q.head? = some '/'
  · refine ⟨_, (resolve_splitDir s absolute short).trans dry.trek,
      fun v arrived => ⟨ashore_walk (v := .tmp 0) trivial arrived, arrived⟩, ?_⟩
    rw [splitDir_way _ s absolute short]
    exact walk_place (v := .tmp 0) trivial
  · have none : (vfsSplitPath q).1.head? ≠ some '/' := fun start => absolute (absolute_of_split short start)
    refine ⟨Option.none, ?_, nofun, ?_⟩
    · unfold vfsResolvePath
      split
      · rename_i same
        rw [same] at none
        exact absurd rfl none
      · rfl
    · unfold Isunux.vfsResolvePath
      split
      · rename_i same
        rw [same] at none
        exact absurd rfl none
      · rfl

theorem typeOf_place (here : Ashore v) : s.typeOf (devForeign s.devDir) v.place = typeOf s v := by
  cases v with
  | tmp i => rfl
  | dev k => rfl
  | fat j => exact here.elim

theorem ownerOf_place (here : Ashore v) : s.ownerOf (devForeign s.devDir) v.place = ownerOf s v := by
  cases v with
  | tmp i => rfl
  | dev k => rfl
  | fat j => exact here.elim

theorem mutable_place (here : Ashore v) (away : ∀ x, dirOps s v ≠ .fat x) :
    s.mutable (devForeign s.devDir) v.place = hasCalls s v := by
  cases v with
  | tmp i =>
    unfold Files.mutable hasCalls
    simp only [Vnode.place, dirOps] at away ⊢
    cases ops : (s.tmp.nodes i).ops with
    | tmpfsFile => rfl
    | tmpfsDir => rfl
    | foreign =>
      rw [ops] at away
      dsimp only [devForeign] at away ⊢
      by_cases dev : i = s.devDir
      · rw [if_pos dev]
      · rw [if_neg dev] at away
        exact absurd rfl (away none)
  | dev k => rfl
  | fat j => exact here.elim

variable (g fuel) in
theorem resolveParentDir_near {who : Process} {path : List Char} (near : WayNear s (vfsCombinePath who.cwd path)) :
    ∃ found : Except Int (Vnode × List Char), resolveParentDir g fuel s who path = some (s, found) ∧
      (∀ v name, found = .ok (v, name) → Ashore v ∧ (∀ x, dirOps s v ≠ .fat x) ∧
        walk (parentOf s) (nearLookup s) (.tmp 0) (wayTo (vfsCombinePath who.cwd path)) = some v) ∧
      Isunux.resolveParentDir (devForeign s.devDir) s who path = found.map fun r => (r.1.place, r.2) := by
  obtain ⟨found, resolved, ashore, other⟩ := resolveSplit_near g fuel near.1 (combined_length who.cwd path)
  unfold resolveParentDir Isunux.resolveParentDir
  dsimp only
  by_cases none : (vfsSplitPath (vfsCombinePath who.cwd path)).2 = []
  · rw [if_pos none, if_pos none]
    exact ⟨.error (-einval), rfl, nofun, rfl⟩
  rw [if_neg none, if_neg none, resolved, other]
  cases found with
  | none => exact ⟨.error (-enoent), rfl, nofun, rfl⟩
  | some v =>
    obtain ⟨here, arrived⟩ := ashore v rfl
    dsimp only [Option.map_some]
    rw [typeOf_place here]
    by_cases isDir : typeOf s v = .dir
    · rw [if_pos isDir, if_pos isDir]
      refine ⟨.ok (v, _), rfl, fun w name same => ?_, rfl⟩
      cases same
      exact ⟨here, near.2 v arrived, arrived⟩
    · rw [if_neg isDir, if_neg isDir]
      exact ⟨.error (-enotdir), rfl, nofun, rfl⟩

end Walks

section Calls

variable {g : Geometry} {fuel : Nat} {s t : Files Drivers} {kids : Nat → List Nat} {v : Vnode} {who : Process}
  {path name : List Char} {ms : List (Move (List Char))} {W : Nat → Prop} {uid gid : Word} {d i : Nat} {n : TmpfsNode}
  {pmm : Pmm}

theorem parentCall_near {op : Files Drivers → Nat → List Char → Files Drivers × Int}
    {fat : Fat → Option Nat → List (BitVec 8) → Option (Fat × Int)} (foreign : Drivers → Place → List Char → Drivers × Int)
    {owned : Bool} (h : Hosted s kids)
    (keeps : owned = true → ∀ d name, d < s.tmp.count → (s.tmp.nodes d).ops = .tmpfsDir →
      ((op s d name).1.tmp.nodes d).ops = .tmpfsDir)
    (near : WayNear s (vfsCombinePath who.cwd path)) :
    parentCall g fuel s (fun s => dirCall s op fat) owned who path =
      some (Isunux.parentCall (devForeign s.devDir) s (dirOp s op foreign) owned who path) := by
  obtain ⟨found, resolved, ok, other⟩ := resolveParentDir_near g fuel near
  obtain ⟨-, -, target⟩ := inside_resolveParentDir h resolved
  unfold parentCall Isunux.parentCall
  rw [resolved, other]
  cases found with
  | error e => rfl
  | ok r =>
    obtain ⟨v, name⟩ := r
    obtain ⟨here, away, -⟩ := ok v name rfl
    dsimp only [Except.map]
    rw [mutable_place here away, ownerOf_place here]
    by_cases calls : hasCalls s v = false
    · rw [if_pos calls, if_pos calls]
    rw [if_neg calls, if_neg calls]
    by_cases denied : vfsCheckPerm (ownerOf s v) who.uid who.gid (permBits .write) = false
    · rw [if_pos denied, if_pos denied]
    rw [if_neg denied, if_neg denied]
    obtain ⟨d, native⟩ : ∃ d, dirOps s v = .tmpfs d := by
      unfold hasCalls at calls
      split at calls
      · exact ⟨_, by assumption⟩
      · rename_i x volume
        exact absurd volume (away x)
      · exact absurd rfl calls
    obtain ⟨rfl, ops⟩ := dirOps_tmpfs native
    have bound : d < s.tmp.count := (target _ _ rfl).1
    have home : dirCall s op fat (.tmp d) name = some (op s d name) := by simp only [dirCall, native]
    have home' : dirOp s op foreign (Vnode.tmp d).place name = op s d name := if_pos ops
    rw [home, home']
    dsimp only
    by_cases success : owned = true ∧ (op s d name).2 = 0
    · have still := keeps success.1 d name bound ops
      rw [if_pos success, if_pos success]
      have looked : lookup g fuel (op s d name).1 (.tmp d) name =
          some ((op s d name).1, (tmpfsDirLookup (op s d name).1.tmp d name).map .tmp) := by
        unfold lookup
        simp only [dirOps, still]
      have looked' : (op s d name).1.lookup (devForeign s.devDir) (Vnode.tmp d).place name =
          (tmpfsDirLookup (op s d name).1.tmp d name).map .tmp := by
        unfold Files.lookup
        simp only [Vnode.place, still]
      rw [looked, looked']
      cases tmpfsDirLookup (op s d name).1.tmp d name with
      | none => rfl
      | some i => rfl
    · rw [if_neg success, if_neg success]

theorem processCreate_near (h : Hosted s kids) (near : WayNear s (vfsCombinePath who.cwd path)) :
    processCreate g fuel s who path = some (Isunux.processCreate (devForeign s.devDir) s who path) := by
  refine parentCall_near _ h (fun _ d name bound native => ?_) near
  rcases tmpfsDirCreate_adds s d name with ⟨same, -⟩ | ⟨-, -, eq⟩
  · rw [same]
    exact native
  · rw [eq]
    exact (TmpfsNode.label_eq (grow_label bound (Nat.ne_of_lt bound))).ops.trans native

theorem processUnlink_near (h : Hosted s kids) (near : WayNear s (vfsCombinePath who.cwd path)) :
    processUnlink g fuel s who path = some (Isunux.processUnlink (devForeign s.devDir) s who path) :=
  parentCall_near _ h nofun near

variable (pmm) in
theorem Dry.grown (h : Hosted s kids) (made : Makes W uid gid s.tmp (s.tmp.grow d n) d n)
    (dir : (s.tmp.nodes d).type = .dir) {x : Vnode} (here : Outside s v) (dry : Dry s v ms)
    (arrived : walk (parentOf s) (nearLookup s) v ms = some x) :
    Dry (withEntry d n pmm s) v ms ∧
      walk (parentOf (withEntry d n pmm s)) (nearLookup (withEntry d n pmm s)) v ms = some x := by
  have ops : ∀ {v}, Outside s v → dirOps (withEntry d n pmm s) v = dirOps s v := by
    intro v here
    cases v with
    | tmp i => exact dirOps_withEntry made.bound here
    | dev k => rfl
    | fat j => exact here.elim
  induction ms generalizing v with
  | nil => exact ⟨trivial, arrived⟩
  | cons m ms ih =>
    cases m with
    | up =>
      have same : parentOf (withEntry d n pmm s) v = parentOf s v ∧ Outside s (parentOf s v) := by
        cases v with
        | tmp i =>
          refine ⟨?_, (h.tree.upward i here).2⟩
          have parent : ((withEntry d n pmm s).tmp.nodes i).parent = (s.tmp.nodes i).parent :=
            (TmpfsNode.label_eq (grow_label made.bound (Nat.ne_of_lt here))).parent
          simp only [parentOf, parent]
        | dev k => exact ⟨rfl, (h.dirs s.devDir (.inl rfl)).1⟩
        | fat j => exact here.elim
      have later := ih same.2 dry arrived
      unfold Dry walk
      rwa [same.1]
    | down a =>
      obtain ⟨off, beyond⟩ := dry
      obtain ⟨w, step, later⟩ := Option.bind_eq_some_iff.mp arrived
      have again : nearLookup (withEntry d n pmm s) v a = some w ∧ Outside s w := by
        rcases nearLookup_cases step with ⟨e, i, rfl, rfl, native, hit⟩ | ⟨e, k, rfl, rfl, foreign, dev, hit⟩
        · have other : e ≠ d ∨ a ≠ n.name := by
            by_contra same
            obtain ⟨rfl, rfl⟩ := not_or.mp same |>.imp not_not.mp not_not.mp
            rw [made.fresh] at hit
            cases hit
          have found : tmpfsDirLookup (withEntry d n pmm s).tmp e a = some i :=
            (lookup_grow h.tree made dir other).trans hit
          refine ⟨?_, h.tree.inside e i (h.tree.lookup_mem hit)⟩
          have here' : dirOps (withEntry d n pmm s) (.tmp e) = .tmpfs e := by
            rw [ops here]
            simp only [dirOps, native]
          unfold nearLookup
          rw [here']
          dsimp only
          rw [found]
          rfl
        · refine ⟨?_, trivial⟩
          have here' : dirOps (withEntry d n pmm s) (.tmp e) = .devfs := by
            rw [ops here]
            simp only [dirOps, foreign, if_pos dev]
          unfold nearLookup
          rw [here']
          dsimp only
          rw [hit]
          rfl
      obtain ⟨dry', walked⟩ := ih again.2 (beyond w step) later
      refine ⟨⟨?_, fun w' step' => ?_⟩, ?_⟩
      · rw [ops here]
        exact off
      · rw [again.1] at step'
        cases step'
        exact dry'
      · rw [walk, again.1]
        exact walked

theorem Dry.fewer (ups : ∀ v, Ashore v → parentOf t v = parentOf s v) (ops : ∀ v, Ashore v → dirOps t v = dirOps s v)
    (looks : ∀ v a w, Ashore v → nearLookup t v a = some w → nearLookup s v a = some w) (here : Ashore v)
    (dry : Dry s v ms) :
    Dry t v ms ∧ ∀ x, walk (parentOf t) (nearLookup t) v ms = some x → walk (parentOf s) (nearLookup s) v ms = some x := by
  induction ms generalizing v with
  | nil => exact ⟨trivial, fun _ same => same⟩
  | cons m ms ih =>
    cases m with
    | up =>
      have later := ih (ashore_parentOf here) dry
      unfold Dry walk
      rwa [ups v here]
    | down a =>
      obtain ⟨off, beyond⟩ := dry
      refine ⟨⟨?_, fun w step => ?_⟩, fun x arrived => ?_⟩
      · rw [ops v here]
        exact off
      · exact (ih (ashore_lookup step) (beyond w (looks v a w here step))).1
      · obtain ⟨w, step, later⟩ := Option.bind_eq_some_iff.mp arrived
        have before := looks v a w here step
        rw [walk, before]
        exact (ih (ashore_lookup step) (beyond w before)).2 x later

theorem wayNear_without (r : Regular (devForeign s.devDir) s kids) (entry : tmpfsDirLookup s.tmp d name = some i)
    (pmm : Pmm) {q : List Char} (near : WayNear s q) : WayNear (s.without d i pmm) q := by
  have label := fun j => TmpfsNode.label_eq (unchain_label s.tmp d i j)
  have ops : ∀ v, Ashore v → dirOps (s.without d i pmm) v = dirOps s v := by
    intro v here
    cases v with
    | tmp j =>
      have same : ((s.without d i pmm).tmp.nodes j).ops = (s.tmp.nodes j).ops := (label j).ops
      unfold dirOps
      dsimp only
      rw [same]
      rfl
    | dev k => rfl
    | fat j => exact here.elim
  have ups : ∀ v, Ashore v → parentOf (s.without d i pmm) v = parentOf s v := by
    intro v here
    cases v with
    | tmp j =>
      have same : ((s.without d i pmm).tmp.nodes j).parent = (s.tmp.nodes j).parent := (label j).parent
      simp only [parentOf, same]
    | dev k => rfl
    | fat j => exact here.elim
  have looks : ∀ v a w, Ashore v → nearLookup (s.without d i pmm) v a = some w → nearLookup s v a = some w := by
    intro v a w here step
    unfold nearLookup at step ⊢
    rw [ops v here] at step
    cases native : dirOps s v with
    | none =>
      rw [native] at step
      cases step
    | fat x =>
      rw [native] at step
      cases step
    | devfs =>
      rw [native] at step
      exact step
    | tmpfs e =>
      rw [native] at step
      obtain ⟨j, hit, rfl⟩ := Option.map_eq_some_iff.mp step
      have taken : tmpfsDirLookup (s.without d i pmm).tmp e a =
          if e = d ∧ a = name then none else tmpfsDirLookup s.tmp e a := lookup_unchain _ r entry e a
      rw [taken] at hit
      split at hit
      · cases hit
      · dsimp only
        rw [hit]
        rfl
  have root : Ashore (.tmp 0) := trivial
  obtain ⟨dry, back⟩ := Dry.fewer ups ops looks root near.1
  refine ⟨dry, fun v arrived => ?_⟩
  rw [ops v (ashore_walk root arrived)]
  exact near.2 v (back v arrived)

end Calls

end Isunux.Mounts
