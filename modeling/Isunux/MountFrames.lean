import Isunux.Mounts
import Isunux.Naming

/-! What the calls on the mounted tree leave alone. A lookup that goes into the FAT volume
changes the driver and nothing else; names, parents, owners and modes of old nodes
stay, but where a call sets an owner or a mode. -/
namespace Isunux.Mounts

section Frames

variable {g : Geometry} {fuel : Nat} {s t u : Files Drivers} {kids : Nat → List Nat} {v : Option Vnode} {d i : Nat}

/-- The tree of tmpfs with its mounts. Children know their directory, and no directory has
a name twice. -/
structure Rooted (s : Files Drivers) (kids : Nat → List Nat) : Prop where
  hosted : Hosted s kids
  parent : ∀ d i, i ∈ kids d → (s.tmp.nodes i).parent = d
  names : ∀ d, ((kids d).map fun i => (s.tmp.nodes i).name).Nodup

theorem Rooted.lookup (r : Rooted s kids) (mem : i ∈ kids d) : tmpfsDirLookup s.tmp d (s.tmp.nodes i).name = some i := by
  unfold tmpfsDirLookup
  rw [r.hosted.tree.children]
  exact find_unique (r.names d) mem

/-- Only the FAT driver has changed. -/
structure Still (s t : Files Drivers) : Prop where
  tmp : t.tmp = s.tmp
  devices : t.other.devices = s.other.devices
  mounts : t.devDir = s.devDir ∧ t.mntDir = s.mntDir

theorem Still.refl : Still s s := ⟨rfl, rfl, rfl, rfl⟩

theorem Still.trans (h : Still s t) (h' : Still t u) : Still s u :=
  ⟨h'.tmp.trans h.tmp, h'.devices.trans h.devices, h'.mounts.1.trans h.mounts.1, h'.mounts.2.trans h.mounts.2⟩

theorem withFat_still (fat : Fat) : Still s (withFat s fat) := ⟨rfl, rfl, rfl, rfl⟩

theorem Still.hosted (h : Still s t) (hosted : Hosted s kids) : Hosted t kids := hosted.same h.tmp h.mounts

theorem Still.rooted (h : Still s t) (r : Rooted s kids) : Rooted t kids := by
  refine ⟨h.hosted r.hosted, fun d i mem => ?_, fun d => ?_⟩
  · rw [h.tmp]
    exact r.parent d i mem
  · rw [h.tmp]
    exact r.names d

/-- A vnode of tmpfs is one that was handed out. -/
def Inside (s : Files Drivers) : Vnode → Prop
  | .tmp i => i < s.tmp.count
  | _ => True

theorem Still.inside (h : Still s t) {w : Vnode} (here : Inside s w) : Inside t w := by
  cases w with
  | tmp i =>
    unfold Inside at here ⊢
    rw [h.tmp]
    exact here
  | dev k => exact trivial
  | fat j => exact trivial

theorem inside_parentOf (h : Hosted s kids) {w : Vnode} (here : Inside s w) : Inside s (parentOf s w) := by
  cases w with
  | tmp i => exact (h.tree.upward i here).2
  | dev k => exact (h.dirs s.devDir (.inl rfl)).1
  | fat j =>
    simp only [Mounts.parentOf]
    cases parent : (s.other.fat.nodes j).parent with
    | none => exact (h.dirs s.mntDir (.inr rfl)).1
    | some dir => exact trivial

theorem lookup_still {dir : Vnode} {name : List Char} {found : Option Vnode}
    (done : Mounts.lookup g fuel s dir name = some (t, found)) : Still s t := by
  unfold Mounts.lookup at done
  split at done
  · cases done
    exact .refl
  · cases done
    exact .refl
  · cases done
    exact .refl
  · obtain ⟨r, -, result⟩ := Option.map_eq_some_iff.mp done
    cases result
    exact withFat_still r.1

theorem inside_lookup (h : Hosted s kids) {dir w : Vnode} {name : List Char}
    (done : Mounts.lookup g fuel s dir name = some (t, some w)) : Inside t w := by
  unfold Mounts.lookup at done
  split at done
  · cases done
  · rename_i e _
    obtain ⟨state, found⟩ := Prod.mk.inj (Option.some.inj done)
    obtain ⟨i, hit, rfl⟩ := Option.map_eq_some_iff.mp found
    exact state ▸ h.tree.inside e i (h.tree.lookup_mem hit)
  · obtain ⟨-, found⟩ := Prod.mk.inj (Option.some.inj done)
    obtain ⟨k, -, rfl⟩ := Option.map_eq_some_iff.mp found
    exact trivial
  · obtain ⟨r, -, result⟩ := Option.map_eq_some_iff.mp done
    obtain ⟨-, found⟩ := Prod.mk.inj result
    obtain ⟨j, -, rfl⟩ := Option.map_eq_some_iff.mp found
    exact trivial

theorem inside_resolveLoop (h : Hosted s kids) {n : Nat} {current : Vnode} {p : List Char} {found : Option Vnode}
    (here : Inside s current) (done : resolveLoop g fuel n s current p = some (t, found)) :
    Still s t ∧ ∀ w, found = some w → Inside t w := by
  have stays : ∀ {s w} {found : Option Vnode}, Inside s w → some (s, some w) = some (t, found) →
      Still s t ∧ ∀ w, found = some w → Inside t w := by
    intro s w found here done
    cases done
    refine ⟨.refl, fun w' same => ?_⟩
    cases same
    exact here
  induction n generalizing s current p with
  | zero => exact stays here done
  | succ n ih =>
    cases p with
    | nil => exact stays here done
    | cons a p =>
      simp only [Mounts.resolveLoop] at done
      split at done
      · exact ih h here done
      split at done
      · exact ih h (inside_parentOf h here) done
      split at done
      · cases done
      · rename_i step
        cases done
        exact ⟨lookup_still step, nofun⟩
      · rename_i next step
        have still := lookup_still step
        obtain ⟨still', inside⟩ := ih (still.hosted h) (inside_lookup h step) done
        exact ⟨still.trans still', inside⟩

theorem inside_resolve (h : Hosted s kids) {q : List Char} {found : Option Vnode}
    (done : vfsResolvePath g fuel s q = some (t, found)) : Still s t ∧ ∀ w, found = some w → Inside t w := by
  unfold Mounts.vfsResolvePath at done
  split at done
  · have root : Inside s (.tmp 0) := h.tree.root.2
    exact inside_resolveLoop h root done
  · cases done
    exact ⟨.refl, nofun⟩

theorem inside_resolveParentDir (h : Hosted s kids) {who : Process} {path : List Char}
    {found : Except Int (Vnode × List Char)} (done : resolveParentDir g fuel s who path = some (t, found)) :
    Still s t ∧ (∀ e, found = .error e → e < 0) ∧ ∀ dir name, found = .ok (dir, name) →
      Inside t dir ∧ typeOf t dir = .dir ∧ name.length < vfsMaxName := by
  unfold Mounts.resolveParentDir at done
  dsimp only at done
  split at done
  · cases done
    refine ⟨.refl, fun e same => ?_, nofun⟩
    cases same
    decide
  split at done
  · cases done
  · rename_i step
    cases done
    refine ⟨(inside_resolve h step).1, fun e same => ?_, nofun⟩
    cases same
    decide
  · rename_i dir step
    obtain ⟨still, inside⟩ := inside_resolve h step
    split at done
    · rename_i isDir
      cases done
      refine ⟨still, nofun, fun dir' name same => ?_⟩
      cases same
      refine ⟨inside dir rfl, isDir, ?_⟩
      have cut : ∀ w : List Char, (w.take (vfsMaxName - 1)).length < vfsMaxName := fun w =>
        Nat.lt_of_le_of_lt (List.length_take_le (vfsMaxName - 1) w) (by decide)
      unfold vfsSplitPath
      split <;> exact cut _
    · cases done
      refine ⟨still, fun e same => ?_, nofun⟩
      cases same
      decide

/-- From `s` the calls have come to `t`; `v` is the vnode that they gave an owner or a mode. -/
structure Evolves (s t : Files Drivers) (v : Option Vnode) : Prop where
  rooted : ∃ kids, Rooted t kids
  count : s.tmp.count ≤ t.tmp.count
  labels : ∀ i < s.tmp.count, (t.tmp.nodes i).type = (s.tmp.nodes i).type ∧
    (t.tmp.nodes i).ops = (s.tmp.nodes i).ops ∧ (t.tmp.nodes i).name = (s.tmp.nodes i).name ∧
    (t.tmp.nodes i).parent = (s.tmp.nodes i).parent
  owners : ∀ i < s.tmp.count, v ≠ some (.tmp i) → ownerOf t (.tmp i) = ownerOf s (.tmp i)
  devices : ∀ k, v ≠ some (.dev k) → t.other.devices k = s.other.devices k
  mounts : t.devDir = s.devDir ∧ t.mntDir = s.mntDir

theorem Still.evolves (h : Still s t) (r : Rooted s kids) : Evolves s t v := by
  refine ⟨⟨kids, h.rooted r⟩, ?_, fun i _ => ?_, fun i _ _ => ?_, fun k _ => ?_, h.mounts⟩
  · rw [h.tmp]
  · rw [h.tmp]
    exact ⟨rfl, rfl, rfl, rfl⟩
  · simp only [ownerOf, h.tmp]
  · rw [h.devices]

theorem Evolves.trans (h : Evolves s t none) (h' : Evolves t u v) : Evolves s u v := by
  refine ⟨h'.rooted, h.count.trans h'.count, fun i low => ?_, fun i low other => ?_, fun k other => ?_, ?_⟩
  · obtain ⟨type, ops, name, parent⟩ := h.labels i low
    obtain ⟨type', ops', name', parent'⟩ := h'.labels i (Nat.lt_of_lt_of_le low h.count)
    exact ⟨type'.trans type, ops'.trans ops, name'.trans name, parent'.trans parent⟩
  · exact (h'.owners i (Nat.lt_of_lt_of_le low h.count) other).trans (h.owners i low nofun)
  · exact (h'.devices k other).trans (h.devices k nofun)
  · exact ⟨h'.mounts.1.trans h.mounts.1, h'.mounts.2.trans h.mounts.2⟩

theorem Evolves.fresh {w : Vnode} (h : Evolves s t (some w)) (new : ∀ i, w = .tmp i → s.tmp.count ≤ i)
    (file : ∀ k, w ≠ .dev k) : Evolves s t none := by
  refine ⟨h.rooted, h.count, h.labels, fun i low _ => h.owners i low fun same => ?_,
    fun k _ => h.devices k fun same => file k (Option.some.inj same), h.mounts⟩
  exact Nat.not_lt_of_le (new i (Option.some.inj same)) low

theorem Rooted.setOwner (r : Rooted s kids) (owner : Word × Word × Word) (w : Vnode) :
    Evolves s (setOwner s owner w) (some w) := by
  cases w with
  | tmp i =>
    have at_ : ∀ j, ((Mounts.setOwner s owner (.tmp i)).tmp.nodes j) =
        if j = i then { s.tmp.nodes i with uid := owner.1, gid := owner.2.1, mode := owner.2.2 } else s.tmp.nodes j :=
      fun j => Function.update_apply s.tmp.nodes i _ j
    have entries : SameEntries s (Mounts.setOwner s owner (.tmp i)) :=
      .set rfl ⟨rfl, rfl⟩ ⟨rfl, rfl⟩ ⟨rfl, rfl⟩ Iff.rfl rfl
    refine ⟨⟨kids, entries.hosted r.hosted, fun d j mem => ?_, fun d => ?_⟩, le_rfl, fun j _ => ?_, fun j _ other => ?_,
      fun _ _ => rfl, rfl, rfl⟩
    · rw [(entries.types j).2]
      exact r.parent d j mem
    · rw [List.map_congr_left fun j _ => entries.names j]
      exact r.names d
    · rw [at_ j]
      split
      · rename_i here
        rw [here]
        exact ⟨rfl, rfl, rfl, rfl⟩
      · exact ⟨rfl, rfl, rfl, rfl⟩
    · have apart : j ≠ i := fun same => other (congrArg (fun i => some (Vnode.tmp i)) same.symm)
      simp only [ownerOf, at_ j, if_neg apart]
  | dev k =>
    refine ⟨⟨kids, ⟨r.hosted.same rfl ⟨rfl, rfl⟩, r.parent, r.names⟩⟩, le_rfl, fun _ _ => ⟨rfl, rfl, rfl, rfl⟩,
      fun _ _ _ => rfl, fun k' other => ?_, rfl, rfl⟩
    exact Function.update_of_ne (fun same => other (congrArg (fun k => some (Vnode.dev k)) same.symm)) _ _
  | fat j =>
    have still : Still s (Mounts.setOwner s owner (.fat j)) := ⟨rfl, rfl, rfl, rfl⟩
    exact still.evolves r

section Trees

variable {n : TmpfsNode} {name : List Char}

theorem Rooted.grow (r : Rooted s kids) (bound : d < s.tmp.count) (dir : (s.tmp.nodes d).type = .dir)
    (room : s.tmp.count < tmpfsMaxNodes) (fresh : FreshNode d name n) (short : name.length < vfsMaxName)
    (absent : tmpfsDirLookup s.tmp d name = none) (pmm : Pmm) :
    Evolves s { s with tmp := s.tmp.grow d n, pmm := pmm } none ∧
      tmpfsDirLookup (s.tmp.grow d n) d name = some s.tmp.count := by
  have named : n.name = name := by
    rw [fresh.name, setName, List.take_of_length_le (Nat.le_sub_one_of_lt short)]
  have rooted : Rooted { s with tmp := s.tmp.grow d n, pmm := pmm } (withKid kids d s.tmp.count) := by
    refine ⟨r.hosted.grow bound dir room fresh.bare fresh.parent (opened_of_kind fresh.kind) rfl ⟨rfl, rfl⟩,
      fun e j mem => ?_, r.hosted.tree.names_grow r.names bound (named ▸ absent)⟩
    rcases mem_withKid mem with old | ⟨rfl, rfl⟩
    · rw [(TmpfsNode.label_eq (grow_label bound (Nat.ne_of_lt (r.hosted.tree.inside e j old)))).parent]
      exact r.parent e j old
    · rw [grow_newNode n bound]
      exact fresh.parent
  refine ⟨⟨⟨_, rooted⟩, Nat.le_succ _, fun j low => ?_, fun j low _ => ?_, fun _ _ => rfl, rfl, rfl⟩, ?_⟩
  · have same := TmpfsNode.label_eq (grow_label (n := n) bound (Nat.ne_of_lt low))
    exact ⟨same.type, same.ops, same.name, same.parent⟩
  · have same := TmpfsNode.label_eq (grow_label (n := n) bound (Nat.ne_of_lt low))
    simp only [ownerOf, same.owner.1, same.owner.2.1, same.owner.2.2]
  · have mem : s.tmp.count ∈ withKid kids d s.tmp.count d := by
      rw [withKid, Function.update_self]
      exact List.mem_cons_self
    have found := rooted.lookup mem
    rw [grow_newNode n bound] at found
    rwa [named] at found

theorem Rooted.unchain (r : Rooted s kids) (listed : i ∈ kids d) (tmp : t.tmp = s.tmp.unchain d i)
    (other : t.other = s.other) (mounts : t.devDir = s.devDir ∧ t.mntDir = s.mntDir) : Evolves s t none := by
  have same : ∀ j, SameLabel (t.tmp.nodes j) (s.tmp.nodes j) := by
    intro j
    rw [tmp]
    exact TmpfsNode.label_eq (unchain_label s.tmp d i j)
  refine ⟨⟨_, r.hosted.unchain listed tmp mounts, fun e j mem => ?_, fun e => ?_⟩, ?_, fun j _ => ?_, fun j _ _ => ?_,
    fun _ _ => by rw [other], mounts⟩
  · rw [(same j).parent]
    exact r.parent e j ((mem_withoutKid (r.hosted.tree.nodup d)).mp mem).1
  · rw [tmp]
    exact names_unchain r.names e
  · rw [tmp, unchain_count]
  · exact ⟨(same j).type, (same j).ops, (same j).name, (same j).parent⟩
  · simp only [ownerOf, (same j).owner.1, (same j).owner.2.1, (same j).owner.2.2]

end Trees

/-! Calls -/

theorem dirOps_tmpfs {dir : Vnode} (native : dirOps s dir = .tmpfs d) :
    dir = .tmp d ∧ (s.tmp.nodes d).ops = .tmpfsDir := by
  unfold dirOps at native
  split at native
  · split at native
    · cases native
    · rename_i ops
      cases native
      exact ⟨rfl, ops⟩
    · split at native <;> cases native
  · cases native
  · split at native <;> cases native

theorem lookup_volume {dir w : Vnode} {name : List Char} {x : Option Nat} (volume : dirOps s dir = .fat x)
    (still : Still s t) (hit : Mounts.lookup g fuel t dir name = some (u, some w)) : ∃ j, w = .fat j := by
  have away : dirOps t dir = .none ∨ ∃ y, dirOps t dir = .fat y := by
    cases dir with
    | tmp i =>
      have same : dirOps t (.tmp i) = dirOps s (.tmp i) := by
        simp only [dirOps, still.tmp, still.mounts.1]
      exact .inr ⟨x, same.trans volume⟩
    | dev k => exact .inl rfl
    | fat j =>
      simp only [dirOps]
      split
      · exact .inr ⟨_, rfl⟩
      · exact .inl rfl
  unfold Mounts.lookup at hit
  rcases away with none | ⟨y, fat⟩
  · rw [none] at hit
    cases hit
  · rw [fat] at hit
    obtain ⟨r, -, result⟩ := Option.map_eq_some_iff.mp hit
    obtain ⟨-, found⟩ := Prod.mk.inj result
    obtain ⟨j, -, rfl⟩ := Option.map_eq_some_iff.mp found
    exact ⟨j, rfl⟩

theorem Rooted.makes (r : Rooted s kids) {op : Files Drivers → Nat → List Char → Files Drivers × Int}
    {fat : Fat → Option Nat → List (BitVec 8) → Option (Fat × Int)} (makes : MakesOrFails op) {dir : Vnode}
    {name : List Char} {e : Int} (inside : Inside s dir) (isDir : typeOf s dir = .dir) (short : name.length < vfsMaxName)
    (done : dirCall s op fat dir name = some (t, e)) :
    Evolves s t none ∧ (e = 0 → ∀ u w, Mounts.lookup g fuel t dir name = some (u, some w) →
      (∀ i, w = .tmp i → s.tmp.count ≤ i) ∧ ∀ k, w ≠ .dev k) := by
  unfold dirCall at done
  split at done
  · rename_i d native
    obtain ⟨rfl, ops⟩ := dirOps_tmpfs native
    rcases makes s d name with ⟨same, failed⟩ | ⟨absent, room, n, pmm, fresh, eq⟩
    · obtain ⟨rfl, rfl⟩ := Prod.mk.inj (Option.some.inj done)
      refine ⟨?_, fun zero => absurd zero (by omega)⟩
      rw [same]
      exact Still.refl.evolves r
    · rw [eq] at done
      cases done
      have bound : d < s.tmp.count := inside
      obtain ⟨evolves, found⟩ := r.grow bound isDir room fresh short absent pmm
      refine ⟨evolves, fun _ u w hit => ?_⟩
      have ops' : ((s.tmp.grow d n).nodes d).ops = .tmpfsDir := (evolves.labels d bound).2.1.trans ops
      unfold Mounts.lookup at hit
      simp only [dirOps, ops', found] at hit
      cases hit
      exact ⟨fun i same => by cases same; exact le_rfl, nofun⟩
  · rename_i x volume
    obtain ⟨result, -, eq⟩ := Option.map_eq_some_iff.mp done
    cases eq
    have still : Still s (withFat s result.1) := withFat_still result.1
    refine ⟨still.evolves r, fun _ u w hit => ?_⟩
    obtain ⟨j, rfl⟩ := lookup_volume volume still hit
    exact ⟨nofun, nofun⟩
  · cases done
    exact ⟨Still.refl.evolves r, fun zero => absurd zero (by decide)⟩

theorem Rooted.parentCall_makes (r : Rooted s kids) {op : Files Drivers → Nat → List Char → Files Drivers × Int}
    {fat : Fat → Option Nat → List (BitVec 8) → Option (Fat × Int)} (makes : MakesOrFails op) {owned : Bool}
    {who : Process} {path : List Char} {e : Int}
    (done : parentCall g fuel s (fun s => dirCall s op fat) owned who path = some (t, e)) : Evolves s t none := by
  unfold parentCall at done
  split at done
  · cases done
  · rename_i resolved
    cases done
    exact (inside_resolveParentDir r.hosted resolved).1.evolves r
  · rename_i s₁ dir name resolved
    obtain ⟨still, -, target⟩ := inside_resolveParentDir r.hosted resolved
    obtain ⟨inside, isDir, short⟩ := target dir name rfl
    have r₁ := still.rooted r
    split at done
    · cases done
      exact still.evolves r
    split at done
    · cases done
      exact still.evolves r
    split at done
    · cases done
    rename_i s₂ e₂ called
    obtain ⟨evolves, created⟩ := @Mounts.Rooted.makes g fuel _ _ _ r₁ _ _ makes _ _ _ inside isDir short called
    have made : Evolves s s₂ none := (still.evolves r).trans evolves
    obtain ⟨kids₂, r₂⟩ := made.rooted
    split at done
    · rename_i success
      split at done
      · cases done
      · rename_i looked
        cases done
        exact made.trans ((lookup_still looked).evolves r₂)
      · rename_i s₃ w looked
        obtain ⟨rfl, -⟩ := Prod.mk.inj (Option.some.inj done)
        obtain ⟨new, file⟩ := created success.2 s₃ w looked
        have still₃ := lookup_still looked
        have given := made.trans ((still₃.evolves r₂).trans
          ((still₃.rooted r₂).setOwner (who.uid, who.gid, (ownerOf s₃ w).2.2) w))
        refine given.fresh (fun i same => ?_) file
        rw [← still.tmp]
        exact new i same
    · cases done
      exact made

theorem tmpfsDirUnlink_other (s : Files Drivers) (d : Nat) (name : List Char) :
    (tmpfsDirUnlink s d name).1.other = s.other := by
  unfold tmpfsDirUnlink
  split
  · rfl
  · dsimp only
    split
    · rfl
    · split <;> rfl

theorem Rooted.processUnlink (r : Rooted s kids) {who : Process} {path : List Char} {e : Int}
    (done : processUnlink g fuel s who path = some (t, e)) : Evolves s t none := by
  unfold Mounts.processUnlink parentCall at done
  split at done
  · cases done
  · rename_i resolved
    cases done
    exact (inside_resolveParentDir r.hosted resolved).1.evolves r
  · rename_i s₁ dir name resolved
    obtain ⟨still, -, -⟩ := inside_resolveParentDir r.hosted resolved
    have r₁ := still.rooted r
    split at done
    · cases done
      exact still.evolves r
    split at done
    · cases done
      exact still.evolves r
    split at done
    · cases done
    rename_i s₂ e₂ called
    refine (still.evolves r).trans ?_
    rw [if_neg (by simp)] at done
    cases done
    simp only [dirCall] at called
    split at called
    · rename_i d native
      have state : (tmpfsDirUnlink s₁ d name).1 = t := congrArg Prod.fst (Option.some.inj called)
      rw [← state]
      have mounts := tmpfsDirUnlink_mounts s₁ d name
      rcases tmpfsDirUnlink_removes s₁ d name with ⟨same, -⟩ | ⟨-, i, listed, -, unchained⟩
      · rw [same]
        exact Still.refl.evolves r₁
      · rw [r₁.hosted.tree.children] at listed
        exact r₁.unchain listed unchained (tmpfsDirUnlink_other s₁ d name) mounts
    · obtain ⟨result, -, eq⟩ := Option.map_eq_some_iff.mp called
      cases eq
      exact (withFat_still result.1).evolves r₁
    · cases called
      exact Still.refl.evolves r₁

theorem Rooted.createAndResolve (r : Rooted s kids) {who : Process} {path : List Char} {found : Except Int Vnode}
    (done : createAndResolve g fuel s who path = some (t, found)) : Evolves s t none := by
  unfold Mounts.createAndResolve at done
  split at done
  · cases done
  rename_i s₁ e created
  have made : Evolves s s₁ none := r.parentCall_makes tmpfsDirCreate_makes created
  obtain ⟨kids₁, r₁⟩ := made.rooted
  split at done
  · cases done
    exact made
  split at done
  · cases done
  · rename_i resolved
    cases done
    exact made.trans ((inside_resolve r₁.hosted resolved).1.evolves r₁)
  · rename_i resolved
    cases done
    exact made.trans ((inside_resolve r₁.hosted resolved).1.evolves r₁)

theorem Rooted.locate (r : Rooted s kids) {who : Process} {path : List Char} {flags : Nat} {found : Except Int Vnode}
    (done : locate g fuel s who path flags = some (t, found)) : Evolves s t none := by
  unfold Mounts.locate at done
  split at done
  · cases done
  · rename_i s₁ resolved
    have still := (inside_resolve r.hosted resolved).1
    split at done
    · cases done
      exact still.evolves r
    · exact (still.evolves r).trans ((still.rooted r).createAndResolve done)
  · rename_i s₁ node resolved
    have still := (inside_resolve r.hosted resolved).1
    split at done
    · cases done
      exact still.evolves r
    split at done
    · split at done
      · cases done
      rename_i s₂ e unlinked
      have removed : Evolves s s₂ none := (still.evolves r).trans ((still.rooted r).processUnlink unlinked)
      obtain ⟨kids₂, r₂⟩ := removed.rooted
      split at done
      · cases done
        exact removed
      · exact removed.trans (r₂.createAndResolve done)
    · cases done
      exact still.evolves r

/-- Whatever a write does to a file of tmpfs, it does to its bytes. -/
theorem tmpfsFileWrite_labels {i : Nat} {src : Nat → BitVec 8} {count offset : Word} {n : Int}
    (done : tmpfsFileWrite s i src count offset = some (t, n)) :
    t.other = s.other ∧ ∀ j, (t.tmp.nodes j).ops = (s.tmp.nodes j).ops ∧ ownerOf t (.tmp j) = ownerOf s (.tmp j) := by
  have set : ∀ {s t : Files Drivers} (m : TmpfsNode), t.tmp = s.tmp.set i m → m.ops = (s.tmp.nodes i).ops →
      (m.uid, m.gid, m.mode) = ownerOf s (.tmp i) →
      ∀ j, (t.tmp.nodes j).ops = (s.tmp.nodes j).ops ∧ ownerOf t (.tmp j) = ownerOf s (.tmp j) := by
    intro s t m tmp ops owner j
    simp only [ownerOf, tmp, Tmpfs.set, Function.update_apply]
    split
    · rename_i here
      rw [here]
      exact ⟨ops, owner⟩
    · exact ⟨rfl, rfl⟩
  have put : ∀ (u : Files Drivers) (len : Word) (j : Nat),
      ((putBytes u i offset src len).tmp.nodes j).ops = (u.tmp.nodes j).ops ∧
        ownerOf (putBytes u i offset src len) (.tmp j) = ownerOf u (.tmp j) := by
    intro u len
    refine set _ rfl ?_ ?_ <;> split <;> rfl
  unfold tmpfsFileWrite at done
  dsimp only at done
  split at done
  · obtain ⟨pages, -, result⟩ := Option.map_eq_some_iff.mp done
    cases grew : growFile s i pages with
    | some grown =>
      rw [grew] at result
      cases result
      obtain ⟨start, -, -, -, -, -, rfl⟩ := growFile_some grew
      refine ⟨rfl, fun j => ?_⟩
      obtain ⟨ops, owner⟩ := put _ count j
      have grown := fun (u : Files Drivers) (tmp : u.tmp = s.tmp.set i
        { s.tmp.nodes i with data := some start, capacity := pages * 4096#64 }) => set _ tmp rfl rfl j
      exact ⟨ops.trans (grown _ (by rfl)).1, owner.trans (grown _ (by rfl)).2⟩
    | none =>
      rw [grew] at result
      dsimp only at result
      split at result
      · cases result
        exact ⟨rfl, fun _ => ⟨rfl, rfl⟩⟩
      · cases result
        exact ⟨rfl, put _ _⟩
  · cases done
    exact ⟨rfl, put s count⟩

theorem Rooted.writeNode (r : Rooted s kids) {node : Vnode} {src : Nat → BitVec 8} {count offset : Word} {n : Int}
    (done : writeNode g s node src count offset = some (t, n)) : Evolves s t none := by
  unfold Mounts.writeNode at done
  cases node with
  | tmp i =>
    have entries := tmpfsFileWrite_entries done
    obtain ⟨other, same⟩ := tmpfsFileWrite_labels done
    refine ⟨⟨kids, entries.hosted r.hosted, fun d j mem => ?_, fun d => ?_⟩, entries.count.ge, fun j _ => ?_,
      fun j _ _ => (same j).2, fun k _ => by rw [other], entries.mounts⟩
    · rw [(entries.types j).2]
      exact r.parent d j mem
    · rw [List.map_congr_left fun j _ => entries.names j]
      exact r.names d
    · exact ⟨(entries.types j).1, (same j).1, entries.names j, (entries.types j).2⟩
  | dev k =>
    cases done
    exact Still.refl.evolves r
  | fat j =>
    obtain ⟨rfl, -⟩ := Prod.mk.inj (Option.some.inj done)
    exact (withFat_still _).evolves r

end Frames

end Isunux.Mounts
