import Isunux.Vfs

/-! The shape of the tmpfs tree. Each directory's sibling list is named by a list of
pool slots; a slot is in one list at most, and only directories have one. -/
namespace Isunux

open Chain

def Tmpfs.next (t : Tmpfs) (i : Nat) : Option Nat := (t.nodes i).nextSibling

/-- `kids` are the sibling lists of a tree in order. -/
structure TreeOk (t : Tmpfs) (kids : Nat → List Nat) : Prop where
  chain : ∀ d, Spells t.next (t.nodes d).firstChild (kids d)
  inside : ∀ d i, i ∈ kids d → i < t.count
  nodup : ∀ d, (kids d).Nodup
  apart : ∀ d d' i, i ∈ kids d → i ∈ kids d' → d = d'
  above : ∀ d i, i ∈ kids d → (t.nodes d).type = .dir ∧ d < t.count
  upward : ∀ i, i < t.count →
    (t.nodes (t.nodes i).parent).type = .dir ∧ (t.nodes i).parent < t.count
  root : (t.nodes 0).type = .dir ∧ 0 < t.count
  most : t.count ≤ tmpfsMaxNodes
  ops : ∀ i, i < t.count → ((t.nodes i).ops = .tmpfsFile ↔ (t.nodes i).type = .file)

theorem tmpfsInit_ok : TreeOk tmpfsInit fun _ => [] where
  chain d := by
    by_cases h : d = 0
    · subst h; rfl
    · simp [tmpfsInit, TmpfsNode.zero, h]
  inside d i h := by cases h
  nodup d := List.nodup_nil
  apart d d' i h := by cases h
  above d i h := by cases h
  upward i h := by
    obtain rfl : i = 0 := Nat.lt_one_iff.mp h
    exact ⟨rfl, h⟩
  root := ⟨rfl, Nat.one_pos⟩
  most := by decide
  ops i h := by
    obtain rfl : i = 0 := Nat.lt_one_iff.mp h
    decide

section Tree

variable {t t' : Tmpfs} {kids : Nat → List Nat} {d i : Nat}

theorem TreeOk.children (ok : TreeOk t kids) (d : Nat) : t.children d = kids d := by
  refine (ok.chain d).follow_eq ?_
  have sub : (kids d).toFinset ⊆ Finset.range t.count := by
    intro i hi
    exact Finset.mem_range.mpr (ok.inside d i (List.mem_toFinset.mp hi))
  have size := Finset.card_le_card sub
  rw [List.toFinset_card_of_nodup (ok.nodup d), Finset.card_range] at size
  exact size.trans ok.most

theorem TreeOk.lookup_mem (ok : TreeOk t kids) {name : List Char}
    (found : tmpfsDirLookup t d name = some i) : i ∈ kids d := by
  rw [← ok.children d]
  exact List.mem_of_find?_eq_some found

theorem TreeOk.relabel (ok : TreeOk t kids) (count : t'.count = t.count)
    (links : ∀ i, (t'.nodes i).firstChild = (t.nodes i).firstChild ∧
      (t'.nodes i).nextSibling = (t.nodes i).nextSibling)
    (types : ∀ i, (t'.nodes i).type = (t.nodes i).type ∧ (t'.nodes i).parent = (t.nodes i).parent)
    (opened : ∀ i, (t'.nodes i).ops = .tmpfsFile ↔ (t.nodes i).ops = .tmpfsFile) : TreeOk t' kids where
  chain d := by
    rw [(links d).1]
    exact (ok.chain d).congr fun i _ => (links i).2
  inside d i h := count ▸ ok.inside d i h
  nodup := ok.nodup
  apart := ok.apart
  above d i h := by
    rw [(types d).1, count]
    exact ok.above d i h
  upward i h := by
    rw [(types i).2, (types _).1, count]
    exact ok.upward i (count ▸ h)
  root := by
    rw [(types 0).1, count]
    exact ok.root
  most := count ▸ ok.most
  ops i h := by
    rw [opened, (types i).1]
    exact ok.ops i (count ▸ h)

theorem TreeOk.set (ok : TreeOk t kids) (i : Nat) {n : TmpfsNode}
    (first : n.firstChild = (t.nodes i).firstChild) (next : n.nextSibling = (t.nodes i).nextSibling)
    (type : n.type = (t.nodes i).type) (parent : n.parent = (t.nodes i).parent)
    (opened : n.ops = .tmpfsFile ↔ (t.nodes i).ops = .tmpfsFile) : TreeOk (t.set i n) kids := by
  have at_ : ∀ j, (t.set i n).nodes j = if j = i then n else t.nodes j := by
    intro j
    simp only [Tmpfs.set, Function.update_apply]
  refine ok.relabel rfl (fun j => ?_) (fun j => ?_) (fun j => ?_) <;> rw [at_ j] <;> split
  · rename_i same; subst same; exact ⟨first, next⟩
  · exact ⟨rfl, rfl⟩
  · rename_i same; subst same; exact ⟨type, parent⟩
  · exact ⟨rfl, rfl⟩
  · rename_i same; subst same; exact opened
  · rfl

/-- `tmpfs_alloc_node` and the linking of the node into directory `d`. -/
def Tmpfs.grow (t : Tmpfs) (d : Nat) (n : TmpfsNode) : Tmpfs :=
  Tmpfs.link { nodes := Function.update t.nodes t.count .zero, count := t.count + 1 } d t.count n

theorem grow_nodes (n : TmpfsNode) (bound : d < t.count) (j : Nat) :
    (t.grow d n).nodes j =
      if j = d then { t.nodes d with firstChild := some t.count }
      else if j = t.count then { n with nextSibling := (t.nodes d).firstChild }
      else t.nodes j := by
  have other : d ≠ t.count := Nat.ne_of_lt bound
  by_cases hd : j = d
  · subst hd
    simp [Tmpfs.grow, Tmpfs.link, Tmpfs.set, other]
  · by_cases hi : j = t.count
    · subst hi
      simp [Tmpfs.grow, Tmpfs.link, Tmpfs.set, hd, other]
    · simp [Tmpfs.grow, Tmpfs.link, Tmpfs.set, hd, hi]

def withKid (kids : Nat → List Nat) (d i : Nat) : Nat → List Nat :=
  Function.update kids d (i :: kids d)

theorem mem_withKid {d' j : Nat} (h : j ∈ withKid kids d i d') :
    j ∈ kids d' ∨ (d' = d ∧ j = i) := by
  unfold withKid at h
  by_cases same : d' = d
  · subst same
    rw [Function.update_self, List.mem_cons] at h
    rcases h with new | old
    · exact .inr ⟨rfl, new⟩
    · exact .inl old
  · rw [Function.update_of_ne same] at h
    exact .inl h

theorem TreeOk.grow (ok : TreeOk t kids) {n : TmpfsNode} (bound : d < t.count)
    (dir : (t.nodes d).type = .dir) (room : t.count < tmpfsMaxNodes) (first : n.firstChild = none)
    (parent : n.parent = d) (opened : n.ops = .tmpfsFile ↔ n.type = .file) :
    TreeOk (t.grow d n) (withKid kids d t.count) := by
  have other : d ≠ t.count := Nat.ne_of_lt bound
  have fresh : ∀ e, t.count ∉ kids e := fun e h => Nat.lt_irrefl _ (ok.inside e _ h)
  have childless : kids t.count = [] := by
    by_contra h
    obtain ⟨j, hj⟩ := List.exists_mem_of_ne_nil _ h
    exact Nat.lt_irrefl _ (ok.above t.count j hj).2
  have typed : ∀ j, j < t.count → ((t.grow d n).nodes j).type = (t.nodes j).type ∧
      ((t.grow d n).nodes j).parent = (t.nodes j).parent ∧
      ((t.grow d n).nodes j).ops = (t.nodes j).ops := by
    intro j hj
    rw [grow_nodes n bound, if_neg (Nat.ne_of_lt hj)]
    by_cases hd : j = d
    · subst hd
      rw [if_pos rfl]
      exact ⟨rfl, rfl, rfl⟩
    · rw [if_neg hd]
      exact ⟨rfl, rfl, rfl⟩
  have new : (t.grow d n).nodes t.count = { n with nextSibling := (t.nodes d).firstChild } := by
    rw [grow_nodes n bound, if_neg other.symm, if_pos rfl]
  have next : ∀ j, j ≠ t.count → (t.grow d n).next j = t.next j := by
    intro j hj
    unfold Tmpfs.next
    rw [grow_nodes n bound, if_neg hj]
    by_cases hd : j = d
    · subst hd
      rw [if_pos rfl]
    · rw [if_neg hd]
  have count : (t.grow d n).count = t.count + 1 := rfl
  refine ⟨fun e => ?_, fun e i h => ?_, fun e => ?_, fun e e' i h h' => ?_, fun e i h => ?_,
    fun i h => ?_, ?_, count ▸ room, fun i h => ?_⟩
  · have old : ∀ first, Spells t.next first (kids e) → Spells (t.grow d n).next first (kids e) :=
      fun first h => h.congr fun j hj => next j fun same => fresh e (same ▸ hj)
    by_cases hd : e = d
    · subst hd
      rw [withKid, Function.update_self, grow_nodes n bound, if_pos rfl]
      refine ⟨rfl, ?_⟩
      have after : (t.grow e n).next t.count = (t.nodes e).firstChild := by rw [Tmpfs.next, new]
      rw [after]
      exact old _ (ok.chain e)
    · rw [withKid, Function.update_of_ne hd, grow_nodes n bound, if_neg hd]
      by_cases hi : e = t.count
      · subst hi
        rw [if_pos rfl, childless]
        exact first
      · rw [if_neg hi]
        exact old _ (ok.chain e)
  · rcases mem_withKid h with old | ⟨-, rfl⟩
    · exact Nat.lt_succ_of_lt (ok.inside e i old)
    · exact Nat.lt_succ_self _
  · by_cases hd : e = d
    · subst hd
      rw [withKid, Function.update_self]
      exact List.nodup_cons.mpr ⟨fresh e, ok.nodup e⟩
    · rw [withKid, Function.update_of_ne hd]
      exact ok.nodup e
  · rcases mem_withKid h with old | ⟨rfl, rfl⟩
    · rcases mem_withKid h' with old' | ⟨rfl, rfl⟩
      · exact ok.apart e e' i old old'
      · exact absurd old (fresh e)
    · rcases mem_withKid h' with old' | ⟨rfl, -⟩
      · exact absurd old' (fresh e')
      · rfl
  · have e_below : (t.nodes e).type = .dir ∧ e < t.count := by
      rcases mem_withKid h with old | ⟨rfl, -⟩
      · exact ok.above e i old
      · exact ⟨dir, bound⟩
    rw [(typed e e_below.2).1]
    exact ⟨e_below.1, Nat.lt_succ_of_lt e_below.2⟩
  · rcases Nat.lt_succ_iff_lt_or_eq.mp h with old | rfl
    · obtain ⟨up, below⟩ := ok.upward i old
      rw [(typed i old).2.1, (typed _ below).1]
      exact ⟨up, Nat.lt_succ_of_lt below⟩
    · rw [new]
      dsimp only
      rw [parent, (typed d bound).1]
      exact ⟨dir, Nat.lt_succ_of_lt bound⟩
  · rw [(typed 0 ok.root.2).1]
    exact ⟨ok.root.1, Nat.succ_pos _⟩
  · rcases Nat.lt_succ_iff_lt_or_eq.mp h with old | rfl
    · rw [(typed i old).2.2, (typed i old).1]
      exact ok.ops i old
    · rw [new]
      exact opened

theorem siblingBefore_absent {a : Nat} {xs : List Nat} (absent : i ∉ xs) :
    siblingBefore i (a :: xs) = none := by
  induction xs generalizing a with
  | nil => rfl
  | cons b xs ih =>
    rw [List.mem_cons, not_or] at absent
    rw [siblingBefore, if_neg (Ne.symm absent.1)]
    exact ih absent.2

theorem siblingBefore_cases {xs : List Nat} (mem : i ∈ xs) (nodup : xs.Nodup) :
    (∃ rest, xs = i :: rest ∧ siblingBefore i xs = none) ∨
    ∃ before prev rest, xs = before ++ prev :: i :: rest ∧ siblingBefore i xs = some prev := by
  induction xs with
  | nil => cases mem
  | cons a xs ih =>
    obtain ⟨absent, nodup⟩ := List.nodup_cons.mp nodup
    by_cases head : i = a
    · subst head
      exact .inl ⟨xs, rfl, siblingBefore_absent absent⟩
    · have mem := (List.mem_cons.mp mem).resolve_left head
      cases xs with
      | nil => cases mem
      | cons b xs =>
        by_cases second : b = i
        · subst second
          exact .inr ⟨[], a, xs, rfl, by simp [siblingBefore]⟩
        · rcases ih mem nodup with ⟨rest, eq, -⟩ | ⟨before, prev, rest, eq, found⟩
          · injection eq with h
            exact absurd h second
          · refine .inr ⟨a :: before, prev, rest, by rw [eq]; rfl, ?_⟩
            rw [siblingBefore, if_neg second]
            exact found

def withoutKid (kids : Nat → List Nat) (d i : Nat) : Nat → List Nat :=
  Function.update kids d ((kids d).erase i)

theorem mem_withoutKid {e j : Nat} (nodup : (kids d).Nodup) :
    j ∈ withoutKid kids d i e ↔ j ∈ kids e ∧ ¬ (e = d ∧ j = i) := by
  unfold withoutKid
  by_cases same : e = d
  · subst same
    rw [Function.update_self, nodup.mem_erase_iff]
    tauto
  · rw [Function.update_of_ne same]
    tauto

theorem unchain_nodes (t : Tmpfs) (d i j : Nat) :
    ((t.unchain d i).nodes j).type = (t.nodes j).type ∧
    ((t.unchain d i).nodes j).parent = (t.nodes j).parent ∧
    ((t.unchain d i).nodes j).ops = (t.nodes j).ops ∧
    ((t.unchain d i).nodes j).data = (t.nodes j).data ∧
    ((t.unchain d i).nodes j).size = (t.nodes j).size ∧
    ((t.unchain d i).nodes j).capacity = (t.nodes j).capacity := by
  have one : ∀ (k : Nat) (n : TmpfsNode), n.type = (t.nodes k).type → n.parent = (t.nodes k).parent →
      n.ops = (t.nodes k).ops → n.data = (t.nodes k).data → n.size = (t.nodes k).size →
      n.capacity = (t.nodes k).capacity →
      ((t.set k n).nodes j).type = (t.nodes j).type ∧ ((t.set k n).nodes j).parent = (t.nodes j).parent ∧
      ((t.set k n).nodes j).ops = (t.nodes j).ops ∧ ((t.set k n).nodes j).data = (t.nodes j).data ∧
      ((t.set k n).nodes j).size = (t.nodes j).size ∧
      ((t.set k n).nodes j).capacity = (t.nodes j).capacity := by
    intro k n h₁ h₂ h₃ h₄ h₅ h₆
    by_cases same : j = k
    · subst same
      simp only [Tmpfs.set, Function.update_self]
      exact ⟨h₁, h₂, h₃, h₄, h₅, h₆⟩
    · simp only [Tmpfs.set, Function.update_of_ne same, and_self]
  unfold Tmpfs.unchain
  split <;> exact one _ _ rfl rfl rfl rfl rfl rfl

theorem unchain_count (t : Tmpfs) (d i : Nat) : (t.unchain d i).count = t.count := by
  unfold Tmpfs.unchain
  split <;> rfl

theorem TreeOk.unchain_chain (ok : TreeOk t kids) (mem : i ∈ kids d) (e : Nat) :
    Spells (t.unchain d i).next ((t.unchain d i).nodes e).firstChild (withoutKid kids d i e) := by
  unfold Tmpfs.unchain
  rw [ok.children d]
  rcases siblingBefore_cases mem (ok.nodup d) with ⟨rest, eq, none⟩ | ⟨before, prev, rest, eq, found⟩
  · rw [none]
    have head := ok.chain d
    rw [eq] at head
    have next : (t.set d { t.nodes d with firstChild := (t.nodes i).nextSibling }).next = t.next := by
      funext j
      by_cases same : j = d
      · subst same
        simp [Tmpfs.next, Tmpfs.set]
      · simp [Tmpfs.next, Tmpfs.set, same]
    dsimp only
    rw [next]
    by_cases same : e = d
    · subst same
      rw [withoutKid, Function.update_self, eq, List.erase_cons_head]
      simp only [Tmpfs.set, Function.update_self]
      exact head.2
    · rw [withoutKid, Function.update_of_ne same]
      simp only [Tmpfs.set, Function.update_of_ne same]
      exact ok.chain e
  · rw [found]
    dsimp only
    have next : (t.set prev { t.nodes prev with nextSibling := (t.nodes i).nextSibling }).next =
        Function.update t.next prev (t.next i) := by
      funext j
      by_cases same : j = prev
      · subst same
        simp [Tmpfs.next, Tmpfs.set]
      · simp [Tmpfs.next, Tmpfs.set, same]
    have first : ((t.set prev { t.nodes prev with nextSibling := (t.nodes i).nextSibling }).nodes e).firstChild =
        (t.nodes e).firstChild := by
      by_cases same : e = prev
      · subst same
        simp [Tmpfs.set]
      · simp [Tmpfs.set, same]
    rw [next, first]
    have whole := ok.nodup d
    rw [eq] at whole
    by_cases same : e = d
    · subst same
      have erased : (kids e).erase i = before ++ prev :: rest := by
        have outside : i ∉ before ++ [prev] := by
          rw [show before ++ prev :: i :: rest = (before ++ [prev]) ++ i :: rest by simp] at whole
          exact fun h => (List.disjoint_of_nodup_append whole) h List.mem_cons_self
        rw [eq, show before ++ prev :: i :: rest = (before ++ [prev]) ++ i :: rest by simp,
          List.erase_append_right _ outside, List.erase_cons_head]
        simp
      rw [withoutKid, Function.update_self, erased]
      have chain := ok.chain e
      rw [eq] at chain
      exact chain.bypass whole
    · rw [withoutKid, Function.update_of_ne same]
      refine (ok.chain e).congr fun j hj => Function.update_of_ne ?_ _ _
      rintro rfl
      exact same (ok.apart e d j hj (by rw [eq]; simp))

theorem TreeOk.unchain (ok : TreeOk t kids) (mem : i ∈ kids d) :
    TreeOk (t.unchain d i) (withoutKid kids d i) := by
  have sub : ∀ {e j}, j ∈ withoutKid kids d i e → j ∈ kids e :=
    fun h => ((mem_withoutKid (ok.nodup d)).mp h).1
  refine ⟨ok.unchain_chain mem, fun e j h => ?_, fun e => ?_, fun e e' j h h' => ?_, fun e j h => ?_,
    fun j h => ?_, ?_, ?_, fun j h => ?_⟩
  · rw [unchain_count]
    exact ok.inside e j (sub h)
  · unfold withoutKid
    by_cases same : e = d
    · subst same
      rw [Function.update_self]
      exact (ok.nodup e).erase i
    · rw [Function.update_of_ne same]
      exact ok.nodup e
  · exact ok.apart e e' j (sub h) (sub h')
  · rw [(unchain_nodes t d i e).1, unchain_count]
    exact ok.above e j (sub h)
  · rw [(unchain_nodes t d i j).2.1, (unchain_nodes t d i _).1, unchain_count]
    exact ok.upward j (unchain_count t d i ▸ h)
  · rw [(unchain_nodes t d i 0).1, unchain_count]
    exact ok.root
  · rw [unchain_count]
    exact ok.most
  · rw [(unchain_nodes t d i j).2.2.1, (unchain_nodes t d i j).1]
    exact ok.ops j (unchain_count t d i ▸ h)

end Tree

end Isunux
