import Isunux.Mapping

/-! `vmm_get_pte` after `vmm_map_4k_in`, for any entries: what is known of the space is that
its tables are pages of their own, all of them in use. -/
namespace Isunux

open Radix

/-- The table that a path of indices leads to. -/
abbrev tableAt (mem : PhysMem) (pml4 : Nat) (q : List Nat) : Option Nat := at_ (fun _ : Unit => some pml4) mem () q

/-- The present leaf entry in slot `l` of the page table that a path leads to. -/
abbrev leafAt (mem : PhysMem) (pml4 : Nat) (q : List Nat) (l : Nat) : Option Word :=
  leafWord (fun _ : Unit => some pml4) mem () q l

/-- The tables of the low half form a tree: no table is at two places, and page directories
have tables below them, no large pages. The pages of the tables are not free. -/
structure PageTree (s : Vm) (pml4 : Nat) : Prop where
  distinct : ∀ q q' f, LowPath q → LowPath q' → q.length ≤ 3 → q'.length ≤ 3 →
    tableAt s.mem pml4 q = some f → tableAt s.mem pml4 q' = some f → q = q'
  small : ∀ q i f, LowPath (q ++ [i]) → q.length = 2 → tableAt s.mem pml4 q = some f →
    hasBits (s.mem f i) ptePresent = true → hasBits (s.mem f i) pteHuge = false
  held : ∀ q f, LowPath q → q.length ≤ 3 → tableAt s.mem pml4 q = some f → Held s.pmm f

/-- If `get_or_create_table` allocates, the allocator has a page. -/
def TableFits (s : Vm) (f i : Nat) : Prop := hasBits (s.mem f i) ptePresent = true ∨ (pmmAllocPage s.pmm).2 ≠ 0

/-- The up to three allocations of `vmm_map_4k_in` succeed. -/
def MapFits (s : Vm) (pml4 : Nat) (v : Word) : Prop :=
  let a := getOrCreateTable s pml4 (pml4Idx v)
  let b := getOrCreateTable a.1 a.2 (pdptIdx v)
  TableFits s pml4 (pml4Idx v) ∧ TableFits a.1 a.2 (pdptIdx v) ∧ TableFits b.1 b.2 (pdIdx v)

/-- Tables stay where they are, and every leaf entry is as before. -/
structure SameEntriesBelow (pml4 : Nat) (mem mem' : PhysMem) : Prop where
  tables : ∀ q f, LowPath q → q.length ≤ 3 → tableAt mem pml4 q = some f → tableAt mem' pml4 q = some f
  entries : ∀ q l, LowPath (q ++ [l]) → q.length = 3 → leafAt mem' pml4 q l = leafAt mem pml4 q l

section Steps

variable {s : Vm} {pml4 : Nat} {q : List Nat} {i f : Nat}

theorem SameEntriesBelow.refl (pml4 : Nat) (mem : PhysMem) : SameEntriesBelow pml4 mem mem :=
  ⟨fun _ _ _ _ here => here, fun _ _ _ _ => rfl⟩

theorem SameEntriesBelow.trans {mem mem' mem'' : PhysMem} (h : SameEntriesBelow pml4 mem mem')
    (h' : SameEntriesBelow pml4 mem' mem'') : SameEntriesBelow pml4 mem mem'' :=
  ⟨fun q f low short here => h'.tables q f low short (h.tables q f low short here),
    fun q l low len => (h'.entries q l low len).trans (h.entries q l low len)⟩

theorem tableAt_snoc (mem : PhysMem) (pml4 : Nat) (q : List Nat) (i : Nat) :
    tableAt mem pml4 (q ++ [i]) = (tableAt mem pml4 q).bind fun g => pteChild (mem g i) :=
  at_snoc _ mem () q i

theorem PageTree.apart (t : PageTree s pml4) {g : Nat} (bound : g < s.pmm.totalPages) (clear : s.pmm.bitmap g = false)
    (low : LowPath q) (short : q.length ≤ 3) : tableAt s.mem pml4 q ≠ some g := by
  intro here
  rw [t.held q g low short here bound] at clear
  cases clear

theorem PageTree.put_off (t : PageTree s pml4) (low : LowPath (q ++ [i])) (here : tableAt s.mem pml4 q = some f)
    (e : Word) {p : List Nat} (lowP : LowPath p) (off : ¬ q ++ [i] <+: p) :
    tableAt (put s.mem f i e) pml4 p = tableAt s.mem pml4 p := by
  apply node_put_off
  intro r onPath there
  have lowR := lowP.of_prefix onPath
  have same := t.distinct r q f lowR.init low.init (length_snoc_le lowR) (length_snoc_le low) there here
  exact off (same ▸ onPath)

theorem PageTree.put_at (t : PageTree s pml4) (low : LowPath (q ++ [i])) (here : tableAt s.mem pml4 q = some f)
    (e : Word) : tableAt (put s.mem f i e) pml4 (q ++ [i]) = pteChild e := by
  have stays := t.put_off low here e low.init fun onPath => by
    have := onPath.length_le
    simp at this
  rw [tableAt_snoc, stays, here, Option.bind_some, put_same]

theorem PageTree.zeroed (t : PageTree s pml4) {g : Nat} (bound : g < s.pmm.totalPages) (clear : s.pmm.bitmap g = false) :
    PageTree { s with mem := zeroFrame s.mem g } pml4 ∧
      ∀ p, LowPath p → tableAt (zeroFrame s.mem g) pml4 p = tableAt s.mem pml4 p := by
  have others : ∀ h, h ≠ g → zeroFrame s.mem g h = s.mem h := fun h other => Function.update_of_ne other _ _
  have same : ∀ p, LowPath p → tableAt (zeroFrame s.mem g) pml4 p = tableAt s.mem pml4 p := by
    intro p low
    refine node_table_off pteChild _ s.mem _ g () p others fun r j onPath => ?_
    have lowR := low.of_prefix onPath
    exact t.apart bound clear lowR.init (length_snoc_le lowR)
  refine ⟨⟨fun p p' h low low' short short' there there' => ?_, fun p j h low len there present => ?_,
    fun p h low short there => ?_⟩, same⟩
  · exact t.distinct p p' h low low' short short' (same p low ▸ there) (same p' low' ▸ there')
  · have before := same p low.init ▸ there
    have other : h ≠ g := fun eq => t.apart bound clear low.init (by omega) (eq ▸ before)
    simp only [others h other] at present ⊢
    exact t.small p j h low len before present
  · exact t.held p h low short (same p low ▸ there)

/-- `get_or_create_table`: the table is there afterwards, and all entries are as before. -/
theorem PageTree.ensure (t : PageTree s pml4) (low : LowPath (q ++ [i])) (short : q.length ≤ 2)
    (here : tableAt s.mem pml4 q = some f) (fits : TableFits s f i) :
    PageTree (getOrCreateTable s f i).1 pml4 ∧
      tableAt (getOrCreateTable s f i).1.mem pml4 (q ++ [i]) = some (getOrCreateTable s f i).2 ∧
      SameEntriesBelow pml4 s.mem (getOrCreateTable s f i).1.mem := by
  unfold getOrCreateTable
  by_cases present : hasBits (s.mem f i) ptePresent = true
  · rw [if_pos present]
    refine ⟨t, ?_, .refl pml4 s.mem⟩
    rw [tableAt_snoc, here, Option.bind_some, pteChild, if_pos present]
  rw [if_neg present]
  dsimp only
  obtain ⟨bound, clear, taken⟩ := pmmAllocPage_fresh (fits.resolve_left present)
  have grown := pmmAllocPage_grown s.pmm
  generalize (pmmAllocPage s.pmm).2 = g at bound clear taken
  generalize (pmmAllocPage s.pmm).1 = pmm at taken grown
  obtain ⟨t₁, same⟩ := t.zeroed bound clear
  have here₁ := (same q low.init).trans here
  have off : ∀ p, LowPath p → ¬ q ++ [i] <+: p →
      tableAt (put (zeroFrame s.mem g) f i (tableEntry g)) pml4 p = tableAt s.mem pml4 p :=
    fun p lowP away => (t₁.put_off low here₁ _ lowP away).trans (same p lowP)
  have made : tableAt (put (zeroFrame s.mem g) f i (tableEntry g)) pml4 (q ++ [i]) = some g :=
    (t₁.put_at low here₁ _).trans (tableEntry_child (small_of_bound bound))
  have otherTable : g ≠ f := fun eq => t.apart bound clear low.init (length_snoc_le low) (eq ▸ here)
  have fresh : ∀ j, put (zeroFrame s.mem g) f i (tableEntry g) g j = 0#64 := by
    intro j
    rw [put_table _ _ _ otherTable]
    simp [zeroFrame]
  -- behind the slot there was nothing, and now there is one empty table
  have absent : tableAt s.mem pml4 (q ++ [i]) = none := by
    rw [tableAt_snoc, here, Option.bind_some, pteChild, if_neg present]
  have behindWas : ∀ p, q ++ [i] <+: p → tableAt s.mem pml4 p = none := by
    rintro p ⟨r, rfl⟩
    rw [tableAt, at_append, show at_ (fun _ : Unit => some pml4) s.mem () (q ++ [i]) = none from absent]
    rfl
  have behind : ∀ p, q ++ [i] <+: p → p ≠ q ++ [i] →
      tableAt (put (zeroFrame s.mem g) f i (tableEntry g)) pml4 p = none := by
    rintro p ⟨r, rfl⟩ other
    cases r with
    | nil => exact absurd (List.append_nil _) other
    | cons j r =>
      have there : at_ (fun _ : Unit => some pml4) (put (zeroFrame s.mem g) f i (tableEntry g)) () (q ++ [i]) = some g :=
        made
      rw [tableAt, at_append, there, Option.bind_some, walk, fresh]
      rfl
  have where_ : ∀ p h, LowPath p → p.length ≤ 3 →
      tableAt (put (zeroFrame s.mem g) f i (tableEntry g)) pml4 p = some h →
      (p = q ++ [i] ∧ h = g) ∨ (¬ q ++ [i] <+: p ∧ tableAt s.mem pml4 p = some h ∧ h ≠ g) := by
    intro p h lowP shortP there
    by_cases onPath : q ++ [i] <+: p
    · by_cases eq : p = q ++ [i]
      · subst eq
        exact .inl ⟨rfl, Option.some.inj (there.symm.trans made)⟩
      · rw [behind p onPath eq] at there
        cases there
    · rw [off p lowP onPath] at there
      exact .inr ⟨onPath, there, fun eq => t.apart bound clear lowP shortP (eq ▸ there)⟩
  refine ⟨⟨fun p p' h lowP lowP' shortP shortP' there there' => ?_, fun p j h lowP len there present' => ?_,
    fun p h lowP shortP there => ?_⟩, made, fun p h lowP shortP there => ?_, fun p l lowP len => ?_⟩
  · rcases where_ p h lowP shortP there with ⟨rfl, rfl⟩ | ⟨-, old, other⟩
    · rcases where_ p' h lowP' shortP' there' with ⟨rfl, -⟩ | ⟨-, -, other⟩
      · rfl
      · exact absurd rfl other
    · rcases where_ p' h lowP' shortP' there' with ⟨-, eq⟩ | ⟨-, old', -⟩
      · exact absurd eq other
      · exact t.distinct p p' h lowP lowP' shortP shortP' old old'
  · rcases where_ p h lowP.init (by omega) there with ⟨-, rfl⟩ | ⟨-, old, other⟩
    · dsimp only at present'
      rw [fresh] at present'
      cases present'
    · by_cases slot : h = f ∧ j = i
      · obtain ⟨rfl, rfl⟩ := slot
        dsimp only
        rw [put_same]
        exact tableEntry_huge g
      · have word : put (zeroFrame s.mem g) f i (tableEntry g) h j = s.mem h j := by
          rw [put_other _ _ slot]
          exact congrFun (Function.update_of_ne other _ _) j
        dsimp only at present' ⊢
        rw [word] at present' ⊢
        exact t.small p j h lowP len old present'
  · rcases where_ p h lowP shortP there with ⟨-, rfl⟩ | ⟨-, old, -⟩
    · intro _
      rw [taken]
      simp [Pmm.take]
    · exact grown.held (t.held p h lowP shortP old)
  · rw [off p lowP fun onPath => by rw [behindWas p onPath] at there; cases there]
    exact there
  · unfold leafAt leafWord
    by_cases onPath : q ++ [i] <+: p
    · have was : at_ (fun _ : Unit => some pml4) s.mem () p = none := behindWas p onPath
      rw [was, Option.bind_none]
      by_cases eq : p = q ++ [i]
      · have now : at_ (fun _ : Unit => some pml4) (put (zeroFrame s.mem g) f i (tableEntry g)) () p = some g :=
          eq ▸ made
        rw [now, Option.bind_some, fresh]
        rfl
      · have now : at_ (fun _ : Unit => some pml4) (put (zeroFrame s.mem g) f i (tableEntry g)) () p = none :=
          behind p onPath eq
        rw [now, Option.bind_none]
    · have now : at_ (fun _ : Unit => some pml4) (put (zeroFrame s.mem g) f i (tableEntry g)) () p =
          at_ (fun _ : Unit => some pml4) s.mem () p := off p lowP.init onPath
      rw [now]
      cases found : at_ (fun _ : Unit => some pml4) s.mem () p with
      | none => rfl
      | some h =>
        have other : h ≠ g := fun eq => t.apart bound clear lowP.init (by omega) (eq ▸ found)
        have notSlot : h ≠ f := by
          rintro rfl
          have eq := t.distinct p q h lowP.init low.init (by omega) (by omega) found here
          have := congrArg List.length eq
          omega
        have row : put (zeroFrame s.mem g) f i (tableEntry g) h = s.mem h := by
          rw [put_table _ _ _ notSlot]
          exact Function.update_of_ne other _ _
        rw [Option.bind_some, Option.bind_some, row]

theorem PageTree.putLeaf (t : PageTree s pml4) {l : Nat} (low : LowPath (q ++ [l])) (len : q.length = 3)
    (here : tableAt s.mem pml4 q = some f) (e : Word) :
    PageTree { s with mem := put s.mem f l e } pml4 ∧
      (∀ p, LowPath p → p.length ≤ 3 → tableAt (put s.mem f l e) pml4 p = tableAt s.mem pml4 p) ∧
      ∀ p j, LowPath (p ++ [j]) → p.length = 3 → ¬ (p = q ∧ j = l) →
        leafAt (put s.mem f l e) pml4 p j = leafAt s.mem pml4 p j := by
  have same : ∀ p, LowPath p → p.length ≤ 3 → tableAt (put s.mem f l e) pml4 p = tableAt s.mem pml4 p := by
    intro p lowP shortP
    refine t.put_off low here e lowP fun onPath => ?_
    have := onPath.length_le
    rw [List.length_append, List.length_singleton] at this
    omega
  refine ⟨⟨fun p p' h lowP lowP' shortP shortP' there there' => ?_, fun p j h lowP lenP there present => ?_,
    fun p h lowP shortP there => ?_⟩, same, fun p j lowP lenP other => ?_⟩
  · exact t.distinct p p' h lowP lowP' shortP shortP' (same p lowP shortP ▸ there) (same p' lowP' shortP' ▸ there')
  · have before := same p lowP.init (by omega) ▸ there
    have notTable : h ≠ f := by
      rintro rfl
      have eq := t.distinct p q h lowP.init low.init (by omega) (by omega) before here
      have := congrArg List.length eq
      omega
    dsimp only at present ⊢
    rw [put_table _ _ _ notTable] at present ⊢
    exact t.small p j h lowP lenP before present
  · exact t.held p h lowP shortP (same p lowP shortP ▸ there)
  · have now : at_ (fun _ : Unit => some pml4) (put s.mem f l e) () p = at_ (fun _ : Unit => some pml4) s.mem () p :=
      same p lowP.init (by omega)
    unfold leafAt leafWord
    rw [now]
    cases found : at_ (fun _ : Unit => some pml4) s.mem () p with
    | none => rfl
    | some h =>
      have notSlot : ¬ (h = f ∧ j = l) := by
        rintro ⟨rfl, rfl⟩
        exact other ⟨t.distinct p q h lowP.init low.init (by omega) (by omega) found here, rfl⟩
      rw [Option.bind_some, Option.bind_some, put_other _ _ notSlot]

end Steps

section Laws

variable {s : Vm} {pml4 : Nat} {v w : Word}

theorem tableAt_tablePath (mem : PhysMem) (pml4 : Nat) (v : Word) :
    tableAt mem pml4 (tablePath v) = (pteChild (mem pml4 (pml4Idx v))).bind fun pdpt =>
      (pteChild (mem pdpt (pdptIdx v))).bind fun pd => pteChild (mem pd (pdIdx v)) := by
  simp only [tableAt, at_, node, tablePath, walk, Option.bind_some]
  simp

theorem PageTree.getPte (t : PageTree s pml4) (low : lowHalf v = true) :
    vmmGetPte s.mem pml4 v = (tableAt s.mem pml4 (tablePath v)).bind fun pt =>
      if hasBits (s.mem pt (ptIdx v)) ptePresent then some (pt, ptIdx v) else none := by
  have path := tablePath_low (lowHalf_idx low)
  have lowPd : LowPath ([pml4Idx v, pdptIdx v] ++ [pdIdx v]) := path.of_prefix ⟨_, rfl⟩
  rw [tableAt_tablePath]
  unfold vmmGetPte
  cases top : pteChild (s.mem pml4 (pml4Idx v)) with
  | none => rfl
  | some pdpt =>
    rw [Option.bind_some, Option.bind_some]
    cases middle : pteChild (s.mem pdpt (pdptIdx v)) with
    | none => rfl
    | some pd =>
      rw [Option.bind_some, Option.bind_some]
      cases below : pteChild (s.mem pd (pdIdx v)) with
      | none => rfl
      | some pt =>
        have there : tableAt s.mem pml4 [pml4Idx v, pdptIdx v] = some pd := by
          simp only [tableAt, at_, node, walk, Option.bind_some, top, middle]
        have small := t.small _ _ pd lowPd rfl there (pteChild_eq_some.mp below).1
        rw [Option.bind_some, Option.bind_some, small, if_neg Bool.false_ne_true]

theorem leafAt_eq (mem : PhysMem) (pml4 : Nat) (q : List Nat) (l : Nat) :
    leafAt mem pml4 q l =
      (tableAt mem pml4 q).bind fun pt => if hasBits (mem pt l) ptePresent then some (mem pt l) else none := rfl

/-- What the tables and entries decide, `vmm_get_pte` and the entry it leads to keep. -/
theorem SameEntriesBelow.getPte {s' : Vm} (t : PageTree s pml4) (t' : PageTree s' pml4) (low : lowHalf w = true)
    (tables : ∀ f, tableAt s.mem pml4 (tablePath w) = some f → tableAt s'.mem pml4 (tablePath w) = some f)
    (entry : leafAt s'.mem pml4 (tablePath w) (ptIdx w) = leafAt s.mem pml4 (tablePath w) (ptIdx w)) :
    vmmGetPte s'.mem pml4 w = vmmGetPte s.mem pml4 w ∧
      ∀ slot, vmmGetPte s.mem pml4 w = some slot → s'.mem slot.1 slot.2 = s.mem slot.1 slot.2 := by
  rw [t.getPte low, t'.getPte low]
  rw [leafAt_eq, leafAt_eq] at entry
  cases was : tableAt s.mem pml4 (tablePath w) with
  | some f =>
    rw [was, tables f was, Option.bind_some, Option.bind_some] at entry
    rw [tables f was, Option.bind_some, Option.bind_some]
    by_cases present : hasBits (s.mem f (ptIdx w)) ptePresent = true
    · rw [if_pos present] at entry ⊢
      have present' : hasBits (s'.mem f (ptIdx w)) ptePresent = true := by
        by_contra absent
        rw [if_neg absent] at entry
        cases entry
      rw [if_pos present'] at entry ⊢
      refine ⟨rfl, fun slot found => ?_⟩
      cases found
      exact Option.some.inj entry
    · rw [if_neg present] at entry ⊢
      have absent' : ¬ hasBits (s'.mem f (ptIdx w)) ptePresent = true := by
        intro present'
        rw [if_pos present'] at entry
        cases entry
      rw [if_neg absent']
      exact ⟨rfl, nofun⟩
  | none =>
    rw [was, Option.bind_none] at entry
    rw [Option.bind_none]
    refine ⟨?_, nofun⟩
    cases now : tableAt s'.mem pml4 (tablePath w) with
    | none => rfl
    | some f =>
      rw [now, Option.bind_some] at entry
      rw [Option.bind_some]
      by_cases present : hasBits (s'.mem f (ptIdx w)) ptePresent = true
      · rw [if_pos present] at entry
        cases entry
      · exact if_neg present

theorem aligned_frame {paddr : Word} (aligned : paddr &&& 0xFFF#64 = 0#64) :
    pageAddr (paddr.toNat / 4096) = paddr := by
  have offset : paddr.toNat % 4096 = 0 := by
    have low : (paddr &&& 0xFFF#64).toNat = paddr.toNat % 4096 := by
      rw [BitVec.toNat_and]
      exact Nat.and_two_pow_sub_one_eq_mod _ 12
    rw [← low, aligned]
    rfl
  have bound := paddr.isLt
  apply BitVec.eq_of_toNat_eq
  rw [pageAddr_toNat (by omega)]
  omega

theorem present_or (e flags : Word) : hasBits (e ||| (flags ||| ptePresent)) ptePresent = true := by
  have bit : (e ||| (flags ||| ptePresent)) &&& ptePresent = ptePresent := by
    apply BitVec.eq_of_getLsbD_eq
    intro i _
    simp only [BitVec.getLsbD_and, BitVec.getLsbD_or]
    cases ptePresent.getLsbD i <;> simp
  rw [hasBits, bit]
  decide

/-- The walk down of `vmm_map_4k_in`: the page table is there, and all entries are as before. -/
theorem PageTree.tables (t : PageTree s pml4) (low : lowHalf v = true) (fits : MapFits s pml4 v) :
    ∃ c : Vm × Nat, PageTree c.1 pml4 ∧ tableAt c.1.mem pml4 (tablePath v) = some c.2 ∧
      SameEntriesBelow pml4 s.mem c.1.mem ∧ ∀ frame flags, vmmMap4kIn s pml4 v frame flags =
        { c.1 with mem := put c.1.mem c.2 (ptIdx v) (pageAddr frame ||| (flags ||| ptePresent)) } := by
  have lowLeaf := tablePath_low (lowHalf_idx low)
  have low₁ : LowPath ([] ++ [pml4Idx v]) := lowLeaf.of_prefix ⟨_, rfl⟩
  have low₂ : LowPath ([pml4Idx v] ++ [pdptIdx v]) := lowLeaf.of_prefix ⟨_, rfl⟩
  have low₃ : LowPath ([pml4Idx v, pdptIdx v] ++ [pdIdx v]) := lowLeaf.of_prefix ⟨_, rfl⟩
  obtain ⟨fits₁, fits₂, fits₃⟩ := fits
  have here₀ : tableAt s.mem pml4 [] = some pml4 := rfl
  obtain ⟨t₁, here₁, same₁⟩ := t.ensure low₁ (by simp) here₀ fits₁
  obtain ⟨t₂, here₂, same₂⟩ := t₁.ensure low₂ (by simp) here₁ fits₂
  obtain ⟨t₃, here₃, same₃⟩ := t₂.ensure low₃ (by simp) here₂ fits₃
  exact ⟨_, t₃, here₃, (same₁.trans same₂).trans same₃, fun _ _ => rfl⟩

/-- Mapping a page decides the entry of every address in it, and of no other address. -/
theorem map_get_laws (t : PageTree s pml4) {v paddr flags : Word} (low : lowHalf v = true)
    (aligned : paddr &&& 0xFFF#64 = 0#64) (fits : MapFits s pml4 v) :
    let s' := vmmMap4kIn s pml4 v (paddr.toNat / 4096) flags
    PageTree s' pml4 ∧
      (∀ w, lowHalf w = true → vpn w = vpn v → ∃ slot, vmmGetPte s'.mem pml4 w = some slot ∧
        s'.mem slot.1 slot.2 = paddr ||| flags ||| ptePresent) ∧
      ∀ w, lowHalf w = true → vpn w ≠ vpn v → vmmGetPte s'.mem pml4 w = vmmGetPte s.mem pml4 w ∧
        ∀ slot, vmmGetPte s.mem pml4 w = some slot → s'.mem slot.1 slot.2 = s.mem slot.1 slot.2 := by
  intro s'
  have lowLeaf := tablePath_low (lowHalf_idx low)
  obtain ⟨c, tree, here, same, maps⟩ := t.tables low fits
  have after : s' = _ := maps (paddr.toNat / 4096) flags
  have entry : pageAddr (paddr.toNat / 4096) ||| (flags ||| ptePresent) = paddr ||| flags ||| ptePresent := by
    rw [aligned_frame aligned, BitVec.or_assoc]
  have present : hasBits (paddr ||| flags ||| ptePresent) ptePresent = true := by
    rw [BitVec.or_assoc]
    exact present_or paddr flags
  rw [entry] at after
  obtain ⟨t', tables, entries⟩ := tree.putLeaf lowLeaf rfl here (paddr ||| flags ||| ptePresent)
  rw [← after] at t'
  have mem : s'.mem = put c.1.mem c.2 (ptIdx v) (paddr ||| flags ||| ptePresent) := congrArg Vm.mem after
  rw [← mem] at tables entries
  clear_value s'
  refine ⟨t', fun w lowW inPage => ⟨(c.2, ptIdx v), ?_, ?_⟩, fun w lowW away => ?_⟩
  · obtain ⟨path, slot⟩ := (same_slot_iff lowW low).mpr inPage
    rw [t'.getPte lowW, path, slot, tables _ lowLeaf.init le_rfl, here, Option.bind_some, mem, put_same, if_pos present]
  · rw [mem, put_same]
  · have lowPath := tablePath_low (lowHalf_idx lowW)
    have other : ¬ (tablePath w = tablePath v ∧ ptIdx w = ptIdx v) :=
      fun slot => away ((same_slot_iff lowW low).mp slot)
    refine SameEntriesBelow.getPte t t' lowW (fun f was => ?_) ?_
    · rw [tables _ lowPath.init le_rfl]
      exact same.tables _ f lowPath.init le_rfl was
    · exact (entries _ _ lowPath rfl other).trans (same.entries _ _ lowPath rfl)

end Laws

/-- A space without a mapping, its PML4 in page 1. -/
def bareSpace : Vm where
  pmm := .small 8#6 (fun f => f ≤ 1) (fun _ => 1) 6 2
  mem := fun _ _ => 0#64
  kernelPml4 := 0

theorem bareSpace_tree : PageTree bareSpace 1 := by
  have only : ∀ q f, tableAt bareSpace.mem 1 q = some f → q = [] ∧ f = 1 := by
    intro q f there
    cases q with
    | nil => exact ⟨rfl, (Option.some.inj there).symm⟩
    | cons i q =>
      simp [tableAt, node, walk, bareSpace, pteChild_absent] at there
  refine ⟨fun q q' f _ _ _ _ there there' => ?_, fun q i f _ len there _ => ?_, fun q f _ _ there _ => ?_⟩
  · rw [(only q f there).1, (only q' f there').1]
  · rw [(only q f there).1] at len
    cases len
  · rw [(only q f there).2]
    rfl

/-- One page mapped, an address inside it and one outside. -/
theorem bareSpace_map_get :
    let s' := vmmMap4kIn bareSpace 1 0x400000#64 9 6#64
    (∃ slot, vmmGetPte s'.mem 1 0x400123#64 = some slot ∧ s'.mem slot.1 slot.2 = 0x9007#64) ∧
      vmmGetPte s'.mem 1 0x401000#64 = none := by
  have fits : MapFits bareSpace 1 0x400000#64 := by
    unfold MapFits TableFits
    decide +kernel
  obtain ⟨-, inside, outside⟩ := @map_get_laws bareSpace 1 bareSpace_tree 0x400000#64 0x9000#64 6#64 (by decide)
    (by decide) fits
  have here := inside 0x400123#64 (by decide) (by decide)
  have there := outside 0x401000#64 (by decide) (by decide)
  exact ⟨here, there.1.trans rfl⟩

end Isunux
