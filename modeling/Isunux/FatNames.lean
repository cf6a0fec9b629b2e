import Isunux.FatConsistency

/-! The name an entry is created under and the name it shows. The driver looks for the
string that it was given and stores an upper-case short form of it. -/
namespace Isunux

section Finding

variable {g : Geometry} {disk disk' : Nat → Sector} {first : Nat} {entry : List (BitVec 8)} {name : List (BitVec 8)}
  {slots : List Loc} {l : Loc}

theorem findSlot_some (found : findSlot disk slots name = some l) :
    realEntry (rawAt disk l) = true ∧ fatDecode83Name (rawAt disk l) = name :=
  ⟨(mem_realSlots (List.mem_of_find?_eq_some found)).2, by simpa [display] using List.find?_some found⟩

theorem blank_of_full (full : slots.find? (freeSlot disk) = none) : Blank disk slots := by
  have ends : slots.dropWhile (fun l => rawAt disk l 0 != 0#8) = [] := by
    refine List.dropWhile_eq_nil_iff.mpr fun x mem => ?_
    have taken := List.find?_eq_none.mp full x mem
    simp only [freeSlot, Bool.or_eq_true, beq_iff_eq, not_or] at taken
    simpa using taken.2
  unfold Blank
  rw [ends]
  exact fun x mem => absurd mem List.not_mem_nil

theorem findSlot_filled (nodup : slots.Nodup) (edited : EditedAt disk disk' slots l)
    (free : slots.find? (freeSlot disk) = some l) (goes : rawAt disk' l 0 ≠ 0#8) (real : realEntry (rawAt disk' l) = true)
    (shows : display disk' l = name) (missing : findSlot disk slots name = none) : findSlot disk' slots name = some l := by
  obtain ⟨-, pre, post, rfl, taken⟩ := List.find?_eq_some_iff_append.mp free
  have front : ∀ x ∈ pre, rawAt disk x 0 ≠ 0#8 := by
    intro x mem zero
    have := taken x mem
    simp [freeSlot, zero] at this
  have same : ∀ x ∈ pre, rawAt disk' x = rawAt disk x := fun x mem =>
    edited x (List.mem_append_left _ mem) fun here => (List.nodup_append.mp nodup).2.2 x mem l List.mem_cons_self here
  have skipped : (pre.filter fun x => realEntry (rawAt disk' x)).find? (fun x => display disk' x == name) = none := by
    have kept : (pre.filter fun x => realEntry (rawAt disk' x)) = pre.filter fun x => realEntry (rawAt disk x) :=
      List.filter_congr fun x mem => by rw [same x mem]
    rw [kept, find_display_congr fun x mem => same x (List.mem_of_mem_filter mem)]
    unfold findSlot at missing
    rw [realSlots_append front, List.find?_append, Option.or_eq_none_iff] at missing
    exact missing.1
  unfold findSlot
  rw [realSlots_append fun x mem => same x mem ▸ front x mem, realSlots_real goes real, List.find?_append]
  change ((pre.filter fun x => realEntry (rawAt disk' x)).find? fun x => display disk' x == name).or _ = _
  rw [skipped, Option.none_or]
  simp [shows]

theorem placed_intact (fats : 0 < g.numFats) (per : 0 < g.sectorsPerCluster) (small : g.totalEntries ≤ 2 ^ 16)
    (intact : Intact g disk first) (length : entry.length = 32) (goes : ofBytes entry 0 ≠ 0#8)
    (is : placed g disk first entry = some disk') : Intact g disk' first := by
  cases slot : (dirSlots g disk first).find? (freeSlot disk) with
  | some l =>
    rw [placed_slot slot] at is
    obtain rfl := Option.some.inj is
    have written : SlotWritten g disk (putAt disk l 0 entry) first l :=
      putAt_written fats intact (List.mem_of_find?_eq_some slot) (by omega)
    exact written.intact
  | none =>
    obtain ⟨new, added, -⟩ := placed_added fats per intact (blank_of_full slot)
      (fun _ c free => (freeCluster_some free).2.1.trans_le small) length goes is
    exact added.intact

/-- A name that was missing is found at the entry that was put into the directory just if the entry
shows it and scans come there. -/
theorem placed_found_iff (fats : 0 < g.numFats) (per : 0 < g.sectorsPerCluster) (small : g.totalEntries ≤ 2 ^ 16)
    (intact : Intact g disk first) (length : entry.length = 32) (goes : ofBytes entry 0 ≠ 0#8)
    (is : placed g disk first entry = some disk') (missing : findSlot disk (dirSlots g disk first) name = none) :
    (∃ l, findSlot disk' (dirSlots g disk' first) name = some l ∧ rawAt disk' l = ofBytes entry) ↔
      fatDecode83Name (ofBytes entry) = name ∧ realEntry (ofBytes entry) = true ∧ Reachable g disk first := by
  have shape : (∃ l, findSlot disk' (dirSlots g disk' first) name = some l ∧ rawAt disk' l = ofBytes entry) →
      fatDecode83Name (ofBytes entry) = name ∧ realEntry (ofBytes entry) = true := by
    rintro ⟨l, found, raw⟩
    obtain ⟨real, shows⟩ := findSlot_some found
    rw [raw] at real shows
    exact ⟨shows, real⟩
  cases slot : (dirSlots g disk first).find? (freeSlot disk) with
  | some l =>
    rw [placed_slot slot] at is
    obtain rfl := Option.some.inj is
    have written : SlotWritten g disk (putAt disk l 0 entry) first l :=
      putAt_written fats intact (List.mem_of_find?_eq_some slot) (by omega)
    have raw : rawAt (putAt disk l 0 entry) l = ofBytes entry := by
      rw [rawAt_putAt_self (by omega), patch_whole length]
    refine ⟨fun found => ⟨(shape found).1, (shape found).2, .inl (by rw [slot]; rfl)⟩, fun ⟨shows, real, _⟩ => ⟨l, ?_, raw⟩⟩
    rw [written.slots]
    refine findSlot_filled (nodup_dirSlots intact) written.edited slot (raw ▸ goes) (raw ▸ real) ?_ missing
    unfold display
    rw [raw]
    exact shows
  | none =>
    obtain ⟨new, added, one⟩ := placed_added fats per intact (blank_of_full slot)
      (fun _ c free => (freeCluster_some free).2.1.trans_le small) length goes is
    refine ⟨fun found => ?_, fun ⟨shows, real, reach⟩ => ?_⟩
    · obtain ⟨shows, real⟩ := shape found
      refine ⟨shows, real, (one.mp ?_).2⟩
      obtain ⟨l, found, -⟩ := found
      match new, added.one with
      | [x], _ => exact ⟨x, rfl⟩
      | [], _ =>
        obtain ⟨before, behind, was, now⟩ := added.place
        rw [List.append_nil, ← was] at now
        rw [findSlot_live, now, find_display_congr added.old, ← findSlot_live, missing] at found
        cases found
    · obtain ⟨l, rfl⟩ := one.mpr ⟨real, reach⟩
      exact ⟨l, added.find_new shows missing, (added.raw l List.mem_cons_self).1⟩

end Finding

section Statements

variable (g : Geometry) (fuel : Nat)

/-- A lookup of the name hands out the entry with these bytes. -/
def FindsEntry (t : Fat) (dir : Option Nat) (name entry : List (BitVec 8)) : Prop :=
  ∃ u i l, fatDirLookup g fuel t dir name = some (u, some i) ∧
    u.nodes i = entryNode dir (display t.disk l) (rawAt t.disk l) l.1 l.2 ∧ rawAt t.disk l = ofBytes entry

/-- The short form of the name shows the name itself and is not a deleted one, a node is left for
looking it up, and scans of the directory come to where its entry goes. -/
structure Findable (s : Fat) (disk : Nat → Sector) (dir : Option Nat) (name : List (BitVec 8)) : Prop where
  faithful : displayAs name = name
  undeleted : shown name = true
  left : s.count < fatMaxNodes
  reach : Reachable g disk (s.metaOf dir).firstCluster

/-- No directory of the volume shows a name twice. -/
def DistinctNames (disk : Nat → Sector) : Prop :=
  ∀ first, InTree g disk first → ((live g disk first).map (display disk)).Nodup

/-- One of the calls that work on names, on nodes that have just been looked up. -/
def NameCall (s : Fat) : FatOp → Prop
  | .write .. => False
  | op => OnLookedUp g s op

/-- A name that is created shows as itself, and a node was left when it was looked for; no directory
is made to remove the entry of itself. -/
def FaithfulCall (s : Fat) : FatOp → Prop
  | .create _ name | .mkdir _ name => displayAs name = name ∧ s.count < fatMaxNodes
  | op => SparesDots g s op

end Statements

section Calls

variable {g : Geometry} {fuel : Nat} {s t : Fat} {dir : Option Nat} {name entry : List (BitVec 8)} {d : Nat → Sector}

theorem findsEntry_iff (calm : t.Calm) (enough : fullFuel ≤ fuel) (intact : Intact g t.disk (t.metaOf dir).firstCluster) :
    FindsEntry g fuel t dir name entry ↔
      t.count < fatMaxNodes ∧ ∃ l, slotOf g t dir name = some l ∧ rawAt t.disk l = ofBytes entry := by
  constructor
  · rintro ⟨u, i, l, call, node, raw⟩
    rcases slotOf_cases g t dir name with ⟨x, found, left⟩ | missing
    · rw [lookup_found calm enough intact found left] at call
      obtain ⟨rfl, is⟩ := Prod.mk.inj (Option.some.inj call)
      obtain rfl := Option.some.inj is
      rw [took_node] at node
      have place := congrArg FatNode.priv node
      have here : x = l := Prod.ext (congrArg FatMeta.direntLba place) (congrArg FatMeta.direntOffset place)
      exact ⟨left, x, found, here ▸ raw⟩
    · rw [lookup_missing calm enough intact missing] at call
      cases call
  · rintro ⟨left, l, found, raw⟩
    exact ⟨_, _, l, lookup_found calm enough intact found left, took_node, raw⟩

/-- What was put into a directory by a call that did not find its name is found just if it is findable. -/
theorem entered_found_iff {disk : Nat → Sector} {attr : BitVec 8} {cluster : Nat} (fats : 0 < g.numFats)
    (per : 0 < g.sectorsPerCluster) (small : g.totalEntries ≤ 2 ^ 16) (enough : fullFuel ≤ fuel) (calm : s.Calm)
    (intact : Intact g disk (s.metaOf dir).firstCluster) (ordinary : attr = attrArchive ∨ attr = attrDirectory)
    (plain : 0#8 ∉ name)
    (missing : findSlot disk (dirSlots g disk (s.metaOf dir).firstCluster) name = none ∨ fatMaxNodes ≤ s.count)
    (is : placed g disk (s.metaOf dir).firstCluster (newEntry name attr cluster) = some d) :
    FindsEntry g fuel (s.withDisk d) dir name (newEntry name attr cluster) ↔ Findable g s disk dir name := by
  have calm' : (s.withDisk d).Calm := calm
  have goes : ofBytes (newEntry name attr cluster) 0 ≠ 0#8 := newEntry_first ▸ firstByte_ne_zero plain
  have intact' : Intact g d (s.metaOf dir).firstCluster := placed_intact fats per small intact newEntry_length goes is
  rw [findsEntry_iff calm' enough (by rw [withDisk_metaOf]; exact intact')]
  change s.count < fatMaxNodes ∧ (∃ l, slotOf g (s.withDisk d) dir name = some l ∧ rawAt d l = _) ↔ _
  by_cases left : s.count < fatMaxNodes
  · have absent := missing.resolve_right (Nat.not_le.mpr left)
    have found := placed_found_iff fats per small intact newEntry_length goes is absent
    rw [newEntry_display, newEntry_real ordinary] at found
    unfold slotOf
    rw [withDisk_metaOf, withDisk_disk, found]
    exact ⟨fun ⟨left, faithful, undeleted, reach⟩ => ⟨faithful, undeleted, left, reach⟩,
      fun h => ⟨left, h.faithful, h.undeleted, h.reach⟩⟩
  · exact ⟨fun both => absurd both.1 left, fun h => absurd h.left left⟩

/-- A file that was created is found just if its name is findable. -/
theorem create_found_iff (fats : 0 < g.numFats) (per : 0 < g.sectorsPerCluster) (small : g.totalEntries ≤ 2 ^ 16)
    (enough : fullFuel ≤ fuel) (calm : s.Calm) (intact : Intact g s.disk (s.metaOf dir).firstCluster) (plain : 0#8 ∉ name)
    (call : fatDirCreate g fuel s dir name = some (t, 0)) :
    FindsEntry g fuel t dir name (newEntry name attrArchive 0) ↔ Findable g s s.disk dir name := by
  obtain ⟨u, e, ends, -, effect⟩ := create_effect calm enough intact name
  rw [call] at ends
  obtain ⟨rfl, rfl⟩ := Prod.mk.inj (Option.some.inj ends)
  rcases effect with ⟨failed, -⟩ | ⟨-, missing, d, rfl, is⟩
  · exact absurd rfl failed
  · exact entered_found_iff fats per small enough calm intact (.inl rfl) plain missing is

/-- A directory that was made is found just if its name is findable, once its cluster is taken. -/
theorem mkdir_found_iff (fats : 0 < g.numFats) (per : 0 < g.sectorsPerCluster) (small : g.totalEntries ≤ 2 ^ 16)
    (enough : fullFuel ≤ fuel) (calm : s.Calm) (intact : Intact g s.disk (s.metaOf dir).firstCluster) (plain : 0#8 ∉ name)
    (call : fatDirMkdir g fuel s dir name = some (t, 0)) :
    ∃ c, freeCluster g s.disk = some c ∧ (FindsEntry g fuel t dir name (newEntry name attrDirectory c) ↔
      Findable g s (madeDir g s.disk c (s.metaOf dir).firstCluster) dir name) := by
  obtain ⟨u, e, ends, -, effect⟩ := mkdir_effect fats per small calm enough intact name
  rw [call] at ends
  obtain ⟨rfl, rfl⟩ := Prod.mk.inj (Option.some.inj ends)
  rcases effect with ⟨failed, -⟩ | ⟨missing, c, free, ⟨failed, -⟩ | ⟨-, d, rfl, is⟩⟩
  · exact absurd rfl failed
  · exact absurd rfl failed
  · obtain ⟨low, bound, zero⟩ := freeCluster_some free
    have fresh : FreshDir g s.disk (madeDir g s.disk c (s.metaOf dir).firstCluster) c (s.metaOf dir).firstCluster :=
      madeDir_made fats per low bound (bound.trans_le small)
    have frame := fresh.frame low zero
    obtain ⟨intact', -, slots⟩ := frame.object intact fun _ _ => id
    refine ⟨c, free, entered_found_iff fats per small enough calm intact' (.inr rfl) plain ?_ is⟩
    refine missing.imp_left fun absent => ?_
    rw [slots, findSlot_congr fun x mem => frame.raw intact (fun _ _ => id) mem]
    exact absent

end Calls

section Distinct

variable {g : Geometry} {disk disk' : Nat → Sector} {home first : Nat} {entry : Option Loc} {gone : Nat → Prop}
  {own : Nat → Prop} {bytes : List (BitVec 8)} {new : List Loc} {l : Loc}

theorem DistinctNames.edited (distinct : DistinctNames g disk) (edit : DirEdit g disk disk' home entry gone)
    (here : ((live g disk' home).map (display disk')).Nodup)
    (made : ∀ x, entry = some x → x ∈ live g disk' home → entryType (rawAt disk' x) = .dir →
      ((live g disk' (clusterOf disk' x)).map (display disk')).Nodup) : DistinctNames g disk' := by
  intro first tree
  rcases edit.dirs tree with ⟨old, there⟩ | ⟨x, is, mem, isDir, rfl⟩
  · by_cases same : first = home
    · exact same ▸ here
    · obtain ⟨lives, raw⟩ := edit.others first old there same
      rw [lives, List.map_congr_left fun x mem => display_congr (raw x mem)]
      exact distinct first old
  · exact made x is mem isDir

theorem DistinctNames.framed (distinct : DistinctNames g disk) (chains : ChainTree g disk) (frame : Frame g disk disk' own)
    (away : ∀ first, InTree g disk first → ∀ r ∈ regionsOf g disk first, ¬ own r) : DistinctNames g disk' := by
  refine distinct.edited (chains.framed_edit frame away) ?_ fun _ is => nomatch is
  obtain ⟨lives, raw, -⟩ := frame.directory (chains.dir .root) (away 0 .root)
  rw [lives, List.map_congr_left fun x mem => display_congr (raw x mem)]
  exact distinct 0 .root

theorem NewObject.distinct {parent : Nat} (h : NewObject g disk first parent) : ((live g disk first).map (display disk)).Nodup := by
  have nodup : (live g disk first).Nodup := realSlots_nodup (nodup_dirSlots h.intact)
  by_cases mid : first < fat16EocMin
  · have dots := h.dots mid
    refine nodup.map_on fun x mem y mem' same => ?_
    have differ : dotName ≠ dotDotName := by decide
    rcases (h.bare x mem).place with rfl | rfl <;> rcases (h.bare y mem').place with rfl | rfl
    · rfl
    · rw [dots.here_name, dots.up_name] at same
      exact absurd same differ
    · rw [dots.here_name, dots.up_name] at same
      exact absurd same.symm differ
    · rfl
  · unfold live
    rw [dirSlots_high h.sub mid]
    exact List.nodup_nil

theorem DistinctNames.added (distinct : DistinctNames g disk) (chains : ChainTree g disk) (tree : InTree g disk home)
    (added : Added g disk disk' home bytes new) (may : MayAdd g disk bytes home)
    (missing : findSlot disk (dirSlots g disk home) (fatDecode83Name (ofBytes bytes)) = none) : DistinctNames g disk' := by
  refine distinct.edited (chains.added_edit tree added may) (added.distinct (distinct home tree) missing) fun x is mem isDir => ?_
  obtain ⟨raw, -⟩ := added.raw x ((one_head added.one).mp is)
  unfold clusterOf
  rw [raw] at isDir ⊢
  rcases may with ⟨-, isFile⟩ | object
  · rw [isFile] at isDir
    cases isDir
  · obtain ⟨lives, same, -⟩ := added.frame.directory object.intact (object.apart_dir chains tree)
    rw [lives, List.map_congr_left fun y inside => display_congr (same y inside)]
    exact object.distinct

theorem DistinctNames.removed (distinct : DistinctNames g disk) (chains : ChainTree g disk) (tree : InTree g disk home)
    (holds : Holds g disk home l) (removed : Removed g disk disk' home l) : DistinctNames g disk' := by
  refine distinct.edited (chains.removed_edit tree holds removed) (removed.distinct (distinct home tree)) fun x is mem => ?_
  rw [removed.entries, List.mem_filter] at mem
  obtain rfl := Option.some.inj is
  simp at mem

theorem DistinctNames.placed {d : Nat → Sector} (distinct : DistinctNames g disk) (t : VolumeTree g disk)
    (fats : 0 < g.numFats) (per : 0 < g.sectorsPerCluster) (small : g.totalEntries ≤ 2 ^ 16) (tree : InTree g disk first)
    (length : bytes.length = 32) (goes : ofBytes bytes 0 ≠ 0#8) (may : MayAdd g disk bytes first)
    (missing : findSlot disk (dirSlots g disk first) (fatDecode83Name (ofBytes bytes)) = none)
    (is : Isunux.placed g disk first bytes = some d) : DistinctNames g d := by
  obtain ⟨new, added, -⟩ := placed_added fats per (t.dir tree) (t.blank first tree)
    (fun _ c free => (freeCluster_some free).2.1.trans_le small) length goes is
  exact distinct.added t.toChainTree tree added may missing

end Distinct

section Runs

variable {g : Geometry} {fuel : Nat} {s t : Fat}

theorem NameCall.looked {op : FatOp} (h : NameCall g s op) : OnLookedUp g s op := by
  cases op with
  | write => exact h.elim
  | lookup => exact h
  | create => exact h
  | mkdir => exact h
  | unlink => exact h

theorem FaithfulCall.spares {op : FatOp} (h : FaithfulCall g s op) : SparesDots g s op := by
  cases op with
  | unlink => exact h
  | lookup => trivial
  | write => trivial
  | create => trivial
  | mkdir => trivial

theorem FreshlyFormatted.distinct (fresh : FreshlyFormatted g s) : DistinctNames g s.disk := by
  intro first tree
  rw [fresh.only tree, fresh.empty]
  exact List.nodup_nil

/-- A faithful name that a call does not find is not among those that the directory shows. -/
theorem absent_display {disk : Nat → Sector} {first : Nat} {name : List (BitVec 8)} {attr : BitVec 8} {cluster : Nat}
    (faithful : displayAs name = name ∧ s.count < fatMaxNodes)
    (missing : findSlot disk (dirSlots g disk first) name = none ∨ fatMaxNodes ≤ s.count) :
    findSlot disk (dirSlots g disk first) (fatDecode83Name (ofBytes (newEntry name attr cluster))) = none := by
  rw [newEntry_display, faithful.1]
  exact missing.resolve_right (Nat.not_le.mpr faithful.2)

theorem fatStep_names (fats : 0 < g.numFats) (per : 0 < g.sectorsPerCluster) (small : g.totalEntries ≤ 2 ^ 16)
    (enough : fullFuel ≤ fuel) (calm : s.Calm) (tree : VolumeTree g s.disk) (distinct : DistinctNames g s.disk) {op : FatOp}
    (named : NameCall g s op) (faithful : FaithfulCall g s op) (ends : fatStep g fuel s op = some t) :
    DistinctNames g t.disk := by
  have chains := tree.toChainTree
  cases op with
  | write => exact named.elim
  | lookup dir name =>
    have intact := tree.dir (JustLookedUp.inTree named tree)
    rcases slotOf_cases g s dir name with ⟨l, found, left⟩ | missing
    · rw [fatStep, lookup_found calm enough intact found left] at ends
      obtain rfl := Option.some.inj ends
      exact distinct
    · rw [fatStep, lookup_missing calm enough intact missing] at ends
      obtain rfl := Option.some.inj ends
      exact distinct
  | create dir name =>
    have inTree := JustLookedUp.inTree named.1 tree
    obtain ⟨u, e, call, -, effect⟩ := create_effect calm enough (tree.dir inTree) name
    rw [fatStep, call] at ends
    obtain rfl := Option.some.inj ends
    rcases effect with ⟨-, same⟩ | ⟨-, missing, d, rfl, is⟩
    · rw [same]
      exact distinct
    · exact distinct.placed tree fats per small inTree newEntry_length (newEntry_first ▸ firstByte_ne_zero named.2)
        (.inl ⟨newEntry_cluster, newEntry_file⟩) (absent_display faithful missing) is
  | mkdir dir name =>
    have inTree := JustLookedUp.inTree named.1 tree
    have intact := tree.dir inTree
    obtain ⟨u, e, call, -, effect⟩ := mkdir_effect fats per small calm enough intact name
    rw [fatStep, call] at ends
    obtain rfl := Option.some.inj ends
    rcases effect with ⟨-, same⟩ | ⟨missing, c, free, made⟩
    · rw [same]
      exact distinct
    obtain ⟨tree', inTree', may⟩ := tree.prepared fats per small named.1 free name
    obtain ⟨low, bound, zero⟩ := freeCluster_some free
    have fresh : FreshDir g s.disk (madeDir g s.disk c (s.metaOf dir).firstCluster) c (s.metaOf dir).firstCluster :=
      madeDir_made fats per low bound (bound.trans_le small)
    have frame := fresh.frame low zero
    have distinct' := distinct.framed chains frame fun _ _ _ _ => id
    rcases made with ⟨-, same⟩ | ⟨-, d, rfl, is⟩
    · rw [same]
      exact distinct'
    · refine distinct'.placed tree' fats per small inTree' newEntry_length (newEntry_first ▸ firstByte_ne_zero named.2) may
        (absent_display faithful (missing.imp_left fun absent => ?_)) is
      rw [(frame.object intact fun _ _ => id).2.2, findSlot_congr fun x mem => frame.raw intact (fun _ _ => id) mem]
      exact absent
  | unlink dir name =>
    obtain ⟨u, e, call, -, effect⟩ := unlink_effect fats enough calm tree named faithful
    rw [fatStep, call] at ends
    obtain rfl := Option.some.inj ends
    rcases effect with same | ⟨l, holds, removed⟩
    · rw [same]
      exact distinct
    · exact distinct.removed chains (JustLookedUp.inTree named tree) holds removed

theorem fatRun_names (fats : 0 < g.numFats) (per : 0 < g.sectorsPerCluster) (small : g.totalEntries ≤ 2 ^ 16)
    (enough : fullFuel ≤ fuel) (ops : List FatOp) : ∀ {s : Fat}, s.Calm → VolumeTree g s.disk → DistinctNames g s.disk →
      Run.Along (fatCalls g fuel) (WhileRunning fun s op => NameCall g s op ∧ FaithfulCall g s op) (some s) ops →
        ∃ t, (Run.run (fatCalls g fuel) (some s) ops).1 = some t ∧ DistinctNames g t.disk := by
  induction ops with
  | nil =>
    intro s _ _ distinct _
    exact ⟨s, rfl, distinct⟩
  | cons op rest ih =>
    rintro s calm tree distinct ⟨⟨named, faithful⟩, along⟩
    obtain ⟨t, step, calm', tree'⟩ := fatStep_tree fats per small enough calm tree named.looked faithful.spares
    have distinct' := fatStep_names fats per small enough calm tree distinct named faithful step
    have next : (fatCalls g fuel (some s) op).1 = some t := step
    rw [next] at along
    rw [Run.run_cons, next]
    exact ih calm' tree' distinct' along

end Runs

/-- What is created under a name is found under it just if the short form of the name shows the name;
as long as such names are created, directories do not come to show a name twice. -/
theorem fat_names_faithful (g : Geometry) (fuel : Nat) (fats : 0 < g.numFats) (per : 0 < g.sectorsPerCluster)
    (small : g.totalEntries ≤ 2 ^ 16) (enough : fullFuel ≤ fuel) :
    (∀ s t dir name, s.Calm → Intact g s.disk (s.metaOf dir).firstCluster → 0#8 ∉ name →
      fatDirCreate g fuel s dir name = some (t, 0) →
        (FindsEntry g fuel t dir name (newEntry name attrArchive 0) ↔ Findable g s s.disk dir name)) ∧
    (∀ s t dir name, s.Calm → Intact g s.disk (s.metaOf dir).firstCluster → 0#8 ∉ name →
      fatDirMkdir g fuel s dir name = some (t, 0) →
        ∃ c, freeCluster g s.disk = some c ∧ (FindsEntry g fuel t dir name (newEntry name attrDirectory c) ↔
          Findable g s (madeDir g s.disk c (s.metaOf dir).firstCluster) dir name)) ∧
    ∀ s ops, s.Calm → VolumeTree g s.disk → DistinctNames g s.disk →
      Run.Along (fatCalls g fuel) (WhileRunning fun s op => NameCall g s op ∧ FaithfulCall g s op) (some s) ops →
        ∃ t, (Run.run (fatCalls g fuel) (some s) ops).1 = some t ∧ DistinctNames g t.disk :=
  ⟨fun _ _ _ _ calm intact plain call => create_found_iff fats per small enough calm intact plain call,
    fun _ _ _ _ calm intact plain call => mkdir_found_iff fats per small enough calm intact plain call,
    fun _ ops calm tree distinct along => fatRun_names fats per small enough ops calm tree distinct along⟩

/-- Two files, of which the first is removed. -/
def namesRun : List FatOp := [.create none [0x61#8], .create none [0x62#8], .unlink none [0x61#8]]

theorem namesRun_along : Run.Along (fatCalls (geometryOf (smallBoot 1#8 1#8)) fullFuel)
    (WhileRunning fun s op => NameCall (geometryOf (smallBoot 1#8 1#8)) s op ∧ FaithfulCall (geometryOf (smallBoot 1#8 1#8)) s op)
    (some formattedVolume) namesRun := by
  refine ⟨⟨⟨.root, by decide⟩, by decide, by decide⟩, ?_, ?_, trivial⟩
  · exact whileRunning_of_shown (Run.run (fatCalls (geometryOf (smallBoot 1#8 1#8)) fullFuel) (some formattedVolume)
      (namesRun.take 1)).1 (by decide +kernel) fun s (left : s.count < fatMaxNodes) => ⟨⟨.root, by decide⟩, by decide, left⟩
  -- the root directory has no entries of its own
  · exact whileRunning_of_shown (Run.run (fatCalls (geometryOf (smallBoot 1#8 1#8)) fullFuel) (some formattedVolume)
      (namesRun.take 2)).1 (by decide +kernel) fun s (_ : True) => ⟨.root, fun _ _ _ dots => absurd rfl dots.sub⟩

/-- With names of one lower-case letter. -/
theorem formattedVolume_names :
    (∃ t, fatDirCreate (geometryOf (smallBoot 1#8 1#8)) fullFuel formattedVolume none [0x61#8] = some (t, 0) ∧
      FindsEntry (geometryOf (smallBoot 1#8 1#8)) fullFuel t none [0x61#8] (newEntry [0x61#8] attrArchive 0)) ∧
    (∃ t c, fatDirMkdir (geometryOf (smallBoot 1#8 1#8)) fullFuel formattedVolume none [0x61#8] = some (t, 0) ∧
      FindsEntry (geometryOf (smallBoot 1#8 1#8)) fullFuel t none [0x61#8] (newEntry [0x61#8] attrDirectory c)) ∧
    ∃ t, (Run.run (fatCalls (geometryOf (smallBoot 1#8 1#8)) fullFuel) (some formattedVolume) namesRun).1 = some t ∧
      DistinctNames (geometryOf (smallBoot 1#8 1#8)) t.disk := by
  obtain ⟨create, mkdir, runs⟩ := fat_names_faithful (geometryOf (smallBoot 1#8 1#8)) fullFuel (by decide) (by decide)
    (by decide) le_rfl
  have created : (fatDirCreate (geometryOf (smallBoot 1#8 1#8)) fullFuel formattedVolume none [0x61#8]).map (·.2) = some 0 := by
    decide +kernel
  have made : (fatDirMkdir (geometryOf (smallBoot 1#8 1#8)) fullFuel formattedVolume none [0x61#8]).map (·.2) = some 0 := by
    decide +kernel
  obtain ⟨⟨t, e⟩, call, rfl⟩ := Option.map_eq_some_iff.mp created
  obtain ⟨⟨u, e⟩, call', rfl⟩ := Option.map_eq_some_iff.mp made
  obtain ⟨c, free, found⟩ := mkdir formattedVolume u none [0x61#8] rfl (.inl rfl) (by decide) call'
  have cluster : freeCluster (geometryOf (smallBoot 1#8 1#8)) formattedVolume.disk = some 2 := by decide +kernel
  obtain rfl := Option.some.inj (free.symm.trans cluster)
  refine ⟨⟨t, call, ?_⟩, ⟨u, 2, call', ?_⟩, ?_⟩
  · exact (create formattedVolume t none [0x61#8] rfl (.inl rfl) (by decide) call).mpr
      ⟨by decide, by decide, by decide, .inl (by decide +kernel)⟩
  · exact found.mpr ⟨by decide, by decide, by decide, .inl (by decide +kernel)⟩
  · exact runs formattedVolume namesRun rfl formattedVolume_fresh.tree formattedVolume_fresh.distinct namesRun_along

/-- `Foo`. -/
def mixedCase : List (BitVec 8) := [0x46#8, 0x6F#8, 0x6F#8]

/-- The file is not found under the name it was created under, and can be created again. -/
theorem mixedCase_duplicates :
    (∃ t, fatDirCreate (geometryOf (smallBoot 1#8 1#8)) fullFuel formattedVolume none mixedCase = some (t, 0) ∧
      ¬ FindsEntry (geometryOf (smallBoot 1#8 1#8)) fullFuel t none mixedCase (newEntry mixedCase attrArchive 0)) ∧
    VolumeTree (geometryOf (smallBoot 1#8 1#8)) formattedVolume.disk ∧
    DistinctNames (geometryOf (smallBoot 1#8 1#8)) formattedVolume.disk ∧
    Run.Along (fatCalls (geometryOf (smallBoot 1#8 1#8)) fullFuel) (WhileRunning (NameCall (geometryOf (smallBoot 1#8 1#8))))
      (some formattedVolume) [.create none mixedCase, .create none mixedCase] ∧
    ∃ t, (Run.run (fatCalls (geometryOf (smallBoot 1#8 1#8)) fullFuel) (some formattedVolume)
      [.create none mixedCase, .create none mixedCase]).1 = some t ∧ ¬ DistinctNames (geometryOf (smallBoot 1#8 1#8)) t.disk := by
  refine ⟨?_, formattedVolume_fresh.tree, formattedVolume_fresh.distinct, ⟨⟨.root, by decide⟩, ?_, trivial⟩, ?_⟩
  · have created : (fatDirCreate (geometryOf (smallBoot 1#8 1#8)) fullFuel formattedVolume none mixedCase).map (·.2) = some 0 := by
      decide +kernel
    obtain ⟨⟨t, e⟩, call, rfl⟩ := Option.map_eq_some_iff.mp created
    refine ⟨t, call, fun finds => ?_⟩
    have calm : formattedVolume.Calm := rfl
    have findable := (create_found_iff (by decide) (by decide) (by decide) le_rfl calm (.inl rfl) (by decide) call).mp finds
    exact absurd findable.faithful (by decide)
  · cases (fatCalls (geometryOf (smallBoot 1#8 1#8)) fullFuel (some formattedVolume) (.create none mixedCase)).1 with
    | none => trivial
    | some t => exact ⟨.root, by decide⟩
  · have shown : ((Run.run (fatCalls (geometryOf (smallBoot 1#8 1#8)) fullFuel) (some formattedVolume)
        [.create none mixedCase, .create none mixedCase]).1).map (fun t =>
          (live (geometryOf (smallBoot 1#8 1#8)) t.disk 0).map (display t.disk)) =
        some [[0x66#8, 0x6F#8, 0x6F#8], [0x66#8, 0x6F#8, 0x6F#8]] := by decide +kernel
    obtain ⟨t, run, is⟩ := Option.map_eq_some_iff.mp shown
    refine ⟨t, run, fun distinct => ?_⟩
    have once := distinct 0 .root
    rw [is] at once
    exact absurd once (by decide)

end Isunux
