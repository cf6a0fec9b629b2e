import Isunux.Shell

/-! The environment of the shell as a finite map, and its way through `envp` into the shell
that is executed next. -/
namespace Isunux

/-! The table as slots -/

def EnvVar.slot (v : EnvVar) : Option (List (BitVec 8) × List (BitVec 8)) := if v.used then some (v.name, v.value) else none

def envSlots (vars : List EnvVar) : List (Option (List (BitVec 8) × List (BitVec 8))) := vars.map EnvVar.slot

section Slots

variable {vars : List EnvVar} {name value : List (BitVec 8)}

theorem slot_holds (v : EnvVar) : (v.used && v.name == name) = SlotMap.holds name v.slot := by
  unfold EnvVar.slot SlotMap.holds
  cases v.used with
  | false => rfl
  | true =>
    rw [if_pos rfl, Bool.true_and, Bool.eq_iff_iff, beq_iff_eq]
    exact decide_eq_true_iff.symm

theorem envGet_slots (vars : List EnvVar) (name : List (BitVec 8)) :
    envGet vars name = SlotMap.find name (envSlots vars) := by
  induction vars with
  | nil => rfl
  | cons v rest ih =>
    unfold envGet at ih ⊢
    rw [List.find?_cons, envSlots, List.map_cons, EnvVar.slot]
    cases used : v.used with
    | false => exact ih
    | true =>
      by_cases here : v.name = name
      · have found : (true && v.name == name) = true := by simp [here]
        rw [found, if_pos rfl, SlotMap.find, if_pos here]
        rfl
      · have passed : (true && v.name == name) = false := by simp [here]
        rw [passed, if_pos rfl, SlotMap.find, if_neg here]
        exact ih

theorem envSet_slots (short : name.length < envNameSize) (fits : value.length < envValueSize) :
    envSlots (envSet vars name value) = SlotMap.set name value (envSlots vars) := by
  have whole : copyBounded envNameSize name = name := List.take_of_length_le (Nat.le_sub_one_of_lt short)
  have whole' : copyBounded envValueSize value = value := List.take_of_length_le (Nat.le_sub_one_of_lt fits)
  have overwrites : ∀ v : EnvVar, (v.used && v.name == name) = true →
      EnvVar.slot { v with value := value } = some (name, value) := by
    intro v found
    obtain ⟨used, named⟩ := Bool.and_eq_true_iff.mp found
    unfold EnvVar.slot
    rw [if_pos used, eq_of_beq named]
  have unused : ∀ v : EnvVar, (!v.used) = v.slot.isNone := by
    intro v
    unfold EnvVar.slot
    cases v.used with
    | true => rfl
    | false => rfl
  unfold envSet SlotMap.set
  rw [whole, whole']
  have first := SlotMap.updateFirst_map EnvVar.slot
    (f := fun v => { v with value := value }) (g := fun _ => some (name, value)) (@slot_holds name) overwrites vars
  have second := SlotMap.updateFirst_map EnvVar.slot unused
    (f := fun _ => ⟨name, value, true⟩) (g := fun _ => some (name, value)) (fun _ _ => rfl) vars
  unfold envSlots
  rw [← first, ← second]
  cases SlotMap.updateFirst (fun v => v.used && v.name == name) (fun v => { v with value := value }) vars with
  | some vars' => rfl
  | none =>
    cases SlotMap.updateFirst (fun v => !v.used) (fun _ => ⟨name, value, true⟩) vars with
    | some vars' => rfl
    | none => rfl

end Slots

/-! Reachable tables -/

/-- The tables that `env_set` makes out of that of `main`. -/
inductive EnvReachable (allowed : List (BitVec 8) → List (BitVec 8) → Prop) : List EnvVar → Prop
  | initial : EnvReachable allowed initialEnv
  | set {vars : List EnvVar} {name value : List (BitVec 8)} (before : EnvReachable allowed vars)
      (may : allowed name value) : EnvReachable allowed (envSet vars name value)

/-- A variable that passes through a string of `envp` and the slots of a table. -/
structure Exportable (name value : List (BitVec 8)) : Prop where
  name_short : name.length < envNameSize
  value_short : value.length < envValueSize
  plain : equalsByte ∉ name

structure ExportableEnv (vars : List EnvVar) : Prop where
  length : vars.length = maxEnv
  nodup : (SlotMap.keys (envSlots vars)).Nodup
  path : pathName ∈ SlotMap.keys (envSlots vars)
  home : homeName ∈ SlotMap.keys (envSlots vars)
  entries : ∀ entry, some entry ∈ envSlots vars → Exportable entry.1 entry.2

theorem initialEnv_slots : envSlots initialEnv =
    some (pathName, defaultPath) :: some (homeName, defaultHome) :: List.replicate 30 none := by decide +kernel

theorem initialEnv_exportable : ExportableEnv initialEnv := by
  refine ⟨by decide +kernel, ?_, ?_, ?_, ?_⟩ <;> rw [initialEnv_slots]
  · decide +kernel
  · decide +kernel
  · decide +kernel
  · intro entry mem
    have either : entry = (pathName, defaultPath) ∨ entry = (homeName, defaultHome) := by simpa using mem
    rcases either with rfl | rfl <;> exact ⟨by decide, by decide, by decide⟩

section Reachable

variable {vars : List EnvVar} {name value : List (BitVec 8)}

theorem envSet_values {P : List (BitVec 8) → Prop} (all : ∀ v ∈ vars, P v.value) (new : P (copyBounded envValueSize value)) :
    ∀ v ∈ envSet vars name value, P v.value := by
  unfold envSet
  rcases SlotMap.updateFirst_cases (fun v => v.used && v.name == name)
      (fun v => { v with value := copyBounded envValueSize value }) vars with
    ⟨absent, -⟩ | ⟨pre, old, post, rfl, -, -, found⟩
  · rw [absent]
    rcases SlotMap.updateFirst_cases (fun v => !v.used)
        (fun _ => ⟨copyBounded envNameSize name, copyBounded envValueSize value, true⟩) vars with
      ⟨full, -⟩ | ⟨pre, old, post, rfl, -, -, filled⟩
    · rw [full]
      exact all
    · rw [filled]
      simp only [Option.getD_some, List.mem_append, List.mem_cons] at all ⊢
      rintro v (mem | rfl | mem)
      · exact all v (.inl mem)
      · exact new
      · exact all v (.inr (.inr mem))
  · rw [found]
    simp only [List.mem_append, List.mem_cons] at all ⊢
    rintro v (mem | rfl | mem)
    · exact all v (.inl mem)
    · exact new
    · exact all v (.inr (.inr mem))

theorem EnvReachable.short {allowed : List (BitVec 8) → List (BitVec 8) → Prop} (h : EnvReachable allowed vars) :
    ∀ v ∈ vars, v.value.length < envValueSize := by
  induction h with
  | initial => decide +kernel
  | set before may ih =>
    refine envSet_values (P := fun value => value.length < envValueSize) ih ?_
    unfold copyBounded envValueSize
    rw [List.length_take]
    omega

theorem ExportableEnv.set (h : ExportableEnv vars) (may : Exportable name value) : ExportableEnv (envSet vars name value) := by
  have slots := @envSet_slots vars name value may.name_short may.value_short
  have length : (envSlots (envSet vars name value)).length = (envSlots vars).length := by rw [slots, SlotMap.length_set]
  unfold envSlots at length
  rw [List.length_map, List.length_map] at length
  refine ⟨length.trans h.length, ?_, ?_, ?_, ?_⟩ <;> rw [slots]
  · exact SlotMap.nodup_set h.nodup
  · exact SlotMap.mem_keys_set.2 h.path
  · exact SlotMap.mem_keys_set.2 h.home
  · exact SlotMap.forall_set h.entries may

theorem EnvReachable.exportable (h : EnvReachable Exportable vars) : ExportableEnv vars := by
  induction h with
  | initial => exact initialEnv_exportable
  | set before may ih => exact ih.set may

/-! Written out and read in again -/

theorem takeWhile_name (plain : equalsByte ∉ name) :
    (name ++ equalsByte :: value).takeWhile (· ≠ equalsByte) = name := by
  have stays : ∀ c ∈ name, decide (c ≠ equalsByte) = true := fun c mem => decide_eq_true fun same => plain (same ▸ mem)
  rw [List.takeWhile_append_of_pos stays]
  exact List.append_nil name

theorem seedVar_entry (may : Exportable name value) : seedVar vars (name ++ equalsByte :: value) = envSet vars name value := by
  unfold seedVar
  dsimp only
  rw [takeWhile_name may.plain, List.drop_left, List.take_of_length_le (Nat.le_sub_one_of_lt may.name_short)]

theorem doAssignment_entry (may : Exportable name value) :
    doAssignment vars (name ++ equalsByte :: value) = envSet vars name value := by
  unfold doAssignment
  dsimp only
  rw [takeWhile_name may.plain, List.take_of_length_le (Nat.le_sub_one_of_lt may.name_short), List.drop_left]
  rfl

theorem envpString_entry (v : EnvVar) (may : Exportable v.name v.value) : envpString v = v.name ++ equalsByte :: v.value := by
  have name := may.name_short
  have value := may.value_short
  unfold envNameSize at name
  unfold envValueSize at value
  unfold envpString envpStrSize
  rw [List.take_of_length_le (by omega)]

theorem buildEnvpArray_entries (all : ∀ entry, some entry ∈ envSlots vars → Exportable entry.1 entry.2) :
    buildEnvpArray vars = (SlotMap.entries (envSlots vars)).map fun entry => entry.1 ++ equalsByte :: entry.2 := by
  induction vars with
  | nil => rfl
  | cons v rest ih =>
    have ih := ih fun entry mem => all entry (List.mem_cons_of_mem _ mem)
    have slot : EnvVar.slot v = if v.used then some (v.name, v.value) else none := rfl
    unfold buildEnvpArray at ih ⊢
    unfold envSlots SlotMap.entries at ih ⊢
    rw [List.filter_cons, List.map_cons, List.filterMap_cons, slot]
    cases used : v.used with
    | false => exact ih
    | true =>
      have here : some (v.name, v.value) ∈ envSlots (v :: rest) := by
        unfold envSlots
        rw [List.map_cons, slot, used]
        exact List.mem_cons_self
      rw [if_pos rfl, if_pos rfl, List.map_cons, envpString_entry v (all _ here), ih]
      rfl

theorem seedEnv_entries {entries : List (List (BitVec 8) × List (BitVec 8))} {start : List EnvVar}
    (all : ∀ entry ∈ entries, Exportable entry.1 entry.2) :
    envSlots ((entries.map fun entry => entry.1 ++ equalsByte :: entry.2).foldl seedVar start) =
      entries.foldl (fun row entry => SlotMap.set entry.1 entry.2 row) (envSlots start) := by
  induction entries generalizing start with
  | nil => rfl
  | cons entry rest ih =>
    have may := all entry List.mem_cons_self
    rw [List.map_cons, List.foldl_cons, List.foldl_cons, ih fun e mem => all e (List.mem_cons_of_mem _ mem),
      seedVar_entry may, envSet_slots may.name_short may.value_short]

theorem ExportableEnv.seeded (h : ExportableEnv vars) (name : List (BitVec 8)) :
    envGet (seedEnv (buildEnvpArray vars)) name = envGet vars name := by
  have start := initialEnv_exportable
  have all : ∀ entry ∈ SlotMap.entries (envSlots vars), Exportable entry.1 entry.2 := by
    intro entry mem
    obtain ⟨slot, here, same⟩ := List.mem_filterMap.mp mem
    exact h.entries entry (same ▸ here)
  have large : (envSlots vars).length ≤ (envSlots initialEnv).length := by
    unfold envSlots
    rw [List.length_map, List.length_map, h.length, start.length]
  have known : ∀ k ∈ SlotMap.keys (envSlots initialEnv), k ∈ SlotMap.keys (envSlots vars) := by
    rw [initialEnv_slots]
    intro k mem
    have either : k = pathName ∨ k = homeName := by simpa [SlotMap.keys] using mem
    rcases either with rfl | rfl
    · exact h.path
    · exact h.home
  unfold seedEnv
  rw [envGet_slots, envGet_slots, buildEnvpArray_entries h.entries, seedEnv_entries all]
  exact SlotMap.find_rebuilt h.nodup large start.nodup known name

theorem envGet_set (may : Exportable name value) (room : (∃ v ∈ vars, v.used = false) ∨ envGet vars name ≠ none) :
    envGet (envSet vars name value) name = some value := by
  rw [envGet_slots, envSet_slots may.name_short may.value_short]
  refine SlotMap.find_set_self ?_
  rcases room with ⟨v, mem, free⟩ | exists'
  · right
    refine List.mem_map.mpr ⟨v, mem, ?_⟩
    unfold EnvVar.slot
    rw [free]
    rfl
  · left
    rw [envGet_slots] at exists'
    exact not_not.mp fun absent => exists' (SlotMap.find_eq_none_iff.mpr absent)

theorem envGet_set_ne (may : Exportable name value) {other : List (BitVec 8)} (differs : other ≠ name) :
    envGet (envSet vars name value) other = envGet vars other := by
  rw [envGet_slots, envGet_slots, envSet_slots may.name_short may.value_short, SlotMap.find_set_ne differs]

end Reachable

/-- A variable that has a slot reads back as it was set and disturbs no other, and the next
shell starts with the same variables. -/
theorem environment_survives_export (vars : List EnvVar) (reachable : EnvReachable Exportable vars) :
    (∀ name value, Exportable name value → (∃ v ∈ vars, v.used = false) ∨ envGet vars name ≠ none →
      envGet (envSet vars name value) name = some value ∧
        ∀ other, other ≠ name → envGet (envSet vars name value) other = envGet vars other) ∧
    ∀ name, envGet (seedEnv (buildEnvpArray vars)) name = envGet vars name :=
  ⟨fun _ _ may room => ⟨envGet_set may room, fun _ differs => envGet_set_ne may differs⟩, reachable.exportable.seeded⟩

/-- `A==`, with which the next shell starts. -/
theorem assignment_survives_export :
    envGet (envSet initialEnv [0x41#8] [equalsByte]) [0x41#8] = some [equalsByte] ∧
      envGet (seedEnv (buildEnvpArray (envSet initialEnv [0x41#8] [equalsByte]))) [0x41#8] = some [equalsByte] := by
  have may : Exportable [0x41#8] [equalsByte] := ⟨by decide, by decide, by decide⟩
  obtain ⟨sets, -⟩ := environment_survives_export initialEnv .initial
  obtain ⟨-, seeds⟩ := environment_survives_export (envSet initialEnv [0x41#8] [equalsByte]) (.set .initial may)
  have stored := (sets _ _ may (.inl ⟨⟨[], [], false⟩, by decide +kernel, rfl⟩)).1
  exact ⟨stored, (seeds [0x41#8]).trans stored⟩

end Isunux
