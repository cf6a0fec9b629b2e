import Mathlib.Tactic

/-! Finite maps kept in a fixed row of slots. A slot holds a key and its value, or nothing;
a key is stored in the slot that has it, else in the first empty one, else not at all. -/
namespace SlotMap

variable {A K V : Type*}

/-! The first element that fits -/

def updateFirst (p : A → Bool) (f : A → A) : List A → Option (List A)
  | [] => none
  | a :: rest => if p a then some (f a :: rest) else (updateFirst p f rest).map (a :: ·)

theorem updateFirst_cases (p : A → Bool) (f : A → A) (xs : List A) :
    (updateFirst p f xs = none ∧ ∀ a ∈ xs, p a = false) ∨
      ∃ pre a post, xs = pre ++ a :: post ∧ (∀ b ∈ pre, p b = false) ∧ p a = true ∧
        updateFirst p f xs = some (pre ++ f a :: post) := by
  induction xs with
  | nil => exact .inl ⟨rfl, nofun⟩
  | cons x rest ih =>
    by_cases here : p x = true
    · exact .inr ⟨[], x, rest, rfl, nofun, here, if_pos here⟩
    · have other : p x = false := Bool.eq_false_of_not_eq_true here
      rw [updateFirst, if_neg here]
      rcases ih with ⟨absent, none⟩ | ⟨pre, a, post, split, before, fits, found⟩
      · exact .inl ⟨by rw [absent]; rfl, List.forall_mem_cons.mpr ⟨other, none⟩⟩
      · refine .inr ⟨x :: pre, a, post, by rw [split]; rfl, List.forall_mem_cons.mpr ⟨other, before⟩, fits, ?_⟩
        rw [found]
        rfl

theorem updateFirst_map {B : Type*} (view : A → B) {p : A → Bool} {f : A → A} {q : B → Bool} {g : B → B}
    (same : ∀ a, p a = q (view a)) (acts : ∀ a, p a = true → view (f a) = g (view a)) (xs : List A) :
    (updateFirst p f xs).map (List.map view) = updateFirst q g (xs.map view) := by
  induction xs with
  | nil => rfl
  | cons x rest ih =>
    rw [List.map_cons, updateFirst, updateFirst, ← same]
    by_cases here : p x = true
    · rw [if_pos here, if_pos here, ← acts x here]
      rfl
    · rw [if_neg here, if_neg here, ← ih, Option.map_map, Option.map_map]
      rfl

/-! Slots -/

def keys (slots : List (Option (K × V))) : List K := slots.filterMap (Option.map Prod.fst)

section Keys

variable {slots pre post : List (Option (K × V))}

theorem keys_append : keys (pre ++ post) = keys pre ++ keys post := List.filterMap_append

theorem keys_some (key : K) (value : V) : keys (pre ++ some (key, value) :: post) = keys pre ++ key :: keys post :=
  keys_append

theorem keys_none : keys (pre ++ none :: post) = keys pre ++ keys post := keys_append

theorem keys_length_le : (keys slots).length ≤ slots.length := List.length_filterMap_le _ _

theorem room_of_lt (few : (keys slots).length < slots.length) : none ∈ slots := by
  induction slots with
  | nil => exact absurd few (Nat.lt_irrefl 0)
  | cons slot rest ih =>
    match slot with
    | none => exact List.mem_cons_self
    | some (k, v) => exact List.mem_cons_of_mem _ (ih (Nat.lt_of_succ_lt_succ few))

end Keys

section Slots

variable [DecidableEq K]

def find (key : K) : List (Option (K × V)) → Option V
  | [] => none
  | none :: rest => find key rest
  | some (k, v) :: rest => if k = key then some v else find key rest

def holds (key : K) (slot : Option (K × V)) : Bool := slot.any fun entry => entry.1 = key

/-- Stores a value in the slot that has the key, else in the first empty one. -/
def set (key : K) (value : V) (slots : List (Option (K × V))) : List (Option (K × V)) :=
  match updateFirst (holds key) (fun _ => some (key, value)) slots with
  | some slots' => slots'
  | none => (updateFirst Option.isNone (fun _ => some (key, value)) slots).getD slots

variable {key k : K} {value : V} {slots pre post : List (Option (K × V))}

theorem find_append : find key (pre ++ post) = (find key pre).or (find key post) := by
  induction pre with
  | nil => rfl
  | cons slot rest ih =>
    match slot with
    | none => exact ih
    | some (k, v) =>
      rw [List.cons_append, find, find]
      by_cases here : k = key
      · rw [if_pos here, if_pos here]
        rfl
      · rw [if_neg here, if_neg here, ih]

theorem find_eq_none_iff : find key slots = none ↔ key ∉ keys slots := by
  induction slots with
  | nil => exact ⟨fun _ => List.not_mem_nil, fun _ => rfl⟩
  | cons slot rest ih =>
    match slot with
    | none => exact ih
    | some (k, v) =>
      change (if k = key then some v else find key rest) = none ↔ key ∉ k :: keys rest
      rw [List.mem_cons, not_or, ← ih]
      by_cases here : k = key
      · rw [if_pos here]
        exact ⟨nofun, fun both => absurd here.symm both.1⟩
      · rw [if_neg here]
        exact ⟨fun absent => ⟨Ne.symm here, absent⟩, And.right⟩

theorem holds_false_of_not_mem (absent : ∀ slot ∈ slots, holds key slot = false) : key ∉ keys slots := by
  intro mem
  obtain ⟨slot, here, named⟩ := List.mem_filterMap.mp mem
  obtain ⟨⟨k, v⟩, rfl, rfl⟩ := Option.map_eq_some_iff.mp named
  exact absurd (absent _ here) (by simp [holds])

/-- What `set` can do: it overwrites a value, fills an empty slot, or finds the row full. -/
inductive Sets (key : K) (value : V) (slots : List (Option (K × V))) : List (Option (K × V)) → Prop
  | overwrites {pre post : List (Option (K × V))} {old : V} (split : slots = pre ++ some (key, old) :: post) (first : key ∉ keys pre) :
      Sets key value slots (pre ++ some (key, value) :: post)
  | fills {pre post : List (Option (K × V))} (split : slots = pre ++ none :: post) (new : key ∉ keys slots) :
      Sets key value slots (pre ++ some (key, value) :: post)
  | full (occupied : none ∉ slots) (new : key ∉ keys slots) : Sets key value slots slots

theorem set_sets (key : K) (value : V) (slots : List (Option (K × V))) :
    Sets key value slots (set key value slots) := by
  unfold set
  rcases updateFirst_cases (holds key) (fun _ => some (key, value)) slots with
    ⟨absent, none⟩ | ⟨pre, slot, post, split, before, fits, found⟩
  · have new := holds_false_of_not_mem none
    rw [absent]
    rcases updateFirst_cases Option.isNone (fun _ => some (key, value)) slots with
      ⟨full, occupied⟩ | ⟨pre, slot, post, split, -, empty, found⟩
    · rw [full]
      exact .full (fun mem => nomatch occupied _ mem) new
    · rw [Option.isNone_iff_eq_none.mp empty] at split
      rw [found]
      exact .fills split new
  · rw [found]
    match slot with
    | some (k, old) =>
      obtain rfl : k = key := of_decide_eq_true fits
      exact .overwrites split (holds_false_of_not_mem before)

theorem find_some (first : key ∉ keys pre) : find key (pre ++ some (key, value) :: post) = some value := by
  rw [find_append, find_eq_none_iff.mpr first, Option.none_or, find, if_pos rfl]

theorem find_other (other : k ≠ key) : find k (pre ++ some (key, value) :: post) = (find k pre).or (find k post) := by
  rw [find_append, find, if_neg (Ne.symm other)]

theorem find_set_self (room : key ∈ keys slots ∨ none ∈ slots) : find key (set key value slots) = some value := by
  have sets := set_sets key value slots
  generalize set key value slots = slots' at sets ⊢
  cases sets with
  | overwrites split first => exact find_some first
  | fills split new =>
    rw [split, keys_none, List.mem_append, not_or] at new
    exact find_some new.1
  | full occupied new => exact room.elim (fun mem => absurd mem new) fun mem => absurd mem occupied

theorem find_set_ne (other : k ≠ key) : find k (set key value slots) = find k slots := by
  have sets := set_sets key value slots
  generalize set key value slots = slots' at sets ⊢
  cases sets with
  | overwrites split first => rw [find_other other, split, find_other other]
  | fills split new =>
    rw [find_other other, split, find_append]
    rfl
  | full occupied new => rfl

theorem length_set : (set key value slots).length = slots.length := by
  have sets := set_sets key value slots
  generalize set key value slots = slots' at sets ⊢
  cases sets with
  | overwrites split first => rw [split, List.length_append, List.length_append]; rfl
  | fills split new => rw [split, List.length_append, List.length_append]; rfl
  | full occupied new => rfl

theorem nodup_set (nodup : (keys slots).Nodup) : (keys (set key value slots)).Nodup := by
  have sets := set_sets key value slots
  generalize set key value slots = slots' at sets ⊢
  cases sets with
  | overwrites split first =>
    rw [split, keys_some] at nodup
    rw [keys_some]
    exact nodup
  | fills split new =>
    rw [split, keys_none] at nodup new
    rw [keys_some]
    exact List.nodup_middle.mpr (List.nodup_cons.mpr ⟨new, nodup⟩)
  | full occupied new => exact nodup

theorem mem_keys_set : (k ∈ keys (set key value slots) → k = key ∨ k ∈ keys slots) ∧
    (k ∈ keys slots → k ∈ keys (set key value slots)) := by
  have sets := set_sets key value slots
  generalize set key value slots = slots' at sets ⊢
  cases sets with
  | overwrites split first =>
    rw [split, keys_some, keys_some]
    exact ⟨.inr, id⟩
  | fills split new =>
    rw [split, keys_some, keys_none, List.mem_append, List.mem_append, List.mem_cons]
    tauto
  | full occupied new => exact ⟨.inr, id⟩

theorem forall_set {P : K × V → Prop} (all : ∀ entry, some entry ∈ slots → P entry) (new : P (key, value)) :
    ∀ entry, some entry ∈ set key value slots → P entry := by
  intro entry mem
  have sets := set_sets key value slots
  generalize set key value slots = slots' at sets mem
  have either : some entry = some (key, value) ∨ some entry ∈ slots := by
    cases sets with
    | overwrites split first =>
      rw [split]
      simp only [List.mem_append, List.mem_cons] at mem ⊢
      tauto
    | fills split new =>
      rw [split]
      simp only [List.mem_append, List.mem_cons] at mem ⊢
      tauto
    | full occupied new => exact .inr mem
  rcases either with same | old
  · exact Option.some.inj same ▸ new
  · exact all entry old

/-! A row written out and read in again -/

def entries (slots : List (Option (K × V))) : List (K × V) := slots.filterMap id

omit [DecidableEq K] in
theorem map_entries : (entries slots).map Prod.fst = keys slots := by
  unfold entries keys
  rw [List.map_filterMap]
  rfl

theorem find_of_mem_entries (nodup : (keys slots).Nodup) {entry : K × V} (mem : entry ∈ entries slots) :
    find entry.1 slots = some entry.2 := by
  have here : some entry ∈ slots := by
    obtain ⟨slot, here, same⟩ := List.mem_filterMap.mp mem
    exact same ▸ here
  obtain ⟨pre, post, rfl⟩ := List.append_of_mem here
  rw [keys_some] at nodup
  exact find_some fun mem => (List.nodup_append.mp nodup).2.2 _ mem _ List.mem_cons_self rfl

variable {start : List (Option (K × V))}

/-- What holds of a row into which the entries in `done` have been read. -/
structure ReadIn (slots start : List (Option (K × V))) (done : List (K × V)) (row : List (Option (K × V))) : Prop where
  length : row.length = start.length
  nodup : (keys row).Nodup
  known : ∀ k ∈ keys row, k ∈ keys slots
  done : ∀ entry ∈ done, find entry.1 row = some entry.2

theorem ReadIn.step {done : List (K × V)} {row : List (Option (K × V))} (h : ReadIn slots start done row)
    (large : slots.length ≤ start.length) {key : K} {value : V} (named : key ∈ keys slots)
    (new : key ∉ done.map Prod.fst) : ReadIn slots start (done ++ [(key, value)]) (set key value row) := by
  refine ⟨length_set.trans h.length, nodup_set h.nodup, fun k mem => ?_, fun entry mem => ?_⟩
  · rcases mem_keys_set.1 mem with rfl | mem
    · exact named
    · exact h.known k mem
  · rcases List.mem_append.mp mem with mem | mem
    · have other : entry.1 ≠ key := fun same => new (same ▸ List.mem_map_of_mem mem)
      exact (find_set_ne other).trans (h.done entry mem)
    · obtain rfl := List.mem_singleton.mp mem
      refine find_set_self ?_
      by_cases here : key ∈ keys row
      · exact .inl here
      · -- one of the keys is still missing, so the row has fewer keys than slots
        have more : (key :: keys row).length ≤ (keys slots).length :=
          ((List.nodup_cons.mpr ⟨here, h.nodup⟩).subperm (List.cons_subset.mpr ⟨named, h.known⟩)).length_le
        have most := @keys_length_le _ _ slots
        rw [List.length_cons] at more
        exact .inr (room_of_lt (by rw [h.length]; omega))

theorem ReadIn.all {todo done : List (K × V)} {row : List (Option (K × V))} (h : ReadIn slots start done row)
    (large : slots.length ≤ start.length) (named : ∀ entry ∈ todo, entry.1 ∈ keys slots)
    (distinct : ((done ++ todo).map Prod.fst).Nodup) :
    ReadIn slots start (done ++ todo) (todo.foldl (fun row entry => set entry.1 entry.2 row) row) := by
  induction todo generalizing done row with
  | nil =>
    rw [List.append_nil]
    exact h
  | cons entry rest ih =>
    have new : entry.1 ∉ done.map Prod.fst := by
      rw [List.map_append, List.map_cons] at distinct
      exact fun mem => (List.nodup_append.mp distinct).2.2 _ mem _ List.mem_cons_self rfl
    have joined : done ++ entry :: rest = (done ++ [entry]) ++ rest := by rw [List.append_assoc]; rfl
    rw [joined] at distinct ⊢
    exact ih (h.step large (named entry List.mem_cons_self) new)
      (fun e mem => named e (List.mem_cons_of_mem entry mem)) distinct

/-- Read into a row whose keys it has, a row without duplicate keys comes out as the same map. -/
theorem find_rebuilt (nodup : (keys slots).Nodup) (large : slots.length ≤ start.length) (start_nodup : (keys start).Nodup)
    (known : ∀ k ∈ keys start, k ∈ keys slots) (key : K) :
    find key ((entries slots).foldl (fun row entry => set entry.1 entry.2 row) start) = find key slots := by
  have named : ∀ entry ∈ entries slots, entry.1 ∈ keys slots := fun entry mem =>
    (@map_entries _ _ slots) ▸ List.mem_map_of_mem mem
  have begun : ReadIn slots start [] start := ⟨rfl, start_nodup, known, nofun⟩
  have read := begun.all large named (by rw [List.nil_append, map_entries]; exact nodup)
  rw [List.nil_append] at read
  by_cases mem : key ∈ keys slots
  · obtain ⟨entry, here, rfl⟩ := List.mem_map.mp ((@map_entries _ _ slots) ▸ mem)
    rw [read.done entry here, find_of_mem_entries nodup here]
  · rw [find_eq_none_iff.mpr mem, find_eq_none_iff.mpr fun here => mem (read.known key here)]

end Slots

end SlotMap
