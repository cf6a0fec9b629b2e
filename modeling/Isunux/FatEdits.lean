import Isunux.FatSlots

/-! What one edited slot does to the entries of a directory. `Blank` is the rule that
the search for a slot relies on: nothing but zeroes stands behind the end mark. -/
namespace Isunux

def zeroEntry : Nat → BitVec 8 := fun _ => 0#8

/-- Slots behind the first end mark are zero. -/
def Blank (disk : Nat → Sector) (slots : List Loc) : Prop :=
  ∀ l ∈ (slots.dropWhile (fun l => rawAt disk l 0 != 0#8)).tail, rawAt disk l = zeroEntry

section Lists

variable {disk disk' : Nat → Sector} {xs ys slots : List Loc} {l : Loc}

theorem usedSlots_append (front : ∀ x ∈ xs, rawAt disk x 0 ≠ 0#8) :
    usedSlots disk (xs ++ ys) = xs ++ usedSlots disk ys := by
  unfold usedSlots
  exact List.takeWhile_append_of_pos fun x mem => by simpa using front x mem

theorem realSlots_append (front : ∀ x ∈ xs, rawAt disk x 0 ≠ 0#8) :
    realSlots disk (xs ++ ys) = (xs.filter fun l => realEntry (rawAt disk l)) ++ realSlots disk ys := by
  unfold realSlots
  rw [usedSlots_append front, List.filter_append]

theorem realSlots_blank (blank : ∀ x ∈ xs, rawAt disk x = zeroEntry) : realSlots disk xs = [] := by
  cases xs with
  | nil => rfl
  | cons x rest => exact realSlots_end (by rw [blank x List.mem_cons_self, zeroEntry])

theorem blank_append (front : ∀ x ∈ xs, rawAt disk x 0 ≠ 0#8) : Blank disk (xs ++ ys) ↔ Blank disk ys := by
  unfold Blank
  rw [List.dropWhile_append_of_pos fun x mem => by simpa using front x mem]

theorem blank_cons (goes : rawAt disk l 0 ≠ 0#8) : Blank disk (l :: xs) ↔ Blank disk xs := by
  unfold Blank
  rw [List.dropWhile_cons_of_pos (by simpa using goes)]

theorem blank_of_zero (zero : ∀ x ∈ xs, rawAt disk x = zeroEntry) : Blank disk xs :=
  fun x mem => zero x (List.dropWhile_subset _ (List.mem_of_mem_tail mem))

theorem Blank.rest (blank : Blank disk (l :: xs)) (ended : rawAt disk l 0 = 0#8) :
    ∀ x ∈ xs, rawAt disk x = zeroEntry := by
  unfold Blank at blank
  rw [List.dropWhile_cons_of_neg (by simpa using ended)] at blank
  exact blank

theorem realSlots_congr (same : ∀ x ∈ slots, rawAt disk' x = rawAt disk x) :
    realSlots disk' slots = realSlots disk slots := by
  induction slots with
  | nil => rfl
  | cons l rest ih =>
    have here := same l List.mem_cons_self
    have tail := ih fun x mem => same x (List.mem_cons_of_mem l mem)
    by_cases ended : rawAt disk l 0 = 0#8
    · rw [realSlots_end ended, realSlots_end (here ▸ ended)]
    by_cases real : realEntry (rawAt disk l) = true
    · rw [realSlots_real ended real, realSlots_real (here ▸ ended) (here ▸ real), tail]
    · rw [realSlots_skip ended real, realSlots_skip (here ▸ ended) (here ▸ real), tail]

theorem marks_congr (zeros : ∀ x ∈ slots, (rawAt disk' x 0 = 0#8 ↔ rawAt disk x 0 = 0#8)) :
    usedSlots disk' slots = usedSlots disk slots ∧
      slots.dropWhile (fun l => rawAt disk' l 0 != 0#8) = slots.dropWhile (fun l => rawAt disk l 0 != 0#8) := by
  unfold usedSlots
  induction slots with
  | nil => exact ⟨rfl, rfl⟩
  | cons x rest ih =>
    have here : (rawAt disk' x 0 != 0#8) = (rawAt disk x 0 != 0#8) := by
      rw [Bool.eq_iff_iff]
      simpa using not_congr (zeros x List.mem_cons_self)
    obtain ⟨used, left⟩ := ih fun x mem => zeros x (List.mem_cons_of_mem _ mem)
    rw [List.takeWhile_cons, List.takeWhile_cons, List.dropWhile_cons, List.dropWhile_cons, here, used, left]
    exact ⟨rfl, rfl⟩

theorem Blank.congr (blank : Blank disk slots) (same : ∀ x ∈ slots, rawAt disk' x = rawAt disk x) :
    Blank disk' slots := by
  intro x mem
  have zeros : ∀ x ∈ slots, (rawAt disk' x 0 = 0#8 ↔ rawAt disk x 0 = 0#8) := fun x mem => by rw [same x mem]
  rw [(marks_congr zeros).2] at mem
  rw [same x (List.dropWhile_subset _ (List.mem_of_mem_tail mem))]
  exact blank x mem

theorem realSlots_sub : realSlots disk slots ⊆ slots := fun _ mem =>
  (List.takeWhile_prefix _).subset (List.mem_of_mem_filter mem)

theorem realSlots_nodup (nodup : slots.Nodup) : (realSlots disk slots).Nodup :=
  (nodup.sublist (List.takeWhile_prefix _).sublist).filter _

theorem mem_realSlots (mem : l ∈ realSlots disk slots) :
    rawAt disk l 0 ≠ 0#8 ∧ realEntry (rawAt disk l) = true := by
  unfold realSlots usedSlots at mem
  obtain ⟨mem, real⟩ := List.mem_filter.mp mem
  have all := List.all_eq_true.mp (List.all_takeWhile (p := fun l => rawAt disk l 0 != 0#8) (l := slots)) l mem
  exact ⟨by simpa using all, real⟩

end Lists

section Edits

variable {disk disk' : Nat → Sector} {slots xs ys : List Loc} {l : Loc}

/-- The one slot that an edit is about; all others are as they were. -/
def EditedAt (disk disk' : Nat → Sector) (slots : List Loc) (l : Loc) : Prop :=
  ∀ x ∈ slots, x ≠ l → rawAt disk' x = rawAt disk x

def ifReal (disk : Nat → Sector) (l : Loc) : List Loc := if realEntry (rawAt disk l) then [l] else []

theorem fill_slot (blank : Blank disk slots) (nodup : slots.Nodup) (edited : EditedAt disk disk' slots l)
    (found : slots.find? (freeSlot disk) = some l) (goes : rawAt disk' l 0 ≠ 0#8) :
    ∃ as bs, realSlots disk slots = as ++ bs ∧ realSlots disk' slots = as ++ ifReal disk' l ++ bs ∧
      Blank disk' slots ∧ l ∉ as ++ bs := by
  obtain ⟨free, pre, post, rfl, taken⟩ := List.find?_eq_some_iff_append.mp found
  have front : ∀ x ∈ pre, rawAt disk x 0 ≠ 0#8 := by
    intro x mem zero
    have := taken x mem
    simp [freeSlot, zero] at this
  have apart := List.nodup_append.mp nodup
  have ahead : l ∉ pre := fun mem => apart.2.2 l mem l List.mem_cons_self rfl
  have behind : l ∉ post := (List.nodup_cons.mp apart.2.1).1
  have front' : ∀ x ∈ pre, rawAt disk' x = rawAt disk x := fun x mem =>
    edited x (by simp [mem]) (by rintro rfl; exact ahead mem)
  have post' : ∀ x ∈ post, rawAt disk' x = rawAt disk x := fun x mem =>
    edited x (by simp [mem]) (by rintro rfl; exact behind mem)
  have pre' : (pre.filter fun x => realEntry (rawAt disk' x)) = pre.filter fun x => realEntry (rawAt disk x) :=
    List.filter_congr fun x mem => by rw [front' x mem]
  have goesOn : ∀ x ∈ pre, rawAt disk' x 0 ≠ 0#8 := fun x mem => front' x mem ▸ front x mem
  have sublist : ∀ x ∈ realSlots disk post, x ≠ l := by
    rintro x mem rfl
    exact behind (realSlots_sub mem)
  have filtered : l ∉ pre.filter fun x => realEntry (rawAt disk x) := fun mem => ahead (List.mem_of_mem_filter mem)
  have new : realSlots disk' (pre ++ l :: post) =
      (pre.filter fun x => realEntry (rawAt disk x)) ++ ifReal disk' l ++ realSlots disk' post := by
    rw [realSlots_append goesOn, pre', List.append_assoc]
    congr 1
    unfold ifReal
    by_cases real : realEntry (rawAt disk' l) = true
    · rw [realSlots_real goes real, if_pos real]
      rfl
    · rw [realSlots_skip goes real, if_neg real]
      rfl
  rw [blank_append front] at blank
  by_cases ended : rawAt disk l 0 = 0#8
  · -- the end mark moves to the next slot
    have zero := blank.rest ended
    have zero' : ∀ x ∈ post, rawAt disk' x = zeroEntry := fun x mem => (post' x mem).trans (zero x mem)
    refine ⟨pre.filter fun x => realEntry (rawAt disk x), [], ?_, ?_, ?_, by simpa using filtered⟩
    · rw [realSlots_append front, realSlots_end ended]
    · rw [new, realSlots_blank zero']
    · rw [blank_append goesOn, blank_cons goes]
      exact blank_of_zero zero'
  · have deleted : ¬ realEntry (rawAt disk l) = true := by
      simp only [freeSlot, ended, Bool.or_eq_true, beq_iff_eq, or_false] at free
      simp [realEntry, free]
    refine ⟨pre.filter fun x => realEntry (rawAt disk x), realSlots disk post, ?_, ?_, ?_, ?_⟩
    · rw [realSlots_append front, realSlots_skip ended deleted]
    · rw [new, realSlots_congr post']
    · rw [blank_append goesOn, blank_cons goes]
      exact ((blank_cons ended).mp blank).congr post'
    · rw [List.mem_append, not_or]
      exact ⟨filtered, fun mem => sublist l mem rfl⟩

theorem grow_slots (full : slots.find? (freeSlot disk) = none) (same : ∀ x ∈ slots, rawAt disk' x = rawAt disk x)
    (goes : rawAt disk' l 0 ≠ 0#8) (zero : ∀ x ∈ ys, rawAt disk' x = zeroEntry) :
    realSlots disk' (slots ++ l :: ys) = realSlots disk slots ++ ifReal disk' l ∧
      Blank disk' (slots ++ l :: ys) := by
  have front : ∀ x ∈ slots, rawAt disk' x 0 ≠ 0#8 := by
    intro x mem zero
    have := List.find?_eq_none.mp full x mem
    simp [freeSlot, ← same x mem, zero] at this
  refine ⟨?_, ?_⟩
  · have old : realSlots disk slots = slots.filter fun x => realEntry (rawAt disk' x) := by
      have split : realSlots disk' (slots ++ []) =
          (slots.filter fun x => realEntry (rawAt disk' x)) ++ realSlots disk' [] := realSlots_append front
      rw [List.append_nil] at split
      rw [← realSlots_congr same, split]
      exact List.append_nil _
    rw [realSlots_append front, old]
    congr 1
    unfold ifReal
    by_cases real : realEntry (rawAt disk' l) = true
    · rw [realSlots_real goes real, if_pos real, realSlots_blank zero]
    · rw [realSlots_skip goes real, if_neg real, realSlots_blank zero]
  · rw [blank_append front, blank_cons goes]
    exact blank_of_zero zero

theorem edit_slot (blank : Blank disk slots) (edited : EditedAt disk disk' slots l) (mem : l ∈ realSlots disk slots)
    (goes : rawAt disk' l 0 ≠ 0#8) :
    realSlots disk' slots =
        (realSlots disk slots).filter (fun x => x ≠ l ∨ realEntry (rawAt disk' l) = true) ∧
      Blank disk' slots := by
  obtain ⟨going, -⟩ := mem_realSlots mem
  have zeros : ∀ x ∈ slots, (rawAt disk' x 0 = 0#8 ↔ rawAt disk x 0 = 0#8) := by
    intro x inside
    by_cases here : x = l
    · subst here
      exact ⟨fun zero => absurd zero goes, fun zero => absurd zero going⟩
    · rw [edited x inside here]
  obtain ⟨used, left⟩ := marks_congr zeros
  refine ⟨?_, ?_⟩
  · unfold realSlots
    rw [used, List.filter_filter]
    refine List.filter_congr fun x inside => ?_
    by_cases here : x = l
    · subst here
      have real := (mem_realSlots mem).2
      simp [real]
    · rw [edited x ((List.takeWhile_prefix _).subset inside) here]
      simp [here]
  · intro x inside
    rw [left] at inside
    have zero := blank x inside
    have other : x ≠ l := by
      rintro rfl
      rw [zero] at going
      exact going rfl
    rw [edited x (List.dropWhile_subset _ (List.mem_of_mem_tail inside)) other]
    exact zero

end Edits

end Isunux
