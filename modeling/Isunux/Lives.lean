import Isunux.Kernel

/-! What a parent may learn about its children. A history is the list of what
happened to processes and of the answers of `process_waitpid`; the life of a pid is
read off it, and a truthful history is one whose answers agree with it. -/
namespace Isunux

inductive Note where
  | born (parent pid : Int)
  | fatal (pid : Int) (status : Nat)
  | suspend (pid : Int)
  | resume (pid : Int)
  | waited (parent target pid : Int) (status : Nat)
  deriving DecidableEq

def Note.pid : Note → Int
  | .born _ pid => pid
  | .fatal pid _ => pid
  | .suspend pid => pid
  | .resume pid => pid
  | .waited _ _ pid _ => pid

def Note.isFatal (pid : Int) : Note → Bool
  | .fatal p _ => p = pid
  | _ => false

def Note.isWaited (pid : Int) : Note → Bool
  | .waited _ _ p _ => p = pid
  | _ => false

inductive Life where
  | alive
  | stopped (reported : Bool)
  | dead (status : Nat)
  | reaped
  deriving DecidableEq

/-- The first fatal event counts, a stop lasts until it is continued, and a parent
is told of each stop and of the end. -/
def Life.on : Life → Note → Life
  | .alive, .fatal _ s => .dead s
  | .stopped _, .fatal _ s => .dead s
  | .alive, .suspend _ => .stopped false
  | .stopped _, .resume _ => .alive
  | .stopped false, .waited _ _ _ _ => .stopped true
  | .dead _, .waited _ _ _ _ => .reaped
  | life, _ => life

def lifeOf (pid : Int) (notes : List Note) : Life :=
  notes.foldl (fun life x => if x.pid = pid then life.on x else life) .alive

@[simp] theorem lifeOf_nil (pid : Int) : lifeOf pid [] = .alive := rfl

theorem lifeOf_snoc (pid : Int) (notes : List Note) (x : Note) :
    lifeOf pid (notes ++ [x]) = if x.pid = pid then (lifeOf pid notes).on x else lifeOf pid notes := by
  simp [lifeOf]

theorem lifeOf_absent {pid : Int} {notes : List Note} (h : ∀ x ∈ notes, x.pid ≠ pid) :
    lifeOf pid notes = .alive := by
  induction notes using List.reverseRecOn with
  | nil => rfl
  | append_singleton notes x ih =>
    rw [lifeOf_snoc, if_neg (h x (by simp))]
    exact ih fun y hy => h y (List.mem_append_left _ hy)

theorem lifeOf_reaped {pid : Int} {notes : List Note} (h : lifeOf pid notes = .reaped) (more : List Note) :
    lifeOf pid (notes ++ more) = .reaped := by
  induction more using List.reverseRecOn with
  | nil => simpa using h
  | append_singleton more x ih =>
    rw [← List.append_assoc, lifeOf_snoc, ih]
    split <;> rfl

/-- What a life says about the notes it was read off. -/
def Life.Explained (pid : Int) (notes : List Note) : Life → Prop
  | .alive => (∀ x ∈ notes, x.isFatal pid = false) ∧
    ∀ before since, notes = before ++ .suspend pid :: since → .resume pid ∈ since
  | .stopped reported => (∀ x ∈ notes, x.isFatal pid = false) ∧
    ∃ before since, notes = before ++ .suspend pid :: since ∧
      (∀ a b, before = a ++ .suspend pid :: b → .resume pid ∈ b) ∧ .resume pid ∉ since ∧
      (reported = false → ∀ x ∈ since, x.isWaited pid = false)
  | .dead status => notes.find? (·.isFatal pid) = some (.fatal pid status)
  | .reaped => True

theorem snoc_split {α : Type*} {notes before since : List α} {x y : α}
    (h : notes ++ [x] = before ++ y :: since) :
    (since = [] ∧ notes = before ∧ x = y) ∨
      ∃ since', since = since' ++ [x] ∧ notes = before ++ y :: since' := by
  rcases List.eq_nil_or_concat since with rfl | ⟨since', z, rfl⟩
  · obtain ⟨h₁, h₂⟩ := List.append_inj' h rfl
    exact .inl ⟨rfl, h₁, by simpa using h₂⟩
  · rw [List.concat_eq_append] at h ⊢
    have : notes ++ [x] = (before ++ y :: since') ++ [z] := by simpa using h
    obtain ⟨h₁, h₂⟩ := List.append_inj' this rfl
    obtain rfl : x = z := by simpa using h₂
    exact .inr ⟨since', rfl, h₁⟩

theorem find_snoc {pid : Int} {notes : List Note} {status : Nat}
    (h : notes.find? (·.isFatal pid) = some (.fatal pid status)) (x : Note) :
    (notes ++ [x]).find? (·.isFatal pid) = some (.fatal pid status) := by
  rw [List.find?_append, h]
  rfl

theorem mild_snoc {pid : Int} {notes : List Note} {x : Note} (h : ∀ y ∈ notes, y.isFatal pid = false)
    (mild : x.isFatal pid = false) : ∀ y ∈ notes ++ [x], y.isFatal pid = false := by
  intro y hy
  rcases List.mem_append.mp hy with hy | hy
  · exact h y hy
  · obtain rfl : y = x := by simpa using hy
    exact mild

theorem first_fatal {pid : Int} {notes : List Note} (h : ∀ y ∈ notes, y.isFatal pid = false)
    (status : Nat) : (notes ++ [Note.fatal pid status]).find? (·.isFatal pid) = some (.fatal pid status) := by
  have none : notes.find? (·.isFatal pid) = none := by
    rw [List.find?_eq_none]
    intro y hy
    simp [h y hy]
  rw [List.find?_append, none]
  simp [Note.isFatal]

theorem Life.Explained.skip {pid : Int} {notes : List Note} {life : Life} (h : life.Explained pid notes)
    {x : Note} (mild : x.isFatal pid = false) (noStop : x ≠ .suspend pid ∨ life ≠ .alive)
    (noCont : x ≠ .resume pid ∨ life = .alive)
    (silent : x.isWaited pid = false ∨ life ≠ .stopped false) : life.Explained pid (notes ++ [x]) := by
  cases life with
  | alive =>
    refine ⟨mild_snoc h.1 mild, fun before since eq => ?_⟩
    rcases snoc_split eq with ⟨-, -, rfl⟩ | ⟨since', rfl, eq'⟩
    · exact absurd rfl (noStop.resolve_right (by simp))
    · exact List.mem_append_left _ (h.2 before since' eq')
  | stopped reported =>
    obtain ⟨none, before, since, eq, first, on, told⟩ := h
    refine ⟨mild_snoc none mild, before, since ++ [x], by simp [eq], first, ?_, ?_⟩
    · intro mem
      rcases List.mem_append.mp mem with mem | mem
      · exact on mem
      · have same : Note.resume pid = x := by simpa using mem
        exact noCont.resolve_right (by simp) same.symm
    · intro unreported y hy
      subst unreported
      rcases List.mem_append.mp hy with hy | hy
      · exact told rfl y hy
      · obtain rfl : y = x := by simpa using hy
        exact silent.resolve_right (by simp)
  | dead status => exact find_snoc h x
  | reaped => trivial

theorem Life.Explained.on {pid : Int} {notes : List Note} {life : Life} (h : life.Explained pid notes)
    {x : Note} (mine : x.pid = pid) : (life.on x).Explained pid (notes ++ [x]) := by
  cases life with
  | alive =>
    cases x with
    | fatal p status =>
      obtain rfl : p = pid := mine
      exact first_fatal h.1 status
    | suspend p =>
      obtain rfl : p = pid := mine
      exact ⟨mild_snoc h.1 rfl, notes, [], rfl, h.2, by simp, by simp⟩
    | born => exact h.skip rfl (.inl (by simp)) (.inl (by simp)) (.inl rfl)
    | resume => exact h.skip rfl (.inl (by simp)) (.inr rfl) (.inl rfl)
    | waited => exact h.skip rfl (.inl (by simp)) (.inl (by simp)) (.inr (by simp))
  | stopped reported =>
    cases x with
    | fatal p status =>
      obtain rfl : p = pid := mine
      exact first_fatal h.1 status
    | resume p =>
      obtain rfl : p = pid := mine
      refine ⟨mild_snoc h.1 rfl, fun before since eq => ?_⟩
      rcases snoc_split eq with ⟨-, -, absurd⟩ | ⟨since', rfl, -⟩
      · cases absurd
      · simp
    | waited parent target p status =>
      cases reported with
      | true => exact h.skip rfl (.inl (by simp)) (.inl (by simp)) (.inr (by simp))
      | false =>
        obtain ⟨none, before, since, eq, first, on, -⟩ := h
        refine ⟨mild_snoc none rfl, before, since ++ [.waited parent target p status], by simp [eq],
          first, ?_, by simp⟩
        simpa using on
    | suspend => exact h.skip rfl (.inr (by simp)) (.inl (by simp)) (.inl rfl)
    | born => exact h.skip rfl (.inl (by simp)) (.inl (by simp)) (.inl rfl)
  | dead status =>
    cases x with
    | waited => trivial
    | _ => exact find_snoc h _
  | reaped => cases x <;> trivial

theorem lifeOf_explained (pid : Int) (notes : List Note) : (lifeOf pid notes).Explained pid notes := by
  induction notes using List.reverseRecOn with
  | nil => exact ⟨by simp, by simp⟩
  | append_singleton notes x ih =>
    rw [lifeOf_snoc]
    split
    · rename_i mine
      exact ih.on mine
    · rename_i other
      refine ih.skip ?_ (.inl ?_) (.inl ?_) (.inl ?_)
      · cases x <;> simp [Note.isFatal]
        exact other
      · rintro rfl
        exact other rfl
      · rintro rfl
        exact other rfl
      · cases x <;> simp [Note.isWaited]
        exact other

/-- An answer of `process_waitpid` that the history bears out: to a child's own
parent, about its end or about a stop it was not told of yet. -/
def Legal (notes : List Note) : Note → Prop
  | .waited parent target pid status =>
    .born parent pid ∈ notes ∧ (target = -1 ∨ pid = target) ∧
      (lifeOf pid notes = .dead status ∨
        lifeOf pid notes = .stopped false ∧ status = encodeStopped sigtstp)
  | _ => True

/-- Every answer agrees with the history before it. -/
def Truthful (notes : List Note) : Prop := ∀ before x, before ++ [x] <+: notes → Legal before x

theorem Truthful.snoc {notes : List Note} (h : Truthful notes) {x : Note} (legal : Legal notes x) :
    Truthful (notes ++ [x]) := by
  intro before y pre
  rcases List.prefix_concat_iff.mp pre with eq | pre
  · obtain ⟨h₁, h₂⟩ := List.append_inj' eq rfl
    obtain rfl : y = x := by simpa using h₂
    exact h₁ ▸ legal
  · exact h before y pre

theorem Truthful.last_word {before after : List Note} {parent target pid : Int} {status : Nat}
    (h : Truthful (before ++ .waited parent target pid status :: after))
    (dead : lifeOf pid before = .dead status) : ∀ x ∈ after, x.isWaited pid = false := by
  intro x hx
  obtain ⟨a, b, rfl⟩ := List.append_of_mem hx
  have gone : lifeOf pid (before ++ .waited parent target pid status :: a) = .reaped := by
    have told : lifeOf pid (before ++ [.waited parent target pid status]) = .reaped := by
      have mine : (Note.waited parent target pid status).pid = pid := rfl
      rw [lifeOf_snoc, if_pos mine, dead]
      rfl
    simpa using lifeOf_reaped told a
  have legal := h (before ++ .waited parent target pid status :: a) x (by simp)
  by_contra told
  cases x with
  | waited parent' target' pid' status' =>
    have same : pid' = pid := by simpa [Note.isWaited] using told
    subst same
    obtain ⟨-, -, h | ⟨h, -⟩⟩ := legal
    · rw [gone] at h; cases h
    · rw [gone] at h; cases h
  | _ => exact told rfl

end Isunux
