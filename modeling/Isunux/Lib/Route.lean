import Mathlib.Tactic

/-! Walks in a tree that is known by two functions only: the parent of a node and the
child with a name. A walk is a list of moves, and a position is the list of names that
leads to a node, innermost first. Two walks are compared by the positions they pass,
whatever the tree looks like. -/
namespace Route

inductive Move (α : Type) where
  | up
  | down (name : α)
  deriving DecidableEq

section Positions

variable {α : Type}

/-- The positions a walk passes behind its start. At the root there is nothing to go
up to. -/
def stops : List α → List (Move α) → List (List α)
  | _, [] => []
  | h, .up :: ms => h.tail :: stops h.tail ms
  | h, .down a :: ms => (a :: h) :: stops (a :: h) ms

def finish : List α → List (Move α) → List α
  | h, [] => h
  | h, .up :: ms => finish h.tail ms
  | h, .down a :: ms => finish (a :: h) ms

/-- The walk `ns` ends where `ms` ends and passes no position that `ms` does not pass. -/
def SameRoute (ms ns : List (Move α)) : Prop :=
  finish [] ms = finish [] ns ∧ ∀ h ∈ stops [] ns, h = [] ∨ h ∈ stops [] ms

instance [DecidableEq α] (ms ns : List (Move α)) : Decidable (SameRoute ms ns) :=
  inferInstanceAs (Decidable (_ ∧ _))

theorem finish_mem (h : List α) (ms : List (Move α)) : finish h ms = h ∨ finish h ms ∈ stops h ms := by
  induction ms generalizing h with
  | nil => exact .inl rfl
  | cons m ms ih =>
    refine .inr ?_
    cases m with
    | up => exact List.mem_cons.mpr (ih h.tail)
    | down a => exact List.mem_cons.mpr (ih (a :: h))

theorem tail_mem_stops {h p : List α} {ms : List (Move α)} (mem : p ∈ stops h ms) :
    p.tail <:+ h ∨ p.tail ∈ stops h ms := by
  induction ms generalizing h with
  | nil => cases mem
  | cons m ms ih =>
    cases m with
    | up =>
      rcases List.mem_cons.mp mem with rfl | later
      · exact .inl ((List.tail_suffix _).trans (List.tail_suffix _))
      · rcases ih later with above | met
        · exact .inl (above.trans (List.tail_suffix _))
        · exact .inr (List.mem_cons_of_mem _ met)
    | down a =>
      rcases List.mem_cons.mp mem with rfl | later
      · exact .inl List.suffix_rfl
      · rcases ih later with above | met
        · rcases List.suffix_cons_iff.mp above with here | higher
          · exact .inr (List.mem_cons.mpr (.inl here))
          · exact .inl higher
        · exact .inr (List.mem_cons_of_mem _ met)

theorem SameRoute.refl (ms : List (Move α)) : SameRoute ms ms := ⟨rfl, fun _ mem => .inr mem⟩

end Positions

section Trees

variable {α N : Type} (parent : N → N) (child : N → α → Option N)

def walk : N → List (Move α) → Option N
  | n, [] => some n
  | n, .up :: ms => walk (parent n) ms
  | n, .down a :: ms => (child n a).bind fun m => walk m ms

/-- Children know their parents, and the root is its own. -/
structure Lineal (root : N) : Prop where
  top : parent root = root
  back : ∀ n a m, child n a = some m → parent m = n

variable (root : N)

def locate : List α → Option N
  | [] => some root
  | a :: h => (locate h).bind fun n => child n a

variable {parent child root} {h : List α} {n x : N} {ms ns : List (Move α)}

theorem Lineal.locate_up (lineal : Lineal parent child root) (here : locate child root h = some n) :
    locate child root h.tail = some (parent n) := by
  cases h with
  | nil =>
    cases here
    rw [lineal.top]
    rfl
  | cons a h =>
    obtain ⟨m, found, step⟩ := Option.bind_eq_some_iff.mp here
    rw [List.tail_cons, found, lineal.back m a n step]

theorem walk_append : walk parent child n (ms ++ ns) = (walk parent child n ms).bind fun m => walk parent child m ns := by
  induction ms generalizing n with
  | nil => rfl
  | cons m ms ih =>
    cases m with
    | up => exact ih
    | down a =>
      rw [List.cons_append, walk, walk, Option.bind_assoc]
      congr 1
      funext m
      exact ih

/-- Where one tree has everything that the walk meets in the other, the walk goes on. -/
theorem walk_simulation {parent' : N → N} {child' : N → α → Option N} {R : N → N → Prop}
    (up : ∀ n n', R n n' → R (parent n) (parent' n'))
    (down : ∀ n n' a m, R n n' → child n a = some m → ∃ m', child' n' a = some m' ∧ R m m') {n' : N}
    (start : R n n') (walked : walk parent child n ms = some x) :
    ∃ x', walk parent' child' n' ms = some x' ∧ R x x' := by
  induction ms generalizing n n' with
  | nil =>
    cases walked
    exact ⟨n', rfl, start⟩
  | cons m ms ih =>
    cases m with
    | up => exact ih (up n n' start) walked
    | down a =>
      obtain ⟨y, step, rest⟩ := Option.bind_eq_some_iff.mp walked
      obtain ⟨y', step', related⟩ := down n n' a y start step
      rw [walk, step', Option.bind_some]
      exact ih related rest

theorem Lineal.arrives (lineal : Lineal parent child root) (here : locate child root h = some n)
    (walked : walk parent child n ms = some x) :
    (∀ p ∈ stops h ms, (locate child root p).isSome) ∧ locate child root (finish h ms) = some x := by
  induction ms generalizing h n with
  | nil =>
    cases walked
    exact ⟨fun p mem => (List.not_mem_nil mem).elim, here⟩
  | cons m ms ih =>
    cases m with
    | up =>
      have above := lineal.locate_up here
      obtain ⟨passed, last⟩ := ih above walked
      refine ⟨fun p mem => ?_, last⟩
      rcases List.mem_cons.mp mem with rfl | later
      · rw [above]
        rfl
      · exact passed p later
    | down a =>
      obtain ⟨y, step, rest⟩ := Option.bind_eq_some_iff.mp walked
      have below : locate child root (a :: h) = some y := by rw [locate, here, Option.bind_some, step]
      obtain ⟨passed, last⟩ := ih below rest
      refine ⟨fun p mem => ?_, last⟩
      rcases List.mem_cons.mp mem with rfl | later
      · rw [below]
        rfl
      · exact passed p later

theorem Lineal.walk_eq (lineal : Lineal parent child root) (here : locate child root h = some n)
    (open_ : ∀ p ∈ stops h ms, (locate child root p).isSome) :
    walk parent child n ms = locate child root (finish h ms) := by
  induction ms generalizing h n with
  | nil => exact here.symm
  | cons m ms ih =>
    cases m with
    | up => exact ih (lineal.locate_up here) fun p mem => open_ p (List.mem_cons_of_mem _ mem)
    | down a =>
      obtain ⟨y, below⟩ := Option.isSome_iff_exists.mp (open_ (a :: h) List.mem_cons_self)
      have step : child n a = some y := by rwa [locate, here, Option.bind_some] at below
      rw [walk, step, Option.bind_some]
      exact ih below fun p mem => open_ p (List.mem_cons_of_mem _ mem)

/-- In every tree, the walk `ms` leads nowhere or where `ns` leads. -/
theorem SameRoute.walk_eq (same : SameRoute ms ns) (lineal : Lineal parent child root) :
    walk parent child root ms = none ∨ walk parent child root ms = walk parent child root ns := by
  cases walked : walk parent child root ms with
  | none => exact .inl rfl
  | some x =>
    obtain ⟨passed, last⟩ := lineal.arrives (h := []) rfl walked
    refine .inr ?_
    rw [lineal.walk_eq (h := []) rfl fun p mem => ?_, ← same.1, last]
    rcases same.2 p mem with rfl | met
    · rfl
    · exact passed p met

/-- A tree with the positions of the walk `ms` and no others tells the two walks apart. -/
theorem SameRoute.of_walk (lineal : Lineal parent child root)
    (all : ∀ p ∈ stops [] ms, (locate child root p).isSome)
    (only : ∀ p, (locate child root p).isSome → p = [] ∨ p ∈ stops [] ms)
    (apart : ∀ p q, (locate child root p).isSome → locate child root p = locate child root q → p = q)
    (agree : walk parent child root ms = none ∨
      walk parent child root ms = walk parent child root ns) : SameRoute ms ns := by
  have walked := lineal.walk_eq (h := []) rfl all
  have arrived : (locate child root (finish [] ms)).isSome := by
    rcases finish_mem [] ms with start | met
    · rw [start]
      rfl
    · exact all _ met
  obtain ⟨x, last⟩ := Option.isSome_iff_exists.mp arrived
  rw [walked, last] at agree
  obtain ⟨passed, last'⟩ := lineal.arrives (h := []) rfl (agree.resolve_left (by simp)).symm
  exact ⟨apart _ _ arrived (last.trans last'.symm), fun p mem => only p (passed p mem)⟩

/-- Two positions of one node are equally deep, where nothing leads back to the root. -/
theorem Lineal.locate_length (lineal : Lineal parent child root) (top : ∀ n a, child n a ≠ some root)
    {h' : List α} (here : locate child root h = some n) (here' : locate child root h' = some n) :
    h.length = h'.length := by
  induction h generalizing h' n with
  | nil =>
    cases here
    cases h' with
    | nil => rfl
    | cons a h' =>
      obtain ⟨m, -, step⟩ := Option.bind_eq_some_iff.mp here'
      exact absurd step (top m a)
  | cons a h ih =>
    obtain ⟨m, above, step⟩ := Option.bind_eq_some_iff.mp here
    cases h' with
    | nil =>
      cases here'
      exact absurd step (top m a)
    | cons a' h' =>
      obtain ⟨m', above', step'⟩ := Option.bind_eq_some_iff.mp here'
      have same : m' = m := (lineal.back m' a' n step').symm.trans (lineal.back m a n step)
      rw [same] at above'
      rw [List.length_cons, List.length_cons, ih above above']

/-- The way to a node does not lead through its entries, so it stays when one of them changes. -/
theorem Lineal.locate_kept (lineal : Lineal parent child root) (top : ∀ n a, child n a ≠ some root)
    {child' : N → α → Option N} {D : N → Prop} {name : α} (inside : D root)
    (down : ∀ n a m, child n a = some m → D m)
    (rest : ∀ n' a, D n' → (n' ≠ n ∨ a ≠ name) → child' n' a = child n' a) (here : locate child root h = some n) :
    locate child' root h = some n := by
  have good : ∀ {g m}, locate child root g = some m → D m := by
    intro g m at_
    cases g with
    | nil =>
      cases at_
      exact inside
    | cons a g =>
      obtain ⟨k, -, step⟩ := Option.bind_eq_some_iff.mp at_
      exact down k a m step
  have kept : ∀ g m, g.length ≤ h.length → locate child root g = some m → locate child' root g = some m := by
    intro g
    induction g with
    | nil => exact fun m _ at_ => at_
    | cons a g ih =>
      intro m short at_
      obtain ⟨k, above, step⟩ := Option.bind_eq_some_iff.mp at_
      rw [List.length_cons] at short
      rw [locate, ih k (by omega) above, Option.bind_some, rest k a (good above) ?_]
      · exact step
      · refine .inl fun same => ?_
        rw [same] at above
        have equal := lineal.locate_length top above here
        omega
  exact kept h n le_rfl here

theorem walk_downs : walk parent child root (h.reverse.map .down) = locate child root h := by
  induction h with
  | nil => rfl
  | cons a h ih =>
    rw [List.reverse_cons, List.map_append, walk_append, ih, locate]
    congr 1
    funext n
    rw [List.map_singleton, walk]
    cases child n a <;> rfl

theorem Lineal.child_ne (lineal : Lineal parent child root) (top : ∀ n a, child n a ≠ some root) {a : α} {m : N}
    (here : locate child root h = some n) (step : child n a = some m) : m ≠ n := by
  rintro rfl
  have below : locate child root (a :: h) = some m := by rw [locate, here, Option.bind_some, step]
  have equal := lineal.locate_length top here below
  rw [List.length_cons] at equal
  omega

/-- The nodes that a walk meets behind its start. -/
def visits (parent : N → N) (child : N → α → Option N) : N → List (Move α) → List N
  | _, [] => []
  | n, .up :: ms => parent n :: visits parent child (parent n) ms
  | n, .down a :: ms =>
    match child n a with
    | none => []
    | some m => m :: visits parent child m ms

theorem visits_all {D : N → Prop} (up : ∀ n, D n → D (parent n)) (down : ∀ n a m, child n a = some m → D m) (here : D n) :
    ∀ m ∈ visits parent child n ms, D m := by
  induction ms generalizing n with
  | nil => exact fun m mem => absurd mem List.not_mem_nil
  | cons m ms ih =>
    cases m with
    | up => exact List.forall_mem_cons.mpr ⟨up n here, ih (up n here)⟩
    | down a =>
      rw [visits]
      cases step : child n a with
      | none => exact fun m mem => absurd mem List.not_mem_nil
      | some k => exact List.forall_mem_cons.mpr ⟨down n a k step, ih (down n a k step)⟩

theorem walk_mem (arrived : walk parent child n ms = some x) : x = n ∨ x ∈ visits parent child n ms := by
  induction ms generalizing n with
  | nil => exact .inl (Option.some.inj arrived).symm
  | cons m ms ih =>
    cases m with
    | up => exact .inr (List.mem_cons.mpr (ih arrived))
    | down a =>
      cases step : child n a with
      | none =>
        rw [walk, step] at arrived
        cases arrived
      | some k =>
        rw [walk, step] at arrived
        rw [visits, step]
        exact .inr (List.mem_cons.mpr (ih arrived))

theorem walk_kept {parent' : N → N} {child' : N → α → Option N}
    (up : ∀ m, m = n ∨ m ∈ visits parent child n ms → parent' m = parent m)
    (down : ∀ m a k, child m a = some k → m = n ∨ m ∈ visits parent child n ms → k ∈ visits parent child n ms →
      child' m a = some k)
    (arrived : walk parent child n ms = some x) : walk parent' child' n ms = some x := by
  induction ms generalizing n with
  | nil => exact arrived
  | cons m ms ih =>
    cases m with
    | up =>
      rw [walk, up n (.inl rfl)]
      have later : ∀ {k}, k = parent n ∨ k ∈ visits parent child (parent n) ms → k ∈ visits parent child n (.up :: ms) :=
        fun mem => List.mem_cons.mpr mem
      exact ih (fun k mem => up k (.inr (later mem)))
        (fun k a l step mem mem' => down k a l step (.inr (later mem)) (later (.inr mem'))) arrived
    | down a =>
      cases step : child n a with
      | none =>
        rw [walk, step] at arrived
        cases arrived
      | some k =>
        have eq : visits parent child n (.down a :: ms) = k :: visits parent child k ms := by
          rw [visits, step]
        rw [walk, step] at arrived
        rw [eq] at up down
        rw [walk, down n a k step (.inl rfl) List.mem_cons_self]
        exact ih (fun l mem => up l (.inr (List.mem_cons.mpr mem)))
          (fun l b m step mem mem' => down l b m step (.inr (List.mem_cons.mpr mem)) (List.mem_cons_of_mem _ mem')) arrived

theorem walk_without {child' : N → α → Option N} {D : N → Prop} {y : N} (up : ∀ n, D n → D (parent n) ∧ parent n ≠ y)
    (down : ∀ n a m, child n a = some m → D m) (gone : ∀ n a, D n → child n a = some y → child' n a = none)
    (rest : ∀ n a, D n → child n a ≠ some y → child' n a = child n a) (here : D n) :
    walk parent child' n ms = some x ↔ walk parent child n ms = some x ∧ y ∉ visits parent child n ms := by
  induction ms generalizing n with
  | nil => exact ⟨fun arrived => ⟨arrived, List.not_mem_nil⟩, fun arrived => arrived.1⟩
  | cons m ms ih =>
    cases m with
    | up =>
      obtain ⟨above, other⟩ := up n here
      rw [walk, walk, visits, List.mem_cons, not_or, ih above]
      exact ⟨fun ⟨arrived, met⟩ => ⟨arrived, other.symm, met⟩, fun ⟨arrived, _, met⟩ => ⟨arrived, met⟩⟩
    | down a =>
      rw [walk, walk, visits]
      cases step : child n a with
      | none =>
        have none : child' n a = none := by rw [rest n a here (by rw [step]; exact nofun), step]
        rw [none]
        exact ⟨nofun, fun arrived => nomatch arrived.1⟩
      | some m =>
        dsimp only
        by_cases met : m = y
        · rw [met] at step
          rw [gone n a here step, met]
          exact ⟨nofun, fun arrived => absurd List.mem_cons_self arrived.2⟩
        · have kept : child' n a = some m := by
            rw [rest n a here fun same => met (Option.some.inj (step.symm.trans same)), step]
          rw [kept, Option.bind_some, Option.bind_some, ih (down n a m step), List.mem_cons, not_or]
          exact ⟨fun ⟨arrived, later⟩ => ⟨arrived, Ne.symm met, later⟩, fun ⟨arrived, _, later⟩ => ⟨arrived, later⟩⟩

end Trees

section Grafting

variable {α N : Type} {child child' : N → α → Option N} {dir root x : N} {name : α} {old : Option N}

/-- One entry differs: below `dir` the name `name` leads to the new node `x`, in the place of
nothing or of a node that nothing else leads to. Neither has children. -/
structure Graft (child child' : N → α → Option N) (dir : N) (name : α) (old : Option N) (x : N) : Prop where
  before : child dir name = old
  after : child' dir name = some x
  bare : ∀ y, old = some y → ∀ a, child y a = none
  leaf : ∀ a, child' x a = none
  sole : ∀ y, old = some y → ∀ n a, child n a = some y → n = dir ∧ a = name
  fresh : ∀ n a, child n a ≠ some x
  rest : ∀ n a, n ≠ x → old ≠ some n → (n ≠ dir ∨ a ≠ name) → child' n a = child n a

theorem Graft.locate_old (g : Graft child child' dir name old x) (top : root ≠ x) {h : List α} {n : N}
    (here : locate child root h = some n) : n ≠ x := by
  rintro rfl
  cases h with
  | nil =>
    cases here
    exact top rfl
  | cons a h =>
    obtain ⟨m, -, step⟩ := Option.bind_eq_some_iff.mp here
    exact g.fresh m a step

theorem Graft.locate (g : Graft child child' dir name old x) (top : root ≠ x) (topOld : old ≠ some root) (h : List α) :
    (locate child root h = old ∧ locate child' root h = some x) ∨
      (locate child' root h = locate child root h ∧ ∀ y, old = some y → locate child root h ≠ some y) := by
  induction h with
  | nil =>
    refine .inr ⟨rfl, fun y same root => ?_⟩
    cases root
    exact topOld same
  | cons a h ih =>
    rw [Route.locate, Route.locate]
    rcases ih with ⟨at_, at_'⟩ | ⟨same, other⟩
    · -- nothing is below the entry, neither before nor after
      rw [at_', at_, Option.bind_some, g.leaf a]
      refine .inr ⟨?_, fun y isOld found => ?_⟩
      · cases gone : old with
        | none => rfl
        | some y => exact (g.bare y gone a).symm
      · rw [isOld, Option.bind_some, g.bare y isOld a] at found
        cases found
    · rw [same]
      cases here : Route.locate child root h with
      | none => exact .inr ⟨rfl, fun y _ found => by cases found⟩
      | some n =>
        rw [Option.bind_some, Option.bind_some]
        have notOld : old ≠ some n := fun isOld => other n isOld here
        by_cases entry : n = dir ∧ a = name
        · obtain ⟨rfl, rfl⟩ := entry
          exact .inl ⟨g.before, g.after⟩
        · have off : n ≠ dir ∨ a ≠ name := by
            rw [not_and_or] at entry
            exact entry
          refine .inr ⟨g.rest n a (g.locate_old top here) notOld off, fun y isOld found => ?_⟩
          exact entry (g.sole y isOld n a found)

/-- Among nodes that are all right, a walk goes on as before, or ends at the new node where it
ended at the old one. -/
theorem Graft.walk {parent parent' : N → N} {D : N → Prop} (g : Graft child child' dir name old x) (top : root ≠ x)
    (topOld : old ≠ some root) (dirNew : dir ≠ x) (inside : D root) (upInside : ∀ n, D n → D (parent n))
    (downInside : ∀ n a m, child n a = some m → D m)
    (ups : ∀ n, D n → n ≠ x → old ≠ some n → parent' n = parent n ∧ parent n ≠ x ∧ old ≠ some (parent n))
    (back : ∀ y, old = some y → parent y = dir ∧ parent' x = dir) {ms : List (Move α)} {n : N}
    (walked : walk parent child root ms = some n) :
    ∃ n', Route.walk parent' child' root ms = some n' ∧
      (n' = n ∧ D n ∧ n ≠ x ∧ old ≠ some n ∨ old = some n ∧ n' = x) := by
  have notOld : old ≠ some dir := by
    intro isOld
    have none := g.bare dir isOld name
    rw [g.before, isOld] at none
    cases none
  refine walk_simulation (R := fun n n' => n' = n ∧ D n ∧ n ≠ x ∧ old ≠ some n ∨ old = some n ∧ n' = x)
    (fun n n' related => ?_) (fun n n' a m related step => ?_) (.inl ⟨rfl, inside, top, topOld⟩) walked
  · rcases related with ⟨rfl, here, new, kept⟩ | ⟨isOld, rfl⟩
    · obtain ⟨same, upNew, upOld⟩ := ups n' here new kept
      exact .inl ⟨same, upInside n' here, upNew, upOld⟩
    · obtain ⟨up, up'⟩ := back n isOld
      rw [up, up']
      refine .inl ⟨rfl, ?_, dirNew, notOld⟩
      rw [← up]
      exact upInside n (downInside dir name n (g.before.trans isOld))
  · rcases related with ⟨rfl, here, new, kept⟩ | ⟨isOld, rfl⟩
    · by_cases entry : n' = dir ∧ a = name
      · obtain ⟨rfl, rfl⟩ := entry
        rw [g.before] at step
        exact ⟨x, g.after, .inr ⟨step, rfl⟩⟩
      · have off : n' ≠ dir ∨ a ≠ name := by
          rw [not_and_or] at entry
          exact entry
        refine ⟨m, (g.rest n' a new kept off).trans step,
          .inl ⟨rfl, downInside n' a m step, ?_, fun isOld => entry (g.sole m isOld n' a step)⟩⟩
        rintro rfl
        exact g.fresh n' a step
    · rw [g.bare n isOld a] at step
      cases step

end Grafting

end Route
