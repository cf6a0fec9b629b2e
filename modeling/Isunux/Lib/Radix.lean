import Mathlib.Data.List.Infix
import Mathlib.Tactic

/-! Radix trees laid out in a memory of numbered tables. A word decodes to the
number of the table below it, or to nothing. A forest is a family of roots; a
node is a root together with the indices followed from it. The lemmas say which
nodes a write to one table slot can move. -/
namespace Radix

variable {W : Type*} (child : W → Option Nat)

/-- The table reached from `f` by following the indices. -/
def walk (mem : Nat → Nat → W) : Nat → List Nat → Option Nat
  | f, [] => some f
  | f, i :: p => (child (mem f i)).bind fun g => walk mem g p

/-- One slot of one table overwritten. -/
def put (mem : Nat → Nat → W) (f i : Nat) (w : W) : Nat → Nat → W :=
  Function.update mem f (Function.update (mem f) i w)

theorem put_same (mem : Nat → Nat → W) (f i : Nat) (w : W) : put mem f i w f i = w := by
  simp [put]

theorem put_other (mem : Nat → Nat → W) {f i g j : Nat} (w : W) (h : ¬ (g = f ∧ j = i)) :
    put mem f i w g j = mem g j := by
  unfold put
  by_cases hg : g = f
  · subst hg
    have hj : j ≠ i := fun hj => h ⟨rfl, hj⟩
    simp [hj]
  · simp [hg]

theorem put_table (mem : Nat → Nat → W) {f g : Nat} (i : Nat) (w : W) (h : g ≠ f) :
    put mem f i w g = mem g := by
  simp [put, h]

@[simp] theorem walk_nil (mem : Nat → Nat → W) (f : Nat) : walk child mem f [] = some f := rfl

theorem walk_append (mem : Nat → Nat → W) (f : Nat) (p q : List Nat) :
    walk child mem f (p ++ q) = (walk child mem f p).bind fun g => walk child mem g q := by
  induction p generalizing f with
  | nil => rfl
  | cons i p ih => simp only [List.cons_append, walk, Option.bind_assoc, ih]

theorem walk_snoc (mem : Nat → Nat → W) (f : Nat) (p : List Nat) (i : Nat) :
    walk child mem f (p ++ [i]) = (walk child mem f p).bind fun g => child (mem g i) := by
  rw [walk_append]
  simp [walk]

theorem walk_congr (mem mem' : Nat → Nat → W) (f : Nat) (p : List Nat)
    (same : ∀ q i, q ++ [i] <+: p → ∀ g, walk child mem f q = some g → mem' g i = mem g i) :
    walk child mem' f p = walk child mem f p := by
  induction p using List.reverseRecOn with
  | nil => rfl
  | append_singleton p i ih =>
    have hp := ih fun q j hq g hg => same q j (hq.trans (List.prefix_append p [i])) g hg
    rw [walk_snoc, walk_snoc, hp]
    cases hw : walk child mem f p with
    | none => rfl
    | some g => simp [same p i (List.prefix_refl _) g hw]

section Forest

variable {K : Type*} (roots : K → Option Nat)

/-- The table at a node of the forest. -/
def node (mem : Nat → Nat → W) (k : K) (p : List Nat) : Option Nat :=
  (roots k).bind fun r => walk child mem r p

theorem node_root (mem : Nat → Nat → W) (k : K) : node child roots mem k [] = roots k := by
  simp [node]

theorem node_snoc (mem : Nat → Nat → W) (k : K) (p : List Nat) (i : Nat) :
    node child roots mem k (p ++ [i]) =
      (node child roots mem k p).bind fun g => child (mem g i) := by
  simp only [node, walk_snoc, Option.bind_assoc]

theorem node_append (mem : Nat → Nat → W) (k : K) (p q : List Nat) :
    node child roots mem k (p ++ q) =
      (node child roots mem k p).bind fun g => walk child mem g q := by
  simp only [node, walk_append, Option.bind_assoc]

theorem node_prefix {mem : Nat → Nat → W} {k : K} {p q : List Nat} {f : Nat}
    (h : node child roots mem k (p ++ q) = some f) : ∃ g, node child roots mem k p = some g := by
  rw [node_append] at h
  obtain ⟨g, hg, _⟩ := Option.bind_eq_some_iff.mp h
  exact ⟨g, hg⟩

theorem node_congr (mem mem' : Nat → Nat → W) (k : K) (p : List Nat)
    (same : ∀ q i, q ++ [i] <+: p → ∀ g, node child roots mem k q = some g → mem' g i = mem g i) :
    node child roots mem' k p = node child roots mem k p := by
  unfold node
  cases hr : roots k with
  | none => rfl
  | some r =>
    exact walk_congr child mem mem' r p fun q i hq g hg => same q i hq g (by simp [node, hr, hg])

theorem node_put_off (mem : Nat → Nat → W) (f i : Nat) (w : W) (k : K) (p : List Nat)
    (off : ∀ q, q ++ [i] <+: p → node child roots mem k q ≠ some f) :
    node child roots (put mem f i w) k p = node child roots mem k p := by
  apply node_congr
  intro q j hq g hg
  apply put_other
  rintro ⟨rfl, rfl⟩
  exact off q hq hg

theorem node_put_at (mem : Nat → Nat → W) (f i : Nat) (w : W) (k : K) (p : List Nat)
    (here : node child roots mem k p = some f)
    (once : ∀ q, q ++ [i] <+: p → node child roots mem k q ≠ some f) :
    node child roots (put mem f i w) k (p ++ [i]) = child w := by
  rw [node_snoc, node_put_off child roots mem f i w k p once, here]
  simp [put_same]

theorem node_table_off (mem mem' : Nat → Nat → W) (f : Nat) (k : K) (p : List Nat)
    (same : ∀ g, g ≠ f → mem' g = mem g)
    (off : ∀ q i, q ++ [i] <+: p → node child roots mem k q ≠ some f) :
    node child roots mem' k p = node child roots mem k p := by
  apply node_congr
  intro q i hq g hg
  rw [same g]
  rintro rfl
  exact off q i hq hg

end Forest

end Radix
