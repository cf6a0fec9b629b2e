import Mathlib.Tactic

/-! A picture in linear memory: lines at a fixed distance, pixels of a few bytes, and what
painting some of them leaves of the others. -/
namespace Raster

/-- `width` pixels of `depth` bytes on each line, and lines `pitch` bytes apart. -/
structure Layout where
  width : Nat
  height : Nat
  pitch : Nat
  depth : Nat
  fits : width * depth ≤ pitch

variable {g : Layout} {B : Type*} {x y i x' y' i' : Nat}

/-- Where byte `i` of a pixel is. -/
def Layout.place (g : Layout) (x y i : Nat) : Nat := y * g.pitch + (x * g.depth + i)

theorem line_lt (hx : x < g.width) (hi : i < g.depth) : x * g.depth + i < g.pitch := by
  have := Nat.mul_le_mul_right g.depth hx
  have := g.fits
  rw [Nat.succ_mul] at *
  omega

theorem quotient_unique {p q q' r r' : Nat} (hr : r < p) (hr' : r' < p) (same : q * p + r = q' * p + r') : q = q' ∧ r = r' := by
  have pos : 0 < p := Nat.lt_of_le_of_lt (Nat.zero_le _) hr
  have left : (q * p + r) / p = q := by
    rw [Nat.add_comm, Nat.add_mul_div_right _ _ pos, Nat.div_eq_of_lt hr, Nat.zero_add]
  have right : (q' * p + r') / p = q' := by
    rw [Nat.add_comm, Nat.add_mul_div_right _ _ pos, Nat.div_eq_of_lt hr', Nat.zero_add]
  have eq : q = q' := by rw [← left, same, right]
  subst eq
  exact ⟨rfl, Nat.add_left_cancel same⟩

theorem Layout.place_inj (hx : x < g.width) (hi : i < g.depth) (hx' : x' < g.width) (hi' : i' < g.depth)
    (same : g.place x y i = g.place x' y' i') : x = x' ∧ y = y' ∧ i = i' := by
  obtain ⟨lines, rest⟩ := quotient_unique (line_lt hx hi) (line_lt hx' hi') same
  obtain ⟨columns, bytes⟩ := quotient_unique hi hi' rest
  exact ⟨columns, lines, bytes⟩

theorem Layout.place_lt (hx : x < g.width) (hy : y < g.height) (hi : i < g.depth) : g.place x y i < g.height * g.pitch := by
  have line := line_lt hx hi
  have := Nat.mul_le_mul_right g.pitch hy
  rw [Nat.succ_mul] at this
  rw [Layout.place]
  omega

theorem Layout.place_down (n : Nat) : g.place x (y + n) i = n * g.pitch + g.place x y i := by
  rw [Layout.place, Layout.place, Nat.add_mul]
  omega

/-- A pixel has this colour, given by its bytes. -/
def Shows (g : Layout) (mem : Nat → B) (x y : Nat) (ink : Nat → B) : Prop := ∀ i, i < g.depth → mem (g.place x y i) = ink i

/-- The pixels of an area have been given their colours, and nothing else has changed. -/
structure Painted (g : Layout) (mem mem' : Nat → B) (area : Nat → Nat → Prop) (ink : Nat → Nat → Nat → B) : Prop where
  within : ∀ x y, area x y → x < g.width
  inside : ∀ x y, area x y → Shows g mem' x y (ink x y)
  outside : ∀ a, (∀ x y i, area x y → i < g.depth → a ≠ g.place x y i) → mem' a = mem a

section Painting

variable {mem mem₁ mem₂ : Nat → B} {area area₁ area₂ : Nat → Nat → Prop} {ink : Nat → Nat → Nat → B} {w : Nat → B}

theorem Painted.refl (mem : Nat → B) (ink : Nat → Nat → Nat → B) : Painted g mem mem (fun _ _ => False) ink :=
  ⟨fun _ _ h => h.elim, fun _ _ h => h.elim, fun _ _ => rfl⟩

theorem Painted.keeps (h : Painted g mem mem₁ area ink) (hx : x < g.width) (off : ¬area x y) (was : Shows g mem x y w) :
    Shows g mem₁ x y w := by
  intro i low
  rw [h.outside _ fun x' y' i' inside low' same => ?_, was i low]
  obtain ⟨rfl, rfl, rfl⟩ := Layout.place_inj hx low (h.within _ _ inside) low' same
  exact off inside

theorem Painted.congr (h : Painted g mem mem₁ area ink) (same : ∀ x y, area x y ↔ area₁ x y) : Painted g mem mem₁ area₁ ink where
  within x y in₁ := h.within x y ((same x y).mpr in₁)
  inside x y in₁ := h.inside x y ((same x y).mpr in₁)
  outside a off := h.outside a fun x y i inside => off x y i ((same x y).mp inside)

theorem Painted.trans (h₁ : Painted g mem mem₁ area₁ ink) (h₂ : Painted g mem₁ mem₂ area₂ ink) :
    Painted g mem mem₂ (fun x y => area₁ x y ∨ area₂ x y) ink where
  within x y := by
    rintro (first | second)
    · exact h₁.within x y first
    · exact h₂.within x y second
  inside x y := by
    intro either
    by_cases second : area₂ x y
    · exact h₂.inside x y second
    · have first := either.resolve_right second
      exact h₂.keeps (h₁.within x y first) second (h₁.inside x y first)
  outside a off := by
    rw [h₂.outside a fun x y i second => off x y i (.inr second), h₁.outside a fun x y i first => off x y i (.inl first)]

theorem Painted.foldl {A : Type*} {body : (Nat → B) → A → Nat → B} {part : A → Nat → Nat → Prop} (xs : List A)
    (step : ∀ a ∈ xs, ∀ m, Painted g m (body m a) (part a) ink) (mem : Nat → B) :
    Painted g mem (xs.foldl body mem) (fun x y => ∃ a ∈ xs, part a x y) ink := by
  induction xs generalizing mem with
  | nil => exact (Painted.refl mem ink).congr fun x y => by simp
  | cons a xs ih =>
    have first := step a List.mem_cons_self mem
    have rest := ih (fun b hb => step b (List.mem_cons_of_mem a hb)) (body mem a)
    exact (first.trans rest).congr fun x y => by simp

theorem Painted.beyond (h : Painted g mem mem₁ area ink) (low : ∀ x y, area x y → y < g.height) {a : Nat}
    (high : g.height * g.pitch ≤ a) : mem₁ a = mem a := by
  refine h.outside a fun x y i inside byte same => ?_
  have := Layout.place_lt (h.within x y inside) (low x y inside) byte
  omega

end Painting

end Raster
