import Mathlib.Data.BitVec
import Mathlib.Data.List.Nodup
import Mathlib.Logic.Function.Basic
import Mathlib.Tactic

/-! A processor's stack of 64-bit words that grows downwards: what a row of pushes
leaves in memory, and what a row of pops takes out of it. -/
namespace Stack

/-- Registers other than the stack pointer, the stack pointer, and memory by words. -/
structure State (R : Type*) where
  regs : R → BitVec 64
  sp : BitVec 64
  mem : BitVec 64 → BitVec 64

/-- The place `i` words above an address. -/
def slot (a : BitVec 64) (i : Nat) : BitVec 64 := a + BitVec.ofNat 64 (8 * i)

@[simp] theorem slot_zero (a : BitVec 64) : slot a 0 = a := by simp [slot]

theorem slot_slot (a : BitVec 64) (i j : Nat) : slot (slot a i) j = slot a (i + j) := by
  simp only [slot, BitVec.add_assoc, ← BitVec.ofNat_add, ← Nat.mul_add]

theorem slot_succ (a : BitVec 64) (i : Nat) : slot a (i + 1) = slot a i + 8#64 := (slot_slot a i 1).symm

theorem slot_up (a : BitVec 64) (i : Nat) : slot (a + 8#64) i = slot a (i + 1) := by
  rw [Nat.add_comm i 1, ← slot_slot]
  rfl

theorem slot_pred (a : BitVec 64) (i : Nat) : slot a (i + 1) - 8#64 = slot a i := by
  rw [slot_succ, BitVec.add_sub_cancel]

theorem slot_injective {a : BitVec 64} {i j : Nat} (hi : 8 * i < 2 ^ 64) (hj : 8 * j < 2 ^ 64) (same : slot a i = slot a j) :
    i = j := by
  have := congrArg BitVec.toNat ((BitVec.add_right_inj a).mp same)
  rw [BitVec.toNat_ofNat, BitVec.toNat_ofNat, Nat.mod_eq_of_lt hi, Nat.mod_eq_of_lt hj] at this
  omega

/-- These words stand in memory from the address on. -/
def Holds (mem : BitVec 64 → BitVec 64) : BitVec 64 → List (BitVec 64) → Prop
  | _, [] => True
  | a, w :: ws => mem a = w ∧ Holds mem (a + 8#64) ws

section Words

variable {mem mem' : BitVec 64 → BitVec 64} {a : BitVec 64} {w : BitVec 64} {ws vs : List (BitVec 64)}

@[simp] theorem holds_nil : Holds mem a [] := trivial

@[simp] theorem holds_cons : Holds mem a (w :: ws) ↔ mem a = w ∧ Holds mem (a + 8#64) ws := Iff.rfl

theorem holds_append : Holds mem a (ws ++ vs) ↔ Holds mem a ws ∧ Holds mem (slot a ws.length) vs := by
  induction ws generalizing a with
  | nil => simp
  | cons w ws ih =>
    rw [List.cons_append, holds_cons, holds_cons, ih, and_assoc, List.length_cons, slot_up]

theorem Holds.congr (h : Holds mem a ws) (same : ∀ i, i < ws.length → mem' (slot a i) = mem (slot a i)) :
    Holds mem' a ws := by
  induction ws generalizing a with
  | nil => trivial
  | cons w ws ih =>
    refine ⟨?_, ih h.2 fun i low => ?_⟩
    · have := same 0 (Nat.succ_pos _)
      rw [slot_zero] at this
      exact this.trans h.1
    · rw [slot_up]
      exact same (i + 1) (Nat.succ_lt_succ low)

theorem Holds.at (h : Holds mem a ws) {i : Nat} (low : i < ws.length) : mem (slot a i) = ws[i] := by
  induction ws generalizing a i with
  | nil => exact absurd low (Nat.not_lt_zero i)
  | cons w ws ih =>
    cases i with
    | zero => simpa using h.1
    | succ i =>
      rw [← slot_up]
      exact ih h.2 (Nat.lt_of_succ_lt_succ low)

theorem holds_of_at (h : ∀ i (low : i < ws.length), mem (slot a i) = ws[i]) : Holds mem a ws := by
  induction ws generalizing a with
  | nil => trivial
  | cons w ws ih =>
    refine ⟨?_, ih fun i low => ?_⟩
    · have first := h 0 (Nat.succ_pos _)
      rwa [slot_zero] at first
    · rw [slot_up]
      exact h (i + 1) (Nat.succ_lt_succ low)

end Words

section Moves

variable {R : Type*} {s : State R} {w : BitVec 64} {ws vs : List (BitVec 64)} {r : R} {rs : List R}

def State.push (s : State R) (w : BitVec 64) : State R :=
  { s with sp := s.sp - 8#64, mem := Function.update s.mem (s.sp - 8#64) w }

def State.pushes (s : State R) (ws : List (BitVec 64)) : State R := ws.foldl State.push s

@[simp] theorem State.pushes_regs (s : State R) (ws : List (BitVec 64)) : (s.pushes ws).regs = s.regs := by
  induction ws generalizing s with
  | nil => rfl
  | cons w ws ih => exact ih (s.push w)

theorem State.pushes_sp (ws : List (BitVec 64)) {a : BitVec 64} {i : Nat} (here : s.sp = slot a (i + ws.length)) : (s.pushes ws).sp = slot a i := by
  induction ws generalizing s with
  | nil => exact here
  | cons w ws ih =>
    refine @ih (s.push w) ?_
    show s.sp - 8#64 = _
    rw [here, List.length_cons, ← Nat.add_assoc, slot_pred]

theorem State.pushes_mem (ws : List (BitVec 64)) {a : BitVec 64} {i : Nat} (here : s.sp = slot a (i + ws.length))
    {b : BitVec 64}
    (off : ∀ j, i ≤ j → j < i + ws.length → b ≠ slot a j) : (s.pushes ws).mem b = s.mem b := by
  induction ws generalizing s with
  | nil => rfl
  | cons w ws ih =>
    rw [List.length_cons, ← Nat.add_assoc] at here off
    have next : (s.push w).sp = slot a (i + ws.length) := by
      show s.sp - 8#64 = _
      rw [here, slot_pred]
    refine (ih next fun j low high => off j low (by omega)).trans ?_
    exact Function.update_of_ne (by rw [here, slot_pred]; exact off _ (by omega) (by omega)) _ _

theorem Holds.push {a : BitVec 64} {i : Nat} (h : Holds s.mem s.sp ws) (here : s.sp = slot a (i + 1))
    (room : 8 * (i + 1 + ws.length) ≤ 2 ^ 64) : Holds (s.push w).mem (s.push w).sp (w :: ws) := by
  have up : (s.push w).sp + 8#64 = s.sp := BitVec.sub_add_cancel _ _
  refine ⟨Function.update_self _ _ _, ?_⟩
  rw [up]
  refine h.congr fun j low => Function.update_of_ne ?_ _ _
  rw [here, slot_pred, slot_slot]
  intro same
  have := slot_injective (by omega) (by omega) same
  omega

theorem Holds.pushes {a : BitVec 64} {i : Nat} (h : Holds s.mem s.sp vs) (here : s.sp = slot a (i + ws.length))
    (room : 8 * (i + ws.length + vs.length) ≤ 2 ^ 64) : Holds (s.pushes ws).mem (s.pushes ws).sp (ws.reverse ++ vs) := by
  induction ws generalizing s vs with
  | nil => exact h
  | cons w ws ih =>
    rw [List.length_cons, ← Nat.add_assoc] at here room
    have next : (s.push w).sp = slot a (i + ws.length) := by
      show s.sp - 8#64 = _
      rw [here, slot_pred]
    rw [List.reverse_cons, List.append_assoc]
    exact ih (h.push here (by omega)) next (by rw [List.singleton_append, List.length_cons]; omega)

theorem holds_pushes (ws : List (BitVec 64)) {a : BitVec 64} {i : Nat} (here : s.sp = slot a (i + ws.length))
    (room : 8 * (i + ws.length) ≤ 2 ^ 64) : Holds (s.pushes ws).mem (s.pushes ws).sp ws.reverse := by
  have pushed := Holds.pushes (s := s) holds_nil here room
  rwa [List.append_nil] at pushed

theorem State.pushes_reverse (ws : List (BitVec 64)) {a : BitVec 64} {i : Nat} (here : s.sp = slot a (i + ws.length))
    (room : 8 * (i + ws.length) ≤ 2 ^ 64) :
    (s.pushes ws.reverse).sp = slot a i ∧ Holds (s.pushes ws.reverse).mem (slot a i) ws ∧
      ∀ b, (∀ j, i ≤ j → j < i + ws.length → b ≠ slot a j) → (s.pushes ws.reverse).mem b = s.mem b := by
  rw [← List.length_reverse] at here room
  have sp := State.pushes_sp ws.reverse here
  have held := holds_pushes ws.reverse here room
  rw [List.reverse_reverse, sp] at held
  refine ⟨sp, held, fun b off => State.pushes_mem ws.reverse here ?_⟩
  rwa [List.length_reverse]

variable [DecidableEq R]

def State.popTo (s : State R) (r : R) : State R :=
  { s with regs := Function.update s.regs r (s.mem s.sp), sp := s.sp + 8#64 }

def State.pops (s : State R) (rs : List R) : State R := rs.foldl State.popTo s

@[simp] theorem State.pops_mem (s : State R) (rs : List R) : (s.pops rs).mem = s.mem := by
  induction rs generalizing s with
  | nil => rfl
  | cons r rs ih => exact ih (s.popTo r)

theorem State.pops_sp (s : State R) (rs : List R) : (s.pops rs).sp = slot s.sp rs.length := by
  induction rs generalizing s with
  | nil => exact (slot_zero _).symm
  | cons r rs ih =>
    refine (ih (s.popTo r)).trans ?_
    exact slot_up s.sp rs.length

theorem State.pops_other (s : State R) (out : r ∉ rs) : (s.pops rs).regs r = s.regs r := by
  induction rs generalizing s with
  | nil => rfl
  | cons q rs ih =>
    rw [List.mem_cons, not_or] at out
    exact (ih (s.popTo q) out.2).trans (Function.update_of_ne out.1 _ _)

theorem Holds.pops (h : Holds s.mem s.sp ws) (length : ws.length = rs.length) (nodup : rs.Nodup) :
    rs.map (s.pops rs).regs = ws := by
  induction rs generalizing s ws with
  | nil =>
    rw [List.length_nil, List.length_eq_zero_iff] at length
    rw [length, List.map_nil]
  | cons r rs ih =>
    cases ws with
    | nil => simp at length
    | cons w ws =>
      rw [List.nodup_cons] at nodup
      have rest := @ih (s.popTo r) ws h.2 (by simpa using length) nodup.2
      have first : (s.pops (r :: rs)).regs r = w := by
        refine ((s.popTo r).pops_other nodup.1).trans ?_
        exact (Function.update_self _ _ _).trans h.1
      rw [List.map_cons, first]
      exact congrArg _ rest

end Moves

end Stack
