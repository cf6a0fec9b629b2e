import Isunux.Memory
import Mathlib.Data.Nat.Digits.Lemmas

/-! mini_printf.c: what `printf` writes is the beginning of the full expansion of its format. A
string is the list of its bytes before the NUL. -/
namespace Isunux

def ascii (c : Char) : BitVec 8 := BitVec.ofNat 8 c.toNat

/-- An argument as the caller passes it: an `int` or `unsigned int`, or a string. -/
inductive PrintfArg where
  | int (v : BitVec 32)
  | str (s : List (BitVec 8))

/-! The function. Its buffer is the list of the bytes written so far; a store behind the
end of an array is a failure. -/

/-- `buf[pos++] = c`, for `char buf[256]`. -/
def bufStore (out : List (BitVec 8)) (c : BitVec 8) : Option (List (BitVec 8)) :=
  if out.length < 256 then some (out ++ [c]) else none

/-- The loops that store bytes one by one while `pos < sizeof(buf) - 1`. -/
def emitAll (out : List (BitVec 8)) : List (BitVec 8) → Option (List (BitVec 8))
  | [] => some out
  | c :: rest => if out.length < 255 then (bufStore out c).bind fun out => emitAll out rest else some out

/-- `digits[k]`. -/
def digitChar (k : Nat) : BitVec 8 := (("0123456789abcdef".toList.map ascii)[k]?).getD 0#8

/-- The digit loop of `print_uint`. `tmp` is a stack with so much room left: the last digit
stored is its first element. -/
def storeDigits (base : Word) : Nat → Word → List (BitVec 8) → Option (List (BitVec 8))
  | 0, val, tmp => if val = 0#64 then some tmp else none
  | room + 1, val, tmp =>
    if val = 0#64 then some tmp else storeDigits base room (val / base) (digitChar (val % base).toNat :: tmp)

def printUint (out : List (BitVec 8)) (val base : Word) : Option (List (BitVec 8)) :=
  (if val = 0#64 then some [ascii '0'] else storeDigits base 32 val []).bind (emitAll out)

def printInt (out : List (BitVec 8)) (val : Word) : Option (List (BitVec 8)) :=
  if val.toInt < 0 then
    (if out.length < 255 then bufStore out (ascii '-') else some out).bind fun out => printUint out (-val) 10#64
  else printUint out val 10#64

/-- The loop of `printf`. It fails where an argument is missing or of the other kind. -/
def printfLoop : List (BitVec 8) → List PrintfArg → List (BitVec 8) → Option (List (BitVec 8))
  | [], _, out => some out
  | [c], _, out =>
    if ¬ out.length < 255 then some out
    else if c ≠ ascii '%' then bufStore out c
    else some out
  | c :: d :: rest, args, out =>
    if ¬ out.length < 255 then some out
    else if c ≠ ascii '%' then (bufStore out c).bind fun out => printfLoop (d :: rest) args out
    else if d = ascii 'd' then
      match args with
      | .int v :: args => (printInt out (v.signExtend 64)).bind fun out => printfLoop rest args out
      | _ => none
    else if d = ascii 's' then
      match args with
      | .str s :: args => (emitAll out s).bind fun out => printfLoop rest args out
      | _ => none
    else if d = ascii 'x' then
      match args with
      | .int v :: args => (printUint out (v.setWidth 64) 16#64).bind fun out => printfLoop rest args out
      | _ => none
    else if d = ascii 'c' then
      match args with
      | .int v :: args => (bufStore out (v.setWidth 8)).bind fun out => printfLoop rest args out
      | _ => none
    else if d = ascii '%' then (bufStore out (ascii '%')).bind fun out => printfLoop rest args out
    else
      (bufStore out (ascii '%')).bind fun out =>
        (if out.length < 255 then bufStore out d else some out).bind fun out => printfLoop rest args out

/-- What `printf` hands to `sys_write(1, ...)`, and what it returns. -/
def printf (fmt : List (BitVec 8)) (args : List PrintfArg) : Option (List (BitVec 8) × BitVec 32) :=
  (printfLoop fmt args []).map fun out => (out, BitVec.ofNat 32 out.length)

/-! What a format stands for. -/

/-- The numeral of a number, most significant digit first. -/
def numeral (base n : Nat) : List (BitVec 8) :=
  if n = 0 then [ascii '0'] else ((Nat.digits base n).map digitChar).reverse

def decimal (v : Int) : List (BitVec 8) := if v < 0 then ascii '-' :: numeral 10 v.natAbs else numeral 10 v.natAbs

/-- The whole text, if the arguments match the format. -/
def expansion : List (BitVec 8) → List PrintfArg → Option (List (BitVec 8))
  | [], _ => some []
  | [c], _ => some (if c = ascii '%' then [] else [c])
  | c :: d :: rest, args =>
    if c ≠ ascii '%' then (expansion (d :: rest) args).map (c :: ·)
    else if d = ascii 'd' then
      match args with
      | .int v :: args => (expansion rest args).map (decimal v.toInt ++ ·)
      | _ => none
    else if d = ascii 's' then
      match args with
      | .str s :: args => (expansion rest args).map (s ++ ·)
      | _ => none
    else if d = ascii 'x' then
      match args with
      | .int v :: args => (expansion rest args).map (numeral 16 v.toNat ++ ·)
      | _ => none
    else if d = ascii 'c' then
      match args with
      | .int v :: args => (expansion rest args).map ([v.setWidth 8] ++ ·)
      | _ => none
    else if d = ascii '%' then (expansion rest args).map ([ascii '%'] ++ ·)
    else (expansion rest args).map ([ascii '%', d] ++ ·)

/-! Numerals -/

section Numerals

variable {base n : Nat}

theorem digitChar_injective : ∀ i < 16, ∀ j < 16, digitChar i = digitChar j → i = j := by decide

theorem numeral_canonical (small : base ≤ 16) (two : 2 ≤ base) (positive : n ≠ 0) :
    ∃ c rest, numeral base n = c :: rest ∧ c ≠ ascii '0' := by
  have nonempty : Nat.digits base n ≠ [] := Nat.digits_ne_nil_iff_ne_zero.mpr positive
  have last := Nat.getLast_digit_ne_zero base positive
  have bound := Nat.digits_lt_base two (List.getLast_mem nonempty)
  refine ⟨digitChar ((Nat.digits base n).getLast nonempty),
    ((Nat.digits base n).dropLast.map digitChar).reverse, ?_, ?_⟩
  · rw [numeral, if_neg positive]
    conv_lhs => rw [← List.dropLast_append_getLast nonempty]
    simp
  · intro zero
    exact last (digitChar_injective _ (by omega) 0 (by decide) zero)

theorem numeral_value (positive : n ≠ 0) :
    ∃ ds, numeral base n = (ds.map digitChar).reverse ∧ Nat.ofDigits base ds = n :=
  ⟨Nat.digits base n, by rw [numeral, if_neg positive], Nat.ofDigits_digits base n⟩

theorem storeDigits_eq {base : Word} (two : 2 ≤ base.toNat) {room : Nat} {val : Word} (tmp : List (BitVec 8))
    (fits : val.toNat < base.toNat ^ room) :
    storeDigits base room val tmp =
      some (((Nat.digits base.toNat val.toNat).map digitChar).reverse ++ tmp) := by
  induction room generalizing val tmp with
  | zero =>
    have zero : val = 0#64 := BitVec.eq_of_toNat_eq (by simpa using fits)
    rw [storeDigits, if_pos zero, zero]
    simp
  | succ room ih =>
    unfold storeDigits
    by_cases zero : val = 0#64
    · rw [if_pos zero, zero]
      simp
    · have positive : 0 < val.toNat := Nat.pos_of_ne_zero fun eq => zero (BitVec.eq_of_toNat_eq eq)
      have less : (val / base).toNat < base.toNat ^ room := by
        rw [BitVec.toNat_udiv]
        apply Nat.div_lt_of_lt_mul
        rwa [Nat.pow_succ, Nat.mul_comm] at fits
      rw [if_neg zero, ih _ less, BitVec.toNat_udiv, BitVec.toNat_umod, Nat.digits_def' two positive]
      simp

theorem printUint_eq {base : Word} (two : 2 ≤ base.toNat) (room : 2 ^ 64 ≤ base.toNat ^ 32) (out : List (BitVec 8))
    (val : Word) : printUint out val base = emitAll out (numeral base.toNat val.toNat) := by
  unfold printUint numeral
  by_cases zero : val = 0#64
  · subst zero
    rfl
  · have positive : val.toNat ≠ 0 := fun eq => zero (BitVec.eq_of_toNat_eq eq)
    rw [if_neg zero, if_neg positive, storeDigits_eq two [] (val.isLt.trans_le room), List.append_nil]
    rfl

end Numerals

/-! The cut -/

def cut (bytes : List (BitVec 8)) : List (BitVec 8) := bytes.take 255

section Cut

variable {out part later : List (BitVec 8)}

theorem cut_length (bytes : List (BitVec 8)) : (cut bytes).length ≤ 255 := List.length_take_le 255 bytes

theorem cut_append (a b : List (BitVec 8)) : cut (cut a ++ b) = cut (a ++ b) := by
  unfold cut
  rw [List.take_append, List.take_append, List.take_take, List.length_take]
  simp only [min_self]
  rcases Nat.le_total a.length 255 with short | long
  · rw [min_eq_right short]
  · rw [min_eq_left long, Nat.sub_self, Nat.sub_eq_zero_of_le long]

theorem cut_full (full : out.length = 255) (more : List (BitVec 8)) : cut (out ++ more) = out := by
  unfold cut
  rw [← full]
  exact List.take_left

theorem cut_short (short : out.length ≤ 255) : cut out = out := List.take_of_length_le short

theorem bufStore_eq (room : out.length < 255) (c : BitVec 8) : bufStore out c = some (cut (out ++ [c])) := by
  rw [bufStore, if_pos (by omega), cut_short]
  rw [List.length_append, List.length_singleton]
  omega

theorem guardedStore_eq (short : out.length ≤ 255) (c : BitVec 8) :
    (if out.length < 255 then bufStore out c else some out) = some (cut (out ++ [c])) := by
  by_cases room : out.length < 255
  · rw [if_pos room, bufStore_eq room]
  · rw [if_neg room, cut_full (by omega)]

theorem emitAll_eq (short : out.length ≤ 255) (bytes : List (BitVec 8)) :
    emitAll out bytes = some (cut (out ++ bytes)) := by
  induction bytes generalizing out with
  | nil => rw [emitAll, List.append_nil, cut_short short]
  | cons c rest ih =>
    rw [emitAll]
    by_cases room : out.length < 255
    · rw [if_pos room, bufStore_eq room, Option.bind_some, ih (cut_length _), cut_append, List.append_assoc]
      rfl
    · rw [if_neg room, cut_full (by omega)]

theorem printInt_eq (short : out.length ≤ 255) (v : BitVec 32) :
    printInt out (v.signExtend 64) = some (cut (out ++ decimal v.toInt)) := by
  have value : (v.signExtend 64).toInt = v.toInt := BitVec.toInt_signExtend_of_le (by decide)
  have bound := v.isLt
  unfold printInt decimal
  rw [value]
  by_cases negative : v.toInt < 0
  · have magnitude : (-(v.signExtend 64)).toNat = v.toInt.natAbs := by
      have sign := BitVec.toInt_eq_toNat_cond (v.signExtend 64)
      rw [value] at sign
      have wide := (v.signExtend 64).isLt
      rw [BitVec.toNat_neg]
      split at sign <;> omega
    rw [if_pos negative, if_pos negative, guardedStore_eq short, Option.bind_some,
      printUint_eq (by decide) (by decide), emitAll_eq (cut_length _), cut_append, magnitude, List.append_assoc]
    rfl
  · have magnitude : (v.signExtend 64).toNat = v.toInt.natAbs := by
      have sign := BitVec.toInt_eq_toNat_cond (v.signExtend 64)
      rw [value] at sign
      have wide := (v.signExtend 64).isLt
      split at sign <;> omega
    rw [if_neg negative, if_neg negative, printUint_eq (by decide) (by decide), emitAll_eq short, magnitude]
    rfl

theorem printHex_eq (short : out.length ≤ 255) (v : BitVec 32) :
    printUint out (v.setWidth 64) 16#64 = some (cut (out ++ numeral 16 v.toNat)) := by
  have value : (v.setWidth 64).toNat = v.toNat := BitVec.toNat_setWidth_of_le (by decide)
  rw [printUint_eq (by decide) (by decide), emitAll_eq short, value]
  rfl

theorem bind_cut {step : Option (List (BitVec 8))} {loop : List (BitVec 8) → Option (List (BitVec 8))}
    (written : step = some (cut (out ++ part)))
    (rest : ∀ out, out.length ≤ 255 → loop out = some (cut (out ++ later))) :
    step.bind loop = some (cut (out ++ (part ++ later))) := by
  rw [written, Option.bind_some, rest _ (cut_length _), cut_append, List.append_assoc]

end Cut

theorem printfLoop_full {fmt out : List (BitVec 8)} (args : List PrintfArg) (full : ¬ out.length < 255) :
    printfLoop fmt args out = some out := by
  match fmt with
  | [] => rfl
  | [c] => rw [printfLoop, if_pos full]
  | c :: d :: rest =>
    unfold printfLoop
    rw [if_pos full]

theorem printfLoop_room {fmt out full : List (BitVec 8)} {args : List PrintfArg} (short : out.length ≤ 255)
    (active : out.length < 255 → printfLoop fmt args out = some (cut (out ++ full))) :
    printfLoop fmt args out = some (cut (out ++ full)) := by
  by_cases room : out.length < 255
  · exact active room
  · rw [printfLoop_full args room, cut_full (by omega)]

theorem printfLoop_eq {fmt out full : List (BitVec 8)} {args : List PrintfArg}
    (expands : expansion fmt args = some full) (short : out.length ≤ 255) :
    printfLoop fmt args out = some (cut (out ++ full)) := by
  fun_induction expansion fmt args generalizing out full <;> refine printfLoop_room short fun room => ?_
  case case1 =>
    obtain rfl := Option.some.inj expands
    rw [printfLoop, List.append_nil, cut_short short]
  case case2 c args =>
    obtain rfl := Option.some.inj expands
    rw [printfLoop, if_neg (not_not.mpr room)]
    by_cases percent : c = ascii '%'
    · rw [if_neg (not_not.mpr percent), if_pos percent, List.append_nil, cut_short short]
    · rw [if_pos percent, if_neg percent, bufStore_eq room]
  case case3 plain ih =>
    obtain ⟨later, rest, rfl⟩ := Option.map_eq_some_iff.mp expands
    unfold printfLoop
    rw [if_neg (not_not.mpr room), if_pos plain]
    exact bind_cut (bufStore_eq room _) fun out short => ih rest short
  case case4 percent v args ih =>
    obtain ⟨later, rest, rfl⟩ := Option.map_eq_some_iff.mp expands
    unfold printfLoop
    rw [if_neg (not_not.mpr room), if_neg percent, if_pos rfl]
    exact bind_cut (printInt_eq short v) fun out short => ih rest short
  case case6 percent s args other ih =>
    obtain ⟨later, rest, rfl⟩ := Option.map_eq_some_iff.mp expands
    unfold printfLoop
    rw [if_neg (not_not.mpr room), if_neg percent, if_neg other, if_pos rfl]
    exact bind_cut (emitAll_eq short s) fun out short => ih rest short
  case case8 percent v args other₁ other₂ ih =>
    obtain ⟨later, rest, rfl⟩ := Option.map_eq_some_iff.mp expands
    unfold printfLoop
    rw [if_neg (not_not.mpr room), if_neg percent, if_neg other₁, if_neg other₂, if_pos rfl]
    exact bind_cut (printHex_eq short v) fun out short => ih rest short
  case case10 percent v args other₁ other₂ other₃ ih =>
    obtain ⟨later, rest, rfl⟩ := Option.map_eq_some_iff.mp expands
    unfold printfLoop
    rw [if_neg (not_not.mpr room), if_neg percent, if_neg other₁, if_neg other₂, if_neg other₃, if_pos rfl]
    exact bind_cut (bufStore_eq room _) fun out short => ih rest short
  case case12 percent other₁ other₂ other₃ other₄ ih =>
    obtain ⟨later, rest, rfl⟩ := Option.map_eq_some_iff.mp expands
    unfold printfLoop
    rw [if_neg (not_not.mpr room), if_neg percent, if_neg other₁, if_neg other₂, if_neg other₃, if_neg other₄,
      if_pos rfl]
    exact bind_cut (bufStore_eq room _) fun out short => ih rest short
  case case13 c d _ args percent other₁ other₂ other₃ other₄ other₅ ih =>
    obtain ⟨later, rest, rfl⟩ := Option.map_eq_some_iff.mp expands
    unfold printfLoop
    rw [if_neg (not_not.mpr room), if_neg percent, if_neg other₁, if_neg other₂, if_neg other₃, if_neg other₄,
      if_neg other₅]
    rw [show [ascii '%', d] ++ later = [ascii '%'] ++ ([d] ++ later) from rfl]
    refine bind_cut (bufStore_eq room _) fun out short => ?_
    exact bind_cut (guardedStore_eq short d) fun out short => ih rest short
  -- what is left are missing arguments, and they have no expansion
  all_goals cases expands

/-- `printf` writes the first 255 bytes of the expansion and returns their number; no store
leaves an array, since that would be a failure. -/
theorem printf_writes_expansion {fmt full : List (BitVec 8)} {args : List PrintfArg}
    (expands : expansion fmt args = some full) :
    printf fmt args = some (full.take 255, BitVec.ofNat 32 (full.take 255).length) := by
  have run : printfLoop fmt args [] = some (full.take 255) := printfLoop_eq expands (Nat.zero_le _)
  rw [printf, run]
  rfl

/-- A format with every conversion, and INT_MIN. -/
theorem printf_example :
    printf ("%d %x%s%c%%%q%".toList.map ascii) [.int 0x80000000#32, .int 0#32, .str [ascii 'h'], .int 65#32] =
      some ("-2147483648 0hA%%q".toList.map ascii, 18#32) := by
  have expands : expansion ("%d %x%s%c%%%q%".toList.map ascii)
      [.int 0x80000000#32, .int 0#32, .str [ascii 'h'], .int 65#32] =
      some ("-2147483648 0hA%%q".toList.map ascii) := by decide +kernel
  exact printf_writes_expansion expands

end Isunux
