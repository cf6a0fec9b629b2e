import Isunux.FatUpdates
import Mathlib.Data.List.TakeWhile

/-! `fat_encode_83_name` and `fat_decode_83_name` undo each other on the canonical short names:
a part of a name is written in capitals and filled up with blanks, and read back up to the
first blank. -/
namespace Isunux

/-! Parts of a name -/

section Parts

/-- A byte that stands for itself in a part of a displayed name. -/
def NameByte (c : BitVec 8) : Prop := c ≠ 0#8 ∧ c ≠ blankByte ∧ c ≠ dotByte ∧ ¬ (0x41#8 ≤ c ∧ c ≤ 0x5A#8)

/-- A byte that stands for itself in a part of a field on the disk. -/
def FieldByte (c : BitVec 8) : Prop := c ≠ 0#8 ∧ c ≠ dotByte ∧ ¬ (0x61#8 ≤ c ∧ c ≤ 0x7A#8)

theorem lower_upper {c : BitVec 8} (h : NameByte c) : lowerByte (upperByte c) = c := by
  obtain ⟨-, -, -, capital⟩ := h
  unfold lowerByte upperByte
  by_cases small : 0x61#8 ≤ c ∧ c ≤ 0x7A#8
  · rw [if_pos small, if_pos (by bv_omega), BitVec.sub_add_cancel]
  · rw [if_neg small, if_neg capital]

theorem upper_lower {c : BitVec 8} (h : FieldByte c) : upperByte (lowerByte c) = c := by
  obtain ⟨-, -, small⟩ := h
  unfold lowerByte upperByte
  by_cases capital : 0x41#8 ≤ c ∧ c ≤ 0x5A#8
  · rw [if_pos capital, if_pos (by bv_omega), BitVec.add_sub_cancel]
  · rw [if_neg capital, if_neg small]

theorem upper_nonblank {c : BitVec 8} (h : NameByte c) : upperByte c ≠ blankByte := by
  obtain ⟨-, blank, -, -⟩ := h
  unfold upperByte blankByte at *
  split <;> first | exact blank | bv_omega

theorem lower_plain {c : BitVec 8} (h : FieldByte c) : lowerByte c ≠ 0#8 ∧ lowerByte c ≠ dotByte := by
  obtain ⟨nul, dot, -⟩ := h
  unfold lowerByte dotByte at *
  split
  · constructor <;> bv_omega
  · exact ⟨nul, dot⟩

theorem trim_pad {part : List (BitVec 8)} {len : Nat} (fits : part.length ≤ len) (bytes : ∀ c ∈ part, NameByte c) :
    ((padField part len).takeWhile (· ≠ blankByte)).map lowerByte = part := by
  have capitals : ∀ c ∈ part.map upperByte, decide (c ≠ blankByte) = true := by
    intro c mem
    obtain ⟨d, here, rfl⟩ := List.mem_map.mp mem
    exact decide_eq_true (upper_nonblank (bytes d here))
  have padding : (List.replicate (len - part.length) blankByte).takeWhile (fun c => decide (c ≠ blankByte)) = [] := by
    cases len - part.length with
    | zero => rfl
    | succ k => rfl
  unfold padField
  rw [List.take_of_length_le fits, List.takeWhile_append_of_pos capitals, padding, List.append_nil, List.map_map]
  exact (List.map_congr_left fun c mem => lower_upper (bytes c mem)).trans (List.map_id _)

/-- Bytes behind which only blanks follow a blank. -/
def RightPadded (bytes : List (BitVec 8)) : Prop :=
  bytes.Pairwise fun c d => c = blankByte → d = blankByte

theorem RightPadded.split {bytes : List (BitVec 8)} (h : RightPadded bytes) :
    bytes.takeWhile (· ≠ blankByte) ++
      List.replicate (bytes.length - (bytes.takeWhile (· ≠ blankByte)).length) blankByte = bytes := by
  induction bytes with
  | nil => rfl
  | cons c rest ih =>
    obtain ⟨first, tail⟩ := List.pairwise_cons.mp h
    by_cases blank : c = blankByte
    · have all : ∀ d ∈ c :: rest, d = blankByte := by
        rintro d (_ | ⟨_, mem⟩)
        · exact blank
        · exact first d mem blank
      rw [List.takeWhile_cons_of_neg (by simpa using blank)]
      exact (List.eq_replicate_of_mem all).symm
    · rw [List.takeWhile_cons_of_pos (by simpa using blank), List.length_cons, List.length_cons,
        Nat.add_sub_add_right, List.cons_append, ih tail]

theorem pad_trim {bytes : List (BitVec 8)} (padded : RightPadded bytes) (plain : ∀ c ∈ bytes, FieldByte c) :
    padField ((bytes.takeWhile (· ≠ blankByte)).map lowerByte) bytes.length = bytes := by
  have short : (bytes.takeWhile (· ≠ blankByte)).length ≤ bytes.length := (List.takeWhile_prefix _).length_le
  unfold padField
  rw [List.take_of_length_le (by rw [List.length_map]; exact short), List.map_map, List.length_map]
  have same : (bytes.takeWhile (· ≠ blankByte)).map (upperByte ∘ lowerByte) = bytes.takeWhile (· ≠ blankByte) :=
    (List.map_congr_left fun c mem => upper_lower (plain c ((List.takeWhile_prefix _).subset mem))).trans
      (List.map_id _)
  rw [same]
  exact padded.split

end Parts

/-! Whole names -/

/-- A base of 1 to 8 bytes, and an extension of 1 to 3 if there is one. -/
structure CanonicalName (base : List (BitVec 8)) (ext : Option (List (BitVec 8))) : Prop where
  base_length : 1 ≤ base.length ∧ base.length ≤ 8
  ext_length : ∀ e, ext = some e → 1 ≤ e.length ∧ e.length ≤ 3
  base_bytes : ∀ c ∈ base, NameByte c
  ext_bytes : ∀ e, ext = some e → ∀ c ∈ e, NameByte c
  undeleted : base.head? ≠ some deletedMark

/-- The name that is displayed for a base and an extension. -/
def shortName (base : List (BitVec 8)) : Option (List (BitVec 8)) → List (BitVec 8)
  | none => base
  | some e => base ++ dotByte :: e

/-- A name field whose two parts are filled up on the right. -/
structure CanonicalField (raw : Nat → BitVec 8) : Prop where
  base : RightPadded ((List.range 8).map fun i => raw (0 + i))
  ext : RightPadded ((List.range 3).map fun i => raw (8 + i))
  first : raw 0 ≠ blankByte
  bytes : ∀ i < 11, FieldByte (raw i)

section Whole

variable {base : List (BitVec 8)} {ext : Option (List (BitVec 8))} {raw : Nat → BitVec 8}

theorem range_ofBytes (pre mid post : List (BitVec 8)) :
    (List.range mid.length).map (fun i => ofBytes (pre ++ (mid ++ post)) (pre.length + i)) = mid := by
  refine List.ext_getElem (by simp) fun i low _ => ?_
  rw [List.length_map, List.length_range] at low
  rw [List.getElem_map, List.getElem_range]
  unfold ofBytes
  rw [List.getD_append_right _ _ _ _ (Nat.le_add_right _ _), Nat.add_sub_cancel_left, List.getD_append _ _ _ _ low,
    List.getD_eq_getElem _ _ low]

theorem shortName_parts (plain : ∀ c ∈ base, decide (c ≠ dotByte) = true) :
    (shortName base ext).takeWhile (· ≠ dotByte) = base ∧
      ((shortName base ext).dropWhile (· ≠ dotByte)).drop 1 = ext.getD [] := by
  cases ext with
  | none =>
    have all : base.dropWhile (fun c => decide (c ≠ dotByte)) = [] := List.dropWhile_eq_nil_iff.mpr plain
    exact ⟨List.takeWhile_eq_self_iff.mpr plain, by rw [shortName, all]; rfl⟩
  | some e =>
    rw [shortName, List.takeWhile_append_of_pos plain, List.dropWhile_append_of_pos plain]
    exact ⟨List.append_nil base, rfl⟩

theorem CanonicalName.encode (h : CanonicalName base ext) :
    fatEncode83Name (shortName base ext) = padField base 8 ++ padField (ext.getD []) 3 := by
  obtain ⟨front, back⟩ := @shortName_parts base ext fun c mem => decide_eq_true (h.base_bytes c mem).2.2.1
  rw [fatEncode83Name, front, back]

theorem CanonicalName.eighth (h : CanonicalName base ext) :
    (ofBytes (padField base 8 ++ padField (ext.getD []) 3) 8 ≠ blankByte) ↔ ext.isSome = true := by
  have eight : (padField base 8).length = 8 := padField_length base 8
  unfold ofBytes
  rw [List.getD_append_right _ _ _ _ (by rw [eight]), eight]
  cases ext with
  | none => exact ⟨fun differ => absurd rfl differ, nofun⟩
  | some e =>
    refine ⟨fun _ => rfl, fun _ => ?_⟩
    obtain ⟨some, -⟩ := h.ext_length e rfl
    cases e with
    | nil => exact absurd some (Nat.not_succ_le_zero 0)
    | cons c rest => exact upper_nonblank (h.ext_bytes _ rfl c List.mem_cons_self)

theorem CanonicalName.decode (h : CanonicalName base ext) :
    fatDecode83Name (ofBytes (fatEncode83Name (shortName base ext))) = shortName base ext := by
  have eight : (padField base 8).length = 8 := padField_length base 8
  have three : (padField (ext.getD []) 3).length = 3 := padField_length _ 3
  have front : trimField (ofBytes (padField base 8 ++ padField (ext.getD []) 3)) 0 8 = base := by
    have read := range_ofBytes [] (padField base 8) (padField (ext.getD []) 3)
    rw [eight] at read
    exact (congrArg (fun bs => (bs.takeWhile fun c => decide (c ≠ blankByte)).map lowerByte) read).trans
      (trim_pad h.base_length.2 h.base_bytes)
  have plain : ∀ c ∈ shortName base ext, decide (c ≠ 0#8) = true := by
    intro c mem
    cases ext with
    | none => exact decide_eq_true (h.base_bytes c mem).1
    | some e =>
      rcases List.mem_append.mp mem with mem | mem
      · exact decide_eq_true (h.base_bytes c mem).1
      · rcases List.mem_cons.mp mem with rfl | mem
        · rfl
        · exact decide_eq_true (h.ext_bytes e rfl c mem).1
  have eighth := h.eighth
  rw [h.encode, fatDecode83Name, front]
  cases ext with
  | none =>
    rw [if_neg (fun differ => nomatch eighth.mp differ), List.append_nil]
    exact List.takeWhile_eq_self_iff.mpr plain
  | some e =>
    have back : trimField (ofBytes (padField base 8 ++ padField e 3)) 8 3 = e := by
      have read := range_ofBytes (padField base 8) (padField e 3) []
      rw [eight, List.append_nil, show (padField e 3).length = 3 from three] at read
      exact (congrArg (fun bs => (bs.takeWhile fun c => decide (c ≠ blankByte)).map lowerByte) read).trans
        (trim_pad (h.ext_length e rfl).2 (h.ext_bytes e rfl))
    rw [if_pos (eighth.mpr rfl), Option.getD_some, back]
    exact List.takeWhile_eq_self_iff.mpr plain

theorem CanonicalField.parts (h : CanonicalField raw) :
    (∀ c ∈ (List.range 8).map (fun i => raw (0 + i)), FieldByte c) ∧
      ∀ c ∈ (List.range 3).map (fun i => raw (8 + i)), FieldByte c := by
  constructor <;>
  · intro c mem
    obtain ⟨i, low, rfl⟩ := List.mem_map.mp mem
    exact h.bytes _ (by have := List.mem_range.mp low; omega)

theorem CanonicalField.decode (h : CanonicalField raw) :
    fatDecode83Name raw =
      shortName (trimField raw 0 8) (if raw 8 ≠ blankByte then some (trimField raw 8 3) else none) := by
  have nul : ∀ start len, (∀ c ∈ (List.range len).map (fun i => raw (start + i)), FieldByte c) →
      ∀ c ∈ trimField raw start len, decide (c ≠ 0#8) = true := by
    intro start len plain c mem
    obtain ⟨d, here, rfl⟩ := List.mem_map.mp mem
    exact decide_eq_true (lower_plain (plain d ((List.takeWhile_prefix _).subset here))).1
  obtain ⟨base, ext⟩ := h.parts
  unfold fatDecode83Name
  refine (List.takeWhile_eq_self_iff.mpr fun c mem => ?_).trans ?_
  · rcases List.mem_append.mp mem with mem | mem
    · exact nul 0 8 base c mem
    · split at mem
      · rcases List.mem_cons.mp mem with rfl | mem
        · rfl
        · exact nul 8 3 ext c mem
      · nomatch mem
  · by_cases differ : raw 8 ≠ blankByte
    · rw [if_pos differ, if_pos differ]
      rfl
    · rw [if_neg differ, if_neg differ]
      exact List.append_nil _

theorem CanonicalField.encode (h : CanonicalField raw) :
    fatEncode83Name (fatDecode83Name raw) = (List.range 11).map raw := by
  obtain ⟨base, ext⟩ := h.parts
  have plain : ∀ c ∈ trimField raw 0 8, decide (c ≠ dotByte) = true := by
    intro c mem
    obtain ⟨d, here, rfl⟩ := List.mem_map.mp mem
    exact decide_eq_true (lower_plain (base d ((List.takeWhile_prefix _).subset here))).2
  have second : (if raw 8 ≠ blankByte then some (trimField raw 8 3) else none).getD [] = trimField raw 8 3 := by
    split
    · rfl
    · rename_i blank
      have blank : raw 8 = blankByte := not_not.mp blank
      unfold trimField
      rw [List.range_succ_eq_map, List.map_cons, List.takeWhile_cons_of_neg (by simpa using blank)]
      rfl
  have front : padField (trimField raw 0 8) 8 = (List.range 8).map fun i => raw (0 + i) := by
    have := pad_trim h.base base
    rwa [List.length_map, List.length_range] at this
  have back : padField (trimField raw 8 3) 3 = (List.range 3).map fun i => raw (8 + i) := by
    have := pad_trim h.ext ext
    rwa [List.length_map, List.length_range] at this
  obtain ⟨named, extended⟩ :=
    @shortName_parts (trimField raw 0 8) (if raw 8 ≠ blankByte then some (trimField raw 8 3) else none) plain
  rw [h.decode, fatEncode83Name, named, extended, second, front, back]
  rfl

end Whole

/-- Displayed and written again, a canonical name and a canonical field come back as they were. -/
theorem short_names_round_trip :
    (∀ base ext, CanonicalName base ext →
      fatDecode83Name (ofBytes (fatEncode83Name (shortName base ext))) = shortName base ext) ∧
    ∀ raw, CanonicalField raw → fatEncode83Name (fatDecode83Name raw) = (List.range 11).map raw :=
  ⟨fun _ _ h => h.decode, fun _ h => h.encode⟩

/-- `hello.txt`. -/
theorem hello_round_trip :
    fatDecode83Name (ofBytes (fatEncode83Name
        (shortName [0x68#8, 0x65#8, 0x6C#8, 0x6C#8, 0x6F#8] (some [0x74#8, 0x78#8, 0x74#8])))) =
      shortName [0x68#8, 0x65#8, 0x6C#8, 0x6C#8, 0x6F#8] (some [0x74#8, 0x78#8, 0x74#8]) ∧
    fatEncode83Name (fatDecode83Name (ofBytes (fatEncode83Name
        (shortName [0x68#8, 0x65#8, 0x6C#8, 0x6C#8, 0x6F#8] (some [0x74#8, 0x78#8, 0x74#8]))))) =
      (List.range 11).map (ofBytes (fatEncode83Name
        (shortName [0x68#8, 0x65#8, 0x6C#8, 0x6C#8, 0x6F#8] (some [0x74#8, 0x78#8, 0x74#8])))) := by
  have name : CanonicalName [0x68#8, 0x65#8, 0x6C#8, 0x6C#8, 0x6F#8] (some [0x74#8, 0x78#8, 0x74#8]) :=
    ⟨by decide, by rintro e ⟨⟩; decide, by unfold NameByte; decide, by rintro e ⟨⟩; unfold NameByte; decide, by decide⟩
  have field : CanonicalField (ofBytes (fatEncode83Name
      (shortName [0x68#8, 0x65#8, 0x6C#8, 0x6C#8, 0x6F#8] (some [0x74#8, 0x78#8, 0x74#8])))) :=
    ⟨by unfold RightPadded; decide, by unfold RightPadded; decide, by decide, by unfold FieldByte; decide⟩
  exact ⟨short_names_round_trip.1 _ _ name, short_names_round_trip.2 _ field⟩

end Isunux
