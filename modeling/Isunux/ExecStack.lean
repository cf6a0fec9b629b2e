import Isunux.FileBuffers

/-! The first stack of a program. `build_initial_stack` fills it from the top down:
strings, random bytes, and the words that `crt0` starts from. Each piece lies below the
one before, so none of them is written twice. -/
namespace Isunux

/-- Bytes at an offset of a block of pages. -/
def BytesAt (mem : PhysMem) (phys o : Nat) (bytes : List (BitVec 8)) : Prop :=
  ∀ j < bytes.length, bufferByte mem phys (o + j) = bytes.getD j 0

section Filling

variable {mem : PhysMem} {phys o : Nat} {bytes : List (BitVec 8)}

theorem fillBuffer_byte (mem : PhysMem) (phys : Nat) (bytes : List (BitVec 8)) (small : o < 2 ^ 64)
    (fits : o + bytes.length ≤ 2 ^ 64) (x : Nat) :
    bufferByte (fillBuffer mem phys o bytes) phys x =
      if o ≤ x ∧ x < o + bytes.length then bytes.getD (x - o) 0 else bufferByte mem phys x := by
  have plain : (BitVec.ofNat 64 o).toNat = o := by rw [BitVec.toNat_ofNat, Nat.mod_eq_of_lt small]
  rw [fillBuffer, storeBytes_byte _ _ _ (by omega), plain]

theorem fillBuffer_frame (mem : PhysMem) {pages f : Nat} (small : o < 2 ^ 64)
    (inside : o + bytes.length ≤ pages * 4096) (off : ¬ (phys ≤ f ∧ f < phys + pages)) :
    fillBuffer mem phys o bytes f = mem f := by
  refine storeBytes_frame mem _ ?_ off
  rw [BitVec.toNat_ofNat, Nat.mod_eq_of_lt small]
  exact inside

theorem fillBuffer_at (mem : PhysMem) (phys : Nat) (bytes : List (BitVec 8)) (small : o < 2 ^ 64)
    (fits : o + bytes.length ≤ 2 ^ 64) : BytesAt (fillBuffer mem phys o bytes) phys o bytes := by
  intro j inside
  rw [fillBuffer_byte mem phys bytes small fits, if_pos (by omega), Nat.add_sub_cancel_left]

theorem BytesAt.below {o' : Nat} {bytes' : List (BitVec 8)} (h : BytesAt mem phys o bytes) (small : o' < 2 ^ 64)
    (above : o' + bytes'.length ≤ o) : BytesAt (fillBuffer mem phys o' bytes') phys o bytes := by
  intro j inside
  rw [fillBuffer, storeBytes_above _ _ _ (by rw [BitVec.toNat_ofNat, Nat.mod_eq_of_lt small]; omega)]
  exact h j inside

end Filling

def roomOf (strings : List (List (BitVec 8))) : Nat := (strings.map fun s => s.length + 1).sum

theorem roomOf_cons (s : List (BitVec 8)) (rest : List (List (BitVec 8))) :
    roomOf (s :: rest) = s.length + 1 + roomOf rest := by
  rw [roomOf, List.map_cons, List.sum_cons]
  rfl

theorem roomOf_le {strings : List (List (BitVec 8))} {count most : Nat} (few : strings.length ≤ count)
    (short : ∀ s ∈ strings, s.length < most) : roomOf strings ≤ count * most := by
  have all : ∀ x ∈ strings.map fun s => s.length + 1, x ≤ most := by
    intro x hx
    obtain ⟨s, hs, rfl⟩ := List.mem_map.mp hx
    exact short s hs
  have total := List.sum_le_card_nsmul _ most all
  rw [List.length_map, smul_eq_mul] at total
  exact total.trans (Nat.mul_le_mul_right most few)

/-- A string with its NUL, somewhere from `lo` up to `hi`. -/
def StringIn (mem : PhysMem) (phys lo hi : Nat) (s : List (BitVec 8)) (o : Nat) : Prop :=
  BytesAt mem phys o (s ++ [0]) ∧ lo ≤ o ∧ o + (s.length + 1) ≤ hi

theorem StringIn.below {mem : PhysMem} {phys lo hi o o' : Nat} {s bytes : List (BitVec 8)}
    (h : StringIn mem phys lo hi s o) (small : o' < 2 ^ 64) (above : o' + bytes.length ≤ lo) :
    StringIn (fillBuffer mem phys o' bytes) phys lo hi s o :=
  ⟨h.1.below small (above.trans h.2.1), h.2⟩

theorem StringIn.widen {mem : PhysMem} {phys lo lo' hi hi' o : Nat} {s : List (BitVec 8)}
    (h : StringIn mem phys lo hi s o) (lower : lo' ≤ lo) (upper : hi ≤ hi') : StringIn mem phys lo' hi' s o :=
  ⟨h.1, lower.trans h.2.1, h.2.2.trans upper⟩

structure StringsPlaced (phys top : Nat) (strings : List (List (BitVec 8))) (mem : PhysMem)
    (r : PhysMem × Nat × List Nat) : Prop where
  bottom : r.2.1 + roomOf strings = top
  placed : List.Forall₂ (StringIn r.1 phys r.2.1 top) strings r.2.2
  above : ∀ lo hi s o, top ≤ lo → StringIn mem phys lo hi s o → StringIn r.1 phys lo hi s o
  frame : ∀ pages f, top ≤ pages * 4096 → ¬ (phys ≤ f ∧ f < phys + pages) → r.1 f = mem f

theorem placeStrings_placed {phys top : Nat} {strings : List (List (BitVec 8))} (mem : PhysMem)
    (room : roomOf strings ≤ top) (small : top < 2 ^ 64) :
    StringsPlaced phys top strings mem (placeStrings phys strings mem top) := by
  induction strings with
  | nil => exact ⟨rfl, .nil, fun _ _ _ _ _ h => h, fun _ _ _ _ => rfl⟩
  | cons s rest ih =>
    rw [roomOf_cons] at room
    obtain ⟨bottom, placed, above, frame⟩ := ih (by omega)
    rw [placeStrings]
    generalize placeStrings phys rest mem top = r at bottom placed above frame ⊢
    have low : r.2.1 - (s.length + 1) < 2 ^ 64 := by omega
    have ends : r.2.1 - (s.length + 1) + (s ++ [0]).length = r.2.1 := by
      rw [List.length_append, List.length_singleton]
      omega
    refine ⟨?_, .cons ⟨fillBuffer_at _ _ _ low (by rw [ends]; omega), le_rfl, by omega⟩ (placed.imp fun _ _ h => ?_),
      fun lo hi t o higher h => ?_, fun pages f inside off => ?_⟩
    · dsimp only
      rw [roomOf_cons]
      omega
    · exact (h.below low ends.le).widen (Nat.sub_le _ _) le_rfl
    · exact (above lo hi t o higher h).below low (by omega)
    · exact (fillBuffer_frame _ low (by omega) off).trans (frame pages f inside off)

/-! Words -/

@[simp] theorem wordBytes_length (w : Word) : (wordBytes w).length = 8 := by
  rw [wordBytes, List.length_map, List.length_range]

theorem wordBytes_getD (w : Word) {j : Nat} (low : j < 8) :
    (wordBytes w).getD j 0 = (w >>> (8 * j)).setWidth 8 := by
  rw [wordBytes, List.getD_eq_getElem?_getD, List.getElem?_map, List.getElem?_range low]
  rfl

theorem wordsBytes_length (words : List Word) : (words.flatMap wordBytes).length = 8 * words.length := by
  induction words with
  | nil => rfl
  | cons w rest ih =>
    rw [List.flatMap_cons, List.length_append, ih, wordBytes_length, List.length_cons]
    omega

theorem wordsBytes_getD {words : List Word} {i j : Nat} {w : Word} (here : words[i]? = some w) (low : j < 8) :
    (words.flatMap wordBytes).getD (8 * i + j) 0 = (w >>> (8 * j)).setWidth 8 := by
  induction words generalizing i with
  | nil => cases here
  | cons first rest ih =>
    rw [List.flatMap_cons]
    cases i with
    | zero =>
      cases here
      rw [Nat.mul_zero, Nat.zero_add, List.getD_eq_getElem?_getD,
        List.getElem?_append_left (by rw [wordBytes_length]; exact low), ← List.getD_eq_getElem?_getD,
        wordBytes_getD _ low]
    | succ i =>
      have next : 8 * (i + 1) + j - 8 = 8 * i + j := by omega
      rw [List.getD_eq_getElem?_getD, List.getElem?_append_right (by rw [wordBytes_length]; omega),
        wordBytes_length, next, ← List.getD_eq_getElem?_getD]
      exact ih here

theorem word_ext {w w' : Word} (h : ∀ j < 8, (w >>> (8 * j)).setWidth 8 = (w' >>> (8 * j)).setWidth 8) : w = w' := by
  apply BitVec.eq_of_getLsbD_eq
  intro i hi
  have byte := congrArg (fun x : BitVec 8 => x.getLsbD (i % 8)) (h (i / 8) (by omega))
  have low : i % 8 < 8 := Nat.mod_lt _ (by decide)
  have whole : 8 * (i / 8) + i % 8 = i := Nat.div_add_mod i 8
  simpa [BitVec.getLsbD_setWidth, BitVec.getLsbD_ushiftRight, low, whole] using byte

/-! The stack as a whole -/

section Layout

variable {phys size : Nat} {base : Word} {argv envp : List (List (BitVec 8))} {aux : AuxInfo}

/-- A stack as `crt0` needs it: the words from `start` on, and the strings that the
first of them point at. -/
structure StackLaid (mem : PhysMem) (phys : Nat) (base : Word) (size : Nat) (argv envp : List (List (BitVec 8)))
    (aux : AuxInfo) (start : Nat) : Prop where
  laid : ∃ as es random,
    List.Forall₂ (StringIn mem phys 0 size) argv as ∧ List.Forall₂ (StringIn mem phys 0 size) envp es ∧
    BytesAt mem phys start ((stackWords argv.length (as.map fun o => base + BitVec.ofNat 64 o)
      (es.map fun o => base + BitVec.ofNat 64 o) aux (base + BitVec.ofNat 64 random)).flatMap wordBytes)
  inside : start + 8 * (17 + argv.length + envp.length) ≤ size

theorem stackWords_length (argc : Nat) (argv envp : List Word) (aux : AuxInfo) (random : Word) :
    (stackWords argc argv envp aux random).length = 17 + argv.length + envp.length := by
  simp only [stackWords, List.length_append, List.length_cons, List.length_nil]
  omega

/-- The sixteen bytes behind `AT_RANDOM`. -/
def randomBytes (seed : Word) : List (BitVec 8) :=
  wordBytes (xorshift64 seed) ++ wordBytes (xorshift64 (xorshift64 seed))

theorem randomBytes_length (seed : Word) : (randomBytes seed).length = 16 := by
  rw [randomBytes, List.length_append, wordBytes_length, wordBytes_length]

/-- How the pieces lie: the strings at the top, the random bytes below them, and the
words below those, at a multiple of 16. -/
structure StackBuilt (mem : PhysMem) (phys : Nat) (base : Word) (size : Nat) (argv envp : List (List (BitVec 8)))
    (aux : AuxInfo) (start random : Nat) (as es : List Nat) : Prop where
  args : List.Forall₂ (StringIn mem phys (random + 16) size) argv as
  env : List.Forall₂ (StringIn mem phys (random + 16) size) envp es
  seeded : BytesAt mem phys random (randomBytes aux.seed)
  words : BytesAt mem phys start ((stackWords argv.length (as.map fun o => base + BitVec.ofNat 64 o)
    (es.map fun o => base + BitVec.ofNat 64 o) aux (base + BitVec.ofNat 64 random)).flatMap wordBytes)
  below : start + 8 * (17 + argv.length + envp.length) ≤ random
  top : random + 16 + roomOf envp + roomOf argv = size
  aligned : start % 16 = 0

theorem StackBuilt.laid {mem : PhysMem} {start random : Nat} {as es : List Nat}
    (h : StackBuilt mem phys base size argv envp aux start random as es) :
    StackLaid mem phys base size argv envp aux start := by
  have below := h.below
  have top := h.top
  have widen : ∀ t o, StringIn mem phys (random + 16) size t o → StringIn mem phys 0 size t o := fun _ _ placed =>
    placed.widen (Nat.zero_le _) le_rfl
  exact ⟨⟨as, es, random, h.args.imp widen, h.env.imp widen, h.words⟩, by omega⟩

theorem buildInitialStack_built (few : argv.length ≤ maxStackArgs) (few' : envp.length ≤ maxStackEnvs)
    (room : roomOf argv + roomOf envp + 8 * (argv.length + envp.length) + 176 ≤ size) (small : size < 2 ^ 64)
    (mem : PhysMem) :
    ∃ start random as es, (buildInitialStack phys base size argv envp aux mem).2 = base + BitVec.ofNat 64 start ∧
      StackBuilt (buildInitialStack phys base size argv envp aux mem).1 phys base size argv envp aux start random
        as es ∧
      ∀ pages f, size ≤ pages * 4096 → ¬ (phys ≤ f ∧ f < phys + pages) →
        (buildInitialStack phys base size argv envp aux mem).1 f = mem f := by
  unfold buildInitialStack
  dsimp only
  rw [List.take_of_length_le few, List.take_of_length_le few']
  obtain ⟨bottomA, placedA, -, frameA⟩ := @placeStrings_placed phys size argv mem (by omega) small
  generalize placeStrings phys argv mem size = a at bottomA placedA frameA ⊢
  obtain ⟨bottomE, placedE, aboveE, frameE⟩ := @placeStrings_placed phys a.2.1 envp a.1 (by omega) (by omega)
  generalize placeStrings phys envp a.1 a.2.1 = e at bottomE placedE aboveE frameE ⊢
  -- the words lie below the random bytes, and those below the strings
  have counted : (auxvEntries + 1) * 2 = 14 := rfl
  rw [counted]
  have startLow : ∀ x, x = (e.2.1 - 16) / 8 * 8 -
      (1 + (argv.length + 1) + (envp.length + 1) + 14) * 8 →
      (if x % 16 ≠ 0 then x - 8 else x) + 8 * (17 + argv.length + envp.length) ≤ e.2.1 - 16 ∧
        (if x % 16 ≠ 0 then x - 8 else x) % 16 = 0 := by
    intro x hx
    split <;> omega
  obtain ⟨low, aligned⟩ := startLow _ rfl
  generalize (if ((e.2.1 - 16) / 8 * 8 - (1 + (argv.length + 1) + (envp.length + 1) + 14) * 8) % 16 ≠ 0 then
    (e.2.1 - 16) / 8 * 8 - (1 + (argv.length + 1) + (envp.length + 1) + 14) * 8 - 8 else
    (e.2.1 - 16) / 8 * 8 - (1 + (argv.length + 1) + (envp.length + 1) + 14) * 8) = start at low aligned ⊢
  have randomLow : e.2.1 - 16 < 2 ^ 64 := by omega
  have startSmall : start < 2 ^ 64 := by omega
  have seeded : wordBytes (xorshift64 aux.seed) ++ wordBytes (xorshift64 (xorshift64 aux.seed)) =
      randomBytes aux.seed := rfl
  rw [seeded]
  have sixteen := randomBytes_length aux.seed
  have wordsLow : ∀ (as es : List Word) (r : Word), as.length = argv.length → es.length = envp.length →
      start + ((stackWords argv.length as es aux r).flatMap wordBytes).length ≤ e.2.1 - 16 := by
    intro as es r ha he
    rw [wordsBytes_length, stackWords_length, ha, he]
    exact low
  have lenA : (a.2.2.map fun o => base + BitVec.ofNat 64 o).length = argv.length := by
    rw [List.length_map, placedA.length_eq]
  have lenE : (e.2.2.map fun o => base + BitVec.ofNat 64 o).length = envp.length := by
    rw [List.length_map, placedE.length_eq]
  have ends := wordsLow _ _ (base + BitVec.ofNat 64 (e.2.1 - 16)) lenA lenE
  have strings : e.2.1 - 16 + 16 = e.2.1 := by omega
  refine ⟨start, e.2.1 - 16, a.2.2, e.2.2, rfl, ⟨?_, ?_, ?_, fillBuffer_at _ _ _ startSmall (by omega), low, by omega,
    aligned⟩, fun pages f inside off => ?_⟩
  · refine placedA.imp fun t o h => ?_
    have first := aboveE _ _ t o le_rfl h
    exact ((first.below randomLow (by omega)).below startSmall (by omega)).widen (by omega) le_rfl
  · refine placedE.imp fun t o h => ?_
    exact ((h.below randomLow (by omega)).below startSmall (by omega)).widen (by omega) (by omega)
  · exact (fillBuffer_at _ _ _ randomLow (by omega)).below startSmall ends
  · rw [fillBuffer_frame _ startSmall (by omega) off,
      fillBuffer_frame _ randomLow (by omega) off, frameE pages f (by omega) off,
      frameA pages f inside off]

theorem buildInitialStack_laid (few : argv.length ≤ maxStackArgs) (few' : envp.length ≤ maxStackEnvs)
    (room : roomOf argv + roomOf envp + 8 * (argv.length + envp.length) + 176 ≤ size) (small : size < 2 ^ 64)
    (mem : PhysMem) :
    ∃ start, (buildInitialStack phys base size argv envp aux mem).2 = base + BitVec.ofNat 64 start ∧
      StackLaid (buildInitialStack phys base size argv envp aux mem).1 phys base size argv envp aux start ∧
      ∀ pages f, size ≤ pages * 4096 → ¬ (phys ≤ f ∧ f < phys + pages) →
        (buildInitialStack phys base size argv envp aux mem).1 f = mem f := by
  obtain ⟨start, random, as, es, place, built, frame⟩ := buildInitialStack_built few few' room small mem
  exact ⟨start, place, built.laid, frame⟩

end Layout

end Isunux
