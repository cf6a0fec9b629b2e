import Isunux.ExecArgs

/-! The first stack of a program, read back. `crt0` takes the arguments from the words at
the stack pointer, and a program that wants the auxiliary vector walks past the NULL of
its environment. All they read is what `build_initial_stack` wrote for them. -/
namespace Isunux

/-- What a program finds at an address, where something is mapped. -/
abbrev UserView := Word → Option (BitVec 8)

section Reading

def loadWord (m : UserView) (v : Word) : Option Word :=
  if ∀ j < 8, (m (v + BitVec.ofNat 64 j)).isSome then some (field64 (fun a => (m a).getD 0) v) else none

def loadString (m : UserView) : Nat → Word → Option (List (BitVec 8))
  | 0, _ => none
  | fuel + 1, v =>
    match m v with
    | none => none
    | some b => if b = 0 then some [] else (loadString m fuel (v + 1#64)).map (b :: ·)

/-- An array of pointers up to its NULL. -/
def loadPointers (m : UserView) : Nat → Word → Option (List Word)
  | 0, _ => none
  | fuel + 1, v =>
    match loadWord m v with
    | none => none
    | some w => if w = 0#64 then some [] else (loadPointers m fuel (v + 8#64)).map (w :: ·)

/-- Pairs of a type and a value up to `AT_NULL`. -/
def loadAuxv (m : UserView) : Nat → Word → Option (List (Word × Word))
  | 0, _ => none
  | fuel + 1, v =>
    match loadWord m v, loadWord m (v + 8#64) with
    | some type, some val =>
      if type = 0#64 then some [] else (loadAuxv m fuel (v + 16#64)).map ((type, val) :: ·)
    | _, _ => none

variable {m : UserView} {v : Word}

def WordsAt (m : UserView) (v : Word) (words : List Word) : Prop :=
  ∀ i w, words[i]? = some w → loadWord m (v + BitVec.ofNat 64 (8 * i)) = some w

theorem WordsAt.cons {w : Word} {rest : List Word} (h : WordsAt m v (w :: rest)) :
    loadWord m v = some w ∧ WordsAt m (v + 8#64) rest := by
  refine ⟨?_, fun i w' here => ?_⟩
  · have first := h 0 w rfl
    rwa [Nat.mul_zero, BitVec.add_zero] at first
  · have next := h (i + 1) w' here
    rwa [Nat.mul_succ, Nat.add_comm, BitVec.ofNat_add, ← BitVec.add_assoc] at next

theorem WordsAt.drop {words rest : List Word} (h : WordsAt m v (words ++ rest)) :
    WordsAt m (v + BitVec.ofNat 64 (8 * words.length)) rest := by
  intro i w here
  rw [BitVec.add_assoc, ← BitVec.ofNat_add, ← Nat.mul_add]
  exact h _ w (by rw [List.getElem?_append_right (Nat.le_add_right _ _), Nat.add_sub_cancel_left]; exact here)

theorem loadPointers_words {words rest : List Word} {fuel : Nat} (h : WordsAt m v (words ++ 0#64 :: rest))
    (nonzero : 0#64 ∉ words) (enough : words.length < fuel) : loadPointers m fuel v = some words := by
  induction words generalizing v fuel with
  | nil =>
    obtain ⟨fuel, rfl⟩ := Nat.exists_eq_add_of_lt enough
    rw [loadPointers, h.cons.1]
    rfl
  | cons w words ih =>
    cases fuel with
    | zero => nomatch enough
    | succ fuel =>
      obtain ⟨first, others⟩ := h.cons
      have some : w ≠ 0#64 := fun zero => nonzero (zero ▸ List.mem_cons_self)
      rw [loadPointers, first]
      dsimp only
      rw [if_neg some, ih others (fun mem => nonzero (List.mem_cons_of_mem _ mem)) (Nat.lt_of_succ_lt_succ enough)]
      rfl

theorem loadAuxv_words {pairs : List (Word × Word)} {rest : List Word} {fuel : Nat}
    (h : WordsAt m v (pairs.flatMap (fun p => [p.1, p.2]) ++ 0#64 :: 0#64 :: rest))
    (typed : ∀ p ∈ pairs, p.1 ≠ 0#64) (enough : pairs.length < fuel) : loadAuxv m fuel v = some pairs := by
  induction pairs generalizing v fuel with
  | nil =>
    obtain ⟨fuel, rfl⟩ := Nat.exists_eq_add_of_lt enough
    obtain ⟨first, others⟩ := h.cons
    rw [loadAuxv, first, others.cons.1]
    rfl
  | cons p pairs ih =>
    cases fuel with
    | zero => nomatch enough
    | succ fuel =>
      obtain ⟨first, others⟩ := WordsAt.cons h
      obtain ⟨second, others⟩ := WordsAt.cons others
      have two : v + 8#64 + 8#64 = v + 16#64 := BitVec.add_assoc v 8#64 8#64
      rw [two] at others
      rw [loadAuxv, first, second]
      dsimp only
      rw [if_neg (typed p List.mem_cons_self), ih others (fun q mem => typed q (List.mem_cons_of_mem _ mem))
        (Nat.lt_of_succ_lt_succ enough)]
      rfl

theorem loadString_bytes {s : List (BitVec 8)} {fuel : Nat}
    (h : ∀ j ≤ s.length, m (v + BitVec.ofNat 64 j) = some ((s ++ [0]).getD j 0)) (clean : 0 ∉ s)
    (enough : s.length < fuel) : loadString m fuel v = some s := by
  induction s generalizing v fuel with
  | nil =>
    obtain ⟨fuel, rfl⟩ := Nat.exists_eq_add_of_lt enough
    have first := h 0 (Nat.zero_le _)
    rw [BitVec.add_zero] at first
    rw [loadString, first]
    rfl
  | cons b s ih =>
    cases fuel with
    | zero => nomatch enough
    | succ fuel =>
      have first := h 0 (Nat.zero_le _)
      rw [BitVec.add_zero] at first
      have some : b ≠ 0 := fun zero => clean (zero ▸ List.mem_cons_self)
      have others : ∀ j ≤ s.length, m (v + 1#64 + BitVec.ofNat 64 j) = Option.some ((s ++ [0]).getD j 0) := by
        intro j low
        have next := h (j + 1) (Nat.succ_le_succ low)
        rw [Nat.add_comm, BitVec.ofNat_add, ← BitVec.add_assoc, Nat.add_comm] at next
        exact next
      rw [loadString, first]
      change (if b = 0 then Option.some [] else (loadString m fuel (v + 1#64)).map (b :: ·)) = Option.some (b :: s)
      rw [if_neg some, ih others (fun mem => clean (List.mem_cons_of_mem _ mem)) (Nat.lt_of_succ_lt_succ enough)]
      rfl

theorem field_word {data : ElfData} {n : Nat} {w : Word}
    (h : ∀ j < n, data (v + BitVec.ofNat 64 j) = (w >>> (8 * j)).setWidth 8) :
    field data v n = w.toNat % 256 ^ n := by
  induction n generalizing v w with
  | zero => rw [field, Nat.pow_zero, Nat.mod_one]
  | succ n ih =>
    have first := h 0 (Nat.succ_pos n)
    rw [BitVec.add_zero, Nat.mul_zero, BitVec.ushiftRight_zero] at first
    have others : ∀ j < n, data (v + 1#64 + BitVec.ofNat 64 j) = (w >>> 8 >>> (8 * j)).setWidth 8 := by
      intro j low
      have next := h (j + 1) (Nat.succ_lt_succ low)
      rwa [Nat.add_comm, BitVec.ofNat_add, ← BitVec.add_assoc, Nat.mul_add, BitVec.shiftRight_add] at next
    have byte : (2 : Nat) ^ 8 = 256 := rfl
    rw [field, ih others, first, BitVec.toNat_setWidth, BitVec.toNat_ushiftRight, Nat.shiftRight_eq_div_pow, byte,
      Nat.pow_succ', Nat.mod_mul]

theorem loadWord_bytes {w : Word} (h : ∀ j < 8, m (v + BitVec.ofNat 64 j) = some ((w >>> (8 * j)).setWidth 8)) :
    loadWord m v = some w := by
  have mapped : ∀ j < 8, (m (v + BitVec.ofNat 64 j)).isSome := by
    intro j low
    rw [h j low]
    rfl
  have bytes : ∀ j < 8, (m (v + BitVec.ofNat 64 j)).getD 0 = (w >>> (8 * j)).setWidth 8 := by
    intro j low
    rw [h j low]
    rfl
  have whole : (256 : Nat) ^ 8 = 2 ^ 64 := rfl
  rw [loadWord, if_pos mapped, field64, field_word bytes, whole, Nat.mod_eq_of_lt w.isLt, BitVec.ofNat_toNat,
    BitVec.setWidth_eq]

end Reading

/-- What a program gets to know from its stack pointer. -/
structure StartArgs where
  argc : Word
  argv : List Word
  envp : List Word
  auxv : List (Word × Word)

/-- `crt0.asm`: what `main` is called with. -/
def crt0 (m : UserView) (rsp : Word) : Option (Word × Word × Word) :=
  (loadWord m rsp).map fun argc => (argc, rsp + 8#64, rsp + 8#64 + argc * 8#64 + 8#64)

/-- The arguments of `main`, each array up to its NULL, and the auxiliary vector behind
the environment's. -/
def readStart (m : UserView) (fuel : Nat) (rsp : Word) : Option StartArgs := do
  let (argc, argv, envp) ← crt0 m rsp
  let args ← loadPointers m fuel argv
  let env ← loadPointers m fuel envp
  let auxv ← loadAuxv m fuel (envp + BitVec.ofNat 64 (8 * (env.length + 1)))
  some ⟨argc, args, env, auxv⟩

/-- No byte of the one block is a byte of the other. -/
def NoOverlap (v : Word) (n : Nat) (v' : Word) (n' : Nat) : Prop :=
  ∀ i < n, ∀ j < n', v + BitVec.ofNat 64 i ≠ v' + BitVec.ofNat 64 j

/-- Four pages of stack as they are mapped. -/
def stackView (mem : PhysMem) (phys : Nat) (base : Word) : UserView := fun v =>
  if (v - base).toNat < userStackPages * 4096 then some (bufferByte mem phys (v - base).toNat) else none

/-- A copy of a string behind a pointer, clear of the random bytes. -/
def Copied (m : UserView) (random ptr : Word) (s : CString) : Prop :=
  loadString m (userStackPages * 4096) ptr = some s.1 ∧ NoOverlap random 16 ptr (s.1.length + 1)

/-- The stack says what went into it. -/
structure Decodes (m : UserView) (rsp : Word) (argv envp : List CString) (aux : AuxInfo) (d : StartArgs)
    (random : Word) : Prop where
  read : readStart m (userStackPages * 4096) rsp = some d
  argc : d.argc = BitVec.ofNat 64 argv.length
  args : List.Forall₂ (Copied m random) d.argv argv
  env : List.Forall₂ (Copied m random) d.envp envp
  auxv : d.auxv = [(3#64, aux.phdrVaddr), (4#64, BitVec.ofNat 64 aux.phentsize), (5#64, BitVec.ofNat 64 aux.phnum),
    (6#64, 4096#64), (9#64, aux.entry), (25#64, random)]
  seeded : ∀ i < 16, m (random + BitVec.ofNat 64 i) = some ((randomBytes aux.seed).getD i 0)
  apart : NoOverlap random 16 rsp (8 * (17 + argv.length + envp.length))

section Decoding

variable {mem : PhysMem} {phys start random : Nat} {base : Word} {as es : List Nat} {aux : AuxInfo}

theorem place_add (base : Word) (a b : Nat) :
    base + BitVec.ofNat 64 a + BitVec.ofNat 64 b = base + BitVec.ofNat 64 (a + b) := by
  rw [BitVec.add_assoc, ← BitVec.ofNat_add]

theorem stackView_at (mem : PhysMem) (phys : Nat) (base : Word) {o : Nat} (low : o < userStackPages * 4096) :
    stackView mem phys base (base + BitVec.ofNat 64 o) = some (bufferByte mem phys o) := by
  have four : userStackPages * 4096 = 16384 := rfl
  have place : (base + BitVec.ofNat 64 o - base).toNat = o := by
    rw [BitVec.add_comm, BitVec.add_sub_cancel, BitVec.toNat_ofNat]
    omega
  rw [stackView, place, if_pos low]

theorem noOverlap_of_le (base : Word) {o n o' n' : Nat} (above : o + n ≤ o' ∨ o' + n' ≤ o)
    (inside : o + n ≤ userStackPages * 4096) (inside' : o' + n' ≤ userStackPages * 4096) :
    NoOverlap (base + BitVec.ofNat 64 o) n (base + BitVec.ofNat 64 o') n' := by
  have four : userStackPages * 4096 = 16384 := rfl
  intro i low j low' same
  rw [place_add, place_add] at same
  have places := congrArg (fun v => (v - base).toNat) same
  simp only [BitVec.add_comm base, BitVec.add_sub_cancel] at places
  rw [BitVec.toNat_ofNat, BitVec.toNat_ofNat] at places
  omega

theorem StringIn.copied {lo : Nat} {s : CString} {o : Nat} (h : StringIn mem phys lo (userStackPages * 4096) s.1 o)
    (above : random + 16 ≤ lo) :
    Copied (stackView mem phys base) (base + BitVec.ofNat 64 random) (base + BitVec.ofNat 64 o) s := by
  obtain ⟨bytes, lower, upper⟩ := h
  refine ⟨loadString_bytes (fun j low => ?_) s.2 (by omega), noOverlap_of_le base (.inl (by omega)) (by omega) upper⟩
  rw [place_add, stackView_at mem phys base (by omega)]
  exact congrArg some (bytes j (by rw [List.length_append, List.length_singleton]; omega))

theorem staged_room {argv envp : List CString} (args : FitsStage maxExecArgs execArgMaxlen argv)
    (env : FitsStage maxExecEnvs execEnvMaxlen envp) :
    roomOf (argv.map (·.1)) ≤ 512 ∧ roomOf (envp.map (·.1)) ≤ 2048 := by
  have shorter : ∀ {count maxlen : Nat} {strings : List CString}, FitsStage count maxlen strings →
      roomOf (strings.map (·.1)) ≤ count * maxlen := by
    intro count maxlen strings fits
    refine roomOf_le (by rw [List.length_map]; exact fits.1) fun s mem => ?_
    obtain ⟨str, inside, rfl⟩ := List.mem_map.mp mem
    exact fits.2 str inside
  exact ⟨shorter args, shorter env⟩

/-- No string begins at address 0, even where the addresses of the stack wrap around. -/
theorem string_nonnull {o : Nat} (page : base.toNat % 4096 = 0) (high : 3 * 4096 < o)
    (inside : o < userStackPages * 4096) : base + BitVec.ofNat 64 o ≠ 0#64 := by
  intro zero
  have four : userStackPages * 4096 = 16384 := rfl
  have place := congrArg BitVec.toNat zero
  have none : (0#64).toNat = 0 := rfl
  rw [BitVec.toNat_add, BitVec.toNat_ofNat, none] at place
  have bound := base.isLt
  omega

theorem StackBuilt.wordsAt {argv envp : List (List (BitVec 8))}
    (h : StackBuilt mem phys base (userStackPages * 4096) argv envp aux start random as es) :
    WordsAt (stackView mem phys base) (base + BitVec.ofNat 64 start)
      (stackWords argv.length (as.map fun o => base + BitVec.ofNat 64 o) (es.map fun o => base + BitVec.ofNat 64 o)
        aux (base + BitVec.ofNat 64 random)) := by
  intro i w here
  have below := h.below
  have top := h.top
  have lenA := h.args.length_eq
  have lenE := h.env.length_eq
  have bound := (List.getElem?_eq_some_iff.mp here).1
  have length := wordsBytes_length (stackWords argv.length (as.map fun o => base + BitVec.ofNat 64 o)
    (es.map fun o => base + BitVec.ofNat 64 o) aux (base + BitVec.ofNat 64 random))
  rw [stackWords_length, List.length_map, List.length_map, ← lenA, ← lenE] at bound length
  refine loadWord_bytes fun j low => ?_
  rw [place_add, place_add, stackView_at mem phys base (by omega),
    h.words (8 * i + j) (by rw [length]; omega), wordsBytes_getD here low]

theorem StackBuilt.decodes {argv envp : List CString} (page : base.toNat % 4096 = 0)
    (args : FitsStage maxExecArgs execArgMaxlen argv) (env : FitsStage maxExecEnvs execEnvMaxlen envp)
    (h : StackBuilt mem phys base (userStackPages * 4096) (argv.map (·.1)) (envp.map (·.1)) aux start random as es) :
    ∃ d, Decodes (stackView mem phys base) (base + BitVec.ofNat 64 start) argv envp aux d
      (base + BitVec.ofNat 64 random) := by
  have four : userStackPages * 4096 = 16384 := rfl
  obtain ⟨roomA, roomE⟩ := staged_room args env
  have top := h.top
  have below := h.below
  have lenA : (as.map fun o => base + BitVec.ofNat 64 o).length = argv.length := by
    rw [List.length_map, ← h.args.length_eq, List.length_map]
  have lenE : (es.map fun o => base + BitVec.ofNat 64 o).length = envp.length := by
    rw [List.length_map, ← h.env.length_eq, List.length_map]
  have few := args.1
  have few' := env.1
  unfold maxExecArgs at few
  unfold maxExecEnvs at few'
  -- the pointers point high into the stack
  have nonnull : ∀ {strings : List CString} {offsets : List Nat}, List.Forall₂ (StringIn mem phys (random + 16)
      (userStackPages * 4096)) (strings.map (·.1)) offsets → 0#64 ∉ offsets.map fun o => base + BitVec.ofNat 64 o := by
    intro strings offsets placed zero
    obtain ⟨o, inside, zero⟩ := List.mem_map.mp zero
    obtain ⟨i, bound, rfl⟩ := List.getElem_of_mem inside
    have here := placed.get (placed.length_eq ▸ bound) bound
    have lower : random + 16 ≤ offsets[i] := here.2.1
    have upper : offsets[i] + _ ≤ userStackPages * 4096 := here.2.2
    exact string_nonnull page (by omega) (by omega) zero
  have copies : ∀ {strings : List CString} {offsets : List Nat}, List.Forall₂ (StringIn mem phys (random + 16)
      (userStackPages * 4096)) (strings.map (·.1)) offsets → List.Forall₂ (Copied (stackView mem phys base)
      (base + BitVec.ofNat 64 random)) (offsets.map fun o => base + BitVec.ofNat 64 o) strings := by
    intro strings offsets placed
    rw [List.forall₂_map_left_iff] at placed ⊢
    exact placed.flip.imp fun o s inside => StringIn.copied inside le_rfl
  have words := h.wordsAt
  rw [List.length_map] at words
  have nonnullA := nonnull h.args
  have nonnullE := nonnull h.env
  have copiesA := copies h.args
  have copiesE := copies h.env
  have randomInside : random + 16 ≤ userStackPages * 4096 := by omega
  have seeded : ∀ i < 16, stackView mem phys base (base + BitVec.ofNat 64 random + BitVec.ofNat 64 i) =
      some ((randomBytes aux.seed).getD i 0) := by
    intro i low
    rw [place_add, stackView_at mem phys base (by omega)]
    exact congrArg some (h.seeded i (by rw [randomBytes_length]; exact low))
  have clear := @noOverlap_of_le base random 16 start (8 * (17 + argv.length + envp.length))
    (.inr (by rw [List.length_map, List.length_map] at below; omega)) randomInside
    (by rw [List.length_map, List.length_map] at below; omega)
  generalize as.map (fun o => base + BitVec.ofNat 64 o) = A at words lenA nonnullA copiesA
  generalize es.map (fun o => base + BitVec.ofNat 64 o) = E at words lenE nonnullE copiesE
  generalize base + BitVec.ofNat 64 random = R at words seeded clear copiesA copiesE ⊢
  generalize base + BitVec.ofNat 64 start = rsp at words clear ⊢
  generalize stackView mem phys base = m at words seeded copiesA copiesE ⊢
  let pairs : List (Word × Word) := [(3#64, aux.phdrVaddr), (4#64, BitVec.ofNat 64 aux.phentsize),
    (5#64, BitVec.ofNat 64 aux.phnum), (6#64, 4096#64), (9#64, aux.entry), (25#64, R)]
  have shape : stackWords argv.length A E aux R = BitVec.ofNat 64 argv.length :: (A ++ 0#64 ::
      (E ++ 0#64 :: (pairs.flatMap (fun p => [p.1, p.2]) ++ 0#64 :: 0#64 :: []))) := by
    simp [stackWords, pairs]
  rw [shape] at words
  obtain ⟨argc, words⟩ := words.cons
  have readA := @loadPointers_words _ _ _ _ (userStackPages * 4096) words nonnullA (by omega)
  obtain ⟨-, words⟩ := words.drop.cons
  have readE := @loadPointers_words _ _ _ _ (userStackPages * 4096) words nonnullE (by omega)
  obtain ⟨-, words⟩ := words.drop.cons
  have typed : ∀ p ∈ pairs, p.1 ≠ 0#64 := by
    simp [pairs]
  have readX := @loadAuxv_words _ _ _ _ (userStackPages * 4096) words typed (by rw [four]; simp [pairs])
  have envAt : rsp + 8#64 + BitVec.ofNat 64 argv.length * 8#64 + 8#64 =
      rsp + 8#64 + BitVec.ofNat 64 (8 * A.length) + 8#64 := by
    rw [lenA, Nat.mul_comm, BitVec.ofNat_mul]
  have auxvAt : rsp + 8#64 + BitVec.ofNat 64 (8 * A.length) + 8#64 + BitVec.ofNat 64 (8 * (E.length + 1)) =
      rsp + 8#64 + BitVec.ofNat 64 (8 * A.length) + 8#64 + BitVec.ofNat 64 (8 * E.length) + 8#64 := by
    rw [Nat.mul_succ, BitVec.ofNat_add, BitVec.add_assoc _ (BitVec.ofNat 64 (8 * E.length))]
  refine ⟨⟨BitVec.ofNat 64 argv.length, A, E, pairs⟩, ?_, rfl, copiesA, copiesE, rfl, seeded, clear⟩
  rw [readStart, crt0, argc]
  change (loadPointers m (userStackPages * 4096) (rsp + 8#64)).bind _ = _
  rw [readA]
  change (loadPointers m (userStackPages * 4096) (rsp + 8#64 + BitVec.ofNat 64 argv.length * 8#64 + 8#64)).bind _ = _
  rw [envAt, readE]
  change (loadAuxv m (userStackPages * 4096) (rsp + 8#64 + BitVec.ofNat 64 (8 * A.length) + 8#64 +
    BitVec.ofNat 64 (8 * (E.length + 1)))).bind _ = _
  rw [auxvAt, readX]
  rfl

end Decoding

/-- What `build_initial_stack` writes to a four-page stack, read the way a program reads it. -/
theorem initial_stack_decodes (phys : Nat) (base : Word) (argv envp : List CString) (aux : AuxInfo) (mem : PhysMem)
    (page : base.toNat % 4096 = 0) (args : FitsStage maxExecArgs execArgMaxlen argv)
    (env : FitsStage maxExecEnvs execEnvMaxlen envp) :
    let r := buildInitialStack phys base (userStackPages * 4096) (argv.map (·.1)) (envp.map (·.1)) aux mem
    r.2.toNat % 16 = 0 ∧ (∀ f, ¬ (phys ≤ f ∧ f < phys + userStackPages) → r.1 f = mem f) ∧
      ∃ d random, Decodes (stackView r.1 phys base) r.2 argv envp aux d random := by
  intro r
  have four : userStackPages * 4096 = 16384 := rfl
  obtain ⟨roomA, roomE⟩ := staged_room args env
  have few : (argv.map (·.1)).length ≤ maxStackArgs := by
    rw [List.length_map]
    exact args.1
  have few' : (envp.map (·.1)).length ≤ maxStackEnvs := by
    rw [List.length_map]
    exact env.1
  have counts : maxStackArgs = 8 ∧ maxStackEnvs = 16 := ⟨rfl, rfl⟩
  obtain ⟨start, random, as, es, place, built, frame⟩ :=
      @buildInitialStack_built phys (userStackPages * 4096) base _ _ aux few few' (by omega) (by omega) mem
  have rsp : r.2 = base + BitVec.ofNat 64 start := place
  have aligned := built.aligned
  have below := built.below
  have top := built.top
  obtain ⟨d, decodes⟩ := built.decodes page args env
  refine ⟨?_, fun f off => frame userStackPages f le_rfl off, d, _, rsp ▸ decodes⟩
  rw [rsp, BitVec.toNat_add, BitVec.toNat_ofNat]
  omega

def tinyAux : AuxInfo := ⟨0x400078#64, 0x400040#64, 56, 1, 7#64⟩

/-- The stack of a program with two arguments and no environment. -/
def twoStack : PhysMem × Word :=
  buildInitialStack 2 userStackBase (userStackPages * 4096) (twoArguments.map (·.1)) ([].map (Subtype.val : CString → _))
    tinyAux sixteenPages.mem

theorem initial_stack_decodes_two :
    ∃ d random, Decodes (stackView twoStack.1 2 userStackBase) twoStack.2 twoArguments [] tinyAux d random := by
  have args : FitsStage maxExecArgs execArgMaxlen twoArguments := by
    rw [FitsStage]
    decide
  have env : FitsStage maxExecEnvs execEnvMaxlen [] := by
    rw [FitsStage]
    decide
  exact (initial_stack_decodes 2 userStackBase twoArguments [] tinyAux sixteenPages.mem (by decide) args env).2.2

end Isunux
