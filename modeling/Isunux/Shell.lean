import Isunux.Lib.SlotMap

/-! The shell, as in `bin/sh/main.c`: its environment, the tokenizer, the parser of pipelines
and the search of `PATH`. A C string is the list of its bytes before the NUL. -/
namespace Isunux

def maxArgs : Nat := 16
def maxStages : Nat := 8
def maxPath : Nat := 128
def maxTokens : Nat := maxArgs * maxStages
def tokenArenaSize : Nat := 512
def maxEnv : Nat := 32

def asciiBytes (text : String) : List (BitVec 8) := text.toList.map fun c => BitVec.ofNat 8 c.toNat

/-- `copy_bounded`: the string that the destination holds. -/
def copyBounded (size : Nat) (src : List (BitVec 8)) : List (BitVec 8) := src.take (size - 1)

def isVarChar (c : BitVec 8) : Bool :=
  (0x61#8 ≤ c ∧ c ≤ 0x7A#8) ∨ (0x41#8 ≤ c ∧ c ≤ 0x5A#8) ∨ (0x30#8 ≤ c ∧ c ≤ 0x39#8) ∨ c = 0x5F#8

def equalsByte : BitVec 8 := 0x3D#8

/-! Environment -/

/-- `env_var_t`. -/
structure EnvVar where
  name : List (BitVec 8)
  value : List (BitVec 8)
  used : Bool
  deriving DecidableEq

def envNameSize : Nat := 32
def envValueSize : Nat := 128

/-- `env_vars`, as it is before `main`. -/
def emptyEnv : List EnvVar := List.replicate maxEnv ⟨[], [], false⟩

def envGet (vars : List EnvVar) (name : List (BitVec 8)) : Option (List (BitVec 8)) :=
  (vars.find? fun v => v.used && v.name == name).map EnvVar.value

/-- `env_set`: a new variable takes the first unused slot, or is dropped. -/
def envSet (vars : List EnvVar) (name value : List (BitVec 8)) : List EnvVar :=
  match SlotMap.updateFirst (fun v => v.used && v.name == name)
      (fun v => { v with value := copyBounded envValueSize value }) vars with
  | some vars => vars
  | none =>
    (SlotMap.updateFirst (fun v => !v.used)
      (fun _ => ⟨copyBounded envNameSize name, copyBounded envValueSize value, true⟩) vars).getD vars

def isAssignment (word : List (BitVec 8)) : Bool :=
  match word with
  | [] => false
  | c :: rest =>
    (((0x61#8 ≤ c ∧ c ≤ 0x7A#8) ∨ (0x41#8 ≤ c ∧ c ≤ 0x5A#8) ∨ c = 0x5F#8 : Bool)) &&
      (rest.dropWhile isVarChar).head? == some equalsByte

/-- `do_assignment`: the name is cut off, and then there is no value. -/
def doAssignment (vars : List EnvVar) (word : List (BitVec 8)) : List EnvVar :=
  let name := (word.takeWhile (· ≠ equalsByte)).take (envNameSize - 1)
  let rest := word.drop name.length
  envSet vars name (if rest.head? = some equalsByte then rest.tail else [])

def envpStrSize : Nat := 32 + 1 + 128

/-- One of the strings of `build_envp_array`. -/
def envpString (v : EnvVar) : List (BitVec 8) :=
  v.name ++ equalsByte :: v.value.take (envpStrSize - 1 - (v.name.length + 1))

def buildEnvpArray (vars : List EnvVar) : List (List (BitVec 8)) := (vars.filter EnvVar.used).map envpString

def pathName : List (BitVec 8) := asciiBytes "PATH"
def homeName : List (BitVec 8) := asciiBytes "HOME"
def defaultPath : List (BitVec 8) := asciiBytes "/bin"
def defaultHome : List (BitVec 8) := asciiBytes "/"

/-- The defaults that `main` sets first. -/
def initialEnv : List EnvVar := envSet (envSet emptyEnv pathName defaultPath) homeName defaultHome

/-- `main` takes over one string of `envp`. One without `=` is skipped. -/
def seedVar (vars : List EnvVar) (entry : List (BitVec 8)) : List EnvVar :=
  let name := entry.takeWhile (· ≠ equalsByte)
  match entry.drop name.length with
  | [] => vars
  | _ :: value => envSet vars (name.take (envNameSize - 1)) value

/-- The environment of a shell that was executed with `envp`. -/
def seedEnv (envp : List (List (BitVec 8))) : List EnvVar := envp.foldl seedVar initialEnv

/-! Tokens -/

inductive TokType where
  | word
  | pipe
  | redirOut
  | redirIn
  | amp
  deriving DecidableEq

/-- `token_t`; the text is a place in the arena. -/
structure Token where
  type : TokType
  text : Option Nat
  deriving DecidableEq

/-- `arena` and `arena_pos`. What the last line left behind is still there. -/
structure TokenArena where
  bytes : Nat → BitVec 8
  pos : Nat

/-- A character of a word, as long as a terminator has room behind it. -/
def TokenArena.push (a : TokenArena) (c : BitVec 8) : TokenArena :=
  if a.pos < tokenArenaSize - 1 then ⟨Function.update a.bytes a.pos c, a.pos + 1⟩ else a

def TokenArena.close (a : TokenArena) : TokenArena :=
  if a.pos < tokenArenaSize then ⟨Function.update a.bytes a.pos 0#8, a.pos + 1⟩ else a

def singleQuote : BitVec 8 := 0x27#8
def doubleQuote : BitVec 8 := 0x22#8
def dollarByte : BitVec 8 := 0x24#8

def isSpace (c : BitVec 8) : Bool := c = 0x20#8 ∨ c = 0x09#8

def operatorOf (c : BitVec 8) : Option TokType :=
  if c = 0x7C#8 then some .pipe
  else if c = 0x3E#8 then some .redirOut
  else if c = 0x3C#8 then some .redirIn
  else if c = 0x26#8 then some .amp
  else none

def varNameSize : Nat := 32

/-- The name behind a `$`. -/
def varName (line : List (BitVec 8)) : List (BitVec 8) := (line.takeWhile isVarChar).take (varNameSize - 1)

section Tokenize

variable (env : List EnvVar)

/-- The inner loop of `tokenize`, over one word. -/
def scanWord (inSingle inDouble : Bool) : List (BitVec 8) → TokenArena → TokenArena × List (BitVec 8)
  | [], a => (a, [])
  | c :: rest, a =>
    if !inSingle && !inDouble && (isSpace c || (operatorOf c).isSome) then (a, c :: rest)
    else if !inDouble && c == singleQuote then scanWord (!inSingle) inDouble rest a
    else if !inSingle && c == doubleQuote then scanWord inSingle (!inDouble) rest a
    else if !inSingle && c == dollarByte then
      let name := varName rest
      scanWord inSingle inDouble (rest.drop name.length) (((envGet env name).getD []).foldl TokenArena.push a)
    else scanWord inSingle inDouble rest (a.push c)
termination_by line => line.length
decreasing_by all_goals simp

/-- `tokenize`; the number is how many tokens still fit. -/
def tokenizeLoop : Nat → List (BitVec 8) → TokenArena → TokenArena × List Token
  | left, line, a =>
    match left, line.dropWhile isSpace with
    | _, [] => (a, [])
    | 0, _ => (a, [])
    | left + 1, c :: rest =>
      match operatorOf c with
      | some type =>
        let r := tokenizeLoop left rest a
        (r.1, ⟨type, none⟩ :: r.2)
      | none =>
        let word := scanWord env false false (c :: rest) a
        let r := tokenizeLoop left word.2 word.1.close
        (r.1, ⟨.word, some a.pos⟩ :: r.2)

def tokenize (line : List (BitVec 8)) (arena : Nat → BitVec 8) (maxToks : Nat) : TokenArena × List Token :=
  tokenizeLoop env maxToks line ⟨arena, 0⟩

end Tokenize

/-! Pipelines -/

/-- `stage_t`; texts are places in the arena, `none` is NULL. -/
structure Stage where
  argv : Nat → Option Nat
  argc : Nat
  redirectIn : Option Nat
  redirectOut : Option Nat

inductive ParseError where
  | tooManyStages
  | nearRedirect (op : TokType)
  | nearPipe
  deriving DecidableEq

/-- The line that is printed before `parse_pipeline` returns -1. -/
def ParseError.text : ParseError → String
  | .tooManyStages => "sh: too many pipeline stages"
  | .nearRedirect op => if op = .redirOut then "sh: syntax error near '>'" else "sh: syntax error near '<'"
  | .nearPipe => "sh: syntax error near '|'"

/-- An argument is appended while there is room for it and for the NULL. -/
def Stage.pushArg (s : Stage) (text : Option Nat) : Stage :=
  if s.argc < maxArgs - 1 then { s with argv := Function.update s.argv s.argc text, argc := s.argc + 1 } else s

/-- The inner loop of `parse_pipeline`, up to a pipe. -/
def parseStage : List Token → Stage → Except ParseError (Stage × List Token)
  | [], s => .ok (s, [])
  | t :: rest, s =>
    if t.type = .pipe then .ok (s, t :: rest)
    else if t.type = .redirOut ∨ t.type = .redirIn then
      match rest with
      | [] => .error (.nearRedirect t.type)
      | u :: rest =>
        if u.type ≠ .word then .error (.nearRedirect t.type)
        else if t.type = .redirOut then parseStage rest { s with redirectOut := u.text }
        else parseStage rest { s with redirectIn := u.text }
    else parseStage rest (s.pushArg t.text)

/-- The outer loop of `parse_pipeline`; the number is how many stages still fit, and `argvs`
is what the argument vectors of these stages hold before. -/
def parseStages : Nat → (Nat → Nat → Option Nat) → List Token → Except ParseError (List Stage)
  | _, _, [] => .ok []
  | 0, _, _ :: _ => .error .tooManyStages
  | left + 1, argvs, t :: rest =>
    match parseStage (t :: rest) ⟨argvs 0, 0, none, none⟩ with
    | .error e => .error e
    | .ok (s, behind) =>
      let s := { s with argv := Function.update s.argv s.argc none }
      match behind with
      | [] => .ok [s]
      | [_] => .error .nearPipe
      | _ :: behind => (parseStages left (fun i => argvs (i + 1)) behind).map (s :: ·)

def parsePipeline (argvs : Nat → Nat → Option Nat) (toks : List Token) : Except ParseError (List Stage) :=
  parseStages maxStages argvs toks

/-- `main` takes one `&` off the end of a line. -/
def stripAmp (toks : List Token) : List Token × Bool :=
  if toks.getLast?.map Token.type = some .amp then (toks.dropLast, true) else (toks, false)

/-! Search of `PATH` -/

def slashByte : BitVec 8 := 0x2F#8
def colonByte : BitVec 8 := 0x3A#8

/-- The string built in `candidate`; its terminator goes behind it, in the array or not. -/
def pathCandidate (dir cmd : List (BitVec 8)) : List (BitVec 8) :=
  let start := dir.take (maxPath - 1)
  let start := if start = [] ∨ start.getLast? ≠ some slashByte then start ++ [slashByte] else start
  start ++ cmd.take (maxPath - 1 - start.length)

/-- What `resolve_command` returns and stores in `out_path`, and the directories for which it
filled its two arrays. -/
structure Resolution where
  ret : Int
  outPath : Option (List (BitVec 8))
  tried : List (List (BitVec 8))
  deriving DecidableEq

/-- The loop over the entries of `PATH`. `isFile` is what `sys_stat` finds out. -/
def searchPath (isFile : List (BitVec 8) → Bool) (cmd : List (BitVec 8)) (outSize : Nat) :
    List (BitVec 8) → Resolution
  | [] => ⟨-1, none, []⟩
  | c :: path =>
    let dir := ((c :: path).takeWhile (· ≠ colonByte)).take (maxPath - 1)
    let behind := (c :: path).drop dir.length
    if isFile (pathCandidate dir cmd) then
      ⟨0, some (copyBounded outSize (pathCandidate dir cmd)), [dir]⟩
    else
      let r := searchPath isFile cmd outSize (if behind.head? = some colonByte then behind.tail else behind)
      { r with tried := dir :: r.tried }
termination_by path => path.length
decreasing_by
  by_cases colon : c = colonByte
  · simp [colon]
  · have kept : ((c :: path).takeWhile (· ≠ colonByte)).take (maxPath - 1) ≠ [] := by simp [colon, maxPath]
    have some := List.length_pos_of_ne_nil kept
    split
    · simp at some ⊢
    · simp at some ⊢
      omega

def resolveCommand (env : List EnvVar) (isFile : List (BitVec 8) → Bool) (cmd : List (BitVec 8)) (outSize : Nat) :
    Resolution :=
  if slashByte ∈ cmd then ⟨0, some (copyBounded outSize cmd), []⟩
  else searchPath isFile cmd outSize ((envGet env pathName).getD defaultPath)

end Isunux
