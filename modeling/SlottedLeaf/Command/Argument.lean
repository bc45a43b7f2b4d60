/-!
# Arguments of a command line

Arguments are read from left to right at one level of a command line. A level knows the options that
take a value, what to do with them and with other words, and the word that leads to the next level.
Reading stops at the first argument that asks for help or for the version, or that does not fit.
-/

namespace SlottedLeaf.Command

/-- One argument by its shape. -/
inductive Argument where
  /-- Two dashes alone, after which every argument is a word. -/
  | wordsOnly
  /-- A name after two dashes, with the value after an equals sign. -/
  | long (name : String) (value : Option String)
  /-- A letter after one dash; any further letters do not matter. -/
  | short (letter : Char)
  | word (text : String)
deriving DecidableEq, Repr

def Argument.ofString (text : String) : Argument :=
  match text.toList with
  | ['-', '-'] => .wordsOnly
  | '-' :: '-' :: rest =>
    let value := match rest.dropWhile (· ≠ '=') with
      | [] => none
      | _ :: value => some (String.ofList value)
    .long (String.ofList (rest.takeWhile (· ≠ '='))) value
  | '-' :: letter :: _ => .short letter
  | _ => .word text

/-- A reason to stop reading arguments. -/
inductive Stop where
  /-- The arguments make no command. -/
  | misuse
  | help
  | version
deriving DecidableEq, Repr

/-- The grammar of one level, for what is read into a `σ`. -/
structure Level (σ : Type) where
  /-- Options that take a value. -/
  options : List String
  /-- Takes in an option with its value, unless it is given twice or the value does not fit. -/
  setOption : String → String → σ → Option σ
  /-- Takes in a word, unless there is no place for it. -/
  setWord : String → σ → Option σ
  /-- Whether the level tells the version. -/
  tellsVersion : Bool
  /-- The word that leads to the next level. -/
  next : Option String

namespace Level

variable {σ : Type}

/-- What a name after two dashes asks for when it takes no value. -/
def stopOfLong (level : Level σ) (name : String) : Stop :=
  if name = "help" then .help
  else if name = "version" ∧ level.tellsVersion then .version
  else .misuse

def stopOfShort (level : Level σ) (letter : Char) : Stop :=
  if letter = 'h' then .help
  else if letter = 'V' ∧ level.tellsVersion then .version
  else .misuse

def accepted : Option σ → Except Stop σ
  | some state => .ok state
  | none => .error .misuse

/-- Reads the arguments of a level, and gives those after the word that leads to the next. -/
def read (level : Level σ) (state : σ) : List String → Except Stop (σ × Option (List String))
  | [] => .ok (state, none)
  | argument :: rest =>
    match Argument.ofString argument with
    | .wordsOnly => do
      return (← accepted (rest.foldlM (fun state word => level.setWord word state) state), none)
    | .word text =>
      if level.next = some text then .ok (state, some rest)
      else do
        level.read (← accepted (level.setWord text state)) rest
    | .short letter => .error (level.stopOfShort letter)
    | .long name attached =>
      if !level.options.contains name then
        .error (if attached.isSome then .misuse else level.stopOfLong name)
      else
        match attached, rest with
        | some value, rest => do
          level.read (← accepted (level.setOption name value state)) rest
        | none, value :: rest =>
          match Argument.ofString value with
          | .word _ => do
            level.read (← accepted (level.setOption name value state)) rest
          | _ => .error .misuse
        | none, [] => .error .misuse

end Level

end SlottedLeaf.Command
