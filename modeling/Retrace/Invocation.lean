import Retrace.Commands

/-! The words of a command line, and what they ask for. Words are read from the first to the last, and
the first one that is wrong or asks for a text to be shown decides. -/
namespace Retrace

/-- What may be given by a dash and a letter or by two dashes and a name. -/
inductive Argument
  | help
  | version
  | verbose
  | trace
  | output
  | config
  | index
deriving DecidableEq

/-- What the program can be told to do. -/
inductive Task
  | inspect
  | validate
  | step
  | version
deriving DecidableEq

namespace Argument

def name : Argument → String
  | help => "help"
  | version => "version"
  | verbose => "verbose"
  | trace => "trace"
  | output => "output"
  | config => "config"
  | index => "index"

def letter : Argument → Char
  | help => 'h'
  | version => 'V'
  | verbose => 'v'
  | trace => 't'
  | output => 'o'
  | config => 'c'
  | index => 'i'

def takesValue : Argument → Bool
  | help | version | verbose => false
  | trace | output | config | index => true

/-- Whether the value may look like an argument. -/
def takesDashes (a : Argument) : Bool := a = index

end Argument

namespace Task

def all : List Task := [inspect, validate, step, version]

def name : Task → String
  | inspect => "inspect"
  | validate => "validate"
  | step => "step"
  | version => "version"

def ofName? (name : String) : Option Task := all.find? (·.name = name)

def arguments : Task → List Argument
  | inspect => [.help, .verbose, .trace, .output, .config]
  | validate => [.help, .verbose, .trace, .config]
  | step => [.help, .verbose, .trace, .index, .config]
  | version => [.help, .verbose]

def commonArguments : List Argument := [.help, .version, .verbose]

end Task

/-- What is wrong with a command line. -/
inductive UsageError
  | noTask
  | unknown (word : String)
  | repeated (argument : Argument)
  | missing (argument : Argument)
  | noValue (argument : Argument)
  | unwantedValue (argument : Argument)
  | wrongValue (argument : Argument) (value : String)
deriving DecidableEq

def UsageError.message : UsageError → String
  | noTask => "a task is required"
  | unknown word => "unexpected argument " ++ word
  | repeated a => "--" ++ a.name ++ " is given more than once"
  | missing a => "--" ++ a.name ++ " is required"
  | noValue a => "--" ++ a.name ++ " requires a value"
  | unwantedValue a => "--" ++ a.name ++ " takes no value"
  | wrongValue a value => "invalid value " ++ value ++ " for --" ++ a.name

/-- What a command line asks for. -/
inductive Invocation
  | help
  | programVersion
  | inspect (inputs : Inputs) (output : String)
  | validate (inputs : Inputs)
  | step (inputs : Inputs) (index : Int64)
  | version
deriving DecidableEq

/-! ### Words -/

inductive Word
  | plain (text : String)
  /-- Letters after a dash. -/
  | letters (cs : List Char)
  /-- A name after two dashes, with what an equals sign binds to it. -/
  | long (name : String) (value : Option String)
  /-- Two dashes: no arguments follow. -/
  | endOfArguments
deriving DecidableEq

def Word.ofString (s : String) : Word :=
  match s.toList with
  | ['-', '-'] => .endOfArguments
  | '-' :: '-' :: cs =>
    let name := String.ofList (cs.takeWhile (· ≠ '='))
    match cs.dropWhile (· ≠ '=') with
    | [] => .long name none
    | _ :: value => .long name (String.ofList value)
  | '-' :: c :: cs => .letters (c :: cs)
  | _ => .plain s

/-- A whole number with or without a sign, of 64 bits. -/
def readIndex? (s : String) : Option Int64 :=
  let (negative, digits) := match s.toList with
    | '-' :: cs => (true, cs)
    | '+' :: cs => (false, cs)
    | cs => (false, cs)
  if digits = [] ∨ digits.any (!·.isDigit) then none
  else
    let n : Int := Json.digitsValue digits
    let n := if negative then -n else n
    if Int64.minValue.toInt ≤ n ∧ n ≤ Int64.maxValue.toInt then some (Int64.ofInt n) else none

/-! ### Arguments -/

abbrev Given := List (Argument × String)

/-- Whether a value will do. Paths are never empty. -/
def Argument.accepts (a : Argument) (value : String) : Bool :=
  match a with
  | index => (readIndex? value).isSome
  | trace | output | config => value ≠ ""
  | help | version | verbose => true

/-- Adds an argument, which has to be new. -/
def Given.add (given : Given) (a : Argument) (value : String) : Except UsageError Given :=
  if (given.lookup a).isSome then .error (.repeated a)
  else if a.accepts value then .ok ((a, value) :: given)
  else .error (.wrongValue a value)

/-- How far a word or more have been read. -/
inductive Progress
  | done (given : Given)
  /-- The next word is the value of an argument. -/
  | wants (argument : Argument) (given : Given)
  /-- A text is to be shown, and nothing else matters. -/
  | shown (text : Invocation)

/-- Reads letters after a dash: those that take no value may be followed by more, and one that does
takes all that follows. -/
def readLetters (allowed : List Argument) (given : Given) : List Char → Except UsageError Progress
  | [] => .ok (.done given)
  | c :: cs =>
    match allowed.find? (·.letter = c) with
    | none => .error (.unknown (String.ofList ['-', c]))
    | some .help => .ok (.shown .help)
    | some .version => .ok (.shown .programVersion)
    | some a =>
      if a.takesValue then
        match cs with
        | [] => .ok (.wants a given)
        | '=' :: value => do return .done (← given.add a (String.ofList value))
        | value => do return .done (← given.add a (String.ofList value))
      else do readLetters allowed (← given.add a "") cs

def readLong (allowed : List Argument) (given : Given) (name : String) (value : Option String) :
    Except UsageError Progress :=
  match allowed.find? (·.name = name), value with
  | none, _ => .error (.unknown ("--" ++ name))
  | some a, some value =>
    if a.takesValue then do return .done (← given.add a value) else .error (.unwantedValue a)
  | some .help, none => .ok (.shown .help)
  | some .version, none => .ok (.shown .programVersion)
  | some a, none =>
    if a.takesValue then .ok (.wants a given) else do return .done (← given.add a "")

/-- Where the reading of arguments ends. -/
inductive Reached
  | ending (given : Given)
  /-- A word that is no argument, and those after it. -/
  | word (text : String) (rest : List String)
  | shown (text : Invocation)

/-- The value of an argument, if the word next to it can be one. -/
def valueOf (a : Argument) (word : String) : Except UsageError String :=
  match Word.ofString word with
  | .plain value => .ok value
  | _ => if a.takesDashes then .ok word else .error (.noValue a)

def readArguments (allowed : List Argument) (given : Given) :
    List String → Except UsageError Reached
  | [] => .ok (.ending given)
  | word :: rest => do
    let progress ← match Word.ofString word with
      | .plain _ => return .word word rest
      | .endOfArguments =>
        match rest with
        | [] => return .ending given
        | extra :: _ => throw (.unknown extra)
      | .letters cs => readLetters allowed given cs
      | .long name value => readLong allowed given name value
    match progress with
    | .shown text => return .shown text
    | .done given => readArguments allowed given rest
    | .wants a given =>
      match rest with
      | [] => throw (.noValue a)
      | next :: rest => readArguments allowed (← given.add a (← valueOf a next)) rest

namespace Invocation

def defaultOutput : String := "trace.canonical.json"

def required (given : Given) (a : Argument) : Except UsageError String :=
  match given.lookup a with
  | some value => .ok value
  | none => .error (.missing a)

/-- The files to read. `config` is what the environment names. -/
def inputs (config : Option String) (given : Given) : Except UsageError Inputs := do
  let config := (given.lookup .config).or config
  if config = some "" then throw (.wrongValue .config "")
  return ⟨← required given .trace, config⟩

def ofTask (config : Option String) (given : Given) : Task → Except UsageError Invocation
  | .inspect => do
    return inspect (← inputs config given) ((given.lookup .output).getD defaultOutput)
  | .validate => return validate (← inputs config given)
  | .step => do
    return step (← inputs config given) (((given.lookup .index).bind readIndex?).getD 0)
  | .version => return version

def readTask (config : Option String) (task : Task) (words : List String) :
    Except UsageError Invocation := do
  match ← readArguments task.arguments [] words with
  | .shown text => return text
  | .word text _ => throw (.unknown text)
  | .ending given => ofTask config given task

/-- Reads the names after a request for help: none, or one of what there is help for. -/
def readHelp : List String → Except UsageError Invocation
  | [] => .ok help
  | [topic] =>
    if topic = "help" ∨ (Task.ofName? topic).isSome then .ok help else .error (.unknown topic)
  | _ :: extra :: _ => .error (.unknown extra)

/-- What the words of a command line ask for. `config` is what the environment names. -/
def ofWords (config : Option String) (words : List String) : Except UsageError Invocation := do
  match ← readArguments Task.commonArguments [] words with
  | .shown text => return text
  | .ending _ => throw .noTask
  | .word name rest =>
    if name = "help" then readHelp rest
    else match Task.ofName? name with
      | some task => readTask config task rest
      | none => throw (.unknown name)

end Invocation
end Retrace
