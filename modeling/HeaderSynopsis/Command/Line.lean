import HeaderSynopsis.Command.Options
import HeaderSynopsis.Manifest.Options

namespace HeaderSynopsis.Command

open Declaration Manifest Output

inductive UsageError where
  | noCommand
  | unknownCommand (word : String)
  | unknownOption (argument : String)
  | unexpectedArgument (argument : String)
  | missingValue
  | unexpectedValue (argument : String)
  | repeated (argument : String)
  | badValue (reason : String)
deriving DecidableEq, Repr

def UsageError.message : UsageError → String
  | noCommand => "a command is required"
  | unknownCommand word => "unknown command '" ++ word ++ "'"
  | unknownOption argument => "unknown option '" ++ argument ++ "'"
  | unexpectedArgument argument => "unexpected argument '" ++ argument ++ "'"
  | missingValue => "a value is required"
  | unexpectedValue argument => "unexpected value in '" ++ argument ++ "'"
  | repeated argument => "'" ++ argument ++ "' can be used only once"
  | badValue reason => reason

inductive Stop where
  | help
  | version
  | refused (error : UsageError)
deriving DecidableEq, Repr

structure Draft where
  verb : Option Verb := none
  path : Option String := none
  changes : Overrides := {}
  target : Option String := none
  strict : Bool := false
  json : Bool := false

def standardPath : String := "synops.toml"

namespace Draft

/-- Sets a flag. Only messages can be asked for more than once. -/
def raise (argument : String) (d : Draft) : Flag → Except Stop Draft
  | .help => .error .help
  | .version => .error .version
  | .verbose => .ok d
  | .strict =>
      if d.strict then .error (.refused (.repeated argument)) else .ok { d with strict := true }
  | .json =>
      if d.json then .error (.refused (.repeated argument)) else .ok { d with json := true }

def has (d : Draft) : Setting → Bool
  | .format => d.changes.format.isSome
  | .indentation => d.changes.indentation.isSome
  | .target => d.target.isSome
  | .omitted | .declaration | .omittedKind => false

def meaning {α : Type} (value : Option α) (reason : String) : Except Stop α :=
  match value with
  | some a => .ok a
  | none => .error (.refused (.badValue reason))

def set (d : Draft) (setting : Setting) (value : String) : Except Stop Draft :=
  let changes := d.changes
  if d.has setting then .error (.refused (.repeated value))
  else
    match setting with
    | .format => do
        let format ← meaning (Format.parse? value) (Format.refusal value)
        return { d with changes := { changes with format := some format } }
    | .indentation => do
        let indentation ← meaning (Indentation.parse? value) (Indentation.refusal value)
        return { d with changes := { changes with indentation := some indentation } }
    | .omitted => .ok { d with changes := { changes with omitted := changes.omitted ++ [⟨value⟩] } }
    | .declaration =>
        .ok { d with changes := { changes with declarations := changes.declarations ++ [⟨value⟩] } }
    | .omittedKind =>
        .ok { d with changes := { changes with omittedKinds := changes.omittedKinds ++ [value] } }
    | .target =>
        if value = "" then .error (.refused .missingValue) else .ok { d with target := some value }

def setPath (d : Draft) (argument : String) : Except Stop Draft :=
  if d.verb.isNone || d.path.isSome then .error (.refused (.unexpectedArgument argument))
  else if argument = "" then .error (.refused .missingValue)
  else .ok { d with path := some argument }

/-- Takes an argument that is no option: the command first, then the path. -/
def place (d : Draft) (argument : String) : Except Stop Draft :=
  match d.verb with
  | some _ => d.setPath argument
  | none =>
      match Verb.words.lookup argument with
      | some verb => .ok { d with verb := some verb }
      | none => .error (.refused (.unknownCommand argument))

/-- Takes letters behind a single dash. The first of an option with a value ends them: what is left,
after an equals sign at most, is its value. The setting returned has none yet. -/
def takeLetters (argument : String) : List Char → Draft → Except Stop (Draft × Option Setting)
  | [], d => .ok (d, none)
  | letter :: rest, d =>
      match optionWithLetter? d.verb letter, rest with
      | none, _ => .error (.refused (.unknownOption argument))
      | some (.flag flag), _ => do
          let d ← d.raise argument flag
          takeLetters argument rest d
      | some (.setting setting), [] => .ok (d, some setting)
      | some (.setting setting), '=' :: value =>
          (d.set setting (String.ofList value)).map (·, none)
      | some (.setting setting), value => (d.set setting (String.ofList value)).map (·, none)

/-- Takes a word behind two dashes, with a value if an equals sign follows. The setting returned has
none yet. -/
def takeWord (argument word : String) (value : Option String) (d : Draft) :
    Except Stop (Draft × Option Setting) :=
  match optionWithWord? d.verb word, value with
  | none, _ => .error (.refused (.unknownOption argument))
  | some (.flag _), some _ => .error (.refused (.unexpectedValue argument))
  | some (.flag flag), none => (d.raise argument flag).map (·, none)
  | some (.setting setting), some value => (d.set setting value).map (·, none)
  | some (.setting setting), none => .ok (d, some setting)

/-- Takes one argument. A single dash alone is no option. -/
def take (d : Draft) (argument : String) : Except Stop (Draft × Option Setting) :=
  match argument.toList with
  | '-' :: '-' :: cs =>
      let value :=
        match cs.dropWhile (· ≠ '=') with
        | [] => none
        | _ :: value => some (String.ofList value)
      d.takeWord argument (String.ofList (cs.takeWhile (· ≠ '='))) value
  | '-' :: letter :: cs => takeLetters argument (letter :: cs) d
  | _ => (d.place argument).map (·, none)

end Draft

def looksLikeOption (argument : String) : Bool :=
  match argument.toList with
  | '-' :: _ :: _ => true
  | _ => false

def helpStop : List String → Stop
  | [] => .help
  | [word] =>
      if word = "help" || (Verb.words.lookup word).isSome then .help
      else .refused (.unknownCommand word)
  | _ :: word :: _ => .refused (.unknownCommand word)

/-- Takes all arguments, `awaiting` being an option that has no value yet. Behind two dashes alone
nothing is an option. -/
def readArguments (d : Draft) (awaiting : Option Setting) : List String → Except Stop Draft
  | [] => if awaiting.isSome then .error (.refused .missingValue) else .ok d
  | argument :: rest =>
      match awaiting with
      | some setting =>
          if looksLikeOption argument then .error (.refused .missingValue)
          else do
            let d ← d.set setting argument
            readArguments d none rest
      | none =>
          if argument = "--" then rest.foldlM Draft.setPath d
          else if d.verb.isNone && argument = "help" then .error (helpStop rest)
          else do
            let (d, awaiting) ← d.take argument
            readArguments d awaiting rest

inductive Invocation where
  | render (path : String) (changes : Overrides) (target : Option String)
  | check (path : String) (strict : Bool)
  | tree (path : String) (json : Bool)

def Invocation.ofArguments (arguments : List String) : Except Stop Invocation := do
  let d ← readArguments {} none arguments
  let path := d.path.getD standardPath
  match d.verb with
  | none => .error (.refused .noCommand)
  | some .render => return .render path d.changes d.target
  | some .check => return .check path d.strict
  | some .tree => return .tree path d.json

def Invocation.path : Invocation → String
  | .render path _ _ | .check path _ | .tree path _ => path

end HeaderSynopsis.Command
