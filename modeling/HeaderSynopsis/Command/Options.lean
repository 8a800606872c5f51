namespace HeaderSynopsis.Command

inductive Verb where
  | render
  | check
  | tree
deriving DecidableEq, Repr

def Verb.words : List (String × Verb) := [("render", .render), ("check", .check), ("tree", .tree)]

inductive Flag where
  | help
  | version
  | verbose
  | strict
  | json
deriving DecidableEq, Repr

inductive Setting where
  | format
  | indentation
  | omitted
  | declaration
  | omittedKind
  | target
deriving DecidableEq, Repr

inductive OptionKind where
  | flag (flag : Flag)
  | setting (setting : Setting)
deriving DecidableEq, Repr

/-- How an option is written: its word behind two dashes, or its letter behind one. -/
structure OptionForm where
  word : String
  letter : Option Char
  kind : OptionKind
deriving DecidableEq, Repr

def commonOptions : List OptionForm :=
  [⟨"verbose", some 'v', .flag .verbose⟩, ⟨"help", some 'h', .flag .help⟩]

def optionForms : Option Verb → List OptionForm
  | none => commonOptions ++ [⟨"version", some 'V', .flag .version⟩]
  | some .render =>
      commonOptions ++
        [⟨"format", some 'f', .setting .format⟩, ⟨"indent", none, .setting .indentation⟩,
          ⟨"exclude", none, .setting .omitted⟩, ⟨"declaration", none, .setting .declaration⟩,
          ⟨"exclude-kind", none, .setting .omittedKind⟩, ⟨"output", some 'o', .setting .target⟩]
  | some .check => commonOptions ++ [⟨"strict", none, .flag .strict⟩]
  | some .tree => commonOptions ++ [⟨"json", none, .flag .json⟩]

def optionWithWord? (verb : Option Verb) (word : String) : Option OptionKind :=
  ((optionForms verb).find? (·.word = word)).map (·.kind)

def optionWithLetter? (verb : Option Verb) (letter : Char) : Option OptionKind :=
  ((optionForms verb).find? (·.letter = some letter)).map (·.kind)

end HeaderSynopsis.Command
