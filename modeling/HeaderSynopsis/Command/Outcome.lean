import HeaderSynopsis.Command.Line
import HeaderSynopsis.Json.Printer
import HeaderSynopsis.Manifest.Rendering
import HeaderSynopsis.Report.Outline
import HeaderSynopsis.Report.Summary

namespace HeaderSynopsis.Command

open Declaration Manifest Report

structure Outcome where
  code : Nat := 0
  -- The text for the standard output.
  output : String := ""
  -- The text for the standard error.
  messages : String := ""
  -- A file to be written, by its path and its text.
  saved : Option (String × String) := none
deriving DecidableEq, Repr

namespace Outcome

/-- A failure. Further lines of its text are indented, so that none looks like a message of its
own. -/
def failure (code : Nat) (text : String) : Outcome :=
  { code, messages := "error: " ++ text.replace "\n" "\n  " ++ "\n" }

def ofProblem (problem : Problem) : Outcome :=
  failure 1 (problem.message ++ (problem.help?.map ("\nhelp: " ++ ·)).getD "")

def unwritable (path : String) : Outcome := failure 1 ("failed to write " ++ path)

end Outcome

def versionText : String := "synops 0.3.0\n"

def usageText : String :=
  "usage: synops render [-f FORMAT] [--indent INDENT] [--exclude ID] [--declaration ID]\n" ++
  "                     [--exclude-kind KIND] [-o PATH] [MANIFEST]\n" ++
  "       synops check [--strict] [MANIFEST]\n" ++
  "       synops tree [--json] [MANIFEST]\n"

def Stop.outcome : Stop → Outcome
  | .help => { output := usageText }
  | .version => { output := versionText }
  | .refused error => Outcome.failure 2 error.message

def Invocation.apply (manifest : Loaded) : Invocation → Outcome
  | .render _ changes target =>
      match manifest.render (manifest.options.merge changes), target with
      | .error text, _ => Outcome.failure 1 text
      | .ok text, none => { output := text }
      | .ok text, some target => { saved := some (target, text) }
  | .check path strict =>
      let lines := (Summary.ofManifest path manifest).lines
      { code := if strict && !manifest.warnings.isEmpty then 1 else 0
        output := outputText lines
        messages := messageText lines }
  | .tree _ json =>
      if json then { output := Json.pretty 0 manifest.file.encode ++ "\n" }
      else
        let lines := (Outline.ofManifest manifest).lines
        { output := outputText lines, messages := messageText lines }

def Invocation.run (command : Invocation) (content : Option ByteArray) : Outcome :=
  match Loaded.ofFile command.path content with
  | .error problem => .ofProblem problem
  | .ok (manifest, _) => command.apply manifest

end HeaderSynopsis.Command
