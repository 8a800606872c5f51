import HeaderSynopsis.Command.Outcome

/-!
Trees of files held in memory, and command lines run in them.
-/

namespace HeaderSynopsis.Command

abbrev Route := List String

/-- Files and folders, seen from one of the folders. The root is a folder that needs no mention. -/
structure FileTree where
  files : List (Route × ByteArray)
  folders : List Route
  current : Route

inductive Device where
  | null
  | output
  | messages
deriving DecidableEq, Repr

namespace Device

def routes : List (Route × Device) :=
  [(["dev", "null"], .null), (["dev", "stdout"], .output), (["dev", "stderr"], .messages)]

def receive (device : Device) (text : String) (outcome : Outcome) : Outcome :=
  match device with
  | .null => outcome
  | .output => { outcome with output := outcome.output ++ text }
  | .messages => { outcome with messages := outcome.messages ++ text }

end Device

namespace FileTree

/-- A tree with the usual folders, seen from an empty one. There is nothing to read in the null
device. -/
def bare : FileTree where
  files := [(["dev", "null"], .empty)]
  folders :=
    [["bin"], ["dev"], ["etc"], ["home"], ["lib"], ["opt"], ["proc"], ["root"], ["run"], ["sbin"],
      ["sys"], ["tmp"], ["tmp", "here"], ["usr"], ["var"]]
  current := ["tmp", "here"]

def file? (t : FileTree) (route : Route) : Option ByteArray := t.files.lookup route

def hasFolder (t : FileTree) (route : Route) : Bool := route.isEmpty || t.folders.contains route

def nameLimit : Nat := 255

def pathLimit : Nat := 4095

/-- Where one part of a path leads. Nothing is above the root, so the way up from there ends where
it began. -/
def step (route : Route) (part : String) : Route :=
  if part = "" || part = "." then route
  else if part = ".." then route.dropLast
  else route ++ [part]

/-- An empty part of a path leads nowhere else. -/
@[simp]
theorem step_empty (route : Route) : step route "" = route := by simp [step]

/-- A single dot leads nowhere else. -/
@[simp]
theorem step_dot (route : Route) : step route "." = route := by simp [step]

/-- Where the parts of a path lead from the end of a route. A part is looked up in a folder, so
each but the last has to lead to one. -/
def follow (t : FileTree) (route : Route) : List String → Option Route
  | [] => some route
  | part :: rest =>
      if t.hasFolder route && part.utf8ByteSize ≤ nameLimit then t.follow (step route part) rest
      else none

def start (t : FileTree) (path : String) : Route := if path.startsWith "/" then [] else t.current

def route? (t : FileTree) (path : String) : Option Route :=
  if path = "" || path.utf8ByteSize > pathLimit then none
  else t.follow (t.start path) (path.splitOn "/")

def read? (t : FileTree) (path : String) : Option ByteArray := (t.route? path).bind t.file?

def put (t : FileTree) (route : Route) (content : ByteArray) : FileTree :=
  { t with files := (route, content) :: t.files.filter (·.1 ≠ route) }

/-- A file holds what was put there last. -/
@[simp]
theorem file?_put_self (t : FileTree) (route : Route) (content : ByteArray) :
    (t.put route content).file? route = some content := by
  simp [put, file?]

/-- Writes the file of an outcome in place of an earlier one. A folder cannot be written. -/
def save (t : FileTree) (outcome : Outcome) : Outcome × FileTree :=
  match outcome.saved with
  | none => (outcome, t)
  | some (path, text) =>
      match t.route? path with
      | none => (.unwritable path, t)
      | some route =>
          match Device.routes.lookup route with
          | some device => (device.receive text outcome, t)
          | none =>
              if t.hasFolder route then (.unwritable path, t)
              else (outcome, t.put route text.toUTF8)

def run (t : FileTree) (arguments : List String) : Outcome × FileTree :=
  match Invocation.ofArguments arguments with
  | .error stop => (stop.outcome, t)
  | .ok command => t.save (command.run (t.read? command.path))

def addFolder (t : FileTree) (route : Route) : FileTree :=
  if t.hasFolder route then t else { t with folders := route :: t.folders }

def add (content : ByteArray) (route : Route) : List String → FileTree → FileTree
  | [], t => t
  | [name], t =>
      if t.hasFolder (step route name) then t else t.put (step route name) content
  | part :: rest, t => add content (step route part) rest (t.addFolder (step route part))

def ofFiles (files : List (String × ByteArray)) : FileTree :=
  files.foldl (fun t (path, content) => t.add content (t.start path) (path.splitOn "/")) bare

end FileTree

end HeaderSynopsis.Command
