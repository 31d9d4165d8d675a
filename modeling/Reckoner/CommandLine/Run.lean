import Reckoner.Api.App
import Reckoner.CommandLine.Help
import Reckoner.Settings.Document

/-!
# Running the program

What the program prints for its arguments, its environment and the files that it reads. The records
of its log, which go to the same stream as the lines, are left out. A server that comes as far as to
its address fails there: nothing here listens.
-/

namespace Reckoner.CommandLine

structure Outcome where
  code : Nat
  output : String
  complaint : String
  deriving DecidableEq, Repr

namespace Outcome

def done (output : String) : Outcome :=
  ⟨0, output, ""⟩

/-- Ends with a complaint behind what was already printed. -/
def failed (message : String) (output : String) : Outcome :=
  ⟨1, output, "Error: " ++ message ++ "\n"⟩

def ofHalt : Halt → Outcome
  | .usage => ⟨2, "", "error: unexpected arguments\n\nFor more information, try '--help'.\n"⟩
  | .help topic => done topic.text
  | .version => done versionText

end Outcome

def lineOf (c : Calculation) : String :=
  match c.result, c.errorMessage with
  | some x, _ => c.text ++ " = " ++ Decimal.Layout.plain.render x
  | none, some message => c.text ++ ": error: " ++ message
  | none, none => c.text ++ ": " ++ c.status.text

/-- Submits texts one after another up to the first refusal. -/
def submitAll (k : Collaborators) (s : Service) :
    List String → Except Error (List Calculation × Service)
  | [] => .ok ([], s)
  | text :: texts =>
    match s.call k none (.submit text) with
    | (some (.submitted c), s, _) => do
      let (cs, s) ← submitAll k s texts
      return (c :: cs, s)
    | (some (.refused e), _, _) => .error e
    | _ => .error .poolUnavailable

/-- The lines of texts, in their order, when all work is done. -/
def evaluateAll (k : Collaborators) (workers : Nat) (table : CostTable) (texts : List String) :
    Except Error (List String) := do
  let s ← Service.start workers table .empty
  let (submitted, s) ← submitAll k s texts
  let (_, s, _) := s.call k none .close
  return submitted.filterMap fun c => (c.id.bind s.store.find?).map lineOf

def evaluate (k : Collaborators) (settings : Settings) (texts : List String) (free : Bool) :
    Outcome :=
  let lines : Except Error (List String) := do
    let (workers, table) ← settings.serviceStart
    evaluateAll k workers (if free then .zero else table) texts
  match lines with
  | .ok lines => .done (String.join (lines.map (· ++ "\n")))
  | .error e => .failed e.message ""

def checkConfig (settings : Settings) (path : String) : Outcome :=
  match settings.validate with
  | .error e => .failed (path ++ ": " ++ e.message) ""
  | .ok () =>
    let title := "# effective configuration (" ++ path ++ ")\n"
    match settings.document? with
    | some document => .done (title ++ document)
    | none => .failed "out-of-range value for u64 type" title

/-- Where a server fails before it listens. -/
def serve [Monad m] (open? : String → m File) (settings : Settings) : m Outcome := do
  let store ← match settings.store.snapshotPath with
    | none => pure (.ok .empty)
    | some path => Store.restore path <$> open? path
  match store.bind (Api.App.start settings) with
  | .error e => return .failed e.message ""
  | .ok _ => return .failed ("Failed to bind " ++ settings.bindAddress) ""

def run [Monad m] (open? : String → m File) (k : Collaborators) (env : Settings.Environment)
    (arguments : List String) : m Outcome := do
  match Invocation.ofArguments arguments with
  | .error halt => return .ofHalt halt
  | .ok invocation =>
    let path := Settings.filePath invocation.config env
    match Settings.load path (← open? path) with
    | .error fault => return .failed fault.message ""
    | .ok settings =>
      let settings := settings.overriddenBy env
      match invocation.command with
      | .serve => serve open? settings
      | .evaluate texts free => return evaluate k settings texts free
      | .checkConfig => return checkConfig settings path

end Reckoner.CommandLine
