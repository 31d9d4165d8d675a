/-!
# Arguments

The command line names a command with its options. The settings file and the log format may be
given before the command and behind it, where the one behind it counts. Arguments are taken from
left to right; the first that does not fit, or that asks for help or for the version, ends the
reading.
-/

namespace Reckoner.CommandLine

inductive Command where
  | serve
  /-- Evaluates texts, at no cost if `free`. -/
  | evaluate (texts : List String) (free : Bool)
  | checkConfig
  deriving DecidableEq, Repr

structure Invocation where
  config : Option String
  command : Command
  deriving DecidableEq, Repr

inductive Topic where
  | program
  | serve
  | evaluate
  | checkConfig
  | help
  deriving DecidableEq, Repr

/-- Why the arguments are no invocation. -/
inductive Halt where
  | usage
  | help (topic : Topic)
  | version
  deriving DecidableEq, Repr

/-! ### Arguments -/

inductive Argument where
  /-- All that follow are plain. -/
  | escape
  | long (name : String) (value : Option String)
  | short (letters : List Char)
  | plain (text : String)
  deriving DecidableEq, Repr

def Argument.ofText (text : String) : Argument :=
  match text.toList with
  | ['-', '-'] => .escape
  | '-' :: '-' :: cs =>
    let name := cs.takeWhile (· ≠ '=')
    let value := match cs.drop name.length with
      | _ :: value => some (String.ofList value)
      | [] => none
    .long (String.ofList name) value
  | '-' :: c :: cs => .short (c :: cs)
  | _ => .plain text

inductive Valued where
  | config
  | logFormat
  deriving DecidableEq, Repr

/-- The options given in one place, before the command or behind it. -/
structure Options where
  config : Option String
  hasFormat : Bool
  /-- An option whose value is an argument of its own, which may not have come yet. -/
  pending : Option (Valued × Option String)
  deriving DecidableEq, Repr

namespace Options

def empty : Options :=
  ⟨none, false, none⟩

/-- No option is given twice in one place, and no path is empty. -/
def set (o : Options) (option : Valued) (value : String) : Except Halt Options :=
  match option with
  | .config =>
    if o.config.isSome || value.isEmpty then .error .usage
    else .ok { o with config := some value }
  | .logFormat =>
    if o.hasFormat || (value ≠ "json" && value ≠ "pretty") then .error .usage
    else .ok { o with hasFormat := true }

/-- The value of a pending option is looked at when something else comes. -/
def settle (o : Options) : Except Halt Options :=
  match o.pending with
  | none => .ok o
  | some (_, none) => .error .usage
  | some (option, some value) => { o with pending := none }.set option value

end Options

/-! ### Taking arguments -/

structure Draft where
  topic : Topic
  /-- The options before the command, and those at the place reached. -/
  outer : Options
  own : Options
  texts : List String
  free : Bool
  escaped : Bool
  deriving DecidableEq, Repr

namespace Draft

def start : Draft :=
  ⟨.program, .empty, .empty, [], false, false⟩

def settle (d : Draft) : Except Halt Draft :=
  d.own.settle.map fun own => { d with own }

def set (d : Draft) (option : Valued) (value : String) : Except Halt Draft :=
  (d.own.set option value).map fun own => { d with own }

def await (d : Draft) (option : Valued) : Draft :=
  { d with own := { d.own with pending := some (option, none) } }

def commandNamed? : String → Option Topic
  | "serve" => some .serve
  | "eval" => some .evaluate
  | "check-config" => some .checkConfig
  | "help" => some .help
  | _ => none

def takePlain (d : Draft) (text : String) : Except Halt Draft :=
  match d.topic, d.escaped with
  | .program, false =>
    match commandNamed? text with
    | some topic => .ok { d with topic, outer := d.own, own := .empty }
    | none => .error .usage
  | .evaluate, _ => d.settle.map fun d => { d with texts := d.texts ++ [text] }
  | _, _ => .error .usage

/-- Help is asked about one command at most. -/
def takeTopic (d : Draft) (text : String) : Except Halt Draft :=
  if d.texts.isEmpty && (commandNamed? text).isSome then .ok { d with texts := [text] }
  else .error .usage

def takeLong (d : Draft) : String → Option String → Except Halt Draft
  | "config", some value => d.set .config value
  | "config", none => .ok (d.await .config)
  | "log-format", some value => d.set .logFormat value
  | "log-format", none => .ok (d.await .logFormat)
  | "help", none => .error (.help d.topic)
  | "version", none => .error (if d.topic = .program then .version else .usage)
  | "no-delay", none =>
    if d.topic = .evaluate && !d.free then .ok { d with free := true } else .error .usage
  | _, _ => .error .usage

/-- Only the first letter counts: it is the last one too, or the others are its value. -/
def takeShort (d : Draft) : List Char → Except Halt Draft
  | 'h' :: _ => .error (.help d.topic)
  | 'V' :: _ => .error (if d.topic = .program then .version else .usage)
  | ['c'] => .ok (d.await .config)
  | 'c' :: '=' :: value => d.set .config (String.ofList value)
  | 'c' :: value => d.set .config (String.ofList value)
  | _ => .error .usage

def take (d : Draft) (text : String) : Except Halt Draft :=
  if d.topic = .help then d.takeTopic text
  else if d.escaped then d.takePlain text
  else match Argument.ofText text, d.own.pending with
    | .plain value, some (option, none) =>
      .ok { d with own := { d.own with pending := some (option, some value) } }
    | .plain text, _ => d.takePlain text
    | .escape, _ => .ok { d with escaped := true }
    | .long name value, _ => d.settle.bind fun d => d.takeLong name value
    | .short letters, _ => d.settle.bind fun d => d.takeShort letters

/-- The settings file asked for; an option behind the command counts before one in front of it. -/
def config (d : Draft) : Except Halt (Option String) := do
  let own ← d.own.settle
  let outer ← d.outer.settle
  return own.config <|> outer.config

def finish (d : Draft) : Except Halt Invocation :=
  match d.topic with
  | .program | .serve => d.config.map (⟨·, .serve⟩)
  | .checkConfig => d.config.map (⟨·, .checkConfig⟩)
  | .evaluate =>
    if d.texts.isEmpty then .error .usage else d.config.map (⟨·, .evaluate d.texts d.free⟩)
  | .help => .error (.help ((d.texts.head?.bind commandNamed?).getD .program))

end Draft

def Invocation.ofArguments (arguments : List String) : Except Halt Invocation := do
  (← arguments.foldlM Draft.take .start).finish

end Reckoner.CommandLine
