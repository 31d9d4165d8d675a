import Reckoner.CommandLine.Basic

/-!
# Help

What the program prints about itself.
-/

namespace Reckoner.CommandLine

def versionText : String :=
  "abacus 0.1.0\n"

def Topic.summary : Topic → String
  | .program =>
    "Evaluates arithmetic expressions on a pool of workers with simulated operator costs"
  | .serve => "Start the HTTP server (default)"
  | .evaluate => "Evaluate expressions through the worker pool and print the results"
  | .checkConfig => "Validate and print the effective configuration"
  | .help => "Print this message or the help of the given subcommand(s)"

def Topic.usage : Topic → String
  | .program => "abacus [OPTIONS] [COMMAND]"
  | .serve => "abacus serve [OPTIONS]"
  | .evaluate => "abacus eval [OPTIONS] <EXPRESSIONS>..."
  | .checkConfig => "abacus check-config [OPTIONS]"
  | .help => "abacus help [COMMAND]..."

def commandLines : List String :=
  let line (name : String) (topic : Topic) := "  " ++ name ++ topic.summary
  ["", "Commands:", line "serve         " .serve, line "eval          " .evaluate,
    line "check-config  " .checkConfig, line "help          " .help]

def argumentLines : Topic → List String
  | .program => commandLines
  | .evaluate => ["", "Arguments:", "  <EXPRESSIONS>...  "]
  | _ => []

def optionLines : Topic → List String
  | .help => []
  | topic =>
    ["", "Options:"]
      ++ (if topic = .evaluate then
          ["      --no-delay                 Ignore configured operator costs"] else [])
      ++ ["  -c, --config <CONFIG>          Configuration file "
          ++ "(defaults to $ABACUS_CONFIG_PATH or abacus.toml)",
        "      --log-format <LOG_FORMAT>  Log output format "
          ++ "[default: pretty] [possible values: json, pretty]",
        "  -h, --help                     Print help"]
      ++ (if topic = .program then ["  -V, --version                  Print version"] else [])

def Topic.text (topic : Topic) : String :=
  let lines := [topic.summary, "", "Usage: " ++ topic.usage] ++ argumentLines topic
    ++ optionLines topic
  String.join (lines.map (· ++ "\n"))

end Reckoner.CommandLine
