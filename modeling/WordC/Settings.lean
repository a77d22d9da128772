import WordC.CommandLine.Arguments
import WordC.Host.Directory
import WordC.Text.Blank
import WordC.Toml.Document

/-!
# Settings

Settings come from one file: the one that the command line names, else the one of the working
directory, else the user's own. What none sets has a default, and the command line wins over all.
-/

namespace WordC

open Text.Utf8 (Bytes)

structure Settings where
  /-- The size of the memory pool in words. -/
  poolSize : Nat := 262144
  trace : Bool := false
  /-- The number of instructions a run may take. -/
  maxCycles : Option Nat := none
  logLevel : String := "warn"
  /-- Where the prompt keeps its history. -/
  historyFile : Option String := none
deriving DecidableEq

namespace Settings

inductive Error where
  | unreadable (path : String) (error : FileError)
  | invalid (path : String)
deriving DecidableEq

/-- What went wrong, without its reason. -/
def Error.message : Error → String
  | unreadable path _ => "failed to read config file " ++ path
  | invalid path => "invalid config file " ++ path

/-- What went wrong and why. -/
def Error.details (error : Error) : String :=
  match error with
  | unreadable _ reason => error.message ++ ": " ++ reason.message
  | invalid _ => error.message

/-- The value of a key, or the default where the key is missing. A value of the wrong kind makes the
settings invalid. -/
def setting? (entries : Toml.Entries) (key : String) (convert : Toml.Value → Option α)
    (default : α) : Option α :=
  match entries.lookup key with
  | none => some default
  | some (.value value) => convert value
  | some _ => none

def count? : Toml.Value → Option Nat
  | .integer value => if 0 ≤ value then some value.toNat else none
  | _ => none

def boolean? : Toml.Value → Option Bool
  | .boolean value => some value
  | _ => none

def text? : Toml.Value → Option String
  | .text value => some value
  | _ => none

/-- The settings in the root table of a file. Other keys mean nothing. -/
def ofEntries? (entries : Toml.Entries) : Option Settings := do
  let defaults : Settings := {}
  return {
    poolSize := ← setting? entries "pool_size" count? defaults.poolSize
    trace := ← setting? entries "trace" boolean? defaults.trace
    maxCycles := ← setting? entries "max_cycles" (fun value => (count? value).map some) none
    logLevel := ← setting? entries "log_level" text? defaults.logLevel
    historyFile := ← setting? entries "history_file" (fun value => (text? value).map some) none }

def parse (path text : String) : Except Error Settings :=
  match (Toml.read? text).bind ofEntries? with
  | some settings => .ok settings
  | none => .error (.invalid path)

def ofFile (files : Directory) (path : String) : Except Error Settings :=
  match files.readText path with
  | .error error => .error (.unreadable path error)
  | .ok text => parse path text

/-- The settings file of the working directory. -/
def projectFile : String := Release.name ++ ".toml"

/-- The user's settings file, from the folder where a user's configuration lies. -/
def userFile : String := Release.name ++ "/config.toml"

/-- Loads the settings. `user` is the path and the contents of the user's own file, if it exists. -/
def load (explicit : Option String) (files : Directory) (user : Option (String × Bytes)) :
    Except Error Settings :=
  match explicit with
  | some path => ofFile files path
  | none =>
      if files.hasEntry projectFile then ofFile files projectFile
      else
        match user with
        | none => .ok {}
        | some (path, contents) =>
            match Text.Utf8.decode? contents with
            | some text => parse path text
            | none => .error (.unreadable path .notText)

/-- Lets the command line win. -/
def apply (settings : Settings) (arguments : Arguments) : Settings :=
  { settings with
    poolSize := arguments.poolSize.getD settings.poolSize
    trace := settings.trace || arguments.trace
    maxCycles := arguments.maxCycles <|> settings.maxCycles
    logLevel :=
      match arguments.verbose with
      | 0 => settings.logLevel
      | 1 => "info"
      | 2 => "debug"
      | _ => "trace" }

/-- What is logged. A filter from the environment replaces the level, unless it is blank; a trace is
switched on either way. -/
def logFilter (settings : Settings) (environment : Option String) : String :=
  let wanted := (environment.map Text.trim).filter fun filter => !filter.isEmpty
  let base := wanted.getD settings.logLevel
  if settings.trace then base ++ "," ++ Release.name ++ "::trace=info" else base

end Settings

end WordC
