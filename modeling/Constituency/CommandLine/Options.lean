/-!
Command-line arguments. Options and file names may stand in any order, short options may share a
dash, and a value follows its option directly, after an equals sign, or as the next argument. After
a lone double dash every argument is a file name. No option may be given twice.
-/
namespace Constituency.CommandLine

/-- Options without a value. -/
inductive Flag where
  | convert | raw | recognize | chart
  deriving DecidableEq, Repr

/-- Options whose value is a file name. -/
inductive Target where
  | report | conversion
  deriving DecidableEq, Repr

/-- One thing that arguments ask for. -/
inductive Setting where
  | flag (flag : Flag)
  | target (target : Target) (path : String)
  | input (path : String)
  deriving DecidableEq, Repr

/-- What a run is asked to do. -/
structure Options where
  grammar : String
  sentences : Option String
  report : Option String
  conversion : Option String
  convert : Bool
  raw : Bool
  recognize : Bool
  chart : Bool
  deriving DecidableEq, Repr

/-- What one argument says by itself. -/
inductive Argument where
  | settings (settings : List Setting)
  | awaiting (settings : List Setting) (target : Target)
  | endOfOptions
  | unknown
  deriving DecidableEq, Repr

namespace Argument

def shortFlag? (c : Char) : Option Flag :=
  if c = 'r' then some .recognize else if c = 'c' then some .chart else none

def longFlag? (name : String) : Option Flag :=
  if name = "cnf" then some .convert
  else if name = "raw" then some .raw
  else if name = "recognize" then some .recognize
  else if name = "chart" then some .chart
  else none

def longTarget? (name : String) : Option Target :=
  if name = "output" then some .report
  else if name = "cnf-out" then some .conversion
  else none

/-- A long option, without its dashes. -/
def long (body : List Char) : Argument :=
  let name := String.ofList (body.takeWhile (· ≠ '='))
  match body.dropWhile (· ≠ '=') with
  | [] =>
    match longFlag? name, longTarget? name with
    | some flag, _ => .settings [.flag flag]
    | none, some target => .awaiting [] target
    | none, none => .unknown
  | _ :: value =>
    match longTarget? name with
    | some target => .settings [.target target (String.ofList value)]
    | none => .unknown

/-- Short options behind one dash. What follows an option with a value is its value. -/
def cluster (before : List Setting) : List Char → Argument
  | [] => .settings before
  | c :: rest =>
    match shortFlag? c with
    | some flag => cluster (before ++ [.flag flag]) rest
    | none =>
      if c = 'o' then
        match rest with
        | [] => .awaiting before .report
        | '=' :: value => .settings (before ++ [.target .report (String.ofList value)])
        | value => .settings (before ++ [.target .report (String.ofList value)])
      else .unknown

def read (argument : String) : Argument :=
  match argument.toList with
  | ['-', '-'] => .endOfOptions
  | '-' :: '-' :: body => long body
  | '-' :: c :: rest => cluster [] (c :: rest)
  | _ => .settings [.input argument]

/-- The argument can be the value of the option before it. A lone dash is a file name. -/
def isValue (argument : String) : Bool :=
  match argument.toList with
  | '-' :: _ :: _ => false
  | _ => true

end Argument

namespace Options

/-- All settings of an argument list, or nothing if it is misused. -/
def settings : List String → Option (List Setting)
  | [] => some []
  | argument :: rest =>
    match Argument.read argument with
    | .unknown => none
    | .endOfOptions => some (rest.map .input)
    | .settings found => (settings rest).map (found ++ ·)
    | .awaiting found target =>
      match rest with
      | [] => none
      | value :: rest =>
        if Argument.isValue value then
          (settings rest).map (found ++ Setting.target target value :: ·)
        else none

def flags (settings : List Setting) : List Flag :=
  settings.filterMap fun
    | .flag flag => some flag
    | _ => none

def targets (settings : List Setting) (wanted : Target) : List String :=
  settings.filterMap fun
    | .target target path => if target = wanted then some path else none
    | _ => none

def inputs (settings : List Setting) : List String :=
  settings.filterMap fun
    | .input path => some path
    | _ => none

/-- At most one of something. -/
def single {α : Type} : List α → Option (Option α)
  | [] => some none
  | [x] => some (some x)
  | _ => none

/-- The options that settings amount to: one or two input files, no option twice, and no empty file
name. -/
def ofSettings (settings : List Setting) : Option Options := do
  let report ← single (targets settings .report)
  let conversion ← single (targets settings .conversion)
  let (grammar, rest) ←
    match inputs settings with
    | [] => none
    | grammar :: rest => some (grammar, rest)
  let sentences ← single rest
  let flags := flags settings
  if flags.Nodup ∧ grammar ≠ "" ∧ sentences ≠ some "" ∧ report ≠ some "" ∧ conversion ≠ some "" then
    some {
      grammar, sentences, report, conversion,
      convert := flags.contains .convert
      raw := flags.contains .raw
      recognize := flags.contains .recognize
      chart := flags.contains .chart }
  else none

def read (arguments : List String) : Option Options := (settings arguments).bind ofSettings

end Options

end Constituency.CommandLine
