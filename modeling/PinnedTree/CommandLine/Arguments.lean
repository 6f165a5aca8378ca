import PinnedTree.Text.Fields

namespace PinnedTree.CommandLine

inductive Setting
  | root
  | table
  | verbose
  | trace
  | help
  | version
  | dryRun
  | parallelism
  | only
deriving DecidableEq, Repr

namespace Setting

def name : Setting → String
  | .root => "root"
  | .table => "table"
  | .verbose => "verbose"
  | .trace => "trace"
  | .help => "help"
  | .version => "version"
  | .dryRun => "dry-run"
  | .parallelism => "parallelism"
  | .only => "only"

def letter? : Setting → Option Char
  | .verbose => some 'v'
  | .help => some 'h'
  | .version => some 'V'
  | .parallelism => some 'j'
  | _ => none

def hasValue : Setting → Bool
  | .root | .table | .parallelism | .only => true
  | _ => false

def size? (text : String) : Option Nat :=
  let digits := match text.toList with
    | '+' :: rest => rest
    | letters => letters
  if digits.isEmpty || !digits.all (·.isDigit) then none
  else
    let n := digits.foldl (fun n c => n * 10 + (c.toNat - '0'.toNat)) 0
    if n < 0x10000000000000000 then some n else none

def accepts (value : String) : Setting → Bool
  | .root | .table => !value.isEmpty
  | .parallelism => (size? value).isSome
  | _ => true

def everywhere : List Setting := [.root, .table, .verbose, .trace, .help, .version]

end Setting

inductive Shell
  | bash
  | elvish
  | fish
  | powershell
  | zsh
deriving DecidableEq, Repr

def Shell.ofName? : String → Option Shell
  | "bash" => some .bash
  | "elvish" => some .elvish
  | "fish" => some .fish
  | "powershell" => some .powershell
  | "zsh" => some .zsh
  | _ => none

inductive Command
  | sync (dryRun : Bool) (parallelism : Option Nat) (only : List String)
  | status (only : List String)
  | list
  | prune (dryRun : Bool)
  | completion (shell : Shell)
deriving DecidableEq, Repr

structure Invocation where
  root : String
  table : Option String
  command : Command
deriving DecidableEq, Repr

inductive Stop
  | usage
  | help
  | version (program : String)
deriving DecidableEq, Repr

def program : String := "depsync"

def commandNames : List String := ["sync", "status", "list", "prune", "completion", "help"]

/-- The arguments that one command takes, or the program before its command. -/
structure Level where
  name : String
  settings : List Setting
  isTop : Bool := false
  takesShell : Bool := false

def topLevel : Level where
  name := program
  settings := Setting.everywhere
  isTop := true

def commandLevel (name : String) : Level where
  name := program ++ "-" ++ name
  settings := Setting.everywhere ++
    match name with
    | "sync" => [.dryRun, .parallelism, .only]
    | "status" => [.only]
    | "prune" => [.dryRun]
    | _ => []
  takesShell := name = "completion"

/-- What has been read so far: settings with their values, the setting whose value is still to be
read or to be checked, the shell, and the command with the arguments that follow it. -/
structure Given where
  settings : List (Setting × String) := []
  held : Option (Setting × Option String) := none
  shell : Option Shell := none
  command : Option (String × List String) := none

namespace Given

def has (given : Given) (setting : Setting) : Bool := given.settings.any (·.1 = setting)

def value? (given : Given) (setting : Setting) : Option String :=
  given.settings.lookup setting

def values (given : Given) (setting : Setting) : List String :=
  (given.settings.filter (·.1 = setting)).map (·.2)

def add (given : Given) (setting : Setting) (value : String) : Except Stop Given :=
  if (given.has setting && setting ≠ .only) || !setting.accepts value then .error .usage
  else .ok { given with settings := given.settings ++ [(setting, value)] }

def settle (given : Given) : Except Stop Given :=
  match given.held with
  | none => .ok given
  | some (_, none) => .error .usage
  | some (setting, some value) => { given with held := none }.add setting value

def take (given : Given) (level : Level) (setting : Setting) (attached : Option String) :
    Except Stop Given := do
  let settled ← given.settle
  if setting.hasValue then
    match attached with
    | some value => settled.add setting value
    | none => return { settled with held := some (setting, none) }
  else
    match attached, setting with
    | some _, _ => throw .usage
    | none, .help => throw .help
    | none, .version => throw (.version level.name)
    | none, flag => settled.add flag ""

def takeNamed (given : Given) (level : Level) (argument : String) : Except Stop Given :=
  let (name, attached) := match Text.cutFirst? '=' argument with
    | some (name, value) => (name, some value)
    | none => (argument, none)
  match level.settings.find? (·.name = name) with
  | some setting => given.take level setting attached
  | none => .error .usage

/-- Reads settings by their letters; the first one that has a value takes the rest as its value. -/
def takeLetters (given : Given) (level : Level) : List Char → Except Stop Given
  | [] => .ok given
  | letter :: rest =>
    match level.settings.find? (·.letter? = some letter) with
    | none => .error .usage
    | some setting =>
      if setting.hasValue then
        given.take level setting <| match rest with
          | [] => none
          | '=' :: value => some (String.ofList value)
          | value => some (String.ofList value)
      else do takeLetters (← given.take level setting none) level rest

def takeWord (given : Given) (level : Level) (word : String) : Except Stop Given :=
  match level.takesShell, given.shell, Shell.ofName? word with
  | true, none, some shell => .ok { given with shell := some shell }
  | _, _, _ => .error .usage

def takeWords (given : Given) (level : Level) : List String → Except Stop Given
  | [] => .ok given
  | word :: rest => do takeWords (← given.takeWord level word) level rest

def takeAll (given : Given) (level : Level) : List String → Except Stop Given
  | [] => .ok given
  | argument :: rest =>
    match argument.toList, given.held with
    | ['-', '-'], _ => given.takeWords level rest
    | '-' :: '-' :: name, _ => do
      takeAll (← given.takeNamed level (String.ofList name)) level rest
    | '-' :: letter :: letters, _ => do
      takeAll (← given.takeLetters level (letter :: letters)) level rest
    | _, some (setting, none) =>
      { given with held := some (setting, some argument) }.takeAll level rest
    | _, _ =>
      if !level.isTop then do takeAll (← given.takeWord level argument) level rest
      else if argument ∈ commandNames then .ok { given with command := some (argument, rest) }
      else .error .usage

end Given

def commandOf (name : String) (given : Given) : Except Stop Command :=
  match name, given.shell with
  | "sync", _ => .ok (.sync (given.has .dryRun)
      ((given.value? .parallelism).bind Setting.size?) (given.values .only))
  | "status", _ => .ok (.status (given.values .only))
  | "list", _ => .ok .list
  | "prune", _ => .ok (.prune (given.has .dryRun))
  | "completion", some shell => .ok (.completion shell)
  | _, _ => .error .usage

def isHelpTopic : List String → Bool
  | [] => true
  | [name] => name ∈ commandNames
  | _ => false

/-- What arguments ask for; a setting of the command itself wins over one before it. -/
def Invocation.parse (arguments : List String) : Except Stop Invocation := do
  let before ← Given.takeAll {} topLevel arguments
  match before.command with
  | none => throw .usage
  | some ("help", topic) => throw (if isHelpTopic topic then .help else .usage)
  | some (name, rest) =>
    let given ← (← Given.takeAll {} (commandLevel name) rest).settle
    let command ← commandOf name given
    let outer ← before.settle
    return {
      root := ((given.value? .root).or (outer.value? .root)).getD "."
      table := (given.value? .table).or (outer.value? .table)
      command := command }

end PinnedTree.CommandLine
