import PinnedTree.CommandLine.Arguments

namespace PinnedTree.CommandLine

def versionNumber : String := "0.1.0"

def usage : String := "Usage: " ++ program ++ " [OPTIONS] <COMMAND>\n"

def help : String :=
  "Materialize pinned dependencies from a DEPS table\n\n" ++ usage ++ "\nCommands:\n"
    ++ "  sync        Fetch or update every entry to its pinned revision\n"
    ++ "  status      Show which entries are current, missing or outdated\n"
    ++ "  list        List table entries with their resolved locator and backend\n"
    ++ "  prune       Remove checkouts of ids that left the table\n"
    ++ "  completion  Generate shell completion scripts\n"
    ++ "  help        Print this message\n"
    ++ "\nOptions:\n"
    ++ "      --root <ROOT>    Checkout root that destination paths are relative to\n"
    ++ "      --table <TABLE>  Dependency table\n"
    ++ "  -v, --verbose        Log decisions\n"
    ++ "      --trace          Log everything\n"
    ++ "  -h, --help           Print help\n"
    ++ "  -V, --version        Print version\n"

/-- A script that lets a shell complete the commands. -/
def completionScript (shell : Shell) : String :=
  let names := " ".intercalate commandNames
  match shell with
  | .bash => "complete -W '" ++ names ++ "' " ++ program ++ "\n"
  | .zsh => "#compdef " ++ program ++ "\ncompadd " ++ names ++ "\n"
  | .fish => "complete -c " ++ program ++ " -f -a '" ++ names ++ "'\n"
  | .elvish =>
    "set edit:completion:arg-completer[" ++ program ++ "] = \x7b|@words| put " ++ names
      ++ " \x7d\n"
  | .powershell =>
    "Register-ArgumentCompleter -Native -CommandName " ++ program
      ++ " -ScriptBlock \x7b '" ++ names ++ "'.Split(' ') \x7d\n"

end PinnedTree.CommandLine
