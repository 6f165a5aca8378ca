import PinnedTree.Disk.Fault
import PinnedTree.Json.Basic

namespace PinnedTree

/-- What is wrong with the table, the settings, or the tree they are meant for. -/
inductive ConfigError
  | read (path : String) (source : IoFault)
  | parse (path message : String)
  | unsupportedFormat (path : String)
  | emptyId
  | duplicateId (id : String)
  | keyMismatch (key id : String)
  | emptyRevision (id : String)
  | emptyPath (id : String)
  | escapesRoot (id path : String)
  | overlappingPath (first second path : String)
  | reservedPath (id path : String)
  | noBackend (id locator : String)
  | pathReused (id path owner : String)
  | unmanaged (id path : String)
  | corruptMarker (path message : String)
  | unknownFilterId (id : String)
  | invalidParallelism
deriving DecidableEq, Repr

def ConfigError.message : ConfigError → String
  | .read path source => "failed to read " ++ path ++ ": " ++ source.message
  | .parse path message => "failed to parse " ++ path ++ ": " ++ message
  | .unsupportedFormat path =>
    "unsupported table format for " ++ path ++ " (expected .toml or .json)"
  | .emptyId => "entry with an empty id"
  | .duplicateId id => "duplicate id '" ++ id ++ "'"
  | .keyMismatch key id => "entry keyed '" ++ key ++ "' declares id '" ++ id ++ "'"
  | .emptyRevision id => "'" ++ id ++ "' has an empty revision"
  | .emptyPath id => "'" ++ id ++ "' has an empty destination path"
  | .escapesRoot id path => "'" ++ id ++ "' destination '" ++ path ++ "' escapes the checkout root"
  | .overlappingPath first second path =>
    "'" ++ first ++ "' and '" ++ second ++ "' share destination '" ++ path ++ "'"
  | .reservedPath id path =>
    "'" ++ id ++ "' destination '" ++ path ++ "' lies inside the state directory"
  | .noBackend id locator => "no backend can fetch '" ++ locator ++ "' for '" ++ id ++ "'"
  | .pathReused id path owner =>
    "destination '" ++ path ++ "' for '" ++ id ++ "' already holds '" ++ owner ++ "'"
  | .unmanaged id path =>
    "destination '" ++ path ++ "' for '" ++ id ++ "' has content not managed by depsync"
  | .corruptMarker path message =>
    "unreadable revision marker at " ++ path ++ ": " ++ message
  | .unknownFilterId id => "--only names unknown id '" ++ id ++ "'"
  | .invalidParallelism => "parallelism must be at least 1"

inductive GitError
  | notARepository
  | unreachable
  | missingObject
  | invalidReference
  | checkoutConflict
deriving DecidableEq, Repr

def GitError.message : GitError → String
  | .notARepository => "no repository found"
  | .unreachable => "the remote cannot be reached"
  | .missingObject => "an object is missing"
  | .invalidReference => "a reference is not valid"
  | .checkoutConflict => "the tree cannot be checked out"

inductive ArchiveError
  | invalid
  | unsupported
  | unsafePath (name : String)
  | other (text : String)
deriving DecidableEq, Repr

def ArchiveError.message : ArchiveError → String
  | .invalid => "invalid Zip archive"
  | .unsupported => "unsupported Zip archive"
  | .unsafePath name => "unsafe entry path '" ++ name ++ "'"
  | .other text => text

def noNetwork : String := "no network transfer"

inductive FetchError
  | cancelled
  | git (cause : GitError)
  | io (cause : IoFault)
  | http (text : String)
  | archive (cause : ArchiveError)
  | checksum (expected actual : String)
  | revisionNotFound (revision locator : String)
  | invalidRevision (revision : String)
  | pathReused (path owner : String)
  | unmanaged (path : String)
  | marker (text : String)
deriving DecidableEq, Repr

def FetchError.message : FetchError → String
  | .cancelled => "cancelled"
  | .git cause => "git: " ++ cause.message
  | .io cause => "io: " ++ cause.message
  | .http text => "http: " ++ text
  | .archive cause => "archive: " ++ cause.message
  | .checksum expected actual =>
    "sha256 mismatch: expected " ++ expected ++ ", got " ++ actual
  | .revisionNotFound revision locator =>
    "revision '" ++ revision ++ "' not found in " ++ locator
  | .invalidRevision revision => "invalid revision '" ++ revision ++ "' for this backend"
  | .pathReused path owner => "destination " ++ path ++ " now holds '" ++ owner ++ "'"
  | .unmanaged path => "destination " ++ path ++ " has content not managed by depsync"
  | .marker text => "marker: " ++ text

def FetchError.isCancelled (e : FetchError) : Bool := e = .cancelled

inductive SyncError
  | config (cause : ConfigError)
  | state (path : String) (source : IoFault)
  | locked (path : String)
  | stateFile (path message : String)
  | pool (text : String)
deriving DecidableEq, Repr

def SyncError.message : SyncError → String
  | .config cause => "configuration error: " ++ cause.message
  | .state path source => "state directory " ++ path ++ ": " ++ source.message
  | .locked path => "another depsync run holds " ++ path
  | .stateFile path message => "state file " ++ path ++ ": " ++ message
  | .pool text => "failed to start worker pool: " ++ text

inductive MarkerError
  | io (cause : IoFault)
  | parse (cause : JsonError)
deriving DecidableEq, Repr

def MarkerError.message : MarkerError → String
  | .io cause => cause.message
  | .parse cause => cause.message

inductive Cause
  | text (message : String)
  | io (fault : IoFault)
  | config (error : ConfigError)
  | fetch (error : FetchError)
  | sync (error : SyncError)
deriving DecidableEq, Repr

def Cause.message : Cause → String
  | .text message => message
  | .io fault => fault.message
  | .config error => error.message
  | .fetch error => error.message
  | .sync error => error.message

/-- An error that reaches the top: one cause that the program knows, put into context any number of
times. -/
inductive Failure
  | ofCause (cause : Cause)
  | inContext (context : String) (inner : Failure)
deriving DecidableEq, Repr

def ConfigError.causes (e : ConfigError) : List Cause :=
  match e with
  | .read _ source => [.config e, .io source]
  | _ => [.config e]

def Cause.causes : Cause → List Cause
  | .config e => e.causes
  | .sync (.config e) => .sync (.config e) :: e.causes
  | .sync (.state path source) => [.sync (.state path source), .io source]
  | .fetch (.io source) => [.fetch (.io source), .io source]
  | .fetch (.git source) => [.fetch (.git source), .text source.message]
  | cause => [cause]

def Failure.causes : Failure → List Cause
  | .ofCause cause => cause.causes
  | .inContext context inner => .text context :: inner.causes

def Failure.text (failure : Failure) : String :=
  ": ".intercalate (failure.causes.map (·.message))

def exitSuccess : Nat := 0

def exitFailure : Nat := 1

def exitConfigError : Nat := 2

def exitError : Nat := 3

def Cause.exitCode? : Cause → Option Nat
  | .config _ => some exitConfigError
  | .sync (.config _) => some exitConfigError
  | .sync _ => some exitError
  | _ => none

/-- The exit code for a failure: the first cause that decides one. -/
def Failure.exitCode (failure : Failure) : Nat :=
  (failure.causes.findSome? Cause.exitCode?).getD exitError

end PinnedTree
