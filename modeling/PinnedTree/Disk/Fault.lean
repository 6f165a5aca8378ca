namespace PinnedTree

inductive Errno
  | noEntry
  | permissionDenied
  | busy
  | fileExists
  | notDirectory
  | isDirectory
  | invalidArgument
  | nameTooLong
  | notEmpty
  | tooManyLinks
deriving DecidableEq, Repr

def Errno.code : Errno → Nat
  | .noEntry => 2
  | .permissionDenied => 13
  | .busy => 16
  | .fileExists => 17
  | .notDirectory => 20
  | .isDirectory => 21
  | .invalidArgument => 22
  | .nameTooLong => 36
  | .notEmpty => 39
  | .tooManyLinks => 40

def Errno.description : Errno → String
  | .noEntry => "No such file or directory"
  | .permissionDenied => "Permission denied"
  | .busy => "Device or resource busy"
  | .fileExists => "File exists"
  | .notDirectory => "Not a directory"
  | .isDirectory => "Is a directory"
  | .invalidArgument => "Invalid argument"
  | .nameTooLong => "File name too long"
  | .notEmpty => "Directory not empty"
  | .tooManyLinks => "Too many levels of symbolic links"

inductive IoFault
  | errno (cause : Errno)
  | invalidUtf8
  | nulInName
  | wholeTree
  | wrongChecksum
  | corruptStream
  | temporary (cause : IoFault) (path : String)
  | walking (path : String) (cause : IoFault)
  | other (text : String)
deriving DecidableEq, Repr

/-- The text a fault is reported with. -/
def IoFault.message : IoFault → String
  | .errno cause => s!"{cause.description} (os error {cause.code})"
  | .invalidUtf8 => "stream did not contain valid UTF-8"
  | .nulInName => "file name contained an unexpected NUL byte"
  | .wholeTree => "failed to create whole tree"
  | .wrongChecksum => "Invalid checksum"
  | .corruptStream => "corrupt deflate stream"
  | .temporary cause path => cause.message ++ " at path \"" ++ path ++ "\""
  | .walking path cause => "IO error for operation on " ++ path ++ ": " ++ cause.message
  | .other text => text

end PinnedTree
