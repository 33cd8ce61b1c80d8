/-
The ways in which an operation on files can fail as a whole, and what is
said about each. A fault inside a readable source file is none of them:
it is recorded with the file.
-/
import ModuleAtlas.FileTree

namespace ModuleAtlas

inductive Failure where
  | noFile (path : String)
  | noDirectory (path : String)
  | notDirectory (path : String)
  | notText (path : String)
  | unreadable (path : String) (cause : SystemError)
  | system (cause : SystemError)
  deriving Repr, DecidableEq

def Failure.message : Failure → String
  | noFile path => "File not found: " ++ path
  | noDirectory path => "Directory not found: " ++ path
  | notDirectory path => "Not a directory: " ++ path
  | notText path => "File encoding error: " ++ path
  | unreadable path cause => "Failed to parse file " ++ path ++ ": " ++ cause.message
  | system cause => cause.message

end ModuleAtlas
