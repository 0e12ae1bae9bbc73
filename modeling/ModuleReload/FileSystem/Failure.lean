/-!
# Why a file cannot be used

The answers of the operating system that this library can meet when it looks a path up, reads a
text or asks for a modification time, and two answers that are given without asking it or after it
has answered: a path that cannot be handed over, and bytes that are no text.
-/

namespace ModuleReload.FileSystem

/-- Why looking up or reading a path failed. -/
inductive Failure
  /-- A name on the path does not exist. -/
  | notFound
  /-- Something on the path is used as a directory and is none. -/
  | notDirectory
  /-- A directory was to be read as a text. -/
  | isDirectory
  /-- Following links did not come to an end. -/
  | tooManyLinks
  /-- The path, or a name on it, is longer than can be looked up. -/
  | nameTooLong
  /-- The path holds the null character, which no name may hold. -/
  | containsNull
  /-- The bytes of the file are not UTF-8. -/
  | undecodable
  deriving DecidableEq, Repr

def Failure.message : Failure → String
  | .notFound => "No such file or directory (os error 2)"
  | .notDirectory => "Not a directory (os error 20)"
  | .isDirectory => "Is a directory (os error 21)"
  | .tooManyLinks => "Too many levels of symbolic links (os error 40)"
  | .nameTooLong => "File name too long (os error 36)"
  | .containsNull => "file name contained an unexpected NUL byte"
  | .undecodable => "stream did not contain valid UTF-8"

end ModuleReload.FileSystem
