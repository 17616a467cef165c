import TapeFlow.Compile

/-!
# Reading files

Where sources and options come from: something that gives the bytes of a path
or says why it cannot.  A `Folder` is such a thing held in memory, and finds its
files the way the system does:

* `pathFault?` is what is wrong with a path before any file is looked at;
* `Folder.follow` takes a path name by name, and the first name that leads
  nowhere decides the failure.
-/

namespace TapeFlow

/-- Why a file could not be read. -/
inductive ReadFailure where
  /-- There is no such file. -/
  | notFound
  /-- The path goes on after the name of a file. -/
  | notDirectory
  /-- The path names a directory. -/
  | isDirectory
  /-- The path, or a name in it, is longer than the system takes. -/
  | nameTooLong
  /-- The path holds a zero byte, which would end it. -/
  | zeroByte
  /-- A text was wanted and the bytes are not UTF-8. -/
  | notText
  /-- The system says so in these words. -/
  | other (detail : String)
  deriving DecidableEq

namespace ReadFailure

/-- The words for a failure, as the system puts them. -/
def message : ReadFailure → String
  | notFound => "No such file or directory (os error 2)"
  | notDirectory => "Not a directory (os error 20)"
  | isDirectory => "Is a directory (os error 21)"
  | nameTooLong => "File name too long (os error 36)"
  | zeroByte => "file name contained an unexpected NUL byte"
  | notText => "stream did not contain valid UTF-8"
  | other detail => detail

/-- The failure the system has a number for. -/
def ofCode? : Nat → Option ReadFailure
  | 2 => some notFound
  | 20 => some notDirectory
  | 21 => some isDirectory
  | 36 => some nameTooLong
  | _ => none

end ReadFailure

/-- The bytes of each path, or why there are none. -/
abbrev ReadFile := String → Except ReadFailure (List UInt8)

/-- Bytes as a text. -/
def decodeText (bytes : List UInt8) : Except ReadFailure String :=
  match String.fromUTF8? (ByteArray.mk bytes.toArray) with
  | some text => .ok text
  | none => .error .notText

/-- The most bytes a path may have. -/
def longestPath : Nat := 4095

/-- The most bytes one name in a path may have. -/
def longestName : Nat := 255

/-- What is wrong with a path, whatever files there are.  A zero byte is found first, because a path
that holds one cannot be handed to the system at all. -/
def pathFault? (path : String) : Option ReadFailure :=
  if path.toList.contains (Char.ofNat 0) then some .zeroByte
  else if path.isEmpty then some .notFound
  else if longestPath < path.utf8ByteSize then some .nameTooLong
  else none

/-- A directory with some files and no directories in it.  The directories above it are there, but
none of their files is known. -/
structure Folder where
  /-- The files, by name. -/
  files : List (String × List UInt8)

namespace Folder

/-- Follow the names of a path from the folder on.  Empty names and single dots stay where they are;
two dots lead out of the folder, where no other name leads anywhere. -/
def follow (folder : Folder) : List String → Except ReadFailure (List UInt8)
  | [] => .error .isDirectory
  | name :: names =>
    if name = "" ∨ name = "." then folder.follow names
    else if name = ".." then follow ⟨[]⟩ names
    else if longestName < name.utf8ByteSize then .error .nameTooLong
    else
      match folder.files.lookup name with
      | some bytes => if names.isEmpty then .ok bytes else .error .notDirectory
      | none => .error .notFound

/-- Read a file of the folder.  A path that begins with a slash does not begin at the folder. -/
def read (folder : Folder) : ReadFile := fun path =>
  match pathFault? path with
  | some failure => .error failure
  | none => (if path.startsWith "/" then ⟨[]⟩ else folder).follow (path.splitOn "/")

end Folder

/-- Compile a source file. -/
def compileFile (read : ReadFile) (options : Options) (path : String) :
    Except Error Compiled × List Event :=
  match read path with
  | .ok source => compile options source
  | .error failure => (.error (.unreadable path failure.message), [])

end TapeFlow
