import PlcMachine.Settings.Path

/-! # Files

What a file system answers about a path, and a file system that is given by a list of files and
directories. Names and paths are limited in length, counted in bytes, and hold no null character.
-/

namespace PlcMachine

inductive ReadFault where
  /-- The operating system refuses, with its number for the cause. -/
  | system (code : Nat) (text : String)
  | nullCharacter
  | notUtf8
deriving DecidableEq, Repr

namespace ReadFault

def notDirectory : ReadFault := .system 20 "Not a directory"

def isDirectory : ReadFault := .system 21 "Is a directory"

def nameTooLong : ReadFault := .system 36 "File name too long"

def message : ReadFault → String
  | .system code text => s!"{text} (os error {code})"
  | .nullCharacter => "file name contained an unexpected NUL byte"
  | .notUtf8 => "stream did not contain valid UTF-8"

end ReadFault

inductive Reading where
  | content (bytes : List UInt8)
  | missing
  | failed (fault : ReadFault)
deriving DecidableEq, Repr

/-- Whether there is anything at a path, and what comes of reading it as a file. -/
structure FileSystem where
  contains : Path → Bool
  read : Path → Reading

inductive PathEntry where
  | file (content : List UInt8)
  | directory
  | missing
  /-- Nothing can be looked for: the path leads through a file, or no entry can have its name. -/
  | blocked (fault : ReadFault)
deriving DecidableEq, Repr

namespace PathEntry

def isPresent : PathEntry → Bool
  | .file _ | .directory => true
  | .missing | .blocked _ => false

def reading : PathEntry → Reading
  | .file content => .content content
  | .directory => .failed .isDirectory
  | .missing => .missing
  | .blocked fault => .failed fault

end PathEntry

/-- Files and directories by the names on the way from the root to them. The directories above them are
there without being listed. -/
structure FileTree where
  /-- The directory that paths start at if they do not start at the root. -/
  working : List String
  files : List (List String × List UInt8)
  directories : List (List String)

namespace FileTree

def nameLimit : Nat := 255

def pathLimit : Nat := 4095

def entry (t : FileTree) (names : List String) : PathEntry :=
  match t.files.lookup names with
  | some content => .file content
  | none =>
    if (t.working :: t.directories ++ t.files.map (·.1)).any (names.isPrefixOf ·) then .directory
    else .missing

def walk (t : FileTree) (names : List String) : List String → PathEntry
  | [] => t.entry names
  | part :: parts =>
    match t.entry names with
    | .directory =>
      if Path.isIdle part then t.walk names parts
      else if part = ".." then t.walk names.dropLast parts
      else if nameLimit < part.utf8ByteSize then .blocked .nameTooLong
      else t.walk (names ++ [part]) parts
    | .file _ => .blocked .notDirectory
    | .missing => .missing
    | .blocked fault => .blocked fault

def find (t : FileTree) (p : Path) : PathEntry :=
  if p.hasNull then .blocked .nullCharacter
  else if p = .empty then .missing
  else if pathLimit < p.text.utf8ByteSize then .blocked .nameTooLong
  else t.walk (if p.anchor = .root then [] else t.working) p.parts

def toFileSystem (t : FileTree) : FileSystem where
  contains p := (t.find p).isPresent
  read p := (t.find p).reading

end FileTree

end PlcMachine
