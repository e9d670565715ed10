import Springboard.Text.Parts

/-!
# Files

A table of text files by their paths, which start in one directory unless they start at the root. Line ends are read alike, however they
are written.
-/

namespace Springboard

/-- Paths, as the names on the way. A path from the root starts with the name `/`. -/
abbrev Path := List String

namespace Path

/-- The name of the root. -/
def root : String := "/"

/-- Follows one name from a path. -/
def follow (path : Path) (name : String) : Path :=
  if name == "" || name == "." then path
  else if name == ".." then path.dropLast
  else path ++ [name]

/-- The path that a text names. -/
def ofText (text : String) : Path :=
  (Text.parts '/' text).foldl follow (if text.toList.head? == some '/' then [root] else [])

/-- Whether a path starts in the directory rather than at the root. -/
def isRelative (path : Path) : Bool :=
  path.head? != some root

/-- The text that names a path. -/
def text (path : Path) : String :=
  if path.isRelative then "/".intercalate path else "/" ++ "/".intercalate path.tail

end Path

/-- What stands behind the last slash of a text. -/
def baseName (text : String) : String :=
  String.ofList (text.toList.reverse.takeWhile (· != '/')).reverse

/-- What stands before the last slash of a text, and the slash. -/
def directoryPart (text : String) : String :=
  String.ofList (text.toList.reverse.dropWhile (· != '/')).reverse

/-- A file name without its extension. Dots at its start begin no extension. -/
def withoutExtension (text : String) : String :=
  let base := (baseName text).toList
  let stem := (base.reverse.dropWhile (· != '.')).drop 1
  if stem.any (· != '.') then directoryPart text ++ String.ofList stem.reverse else text

/-- The text of a file, with every line end written as a line feed. -/
def normalizeLineEnds : List Char → List Char
  | [] => []
  | '\r' :: '\n' :: rest => '\n' :: normalizeLineEnds rest
  | '\r' :: rest => '\n' :: normalizeLineEnds rest
  | c :: rest => c :: normalizeLineEnds rest

/-- Files and their texts, and directories that exist whether or not they hold one of the
files. -/
structure Files where
  entries : List (Path × String)
  directories : List Path := []

namespace Files

/-- The files of a table of names. -/
def ofList (files : List (String × String)) : Files :=
  { entries := files.map fun (name, text) => (Path.ofText name, text) }

/-- The names and texts of the files. -/
def toList (files : Files) : List (String × String) :=
  files.entries.map fun (path, text) => (path.text, text)

/-- The text of the file with the given name. -/
def read? (files : Files) (name : String) : Option String := do
  let text ← files.entries.lookup (Path.ofText name)
  some (String.ofList (normalizeLineEnds text.toList))

/-- Whether a directory exists. -/
def hasDirectory (files : Files) (path : Path) : Bool :=
  path.isEmpty || files.directories.contains path ||
    files.entries.any fun (p, _) => path.isPrefixOf p && p != path

/-- Gives a file a text. -/
def put (files : Files) (path : Path) (text : String) : Files :=
  { files with entries := (path, text) :: files.entries.filter fun (p, _) => p != path }

/-- Writes a file; it has to be in a directory that exists. -/
def write? (files : Files) (name text : String) : Option Files :=
  let path := Path.ofText name
  if !path.isEmpty && files.hasDirectory path.dropLast then some (files.put path text) else none

/-- Writes a file, after making the directories on the way. -/
def writeBelow (files : Files) (name text : String) : Files :=
  files.put (Path.ofText name) text

end Files

end Springboard
