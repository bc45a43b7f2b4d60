import SlottedLeaf.Bytes.Basic

/-!
# Directories

The files that a command sees: those under one directory, by their paths from it. Around the
directory lies a file system with the usual folders at its root and no other file.
-/

namespace SlottedLeaf

/-- What a path leads to. -/
inductive Entry where
  | missing
  | folder
  | file (content : Bytes)
  /-- The path goes on after a file. -/
  | pastFile
  /-- The path, or a name along it, is longer than a file system allows. -/
  | overlong
deriving DecidableEq, Repr

/-- Files and folders by their paths from one directory. -/
structure Directory where
  files : List (String × Bytes)
  folders : List String
deriving DecidableEq, Repr

namespace Directory

def names (path : String) : List String := path.splitOn "/"

def isIdle (name : String) : Bool := name = "" || name = "."

/-- The names that a path passes from the directory down. -/
def place (path : String) : List String := (names path).filter fun name => !isIdle name

def content? (directory : Directory) (here : List String) : Option Bytes :=
  (directory.files.find? fun file => place file.1 = here).map Prod.snd

/-- Whether there is a folder at a place: one of its own, or one that holds something. -/
def isFolder (directory : Directory) (here : List String) : Bool :=
  here.isEmpty || directory.folders.any (fun folder => here.isPrefixOf (place folder)) ||
    directory.files.any fun file => here.isPrefixOf (place file.1) && place file.1 != here

/-- Whether a name never leads down into a folder. -/
def isAscent (name : String) : Bool := isIdle name || name = ".."

def nameLimit : Nat := 255

def pathLimit : Nat := 4095

def entryAt (directory : Directory) (here : List String) : Entry :=
  match directory.content? here with
  | some content => .file content
  | none => if directory.isFolder here then .folder else .missing

/-- What names lead to above the directory, where only the folders on the way up are known. -/
def walkAbove (names : List String) : Entry :=
  match names.dropWhile isAscent with
  | [] => .folder
  | name :: _ => if nameLimit < name.utf8ByteSize then .overlong else .missing

/-- The place that names lead to from a place, or what they lead to when that is no place in the
directory. -/
def walk (directory : Directory) (here : List String) : List String → Except Entry (List String)
  | [] => .ok here
  | name :: rest =>
    if (directory.content? here).isSome then .error .pastFile
    else if !directory.isFolder here then .error .missing
    else if isIdle name then directory.walk here rest
    else if name = ".." then
      if here.isEmpty then .error (walkAbove rest) else directory.walk here.dropLast rest
    else if nameLimit < name.utf8ByteSize then .error .overlong
    else directory.walk (here ++ [name]) rest

def root : Directory where
  files := []
  folders := ["bin", "dev", "etc", "home", "lib", "opt", "proc", "root", "run", "sbin", "srv",
    "sys", "tmp", "usr", "var"]

/-- What names lead to from the root. Nothing is above it, so names that lead up from it stay
there. -/
def entryFromRoot (names : List String) : Entry :=
  match root.walk [] (names.dropWhile isAscent) with
  | .ok here => root.entryAt here
  | .error entry => entry

/-- The place in the directory that a path leads to, or what it leads to elsewhere. -/
def locate (directory : Directory) (path : String) : Except Entry (List String) :=
  if path = "" then .error .missing
  else if pathLimit < path.utf8ByteSize then .error .overlong
  else if path.startsWith "/" then .error (entryFromRoot (names path))
  else directory.walk [] (names path)

def entry (directory : Directory) (path : String) : Entry :=
  match directory.locate path with
  | .ok here => directory.entryAt here
  | .error entry => entry

/-- The directory after the file that a path leads to got new content. -/
def write (directory : Directory) (path : String) (content : Bytes) : Directory :=
  match directory.locate path with
  | .ok here =>
    { directory with
      files := directory.files.map fun file =>
        if place file.1 = here then (file.1, content) else file }
  | .error _ => directory

end Directory

end SlottedLeaf
