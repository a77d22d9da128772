import WordC.Host.System

/-!
# The working directory

Files by their path from the working directory. A path that leads through a file, or to none, is
answered with the reason.
-/

namespace WordC

open Text.Utf8 (Bytes)

/-- Files in the order of their creation; folders are the beginnings of their paths. -/
abbrev Directory := List (String × Bytes)

namespace Directory

def contents? (directory : Directory) (path : String) : Option Bytes :=
  directory.lookup path

/-- Replaces the contents of a file, or adds the file. -/
def write (directory : Directory) (path : String) (contents : Bytes) : Directory :=
  if (directory.contents? path).isSome then
    directory.map fun (name, old) => if name == path then (name, contents) else (name, old)
  else directory ++ [(path, contents)]

def isFolder (directory : Directory) (path : List String) : Bool :=
  path.isEmpty || directory.any fun (name, _) =>
    (String.intercalate "/" path ++ "/").isPrefixOf name

/-- What a path leads to. -/
inductive Place where
  | file (path : String)
  | folder
  /-- Nothing yet, in a folder that exists. -/
  | vacant (path : String)
  /-- Nothing yet, where only a folder could be. -/
  | vacantFolder

/-- The longest name of a file or folder, in bytes. -/
def longestName : Nat := 255

/-- The longest path, in bytes. -/
def longestPath : Nat := 4095

/-- Follows the names of a path from a folder. Nothing is known outside of the working directory. -/
def follow (directory : Directory) (folder : List String) : List String → Except FileError Place
  | [] => .ok .folder
  | name :: rest =>
      if name = "" ∨ name = "." then follow directory folder rest
      else if name = ".." then
        match folder.reverse with
        | [] =>
            if rest.all (fun name => name = "" ∨ name = ".") then .ok .folder
            else .error .notFound
        | _ :: parents => follow directory parents.reverse rest
      else if longestName < name.utf8ByteSize then .error .nameTooLong
      else
        let path := folder ++ [name]
        let text := String.intercalate "/" path
        if directory.isFolder path then follow directory path rest
        else if (directory.contents? text).isSome then
          if rest.isEmpty then .ok (.file text) else .error .notFolder
        else if rest.isEmpty then .ok (.vacant text)
        else if rest.all (· = "") then .ok .vacantFolder
        else .error .notFound

def place (directory : Directory) (path : String) : Except FileError Place :=
  if path = "" then .error .notFound
  else if longestPath < path.utf8ByteSize then .error .nameTooLong
  else
    match path.splitOn "/" with
    | "" :: rest => if rest.all (· = "") then .ok .folder else .error .notFound
    | names => follow directory [] names

/-- Whether a file or folder has this path. -/
def hasEntry (directory : Directory) (path : String) : Bool :=
  match directory.place path with
  | .ok (.file _) | .ok .folder => true
  | _ => false

/-- The text of a whole file. -/
def readText (directory : Directory) (path : String) : Except FileError String := do
  match ← directory.place path with
  | .folder => throw .isFolder
  | .vacant _ | .vacantFolder => throw .notFound
  | .file path =>
      match Text.Utf8.decode? ((directory.contents? path).getD []) with
      | some text => return text
      | none => throw .notText

def writeText (directory : Directory) (path text : String) : Except FileError Directory := do
  match ← directory.place path with
  | .folder | .vacantFolder => throw .isFolder
  | .file path | .vacant path => return directory.write path (Text.Utf8.encode text)

end Directory

end WordC
