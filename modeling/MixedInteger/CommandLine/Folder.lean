/-!
# Folders

A folder of files in memory, and what a path leads to when it starts in that folder.  A path is
followed part by part: a missing part ends it, and so does going on from a file.  What lies outside
of the folder is not known, except that the folders above it are folders.
-/

namespace MixedInteger

namespace CommandLine

/-- Why a file cannot be read as text. -/
inductive ReadError where
  | notFound
  | notFolder
  | folder
  /-- The contents are no text. -/
  | notText
  /-- Any other reason, in the words of the system. -/
  | other (reason : String)
  deriving DecidableEq, Repr

/-- The wording of a reason. -/
def ReadError.message : ReadError → String
  | notFound => "No such file or directory (os error 2)"
  | notFolder => "Not a directory (os error 20)"
  | folder => "Is a directory (os error 21)"
  | notText => "stream did not contain valid UTF-8"
  | other reason => reason

/-- Files with the parts of their paths. -/
structure Folder where
  files : List (List String × ByteArray)

/-- Where a path has led so far. -/
inductive Place where
  /-- Inside the folder, at the given parts. -/
  | inside (parts : List String)
  /-- In a folder that many levels above. -/
  | above (levels : Nat)
  deriving DecidableEq, Repr

/-- What is at a place. -/
inductive Entry where
  | folder
  | file (contents : ByteArray)
  | missing

namespace Folder

/-- The parts of a path; empty parts say nothing. -/
def partsOf (path : String) : List String :=
  (path.splitOn "/").filter (· != "")

/-- The folder with the given files. -/
def ofFiles (files : List (String × ByteArray)) : Folder where
  files := files.map fun (name, contents) ↦ (partsOf name, contents)

/-- What is at a place. -/
def entry (folder : Folder) : Place → Entry
  | .above _ => .folder
  | .inside parts =>
    match folder.files.lookup parts with
    | some contents => .file contents
    | none =>
      if parts.isEmpty || folder.files.any (fun file ↦ parts.isPrefixOf file.1) then .folder
      else .missing

/-- Goes from a folder to one of its entries. -/
def enter : Place → String → Option Place
  | place, "." => some place
  | .inside [], ".." => some (.above 1)
  | .inside parts, ".." => some (.inside parts.dropLast)
  | .above levels, ".." => some (.above (levels + 1))
  | .inside parts, part => some (.inside (parts ++ [part]))
  | .above _, _ => none

/-- Follows the parts of a path from a place. -/
def follow (folder : Folder) : Place → List String → Except ReadError Place
  | place, [] => .ok place
  | place, part :: parts =>
    match folder.entry place with
    | .missing => .error .notFound
    | .file _ => .error .notFolder
    | .folder =>
      match enter place part with
      | some place => follow folder place parts
      | none => .error .notFound

/-- The contents of the file that a path leads to. -/
def read (folder : Folder) (path : String) : Except ReadError ByteArray := do
  if path.startsWith "/" then
    if (partsOf path).isEmpty then throw .folder else throw .notFound
  let place ← folder.follow (.inside []) (partsOf path)
  match folder.entry place with
  | .missing => throw .notFound
  | .folder => throw .folder
  | .file contents =>
    if path.endsWith "/" then throw .notFolder else return contents

end Folder

end CommandLine

end MixedInteger
