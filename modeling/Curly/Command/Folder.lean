/-!
# Folders

A folder with files and folders in it, as far as a command that names a file can see it.

## Main definitions

* `Folder`: files by path, and folders.
* `Folder.file`: the contents of a file, or why it cannot be had.
-/

namespace Curly

/-- Why the contents of a file cannot be had. -/
inductive FileFault where
  /-- There is no file of that name. -/
  | notFound
  /-- The name goes on below a file. -/
  | notAFolder
  /-- The name, or one of its steps, is longer than names may be. -/
  | nameTooLong
  /-- The name has a null character in it, which no name may have. -/
  | notAName
deriving DecidableEq

/-- The fault in words. -/
def FileFault.message : FileFault → String
  | notFound => "there is no file of that name"
  | notAFolder => "the name goes on below a file"
  | nameTooLong => "the name is too long"
  | notAName => "the name has a null character in it"

/-- The steps of a path from a folder inwards. -/
abbrev FolderPath := List String

/-- A folder: the files in it and below it, and the folders below it that may be empty. -/
structure Folder where
  /-- Files by path. -/
  files : List (FolderPath × ByteArray)
  /-- Paths of folders. A folder on the way to one of these or to a file need not be listed. -/
  folders : List FolderPath

namespace Folder

/-- The steps of a written path. Repeated and closing slashes and steps to the same folder count for
nothing. -/
def stepsOf (path : String) : FolderPath :=
  (path.splitOn "/").filter fun step => step ≠ "" && step ≠ "."

/-- A written path without the parts that count for nothing. -/
def plainPath (path : String) : String :=
  let steps := String.intercalate "/" (stepsOf path)
  if path.startsWith "/" then "/" ++ steps
  else if steps = "" then "."
  else steps

/-- Whether a path leads to a folder. -/
def isFolder (f : Folder) (path : FolderPath) : Bool :=
  path.isEmpty || f.folders.any path.isPrefixOf ||
    f.files.any fun (file, _) => path.isPrefixOf file && path ≠ file

/-- The greatest number of bytes in a step of a path. -/
def stepLimit : Nat := 255

/-- The greatest number of bytes in a whole path. -/
def pathLimit : Nat := 4095

/-- Whether a step has more bytes than steps may have. -/
def stepTooLong (step : String) : Bool := stepLimit < step.utf8ByteSize

/-- Why there is no file at the end of a path through folders of which nothing is known. Two dots lead to
a folder around them, and nothing is found by any other step. -/
def faultOutside : List String → FileFault
  | [] => .notFound
  | step :: rest =>
    if step = ".." then faultOutside rest
    else if stepTooLong step then .nameTooLong
    else .notFound

/-- Follows the steps of a path from the folder `here`. Two dots lead to the folder around; what is
around the outermost folder is not known. How long a step is matters only once the way has led to it. -/
def follow (f : Folder) (here : FolderPath) : List String → Except FileFault ByteArray
  | [] => .error .notFound
  | step :: rest =>
    if step = ".." then
      if here.isEmpty then .error (faultOutside rest) else follow f here.dropLast rest
    else if stepTooLong step then .error .nameTooLong
    else
      let next := here ++ [step]
      match f.files.lookup next with
      | some contents => if rest.isEmpty then .ok contents else .error .notAFolder
      | none => if f.isFolder next then follow f next rest else .error .notFound

/-- The contents of the file with the given name. A null character or the length of the whole name tells
before any folder is looked at. Nothing is found under names that begin at the root of all folders. -/
def file (f : Folder) (name : String) : Except FileFault ByteArray :=
  if name.toList.contains (Char.ofNat 0) then .error .notAName
  else if pathLimit < (plainPath name).utf8ByteSize then .error .nameTooLong
  else if name.startsWith "/" then .error (faultOutside (stepsOf name))
  else f.follow [] (stepsOf name)

end Folder

end Curly
