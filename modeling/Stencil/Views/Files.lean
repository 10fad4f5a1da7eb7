import Stencil.Views

/-!
# Views in files

A file tree, and the views that its files hold. Files are taken in the order of their names.
-/

namespace Stencil

/-- A file with its bytes, or a folder with its entries in the order of their names. -/
inductive FileTree where
  | file (content : ByteArray)
  | folder (entries : List (Text × FileTree))

namespace FileTree

def components (path : Text) : List Text := Text.pieces (· == '/') path

/-! ## Building a tree -/

/-- Puts a tree at a place, given by the names that lead to it. The folders on the way are made
where there are none. An empty folder takes nothing from a folder that is already there. -/
def place (leaf : FileTree) : (names : List Text) → FileTree → FileTree
  | [], .folder entries =>
    match leaf with
    | .folder [] => .folder entries
    | leaf => leaf
  | [], .file _ => leaf
  | name :: names, tree =>
    let entries := match tree with
      | .folder entries => entries
      | .file _ => []
    let below := (entries.lookup name).getD (.folder [])
    .folder (Entries.insert name (place leaf names below) entries)

/-- Puts a tree at a path that starts at the place `here`. Every place on the way becomes a folder,
also one that two dots lead out of again; a path that leads out of the whole tree ends there. -/
def put (leaf : FileTree) (here : List Text) : (path : List Text) → FileTree → FileTree
  | [], tree => place leaf here tree
  | name :: path, tree =>
    let tree := place (.folder []) here tree
    if name = [] ∨ name = ['.'] then put leaf here path tree
    else if name = ['.', '.'] then
      if here = [] then tree else put leaf here.dropLast path tree
    else put leaf (here ++ [name]) path tree

/-- The tree of some files and empty folders, which are put in place in order. -/
def ofFiles (files : List (Text × FileTree)) : FileTree :=
  files.foldl (fun tree entry => put entry.2 [] (components entry.1) tree) (.folder [])

/-! ## Finding a place -/

/-- What stands at a path from `here`, in the folders `above`. Only a folder has something below it;
two dots lead to the folder above. -/
def find? (above : List FileTree) (here : FileTree) : (path : List Text) → Option FileTree
  | [] => some here
  | name :: path =>
    match here with
    | .file _ => none
    | .folder entries =>
      if name = [] ∨ name = ['.'] then find? above here path
      else if name = ['.', '.'] then
        match above with
        | [] => none
        | parent :: above => find? above parent path
      else (entries.lookup name).bind fun next => find? (here :: above) next path

/-- What stands at a path. -/
def at? (tree : FileTree) (path : Text) : Option FileTree := tree.find? [] (components path)

/-! ## Listing files -/

mutual

def files : FileTree → List (List Text × ByteArray)
  | .file content => [([], content)]
  | .folder entries => entryFiles entries

def entryFiles : List (Text × FileTree) → List (List Text × ByteArray)
  | [] => []
  | (name, tree) :: entries =>
    (files tree).map (fun found => (name :: found.1, found.2)) ++ entryFiles entries

end

end FileTree

namespace Views

/-- A path and a path below it, with a slash between them. -/
def joinPath (path below : Text) : Text :=
  if below = [] then path
  else if path.getLast? = some '/' then path ++ below
  else path ++ '/' :: below

/-- The end of the names of the files with an extension, with exactly one dot before it. -/
def suffixOf (extension : Text) : Text := '.' :: extension.dropWhile (· = '.')

/-- Adds the view in a file, if the name of the file ends as it should. -/
def addFile (root extension : Text) (relative : List Text) (content : ByteArray) :
    EStateM LoadError Views Unit := do
  let below := ['/'].intercalate relative
  let path := joinPath root below
  let fileName := (FileTree.components path).getLast?.getD []
  if (suffixOf extension).isSuffixOf fileName then
    match String.fromUTF8? content with
    | none => throw (.encoding path)
    | some source => register (nameOf below) source.toList (.duplicateFile path (nameOf below))

/-- Adds the views in the files of a tree that stands at `root`, up to the first error. If there is
no tree, there are no views. -/
def addFiles (root extension : Text) (tree : Option FileTree) : EStateM LoadError Views Unit :=
  (tree.map FileTree.files).getD [] |>.forM fun (relative, content) =>
    addFile root extension relative content

end Views

end Stencil
