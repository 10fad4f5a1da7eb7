import Mathlib.Data.List.Basic
import Stencil.Proofs.Text
import Stencil.Proofs.Views.Bindings
import Stencil.Views.Files

/-!
# Loading files

A folder is loaded file by file, in the order in which its files are listed. Each file with the right
extension adds what an asset with its path and its text adds, so a folder is loaded as these assets
are (`loads_addListing`).
-/

namespace Stencil

/-- The files below a folder, each by the names that lead to it, with its bytes. -/
abbrev Listing := List (List Text × ByteArray)

namespace Listing

/-- The path to a file, from the folder. -/
def path (names : List Text) : Text := ['/'].intercalate names

/-- No file is the folder itself. -/
def Proper (listing : Listing) : Prop := ∀ found ∈ listing, path found.1 ≠ []

/-- The last name of a path ends with an extension. -/
def HasExtension (extension path : Text) : Prop :=
  (Views.suffixOf extension).isSuffixOf ((FileTree.components path).getLast?.getD [])

instance (extension path : Text) : Decidable (HasExtension extension path) :=
  inferInstanceAs (Decidable (_ = true))

/-- The files with an extension hold text. -/
def Readable (extension : Text) (listing : Listing) : Prop :=
  ∀ found ∈ listing, HasExtension extension (path found.1) → (String.fromUTF8? found.2).isSome

instance (listing : Listing) : Decidable listing.Proper :=
  inferInstanceAs (Decidable (∀ found ∈ listing, _))

instance (extension : Text) (listing : Listing) : Decidable (Readable extension listing) :=
  inferInstanceAs (Decidable (∀ found ∈ listing, _))

/-- A file with an extension as an asset: its path, and the text in it. -/
def asset? (extension : Text) (found : List Text × ByteArray) : Option (Text × Text) :=
  if HasExtension extension (path found.1) then
    (String.fromUTF8? found.2).map fun source => (path found.1, source.toList)
  else none

/-- The files with an extension as assets. -/
def assets (extension : Text) (listing : Listing) : List (Text × Text) :=
  listing.filterMap (asset? extension)

end Listing

/-! ## Paths -/

namespace FileTree

theorem components_eq_splitOn (path : Text) : components path = path.splitOn '/' :=
  Text.pieces_eq_splitOn '/' path

theorem components_ne_nil (path : Text) : components path ≠ [] := Text.pieces_ne_nil _ path

/-- What stands before a slash does not change the last component. -/
theorem getLast?_components (root below : Text) :
    (components (root ++ '/' :: below)).getLast? = (components below).getLast? := by
  have hsplit : components (root ++ '/' :: below) = components root ++ components below := by
    simp only [components_eq_splitOn]
    exact List.splitOnP_append_cons root below rfl
  rw [hsplit, List.getLast?_append_of_ne_nil _ (components_ne_nil below)]

end FileTree

namespace Listing

theorem path_cons_ne_nil {name : Text} (h : name ≠ []) (names : List Text) :
    path (name :: names) ≠ [] := by
  obtain ⟨c, rest, rfl⟩ := List.exists_cons_of_ne_nil h
  cases names with
  | nil => simp [path]
  | cons next names => simp [path, List.intercalate_cons_cons]

/-- The files in a folder are none of them the folder itself, if the entries have names. -/
theorem proper_folder {entries : List (Text × FileTree)} (h : ∀ entry ∈ entries, entry.1 ≠ []) :
    Proper (FileTree.folder entries).files := by
  rw [FileTree.files]
  induction entries with
  | nil => nofun
  | cons entry entries ih =>
    obtain ⟨name, tree⟩ := entry
    have hname : name ≠ [] := h _ List.mem_cons_self
    intro found hmem
    rw [FileTree.entryFiles, List.mem_append, List.mem_map] at hmem
    rcases hmem with ⟨below, -, rfl⟩ | hmem
    · exact path_cons_ne_nil hname below.1
    · exact ih (fun other hother => h other (List.mem_cons_of_mem _ hother)) found hmem

end Listing

namespace Views

/-- The last name of a path is the last one below whatever root. -/
theorem getLast?_joinPath {below : Text} (hne : below ≠ []) (root : Text) :
    (FileTree.components (joinPath root below)).getLast? =
      (FileTree.components below).getLast? := by
  rw [joinPath, if_neg hne]
  split
  · next hslash =>
    obtain ⟨start, rfl⟩ := List.getLast?_eq_some_iff.mp hslash
    rw [List.append_assoc]
    exact FileTree.getLast?_components start below
  · exact FileTree.getLast?_components root below

/-! ## Files -/

/-- Adds the views in the files of a listing. -/
def addListing (root extension : Text) (listing : Listing) : EStateM LoadError Views Unit :=
  listing.forM fun (names, content) => addFile root extension names content

theorem addFiles_some (root extension : Text) (tree : FileTree) :
    addFiles root extension (some tree) = addListing root extension tree.files := rfl

variable {root extension : Text} {names : List Text} {content : ByteArray}

theorem addFile_eq (hne : Listing.path names ≠ []) :
    addFile root extension names content =
      if Listing.HasExtension extension (Listing.path names) then
        match String.fromUTF8? content with
        | none => throw (.encoding (joinPath root (Listing.path names)))
        | some source =>
          register (nameOf (Listing.path names)) source.toList
            (.duplicateFile (joinPath root (Listing.path names)) (nameOf (Listing.path names)))
      else pure () := by
  have hname := getLast?_joinPath hne root
  rw [Listing.path] at hname
  simp only [addFile, hname]
  rfl

/-- A file with the extension adds what the asset adds that it is. -/
theorem loads_addFile (hne : Listing.path names ≠ [])
    (hreadable : Listing.HasExtension extension (Listing.path names) →
      (String.fromUTF8? content).isSome) :
    Loads (addFile root extension names content)
      ((Listing.asset? extension (names, content)).toList.map pairOf) := by
  rw [addFile_eq hne, Listing.asset?]
  split
  · next hextension =>
    obtain ⟨source, hsource⟩ := Option.isSome_iff_exists.mp (hreadable hextension)
    rw [hsource]
    exact loads_register _ _ _
  · exact .pure

/-- **Files that hold text are loaded as the assets that they are**, in whatever order they are
listed. -/
theorem loads_addListing {listing : Listing} (hproper : listing.Proper)
    (hreadable : listing.Readable extension) :
    Loads (addListing root extension listing) ((listing.assets extension).map pairOf) := by
  have hpairs : (listing.assets extension).map pairOf =
      listing.flatMap fun found => (Listing.asset? extension found).toList.map pairOf := by
    rw [Listing.assets, List.filterMap_eq_flatMap_toList, List.map_flatMap]
  rw [hpairs]
  exact .forM fun found hmem => loads_addFile (hproper found hmem) (hreadable found hmem)

/-- Files that were loaded hold text. -/
theorem readable_of_ok {listing : Listing} (hproper : listing.Proper) {views left : Views}
    (hok : addListing root extension listing views = .ok () left) : listing.Readable extension := by
  rintro ⟨names, content⟩ hmem hextension
  obtain ⟨start, next, hfile⟩ := exists_ok_of_forM_ok hok hmem
  replace hfile : addFile root extension names content start = .ok () next := hfile
  rw [addFile_eq (hproper _ hmem), if_pos hextension] at hfile
  cases hsource : String.fromUTF8? content with
  | none =>
    rw [hsource] at hfile
    cases hfile
  | some source => rfl

/-! ## What files keep -/

section Keeps

variable {V : Views → Views → Prop} [IsPreorder Views V]
  (hregister : ∀ name source duplicate, Keeps V (register name source duplicate))

include hregister

theorem keeps_addFile (root extension : Text) (names : List Text) (content : ByteArray) :
    Keeps V (addFile root extension names content) := by
  unfold addFile
  dsimp only
  split
  · split
    · exact .throw _
    · exact hregister _ _ _
  · exact .pure _

/-- Files keep what a registration keeps. -/
theorem keeps_addFiles (root extension : Text) (tree : Option FileTree) :
    Keeps V (addFiles root extension tree) :=
  .forM fun _ _ => keeps_addFile hregister _ _ _ _

end Keeps

end Views

end Stencil
