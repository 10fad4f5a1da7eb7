import Stencil.Proofs.Site.Lift

/-!
# Loading in any order

Views come from single registrations, from lists of assets and from files. What is in a store in the
end depends on all that was loaded together, not on the order, and loads that contradict each other
fail in whatever order (`loading_eq_union`). No command but a removal takes a source away from its
name, also not one that fails (`extendsViews_run`).
-/

namespace Stencil

/-- One call that loads views. -/
inductive Load where
  | view (name source : Text)
  | assets (given : List (Text × Text))
  /-- The files with an extension below a folder that stands at `root`, in the order in which they are
  listed. -/
  | files (root extension : Text) (listing : Listing)

namespace Load

def run : Load → EStateM LoadError Views Unit
  | .view name source => Views.add name source
  | .assets given => Views.addAssets given
  | .files root extension listing => Views.addListing root extension listing

/-- The pairs of a name and a source that a load adds. -/
def pairs : Load → List (Text × Text)
  | .view name source => [(name, source)]
  | .assets given => given.map Views.pairOf
  | .files _ extension listing => (listing.assets extension).map Views.pairOf

/-- No file of a load is the folder itself. -/
def Proper : Load → Prop
  | .files _ _ listing => listing.Proper
  | _ => True

/-- The files that a load reads hold text. -/
def Readable : Load → Prop
  | .files _ extension listing => listing.Readable extension
  | _ => True

theorem loads_run {load : Load} (hproper : load.Proper) (hreadable : load.Readable) :
    Views.Loads load.run load.pairs := by
  cases load with
  | view name source => exact Views.loads_register _ _ _
  | assets given => exact Views.loads_addAssets given
  | files root extension listing => exact Views.loads_addListing hproper hreadable

theorem readable_of_ok {load : Load} (hproper : load.Proper) {views left : Views}
    (hok : load.run views = .ok () left) : load.Readable := by
  cases load with
  | view | assets => trivial
  | files root extension listing => exact Views.readable_of_ok hproper hok

end Load

/-! ## What commands to a site leave in its store -/

namespace Site

/-- What is bound before is bound to the same source afterwards. -/
def ExtendsViews (s s' : Site) : Prop := Views.Extends s.views s'.views

instance : IsPreorder Site ExtendsViews where
  refl s := refl_of Views.Extends s.views
  trans _ _ _ hf hs := trans_of Views.Extends hf hs

/-- **No command but a removal takes a source away from its name**, also not one that fails. -/
theorem extendsViews_run {command : Command} (hremove : ∀ name, .removeView name ≠ command) :
    Keeps ExtendsViews command.run := by
  intro s
  have hparts : Parts Anything Views.Extends s (final command.run s) :=
    keeps_run_of_parts (fun _ => keeps_anything _) (fun _ _ => keeps_anything _)
      (fun _ => keeps_anything _) (keeps_anything _) (fun _ _ _ => keeps_anything _)
      (fun _ _ => keeps_anything _) Views.extends_register
      (fun name heq => absurd heq.symm (hremove name)) s
  exact hparts.views

end Site

open Site (Command)

/-- **Loading views depends neither on the order nor on how often, and overwrites nothing.** Assets are
loaded exactly if no name gets two sources, and then the store is the union. Loads with the same pairs,
in whatever order and however they are put together, leave the same store or fail alike, and so do a
folder and the assets in it. A load that has succeeded changes nothing when it is repeated, then or
later; and whatever a site is asked, removals apart, each name keeps its source. -/
theorem loading_eq_union :
    (∀ (views : Views) (assets : List (Text × Text)),
      ((∃ left, Views.addAssets assets views = .ok () left) ↔
          views.Consistent (assets.map Views.pairOf)) ∧
        ∀ left, Views.addAssets assets views = .ok () left →
          Views.IsUnion views (assets.map Views.pairOf) left) ∧
      (∀ loads loads' : List Load, (∀ load ∈ loads ++ loads', load.Proper ∧ load.Readable) →
        (∀ pair, pair ∈ loads.flatMap Load.pairs ↔ pair ∈ loads'.flatMap Load.pairs) →
        Views.SameOutcome (loads.forM Load.run) (loads'.forM Load.run)) ∧
      (∀ (root extension : Text) (entries : List (Text × FileTree)) (assets : List (Text × Text)),
        let tree := FileTree.folder entries
        (∀ entry ∈ entries, entry.1 ≠ []) → Listing.Readable extension tree.files →
        (∀ asset, asset ∈ Listing.assets extension tree.files ↔ asset ∈ assets) →
        Views.SameOutcome (Views.addFiles root extension (some tree)) (Views.addAssets assets)) ∧
      (∀ (load : Load) (views left : Views), load.Proper → load.run views = .ok () left →
        ∀ later, Views.Extends left later → load.run later = .ok () later) ∧
      ∀ (s : Site) (commands : List Command), (∀ name, .removeView name ∉ commands) →
        ∀ name source, s.views.find? name = some source →
          (after Command.run commands s).views.find? name = some source := by
  refine ⟨fun views assets => ?_, fun loads loads' hloads hpairs => ?_,
    fun root extension entries assets hentries hreadable hassets => ?_,
    fun load views left hproper hok later hlater => ?_, fun s commands hremove => ?_⟩
  · have hassets := Views.loads_addAssets assets
    exact ⟨hassets.ok_iff views, fun left hok => hassets.isUnion hok⟩
  · have hrun {loads : List Load} (h : ∀ load ∈ loads, load.Proper ∧ load.Readable) :
        Views.Loads (loads.forM Load.run) (loads.flatMap Load.pairs) :=
      .forM fun load hmem => Load.loads_run (h load hmem).1 (h load hmem).2
    exact (hrun fun load hmem => hloads load (List.mem_append_left _ hmem)).sameOutcome
      (hrun fun load hmem => hloads load (List.mem_append_right _ hmem)) hpairs
  · rw [Views.addFiles_some]
    refine (Views.loads_addListing (Listing.proper_folder hentries) hreadable).sameOutcome
      (Views.loads_addAssets assets) ?_
    intro pair
    simp only [List.mem_map, hassets]
  · exact (Load.loads_run hproper (Load.readable_of_ok hproper hok)).again hok hlater
  · have hkeeps : Site.ExtendsViews s (after Command.run commands s) :=
      keeps_after (fun command hmem =>
        Site.extendsViews_run fun name heq => hremove name (heq ▸ hmem)) s
    exact hkeeps

/-- A folder with a file of text and one that is none, which has another extension. The file of text is
loaded together with a view and again as an asset at another path with the same name; where that name
has another source, the folder fails alike. -/
theorem loading_eq_union_folder :
    let entries := [(['a'], FileTree.folder [("b.html".toList, .file "é".toUTF8)]),
      ("c.txt".toList, .file ⟨#[255]⟩)]
    let tree := FileTree.folder entries
    let first : Load := .assets [("./a\\b.x".toList, ['é']), (['c'], ['q'])]
    let loads : List Load := [first]
    let loads' : List Load :=
      [.view ['c'] ['q'], .files ['v'] "html".toList tree.files.reverse, .view "a.b".toList ['é']]
    let bound : Views := Table.empty.insert "a.b".toList ['x']
    let commands : List Command := [.addView ['c'] ['x'], .addFiles ['v'] tree none "txt".toList]
    (∀ load ∈ loads ++ loads', load.Proper ∧ load.Readable) ∧
      (∀ pair, pair ∈ loads.flatMap Load.pairs ↔ pair ∈ loads'.flatMap Load.pairs) ∧
      (∃ left, loads.forM Load.run .empty = .ok () left ∧ loads'.forM Load.run .empty = .ok () left ∧
        first.run left = .ok () left) ∧
      (∀ entry ∈ entries, entry.1 ≠ []) ∧ Listing.Readable "html".toList tree.files ∧
      (∃ e left, Views.addFiles ['v'] "html".toList (some tree) bound = .error e left) ∧
      (∃ e left, Views.addAssets [("a/b.html".toList, ['é'])] bound = .error e left) ∧
      (∀ name, .removeView name ∉ commands) ∧
      (after Command.run commands ⟨bound, .ofOptions {}⟩).views.find? "a.b".toList = some ['x'] := by
  intro entries tree first loads loads' bound commands
  obtain ⟨-, hloads, hfolder, hagain, hsite⟩ := loading_eq_union
  have hproper : ∀ load ∈ loads ++ loads', load.Proper ∧ load.Readable := by
    have hfiles : Listing.Proper tree.files.reverse := by decide
    have htext : Listing.Readable "html".toList tree.files.reverse := by decide +kernel
    simp only [loads, loads', first, List.cons_append, List.nil_append, List.forall_mem_cons]
    exact ⟨⟨trivial, trivial⟩, ⟨trivial, trivial⟩, ⟨hfiles, htext⟩, ⟨trivial, trivial⟩, nofun⟩
  have hpairs : ∀ pair, pair ∈ loads.flatMap Load.pairs ↔ pair ∈ loads'.flatMap Load.pairs := by
    have hfirst : loads.flatMap Load.pairs = [("a.b".toList, ['é']), (['c'], ['q'])] := by
      decide +kernel
    have hsecond : loads'.flatMap Load.pairs =
        [(['c'], ['q']), ("a.b".toList, ['é']), ("a.b".toList, ['é'])] := by
      decide +kernel
    intro pair
    simp [hfirst, hsecond, or_comm]
  have hok : answer (loads.forM Load.run) .empty = .ok () := by decide +kernel
  have hfails : answer (Views.addFiles ['v'] "html".toList (some tree)) bound ≠ .ok () := by
    decide +kernel
  have hremove : ∀ name, .removeView name ∉ commands := by simp [commands]
  refine ⟨hproper, hpairs, ?_, by decide, by decide +kernel, ?_⟩
  · rcases hloads loads loads' hproper hpairs .empty with ⟨left, hfirst, hsecond⟩ | ⟨⟨e, left, h⟩, -⟩
    · have hlone : (first.run >>= fun _ => pure ()) .empty = .ok () left := hfirst
      rw [bind_pure_unit] at hlone
      exact ⟨left, hfirst, hsecond,
        hagain first .empty left trivial hlone left (refl_of Views.Extends left)⟩
    · rw [answer_of_error h] at hok
      cases hok
  · have hassets : ∀ asset, asset ∈ Listing.assets "html".toList tree.files ↔
        asset ∈ [("a/b.html".toList, ['é'])] := by
      have hlist : Listing.assets "html".toList tree.files = [("a/b.html".toList, ['é'])] := by
        decide +kernel
      rw [hlist]
      exact fun _ => Iff.rfl
    rcases hfolder ['v'] "html".toList entries _ (by decide) (by decide +kernel) hassets bound with
      ⟨left, h, -⟩ | ⟨hfirst, hsecond⟩
    · exact absurd (answer_of_ok h) hfails
    · exact ⟨hfirst, hsecond, hremove, hsite _ commands hremove _ _ rfl⟩

end Stencil
