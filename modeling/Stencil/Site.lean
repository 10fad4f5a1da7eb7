import Stencil.Compiler.Command
import Stencil.Renderer
import Stencil.Views.Files

/-!
# Sites

A site is a renderer with the view store that it draws from. This module lists all that can be asked
of a site; a run of a site is a list of commands.
-/

namespace Stencil

structure Site where
  views : Views
  renderer : Renderer

namespace Site

inductive Command where
  | compiler (command : Compiler.Command)
  /-- Runs the steps of the host on a source, and nothing else. -/
  | runSteps (source : Text)
  /-- Puts a pair in force without recording it. -/
  | setHostTags (flavor : Flavor) (tags : Delims)
  | registerStep (step : Step)
  | render (name : Text) (params : Param)
  | renderSource (name source : Text) (params : Param)
  | forget (name : Text)
  | flush
  | showOptions
  | addView (name source : Text)
  | findView (name : Text)
  | removeView (name : Text)
  | addAssets (assets : List (Text × Text))
  /-- Adds the views in the files with an extension, from the place `below` a file tree that stands
  at `root`. -/
  | addFiles (root : Text) (tree : FileTree) (below : Option Text) (extension : Text)
  /-- The same for the extension among the options. -/
  | addViewFiles (root : Text) (tree : FileTree) (below : Option Text)

inductive Answer where
  | done
  | text (text : Text)
  /-- A source, if there is one. -/
  | found (source : Option Text)
  | stepNames (names : List Text)
  | options (options : Options)

/-- Why a site does not do what it is asked to do. -/
inductive Failure where
  | compiling (cause : Error)
  | loading (cause : LoadError)

/-- What a site does: it may fail, and the site it leaves is known in either case. -/
abbrev Action (α : Type) := EStateM Failure Site α

def onRenderer {α : Type} (action : Renderer.Action α) : Action α := fun site =>
  match action site.renderer with
  | .ok a r => .ok a { site with renderer := r }
  | .error e r => .error (.compiling e) { site with renderer := r }

def onViews (failure : LoadError → Failure) (action : EStateM LoadError Views Unit) :
    Action Answer := fun site =>
  match action site.views with
  | .ok _ views => .ok .done { site with views := views }
  | .error e views => .error (failure e) { site with views := views }

/-- Adds the views in files from a place below a tree. -/
def loadFiles (failure : LoadError → Failure) (root : Text) (tree : FileTree) (below : Option Text)
    (extension : Text) : Action Answer :=
  onViews failure <| match below with
  | none => Views.addFiles root extension (some tree)
  | some path => Views.addFiles (Views.joinPath root path) extension (tree.at? path)

def Command.run : Command → Action Answer
  | .compiler command => do
    match ← onRenderer (Renderer.onCompiler command.run) with
    | some text => return .text text
    | none => return .done
  | .runSteps source => .text <$> onRenderer (Renderer.onCompiler (Compiler.compileHost source))
  | .setHostTags flavor tags => do
    onRenderer (Renderer.onCompiler (Compiler.setHostTags flavor tags))
    return .done
  | .registerStep step => do
    onRenderer (Renderer.registerStep step)
    return .stepNames (← get).renderer.compiler.host.stepNames
  | .render name params => do
    return .text (← onRenderer (Renderer.render (← get).views name params))
  | .renderSource name source params => do
    return .text (← onRenderer (Renderer.renderSource (← get).views name source params))
  | .forget name => do onRenderer (Renderer.forget name); return .done
  | .flush => do onRenderer Renderer.flush; return .done
  | .showOptions => return .options (← get).renderer.options
  | .addView name source => onViews .loading (Views.add name source)
  | .findView name => return .found ((← get).views.find? name)
  | .removeView name => onViews .loading (Views.remove name)
  | .addAssets assets => onViews .loading (Views.addAssets assets)
  | .addFiles root tree below extension => loadFiles .loading root tree below extension
  | .addViewFiles root tree below => do
    loadFiles (fun e => .compiling (.load e)) root tree below (← get).renderer.options.viewExtension

end Site

end Stencil
