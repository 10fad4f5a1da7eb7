import Stencil.Compiler
import Stencil.Host.Pipeline
import Stencil.Node.Parser
import Stencil.Options
import Stencil.Page
import Stencil.Param
import Stencil.Views

/-!
# Renderers

A renderer compiles views, puts subviews in their places and fills in the parameters that it is
given. A subview is compiled with the tags that are in force when it is reached. Compiled views are
kept under their names, together with the source and the tags that they were compiled from and the
changes of tags that were made; when a kept view is used again, its changes are made again. The
parameters come in last: what a renderer does to its own state does not depend on them.
-/

namespace Stencil

/-- A compiled view that is kept. -/
structure CachedView where
  nodes : List Node
  source : Text
  /-- The tags in force before the view was compiled. -/
  before : Tags
  /-- The pairs put in force for the view, those for plain tags first. -/
  pushed : List (Flavor × Delims)
deriving DecidableEq, Repr

/-- A compiler over a pipeline, with the views that it has compiled. -/
structure Renderer where
  compiler : Compiler Pipeline
  options : Options
  cache : Table CachedView

namespace Renderer

/-- What a renderer does: it may fail, and the renderer it leaves is known in either case. -/
abbrev Action (α : Type) := EStateM Error Renderer α

def ofOptions (options : Options) : Renderer where
  compiler := .ofHost (.ofTags options.tags) options.keywords
  options := options
  cache := .empty

def onCompiler {α : Type} (action : Compiler.Action Pipeline α) : Action α := fun r =>
  match action r.compiler with
  | .ok a c => .ok a { r with compiler := c }
  | .error e c => .error e { r with compiler := c }

def registerStep (step : Step) : Action Unit :=
  modify fun r => { r with compiler.host := r.compiler.host.register step }

/-! ## Compiling views -/

/-- The kept view of a name, if it was compiled from this source and with the tags in force. Source
and tags are compared themselves. A fingerprint may be kept in their place; that no two of them collide
is then taken for granted. -/
def cached? (r : Renderer) (name source : Text) : Option CachedView :=
  (r.cache.find? name).filter fun view => view.source = source ∧ view.before = r.compiler.tags

/-- The pairs on the histories that were not there at an earlier time, those for plain tags
first. -/
def pushedSince (start r : Renderer) : List (Flavor × Delims) :=
  [Flavor.plain, Flavor.escaped].flatMap fun flavor =>
    ((r.compiler.histories.get flavor).above (start.compiler.histories.get flavor).size).map
      (flavor, ·)

/-- Compiles a view and keeps it. -/
def compileFresh (name source : Text) : Action (List Node) := do
  let start ← get
  let nodes := Node.ofCompiled (← onCompiler (Compiler.compile source))
  modify fun r => { r with
    cache := r.cache.insert name ⟨nodes, source, start.compiler.tags, pushedSince start r⟩ }
  return nodes

/-- The nodes of a view, from the views that are kept if it is among them. -/
def compileView (name source : Text) : Action (List Node) := do
  onCompiler Compiler.applyRevert
  let r ← get
  if r.options.cacheEnabled then
    match r.cached? name source with
    | some view =>
      view.pushed.forM fun (flavor, tags) => onCompiler (Compiler.pushTags flavor tags)
      return view.nodes
    | none => compileFresh name source
  else
    return Node.ofCompiled (← onCompiler (Compiler.compile source))

def forget (name : Text) : Action Unit := modify fun r => { r with cache := r.cache.erase name }

def flush : Action Unit := modify fun r => { r with cache := .empty }

/-! ## Rendering -/

/-- The page of some nodes, with `subview` for the calls of subviews. -/
def expand (subview : Text → Action Page) : List Node → Action Page
  | [] => return []
  | .text s :: nodes => return .text s :: (← expand subview nodes)
  | .echo flavor expr :: nodes => return .echo flavor expr :: (← expand subview nodes)
  | .subview name :: nodes => do
    let part ← subview name
    return part ++ (← expand subview nodes)

/-- The page of a subview where `levels` more levels of subviews are allowed. -/
def expandSubview (views : Views) : (levels : Nat) → (name : Text) → Action Page
  | 0, name => do
    throw (.render (.tooDeep (← get).options.maxIncludeDepth name))
  | levels + 1, name =>
    match views.find? name with
    | none => throw (.viewNotFound name)
    | some source => do
      let nodes ← compileView name source
      expand (expandSubview views levels) nodes

/-- The page of a source, which is kept under a name. -/
def page (views : Views) (name source : Text) : Action Page := do
  let r ← get
  if r.options.revertPerView then onCompiler (Compiler.requestRevert true)
  let nodes ← compileView name source
  expand (expandSubview views r.options.maxIncludeDepth) nodes

/-- Renders a source, which is kept under a name. -/
def renderSource (views : Views) (name source : Text) (params : Param) : Action Text :=
  match params.toValue with
  | .error e => throw (.param e)
  | .ok root => Page.fill root <$> page views name source

def render (views : Views) (name : Text) (params : Param) : Action Text :=
  match views.find? name with
  | none => throw (.viewNotFound name)
  | some source => renderSource views name source params

end Renderer

end Stencil
