import Stencil.Host.Recorder
import Stencil.Proofs.Segment.Reading
import Stencil.Proofs.Site.Independent
import Stencil.Proofs.Compiler.Failure
import Stencil.Proofs.Subview.Calls
import Stencil.Proofs.Site.Registration
import Stencil.Proofs.Site.Siblings
import Stencil.Proofs.Renderer.Params
import Stencil.Proofs.Segment.Lexical
import Stencil.Proofs.Node.Marks
import Stencil.Proofs.Subview.Places
import Stencil.Proofs.Subview.Interpolations
import Stencil.Proofs.Compiler.Growth
import Stencil.Proofs.Site.Revert
import Stencil.Proofs.Views.Bindings
import Stencil.Proofs.Views.Files
import Stencil.Proofs.Site.Loading
import Stencil.Proofs.Renderer.Rollback
import Stencil.Proofs.Compiler.Directives
import Stencil.Proofs.Compiler.Renewal
import Stencil.Proofs.Renderer.Depth
import Stencil.Proofs.Param.Refusals
import Stencil.Proofs.Param.Entries
import Stencil.Proofs.Param.Values
import Stencil.Proofs.Value.Lookup
import Stencil.Proofs.Views.Names
import Stencil.Proofs.Call.Form
