import Stencil.Host
import Stencil.Text

/-!
# Recorders

A recorder is a host that keeps a record of the pairs it is asked to put in force. It refuses some
pairs, or all pairs after some number of them. Its compiled text is the source between angle
brackets.
-/

namespace Stencil

structure Request where
  flavor : Flavor
  tags : Delims
  accepted : Bool
deriving DecidableEq, Repr

/-- A host that records the requests made to it. -/
structure Recorder where
  tags : Tags
  /-- The opening tags of the pairs that are refused. -/
  refused : List Text := []
  /-- How many requests are accepted at most. -/
  limit : Option Nat := none
  /-- The text on which compiling fails where it occurs. -/
  failOn : Option Text := none
  /-- The requests so far, the oldest first. -/
  requests : List Request := []
deriving DecidableEq, Repr

namespace Recorder

/-- Whether a pair would be put in force now. -/
def accepts (r : Recorder) (tags : Delims) : Bool :=
  r.limit.all (r.requests.countP (·.accepted) < ·) && !r.refused.contains tags.opening

/-- Records a request, and puts the pair in force if it is accepted. -/
def setTags (flavor : Flavor) (tags : Delims) : EStateM Error Recorder Unit := fun r =>
  let accepted := r.accepts tags
  let requests := r.requests ++ [⟨flavor, tags, accepted⟩]
  if accepted then .ok () { r with tags := r.tags.set flavor tags, requests := requests }
  else .error (.tags (.refused tags)) { r with requests := requests }

/-- The source between angle brackets. -/
def compile (r : Recorder) (source : Text) : Except Error Text :=
  match r.failOn with
  | none => .ok ('<' :: source ++ ['>'])
  | some part =>
    if Text.contains part source then .error (.render (.hostFailure part))
    else .ok ('<' :: source ++ ['>'])

instance : Host Recorder where
  tags := Recorder.tags
  setTags := setTags
  compile := compile

end Recorder

end Stencil
