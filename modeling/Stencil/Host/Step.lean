import Stencil.Error
import Stencil.Segment
import Stencil.Subview

/-!
# Steps

A step is one pass of a host over a text, under the tags in force. Two steps are always there: one
compiles interpolations, the other one calls of subviews. The others of this module are building
blocks for hosts.
-/

namespace Stencil

/-- A pass over a text. It is known by its name. -/
structure Step where
  name : Text
  run : Tags → Text → Except Error Text

namespace Step

def echos : Step := ⟨"echos".toList, fun tags s => .ok (Segment.compileEchos tags s)⟩

/-- Compiles the calls of subviews. It has to come after `echos`, which doubles the hash signs of
the text that it is given. -/
def includes : Step := ⟨"includes".toList, fun _ s => .ok (Subview.compileCalls s)⟩

def replace (name old new : Text) : Step := ⟨name, fun _ s => .ok (Text.replace old new s)⟩

def constant (name text : Text) : Step := ⟨name, fun _ _ => .ok text⟩

def wrap (name before after : Text) : Step := ⟨name, fun _ s => .ok (before ++ s ++ after)⟩

/-- Puts the tags in force after the text. -/
def showTags (name : Text) : Step :=
  ⟨name, fun tags s => .ok (s ++ '|' :: tags.plain.text ++ '|' :: tags.escaped.text)⟩

/-- Fails on a text with a given part in it. -/
def failIf (name part message : Text) : Step :=
  ⟨name, fun _ s => if Text.contains part s then .error (.step message) else .ok s⟩

end Step

end Stencil
