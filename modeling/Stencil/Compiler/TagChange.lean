import Stencil.Error

/-!
# Changes of tags

The arguments of a directive ask for a pair of tags: an opening tag, a closing tag, and optionally a
truth value that says whether the pair is for escaped interpolations.
-/

namespace Stencil

/-- A pair of tags, and the flavor that it is for. -/
structure TagChange where
  flavor : Flavor
  tags : Delims
deriving DecidableEq, Repr

namespace TagChange

/-- The truth value of a word, in any mixture of capitals and small letters. -/
def truth (word : Text) : Except TagError Bool :=
  let word := Text.lower (Text.trim word)
  if word ∈ ["true".toList, "1".toList, "yes".toList] then .ok true
  else if word ∈ ["false".toList, "0".toList, "no".toList] then .ok false
  else .error (.flag word)

/-- The change that the arguments of a directive for `flavor` ask for. A third argument that is true
makes it one for the escaped flavor. -/
def ofArgs (flavor : Flavor) : (args : List Text) → Except TagError TagChange
  | [opening, closing] => .ok ⟨flavor, ⟨opening, closing⟩⟩
  | [opening, closing, word] =>
    (truth word).map fun escaped => ⟨if escaped then .escaped else flavor, ⟨opening, closing⟩⟩
  | args => .error (.argumentCount args.length)

end TagChange

end Stencil
