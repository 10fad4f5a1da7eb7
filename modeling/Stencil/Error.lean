import Stencil.Tags

/-!
# Errors

What can go wrong, by cause. The wording of each cause stands in one function of this module, and
`Error.message` puts the kind of the error before it.
-/

namespace Stencil

/-- Why tags were not changed. -/
inductive TagError where
  /-- A directive has neither two nor three arguments. -/
  | argumentCount (count : Nat)
  /-- The third argument of a directive is no truth value. -/
  | flag (word : Text)
  | emptyTag (flavor : Flavor) (tags : Delims)
  | refused (tags : Delims)
deriving DecidableEq, Repr

/-- Why a view was not rendered. -/
inductive RenderError where
  /-- Views are nested deeper than the limit. -/
  | tooDeep (limit : Nat) (name : Text)
  /-- The host fails on sources that contain a text. -/
  | hostFailure (part : Text)
deriving DecidableEq, Repr

/-- Why parameters are no value. -/
inductive ParamError where
  | bytes
  | tupleVariant (name : Text)
  | structVariant (name : Text)
  /-- An integer of 128 bits; the type is named as in the message. -/
  | wideInteger (type : Text)
  /-- A key of a map that is no name. -/
  | mapKey
  /-- A value in a map with no key that it belongs to. -/
  | valueWithoutKey
  /-- The parameters themselves fail with a message. -/
  | custom (message : Text)
deriving DecidableEq, Repr

/-- Why views were not loaded. -/
inductive LoadError where
  | duplicate (name : Text)
  /-- An asset gives a name that is bound to another content. -/
  | duplicateAsset (path name : Text)
  /-- A file gives a name that is bound to another content. -/
  | duplicateFile (path name : Text)
  /-- A file is not in UTF-8. -/
  | encoding (path : Text)
deriving DecidableEq, Repr

/-- The causes for which a compilation or a rendering fails. -/
inductive Error where
  /-- A step of the host fails with a message of its own. -/
  | step (message : Text)
  | load (cause : LoadError)
  | tags (cause : TagError)
  | viewNotFound (name : Text)
  | render (cause : RenderError)
  | param (cause : ParamError)
deriving DecidableEq, Repr

/-! ## Wording -/

def TagError.message : TagError → Text
  | .argumentCount count => "expected 2 or 3 arguments, got ".toList ++ Text.ofNat count
  | .flag word => "escaped flag must be a boolean, got ".toList ++ Text.inQuotes word
  | .emptyTag flavor tags =>
    flavor.name ++ " tags must not be empty, got ".toList ++ Text.inQuotes tags.opening ++
      " and ".toList ++ Text.inQuotes tags.closing
  | .refused tags => "host rejects ".toList ++ tags.text

def RenderError.message : RenderError → Text
  | .tooDeep limit name =>
    "include depth exceeded ".toList ++ Text.ofNat limit ++ " while including ".toList ++
      Text.inQuotes name
  | .hostFailure part => "host fails on ".toList ++ part

def ParamError.message : ParamError → Text
  | .bytes => "byte string cannot be used as a view parameter".toList
  | .tupleVariant name =>
    "tuple variant ".toList ++ Text.inQuotes name ++ " cannot be used as a view parameter".toList
  | .structVariant name =>
    "struct variant ".toList ++ Text.inQuotes name ++ " cannot be used as a view parameter".toList
  | .wideInteger type => type ++ " is not supported".toList
  | .mapKey => "map key must be a string or an integer".toList
  | .valueWithoutKey => "map value without a key".toList
  | .custom message => message

def LoadError.message : LoadError → Text
  | .duplicate name => "发现重复的视图名: ".toList ++ Text.inQuotes name
  | .duplicateAsset path name =>
    "加载视图资源失败: ".toList ++ path ++ ": 发现重复的视图名: ".toList ++ Text.inQuotes name
  | .duplicateFile path name =>
    "加载视图失败: ".toList ++ path ++ ": 发现重复的视图名: ".toList ++ Text.inQuotes name
  | .encoding path =>
    "读取文件失败: ".toList ++ path ++ ": stream did not contain valid UTF-8".toList

/-- The full text of an error: what kind of error it is, and its cause. -/
def Error.message : Error → Text
  | .step message => "General error: ".toList ++ message
  | .load cause => "General error: ".toList ++ cause.message
  | .tags cause => "Invalid content tags: ".toList ++ cause.message
  | .viewNotFound name => "View not found: ".toList ++ name
  | .render cause => "Render error: ".toList ++ cause.message
  | .param cause => "Value error: ".toList ++ cause.message

end Stencil
