import TemplateColoring.Recognition.FileName
import TemplateColoring.Recognition.Header

/-!
# Recognizing templates

A document is taken for a template of markup by its file name or, if that does not decide, by the
content type in its header comment.
-/

set_option autoImplicit false

namespace TemplateColoring

/-- Whether a document with a name, if it has one, and a content is a template of markup.  The
content is read only if the name does not decide. -/
def isMarkupTemplate (name : Option (List Char)) (content : Feed) : Bool :=
  name.any FileName.isTemplate || Header.declaresMarkup content

/-- What stands at a path. -/
inductive Stored
  | file (bytes : List UInt8)
  | directory
  | missing
deriving DecidableEq, Repr

/-- Whether what stands at a path is a template of markup.  The name decides for what is no file
too. -/
def isMarkupTemplateAt (path : List Char) (stored : Stored) : Bool :=
  let name := FileName.ofPath? path
  match stored with
  | .file bytes => isMarkupTemplate name (Feed.ofBytes bytes)
  | .directory | .missing => name.any FileName.isTemplate

end TemplateColoring
