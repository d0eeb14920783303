/-!
# File names of templates
-/

set_option autoImplicit false

namespace TemplateColoring.FileName

/-- The endings of templates for markup. -/
def suffixes : List String :=
  [".xml", ".html", ".xhtml", ".htm", ".xml.ftl", ".html.ftl", ".xhtml.ftl", ".htm.ftl", ".ftlh",
    ".ftlx"]

/-- Whether a file name ends like that of a template for markup, in upper or lower case.  The
endings are ASCII, and no other character has a lower case among their letters, so only the case of
ASCII letters is looked at. -/
def isTemplate (name : List Char) : Bool :=
  let lower := name.map Char.toLower
  suffixes.any fun suffix => suffix.toList.isSuffixOf lower

/-- The components of a path, without those that name no step. -/
def componentsFrom (component : List Char) : List Char → List (List Char)
  | [] => [component.reverse]
  | c :: s =>
    if c == '/' then component.reverse :: componentsFrom [] s
    else componentsFrom (c :: component) s

/-- The steps of a path from directory to directory. -/
def components (path : List Char) : List (List Char) :=
  (componentsFrom [] path).filter fun c => !c.isEmpty && c != ['.']

/-- The name of the file at a path, unless the path ends in a step to the parent directory. -/
def ofPath? (path : List Char) : Option (List Char) :=
  match (components path).getLast? with
  | none => none
  | some name => if name = ['.', '.'] then none else some name

end TemplateColoring.FileName
