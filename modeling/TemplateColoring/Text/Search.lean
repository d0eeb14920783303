/-!
# Searching in texts
-/

set_option autoImplicit false

namespace TemplateColoring.Text

/-- What stands in front of the first place of `needle` in a text. -/
def before? (needle : List Char) : List Char → Option (List Char)
  | [] => if needle.isEmpty then some [] else none
  | c :: s =>
    if needle.isPrefixOf (c :: s) then some []
    else (before? needle s).map (c :: ·)

/-- Whether `needle` stands somewhere in a text. -/
def holds (needle s : List Char) : Bool := (before? needle s).isSome

end TemplateColoring.Text
