import TemplateColoring.Proofs.Region.Append
import TemplateColoring.Proofs.Token.Total

/-!
# Highlighting texts put together

Behind a text that ends closed the regions of what follows are the same as in a document of its
own. The tokens of a region depend on its kind and its text alone and move with it, so they are the
same too (`Template.highlight_append`).
-/

set_option autoImplicit false

namespace TemplateColoring

open Bytes Region TemplateColoring.Span

/-- A region with its tokens, moved to the right. -/
def Highlighted.moveBy (n : Nat) (h : Highlighted) : Highlighted :=
  ⟨h.region.moveBy n, h.tokens.map (Span.moveBy n)⟩

namespace Template

theorem toList_ofString_append (a b : String) : (ofString (a ++ b)).bytes.toList =
    (ofString a).bytes.toList ++ (ofString b).bytes.toList := by
  simp [ofString]

/-- **Behind a text that ends closed everything starts anew.** The regions of two texts put together
are those of the first and, moved, those of the second, and so are the tokens, if the first is
empty or its last region is closed. -/
theorem highlight_append (d : Dialect) (a b : String) (h : (ofString a).EndsClosed d) :
    (ofString (a ++ b)).regions d = (ofString a).regions d ++
        ((ofString b).regions d).map (Span.moveBy (ofString a).length) ∧
      (ofString (a ++ b)).highlight d = (ofString a).highlight d ++
        ((ofString b).highlight d).map (Highlighted.moveBy (ofString a).length) := by
  have hbytes := toList_ofString_append a b
  have hregions := regions_append h hbytes
  refine ⟨hregions, ?_⟩
  -- each region has the same text in both documents
  have hfront : ∀ r ∈ (ofString a).regions d,
      (ofString (a ++ b)).color d r = (ofString a).color d r := by
    intro r hr
    obtain ⟨x, y, z, hsplit, hstart, hlength, -⟩ := exists_parts_of_mem hr
    have hmem : r ∈ (ofString (a ++ b)).regions d := by
      rw [hregions]
      exact List.mem_append_left _ hr
    have hsplit' : (ofString (a ++ b)).bytes.toList =
        x ++ (y ++ (z ++ (ofString b).bytes.toList)) := by
      rw [hbytes, hsplit, List.append_assoc, List.append_assoc]
    rw [color_of_parts hr hsplit hstart hlength, color_of_parts hmem hsplit' hstart hlength]
  have hback : ∀ r ∈ (ofString b).regions d,
      (ofString (a ++ b)).color d (r.moveBy (ofString a).length) =
        ((ofString b).color d r).map (Span.moveBy (ofString a).length) := by
    intro r hr
    obtain ⟨x, y, z, hsplit, hstart, hlength, -⟩ := exists_parts_of_mem hr
    have hmem : r.moveBy (ofString a).length ∈ (ofString (a ++ b)).regions d := by
      rw [hregions]
      exact List.mem_append_right _ (List.mem_map_of_mem hr)
    have hsplit' : (ofString (a ++ b)).bytes.toList =
        ((ofString a).bytes.toList ++ x) ++ (y ++ z) := by
      rw [hbytes, hsplit, List.append_assoc]
    have hstart' : (r.moveBy (ofString a).length).start =
        ((ofString a).bytes.toList ++ x).length := by
      rw [List.length_append, Array.length_toList, Nat.add_comm]
      exact congrArg (· + (ofString a).length) hstart
    rw [color_of_parts hr hsplit hstart hlength, color_of_parts hmem hsplit' hstart' hlength]
    exact ((Coloring.ofRegion d r.kind).map_tokens (ofString a).length r.start y).symm
  calc (ofString (a ++ b)).highlight d
      = ((ofString a).regions d).map (fun r => ⟨r, (ofString (a ++ b)).color d r⟩) ++
          ((ofString b).regions d).map (fun r => ⟨r.moveBy (ofString a).length,
            (ofString (a ++ b)).color d (r.moveBy (ofString a).length)⟩) := by
        rw [highlight, hregions, List.map_append, List.map_map]
        rfl
    _ = (ofString a).highlight d ++
          ((ofString b).regions d).map (fun r => ⟨r.moveBy (ofString a).length,
            ((ofString b).color d r).map (Span.moveBy (ofString a).length)⟩) := by
        congr 1
        · exact List.map_congr_left fun r hr => by rw [hfront r hr]
        · exact List.map_congr_left fun r hr => by rw [hback r hr]
    _ = (ofString a).highlight d ++
          ((ofString b).highlight d).map (Highlighted.moveBy (ofString a).length) := by
        rw [highlight, highlight, List.map_map]
        rfl

/-- Behind the bracket of a macro call a bare name is plain text, as it is alone. -/
theorem highlight_append_macro : (ofString "a<@b/>").EndsClosed {} ∧
    (ofString ("a<@b/>" ++ "c>")).regions {} = (ofString "a<@b/>").regions {} ++
        ((ofString "c>").regions {}).map (Span.moveBy 6) ∧
      (ofString ("a<@b/>" ++ "c>")).highlight {} = (ofString "a<@b/>").highlight {} ++
        ((ofString "c>").highlight {}).map (Highlighted.moveBy 6) := by
  have hlast : ((ofString "a<@b/>").regions {}).getLast? = some ⟨.macroStart, 1, 5⟩ := by
    rw [regions_eq_scan]
    decide
  have hclosed : (ofString "a<@b/>").EndsClosed {} := by
    intro p hp
    rw [hlast] at hp
    obtain rfl := Option.some.inj hp
    exact ⟨⟨⟨.macroStart, .angle, 3⟩, 1⟩, by decide, by decide⟩
  exact ⟨hclosed, highlight_append {} "a<@b/>" "c>" hclosed⟩

end Template

end TemplateColoring
