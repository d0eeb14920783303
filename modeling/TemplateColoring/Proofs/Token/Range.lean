import TemplateColoring.Proofs.Region.Contract
import TemplateColoring.Proofs.Token.Paint

/-!
# Both passes stay in range

A template is divided into regions, and every region is painted. On the way places are added and
subtracted, and a lexer counts the brackets that are open in 32 bits. It opens a bracket only where
it passes a byte, so a template of fewer than `2 ^ 32` bytes has too few of them to count wrong, and
this is the only number that could be too large: every place is a place in the template, and what is
subtracted lies behind what it is subtracted from.
-/

set_option autoImplicit false

namespace TemplateColoring

open TemplateColoring.Span

/-! ## Lexers -/

namespace Lexer

variable {l l' : Lexer}

/-- A lexer that has no more brackets and bytes than it can count brackets does not fail. -/
theorem exists_next? (hdepth : l.depth + l.cursor.left ≤ maxDepth) :
    ∃ next?, l.next? = .ok next? := by
  by_cases hclosed : l.closed = true
  · exact ⟨none, next?_of_closed hclosed⟩
  cases hitem : Expression.itemAt? l.terminator l.depth l.cursor.ahead with
  | none => exact ⟨none, next?_of_none hitem⟩
  | some found =>
      have hreads := Expression.reads_of_itemAt? hitem
      have hbounds := hreads.bounds
      rw [Cursor.length_ahead] at hbounds
      exact ⟨_, (next?_agrees (Bool.eq_false_iff.mpr hclosed) hreads).eq_of_le (by omega)⟩

/-- A lexer that starts with no bracket open never has more open than it passed bytes. -/
theorem Reaches.depth_le_passed (h : l.Reaches l') (hw : l.cursor.Within) (hdepth : l.depth = 0) :
    l'.depth + l.cursor.position ≤ l'.cursor.position ∧ l'.cursor.position ≤ l.cursor.limit := by
  obtain ⟨hleads, hle⟩ := h.depth_le
  have hbounds := hleads.position_bounds hw
  simp only [Cursor.left, hleads.limit] at hle
  omega

end Lexer

/-! ## Sweeps -/

theorem Sweep.Sound.exists_step? {rules : List RegionKind} {d : Dialect} {s : Sweep}
    (hs : s.Sound rules d) (hsize : s.cursor.limit ≤ Lexer.maxDepth) :
    ∃ move?, s.step? rules d = .ok move? := by
  obtain ⟨move?, hmove, -⟩ := exists_of_map_eq_ok (hs.step?_agrees.eq_of_le hsize)
  exact ⟨move?, hmove⟩

namespace Template

variable {t : Template} {d : Dialect} {s s' : Sweep}

/-- All sweeps of a template go through its bytes. -/
theorem Begins.limit (h : t.Begins d s) : s.cursor.limit = t.length := by
  cases h with
  | start => rfl
  | takenUp h => exact Sweep.limit_of_resume? h

/-! ## Painting regions -/

theorem stop_le_of_mem_color {r : Region} {p : Token} (hp : p ∈ t.color d r) : p.stop ≤ r.stop := by
  unfold color at hp
  split at hp
  · next text hslice =>
    have htiles := (Coloring.ofRegion d r.kind).tiles_tokens r.start text
    have hbounds := htiles.bounds hp
    have hlength := length_of_slice? hslice
    omega
  · obtain rfl := List.mem_singleton.mp hp
    exact Nat.le_refl _

/-- **Highlighting gives the regions with their tokens**, unless more brackets are open than can be
counted. -/
theorem highlight?_agrees (t : Template) (d : Dialect) :
    Lexer.Agrees t.length (t.highlight? d) (.ok (t.highlight d)) := by
  have hpaint (r : Region) (hr : r ∈ t.regions d) : Lexer.Agrees t.length
      ((t.paint? d r).map fun tokens => (⟨r, tokens⟩ : Highlighted)) (.ok ⟨r, t.color d r⟩) := by
    have hstop := ((RegionMap.tiles_regions d t).bounds hr).2.2
    by_cases hmax : r.stop ≤ Offset.max
    · exact (t.paint?_agrees d hmax).map _
    · -- the region has no offset for its end, and is in a template of so many bytes
      have hlarge := Lexer.maxDepth_le_max
      have hfault : r.stop? = .error .tooLarge := if_neg hmax
      rw [paint?, hfault]
      exact .tooLarge (by omega)
  have hmap : (.ok (t.regions d) >>= fun regions => regions.mapM fun r => .ok ⟨r, t.color d r⟩) =
      (.ok (t.highlight d) : Except Offset.Fault _) := mapM_eq_ok fun _ _ => rfl
  refine ((t.divide?_agrees d).bind fun regions hregions => ?_).trans (.of_eq hmap)
  obtain rfl := Except.ok.inj hregions
  exact .mapM hpaint

/-- Whatever highlighting gives, these are the regions of the template with their tokens. -/
theorem eq_highlight_of_highlight? {found : List Highlighted} (h : t.highlight? d = .ok found) :
    found = t.highlight d :=
  (t.highlight?_agrees d).eq_of_ok h

/-! ## All numbers -/

/-- **No number leaves its range** while a template is divided and its regions are painted. -/
structure InRange (t : Template) (d : Dialect) : Prop where
  /-- Dividing the template does not fail, and no region ends behind the template. -/
  divide : t.divide? d = .ok (t.regions d) ∧ ∀ r ∈ t.regions d, r.stop ≤ t.length
  /-- Painting a span of the template does not fail, and no token ends behind the span. -/
  paint : ∀ r : Region, r.stop ≤ t.length →
    t.paint? d r = .ok (t.color d r) ∧ ∀ p ∈ t.color d r, p.stop ≤ r.stop
  /-- Doing both does not fail. -/
  highlight : t.highlight? d = .ok (t.highlight d)
  /-- A scan can be taken up anywhere. -/
  takeUp : ∀ r, ∃ s, t.sweepFrom? d r = .ok s
  /-- No move of any scan fails, and the text that is pending starts in front of the cursor. -/
  move : ∀ s s', t.Begins d s → Sweep.Reaches d.rules d s s' →
    (∃ move?, s'.step? d.rules d = .ok move?) ∧ ∀ start ∈ s'.pending, start ≤ s'.cursor.position
  /-- A lexer that starts anywhere in the template or in a part of it never fails, stays in what it
  reads, and has at most as many brackets open as it passed bytes. -/
  lex : ∀ (bytes : Array UInt8) (offset : Nat) (terminator : Expression.Terminator) (l : Lexer),
    bytes.size ≤ t.length →
    Lexer.Reaches { cursor := .ofOffset bytes offset, terminator } l →
    (∃ next?, l.next? = .ok next?) ∧
      l.depth + min offset bytes.size ≤ l.cursor.position ∧ l.cursor.position ≤ bytes.size

/-- **A template of fewer than `2 ^ 32` bytes keeps all numbers in their range**, in every
dialect. -/
theorem inRange (t : Template) (d : Dialect) (h : t.length < 0x100000000) : t.InRange d := by
  have hsize : t.length ≤ Lexer.maxDepth := Nat.le_of_lt_succ h
  constructor
  case divide =>
    exact ⟨t.divide?_eq d hsize, fun r hr => ((RegionMap.tiles_regions d t).bounds hr).2.2⟩
  case paint => exact fun r hr => ⟨t.paint?_eq d hsize hr, fun p hp => stop_le_of_mem_color hp⟩
  case highlight => exact (t.highlight?_agrees d).eq_of_le hsize
  case takeUp =>
    intro r
    obtain ⟨s, hsweep, -⟩ := t.exists_sweepFrom? d r
    exact ⟨s, hsweep⟩
  case move =>
    intro s s' hbegins hreaches
    have hsound := hbegins.sound.of_reaches hreaches
    have hlimit : s'.cursor.limit ≤ Lexer.maxDepth := by
      rwa [Sweep.limit_of_reaches hreaches, hbegins.limit]
    exact ⟨hsound.exists_step? hlimit, hsound.pending⟩
  case lex =>
    intro bytes offset terminator l hbytes hreaches
    have hw : (Cursor.ofOffset bytes offset).Within := Cursor.within_moveTo _ _
    obtain ⟨hleads, hdepth⟩ := hreaches.depth_le
    have hleft : (Cursor.ofOffset bytes offset).left ≤ bytes.size := Nat.sub_le _ _
    have hcount : l.depth + l.cursor.left ≤ Lexer.maxDepth := by
      simp only [Nat.zero_add] at hdepth
      omega
    exact ⟨Lexer.exists_next? hcount, hreaches.depth_le_passed hw rfl⟩

/-- Brackets that are open at the end of the template. -/
theorem inRange_open_brackets : (ofString "a<@m (b[1").length < 0x100000000 ∧
    (ofString "a<@m (b[1").highlight? {} = .ok [
      ⟨⟨.plain, 0, 1⟩, [⟨.text, 0, 1⟩]⟩,
      ⟨⟨.macroStart, 1, 8⟩,
        [⟨.macroCall, 1, 3⟩, ⟨.other, 4, 2⟩, ⟨.variable, 6, 1⟩, ⟨.other, 7, 2⟩]⟩] := by
  have hlength : (ofString "a<@m (b[1").length < 0x100000000 := by decide
  refine ⟨hlength, (inRange _ {} hlength).highlight.trans (congrArg Except.ok ?_)⟩
  decide +kernel

end Template

end TemplateColoring
