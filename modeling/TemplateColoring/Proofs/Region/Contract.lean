import TemplateColoring.Proofs.Region.Sweep

/-!
# Rules keep their contract

A scan relies on its rules: an opener that is found starts at the cursor and has bytes, and an end
that is found is not in front of the place from which it was sought. The scan still has an answer
to a rule that breaks this, which is to drop the opener and to try no rule at its place for once.
Rules never break it, at no cursor and for no opener, so no scan gives this answer.
-/

set_option autoImplicit false

namespace TemplateColoring

/-- An end that may be found from a cursor: it is not in front of the cursor, it is in the document,
and the cursor is left there. -/
def Closing.Behind (c : Cursor) (closing : Closing) (c' : Cursor) : Prop :=
  c.position ≤ closing.stop ∧ closing.stop ≤ c.limit ∧ c'.position = closing.stop

namespace Cursor

variable {c c' : Cursor} {d : Dialect} {kind : RegionKind} {o : Opener}

theorem behind_of_readCloser? {closing : Closing} (hw : c.Within)
    (h : c.readCloser? d kind o = .ok (closing, c')) : closing.Behind c c' := by
  obtain ⟨hstop, hleads⟩ := leadsTo_of_readCloser? h
  obtain ⟨hge, hle⟩ := hleads.position_bounds hw
  exact ⟨hstop ▸ hge, hstop ▸ hle, hstop.symm⟩

/-- A rule finds an end where the brackets ahead can be counted. -/
theorem exists_readCloser? (hw : c.Within) (hleft : c.left ≤ Lexer.maxDepth) (d : Dialect)
    (kind : RegionKind) (o : Opener) :
    ∃ closing c', c.readCloser? d kind o = .ok (closing, c') ∧ closing.Behind c c' := by
  have hread := (readCloser?_agrees hw d kind o).eq_of_le hleft
  exact ⟨_, _, hread, behind_of_readCloser? hw hread⟩

end Cursor

/-- The sweeps with which scans of a template begin: at its start, or where one is taken up. -/
inductive Template.Begins (t : Template) (d : Dialect) : Sweep → Prop
  | start : Begins t d (.start t.bytes)
  | takenUp {r : Restart} {s : Sweep} : t.sweepFrom? d r = .ok s → Begins t d s

theorem Template.Begins.sound {t : Template} {d : Dialect} {s : Sweep} (h : t.Begins d s) :
    s.Sound d.rules d := by
  cases h with
  | start => exact Sweep.sound_start _ _ _
  | takenUp h => exact Sweep.sound_of_resume? (Cursor.within_moveTo _ _) h

/-- **Rules keep their contract.** At every cursor of every template

* a rule that looks for an opener gives an answer, and an opener that it finds is of its kind,
  starts at the cursor, has bytes, and ends in the document;
* a rule that looks for the end of a region, be the opener of its own kind or not, finds one that is
  not in front of the cursor and in the document, and leaves the cursor there.  It fails only where
  more brackets may be open than it can count, so that it finds an end everywhere in a template of
  fewer than `2 ^ 32` bytes.

So in no scan a region is dropped for want of an end, and no place is ever suppressed. -/
theorem rules_contract (t : Template) (d : Dialect) :
    (∀ offset kind, ∃ o?, (Cursor.ofOffset t.bytes offset).readOpener? d kind = .ok o? ∧
      ∀ o ∈ o?, o.kind = kind ∧ o.start = min offset t.length ∧ 0 < o.length ∧
        o.start + o.length ≤ t.length) ∧
    (∀ offset kind o,
      let c := Cursor.ofOffset t.bytes offset
      (∀ closing c', c.readCloser? d kind o = .ok (closing, c') → closing.Behind c c') ∧
        (∀ e, c.readCloser? d kind o = .error e → e = .tooLarge ∧ Lexer.maxDepth < c.left) ∧
        (t.length < 0x100000000 →
          ∃ closing c', c.readCloser? d kind o = .ok (closing, c') ∧ closing.Behind c c')) ∧
    ∀ s s', t.Begins d s → Sweep.Reaches d.rules d s s' →
      s'.suppressed = none ∧ ∀ o, s'.phase = .inside o → s'.close? d.rules d o ≠ .ok none := by
  refine ⟨fun offset kind => ?_, fun offset kind o => ?_, fun s s' hbegins hreaches => ?_⟩
  · have hw : (Cursor.ofOffset t.bytes offset).Within := Cursor.within_moveTo _ _
    have hread := Cursor.readOpener?_eq hw d kind
    refine ⟨_, hread, fun o ho => ?_⟩
    obtain ⟨hkind, hstart, hpos, hlen⟩ :=
      Cursor.bounds_of_readOpener? hw (hread.trans (congrArg Except.ok ho))
    refine ⟨hkind, hstart, hpos, ?_⟩
    simp only [Cursor.Within, Cursor.left] at hw hlen
    show o.start + o.length ≤ (Cursor.ofOffset t.bytes offset).limit
    omega
  · have hw : (Cursor.ofOffset t.bytes offset).Within := Cursor.within_moveTo _ _
    have hleft : (Cursor.ofOffset t.bytes offset).left ≤ t.length := Nat.sub_le _ _
    refine ⟨fun _ _ => Cursor.behind_of_readCloser? hw,
      fun _ => (Cursor.readCloser?_agrees hw d kind o).of_error, fun hsize => ?_⟩
    exact Cursor.exists_readCloser? hw (Nat.le_trans hleft (Nat.le_of_lt_succ hsize)) d kind o
  · have hsound := hbegins.sound.of_reaches hreaches
    exact ⟨hsound.suppressed, fun o ho => hsound.close?_ne_none ho⟩

/-- The rule for host tags is asked for the end of an interpolation, in the middle of a letter. -/
theorem rules_contract_foreign : (Template.ofString "é${a}>b").length < 0x100000000 ∧
    ∃ closing c', (Cursor.ofOffset (Template.ofString "é${a}>b").bytes 1).readCloser? {} .markupTag
        Cursor.unclosedOpener = .ok (closing, c') ∧
      closing.Behind (.ofOffset (Template.ofString "é${a}>b").bytes 1) c' := by
  have hsize : (Template.ofString "é${a}>b").length < 0x100000000 := by decide
  obtain ⟨-, hcloser, -⟩ := rules_contract (Template.ofString "é${a}>b") {}
  exact ⟨hsize, (hcloser 1 .markupTag Cursor.unclosedOpener).2.2 hsize⟩

/-- The rule for interpolations finds an opener in front of `2 ^ 32` brackets, and no end behind
it. -/
theorem rules_contract_unclosed :
    (Cursor.start (Template.ofString (unclosed 0x100000000)).bytes).readOpenerBy? (Dialect.rules {})
        {} = .ok (some Cursor.unclosedOpener) ∧
      ∀ closing c', (Cursor.ofOffset (Template.ofString (unclosed 0x100000000)).bytes 2).readCloser?
        {} .interpolation Cursor.unclosedOpener ≠ .ok (closing, c') := by
  refine ⟨Cursor.readOpenerBy?_unclosed _, fun closing c' h => ?_⟩
  rw [Cursor.readCloser?_unclosed (by decide)] at h
  exact absurd h (by simp)

end TemplateColoring
