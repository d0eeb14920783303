import TemplateColoring.Region.Restart
import TemplateColoring.Region.Rule

/-!
# Sweeps

A sweep is a scanner with a cursor in its document.  It makes the moves of `Scanner` and computes
the places and lengths of the regions from offsets, so that a move may fail where a difference is
negative, a sum is no offset, or a rule fails.  A failure ends the sweep.
-/

set_option autoImplicit false

namespace TemplateColoring

namespace Sweep

/-- What a sweep is about to do. -/
inductive Phase
  /-- It searches for an opener. -/
  | searching
  /-- It has found an opener, and is to find the end of the region. -/
  | inside (o : Opener)
deriving DecidableEq, Repr

end Sweep

/-- A scan of a document on its way. -/
structure Sweep where
  cursor : Cursor
  phase : Sweep.Phase := .searching
  /-- Where the plain text starts that is passed and not given out yet. -/
  pending : Option Nat := none
  /-- Where no rule is tried, for once, as the region that opens there was found to have no end. -/
  suppressed : Option Nat := none
deriving DecidableEq, Repr

namespace Sweep

open Region

/-- The plain text that is pending, up to the cursor. -/
def plain? (s : Sweep) : Except Offset.Fault (Option Region) :=
  match s.pending with
  | some start => (Offset.sub s.cursor.position start).map fun length => some ⟨.plain, start, length⟩
  | none => .ok none

/-- The region behind an opener, and the sweep at its end.  There is none without a rule for its
kind, or if the rule's end is not behind the start or is in front of the opener's end. -/
def close? (rules : List RegionKind) (d : Dialect) (s : Sweep) (o : Opener) :
    Except Offset.Fault (Option (Region × Sweep)) :=
  if o.kind ∈ rules then do
    let inner ← o.stop?
    let (closing, _) ← (s.cursor.moveTo inner).readCloser? d o.kind o
    if closing.stop ≤ o.start ∨ closing.stop < inner then .ok none
    else do
      let length ← Offset.sub closing.stop o.start
      .ok (some (⟨o.kind, o.start, length⟩,
        { s with cursor := s.cursor.moveTo closing.stop, phase := .searching }))
  else .ok none

/-- The opener at the sweep, unless rules are not to be tried there. -/
def opener? (rules : List RegionKind) (d : Dialect) (s : Sweep) :
    Except Offset.Fault (Option Opener) :=
  if s.suppressed = some s.cursor.position then .ok none else s.cursor.readOpenerBy? rules d

/-- One move of a sweep: the region that it gives out, if any, and the sweep behind it.  There is
no move once everything is given out. -/
def step? (rules : List RegionKind) (d : Dialect) (s : Sweep) :
    Except Offset.Fault (Option (Option Region × Sweep)) :=
  match s.phase with
  | .inside o =>
    (s.close? rules d o).map fun
      | some (r, s) => some (some r, s)
      | none => some (none, { s with
          cursor := s.cursor.moveTo o.start, phase := .searching, suppressed := some o.start })
  | .searching =>
    if s.cursor.isAtEnd then
      s.plain?.map fun
        | some r => some (some r, { s with pending := none })
        | none => none
    else do
      match ← s.opener? rules d with
      | some o =>
        s.plain?.map fun r? =>
          some (r?, { s with phase := .inside o, pending := none, suppressed := none })
      | none =>
        .ok (some (none, { s with
          cursor := s.cursor.advanceChar
          pending := some (s.pending.getD s.cursor.position), suppressed := none }))

/-! ## Every move makes progress -/

/-- **The moves of a sweep**: in front of an opener it gives the region out or drops the opener;
while it searches it gives out the plain text at the end of the document, finds an opener, or
passes a character. -/
inductive Move (rules : List RegionKind) (d : Dialect) (s : Sweep) : Option Region → Sweep → Prop
  | close {o : Opener} {r : Region} {s' : Sweep} : s.phase = .inside o →
      s.close? rules d o = .ok (some (r, s')) → Move rules d s (some r) s'
  | drop {o : Opener} : s.phase = .inside o → s.close? rules d o = .ok none →
      Move rules d s none { s with
        cursor := s.cursor.moveTo o.start, phase := .searching, suppressed := some o.start }
  | flush {r : Region} : s.phase = .searching → s.cursor.isAtEnd = true →
      s.plain? = .ok (some r) → Move rules d s (some r) { s with pending := none }
  | find {o : Opener} {r? : Option Region} : s.phase = .searching → s.cursor.isAtEnd = false →
      s.opener? rules d = .ok (some o) → s.plain? = .ok r? →
      Move rules d s r? { s with phase := .inside o, pending := none, suppressed := none }
  | pass : s.phase = .searching → s.cursor.isAtEnd = false → s.opener? rules d = .ok none →
      Move rules d s none { s with
        cursor := s.cursor.advanceChar
        pending := some (s.pending.getD s.cursor.position), suppressed := none }

variable {rules : List RegionKind} {d : Dialect} {s s' : Sweep} {o : Opener} {r : Region}
  {r? : Option Region}

theorem move_of_step? (h : s.step? rules d = .ok (some (r?, s'))) : s.Move rules d r? s' := by
  unfold step? at h
  split at h
  · next o hphase =>
    obtain ⟨closed, hclose, hs⟩ := exists_of_map_eq_ok h
    split at hs
    · obtain ⟨rfl, rfl⟩ := Prod.mk.inj (Option.some.inj hs)
      exact .close hphase hclose
    · obtain ⟨rfl, rfl⟩ := Prod.mk.inj (Option.some.inj hs)
      exact .drop hphase hclose
  · next hphase =>
    split at h
    · next hend =>
      obtain ⟨plain, hplain, hs⟩ := exists_of_map_eq_ok h
      split at hs
      · obtain ⟨rfl, rfl⟩ := Prod.mk.inj (Option.some.inj hs)
        exact .flush hphase hend hplain
      · exact absurd hs (by simp)
    · next hend =>
      have hend := Bool.eq_false_iff.mpr hend
      obtain ⟨found, hfound, hs⟩ := exists_of_bind_eq_ok h
      cases found with
      | some o =>
        obtain ⟨plain, hplain, hs⟩ := exists_of_map_eq_ok hs
        obtain ⟨rfl, rfl⟩ := Prod.mk.inj (Option.some.inj hs)
        exact .find hphase hend hfound hplain
      | none =>
        obtain ⟨rfl, rfl⟩ := Prod.mk.inj (Option.some.inj (Except.ok.inj hs))
        exact .pass hphase hend hfound

/-- A region that is given out has bytes, and the sweep is moved to its end. -/
theorem eq_of_close? (h : s.close? rules d o = .ok (some (r, s'))) :
    r.kind = o.kind ∧ r.start = o.start ∧ 0 < r.length ∧
      s' = { s with cursor := s.cursor.moveTo r.stop, phase := .searching } := by
  unfold close? at h
  split at h
  · obtain ⟨inner, -, h⟩ := exists_of_bind_eq_ok h
    obtain ⟨⟨closing, _⟩, -, h⟩ := exists_of_bind_eq_ok h
    dsimp only at h
    split at h
    · exact absurd h (by simp)
    · next hbad =>
      obtain ⟨length, hlength, h⟩ := exists_of_bind_eq_ok h
      obtain ⟨hle, rfl⟩ := Offset.eq_of_sub hlength
      obtain ⟨rfl, rfl⟩ := Prod.mk.inj (Option.some.inj (Except.ok.inj h))
      simp only [not_or, Nat.not_le] at hbad
      refine ⟨rfl, rfl, Nat.sub_pos_of_lt hbad.1, ?_⟩
      simp only [Span.stop, Nat.add_sub_cancel' hle]
  · exact absurd h (by simp)

/-- A move passes bytes, or makes this smaller among sweeps at the same place.  A sweep that is
inside a region which does not start at its place goes there first. -/
def rank (s : Sweep) : Nat :=
  match s.phase with
  | .inside o =>
    if o.start = s.cursor.position then 4 * s.cursor.left + 2 else 4 * s.cursor.limit + 5
  | .searching =>
    4 * s.cursor.left +
      if s.cursor.left = 0 then if s.pending.isSome then 1 else 0
      else if s.suppressed = some s.cursor.position then 1 else 3

theorem rank_le (h : s.phase = .searching) :
    s.rank ≤ 4 * s.cursor.left + 3 ∧ (s.cursor.left = 0 → s.rank ≤ 1) := by
  simp only [rank, h]
  constructor
  · repeat' split
    all_goals omega
  · intro hleft
    simp only [hleft, if_true]
    split <;> omega

/-- **Every move of a sweep makes progress**, whatever state the sweep is in. -/
theorem rank_lt_of_step? (h : s.step? rules d = .ok (some (r?, s'))) : s'.rank < s.rank := by
  cases move_of_step? h with
  | @close o r s' hphase hclose =>
    obtain ⟨-, hstart, hpos, rfl⟩ := eq_of_close? hclose
    -- the end lies behind the start, so a sweep that starts there passes bytes, or is at the end
    have hafter := rank_le (s := { s with cursor := s.cursor.moveTo r.stop, phase := .searching }) rfl
    generalize rank _ = after at hafter ⊢
    simp only [Cursor.left, Cursor.moveTo, Cursor.limit, Span.stop] at hafter
    simp only [rank, hphase, Cursor.left, Cursor.limit]
    split <;> omega
  | drop hphase hclose =>
    simp only [rank, hphase, Cursor.left, Cursor.moveTo, Cursor.limit, Option.some.injEq]
    repeat' split
    all_goals omega
  | flush hphase hend hplain =>
    have hpending : s.pending.isSome = true := by
      cases hp : s.pending with
      | some start => rfl
      | none => exact absurd hplain (by simp [plain?, hp])
    simp [rank, hphase, Cursor.isAtEnd_iff.mp hend, hpending]
  | find hphase hend hfound hplain =>
    -- rules were tried here, so the rank is the highest in front of these bytes
    unfold opener? at hfound
    split at hfound
    · exact absurd hfound (by simp)
    · next hfresh =>
      obtain ⟨kind, -, hkind⟩ := Cursor.exists_of_readOpenerBy? hfound
      have hleft : s.cursor.left ≠ 0 := by simp [← Cursor.isAtEnd_iff, hend]
      simp [rank, hphase, hleft, hfresh, Cursor.start_of_readOpener? hkind]
  | pass hphase hend hfound =>
    obtain ⟨b, hb⟩ := Cursor.exists_current? hend
    have hleft := (Cursor.passes_advanceChar hb).left_lt
    simp only [rank, hphase]
    repeat' split
    all_goals omega

/-! ## Going on to the end -/

/-- The regions that a sweep gives out; `acc` holds those given out so far, last first. -/
def collectFrom? (rules : List RegionKind) (d : Dialect) (acc : List Region) (s : Sweep) :
    Except Offset.Fault (List Region) :=
  match _ : s.step? rules d with
  | .error e => .error e
  | .ok none => .ok acc.reverse
  | .ok (some (r?, s')) => collectFrom? rules d (r?.toList ++ acc) s'
termination_by s.rank
decreasing_by exact rank_lt_of_step? ‹_›

/-! ## Going on call by call -/

/-- One call of a sweep: the next region, and the sweep that is left.  Once everything is given out
there is no region, and the sweep stays as it is. -/
def next? (rules : List RegionKind) (d : Dialect) (s : Sweep) :
    Except Offset.Fault (Option Region × Sweep) :=
  match _ : s.step? rules d with
  | .error e => .error e
  | .ok none => .ok (none, s)
  | .ok (some (some r, s')) => .ok (some r, s')
  | .ok (some (none, s')) => next? rules d s'
termination_by s.rank
decreasing_by exact rank_lt_of_step? ‹_›

theorem rank_lt_of_next? (h : s.next? rules d = .ok (some r, s')) : s'.rank < s.rank := by
  fun_induction next? rules d s with
  | case1 | case2 => exact absurd h (by simp)
  | case3 s r s' hstep =>
    obtain ⟨-, rfl⟩ := Prod.mk.inj (Except.ok.inj h)
    exact rank_lt_of_step? hstep
  | case4 s s' hstep ih => exact Nat.lt_trans (ih h) (rank_lt_of_step? hstep)

/-- The answers to `n` calls of a sweep, each with the offset at which the call leaves it. -/
def calls? (rules : List RegionKind) (d : Dialect) :
    Nat → Sweep → Except Offset.Fault (List (Option Region × Nat))
  | 0, _ => .ok []
  | n + 1, s => do
    let (answer, s) ← s.next? rules d
    return (answer, s.cursor.position) :: (← calls? rules d n s)

/-! ## Where a sweep starts -/

/-- A sweep at the start of a document. -/
def start (bytes : Array UInt8) : Sweep := { cursor := .start bytes }

/-- A sweep at an offset where a region of some kind may be expected to open.  If one does, its end
is what the sweep looks for first; if not, it searches like any other. -/
def resume? (d : Dialect) (expected : Option RegionKind) (c : Cursor) :
    Except Offset.Fault Sweep :=
  match expected with
  | some kind => (c.readOpenerBy? d.rules d).map fun o? =>
    { cursor := c, phase := (o?.filter (·.kind == kind)).elim .searching .inside }
  | none => .ok { cursor := c }

end Sweep

namespace Template

/-- The regions of a template, as a sweep gives them out. -/
def divide? (t : Template) (d : Dialect) : Except Offset.Fault (List Region) :=
  (Sweep.start t.bytes).collectFrom? d.rules d []

/-- A sweep that takes up the scan of the template. -/
def sweepFrom? (t : Template) (d : Dialect) (r : Restart) : Except Offset.Fault Sweep :=
  Sweep.resume? d (r.inside.map (·.1)) (.ofOffset t.bytes r.point)

end Template

end TemplateColoring
