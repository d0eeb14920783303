import TemplateColoring.Region.Closing
import TemplateColoring.Template

/-!
# Scanners

A scanner goes over a document once, from front to back, and gives out its regions.  It searches
character by character for a place where a region opens; the text it passes meanwhile is pending
and is given out as plain text once a region opens or the document ends.  Where a region opens the
scanner looks for its end, gives the region out and searches on behind it.

`step` is one move of a scanner, and `collectUntil` moves on until there is nothing left or a region
ends where the regions behind it are of no interest.  `next` moves on to the next region only, and
`calls` is what a caller sees who asks for one region after the other.
-/

set_option autoImplicit false

namespace TemplateColoring

namespace Scanner

/-- What a scanner is about to do. -/
inductive Phase
  /-- It searches for an opening. -/
  | searching
  /-- It stands in front of an opening, and is to find the end of the region. -/
  | inside (o : Opening)
deriving DecidableEq, Repr

end Scanner

/-- A scanner on its way through a document. -/
structure Scanner where
  offset : Nat
  /-- What is left of the document at the offset. -/
  ahead : List UInt8
  phase : Scanner.Phase := .searching
  /-- Where the plain text starts that is passed and not given out yet. -/
  pending : Option Nat := none
  /-- Where no rule is tried, for once, as the region that opens there was found to have no end. -/
  suppressed : Option Nat := none
deriving DecidableEq, Repr

namespace Scanner

open Bytes Region

/-- What a move of a scanner comes to. -/
inductive Outcome
  /-- The document is at its end and everything is given out. -/
  | done
  | goOn (s : Scanner)
  | give (r : Region) (s : Scanner)
deriving DecidableEq, Repr

/-- The scanner `n` bytes on, or at the end of the document. -/
def pass (s : Scanner) (n : Nat) : Scanner :=
  { s with offset := s.offset + (s.ahead.take n).length, ahead := s.ahead.drop n }

/-- The plain text that is pending, up to the scanner. -/
def plain? (s : Scanner) : Option Region :=
  s.pending.map fun start => ⟨.plain, start, s.offset - start⟩

/-- The region that opens at the scanner, and the scanner at its end.  There is none without a rule
for its kind, or if the rule's end is not behind the start or is in front of the opening's end. -/
def close? (rules : List RegionKind) (d : Dialect) (s : Scanner) (o : Opening) :
    Option (Region × Scanner) :=
  let length := (extentOf d o s.ahead).length
  if o.kind ∈ rules ∧ 0 < length ∧ o.length ≤ length then
    some (⟨o.kind, s.offset, length⟩, s.pass length)
  else none

/-- The opening at the scanner, unless rules are not to be tried there. -/
def opening? (rules : List RegionKind) (d : Dialect) (s : Scanner) : Option Opening :=
  if s.suppressed = some s.offset then none else openingBy? rules d s.ahead

/-- One move of a scanner.  A region that cannot be closed is dropped, and its first character
passed as plain text. -/
def step (rules : List RegionKind) (d : Dialect) (s : Scanner) : Outcome :=
  match s.phase with
  | .inside o =>
    match s.close? rules d o with
    | some (r, s) => .give r { s with phase := .searching }
    | none => .goOn { s with phase := .searching, suppressed := some s.offset }
  | .searching =>
    if s.ahead.isEmpty then
      match s.plain? with
      | some r => .give r { s with pending := none }
      | none => .done
    else
      match s.opening? rules d with
      | some o =>
        let inside := { s with phase := .inside o, pending := none, suppressed := none }
        match s.plain? with
        | some r => .give r inside
        | none => .goOn inside
      | none =>
        .goOn { s.pass (charLength s.ahead) with
          pending := some (s.pending.getD s.offset), suppressed := none }

/-! ## Every move makes progress -/

/-- A move passes bytes, or makes this smaller among scanners in front of the same bytes. -/
def rank (s : Scanner) : Nat :=
  4 * s.ahead.length +
    match s.phase with
    | .inside _ => 2
    | .searching =>
      if s.ahead.isEmpty then if s.pending.isSome then 1 else 0
      else if s.suppressed = some s.offset then 1 else 3

/-- The scanner that a move leads to. -/
def Outcome.scanner? : Outcome → Option Scanner
  | .done => none
  | .goOn s | .give _ s => some s

theorem rank_bounds (s : Scanner) :
    4 * s.ahead.length ≤ s.rank ∧ s.rank ≤ 4 * s.ahead.length + 3 := by
  unfold rank
  constructor
  · exact Nat.le_add_right _ _
  · repeat' split
    all_goals omega

theorem rank_lt_of_length_lt {s s' : Scanner} (h : s'.ahead.length < s.ahead.length) :
    s'.rank < s.rank := by
  have := (rank_bounds s).1
  have := (rank_bounds s').2
  omega

theorem length_pass_lt {s : Scanner} {n : Nat} (hs : s.ahead ≠ []) (hn : 0 < n) :
    (s.pass n).ahead.length < s.ahead.length := by
  have := List.length_pos_iff.mpr hs
  simp only [pass, List.length_drop]
  omega

theorem close?_eq_some {rules : List RegionKind} {d : Dialect} {s s' : Scanner} {o : Opening}
    {r : Region} (h : s.close? rules d o = some (r, s')) :
    r = ⟨o.kind, s.offset, (extentOf d o s.ahead).length⟩ ∧ 0 < r.length ∧
      s' = s.pass r.length := by
  simp only [close?] at h
  split at h
  · next hc =>
    obtain ⟨rfl, rfl⟩ := Prod.mk.inj (Option.some.inj h)
    exact ⟨rfl, hc.2.1, rfl⟩
  · exact absurd h (by simp)

/-- **Every move of a scanner makes progress**, whatever state the scanner is in. -/
theorem rank_lt_of_step {rules : List RegionKind} {d : Dialect} {s s' : Scanner}
    (h : (s.step rules d).scanner? = some s') : s'.rank < s.rank := by
  unfold step at h
  split at h
  · next o hphase =>
    split at h
    · next r t hclose =>
      obtain rfl := Option.some.inj h
      obtain ⟨-, hpos, rfl⟩ := close?_eq_some hclose
      by_cases hs : s.ahead = []
      · simp only [rank, hphase, hs, pass, List.drop_nil, List.isEmpty_nil, if_true]
        split <;> simp
      · exact rank_lt_of_length_lt (length_pass_lt hs hpos)
    · obtain rfl := Option.some.inj h
      simp only [rank, hphase, if_true]
      repeat' split
      all_goals omega
  · next hphase =>
    split at h
    · next hend =>
      split at h
      · next r hplain =>
        obtain ⟨start, hpending, -⟩ := Option.map_eq_some_iff.mp hplain
        obtain rfl := Option.some.inj h
        simp [rank, hphase, hend, hpending]
      · exact absurd h (by simp [Outcome.scanner?])
    · next hs =>
      split at h
      · next o hopens =>
        -- rules were tried here, so the rank is the highest in front of these bytes
        have hfresh : ¬s.suppressed = some s.offset := by
          intro hsuppressed
          rw [opening?, if_pos hsuppressed] at hopens
          exact absurd hopens (by simp)
        split at h <;>
          · obtain rfl := Option.some.inj h
            simp [rank, hphase, hs, hfresh]
      · obtain rfl := Option.some.inj h
        have hs' : s.ahead ≠ [] := by simpa using hs
        exact rank_lt_of_length_lt (length_pass_lt hs' (charLength_pos hs'))

/-! ## Going on to the end -/

/-- The regions that a scanner gives out, in the order of the document, up to the first that ends
at a settled offset; `acc` holds those given out so far, last first. -/
def collectFrom (settled : Nat → Bool) (rules : List RegionKind) (d : Dialect)
    (acc : List Region) (s : Scanner) : List Region :=
  match _ : s.step rules d with
  | .done => acc.reverse
  | .goOn s' => collectFrom settled rules d acc s'
  | .give r s' =>
    if settled r.stop then (r :: acc).reverse else collectFrom settled rules d (r :: acc) s'
termination_by s.rank
decreasing_by all_goals exact rank_lt_of_step (congrArg Outcome.scanner? ‹_›)

/-- The regions that a scanner gives out, up to the first that ends at a settled offset. -/
def collectUntil (settled : Nat → Bool) (rules : List RegionKind) (d : Dialect) (s : Scanner) :
    List Region :=
  collectFrom settled rules d [] s

/-- All regions that a scanner gives out. -/
def collect (rules : List RegionKind) (d : Dialect) (s : Scanner) : List Region :=
  s.collectUntil (fun _ => false) rules d

/-! ## Going on call by call -/

/-- One call of a scanner: the next region, and the scanner that is left.  At the end of the
document there is no region, and the scanner stays as it is. -/
def next (rules : List RegionKind) (d : Dialect) (s : Scanner) : Option Region × Scanner :=
  match _ : s.step rules d with
  | .done => (none, s)
  | .goOn s' => next rules d s'
  | .give r s' => (some r, s')
termination_by s.rank
decreasing_by exact rank_lt_of_step (congrArg Outcome.scanner? ‹_›)

/-- The answers to `n` calls of a scanner, each with the offset at which the call leaves it. -/
def calls (rules : List RegionKind) (d : Dialect) : Nat → Scanner → List (Option Region × Nat)
  | 0, _ => []
  | n + 1, s =>
    let (answer, s) := s.next rules d
    (answer, s.offset) :: calls rules d n s

end Scanner

namespace Template

/-- A scanner at the start of the template. -/
def scanner (t : Template) : Scanner := { offset := 0, ahead := t.bytes.toList }

/-- The regions of a template. -/
def regions (t : Template) (d : Dialect) : List Region := t.scanner.collect d.rules d

end Template

end TemplateColoring
