import TemplateColoring.Proofs.Region.Rule
import TemplateColoring.Proofs.Region.Scanner
import TemplateColoring.Region.Sweep

/-!
# Sweeps never drop an opener, and give out the regions of the scan

Whatever a sweep stands in front of was read at its cursor, so the end that the rule finds behind
the opener is good, and no place is ever suppressed: the moves that deal with a bad end are not
made in any sweep of any document. So a sweep makes the moves of a scanner, as long as its rules can
count the brackets (`Sweep.Sound.step?_agrees`), and it gives out the same regions: at once
(`Template.divide?_agrees`) or call by call (`Sweep.Sound.calls?_agrees`), from the start of the
document or from where the scan is taken up (`Template.exists_sweepFrom?`).
-/

set_option autoImplicit false

namespace TemplateColoring.Sweep

open Bytes Region

variable {rules : List RegionKind} {d : Dialect} {s s' : Sweep} {o : Opener} {r : Region}
  {r? : Option Region}

/-! ## What holds on the way -/

/-- **A sweep on its way**: its cursor is in the document, no place is suppressed, an opener in
front of which it stands was read there by its own rule, and the pending text lies behind it. -/
structure Sound (rules : List RegionKind) (d : Dialect) (s : Sweep) : Prop where
  within : s.cursor.Within
  suppressed : s.suppressed = none
  opener : ∀ o, s.phase = .inside o →
    o.kind ∈ rules ∧ s.cursor.readOpener? d o.kind = .ok (some o)
  pending : ∀ start ∈ s.pending, start ≤ s.cursor.position

/-- The cursor behind an opener that was read at a cursor. -/
theorem moveTo_of_readOpener? {c : Cursor} {kind : RegionKind} {inner : Nat}
    (h : c.readOpener? d kind = .ok (some o)) (hinner : o.stop? = .ok inner) :
    c.moveTo inner = c.advance o.length := by
  rw [(Offset.eq_of_add hinner).2, Cursor.start_of_readOpener? h]
  rfl

/-- **An opener that was read has a good end**: the sweep is never asked to drop it. -/
theorem Sound.close?_ne_none (hs : s.Sound rules d) (ho : s.phase = .inside o) :
    s.close? rules d o ≠ .ok none := by
  obtain ⟨hmem, hread⟩ := hs.opener o ho
  obtain ⟨-, hstart, hpos, hlen⟩ := Cursor.bounds_of_readOpener? hs.within hread
  intro h
  rw [close?, if_pos hmem] at h
  obtain ⟨inner, hinner, h⟩ := exists_of_bind_eq_ok h
  obtain ⟨⟨closing, c'⟩, hclosing, h⟩ := exists_of_bind_eq_ok h
  rw [moveTo_of_readOpener? hread hinner] at hclosing
  obtain ⟨hstop, hleads⟩ := Cursor.leadsTo_of_readCloser? hclosing
  have hbounds := (hleads.position_bounds (Cursor.within_advance _ _)).1
  rw [hs.within.position_advance hlen] at hbounds
  have hinner := (Offset.eq_of_add hinner).2
  dsimp only at h
  rw [if_neg (by omega)] at h
  obtain ⟨length, -, h⟩ := exists_of_bind_eq_ok h
  exact absurd h (by simp)

/-- A move leaves what holds on the way. -/
theorem Sound.of_move (hs : s.Sound rules d) (h : s.Move rules d r? s') : s'.Sound rules d := by
  cases h with
  | @close o r s' hphase hclose =>
      obtain ⟨-, hstart, -, rfl⟩ := eq_of_close? hclose
      refine ⟨Cursor.within_moveTo _ _, hs.suppressed, fun _ ho => absurd ho (by simp), ?_⟩
      intro start hpending
      have hle := hs.pending start hpending
      have hplace := Cursor.start_of_readOpener? (hs.opener o hphase).2
      have hw := hs.within
      simp only [Cursor.Within, Cursor.moveTo, Span.stop] at hw ⊢
      omega
  | drop hphase hclose => exact absurd hclose (hs.close?_ne_none hphase)
  | flush => exact ⟨hs.within, hs.suppressed, hs.opener, fun _ h => absurd h (by simp)⟩
  | find hphase hend hfound hplain =>
      refine ⟨hs.within, rfl, ?_, fun _ h => absurd h (by simp)⟩
      rintro o' ⟨⟩
      rw [opener?, hs.suppressed, if_neg (by simp)] at hfound
      obtain ⟨kind, hmem, hkind⟩ := Cursor.exists_of_readOpenerBy? hfound
      obtain ⟨rfl, -⟩ := Cursor.bounds_of_readOpener? hs.within hkind
      exact ⟨hmem, hkind⟩
  | pass hphase hend hfound =>
      have hleads := Cursor.leadsTo_advanceChar s.cursor
      have hon := (hleads.position_bounds hs.within).1
      refine ⟨hleads.within hs.within, rfl, fun o' ho' => absurd (hphase.symm.trans ho') (by simp),
        ?_⟩
      rintro start ⟨⟩
      cases hpending : s.pending with
      | none => exact hon
      | some start => exact Nat.le_trans (hs.pending start hpending) hon

theorem bytes_of_move (h : s.Move rules d r? s') : s'.cursor.bytes = s.cursor.bytes := by
  cases h with
  | close hphase hclose =>
      obtain ⟨-, -, -, rfl⟩ := eq_of_close? hclose
      rfl
  | drop | flush | find => rfl
  | pass => exact (Cursor.leadsTo_advanceChar _).bytes

/-! ## Runs -/

/-- The second sweep is what moves of the first one lead to. -/
def Reaches (rules : List RegionKind) (d : Dialect) : Sweep → Sweep → Prop :=
  Relation.ReflTransGen fun s s' => ∃ r?, s.step? rules d = .ok (some (r?, s'))

theorem Sound.of_reaches (hs : s.Sound rules d) (h : Reaches rules d s s') :
    s'.Sound rules d := by
  induction h with
  | refl => exact hs
  | tail _ hstep ih =>
      obtain ⟨r?, hstep⟩ := hstep
      exact ih.of_move (move_of_step? hstep)

theorem limit_of_reaches (h : Reaches rules d s s') : s'.cursor.limit = s.cursor.limit := by
  induction h with
  | refl => rfl
  | tail _ hstep ih =>
      obtain ⟨r?, hstep⟩ := hstep
      rw [← ih, Cursor.limit, bytes_of_move (move_of_step? hstep)]
      rfl

/-- A call is made of moves. -/
theorem reaches_of_next? (h : s.next? rules d = .ok (r?, s')) : Reaches rules d s s' := by
  fun_induction next? rules d s with
  | case1 => exact absurd h (by simp)
  | case2 s =>
      obtain ⟨-, rfl⟩ := Prod.mk.inj (Except.ok.inj h)
      exact .refl
  | case3 s r s'' hstep =>
      obtain ⟨-, rfl⟩ := Prod.mk.inj (Except.ok.inj h)
      exact .single ⟨some r, hstep⟩
  | case4 s s'' hstep ih => exact .head ⟨none, hstep⟩ (ih h)

theorem sound_start (rules : List RegionKind) (d : Dialect) (bytes : Array UInt8) :
    (start bytes).Sound rules d where
  within := Nat.zero_le _
  suppressed := rfl
  opener _ h := absurd h (by simp [start])
  pending _ h := absurd h (by simp [start])

theorem sound_of_resume? {expected : Option RegionKind} {c : Cursor} (hw : c.Within)
    (h : resume? d expected c = .ok s) : s.Sound d.rules d := by
  cases expected with
  | none =>
      obtain rfl := Except.ok.inj h
      exact ⟨hw, rfl, fun _ h => absurd h (by simp), fun _ h => absurd h (by simp)⟩
  | some kind =>
      obtain ⟨found, hfound, rfl⟩ := exists_of_map_eq_ok h
      refine ⟨hw, rfl, fun o ho => ?_, fun _ h => absurd h (by simp)⟩
      cases hfilter : found.filter (·.kind == kind) with
      | none => exact absurd ho (by simp [hfilter])
      | some o' =>
          obtain rfl : o' = o := by simpa [hfilter] using ho
          obtain ⟨rfl, -⟩ := Option.filter_eq_some_iff.mp hfilter
          obtain ⟨kind', hmem, hkind⟩ := Cursor.exists_of_readOpenerBy? hfound
          obtain ⟨rfl, -⟩ := Cursor.bounds_of_readOpener? hw hkind
          exact ⟨hmem, hkind⟩

/-! ## A sweep is a scanner at a cursor -/

/-- What is left of an opener without its place. -/
def Phase.relative : Phase → Scanner.Phase
  | .searching => .searching
  | .inside o => .inside o.toOpening

/-- The scanner that stands where a sweep does. -/
def scanner (s : Sweep) : Scanner where
  offset := s.cursor.position
  ahead := s.cursor.ahead
  phase := s.phase.relative
  pending := s.pending
  suppressed := s.suppressed

@[simp] theorem offset_scanner (s : Sweep) : s.scanner.offset = s.cursor.position := rfl
@[simp] theorem ahead_scanner (s : Sweep) : s.scanner.ahead = s.cursor.ahead := rfl
@[simp] theorem phase_scanner (s : Sweep) : s.scanner.phase = s.phase.relative := rfl
@[simp] theorem pending_scanner (s : Sweep) : s.scanner.pending = s.pending := rfl
@[simp] theorem suppressed_scanner (s : Sweep) : s.scanner.suppressed = s.suppressed := rfl

/-- The move that a scanner makes. -/
def ofOutcome : Scanner.Outcome → Option (Option Region × Scanner)
  | .done => none
  | .goOn t => some (none, t)
  | .give r t => some (some r, t)

/-- A sweep that goes on passes what its scanner passes. -/
theorem scanner_advance (hw : s.cursor.Within) (n : Nat) :
    ({ s with cursor := s.cursor.advance n } : Sweep).scanner = s.scanner.pass n := by
  have hposition : (s.cursor.advance n).position =
      s.cursor.position + (s.cursor.ahead.take n).length := by
    have hlen := Cursor.length_ahead s.cursor
    simp only [Cursor.left, Cursor.Within] at hlen hw
    simp only [List.length_take, hlen, Cursor.advance, Cursor.moveTo]
    omega
  simp only [scanner, Scanner.pass, hposition, Cursor.ahead_advance]

theorem Sound.plain?_eq (hs : s.Sound rules d) : s.plain? = .ok s.scanner.plain? := by
  unfold plain? Scanner.plain?
  cases hpending : s.pending with
  | none => simp [hpending]
  | some start =>
      simp [Offset.sub_eq_ok (hs.pending start hpending), hpending]

theorem opener?_eq (hw : s.cursor.Within) : s.opener? rules d =
    .ok ((s.scanner.opening? rules d).map fun o => { o with start := s.cursor.position }) := by
  unfold opener? Scanner.opening?
  rw [Cursor.readOpenerBy?_eq hw]
  by_cases h : s.scanner.suppressed = some s.scanner.offset
  · rw [if_pos h, if_pos (show s.suppressed = some s.cursor.position from h)]
    rfl
  · rw [if_neg h, if_neg (show ¬s.suppressed = some s.cursor.position from h)]
    rfl

/-- **The region behind an opener is that of the text ahead**, unless its rule meets more brackets
than it can count. -/
theorem Sound.close?_agrees (hs : s.Sound rules d) (ho : s.phase = .inside o) :
    Lexer.Agrees s.cursor.limit (s.close? rules d o) (.ok (some
      (⟨o.kind, s.cursor.position, (extentOf d o.toOpening s.cursor.ahead).length⟩,
        { s with
          cursor := s.cursor.advance (extentOf d o.toOpening s.cursor.ahead).length
          phase := .searching }))) := by
  obtain ⟨hmem, hread⟩ := hs.opener o ho
  obtain ⟨-, hstart, hpos, hlen⟩ := Cursor.bounds_of_readOpener? hs.within hread
  have hw := hs.within
  simp only [Cursor.Within, Cursor.left] at hw hlen
  have hinner : Lexer.Agrees s.cursor.limit o.stop? (.ok (o.start + o.length)) :=
    .add (by omega)
  have hcloser (inner : Nat) := Cursor.readCloser?_agrees
    (Cursor.within_moveTo s.cursor inner) d o.kind o
  have hclosing := closingOf_le d o.kind o.toOpening (s.cursor.ahead.drop o.length)
  rw [List.length_drop, Cursor.length_ahead, Cursor.left] at hclosing
  have hposition : (s.cursor.advance (extentOf d o.toOpening s.cursor.ahead).length).position =
      s.cursor.position + (extentOf d o.toOpening s.cursor.ahead).length :=
    hs.within.position_advance (by simp only [extentOf, Cursor.left]; omega)
  have hmove : s.cursor.moveTo
      (s.cursor.advance (extentOf d o.toOpening s.cursor.ahead).length).position =
      s.cursor.advance (extentOf d o.toOpening s.cursor.ahead).length :=
    (Cursor.leadsTo_advance _ _).moveTo_eq hs.within
  have hbehind : s.cursor.moveTo (o.start + o.length) = s.cursor.advance o.length := by
    rw [hstart]
    rfl
  have hclose : (s.cursor.advance o.length).close d o.kind o =
      (⟨(s.cursor.advance (extentOf d o.toOpening s.cursor.ahead).length).position,
        (extentOf d o.toOpening s.cursor.ahead).closed⟩,
        s.cursor.advance (extentOf d o.toOpening s.cursor.ahead).length) := by
    simp only [Cursor.close, Cursor.ahead_advance, Cursor.advance_advance, extentOf]
  rw [close?, if_pos hmem]
  -- only the rule may fail; the end that it finds is not in front of the cursor, so it is kept
  refine (hinner.bind fun inner _ => ((hcloser inner).mono (Nat.sub_le _ _)).bind
    fun _ _ => .refl _ _).trans (.of_eq ?_)
  rw [ok_bind, ok_bind, hbehind, hclose]
  dsimp only
  rw [hmove, hposition, if_neg (by simp only [extentOf]; omega),
    Offset.sub_eq_ok (by omega), ok_bind, hstart, Nat.add_sub_cancel_left]

/-- **A sweep makes the moves of its scanner**, unless a rule meets more brackets than it can
count. -/
theorem Sound.step?_agrees (hs : s.Sound rules d) : Lexer.Agrees s.cursor.limit
    ((s.step? rules d).map (Option.map fun (r?, s') => (r?, s'.scanner)))
    (.ok (ofOutcome (s.scanner.step rules d))) := by
  have hempty : s.cursor.isAtEnd = s.cursor.ahead.isEmpty := by
    rw [Bool.eq_iff_iff, Cursor.isAtEnd_iff, ← Cursor.length_ahead, List.length_eq_zero_iff,
      List.isEmpty_iff]
  have hplain := hs.plain?_eq
  have hopener : s.opener? rules d = _ := opener?_eq hs.within
  unfold step? Scanner.step
  cases hphase : s.phase with
  | inside o =>
      obtain ⟨hmem, hread⟩ := hs.opener o hphase
      rw [Cursor.readOpener?_eq hs.within] at hread
      obtain ⟨o', ho', rfl⟩ := Option.map_eq_some_iff.mp (Except.ok.inj hread)
      have hclose : s.scanner.close? rules d o' = _ :=
        Scanner.close?_of_openingBy? (openingBy?_eq_some_iff.mpr ⟨hmem, ho'⟩)
      -- the one move in which brackets are counted
      refine (((hs.close?_agrees hphase).map _).map _).trans (.of_eq ?_)
      simp only [phase_scanner, hphase, Phase.relative, hclose, map_ok,
        Option.map_some, ofOutcome, ahead_scanner, ← scanner_advance hs.within]
      rfl
  | searching =>
      refine .of_eq ?_
      simp only [phase_scanner, hphase, Phase.relative, hempty, hplain, hopener, ahead_scanner]
      cases hend : s.cursor.ahead.isEmpty with
      | true =>
          simp only [if_true]
          cases s.scanner.plain? <;> rfl
      | false =>
          simp only [Bool.false_eq_true, if_false, ok_bind]
          cases s.scanner.opening? rules d with
          | none =>
              have hpass := scanner_advance (s := s) hs.within (charLength s.cursor.ahead)
              simp only [Option.map_none, map_ok, Option.map_some, ofOutcome]
              rw [hs.within.advanceChar_eq, ← hpass]
              simp [scanner, hphase, Phase.relative]
          | some o =>
              simp only [Option.map_some, map_ok]
              cases s.scanner.plain? <;> rfl

/-- **What a move of a sweep is for its scanner**, if it is no failure to count brackets. -/
inductive Follows (rules : List RegionKind) (d : Dialect) (s : Sweep) : Prop
  | fault : s.step? rules d = .error .tooLarge → Lexer.maxDepth < s.cursor.limit → Follows rules d s
  | done : s.step? rules d = .ok none → s.scanner.step rules d = .done → Follows rules d s
  | goOn {s' : Sweep} : s.step? rules d = .ok (some (none, s')) →
      s.scanner.step rules d = .goOn s'.scanner → Follows rules d s
  | give {r : Region} {s' : Sweep} : s.step? rules d = .ok (some (some r, s')) →
      s.scanner.step rules d = .give r s'.scanner → Follows rules d s

theorem Sound.follows (hs : s.Sound rules d) : s.Follows rules d := by
  have hmove := hs.step?_agrees
  cases hstep : s.step? rules d with
  | error e =>
      rw [hstep] at hmove
      obtain ⟨rfl, hlt⟩ := hmove.of_error rfl
      exact .fault hstep hlt
  | ok found =>
      rw [hstep, map_ok] at hmove
      have hmove := hmove.eq_of_ok rfl
      cases hscanner : s.scanner.step rules d with
      | done =>
          rw [hscanner, ofOutcome] at hmove
          obtain rfl := Option.map_eq_none_iff.mp hmove
          exact .done hstep hscanner
      | goOn t =>
          rw [hscanner, ofOutcome] at hmove
          obtain ⟨⟨r?, s'⟩, rfl, hpair⟩ := Option.map_eq_some_iff.mp hmove
          obtain ⟨rfl, rfl⟩ := Prod.mk.inj hpair
          exact .goOn hstep hscanner
      | give r t =>
          rw [hscanner, ofOutcome] at hmove
          obtain ⟨⟨r?, s'⟩, rfl, hpair⟩ := Option.map_eq_some_iff.mp hmove
          obtain ⟨rfl, rfl⟩ := Prod.mk.inj hpair
          exact .give hstep hscanner

/-- What a move leaves of the document. -/
theorem limit_of_step? (h : s.step? rules d = .ok (some (r?, s'))) :
    s'.cursor.limit = s.cursor.limit :=
  limit_of_reaches (.single ⟨r?, h⟩)

/-! ## Where a sweep starts -/

theorem exists_resume? (d : Dialect) (expected : Option RegionKind) {c : Cursor} (hw : c.Within) :
    ∃ s, resume? d expected c = .ok s := by
  cases expected with
  | none => exact ⟨_, rfl⟩
  | some kind =>
      rw [resume?, Cursor.readOpenerBy?_eq hw, map_ok]
      exact ⟨_, rfl⟩

theorem limit_of_resume? {expected : Option RegionKind} {c : Cursor}
    (h : resume? d expected c = .ok s) : s.cursor.limit = c.limit := by
  cases expected with
  | none =>
      obtain rfl := Except.ok.inj h
      rfl
  | some kind =>
      obtain ⟨_, -, rfl⟩ := exists_of_map_eq_ok h
      rfl

/-- A sweep that is taken up stands where the scanner does that is taken up there. -/
theorem scanner_of_resume? {expected : Option RegionKind} {c : Cursor} (hw : c.Within)
    (h : resume? d expected c = .ok s) :
    s.scanner = Scanner.resume d expected c.position c.ahead := by
  cases expected with
  | none =>
      obtain rfl := Except.ok.inj h
      rw [Scanner.resume]
      cases opening? d c.ahead <;> rfl
  | some kind =>
      rw [resume?, Cursor.readOpenerBy?_eq hw, map_ok] at h
      obtain rfl := Except.ok.inj h
      rw [Scanner.resume, opening?]
      cases openingBy? d.rules d c.ahead with
      | none => rfl
      | some o =>
          by_cases hkind : o.kind = kind
          · simp [scanner, Phase.relative, Option.filter, hkind]
          · simp [scanner, Phase.relative, Option.filter, hkind, Ne.symm hkind]

/-! ## All regions -/

theorem collectFrom?_of_error {acc : List Region} {e : Offset.Fault}
    (h : s.step? rules d = .error e) : s.collectFrom? rules d acc = .error e := by
  rw [collectFrom?]
  split <;> simp_all

theorem collectFrom?_of_none {acc : List Region} (h : s.step? rules d = .ok none) :
    s.collectFrom? rules d acc = .ok acc.reverse := by
  rw [collectFrom?]
  split <;> simp_all

theorem collectFrom?_of_some {acc : List Region} (h : s.step? rules d = .ok (some (r?, s'))) :
    s.collectFrom? rules d acc = s'.collectFrom? rules d (r?.toList ++ acc) := by
  rw [collectFrom?]
  split <;> simp_all

/-- **A sweep gives out the regions of its scanner.** -/
theorem Sound.collectFrom?_agrees (hs : s.Sound rules d) (acc : List Region) :
    Lexer.Agrees s.cursor.limit (s.collectFrom? rules d acc)
      (.ok (s.scanner.collectFrom (fun _ => false) rules d acc)) := by
  induction hrank : s.rank using Nat.strongRecOn generalizing s acc with
  | _ n ih =>
      subst hrank
      -- what is left is done by the sweep behind the move
      have rest {r? : Option Region} {s' : Sweep} (hstep : s.step? rules d = .ok (some (r?, s'))) :
          Lexer.Agrees s.cursor.limit (s.collectFrom? rules d acc)
            (.ok (s'.scanner.collectFrom (fun _ => false) rules d (r?.toList ++ acc))) := by
        rw [collectFrom?_of_some hstep, ← limit_of_step? hstep]
        exact ih _ (rank_lt_of_step? hstep) (hs.of_move (move_of_step? hstep)) _ rfl
      cases hs.follows with
      | fault hstep hlt =>
          rw [collectFrom?_of_error hstep]
          exact .tooLarge hlt
      | done hstep hscanner =>
          rw [collectFrom?_of_none hstep, Scanner.collectFrom_of_done hscanner]
          exact .refl _ _
      | goOn hstep hscanner =>
          rw [Scanner.collectFrom_of_goOn hscanner]
          exact rest hstep
      | give hstep hscanner =>
          rw [Scanner.collectFrom_of_give hscanner]
          exact rest hstep

/-! ## Call by call -/

theorem next?_of_error {e : Offset.Fault} (h : s.step? rules d = .error e) :
    s.next? rules d = .error e := by
  rw [next?]
  split <;> simp_all

theorem next?_of_none (h : s.step? rules d = .ok none) : s.next? rules d = .ok (none, s) := by
  rw [next?]
  split <;> simp_all

theorem next?_of_give (h : s.step? rules d = .ok (some (some r, s'))) :
    s.next? rules d = .ok (some r, s') := by
  rw [next?]
  split <;> simp_all

theorem next?_of_goOn (h : s.step? rules d = .ok (some (none, s'))) :
    s.next? rules d = s'.next? rules d := by
  rw [next?]
  split <;> simp_all

/-- A call of a sweep is a call of its scanner. -/
theorem Sound.next?_agrees (hs : s.Sound rules d) : Lexer.Agrees s.cursor.limit
    ((s.next? rules d).map fun (r?, s') => (r?, s'.scanner)) (.ok (s.scanner.next rules d)) := by
  induction hrank : s.rank using Nat.strongRecOn generalizing s with
  | _ n ih =>
      subst hrank
      cases hs.follows with
      | fault hstep hlt =>
          rw [next?_of_error hstep]
          exact .tooLarge hlt
      | done hstep hscanner =>
          rw [next?_of_none hstep, Scanner.next_of_done hscanner]
          exact .refl _ _
      | give hstep hscanner =>
          rw [next?_of_give hstep, Scanner.next_of_give hscanner]
          exact .refl _ _
      | goOn hstep hscanner =>
          rw [next?_of_goOn hstep, Scanner.next_of_goOn hscanner, ← limit_of_step? hstep]
          exact ih _ (rank_lt_of_step? hstep) (hs.of_move (move_of_step? hstep)) rfl

theorem Sound.of_next? (hs : s.Sound rules d) (h : s.next? rules d = .ok (r?, s')) :
    s'.Sound rules d ∧ s'.cursor.limit = s.cursor.limit ∧
      s.scanner.next rules d = (r?, s'.scanner) := by
  have hreaches := reaches_of_next? h
  have hnext := hs.next?_agrees
  rw [h] at hnext
  exact ⟨hs.of_reaches hreaches, limit_of_reaches hreaches, (hnext.eq_of_ok rfl).symm⟩

theorem Sound.fault_of_next? {e : Offset.Fault} (hs : s.Sound rules d)
    (h : s.next? rules d = .error e) : e = .tooLarge ∧ Lexer.maxDepth < s.cursor.limit := by
  have hnext := hs.next?_agrees
  rw [h] at hnext
  exact hnext.of_error rfl

/-- **The calls of a sweep are answered like those of its scanner.** -/
theorem Sound.calls?_agrees (hs : s.Sound rules d) (n : Nat) :
    Lexer.Agrees s.cursor.limit (s.calls? rules d n) (.ok (s.scanner.calls rules d n)) := by
  induction n generalizing s with
  | zero => exact .refl _ _
  | succ n ih =>
      rw [calls?]
      cases hcall : s.next? rules d with
      | error e =>
          obtain ⟨rfl, hlt⟩ := hs.fault_of_next? hcall
          exact .tooLarge hlt
      | ok found =>
          obtain ⟨answer, s'⟩ := found
          obtain ⟨hs', hlimit, hnext⟩ := hs.of_next? hcall
          have hrest := (ih hs').map ((answer, s'.cursor.position) :: ·)
          rw [hlimit] at hrest
          rw [Scanner.calls_of_next hnext]
          exact hrest

/-! ## Too many brackets -/

/-- A sweep fails at too many brackets: it finds the opener in front of them, and no end. -/
theorem step?_unclosed {n : Nat} (hn : Lexer.maxDepth < n) :
    ∃ s, (start (Template.ofString (unclosed n)).bytes).step? (Dialect.rules {}) {} =
        .ok (some (none, s)) ∧ s.step? (Dialect.rules {}) {} = .error .tooLarge := by
  have hend : (Cursor.start (Template.ofString (unclosed n)).bytes).isAtEnd = false := by
    have hleft : (Cursor.start (Template.ofString (unclosed n)).bytes).left = n + 2 :=
      length_unclosed n
    rw [Bool.eq_false_iff, Ne, Cursor.isAtEnd_iff, hleft]
    exact Nat.succ_ne_zero _
  refine ⟨⟨.start (Template.ofString (unclosed n)).bytes, .inside Cursor.unclosedOpener, none,
    none⟩, ?_, ?_⟩
  · simp only [step?, start, hend, opener?, Cursor.readOpenerBy?_unclosed, plain?]
    rfl
  · have hclose := Cursor.readCloser?_unclosed hn {} Cursor.unclosedOpener
    have hmem : Cursor.unclosedOpener.kind ∈ Dialect.rules {} := by decide
    have hinner : Cursor.unclosedOpener.stop? = .ok 2 := rfl
    rw [Cursor.ofOffset] at hclose
    simp only [step?, close?, if_pos hmem, hinner, ok_bind]
    exact congrArg (fun x => Except.map _ (x >>= _)) hclose

/-- No call of the sweep is answered. -/
theorem next?_unclosed {n : Nat} (hn : Lexer.maxDepth < n) :
    (start (Template.ofString (unclosed n)).bytes).next? (Dialect.rules {}) {} =
      .error .tooLarge := by
  obtain ⟨s, hfind, hfault⟩ := step?_unclosed hn
  rw [next?_of_goOn hfind, next?_of_error hfault]

theorem divide?_unclosed {n : Nat} (hn : Lexer.maxDepth < n) :
    (Template.ofString (unclosed n)).divide? {} = .error .tooLarge := by
  obtain ⟨s, hfind, hfault⟩ := step?_unclosed hn
  rw [Template.divide?, collectFrom?_of_some hfind, collectFrom?_of_error hfault]

end TemplateColoring.Sweep

namespace TemplateColoring.Template

open Region

/-- **Dividing a template gives its regions**, unless more brackets are open than can be counted. -/
theorem divide?_agrees (t : Template) (d : Dialect) :
    Lexer.Agrees t.length (t.divide? d) (.ok (t.regions d)) := by
  have hscanner : (Sweep.start t.bytes).scanner = t.scanner := by
    rw [Sweep.scanner, Cursor.ahead_eq_drop]
    rfl
  have hcollect := (Sweep.sound_start d.rules d t.bytes).collectFrom?_agrees []
  rw [hscanner] at hcollect
  exact hcollect

/-- A template whose brackets can be counted is divided into its regions. -/
theorem divide?_eq (t : Template) (d : Dialect) (h : t.length ≤ Lexer.maxDepth) :
    t.divide? d = .ok (t.regions d) :=
  (t.divide?_agrees d).eq_of_le h

/-- Whatever a template is divided into, these are its regions. -/
theorem eq_regions_of_divide? {t : Template} {d : Dialect} {regions : List Region}
    (h : t.divide? d = .ok regions) : regions = t.regions d :=
  (t.divide?_agrees d).eq_of_ok h

/-- A scan that is taken up at the start of the template. -/
theorem sweepFrom?_start (t : Template) (d : Dialect) :
    t.sweepFrom? d .start = .ok (.start t.bytes) := by
  have hcursor : Cursor.ofOffset t.bytes 0 = .start t.bytes := by
    rw [Cursor.ofOffset, Cursor.moveTo, Nat.zero_min]
    rfl
  rw [Sweep.start, ← hcursor]
  rfl

/-- **A scan can be taken up anywhere**: there is a sweep for every restart, and it stands where the
scanner does. -/
theorem exists_sweepFrom? (t : Template) (d : Dialect) (r : Restart) :
    ∃ s, t.sweepFrom? d r = .ok s ∧ s.Sound d.rules d ∧ s.cursor.limit = t.length ∧
      s.scanner = t.scannerFrom d r := by
  have hw : (Cursor.ofOffset t.bytes r.point).Within := Cursor.within_moveTo _ _
  obtain ⟨s, hresume⟩ := Sweep.exists_resume? d (r.inside.map (·.1)) hw
  exact ⟨s, hresume, Sweep.sound_of_resume? hw hresume, Sweep.limit_of_resume? hresume,
    Sweep.scanner_of_resume? hw hresume⟩

end TemplateColoring.Template
