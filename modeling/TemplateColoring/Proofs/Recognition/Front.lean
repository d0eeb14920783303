import TemplateColoring.Proofs.Recognition.Header

/-!
# How far a content is read

A content is read to the end of the first line that decides, and no further. What comes behind that
line makes no difference, be it a failure, and a content that fails in front of it is taken for no
template of markup (`isMarkupTemplate_front`).
-/

set_option autoImplicit false

namespace TemplateColoring

namespace Header

open Text

variable {bytes front last : List UInt8} {failure : Option String} {f g : Feed}

/-- Bytes decide whether there is a header comment and, if there is, hold it to its end: behind
blanks there is something, which opens no comment or one that is closed. -/
def Decides (bytes : List UInt8) : Prop :=
  trimStart (decodeLossy bytes) ≠ [] ∧
    ∀ r, trimStart (decodeLossy bytes) = opener ++ r → closer <:+: r

theorem decides_iff : Decides bytes ↔ decision (decodeLossy bytes) ≠ none := by
  by_cases hblank : trimStart (decodeLossy bytes) = []
  · simp [Decides, hblank, decision_of_blank hblank]
  · by_cases hopener : opener <+: trimStart (decodeLossy bytes)
    · obtain ⟨r, hr⟩ := hopener
      rw [decision_of_opener hr.symm, Ne, Option.map_eq_none_iff, ← Ne, Option.ne_none_iff_isSome,
        isSome_before?_iff]
      constructor
      · exact fun h => h.2 r hr.symm
      · intro h
        refine ⟨hblank, ?_⟩
        intro r' hr'
        rw [← hr] at hr'
        exact List.append_cancel_left hr' ▸ h
    · rw [decision_of_absent hblank hopener]
      constructor
      · exact fun _ => by simp
      · exact fun _ => ⟨hblank, fun r hr => absurd ⟨r, hr.symm⟩ hopener⟩

/-! ## Whole lines -/

/-- Lines that decide are all that is read. -/
theorem readAll_of_decides (hfront : Feed.WholeLines front) (h : Decides front)
    (marks : List (Option UInt8)) :
    readAll .blank (Feed.linesFrom failure [] (front.map some ++ marks)) =
      readAll .blank (Feed.linesFrom none [] (front.map some)) := by
  obtain ⟨outcome, hread, hdecision⟩ := readAll_decision front
  rw [Feed.linesFrom_whole hfront, readAll_append, hread]
  cases outcome with
  | more state => exact absurd hdecision.symm (decides_iff.mp h)
  | absent => rfl
  | complete body => rfl

/-- If no whole line decides, the failure is met. -/
theorem readAll_of_not_decides (hfront : Feed.WholeLines front) (h : ¬ Decides front)
    (hlast : Ascii.newline ∉ last) (reason : String) :
    readAll .blank (Feed.linesFrom (some reason) [] ((front ++ last).map some)) =
      .error reason := by
  obtain ⟨outcome, hread, hdecision⟩ := readAll_decision front
  rw [List.map_append, Feed.linesFrom_whole hfront, Feed.linesFrom_last hlast, readAll_append,
    hread]
  cases outcome with
  | more state => rfl
  | absent => exact absurd (decides_iff.mpr (hdecision ▸ by simp [Outcome.decision])) h
  | complete body => exact absurd (decides_iff.mpr (hdecision ▸ by simp [Outcome.decision])) h

/-! ## Feeds -/

theorem declaresMarkup_congr (h : readAll .blank f.lines = readAll .blank g.lines) :
    declaresMarkup f = declaresMarkup g := by
  rw [declaresMarkup, contentType?, h]
  rfl

theorem declaresMarkup_of_error {reason : String} (h : readAll .blank f.lines = .error reason) :
    declaresMarkup f = false := by
  rw [declaresMarkup, contentType?, h]

/-- A feed declares what the lines that decide do. -/
theorem declaresMarkup_of_decides {reads rest : List (List UInt8)} (hf : f.reads = reads ++ rest)
    (hreads : Feed.Chunks reads bytes) (hbytes : front <+: bytes) (hfront : Feed.WholeLines front)
    (h : Decides front) : declaresMarkup f = declaresMarkup (.ofBytes front) := by
  obtain ⟨back, rfl⟩ := hbytes
  refine declaresMarkup_congr ?_
  rw [Feed.lines, hf, List.flatMap_append, hreads.marks, List.map_append, List.append_assoc,
    readAll_of_decides hfront h, Feed.lines_ofBytes]

/-- A feed that fails declares nothing unless a line decides. -/
theorem declaresMarkup_of_not_decides (hf : Feed.Chunks f.reads (front ++ last))
    (hfails : f.failure.isSome = true) (hfront : Feed.WholeLines front) (h : ¬ Decides front)
    (hlast : Ascii.newline ∉ last) : declaresMarkup f = false := by
  obtain ⟨reason, hreason⟩ := Option.isSome_iff_exists.mp hfails
  have hread : readAll .blank f.lines = .error reason := by
    rw [hf.lines_eq, hreason, readAll_of_not_decides hfront h hlast]
  exact declaresMarkup_of_error hread

/-- Reads of the same bytes declare the same, whatever a failure behind them says: feeds that fail
have their whole lines in common and lose the rest. -/
theorem declaresMarkup_of_same_bytes (hf : Feed.Chunks f.reads bytes)
    (hg : Feed.Chunks g.reads bytes) (hends : f.failure.isSome = g.failure.isSome) :
    declaresMarkup f = declaresMarkup g := by
  by_cases hfails : f.failure.isSome = true
  · have hfails' : g.failure.isSome = true := hends ▸ hfails
    obtain ⟨front, last, rfl, hfront, hlast⟩ := Feed.exists_wholeLines bytes
    have hstarts := List.prefix_append front last
    by_cases h : Decides front
    · calc declaresMarkup f
          = declaresMarkup (.ofBytes front) :=
            declaresMarkup_of_decides (List.append_nil _).symm hf hstarts hfront h
        _ = declaresMarkup g :=
            (declaresMarkup_of_decides (List.append_nil _).symm hg hstarts hfront h).symm
    · rw [declaresMarkup_of_not_decides hf hfails hfront h hlast,
        declaresMarkup_of_not_decides hg hfails' hfront h hlast]
  · have hends' : ¬ g.failure.isSome = true := hends ▸ hfails
    refine declaresMarkup_congr ?_
    rw [hf.lines_eq, hg.lines_eq, Option.not_isSome_iff_eq_none.mp hfails,
      Option.not_isSome_iff_eq_none.mp hends']

/-- A feed that fails declares only what any longer one does: the lines that have decided come first
in that, too. -/
theorem declaresMarkup_of_failing {more : List UInt8} (hf : Feed.Chunks f.reads bytes)
    (hg : Feed.Chunks g.reads (bytes ++ more)) (hfails : f.failure.isSome = true)
    (htrue : declaresMarkup f = true) : declaresMarkup g = true := by
  obtain ⟨front, last, rfl, hfront, hlast⟩ := Feed.exists_wholeLines bytes
  have hstarts := List.prefix_append front last
  by_cases h : Decides front
  · calc declaresMarkup g
        = declaresMarkup (.ofBytes front) :=
          declaresMarkup_of_decides (List.append_nil _).symm hg
            (hstarts.trans (List.prefix_append _ more)) hfront h
      _ = declaresMarkup f :=
          (declaresMarkup_of_decides (List.append_nil _).symm hf hstarts hfront h).symm
      _ = true := htrue
  · rw [declaresMarkup_of_not_decides hf hfails hfront h hlast] at htrue
    exact absurd htrue Bool.false_ne_true

end Header

open Header Feed in
/-- **The answer rests on the lines up to the first that decides.** Where the name does not decide:
behind whole lines that decide, neither bytes nor a failure nor an early end change the answer; a
feed that fails before a whole line has decided is no template of markup; how the bytes are spread
over reads makes no difference, and neither does what a failure says; and what is taken for a
template although its feed fails is one however the feed goes on. -/
theorem isMarkupTemplate_front {name : Option (List Char)}
    (hname : name.any FileName.isTemplate = false) :
    (∀ (front bytes : List UInt8) (reads rest : List (List UInt8)) (failure : Option String),
      WholeLines front → Decides front → Chunks reads bytes → front <+: bytes →
        isMarkupTemplate name ⟨reads ++ rest, failure⟩ = isMarkupTemplate name (.ofBytes front)) ∧
    (∀ (f : Feed) (bytes : List UInt8), Chunks f.reads bytes → f.failure.isSome = true →
      (∀ front, WholeLines front → front <+: bytes → ¬ Decides front) →
        isMarkupTemplate name f = false) ∧
    (∀ (f g : Feed) (bytes : List UInt8), Chunks f.reads bytes → Chunks g.reads bytes →
      f.failure.isSome = g.failure.isSome → isMarkupTemplate name f = isMarkupTemplate name g) ∧
    ∀ (f g : Feed) (bytes more : List UInt8), Chunks f.reads bytes →
      Chunks g.reads (bytes ++ more) → f.failure.isSome = true →
        isMarkupTemplate name f = true → isMarkupTemplate name g = true := by
  simp only [isMarkupTemplate_eq hname]
  refine ⟨?_, ?_, ?_, ?_⟩
  · intro front bytes reads rest failure hfront h hreads hbytes
    exact declaresMarkup_of_decides rfl hreads hbytes hfront h
  · intro f bytes hf hfails hno
    obtain ⟨front, last, rfl, hfront, hlast⟩ := exists_wholeLines bytes
    exact declaresMarkup_of_not_decides hf hfails hfront
      (hno front hfront (List.prefix_append front last)) hlast
  · intro f g bytes hf hg hends
    exact declaresMarkup_of_same_bytes hf hg hends
  · intro f g bytes more hf hg hfails htrue
    exact declaresMarkup_of_failing hf hg hfails htrue

open Feed in
/-- Behind a comment that is closed there are broken characters, a read of nothing and a failure. In
front of its end the failure is all that counts. -/
theorem isMarkupTemplate_front_failing :
    isMarkupTemplate none
        ⟨["<#-- Content".toUTF8.data.toList, "Type: text/html -->\n".toUTF8.data.toList] ++
          [[0xFF, 0x0A], []], some "disk on fire"⟩ = true ∧
      isMarkupTemplate none
        ⟨["<#-- Content".toUTF8.data.toList, "Type: text/html -->".toUTF8.data.toList],
          some "disk on fire"⟩ = false := by
  have hname : (none : Option (List Char)).any FileName.isTemplate = false := rfl
  obtain ⟨hdecided, hfailed, -, -⟩ := isMarkupTemplate_front hname
  constructor
  · have hfront : WholeLines ("<#-- ContentType: text/html -->".toUTF8.data.toList ++ [0x0A]) :=
      .line (by decide) .nil
    have hdecides :
        Header.Decides ("<#-- ContentType: text/html -->".toUTF8.data.toList ++ [0x0A]) :=
      Header.decides_iff.mpr (by decide +kernel)
    rw [hdecided _ _ _ _ _ hfront hdecides ⟨rfl, by decide⟩ (by decide)]
    decide +kernel
  · refine hfailed _ "<#-- ContentType: text/html -->".toUTF8.data.toList
      ⟨by decide, by decide⟩ rfl ?_
    intro front hfront hstarts
    cases hfront with
    | nil => exact fun h => h.1 rfl
    | line hline hr =>
        have hmem : Ascii.newline ∈ "<#-- ContentType: text/html -->".toUTF8.data.toList :=
          hstarts.subset (by simp)
        exact absurd hmem (by decide)

end TemplateColoring
