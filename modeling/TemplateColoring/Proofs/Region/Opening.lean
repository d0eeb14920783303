import TemplateColoring.Proofs.Expression.Lexeme
import TemplateColoring.Region.Opening

/-!
# What the rules of the openings find

Each rule is restated by the shape of the texts it accepts. The second and the third byte already
tell which rule that is (`kindAhead`), so at most one rule finds an opening at a place, and the
order in which the rules are tried does not matter (`openingBy?_eq_some_iff`).
-/

set_option autoImplicit false

namespace TemplateColoring.Region

open Ascii Bytes

/-! ## The only hit of a search -/

/-- A search finds what is found at the only place that has something. -/
theorem findSome?_eq_some_of_unique {α β : Type} {f : α → Option β} {l : List α} {a : α} {o : β}
    (ha : a ∈ l) (hf : f a = some o) (hunique : ∀ a', a' ≠ a → f a' = none) :
    l.findSome? f = some o := by
  induction l with
  | nil => exact absurd ha (by simp)
  | cons a' l ih =>
      rw [List.findSome?_cons]
      rcases List.mem_cons.mp ha with rfl | hmem
      · rw [hf]
      · cases hf' : f a' with
        | none => exact ih hmem
        | some o' =>
            by_cases heq : a' = a
            · rw [← hf', heq, hf]
            · rw [hunique a' heq] at hf'
              exact absurd hf' (by simp)

/-! ## Tags -/

/-- A tag opens with its bracket and sigil, and a name; an anonymous tag may have none. -/
theorem tagOpenerLength?_eq_some_iff {sigil : List UInt8} {anonymous : Bool} {b : Bracket}
    {s : List UInt8} {n : Nat} : tagOpenerLength? sigil anonymous b s = some n ↔
      ∃ named, s = b.openByte :: (sigil ++ named) ∧
        (named.head?.any isNameStart = true ∧
            n = 1 + sigil.length + runLength isTagNameContinue named ∨
          named.head?.any isNameStart = false ∧ anonymous = true ∧ n = 1 + sigil.length) := by
  simp only [tagOpenerLength?]
  split
  · next hp =>
    obtain ⟨named, rfl⟩ := List.isPrefixOf_iff_prefix.mp hp
    have hdrop : (b.openByte :: sigil ++ named).drop (1 + sigil.length) = named := by
      rw [List.drop_append_of_le_length (by rw [List.length_cons]; omega),
        List.drop_eq_nil_of_le (by rw [List.length_cons]; omega), List.nil_append]
    rw [hdrop]
    constructor
    · intro h
      refine ⟨named, rfl, ?_⟩
      split at h
      · next hname => exact .inl ⟨hname, (Option.some.inj h).symm⟩
      · next hname =>
        split at h
        · next ha => exact .inr ⟨Bool.eq_false_iff.mpr hname, ha, (Option.some.inj h).symm⟩
        · exact absurd h (by simp)
    · rintro ⟨named', hs, h⟩
      obtain rfl : named = named' := List.append_cancel_left (List.cons.inj hs).2
      rcases h with ⟨hname, rfl⟩ | ⟨hname, ha, rfl⟩
      · rw [if_pos hname]
      · rw [if_neg (by simp [hname]), if_pos ha]
  · next hp =>
    refine ⟨fun h => absurd h (by simp), ?_⟩
    rintro ⟨named, rfl, -⟩
    exact absurd (List.isPrefixOf_iff_prefix.mpr (List.prefix_append (b.openByte :: sigil) named)) hp

theorem head?_of_tagOpenerLength? {sigil : List UInt8} {anonymous : Bool} {b : Bracket}
    {s : List UInt8} {n : Nat} (h : tagOpenerLength? sigil anonymous b s = some n) :
    s.head? = some b.openByte := by
  obtain ⟨named, rfl, -⟩ := tagOpenerLength?_eq_some_iff.mp h
  rfl

theorem openByte_injective {b b' : Bracket} (h : b.openByte = b'.openByte) : b = b' := by
  cases b <;> cases b' <;> first | rfl | exact absurd h (by decide)

theorem tagOpening?_eq_some_iff {kind : RegionKind} {sigil : List UInt8} {anonymous : Bool}
    {style : TagStyle} {s : List UInt8} {o : Opening} :
    tagOpening? kind sigil anonymous style s = some o ↔
      o.kind = kind ∧ o.bracket ∈ style.brackets ∧
        tagOpenerLength? sigil anonymous o.bracket s = some o.length := by
  constructor
  · intro h
    obtain ⟨b, hb, hmap⟩ := List.exists_of_findSome?_eq_some h
    obtain ⟨n, hn, rfl⟩ := Option.map_eq_some_iff.mp hmap
    exact ⟨rfl, hb, hn⟩
  · rintro ⟨rfl, hb, hn⟩
    refine findSome?_eq_some_of_unique hb (by rw [hn]; rfl) fun b' hne => ?_
    rw [Option.map_eq_none_iff]
    cases hb' : tagOpenerLength? sigil anonymous b' s with
    | none => rfl
    | some n =>
        have hhead := (head?_of_tagOpenerLength? hb').symm.trans (head?_of_tagOpenerLength? hn)
        exact absurd (openByte_injective (Option.some.inj hhead)) hne

/-! ## Comments, interpolations and host markup -/

theorem commentOpening?_eq_some_iff {style : TagStyle} {s : List UInt8} {o : Opening} :
    commentOpening? style s = some o ↔
      o.kind = .comment ∧ o.length = 4 ∧ o.bracket ∈ style.brackets ∧
        o.bracket.opensComment s = true := by
  constructor
  · intro h
    obtain ⟨b, hb, rfl⟩ := Option.map_eq_some_iff.mp h
    have hopens := List.find?_some hb
    exact ⟨rfl, rfl, List.mem_of_find?_eq_some hb, hopens⟩
  · rintro ⟨hk, hl, hb, hc⟩
    obtain ⟨kind, bracket, length⟩ := o
    subst hk hl
    refine Option.map_eq_some_iff.mpr ⟨bracket, ?_, rfl⟩
    cases hf : style.brackets.find? (·.opensComment s) with
    | none => exact absurd hc (by simpa using List.find?_eq_none.mp hf bracket hb)
    | some b' =>
        have hc' := List.find?_some hf
        obtain ⟨z, hz⟩ := List.isPrefixOf_iff_prefix.mp hc
        obtain ⟨z', hz'⟩ := List.isPrefixOf_iff_prefix.mp hc'
        have hbyte := (List.cons.inj (hz'.trans hz.symm)).1
        rw [openByte_injective hbyte]

theorem interpolationOpening?_eq_some_iff {style : InterpolationStyle} {s : List UInt8}
    {o : Opening} : interpolationOpening? style s = some o ↔
      style.opens s = true ∧ o = ⟨.interpolation, style.bracket, 2⟩ := by
  simp only [interpolationOpening?]
  split
  · next h => simp [h, eq_comm]
  · next h => simp [h]

theorem markupCommentOpening?_eq_some_iff {s : List UInt8} {o : Opening} :
    markupCommentOpening? s = some o ↔
      [less, exclamation, hyphen, hyphen].isPrefixOf s = true ∧ o = ⟨.markupComment, .angle, 4⟩ := by
  simp only [markupCommentOpening?]
  split
  · next h => simp [h, eq_comm]
  · next h => simp [h]

theorem markupTagOpening?_eq_some_iff {s : List UInt8} {o : Opening} :
    markupTagOpening? s = some o ↔ ∃ n, markupNameAt? s = some n ∧
      o = ⟨.markupTag, .angle, n + runLength isMarkupNameContinue (s.drop n)⟩ := by
  rw [markupTagOpening?, Option.map_eq_some_iff]
  simp only [eq_comm]

/-- The name of a host tag starts behind one byte or two. -/
theorem markupNameAt?_eq_some_iff {s : List UInt8} {n : Nat} :
    markupNameAt? s = some n ↔ ∃ b rest, s = less :: b :: rest ∧
      (n = 1 ∧ isMarkupNameStart b = true ∨
        n = 2 ∧ (b = slash ∨ b = question) ∧ rest.head?.any isMarkupNameStart = true ∨
        n = 2 ∧ b = exclamation ∧ rest.head?.any isAlpha = true) := by
  match s with
  | [] => simp [markupNameAt?]
  | [_] => simp [markupNameAt?]
  | first :: b :: rest =>
      have hslash : isMarkupNameStart slash = false := by decide
      have hquestion : isMarkupNameStart question = false := by decide
      have hexclamation : isMarkupNameStart exclamation = false := by decide
      constructor
      · intro h
        simp only [markupNameAt?] at h
        split at h
        · exact absurd h (by simp)
        next hfirst =>
        refine ⟨b, rest, by simpa using hfirst, ?_⟩
        split at h
        · next hb =>
          split at h
          · next hname => exact .inr (.inl ⟨(Option.some.inj h).symm, by simpa using hb, hname⟩)
          · exact absurd h (by simp)
        split at h
        · next hb =>
          split at h
          · next hname => exact .inr (.inr ⟨(Option.some.inj h).symm, by simpa using hb, hname⟩)
          · exact absurd h (by simp)
        split at h
        · next hname => exact .inl ⟨(Option.some.inj h).symm, hname⟩
        · exact absurd h (by simp)
      · rintro ⟨b', rest', hs, h⟩
        obtain ⟨hfirst, hs'⟩ := List.cons.inj hs
        obtain ⟨rfl, rfl⟩ := List.cons.inj hs'
        subst hfirst
        rcases h with ⟨rfl, hname⟩ | ⟨rfl, rfl | rfl, hname⟩ | ⟨rfl, rfl, hname⟩
        · have h1 : b ≠ slash := by rintro rfl; simp [hslash] at hname
          have h2 : b ≠ question := by rintro rfl; simp [hquestion] at hname
          have h3 : b ≠ exclamation := by rintro rfl; simp [hexclamation] at hname
          simp [markupNameAt?, h1, h2, h3, hname]
        · simp [markupNameAt?, hname]
        · simp [markupNameAt?, hname]
        · have h1 : exclamation ≠ slash := by decide
          have h2 : exclamation ≠ question := by decide
          simp [markupNameAt?, h1, h2, hname]

/-- The name of a host tag is not empty. -/
theorem markupName_length_pos {s : List UInt8} {n : Nat} (h : markupNameAt? s = some n) :
    0 < runLength isMarkupNameContinue (s.drop n) := by
  have hpos {p : UInt8 → Bool} {t : List UInt8} (ht : t.head?.any p = true)
      (hp : ∀ b, p b = true → isMarkupNameContinue b = true) :
      0 < runLength isMarkupNameContinue t := by
    cases t with
    | nil => simp at ht
    | cons c t => exact runLength_pos (hp c (by simpa using ht))
  have hstart (b : UInt8) (hb : isMarkupNameStart b = true) : isMarkupNameContinue b = true := by
    simp [isMarkupNameContinue, hb]
  have halpha (b : UInt8) (hb : isAlpha b = true) : isMarkupNameContinue b = true :=
    hstart b (by simp [isMarkupNameStart, hb])
  obtain ⟨b, rest, rfl, hcase⟩ := markupNameAt?_eq_some_iff.mp h
  rcases hcase with ⟨rfl, hb⟩ | ⟨rfl, -, hrest⟩ | ⟨rfl, -, hrest⟩
  · exact runLength_pos (hstart b hb)
  · exact hpos hrest hstart
  · exact hpos hrest halpha

/-! ## At most one rule opens at a place -/

/-- The kind of region that can open at the front of a text, from the bytes behind the first. -/
def kindAhead : List UInt8 → RegionKind
  | _ :: b :: rest =>
    if b == braceOpen || b == equals then .interpolation
    else if b == hash then if rest.head? == some hyphen then .comment else .directiveStart
    else if b == commercialAt then .macroStart
    else if b == slash then
      if rest.head? == some hash then .directiveEnd
      else if rest.head? == some commercialAt then .macroEnd
      else .markupTag
    else if b == exclamation && rest.head? == some hyphen then .markupComment
    else .markupTag
  | _ => .plain

/-- What opens is of the kind that the bytes announce. -/
theorem kindAhead_of_openingOf? {d : Dialect} {kind : RegionKind} {s : List UInt8} {o : Opening}
    (h : openingOf? d kind s = some o) : kindAhead s = kind := by
  have htag {sigil : List UInt8} {anonymous : Bool}
      (h : tagOpening? kind sigil anonymous d.tags s = some o) : ∃ named,
        s = o.bracket.openByte :: (sigil ++ named) ∧
          (named.head?.any isNameStart = true ∨ anonymous = true) := by
    obtain ⟨-, -, hn⟩ := tagOpening?_eq_some_iff.mp h
    obtain ⟨named, hs, hname⟩ := tagOpenerLength?_eq_some_iff.mp hn
    exact ⟨named, hs, hname.imp And.left fun h => h.2.1⟩
  cases kind with
  | comment =>
      obtain ⟨-, -, -, hc⟩ := commentOpening?_eq_some_iff.mp h
      obtain ⟨z, rfl⟩ := List.isPrefixOf_iff_prefix.mp hc
      rfl
  | directiveStart =>
      obtain ⟨named, rfl, hname | hname⟩ := htag h
      · cases named with
        | nil => simp at hname
        | cons c z =>
            -- with a hyphen behind `<#` it would be a comment, but no name starts with one
            have hc : c ≠ hyphen := by
              rintro rfl
              rw [List.head?_cons, Option.any_some] at hname
              exact absurd hname (by decide)
            have hhash : (hash == braceOpen || hash == equals) = false := by decide
            simp only [List.cons_append, List.nil_append, kindAhead, hhash]
            simp [hc]
      · exact absurd hname (by simp)
  | directiveEnd | macroStart | macroEnd =>
      obtain ⟨named, rfl, -⟩ := htag h
      rfl
  | interpolation =>
      obtain ⟨hopens, -⟩ := interpolationOpening?_eq_some_iff.mp h
      obtain ⟨a, b, z, rfl, -, rfl | rfl⟩ := Expression.exists_of_opens hopens <;> rfl
  | markupComment =>
      obtain ⟨hp, -⟩ := markupCommentOpening?_eq_some_iff.mp h
      obtain ⟨z, rfl⟩ := List.isPrefixOf_iff_prefix.mp hp
      rfl
  | markupTag =>
      obtain ⟨n, hn, -⟩ := markupTagOpening?_eq_some_iff.mp h
      obtain ⟨b, rest, rfl, hcase⟩ := markupNameAt?_eq_some_iff.mp hn
      -- behind `</` and `<!` the byte is one that a name starts with, and so is none of the marks
      have hne {p : UInt8 → Bool} {c : UInt8} (hp : rest.head?.any p = true) (hc : p c = false) :
          (rest.head? == some c) = false := by
        cases rest with
        | nil => rfl
        | cons c' z =>
            have hne : c' ≠ c := by rintro rfl; simp [hc] at hp
            simpa using hne
      rcases hcase with ⟨-, hb⟩ | ⟨-, rfl | rfl, hrest⟩ | ⟨-, rfl, hrest⟩
      · have hb' {c : UInt8} (hc : isMarkupNameStart c = false) : (b == c) = false := by
          have hne : b ≠ c := by rintro rfl; exact absurd hb (by simp [hc])
          simpa using hne
        simp [kindAhead, hb' (c := braceOpen) (by decide), hb' (c := equals) (by decide),
          hb' (c := hash) (by decide), hb' (c := commercialAt) (by decide),
          hb' (c := slash) (by decide), hb' (c := exclamation) (by decide)]
      · show (if rest.head? == some hash then RegionKind.directiveEnd
          else if rest.head? == some commercialAt then .macroEnd else .markupTag) = .markupTag
        rw [hne hrest (by decide), hne hrest (by decide)]
        rfl
      · rfl
      · show (if rest.head? == some hyphen then RegionKind.markupComment else .markupTag) = .markupTag
        rw [hne hrest (by decide)]
        rfl
  | plain => exact absurd h (by simp [openingOf?])

theorem openingOf?_kind {d : Dialect} {kind : RegionKind} {s : List UInt8} {o : Opening}
    (h : openingOf? d kind s = some o) : o.kind = kind := by
  cases kind with
  | comment => exact (commentOpening?_eq_some_iff.mp h).1
  | directiveStart | directiveEnd | macroStart | macroEnd => exact (tagOpening?_eq_some_iff.mp h).1
  | interpolation => rw [(interpolationOpening?_eq_some_iff.mp h).2]
  | markupComment => rw [(markupCommentOpening?_eq_some_iff.mp h).2]
  | markupTag =>
      obtain ⟨n, -, rfl⟩ := markupTagOpening?_eq_some_iff.mp h
      rfl
  | plain => exact absurd h (by simp [openingOf?])

/-- No rule finds anything behind a byte that cannot start an opening. -/
theorem mayOpen_of_openingOf? {d : Dialect} {kind : RegionKind} {s : List UInt8} {o : Opening}
    (h : openingOf? d kind s = some o) : s.head?.any mayOpen = true := by
  have hbracket (b : Bracket) : mayOpen b.openByte = true := by cases b <;> decide
  cases kind with
  | comment =>
      obtain ⟨-, -, -, hc⟩ := commentOpening?_eq_some_iff.mp h
      obtain ⟨z, rfl⟩ := List.isPrefixOf_iff_prefix.mp hc
      exact hbracket _
  | directiveStart | directiveEnd | macroStart | macroEnd =>
      rw [head?_of_tagOpenerLength? (tagOpening?_eq_some_iff.mp h).2.2]
      exact hbracket _
  | interpolation =>
      obtain ⟨hopens, -⟩ := interpolationOpening?_eq_some_iff.mp h
      obtain ⟨a, b, z, rfl, rfl | rfl | rfl, -⟩ := Expression.exists_of_opens hopens <;> rfl
  | markupComment =>
      obtain ⟨z, rfl⟩ := List.isPrefixOf_iff_prefix.mp (markupCommentOpening?_eq_some_iff.mp h).1
      rfl
  | markupTag =>
      obtain ⟨n, hn, -⟩ := markupTagOpening?_eq_some_iff.mp h
      obtain ⟨b, rest, rfl, -⟩ := markupNameAt?_eq_some_iff.mp hn
      rfl
  | plain => exact absurd h (by simp [openingOf?])

/-- An opening takes at least two bytes, and they are there. -/
theorem openingOf?_bounds {d : Dialect} {kind : RegionKind} {s : List UInt8} {o : Opening}
    (h : openingOf? d kind s = some o) : 2 ≤ o.length ∧ o.length ≤ s.length := by
  cases kind with
  | comment =>
      obtain ⟨-, hl, -, hc⟩ := commentOpening?_eq_some_iff.mp h
      have := (List.isPrefixOf_iff_prefix.mp hc).length_le
      simp only [List.length_cons, List.length_nil] at this
      omega
  | directiveStart | directiveEnd | macroStart | macroEnd =>
      obtain ⟨named, rfl, hcase⟩ := tagOpenerLength?_eq_some_iff.mp (tagOpening?_eq_some_iff.mp h).2.2
      have := runLength_le_length isTagNameContinue named
      simp only [List.length_cons, List.length_append, List.length_nil] at hcase ⊢
      omega
  | interpolation =>
      obtain ⟨hopens, rfl⟩ := interpolationOpening?_eq_some_iff.mp h
      obtain ⟨a, b, z, rfl, -⟩ := Expression.exists_of_opens hopens
      simp
  | markupComment =>
      obtain ⟨hp, rfl⟩ := markupCommentOpening?_eq_some_iff.mp h
      have := (List.isPrefixOf_iff_prefix.mp hp).length_le
      simp only [List.length_cons, List.length_nil] at this
      simp only []
      omega
  | markupTag =>
      obtain ⟨n, hn, rfl⟩ := markupTagOpening?_eq_some_iff.mp h
      obtain ⟨b, rest, rfl, hcase⟩ := markupNameAt?_eq_some_iff.mp hn
      have hpos := markupName_length_pos hn
      have hle := runLength_le_length isMarkupNameContinue ((less :: b :: rest).drop n)
      simp only [List.length_drop] at hle ⊢
      omega
  | plain => exact absurd h (by simp [openingOf?])

theorem openingOf?_eq_none_of_ne {d : Dialect} {kind kind' : RegionKind} {s : List UInt8}
    {o : Opening} (h : openingOf? d kind s = some o) (hne : kind' ≠ kind) :
    openingOf? d kind' s = none := by
  cases h' : openingOf? d kind' s with
  | none => rfl
  | some o' =>
      exact absurd ((kindAhead_of_openingOf? h').symm.trans (kindAhead_of_openingOf? h)) hne

/-- **The rules do not compete: what opens is what the one rule of its kind finds.** -/
theorem openingBy?_eq_some_iff {rules : List RegionKind} {d : Dialect} {s : List UInt8}
    {o : Opening} :
    openingBy? rules d s = some o ↔ o.kind ∈ rules ∧ openingOf? d o.kind s = some o := by
  constructor
  · intro h
    obtain ⟨kind, hmem, ho⟩ := exists_of_openingBy? h
    rw [openingOf?_kind ho]
    exact ⟨hmem, ho⟩
  · rintro ⟨hmem, ho⟩
    rw [openingBy?, if_pos (mayOpen_of_openingOf? ho)]
    exact findSome?_eq_some_of_unique hmem ho fun kind' hne => openingOf?_eq_none_of_ne ho hne

theorem openingBy?_eq_none_iff {rules : List RegionKind} {d : Dialect} {s : List UInt8} :
    openingBy? rules d s = none ↔ ∀ kind ∈ rules, openingOf? d kind s = none := by
  constructor
  · intro h kind hmem
    cases ho : openingOf? d kind s with
    | none => rfl
    | some o =>
        have hk := openingOf?_kind ho
        subst hk
        rw [openingBy?_eq_some_iff.mpr ⟨hmem, ho⟩] at h
        exact absurd h (by simp)
  · intro h
    rw [openingBy?]
    split
    · exact List.findSome?_eq_none_iff.mpr h
    · rfl

end TemplateColoring.Region
