import TemplateColoring.Session.Cache
import TemplateColoring.Session.Tally

/-!
# Highlighting sessions

A session goes with a document that is highlighted again and again.  It keeps a cache of tokens and
a tally.  A pass colors only the regions whose tokens the cache does not hold, and leaves in the
cache just the tokens of the regions it met.
-/

set_option autoImplicit false

namespace TemplateColoring

structure Session where
  cache : TokenCache := .empty
  tally : Tally := {}
deriving DecidableEq, Repr

namespace Session

/-- Forgets all tokens. -/
def clear (s : Session) : Session := { s with cache := .empty }

/-- Forgets the tokens under other keys than the given ones. -/
def retain (s : Session) (keys : List CacheKey) : Session := { s with cache := s.cache.retain keys }

/-- Starts the tally anew. -/
def resetTally (s : Session) : Session := { s with tally := {} }

/-- Keeps tokens under a key. -/
def insert? (s : Session) (key : CacheKey) (start : Nat) (tokens : List Token) :
    Except Offset.Fault Session :=
  (s.cache.insert? key start tokens).map fun cache => { s with cache }

/-- Colors the text of a key that is not in the cache, and keeps the tokens. -/
def colorAnew (d : Dialect) (s : Session) (key : CacheKey) (start : Nat) :
    Except Offset.Fault (List Token) × Session :=
  let tokens := (Coloring.ofRegion d key.kind).tokens start key.text
  match s.tally.miss? with
  | .error fault => (.error fault, s)
  | .ok tally =>
    let s := { s with tally }
    match s.tally.color? 0 tokens.length with
    | .error fault => (.error fault, s)
    | .ok tally =>
      let s := { s with tally }
      match s.insert? key start tokens with
      | .error fault => (.error fault, s)
      | .ok s => (.ok tokens, s)

/-- The tokens of a text that starts at `start`, from the cache or made anew. -/
def color (d : Dialect) (s : Session) (key : CacheKey) (start : Nat) :
    Except Offset.Fault (List Token) × Session :=
  match s.cache.find? key start with
  | .error fault => (.error fault, s)
  | .ok (some tokens) =>
    match s.tally.hit? with
    | .error fault => (.error fault, s)
    | .ok tally => (.ok tokens, { s with tally })
  | .ok none => s.colorAnew d key start

/-- Colors the regions that are left in a pass.  `done` holds what is colored, last first, and
`used` the keys that were met.  A fault ends the pass, and the cache is not swept then. -/
def highlightFrom (d : Dialect) (t : Template) :
    List Region → List CacheKey → List Highlighted → Session →
      Except Offset.Fault (List Highlighted) × Session
  | [], used, done, s => (.ok done.reverse, s.retain used)
  | r :: rest, used, done, s =>
    match t.slice? r.start r.stop with
    | none => highlightFrom d t rest used (⟨r, t.color d r⟩ :: done) s
    | some text =>
      let key := CacheKey.ofText r.kind text
      match s.color d key r.start with
      | (.error fault, s) => (.error fault, s)
      | (.ok tokens, s) => highlightFrom d t rest (key :: used) (⟨r, tokens⟩ :: done) s

/-- The regions of a template with their tokens, and the session after the pass. -/
def highlight (d : Dialect) (s : Session) (t : Template) :
    Except Offset.Fault (List Highlighted) × Session :=
  highlightFrom d t (t.regions d) [] [] { s with tally := s.tally.scan 0 }

end Session

end TemplateColoring
