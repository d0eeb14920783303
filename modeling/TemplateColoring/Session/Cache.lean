import TemplateColoring.Token.Region

/-!
# Caching tokens

The coloring of a region depends on its kind and its text alone, so tokens are kept under both and
used again wherever the same text stands.  The cache keeps them relative to the start of the text.
-/

set_option autoImplicit false

namespace TemplateColoring

/-- What tokens are kept under: the kind and the text of a region, and the length that the tokens
are to have together. -/
structure CacheKey where
  kind : RegionKind
  length : Nat
  text : List UInt8
deriving DecidableEq, Repr

/-- The key of a region's text. -/
def CacheKey.ofText (kind : RegionKind) (text : List UInt8) : CacheKey := ⟨kind, text.length, text⟩

/-- Tokens under keys.  No key occurs twice. -/
structure TokenCache where
  entries : List (CacheKey × List Token)
deriving DecidableEq, Repr

namespace TokenCache

def empty : TokenCache := ⟨[]⟩

def size (c : TokenCache) : Nat := c.entries.length

/-- Tokens moved back by `start`, if none of them starts in front of it. -/
def relative? (start : Nat) (tokens : List Token) : Except Offset.Fault (List Token) :=
  tokens.mapM fun t => (Offset.sub t.start start).map fun start => { t with start }

/-- Tokens moved on by `start`, if there are offsets for all of them. -/
def absolute? (start : Nat) (tokens : List Token) : Except Offset.Fault (List Token) :=
  tokens.mapM fun t => (Offset.add t.start start).map fun start => { t with start }

/-- The tokens under a key, for a text that starts at `start`.  Tokens that do not end where the
length in the key says are no answer. -/
def find? (c : TokenCache) (key : CacheKey) (start : Nat) :
    Except Offset.Fault (Option (List Token)) :=
  match c.entries.lookup key with
  | none => .ok none
  | some tokens => do
    let stop ← match tokens.getLast? with
      | some t => t.stop?
      | none => .ok 0
    if stop = key.length then return some (← absolute? start tokens) else return none

/-- Keeps the tokens of a text that starts at `start` under a key, in place of any kept there
before. -/
def insert? (c : TokenCache) (key : CacheKey) (start : Nat) (tokens : List Token) :
    Except Offset.Fault TokenCache :=
  (relative? start tokens).map fun tokens =>
    ⟨(key, tokens) :: c.entries.filter (·.1 != key)⟩

/-- Drops what is under other keys than the given ones. -/
def retain (c : TokenCache) (keys : List CacheKey) : TokenCache :=
  ⟨c.entries.filter fun e => keys.contains e.1⟩

end TokenCache

end TemplateColoring
