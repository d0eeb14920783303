import TemplateColoring.Fallible
import TemplateColoring.Token.Basic

/-!
# Sinks

Whoever colors a text writes its tokens into a sink, from the first to the last.  A sink drops empty
tokens, and puts a token of a kind without inner structure together with the one before it, if that
is of the same kind and stops where the token starts.
-/

set_option autoImplicit false

namespace TemplateColoring

/-- The tokens that are written so far, last first. -/
structure Sink where
  tokens : List Token := []
deriving DecidableEq, Repr

namespace Sink

/-- Writes a token behind the others. -/
def push? (sink : Sink) (kind : TokenKind) (start length : Nat) : Except Offset.Fault Sink :=
  if length = 0 then .ok sink
  else
    match sink.tokens with
    | [] => .ok ⟨[⟨kind, start, length⟩]⟩
    | last :: rest =>
      if last.kind = kind && kind.isMergeable then do
        if (← last.stop?) = start then
          (Offset.add last.length length).map fun length => ⟨{ last with length } :: rest⟩
        else .ok ⟨⟨kind, start, length⟩ :: last :: rest⟩
      else .ok ⟨⟨kind, start, length⟩ :: last :: rest⟩

/-- Writes a token that starts at an offset of a text, where the text starts at `base`. -/
def write? (sink : Sink) (base : Nat) (kind : TokenKind) (start length : Nat) :
    Except Offset.Fault Sink := do
  sink.push? kind (← Offset.add base start) length

/-- Writes a token between two offsets of a text, where the text starts at `base`. -/
def writeTo? (sink : Sink) (base : Nat) (kind : TokenKind) (start stop : Nat) :
    Except Offset.Fault Sink := do
  let place ← Offset.add base start
  sink.push? kind place (← Offset.sub stop start)

/-- The tokens that were written, in their order. -/
def finish (sink : Sink) : List Token := sink.tokens.reverse

end Sink

end TemplateColoring
