import Lox.Token.Scan

/-!
# Respelling

A source with some of its tokens spelled in another way. The gaps between the tokens stay as they
are.

## Main definitions

* `Place.gap`: the text passed over before the next token.
* `respell`: the source with each token spelled anew.
-/

namespace Lox

namespace Place

/-- The text before the next token, or up to the end of the source. -/
def gap (p : Place) : List Char := p.rest.take (p.rest.length - p.skipGap.rest.length)

/-- The text from a place on, with each token spelled anew. -/
def respell (spelling : Token → String) (p : Place) : List Char :=
  match _h : p.next? with
  | none => p.rest
  | some (t, q) => p.gap ++ (spelling t).toList ++ q.respell spelling
termination_by p.rest.length
decreasing_by exact length_rest_lt_of_next? _h

end Place

/-- The source with each token spelled anew. -/
def respell (spelling : Token → String) (source : String) : String :=
  String.ofList ((Place.start source).respell spelling)

end Lox
