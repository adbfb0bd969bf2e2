/-!
# Symbols

A symbol stands for a text that an interner has stored. Two symbols of one interner are equal
exactly when their texts are, so that comparing symbols never looks at characters. A symbol also
carries the hash of its text, which places it in a `SymbolTable`.

## Main definitions

* `fnv1a`: the 32-bit FNV-1a hash of a sequence of bytes.
* `Symbol`: the index of a stored text and its hash.
* `Interner`: the stored texts, with `Interner.intern`, `Interner.find?` and `Interner.text`.
-/

namespace Lox

/-- The 32-bit FNV-1a hash of a sequence of bytes. -/
def fnv1a (bytes : Array UInt8) : UInt32 :=
  bytes.foldl (fun hash byte => (hash ^^^ byte.toUInt32) * 16777619) 2166136261

/-- The hash of a text is that of its UTF-8 bytes. -/
def textHash (text : String) : UInt32 := fnv1a text.toUTF8.data

/-- A stored text: its index in the interner, counted from 0, and its hash. -/
structure Symbol where
  index : Nat
  hash : UInt32
  deriving DecidableEq, Repr, Inhabited

/-- The texts stored so far, in the order in which they were first seen. -/
structure Interner where
  texts : Array String
  deriving DecidableEq, Repr

namespace Interner

/-- An interner that has stored nothing. -/
def empty : Interner := ⟨#[]⟩

instance : Inhabited Interner := ⟨empty⟩

/-- The number of texts stored. -/
def size (i : Interner) : Nat := i.texts.size

/-- The symbol of a text, if the text has been stored. -/
def find? (i : Interner) (text : String) : Option Symbol :=
  (i.texts.findIdx? (· == text)).map fun index => ⟨index, textHash text⟩

/-- The symbol of a text, storing the text if it is new. -/
def intern (i : Interner) (text : String) : Symbol × Interner :=
  match i.find? text with
  | some symbol => (symbol, i)
  | none => (⟨i.size, textHash text⟩, ⟨i.texts.push text⟩)

/-- The text of a symbol, and the empty text if no text has the symbol's index. -/
def text (i : Interner) (symbol : Symbol) : String :=
  i.texts.getD symbol.index ""

end Interner

end Lox
