/-!
# Spans and sites

A span is a range of byte offsets in one text; a site is a span with the text it lies in. Tokens that were never written
have the unknown site.
-/

namespace Hygiene

/-- A range of byte offsets: `start` is the first byte, `stop` the first one after it. -/
structure Span where
  start : Nat
  stop : Nat
deriving Repr, DecidableEq

/-- The smallest span that covers both. -/
def Span.merge (a b : Span) : Span := ⟨min a.start b.start, max a.stop b.stop⟩

/-- Where a token was written: the number of its text, if there is one, and its span there. -/
structure Site where
  file : Option Nat
  span : Span
deriving Repr, DecidableEq

/-- The site of what was never written. -/
def Site.unknown : Site := ⟨none, ⟨0, 0⟩⟩

/-- The smallest site that covers both, when they lie in one text; otherwise the first. -/
def Site.cover (a b : Site) : Site :=
  if a.file = b.file then ⟨a.file, a.span.merge b.span⟩ else a

end Hygiene
