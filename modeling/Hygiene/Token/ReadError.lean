import Hygiene.Diagnostic
import Hygiene.Text.Quoted

/-!
# Faults in a text

The ways in which a text is not a sequence of tokens, each at a span.
-/

namespace Hygiene

/-- What is wrong with a text. -/
inductive ReadFault where
  | unterminatedString
  | unterminatedTemplate
  | unterminatedComment
  | unclosed (opener : Char)
  | unbalanced (found : Char) (expected : Option Char)
  | unexpected (found : Char)
  | invalidNumber (raw : String)
deriving Repr, DecidableEq

/-- A fault and the span it is found at. -/
structure ReadError where
  fault : ReadFault
  span : Span
deriving Repr, DecidableEq

namespace ReadFault

/-- The message for a fault. -/
def message : ReadFault → String
  | unterminatedString => "unterminated string literal"
  | unterminatedTemplate => "unterminated syntax template"
  | unterminatedComment => "unterminated block comment"
  | unclosed opener => "unclosed delimiter `" ++ opener.toString ++ "`"
  | unbalanced found (some closer) =>
    "mismatched closing delimiter `" ++ found.toString ++ "`, expected `" ++ closer.toString ++ "`"
  | unbalanced found none => "unexpected closing delimiter `" ++ found.toString ++ "`"
  | unexpected found => "unexpected character " ++ Text.quotedChar found
  | invalidNumber raw => "invalid numeric literal `" ++ raw ++ "`"

/-- The advice for a fault. -/
def help : ReadFault → List String
  | unbalanced _ (some closer) => ["the innermost open delimiter expects `" ++ closer.toString ++ "`"]
  | _ => []

end ReadFault

/-- The code of every read error. -/
def ReadError.code : String := "E0804"

/-- The diagnostic of a fault in a registered text. -/
def ReadError.diagnostic (e : ReadError) (sources : Sources) (file : Nat) : Diagnostic where
  severity := .error
  code := some code
  message := e.fault.message
  location := sources.locate file e.span
  help := e.fault.help

end Hygiene
