import Hygiene.Eval.Error
import Hygiene.Module.Dialect
import Hygiene.Token.ReadError

/-!
# Errors of expansion

What ends an expansion, where, and how it is reported.
-/

namespace Hygiene

/-- Tokens that do not form a term. -/
inductive ParseFault where
  /-- Another token than the expected one; no token at the end. -/
  | unexpected (found : Option String) (expected : String)
  | malformed (what tokens : String)
  | invalidTarget
  | restNotLast
  | invalidParameter (tokens : String)
  | bareTemplate
  | emptyGroup
  | invalidPropertyName (token : String)
  | undeclaredExport (name : String)
  | pragma (fault : PragmaFault)
deriving Repr, DecidableEq

/-- The message for tokens that do not form a term. -/
def ParseFault.message : ParseFault → String
  | unexpected (some found) expected => "unexpected `" ++ found ++ "`, expected " ++ expected
  | unexpected none expected => "unexpected end of input, expected " ++ expected
  | malformed what tokens => "malformed " ++ what ++ " `" ++ tokens ++ "`"
  | invalidTarget => "invalid assignment target"
  | restNotLast => "a rest parameter must be last"
  | invalidParameter tokens => "invalid parameter `" ++ tokens ++ "`"
  | bareTemplate => "a syntax template must be written `#`...`` or syntaxQuote`...`"
  | emptyGroup => "expected an expression in the group"
  | invalidPropertyName token => "invalid property name `" ++ token ++ "`"
  | undeclaredExport name => "cannot export '" ++ name ++ "': it is not declared"
  | pragma fault => fault.message

/-- Why a declaration does not give a transformer. -/
inductive DeclarationFault where
  | evaluation (signal : Signal)
  | notATransformer (typeName : String)
  | runtimeReference (name : String)
  | undefinedReference (name : String)

/-- The message for a declaration that gives no transformer. -/
def DeclarationFault.message : DeclarationFault → String
  | evaluation signal => signal.message
  | notATransformer typeName =>
    "the initializer evaluated to " ++ typeName ++ ", expected a transformer function"
  | runtimeReference name => "'" ++ name ++ "' is a runtime binding and is not available at compile time"
  | undefinedReference name => "'" ++ name ++ "' is not defined"

/-- Why an invocation of a transformer gives no syntax. -/
inductive InvocationFault where
  | evaluation (signal : Signal)
  | wrongResult (typeName : String)
  | wrongItem (typeName : String)

/-- The message for an invocation that gives no syntax. -/
def InvocationFault.message : InvocationFault → String
  | evaluation signal => signal.message
  | wrongResult typeName => "transformer returned " ++ typeName ++ ", expected syntax"
  | wrongItem typeName => "transformer returned an array containing " ++ typeName ++ ", expected syntax"

/-- What ends an expansion. -/
inductive ExpandFault where
  | moduleNotFound (specifier reason : String)
  | declaration (name : String) (fault : DeclarationFault)
  | invocation (name : String) (fault : InvocationFault)
  | read (specifier : String) (fault : ReadFault)
  | parse (fault : ParseFault)
  | circularImport (chain : List String)
  | missingExport (specifier name : String)
  | expansionLimit (limit : Nat)
  | evaluation (signal : Signal)
  /-- The expansion was not given enough steps. -/
  | exhausted

namespace ExpandFault

/-- A chain of imports as it is shown. -/
def chainText (chain : List String) : String := " -> ".intercalate chain

/-- The message for what ends an expansion. -/
def message : ExpandFault → String
  | moduleNotFound specifier reason => "cannot find module '" ++ specifier ++ "': " ++ reason
  | declaration name fault => "syntax declaration '" ++ name ++ "' failed: " ++ fault.message
  | invocation name fault => "expanding macro '" ++ name ++ "' failed: " ++ fault.message
  | read specifier fault => fault.message ++ " in '" ++ specifier ++ "'"
  | parse fault => fault.message
  | circularImport chain => "circular import: " ++ chainText chain
  | missingExport specifier name => "module '" ++ specifier ++ "' has no export named '" ++ name ++ "'"
  | expansionLimit limit => "expansion limit of " ++ toString limit ++ " macro invocations reached"
  | evaluation signal => "evaluation failed: " ++ signal.message
  | exhausted => "the expansion was not finished"

/-- The code under which an error is reported. -/
def code : ExpandFault → String
  | moduleNotFound _ _ => "E0801"
  | declaration _ _ => "E0802"
  | invocation _ _ => "E0803"
  | read _ _ => "E0804"
  | parse _ => "E0805"
  | circularImport _ => "E0806"
  | missingExport _ _ => "E0807"
  | expansionLimit _ => "E0808"
  | evaluation _ => "E0809"
  | exhausted => "E0899"

/-- The advice for an error. -/
def help : ExpandFault → Option String
  | moduleNotFound specifier _ => some ("check that '" ++ specifier ++ "' is known to the module loader")
  | declaration _ _ => some "compile-time code can only use other macros and `for syntax` imports"
  | circularImport chain => some ("break the import cycle: " ++ chainText chain)
  | expansionLimit _ => some "a macro may be re-introducing itself; raise `max_expansions` if not"
  | evaluation signal => signal.help
  | _ => none

end ExpandFault

/-- What ends an expansion, and where. -/
structure ExpandError where
  fault : ExpandFault
  location : Option Location

/-- The diagnostic of an error. -/
def ExpandError.diagnostic (e : ExpandError) : Diagnostic where
  severity := .error
  code := some e.fault.code
  message := e.fault.message
  location := e.location
  help := e.fault.help.toList

end Hygiene
