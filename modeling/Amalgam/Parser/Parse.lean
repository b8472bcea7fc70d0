/- Module: Amalgam/Parser/Parse
   digest: The parser: match the grammar, then verify the module. -/

import Amalgam.Parser.Actions
import Amalgam.Parser.Verifier

set_option autoImplicit false
set_option relaxedAutoImplicit false

namespace Amalgam.Parser

open Amalgam.Cxx (Fault faults)
open Amalgam.Pegtl (Str Input Location locate)

def parseErrorMessage (l : Location) : Str :=
  "parsing aborted at ".toList ++ (toString l.line).toList ++ ",".toList ++
    (toString l.column).toList

/-- The states after a completed match, or what the match threw. A match under `Must`
that fails without throwing trips the assertion of `pegtl::parse`. -/
def matched (s : Str) : Except Fault ParseState :=
  match matchGrammar s with
  | .ok _ st => .ok st
  | .parseError location => .error (.runtimeError (parseErrorMessage (locate s location)))
  | .raised e => .error e
  | .fail _ _ => .error .assertionFailed
  | .diverged => .error .divergence

/-- `parser::parse`; `none` is the null module. -/
def parse (s : Str) : Except Fault (Option Module) := do
  let st ← matched s
  let verdict ← faults (Verifier.verify st.module)
  if verdict.1 then .ok (some verdict.2.1) else .ok none

end Amalgam.Parser
