import Specializer.Text.Quoted
import Specializer.Token.Basic

set_option autoImplicit false

namespace Specializer

def padRight (width : Nat) (text : String) : String := text.pushn ' ' (width - text.length)

def padLeft (width : Nat) (text : String) : String := "".pushn ' ' (width - text.length) ++ text

def Token.listingLine (token : Token) (index : Nat) : String :=
  padLeft 5 (toString index) ++ "  " ++ padRight 13 token.kind.label ++ " " ++
    toString token.start.line ++ ":" ++ padRight 6 (toString token.start.col) ++ " " ++
    String.ofList (quoted token.text)

def tokenListing (tokens : List Token) : String :=
  String.intercalate "\n" (tokens.mapIdx fun index token => token.listingLine index)

end Specializer
