import Specializer.Token.Basic

set_option autoImplicit false

namespace Specializer

def keywords : List (List Char) :=
  ["abstract", "assert", "boolean", "break", "byte", "case", "catch", "char",
   "class", "const", "continue", "default", "do", "double", "else", "enum",
   "extends", "final", "finally", "float", "for", "goto", "if", "implements",
   "import", "instanceof", "int", "interface", "long", "native", "new",
   "package", "private", "protected", "public", "return", "short", "static",
   "strictfp", "super", "switch", "synchronized", "this", "throw", "throws",
   "transient", "try", "void", "volatile", "while", "true", "false", "null"].map String.toList

def primitiveWords : List (List Char) :=
  ["boolean", "byte", "char", "short", "int", "long", "float", "double", "void"].map String.toList

def modifiers : List (List Char) :=
  ["public", "protected", "private", "static", "final", "abstract", "native",
   "synchronized", "transient", "volatile", "strictfp", "default", "sealed"].map String.toList

def declarationWords : List (List Char) :=
  ["class", "interface", "enum", "record"].map String.toList

def supertypeWords : List (List Char) :=
  ["extends", "implements", "permits"].map String.toList

namespace Lexeme

def isKeyword (lexeme : Lexeme) : Bool := lexeme.kind == .ident && keywords.contains lexeme.text

def isName (lexeme : Lexeme) : Bool := lexeme.kind == .ident && !keywords.contains lexeme.text

def isPrimitive (lexeme : Lexeme) : Bool :=
  lexeme.kind == .ident && primitiveWords.contains lexeme.text

def isModifier (lexeme : Lexeme) : Bool :=
  lexeme.kind == .ident && modifiers.contains lexeme.text

def opensSupertypes (lexeme : Lexeme) : Bool :=
  lexeme.kind == .ident && supertypeWords.contains lexeme.text

end Lexeme

def Kind.closer? : Kind → Option Kind
  | .lpar => some .rpar
  | .lsqb => some .rsqb
  | .lbrace => some .rbrace
  | _ => none

def Kind.isCloser : Kind → Bool
  | .rpar | .rsqb | .rbrace => true
  | _ => false

def Kind.followsType : Kind → Bool
  | .ident | .lsqb | .dot | .dcolon | .ellipsis | .rpar | .semi | .comma | .amp | .lbrace
  | .qmark => true
  | _ => false

end Specializer
