import MillScript.Fault

/-! # Tokens

    A token is a lexeme and the place where it stands.  `Lexeme.spelling`
    is the text of a lexeme in a script; it is what the scanner consumes. -/

namespace MillScript

/-- Signs that are tokens by themselves. -/
inductive Symbol where
  | plus
  | minus
  | star
  | slash
  | caret
  | bang
  | assign
  | openParen
  | closeParen
  | openBrace
  | closeBrace
  | comma
  | semicolon
deriving DecidableEq

namespace Symbol

/-- All signs. -/
def all : List Symbol :=
  [.plus, .minus, .star, .slash, .caret, .bang, .assign, .openParen, .closeParen,
    .openBrace, .closeBrace, .comma, .semicolon]

def char : Symbol → Char
  | .plus => '+'
  | .minus => '-'
  | .star => '*'
  | .slash => '/'
  | .caret => '^'
  | .bang => '!'
  | .assign => '='
  | .openParen => '('
  | .closeParen => ')'
  | .openBrace => '\x7b'
  | .closeBrace => '\x7d'
  | .comma => ','
  | .semicolon => ';'

/-- The sign that a character is. -/
def ofChar? (c : Char) : Option Symbol :=
  all.find? fun s => s.char == c

@[simp] theorem ofChar?_char (s : Symbol) : ofChar? s.char = some s := by
  cases s <;> rfl

theorem char_of_ofChar? {c : Char} {s : Symbol} (h : ofChar? c = some s) : s.char = c := by
  have hs := List.find?_some h
  exact eq_of_beq hs

end Symbol

/-- What a token says. -/
inductive Lexeme where
  | identifier (name : String)
  | forKeyword
  | inKeyword
  | integer (digits : String) (unit : Option LengthUnit)
  | decimal (digits : String) (unit : Option LengthUnit)
  | string (text : String)
  | symbol (sign : Symbol)
deriving DecidableEq

namespace Lexeme

/-- The name of the kind of lexeme. -/
def kindName : Lexeme → String
  | .identifier _ => "identifier"
  | .forKeyword => "'for'"
  | .inKeyword => "'in'"
  | .integer _ _ => "integer"
  | .decimal _ _ => "decimal"
  | .string _ => "string"
  | .symbol s => "'" ++ s.char.toString ++ "'"

/-- The text of a lexeme: what a string says, the digits of a number. -/
def text : Lexeme → String
  | .identifier name => name
  | .forKeyword => "for"
  | .inKeyword => "in"
  | .integer digits _ => digits
  | .decimal digits _ => digits
  | .string text => text
  | .symbol s => s.char.toString

/-- The suffix of a number. -/
def unitName : Lexeme → String
  | .integer _ unit => Quantity.unitName unit
  | .decimal _ unit => Quantity.unitName unit
  | _ => ""

/-- The text of a string with every quote doubled. -/
def doubleQuotes : List Char → List Char
  | [] => []
  | '\'' :: cs => '\'' :: '\'' :: doubleQuotes cs
  | c :: cs => c :: doubleQuotes cs

/-- The characters of a lexeme in a script. -/
def spelling : Lexeme → List Char
  | .string text => '\'' :: doubleQuotes text.toList ++ ['\'']
  | lexeme => lexeme.text.toList ++ lexeme.unitName.toList

end Lexeme

/-- A lexeme at a place. -/
structure Token where
  lexeme : Lexeme
  location : Location
deriving DecidableEq

/-- The tokens of a script and the place where it ends. -/
structure TokenStream where
  tokens : List Token
  stop : Location
deriving DecidableEq

namespace TokenStream

/-- The place of the first token, or of the end when there is none. -/
def start (s : TokenStream) : Location :=
  match s.tokens with
  | [] => s.stop
  | t :: _ => t.location

end TokenStream

end MillScript
