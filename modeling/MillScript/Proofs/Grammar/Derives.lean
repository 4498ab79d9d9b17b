import MillScript.SyntaxTree.Parse

/-! # The grammar of scripts

    Which tokens make up a phrase, and which trees they stand for:

        program   := statement*
        statement := loop | block | expr ';'
        loop      := 'for' IDENT 'in' expr block
        block     := '{' statement* '}'
        expr      := IDENT '=' expr | math
        math      := term (('+' | '-') term)*
        term      := unary (('*' | '/') unary)*
        unary     := '-' unary | power
        power     := primary ['^' unary]
        primary   := atom '!'*
        atom      := STRING | number | '(' expr ')' | IDENT '(' [params] ')' | IDENT
        params    := param (',' param)*
        param     := IDENT '=' expr | math

    A phrase stands for a list of trees: a repetition for one tree after the
    other, its operators among them, any other phrase for one.  A chain of
    one operand is that operand, and parentheses leave no node. -/

namespace MillScript.Parsing

/-- The phrases of the grammar. -/
inductive Phrase where
  | statements
  | statement
  | loop
  | block
  | expr
  | math
  /-- The operands and operators of a sum. -/
  | summands
  | term
  /-- The operands and operators of a product. -/
  | factors
  | unary
  | power
  /-- An operand with its factorial signs. -/
  | primary
  | atom
  /-- The parameters of a call, which may have none. -/
  | arguments
  | params
  | param
deriving DecidableEq

/-- A token that is a given sign. -/
def IsSymbol (t : Token) (s : Symbol) : Prop := t.lexeme = .symbol s

/-- A token that is a name. -/
def IsName (t : Token) : Prop := ∃ name, t.lexeme = .identifier name

/-- A token that is a number. -/
def IsNumber (t : Token) (unit : Option LengthUnit) : Prop :=
  ∃ digits, t.lexeme = .integer digits unit ∨ t.lexeme = .decimal digits unit

/-- The tokens of a phrase and the trees that they stand for. -/
inductive Derives : Phrase → List Token → List Tree → Prop
  | noStatement : Derives .statements [] []
  | moreStatements {ts us : List Token} {done : List Tree} {s : Tree}
      (hdone : Derives .statements ts done) (hs : Derives .statement us [s]) :
      Derives .statements (ts ++ us) (done ++ [s])
  | loopStatement {ts : List Token} {s : Tree} (h : Derives .loop ts [s]) :
      Derives .statement ts [s]
  | blockStatement {ts : List Token} {s : Tree} (h : Derives .block ts [s]) :
      Derives .statement ts [s]
  | exprStatement {t semicolon : Token} {ts : List Token} {v : Tree}
      (h : Derives .expr (t :: ts) [v]) (hend : IsSymbol semicolon .semicolon) :
      Derives .statement (t :: ts ++ [semicolon]) [.node .statement t.location [v]]
  | loop {keyword name inKeyword : Token} {ts us : List Token} {source body : Tree}
      (hfor : keyword.lexeme = .forKeyword) (hname : IsName name)
      (hin : inKeyword.lexeme = .inKeyword) (hsource : Derives .expr ts [source])
      (hbody : Derives .block us [body]) :
      Derives .loop (keyword :: name :: inKeyword :: ts ++ us)
        [.node .forLoop keyword.location [.leaf .identifier name, source, body]]
  | block {opening closing : Token} {ts : List Token} {done : List Tree}
      (hopen : IsSymbol opening .openBrace) (h : Derives .statements ts done)
      (hclose : IsSymbol closing .closeBrace) :
      Derives .block (opening :: ts ++ [closing]) [.node .block opening.location done]
  | assign {name sign : Token} {ts : List Token} {v : Tree} (hname : IsName name)
      (hsign : IsSymbol sign .assign) (h : Derives .expr ts [v]) :
      Derives .expr (name :: sign :: ts)
        [.node .assign name.location [.leaf .identifier name, v]]
  | mathExpr {ts : List Token} {v : Tree} (h : Derives .math ts [v]) : Derives .expr ts [v]
  | loneTerm {ts : List Token} {v : Tree} (h : Derives .summands ts [v]) : Derives .math ts [v]
  | sum {ts : List Token} {first : Tree} {rest : List Tree}
      (h : Derives .summands ts (first :: rest)) (hrest : rest ≠ []) :
      Derives .math ts [.node .sum first.location (first :: rest)]
  | firstTerm {ts : List Token} {v : Tree} (h : Derives .term ts [v]) : Derives .summands ts [v]
  | moreTerms {ts us : List Token} {sign : Token} {done : List Tree} {v : Tree}
      (hdone : Derives .summands ts done) (hsign : IsSymbol sign .plus ∨ IsSymbol sign .minus)
      (h : Derives .term us [v]) :
      Derives .summands (ts ++ sign :: us) (done ++ [.leaf .operator sign, v])
  | loneFactor {ts : List Token} {v : Tree} (h : Derives .factors ts [v]) : Derives .term ts [v]
  | product {ts : List Token} {first : Tree} {rest : List Tree}
      (h : Derives .factors ts (first :: rest)) (hrest : rest ≠ []) :
      Derives .term ts [.node .product first.location (first :: rest)]
  | firstFactor {ts : List Token} {v : Tree} (h : Derives .unary ts [v]) :
      Derives .factors ts [v]
  | moreFactors {ts us : List Token} {sign : Token} {done : List Tree} {v : Tree}
      (hdone : Derives .factors ts done) (hsign : IsSymbol sign .star ∨ IsSymbol sign .slash)
      (h : Derives .unary us [v]) :
      Derives .factors (ts ++ sign :: us) (done ++ [.leaf .operator sign, v])
  | negation {sign : Token} {ts : List Token} {v : Tree} (hsign : IsSymbol sign .minus)
      (h : Derives .unary ts [v]) :
      Derives .unary (sign :: ts) [.node .negation sign.location [.leaf .operator sign, v]]
  | powerUnary {ts : List Token} {v : Tree} (h : Derives .power ts [v]) : Derives .unary ts [v]
  | power {ts us : List Token} {sign : Token} {base exponent : Tree}
      (hbase : Derives .primary ts [base]) (hsign : IsSymbol sign .caret)
      (hexponent : Derives .unary us [exponent]) :
      Derives .power (ts ++ sign :: us)
        [.node .power base.location [base, .leaf .operator sign, exponent]]
  | primaryPower {ts : List Token} {v : Tree} (h : Derives .primary ts [v]) :
      Derives .power ts [v]
  | factorial {ts : List Token} {sign : Token} {v : Tree} (h : Derives .primary ts [v])
      (hsign : IsSymbol sign .bang) :
      Derives .primary (ts ++ [sign])
        [.node .factorial v.location [v, .leaf .operator sign]]
  | loneAtom {ts : List Token} {v : Tree} (h : Derives .atom ts [v]) : Derives .primary ts [v]
  | string {t : Token} {text : String} (h : t.lexeme = .string text) :
      Derives .atom [t] [.leaf .string t]
  | number {t : Token} {unit : Option LengthUnit} (h : IsNumber t unit) :
      Derives .atom [t] [.leaf (if unit.isSome then .unitNumber else .unitlessNumber) t]
  | group {opening closing : Token} {ts : List Token} {v : Tree}
      (hopen : IsSymbol opening .openParen) (h : Derives .expr ts [v])
      (hclose : IsSymbol closing .closeParen) :
      Derives .atom (opening :: ts ++ [closing]) [v]
  | call {name opening closing : Token} {ts : List Token} {params : List Tree}
      (hname : IsName name) (hopen : IsSymbol opening .openParen)
      (h : Derives .arguments ts params) (hclose : IsSymbol closing .closeParen) :
      Derives .atom (name :: opening :: ts ++ [closing])
        [.node .call name.location
          [.leaf .identifier name, .node .params opening.location params]]
  | name {name : Token} (hname : IsName name) :
      Derives .atom [name] [.leaf .identifier name]
  | noArguments : Derives .arguments [] []
  | someArguments {ts : List Token} {params : List Tree} (h : Derives .params ts params) :
      Derives .arguments ts params
  | firstParam {ts : List Token} {v : Tree} (h : Derives .param ts [v]) : Derives .params ts [v]
  | moreParams {ts us : List Token} {comma : Token} {done : List Tree} {v : Tree}
      (hdone : Derives .params ts done) (hcomma : IsSymbol comma .comma)
      (h : Derives .param us [v]) : Derives .params (ts ++ comma :: us) (done ++ [v])
  | namedParam {name sign : Token} {ts : List Token} {v : Tree} (hname : IsName name)
      (hsign : IsSymbol sign .assign) (h : Derives .expr ts [v]) :
      Derives .param (name :: sign :: ts)
        [.node .namedParam name.location [.leaf .identifier name, v]]
  | positionalParam {t : Token} {ts : List Token} {v : Tree}
      (h : Derives .math (t :: ts) [v]) :
      Derives .param (t :: ts) [.node .positionalParam t.location [v]]

/-- The tree of a whole script, by the grammar. -/
def DerivesProgram (s : TokenStream) (t : Tree) : Prop :=
  ∃ statements, Derives .statements s.tokens statements
    ∧ t = .node .program s.start statements

end MillScript.Parsing
