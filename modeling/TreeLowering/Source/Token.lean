import TreeLowering.Source.Coded

/-!
Lexical tokens. The tree keeps a token where a node depends on it: operators, `break` and
`continue`, `let` and `var`.
-/
namespace TreeLowering

/-- The kinds of token, in the order of their numbers. -/
inductive TokenKind where
  | eof | error | name | literal | assign | orOr | andAnd | eql
  | neq | lss | leq | gtr | geq | add | sub | or
  | xor | mul | div | rem | and | shl | shr | not
  | tilde | inc | dec | arrow | leftParen | rightParen | leftBracket | rightBracket
  | leftBrace | rightBrace | comma | semicolon | colon | dot | breakWord | continueWord
  | elifWord | elseWord | externWord | forWord | funWord | ifWord | letWord | modWord
  | returnWord | structWord | varWord | whileWord
deriving DecidableEq, Repr, Inhabited

namespace TokenKind

/-- Every kind, in the order of the numbers. -/
def all : List TokenKind := [
  .eof, .error, .name, .literal, .assign, .orOr, .andAnd, .eql,
  .neq, .lss, .leq, .gtr, .geq, .add, .sub, .or,
  .xor, .mul, .div, .rem, .and, .shl, .shr, .not,
  .tilde, .inc, .dec, .arrow, .leftParen, .rightParen, .leftBracket, .rightBracket,
  .leftBrace, .rightBrace, .comma, .semicolon, .colon, .dot, .breakWord, .continueWord,
  .elifWord, .elseWord, .externWord, .forWord, .funWord, .ifWord, .letWord, .modWord,
  .returnWord, .structWord, .varWord, .whileWord]

/-- How a token is written. -/
def text : TokenKind → String
  | .eof => "EOF"
  | .error => "ERROR"
  | .name => "NAME"
  | .literal => "LITERAL"
  | .assign => "="
  | .orOr => "||"
  | .andAnd => "&&"
  | .eql => "=="
  | .neq => "!="
  | .lss => "<"
  | .leq => "<="
  | .gtr => ">"
  | .geq => ">="
  | .add => "+"
  | .sub => "-"
  | .or => "|"
  | .xor => "^"
  | .mul => "*"
  | .div => "/"
  | .rem => "%"
  | .and => "&"
  | .shl => "<<"
  | .shr => ">>"
  | .not => "!"
  | .tilde => "~"
  | .inc => "++"
  | .dec => "--"
  | .arrow => "->"
  | .leftParen => "("
  | .rightParen => ")"
  | .leftBracket => "["
  | .rightBracket => "]"
  | .leftBrace => "\x7b"
  | .rightBrace => "\x7d"
  | .comma => ","
  | .semicolon => ";"
  | .colon => ":"
  | .dot => "."
  | .breakWord => "break"
  | .continueWord => "continue"
  | .elifWord => "elif"
  | .elseWord => "else"
  | .externWord => "extern"
  | .forWord => "for"
  | .funWord => "fun"
  | .ifWord => "if"
  | .letWord => "let"
  | .modWord => "mod"
  | .returnWord => "return"
  | .structWord => "struct"
  | .varWord => "var"
  | .whileWord => "while"

end TokenKind

/-- A token as it is stored in a tree. -/
abbrev Token := Coded TokenKind

namespace Token

/-- The token with a given number. -/
def ofCode (code : Nat) : Token := Coded.ofCode TokenKind.all code

/-- How a token is written; one outside the enumeration shows its number. -/
def text : Token → String
  | .known k => k.text
  | .unknown code => "token(" ++ toString code ++ ")"

/-- Whether a token is the word `break`. -/
def isBreak (t : Token) : Bool := t = .known .breakWord

end Token

end TreeLowering
