import LoxLex.Text.Quoted

/-!
# Token kinds

`Kind` is the closed set of token kinds: the symbols, the three kinds of operand, the keywords and
the end of the input. `Kind.all` fixes their order, `Kind.code` numbers them from one in it and
`Kind.name` names them. `Symbol.marks`, `Symbol.operators` and `Keyword.spellings` are the tables of
the fixed spellings, in code point order.
-/

namespace LoxLex

inductive Symbol where
  | leftParen
  | rightParen
  | leftBrace
  | rightBrace
  | comma
  | dot
  | minus
  | plus
  | semicolon
  | slash
  | star
  | bang
  | bangEqual
  | equal
  | equalEqual
  | greater
  | greaterEqual
  | less
  | lessEqual
  deriving DecidableEq

inductive Keyword where
  | kwAnd
  | kwOr
  | kwClass
  | kwIf
  | kwElse
  | kwTrue
  | kwFalse
  | kwNil
  | kwPrint
  | kwReturn
  | kwSuper
  | kwThis
  | kwVar
  | kwFor
  | kwWhile
  deriving DecidableEq

inductive Kind where
  | symbol (s : Symbol)
  | identifier
  | string
  | number
  | keyword (k : Keyword)
  | endOfInput
  deriving DecidableEq

namespace Symbol

def all : List Symbol :=
  [leftParen, rightParen, leftBrace, rightBrace, comma, dot, minus, plus, semicolon, slash, star,
    bang, bangEqual, equal, equalEqual, greater, greaterEqual, less, lessEqual]

/-- The characters that are a token wherever they stand. The slash is not one of them, since it may
open a comment. -/
def marks : List (Char × Symbol) :=
  [('(', leftParen), (')', rightParen), ('*', star), ('+', plus), (',', comma), ('-', minus),
    ('.', dot), (';', semicolon), ('{', leftBrace), ('}', rightBrace)]

/-- The characters that form a longer token with a directly following `=`, with both tokens. -/
def operators : List (Char × Symbol × Symbol) :=
  [('!', bang, bangEqual), ('<', less, lessEqual), ('=', equal, equalEqual),
    ('>', greater, greaterEqual)]

def spelling : Symbol → Text
  | leftParen => "(".toList
  | rightParen => ")".toList
  | leftBrace => ['{']
  | rightBrace => ['}']
  | comma => ",".toList
  | dot => ".".toList
  | minus => "-".toList
  | plus => "+".toList
  | semicolon => ";".toList
  | slash => "/".toList
  | star => "*".toList
  | bang => "!".toList
  | bangEqual => "!=".toList
  | equal => "=".toList
  | equalEqual => "==".toList
  | greater => ">".toList
  | greaterEqual => ">=".toList
  | less => "<".toList
  | lessEqual => "<=".toList

def name : Symbol → Text
  | leftParen => "LEFT_PAREN".toList
  | rightParen => "RIGHT_PAREN".toList
  | leftBrace => "LEFT_BRACE".toList
  | rightBrace => "RIGHT_BRACE".toList
  | comma => "COMMA".toList
  | dot => "DOT".toList
  | minus => "MINUS".toList
  | plus => "PLUS".toList
  | semicolon => "SEMICOLON".toList
  | slash => "SLASH".toList
  | star => "STAR".toList
  | bang => "BANG".toList
  | bangEqual => "BANG_EQUAL".toList
  | equal => "EQUAL".toList
  | equalEqual => "EQUAL_EQUAL".toList
  | greater => "GREATER".toList
  | greaterEqual => "GREATER_EQUAL".toList
  | less => "LESS".toList
  | lessEqual => "LESS_EQUAL".toList

/-- Arithmetic and comparison, but not grouping and punctuation. -/
def isOperator : Symbol → Bool
  | minus | plus | slash | star | bang | bangEqual | equal | equalEqual | greater | greaterEqual
  | less | lessEqual => true
  | _ => false

end Symbol

namespace Keyword

def all : List Keyword :=
  [kwAnd, kwOr, kwClass, kwIf, kwElse, kwTrue, kwFalse, kwNil, kwPrint, kwReturn, kwSuper, kwThis,
    kwVar, kwFor, kwWhile]

def spellings : List (Text × Keyword) :=
  [("and".toList, kwAnd), ("class".toList, kwClass), ("else".toList, kwElse),
    ("false".toList, kwFalse), ("for".toList, kwFor), ("if".toList, kwIf), ("nil".toList, kwNil),
    ("or".toList, kwOr), ("print".toList, kwPrint), ("return".toList, kwReturn),
    ("super".toList, kwSuper), ("this".toList, kwThis), ("true".toList, kwTrue),
    ("var".toList, kwVar), ("while".toList, kwWhile)]

def ofWord? (word : Text) : Option Keyword := spellings.lookup word

def name : Keyword → Text
  | kwAnd => "AND".toList
  | kwOr => "OR".toList
  | kwClass => "CLASS".toList
  | kwIf => "IF".toList
  | kwElse => "ELSE".toList
  | kwTrue => "TRUE".toList
  | kwFalse => "FALSE".toList
  | kwNil => "NIL".toList
  | kwPrint => "PRINT".toList
  | kwReturn => "RETURN".toList
  | kwSuper => "SUPER".toList
  | kwThis => "THIS".toList
  | kwVar => "VAR".toList
  | kwFor => "FOR".toList
  | kwWhile => "WHILE".toList

end Keyword

namespace Kind

/-- All kinds in the order of their codes. -/
def all : List Kind :=
  Symbol.all.map .symbol ++ [.identifier, .string, .number] ++ Keyword.all.map .keyword ++
    [.endOfInput]

def name : Kind → Text
  | symbol s => s.name
  | identifier => "IDENTIFIER".toList
  | string => "STRING".toList
  | number => "NUMBER".toList
  | keyword k => k.name
  | endOfInput => "EOF".toList

def code (k : Kind) : Nat := all.idxOf k + 1

/-- Why a kind could not be found. -/
inductive LookupError where
  | unknownName (name : Text)
  | unknownCode (code : Int)
  deriving DecidableEq

namespace LookupError

def message : LookupError → Text
  | unknownName name => Text.quoted name
  | unknownCode code => Text.decimalInt code ++ " is not a valid TokenType".toList

end LookupError

def ofName (name : Text) : Except LookupError Kind :=
  match all.find? fun k => k.name = name with
  | some k => .ok k
  | none => .error (.unknownName name)

def ofCode (code : Int) : Except LookupError Kind :=
  match all.find? fun k => (k.code : Int) = code with
  | some k => .ok k
  | none => .error (.unknownCode code)

/-- The kind of a word: its keyword if it is reserved. -/
def ofWord (word : Text) : Kind :=
  match Keyword.ofWord? word with
  | some k => .keyword k
  | none => .identifier

/-- Strings, numbers and the keywords that stand for a value. -/
def isLiteral : Kind → Bool
  | string | number | keyword .kwTrue | keyword .kwFalse | keyword .kwNil => true
  | _ => false

def isKeyword : Kind → Bool
  | keyword _ => true
  | _ => false

def isOperator : Kind → Bool
  | symbol s => s.isOperator
  | _ => false

def isIdentifier : Kind → Bool
  | identifier => true
  | _ => false

/-- The keywords, by name. -/
def keywords : List Kind := Keyword.spellings.map fun entry => .keyword entry.2

/-- The operators, by name. -/
def operators : List Kind :=
  [.bang, .bangEqual, .equal, .equalEqual, .greater, .greaterEqual, .less, .lessEqual, .minus,
    .plus, .slash, .star].map .symbol

example : all.length = 38 ∧ (all.map code) = List.range' 1 38 := by decide

end Kind

end LoxLex
