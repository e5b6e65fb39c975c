import Overload.Toml.Node

/-!
# Reading TOML

A reader takes a value from the front of the text, or fails. Alternatives start over from the
same place. Composed values nest to a limited depth, which is also what makes the reader of
values total; repeated parts are read at most as often as there are characters left.
-/

namespace Overload.Toml

abbrev Reader := StateT (List Char) Option

namespace Reader

/-- The characters read so far are given up, and so is the alternative. -/
def fail : Reader α := failure

def char (c : Char) : Reader Unit := do
  match ← get with
  | d :: rest => if c = d then set rest else fail
  | [] => fail

def one (p : Char → Bool) : Reader Char := do
  match ← get with
  | c :: rest => if p c then do set rest; return c else fail
  | [] => fail

def string (s : String) : Reader Unit := s.toList.forM char

def skipWhile (p : Char → Bool) : Reader Unit := modify (·.dropWhile p)

def optional (r : Reader Unit) : Reader Unit := r <|> pure ()

/-- As many items as follow, at most `n`. -/
def manyUpTo (item : Reader α) : Nat → Reader (List α)
  | 0 => return []
  | n + 1 =>
      (do
        let a ← item
        let as ← manyUpTo item n
        return a :: as)
      <|> pure []

def many (item : Reader α) : Reader (List α) := do manyUpTo item (← get).length

/-- Items with separators between them, possibly none. -/
def separated (item : Reader α) (separator : Reader Unit) : Reader (List α) :=
  (do
    let a ← item
    let as ← many (do separator; item)
    return a :: as)
  <|> pure []

/-! ## Characters and lines -/

def isBlank (c : Char) : Bool := c == ' ' || c == '\t'

/-- What may stand in a comment: no control characters but the tab. -/
def isPlain (c : Char) : Bool := c == '\t' || (' ' ≤ c && c ≤ '~') || '\x80' ≤ c

def isDigit (c : Char) : Bool := '0' ≤ c && c ≤ '9'

def blanks : Reader Unit := skipWhile isBlank

def comment : Reader Unit := do
  char '#'
  skipWhile isPlain

def newline : Reader Unit := char '\n' <|> string "\r\n"

def atEnd : Reader Unit := do
  match ← get with
  | [] => return
  | _ => fail

/-- What may follow an entry or a header on its line. -/
def lineEnd : Reader Unit := do
  blanks
  optional comment
  newline <|> atEnd

/-- Blanks, line ends and comments between the parts of an array. -/
def gap : Reader Unit := do
  let part : Reader Unit :=
    (do discard (one isBlank)) <|> (do optional comment; newline)
  discard (many part)

/-! ## Numbers -/

/-- Digits with single underscores between them. -/
def underscored (p : Char → Bool) : List Char → List Char × List Char
  | '_' :: c :: rest =>
      if p c then
        let (ds, rest) := underscored p rest
        (c :: ds, rest)
      else ([], '_' :: c :: rest)
  | c :: rest =>
      if p c then
        let (ds, rest) := underscored p rest
        (c :: ds, rest)
      else ([], c :: rest)
  | [] => ([], [])

def digits (p : Char → Bool) : Reader (List Char) := do
  let d ← one p
  let (ds, rest) := underscored p (← get)
  set rest
  return d :: ds

def digitValue (c : Char) : Nat :=
  if isDigit c then c.toNat - '0'.toNat
  else if 'a' ≤ c && c ≤ 'f' then c.toNat - 'a'.toNat + 10
  else c.toNat - 'A'.toNat + 10

def valueOf (base : Nat) (ds : List Char) : Nat :=
  ds.foldl (fun n d => base * n + digitValue d) 0

/-- Whether a minus sign stands here; a plus sign is skipped. -/
def minus : Reader Bool :=
  (do char '-'; return true) <|> (do char '+'; return false) <|> pure false

/-- A decimal integer: a sign, and digits of which the first is not a zero unless it is the only
one. -/
def decimal : Reader (Bool × List Char) := do
  let negative ← minus
  match ← get with
  | '0' :: rest => do set rest; return (negative, ['0'])
  | _ => return (negative, ← digits isDigit)

def isHexDigit (c : Char) : Bool :=
  isDigit c || ('a' ≤ c && c ≤ 'f') || ('A' ≤ c && c ≤ 'F')

def inRange (n : Int) : Bool := -Int.pow 2 63 ≤ n && n < Int.pow 2 63

def based (mark : String) (base : Nat) (p : Char → Bool) : Reader Node := do
  string mark
  let ds ← digits p
  if inRange (valueOf base ds) then return .scalar else fail

def integer : Reader Node :=
  based "0x" 16 isHexDigit
  <|> based "0o" 8 (fun c => '0' ≤ c && c ≤ '7')
  <|> based "0b" 2 (fun c => c == '0' || c == '1')
  <|> do
    let (negative, ds) ← decimal
    let n : Int := valueOf 10 ds
    if inRange (if negative then -n else n) then return .scalar else fail

def exponent : Reader Int := do
  discard (one fun c => c == 'e' || c == 'E')
  let negative ← minus
  let n : Int := valueOf 10 (← digits isDigit)
  return if negative then -n else n

def fraction : Reader (List Char) := do
  char '.'
  digits isDigit

/-- A positive number beyond the largest finite one is refused. -/
def float : Reader Node :=
  (do
    let (negative, whole) ← decimal
    let (part, e) ←
      (do return ([], ← exponent))
      <|> (do return (← fraction, ← exponent <|> pure 0))
    let e := e - part.length
    let n := valueOf 10 (whole ++ part)
    if !negative && (Float.ofScientific n (e < 0) e.natAbs).isInf then fail
    else return .scalar)
  <|> do
    discard minus
    string "inf" <|> string "nan"
    return .scalar

/-! ## Dates and times -/

/-- A number of exactly `n` digits between two bounds. -/
def fixed (n lower upper : Nat) : Reader Nat := do
  let ds ← (List.replicate n ()).mapM fun _ => one isDigit
  let v := valueOf 10 ds
  if lower ≤ v && v ≤ upper then return v else fail

def daysIn (year month : Nat) : Nat :=
  let leap := year % 4 == 0 && (year % 100 != 0 || year % 400 == 0)
  match month with
  | 2 => if leap then 29 else 28
  | 4 | 6 | 9 | 11 => 30
  | _ => 31

def date : Reader Unit := do
  let year ← fixed 4 0 9999
  char '-'
  let month ← fixed 2 1 12
  char '-'
  discard (fixed 2 1 (daysIn year month))

def time : Reader Unit := do
  discard (fixed 2 0 23)
  char ':'
  discard (fixed 2 0 59)
  char ':'
  discard (fixed 2 0 60)
  optional do
    char '.'
    discard (one isDigit)
    skipWhile isDigit

def offset : Reader Unit :=
  (do discard (one fun c => c == 'Z' || c == 'z'))
  <|> do
    discard (one fun c => c == '+' || c == '-')
    discard (fixed 2 0 23)
    char ':'
    discard (fixed 2 0 59)

def datetime : Reader Node :=
  (do
    date
    optional do
      discard (one fun c => c == 'T' || c == 't' || c == ' ')
      time
      optional offset
    return .datetime)
  <|> do
    time
    return .datetime

/-! ## Strings -/

/-- The character of a code point, unless it is a surrogate or too large. -/
def charOf? (ds : List Char) : Option Char :=
  let n := valueOf 16 ds
  if ds.all isHexDigit && n.isValidChar then some (Char.ofNat n) else none

/-- The character that an escape stands for, and what follows it. -/
def escape? : List Char → Option (Char × List Char)
  | 'b' :: rest => some ('\x08', rest)
  | 't' :: rest => some ('\t', rest)
  | 'n' :: rest => some ('\n', rest)
  | 'f' :: rest => some ('\x0c', rest)
  | 'r' :: rest => some ('\r', rest)
  | '"' :: rest => some ('"', rest)
  | '\\' :: rest => some ('\\', rest)
  | 'u' :: a :: b :: c :: d :: rest => do return (← charOf? [a, b, c, d], rest)
  | 'U' :: a :: b :: c :: d :: e :: f :: g :: h :: rest => do
      return (← charOf? [a, b, c, d, e, f, g, h], rest)
  | _ => none

def escaped : Reader Char := do
  char '\\'
  match escape? (← get) with
  | some (c, rest) => do set rest; return c
  | none => fail

def isBasic (c : Char) : Bool := isPlain c && c != '"' && c != '\\'

def isLiteral (c : Char) : Bool := isPlain c && c != '\''

def basicString : Reader String := do
  char '"'
  let cs ← many (one isBasic <|> escaped)
  char '"'
  return String.ofList cs

def literalString : Reader String := do
  char '\''
  let cs ← many (one isLiteral)
  char '\''
  return String.ofList cs

/-- A backslash at the end of a line, with all the space that follows it. -/
def continuation : Reader Unit := do
  char '\\'
  blanks
  newline
  discard (many ((do discard (one isBlank)) <|> newline))

/-- The end of a string over several lines: three quotes, with up to two more that belong to it. -/
def closing (quote : Char) : Reader Unit := do
  let cs ← get
  let run := (cs.takeWhile (· == quote)).length
  if 3 ≤ run && run ≤ 5 then set (cs.drop run) else fail

/-- One or two quotes inside such a string. -/
def innerQuotes (quote : Char) : Reader Unit := do
  let cs ← get
  let run := (cs.takeWhile (· == quote)).length
  if 1 ≤ run && run ≤ 2 then set (cs.drop run) else fail

def multiline (quote : Char) (part : Reader Unit) : Reader Unit := do
  string (String.ofList [quote, quote, quote])
  optional newline
  discard (many (part <|> newline <|> innerQuotes quote))
  closing quote

def longBasic : Reader Unit :=
  multiline '"' <|
    (do discard (one isBasic)) <|> (do discard escaped) <|> continuation

def longLiteral : Reader Unit :=
  multiline '\'' (do discard (one isLiteral))

/-! ## Keys -/

def isBare (c : Char) : Bool :=
  isDigit c || ('a' ≤ c && c ≤ 'z') || ('A' ≤ c && c ≤ 'Z') || c == '-' || c == '_'

def bareKey : Reader String := do
  let c ← one isBare
  let cs ← many (one isBare)
  return String.ofList (c :: cs)

/-- How deep keys and values may be nested. -/
def depthLimit : Nat := 80

/-- A dotted key: its path and its last part. -/
def key : Reader (List String × String) := do
  let part : Reader String := do
    blanks
    let k ← basicString <|> literalString <|> bareKey
    blanks
    return k
  let k ← part
  let ks ← many (do char '.'; part)
  if depthLimit ≤ ks.length + 1 then fail
  match (k :: ks).reverse with
  | last :: path => return (path.reverse, last)
  | [] => fail

/-! ## Values -/

def scalar : Reader Node :=
  (do longBasic; return .scalar)
  <|> (do longLiteral; return .scalar)
  <|> (do discard basicString; return .scalar)
  <|> (do discard literalString; return .scalar)
  <|> (do string "true"; return .bool true)
  <|> (do string "false"; return .bool false)
  <|> datetime <|> float <|> integer

/-- A key with its value. -/
def pair (value : Reader Node) : Reader (List String × String × Node) := do
  let (path, last) ← key
  char '='
  blanks
  return (path, last, ← value)

def array (value : Reader Node) : Reader Node := do
  char '['
  let item : Reader Node := do
    gap
    let n ← value
    gap
    return n
  let items ← separated item (char ',')
  if !items.isEmpty then
    optional (char ',')
  gap
  char ']'
  return .array items

def inlineTable (value : Reader Node) : Reader Node := do
  char '\x7b'
  let item := do
    let p ← pair value
    blanks
    return p
  let entries ← separated item (char ',')
  blanks
  char '\x7d'
  match Node.ofEntries? entries with
  | some n => return n
  | none => fail

/-- A value with at most `n` composed ones around each of its parts. -/
def value : Nat → Reader Node
  | 0 => scalar
  | n + 1 => scalar <|> array (value n) <|> inlineTable (value n)

/-! ## Documents -/

/-- The document so far, and the path of the header that entries belong to. -/
structure Progress where
  root : Table := []
  current : List String := []

/-- Takes over an addition to the document, if it is a permitted one. -/
def step (p : Progress) : Option Table → Reader Progress
  | some root => return { p with root }
  | none => fail

def header (p : Progress) : Reader Progress := do
  char '['
  let (path, last) ← key
  char ']'
  lineEnd
  step { p with current := path ++ [last] } (p.root.openTable? path last)

def repeatedHeader (p : Progress) : Reader Progress := do
  string "[["
  let (path, last) ← key
  string "]]"
  lineEnd
  step { p with current := path ++ [last] } (p.root.openNext? path last)

def entry (p : Progress) : Reader Progress := do
  let (path, last, n) ← pair (value (depthLimit - 1))
  lineEnd
  step p (Table.below? (fun t => t.addEntry? path last n) p.current p.root)

/-- One line: nothing, a comment, a header or an entry. An entry can reach over several lines. -/
def line (p : Progress) : Reader Progress := do
  blanks
  (do newline; return p)
    <|> (do comment; newline <|> atEnd; return p)
    <|> repeatedHeader p <|> header p <|> entry p

def lines : Nat → Progress → Reader Progress
  | 0, _ => fail
  | n + 1, p => do
      blanks
      match ← get with
      | [] => return p
      | _ => lines n (← line p)

/-- A whole document, which may start with a byte order mark. -/
def document : Reader Table := do
  optional (char '\ufeff')
  return (← lines ((← get).length + 1) {}).root

end Reader

/-- The table that a text spells, if it is well-formed. -/
def parse? (text : String) : Option Table := (Reader.document.run text.toList).map Prod.fst

end Overload.Toml
