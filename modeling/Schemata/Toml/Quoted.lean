import Schemata.Toml.Scalar

namespace Schemata.Toml

abbrev Reader (α : Type) := List Char → Option (α × List Char)

/-- Characters that may stand unescaped: no controls but the tab. -/
def isPlain (c : Char) : Bool :=
  c = '\t' || (0x20 ≤ c.toNat && c.toNat ≠ 0x7f)

def codePoint (length : Nat) : Reader Char := fun input =>
  let digits := input.take length
  if digits.length = length ∧ digits.all (isDigitOf 16) then
    let value := numberOf 16 digits
    if value < 0xd800 ∨ (0xe000 ≤ value ∧ value < 0x110000) then
      some (Char.ofNat value, input.drop length)
    else none
  else none

def escape : Reader Char
  | 'b' :: rest => some ('\x08', rest)
  | 't' :: rest => some ('\t', rest)
  | 'n' :: rest => some ('\n', rest)
  | 'f' :: rest => some ('\x0c', rest)
  | 'r' :: rest => some ('\r', rest)
  | 'e' :: rest => some ('\x1b', rest)
  | '"' :: rest => some ('"', rest)
  | '\\' :: rest => some ('\\', rest)
  | 'x' :: rest => codePoint 2 rest
  | 'u' :: rest => codePoint 4 rest
  | 'U' :: rest => codePoint 8 rest
  | _ => none

/-- The rest of a basic text; `done` holds what was read, last first. -/
def basicRest : Nat → List Char → Reader String
  | 0, _, _ => none
  | _ + 1, _, [] => none
  | fuel + 1, done, c :: rest =>
    if c = '"' then some (String.ofList done.reverse, rest)
    else if c = '\\' then
      match escape rest with
      | some (c, rest) => basicRest fuel (c :: done) rest
      | none => none
    else if isPlain c then basicRest fuel (c :: done) rest
    else none

def literalRest (input : List Char) : Option (String × List Char) :=
  let (text, rest) := input.span (· != '\'')
  match rest with
  | _ :: rest => if text.all isPlain then some (String.ofList text, rest) else none
  | [] => none

def isSpace (c : Char) : Bool :=
  c = ' ' || c = '\t'

def skipSpaces (input : List Char) : List Char :=
  input.dropWhile isSpace

def newline? : List Char → Option (List Char)
  | '\n' :: rest => some rest
  | '\r' :: '\n' :: rest => some rest
  | _ => none

/-- A line end right after the opening quotes is no part of the text. -/
def skipNewline (input : List Char) : List Char :=
  (newline? input).getD input

def skipLines : Nat → List Char → List Char
  | 0, input => input
  | fuel + 1, input =>
    match newline? (skipSpaces input) with
    | some rest => skipLines fuel rest
    | none => skipSpaces input

/-- Up to two quotes may stand right before the closing three. -/
def closing (quote : Char) (done : List Char) (input : List Char) : Option (List Char × List Char) :=
  let (quotes, rest) := input.span (· = quote)
  if quotes.length < 3 then none
  else if quotes.length ≤ 5 then some (List.replicate (quotes.length - 3) quote ++ done, rest)
  else some (quote :: quote :: done, List.replicate (quotes.length - 5) quote ++ rest)

def multiRest (quote : Char) : Nat → List Char → Reader String
  | 0, _, _ => none
  | _ + 1, _, [] => none
  | fuel + 1, done, c :: rest =>
    if c = quote then
      match closing quote done (c :: rest) with
      | some (done, rest) => some (String.ofList done.reverse, rest)
      | none => multiRest quote fuel (c :: done) rest
    else if c = '\\' ∧ quote = '"' then
      match newline? (skipSpaces rest) with
      | some rest => multiRest quote fuel done (skipLines rest.length rest)
      | none =>
        match escape rest with
        | some (c, rest) => multiRest quote fuel (c :: done) rest
        | none => none
    else if c = '\n' then multiRest quote fuel (c :: done) rest
    else if c = '\r' then
      match rest with
      | '\n' :: rest => multiRest quote fuel ('\n' :: '\r' :: done) rest
      | _ => none
    else if isPlain c then multiRest quote fuel (c :: done) rest
    else none

def multi (quote : Char) : Reader String := fun input =>
  let input := skipNewline input
  multiRest quote (input.length + 1) [] input

def quoted : Reader String
  | '"' :: '"' :: '"' :: rest => multi '"' rest
  | '\'' :: '\'' :: '\'' :: rest => multi '\'' rest
  | '"' :: rest => basicRest (rest.length + 1) [] rest
  | '\'' :: rest => literalRest rest
  | _ => none

end Schemata.Toml
