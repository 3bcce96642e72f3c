/-
# Tokens

A value is cut into tokens at blanks, except that blanks between two double
quotes belong to the token: `"Hello World" + s` has three tokens, the first with
its quotes and its blank.  A quote may open in the middle of a token, several
runs may stand in one token, and a run left open reaches to the end of the value.

Real and integer literals are in `ParameterChain.Number.Literal`; the other
classes of tokens are here.
-/
import ParameterChain.Text.Blank
import ParameterChain.Text.LowerCase
import ParameterChain.Number.Literal

namespace ParameterChain.Token

/-- The tokens of a text, with `token` the token read so far (reversed) and
`quoted` whether its last quote is still open. -/
def scanFrom (quoted : Bool) (token : List Char) : List Char → List (List Char)
  | [] => if token.isEmpty then [] else [token.reverse]
  | c :: cs =>
      if quoted then scanFrom (c ≠ '"') (c :: token) cs
      else if Text.isBlank c then
        if token.isEmpty then scanFrom false [] cs
        else token.reverse :: scanFrom false [] cs
      else scanFrom (c = '"') (c :: token) cs

/-- The tokens of a text. -/
def scan (cs : List Char) : List (List Char) :=
  scanFrom false [] cs

/-- The tokens of a value. -/
def ofValue (value : String) : List String :=
  (scan value.toList).map String.ofList

/-! ## Quotes and booleans -/

/-- A token that begins with a double quote. -/
def opensQuote (token : String) : Bool :=
  token.toList.head? == some '"'

/-- What stands between the quotes of a quoted token: one that begins with a
double quote and ends with another. -/
def quoted? (token : String) : Option String :=
  match token.toList with
  | '"' :: rest =>
      if rest.getLast? = some '"' then some (String.ofList rest.dropLast) else none
  | _ => none

def isQuoted (token : String) : Bool :=
  (quoted? token).isSome

/-- The token without one pair of surrounding quotes. -/
def unquote (token : String) : String :=
  (quoted? token).getD token

/-- The boolean that a token stands for, in quotes or not, in either case. -/
def boolean? (token : String) : Option Bool :=
  match Text.asciiLower (unquote token) with
  | "t" | "true" | "1" => some true
  | "f" | "false" | "0" => some false
  | _ => none

/-! ## Reading in order -/

/-- The tokens of one value, some of them already taken. -/
structure Cursor where
  tokens : List String
  rest : List String
  deriving Repr

namespace Cursor

def ofValue (value : String) : Cursor :=
  ⟨Token.ofValue value, Token.ofValue value⟩

/-- The next token, which stays where it is. -/
def peek? (c : Cursor) : Option String :=
  c.rest.head?

/-- The next token, if there is one, and the cursor behind it. -/
def next (c : Cursor) : Option String × Cursor :=
  (c.rest.head?, { c with rest := c.rest.tail })

/-- The next token, or an empty text at the end. -/
def take (c : Cursor) : String × Cursor :=
  (c.rest.head?.getD "", { c with rest := c.rest.tail })

/-- Whether the value has no tokens at all, taken ones included. -/
def isEmpty (c : Cursor) : Bool :=
  c.tokens.isEmpty

end Cursor

end ParameterChain.Token
