import CppPrivate.Http.UrlParser
import CppPrivate.Url.Escape

/-! The string functions of the HTTP server. Some read their arguments as C strings. -/
namespace CppPrivate.Http
open Url (cStr)

/-- `stricmp(a, b) == 0`. -/
def stricmpEq (a b : Bytes) : Bool := (cStr a).map tolower == (cStr b).map tolower

/-- A character of the set `chars`, which is a C string. -/
def oneOf (chars : Bytes) (c : UInt8) : Bool := (cStr chars).contains c

def SPACE_CHARS : Bytes := bytes " \t\r\n"

def split (str : Bytes) (delim : UInt8) : List Bytes := (cStr str).splitOn delim

def trim (str chars : Bytes) : Bytes :=
  ((str.dropWhile (oneOf chars)).reverse.dropWhile (oneOf chars)).reverse

/-- Whether a pair of `pairs` encloses the text from `s` to `e`. -/
def isPair (s e : UInt8) : Bytes → Bool
  | p :: q :: pairs => (s == p && e == q) || isPair s e pairs
  | _ => false

/-- An empty text is not enclosed by any pair; it starts with a zero byte. -/
def trim_pairs (str pairs : Bytes) : Bytes :=
  match str.head?, str.getLast? with
  | some s, some e => if isPair s e pairs then (str.drop 1).take (str.length - 2) else str
  | _, _ => str

/-- The lines that `std::getline` reads: a last one without any character is not read. -/
def getlines (str : Bytes) (delim : UInt8) : List Bytes :=
  let lines := str.splitOn delim
  if lines.getLast? = some [] then lines.dropLast else lines

end CppPrivate.Http
