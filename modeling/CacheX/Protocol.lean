import CacheX.Lib.Decimal
import CacheX.RecencyList

/-!
# The wire protocol

`protocol.hpp` and `protocol.cpp`: one command per line, tokens separated by spaces and tabs, and
one reply line per command. `parseCommand` gives the command of a line, or the text of the error
the client is told.
-/

namespace CacheX

open Decimal (ascii)

/-- The longest line a connection accepts. -/
def kMaxLineBytes : Nat := 64 * 1024

/-- Ten years. -/
def kMaxTtlSeconds : Int := 315360000

inductive CommandType
  | set
  | get
  | delete
  | exists_
  | ttl
  | ping
  | save
  | load
  | quit
deriving DecidableEq, Repr

/-- A parsed command. `ttl` is in seconds and is for `SET` only. -/
structure Command where
  type : CommandType
  key : Bytes := []
  value : Bytes := []
  ttl : Option Int := none
deriving DecidableEq, Repr

/-! ## Parsing -/

def isSeparator (c : UInt8) : Bool := c == 32 || c == 9

/-- The tokens of a line, with the bytes of the current token in `token`. -/
def tokenizeFrom (token : Bytes) : Bytes → List Bytes
  | [] => if token = [] then [] else [token]
  | c :: line =>
    if isSeparator c then
      if token = [] then tokenizeFrom [] line else token :: tokenizeFrom [] line
    else tokenizeFrom (token ++ [c]) line

/-- Splits on runs of spaces and tabs. -/
def tokenize (line : Bytes) : List Bytes := tokenizeFrom [] line

def toUpper (text : Bytes) : Bytes :=
  text.map fun c => if 97 ≤ c.toNat ∧ c.toNat ≤ 122 then c - 32 else c

/-- At most 32 bytes of a token are echoed. -/
def quoted (text : Bytes) : Bytes :=
  let kMaxEcho := 32
  ascii "'" ++ text.take kMaxEcho ++ (if kMaxEcho < text.length then ascii "..." else [])
    ++ ascii "'"

/-- `std::from_chars` over the whole text: an optional minus sign and digits, within an `int64`. -/
def parseInteger (text : Bytes) : Option Int :=
  let negative := text.head? = some 45
  let digits := if negative then text.tail else text
  if digits ≠ [] ∧ digits.all Decimal.isDigit then
    let n : Int := if negative then -(Decimal.value digits : Int) else Decimal.value digits
    if -2 ^ 63 ≤ n ∧ n < 2 ^ 63 then some n else none
  else none

def parseKeyOnly (type : CommandType) (name : Bytes) (tokens : List Bytes) :
    Except Bytes Command :=
  match tokens with
  | [_, key] => .ok { type := type, key := key }
  | _ => .error (ascii "wrong number of arguments for '" ++ name ++ ascii "' (expected '" ++ name
      ++ ascii " key')")

def parseNoArgs (type : CommandType) (name : Bytes) (tokens : List Bytes) :
    Except Bytes Command :=
  match tokens with
  | [_] => .ok { type := type }
  | _ => .error (ascii "wrong number of arguments for '" ++ name ++ ascii "' (expected '" ++ name
      ++ ascii "')")

/-- The `ttl` argument of `SET`. -/
def parseTtl (text : Bytes) : Except Bytes Int :=
  match parseInteger text with
  | none => .error (ascii "invalid TTL " ++ quoted text
      ++ ascii " (expected a whole number of seconds)")
  | some seconds =>
    if seconds < 0 then .error (ascii "TTL must not be negative")
    else if kMaxTtlSeconds < seconds then
      .error (ascii "TTL too large (maximum " ++ Decimal.ofInt kMaxTtlSeconds
        ++ ascii " seconds)")
    else .ok seconds

def parseSet (tokens : List Bytes) : Except Bytes Command :=
  match tokens with
  | [_, key, value] => .ok { type := .set, key := key, value := value }
  | [_, key, value, ttl] =>
    match parseTtl ttl with
    | .error e => .error e
    | .ok seconds => .ok { type := .set, key := key, value := value, ttl := some seconds }
  | _ => .error (ascii "wrong number of arguments for 'SET' (expected 'SET key value [ttl_seconds]')")

def parseCommand (line : Bytes) : Except Bytes Command :=
  let tokens := tokenize line
  match tokens with
  | [] => .error (ascii "empty command")
  | first :: _ =>
    let verb := toUpper first
    if verb = ascii "SET" then parseSet tokens
    else if verb = ascii "GET" then parseKeyOnly .get (ascii "GET") tokens
    else if verb = ascii "DELETE" ∨ verb = ascii "DEL" then
      parseKeyOnly .delete (ascii "DELETE") tokens
    else if verb = ascii "EXISTS" then parseKeyOnly .exists_ (ascii "EXISTS") tokens
    else if verb = ascii "TTL" then parseKeyOnly .ttl (ascii "TTL") tokens
    else if verb = ascii "PING" then parseNoArgs .ping (ascii "PING") tokens
    else if verb = ascii "SAVE" then parseNoArgs .save (ascii "SAVE") tokens
    else if verb = ascii "LOAD" then parseNoArgs .load (ascii "LOAD") tokens
    else if verb = ascii "QUIT" then parseNoArgs .quit (ascii "QUIT") tokens
    else .error (ascii "unknown command " ++ quoted first)

example : parseCommand (ascii "set k\t v 60")
    = .ok { type := .set, key := ascii "k", value := ascii "v", ttl := some 60 } := by
  decide

/-! ## Replies -/

def replyOk : Bytes := ascii "+OK\n"

def replyPong : Bytes := ascii "+PONG\n"

def replyBye : Bytes := ascii "+BYE\n"

def replyNoExpiry : Bytes := ascii "+NOEXPIRE\n"

def replyValue (value : Bytes) : Bytes := ascii "=" ++ value ++ ascii "\n"

def replyNil : Bytes := ascii "_\n"

def replyInteger (value : Int) : Bytes := ascii ":" ++ Decimal.ofInt value ++ ascii "\n"

def replyError (message : Bytes) : Bytes := ascii "-ERR " ++ message ++ ascii "\n"

end CacheX
