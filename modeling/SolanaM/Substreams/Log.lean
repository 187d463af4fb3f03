import SolanaM.Substreams.Pb

namespace SolanaM.Substreams

inductive Log
  | invoke (log : String)
  | success (log : String)
  | returned (log : String)
  | data (log : String)
  | program (log : String)
  | truncated (log : String)
  | unknown (log : String)
  deriving DecidableEq

/-- char::is_whitespace, the Unicode property White_Space. -/
def isWhitespace (c : Char) : Bool :=
  let n := c.toNat
  9≤n && n≤13 || n==32 || n==0x85 || n==0xa0 || n==0x1680 || 0x2000≤n && n≤0x200a ||
    n==0x2028 || n==0x2029 || n==0x202f || n==0x205f || n==0x3000

/-- str::split_whitespace: the maximal runs of other characters; word holds the run being read. -/
def splitWhitespace (word : List Char) : List Char → List (List Char)
  | [] => if word=[] then [] else [word]
  | c::cs =>
    if isWhitespace c then
      if word=[] then splitWhitespace [] cs else word::splitWhitespace [] cs
    else splitWhitespace (word++[c]) cs

/-- Regex::captures of a literal followed by (.+), the text of the group: the leftmost
occurrence that a character other than a line feed follows, up to the next line feed. -/
def captureAfter (literal : List Char) : List Char → Option (List Char)
  | [] => none
  | c::cs =>
    let group := ((c::cs).drop literal.length).takeWhile (·≠ '\n')
    if literal.isPrefixOf (c::cs) ∧ group≠[] then some group else captureAfter literal cs

namespace Log

def new (log : String) : Log :=
  let cs := log.toList
  let words := splitWhitespace [] cs
  if "Program log: ".toList.isPrefixOf cs then .program log
  else if "Program data: ".toList.isPrefixOf cs then .data log
  else if "Program return: ".toList.isPrefixOf cs then .returned log
  else if words.length=4 ∧ "Program".toList.isPrefixOf cs ∧ words[2]?=some "invoke".toList then
    .invoke log
  else if words.length=3 ∧ "Program".toList.isPrefixOf cs ∧ "success".toList.isSuffixOf cs then
    .success log
  else if log="Log truncated" then .truncated log
  else .unknown log

def isSuccess : Log → Bool
  | .success _ => true
  | _ => false

def isInvoke : Log → Bool
  | .invoke _ => true
  | _ => false

def isTruncated : Log → Bool
  | .truncated _ => true
  | _ => false

/-- to_string: a log prints the line it was made from. -/
def toString : Log → String
  | .invoke log | .success log | .returned log | .data log | .program log | .truncated log
  | .unknown log => log

end Log

/-- DataLog::data of the line; both the missing match and the bad encoding are errors. -/
def dataLogData (crates : Crates) (log : String) : Option Bytes :=
  (captureAfter "Program data: ".toList log.toList).bind fun group =>
    crates.base64Decode (String.ofList group)

end SolanaM.Substreams
