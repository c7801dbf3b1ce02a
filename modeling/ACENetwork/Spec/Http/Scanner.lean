import Mathlib
import ACENetwork.Library.Scanner
import ACENetwork.Spec.Http.Record

/-! The definitions and the rules of `scanner.l`. -/

namespace ACENetwork.Http

open Flex

/-- The start conditions. -/
inductive Start where
  | initial | request | uri | version | requestHeaders
  | response | status | reason | responseHeaders
  | body | chunkedBody | chunk
  deriving DecidableEq, Repr

def isControl (a : UInt8) : Bool := decide (a ≤ 31 ∨ a = 127)

/-- `TOKEN` takes the control characters out of US-ASCII and adds the special characters, of
which only HT is missing then. -/
def isToken (a : UInt8) : Bool :=
  decide (a ≤ 127) && !isControl a || decide (a ∈ ascii "()<>@,;:\\\"/[]?=\x7b\x7d \t")

/-- Octets that are no control characters, with HT, CR, LF and SP, and without parentheses. -/
def isCText (a : UInt8) : Bool :=
  (decide (31 < a) || decide (a ∈ [9, 10, 13, 32])) && decide (a ∉ ascii "()")

/-- Octets that are no control characters, and no double quotes, with HT, CR, LF and SP. -/
def isQdText (a : UInt8) : Bool := decide (31 < a ∧ a ≠ 34) || decide (a ∈ [9, 10, 13, 32])

def isReserved (a : UInt8) : Bool := decide (a ∈ ascii ";/?:@&=+")
def isExtra (a : UInt8) : Bool := decide (a ∈ ascii "!*'(),")
def isSafe (a : UInt8) : Bool := decide (a ∈ ascii "$-_.")
def isUnsafe (a : UInt8) : Bool := isControl a || decide (a ∈ ascii " \"#%<>")

def isUnreserved (a : UInt8) : Bool :=
  !isAlnum a && !isReserved a && !isExtra a && !isSafe a && !isUnsafe a ||
    isAlnum a || isSafe a || isExtra a

def isPChar (a : UInt8) : Bool :=
  isAlnum a || decide (a ∈ ascii "$-_.!*'(),%:@&=+") ||
    !(isAlnum a || isReserved a || isExtra a || isSafe a || isUnsafe a)

def isScheme (a : UInt8) : Bool := isAlpha a || isDigit a || decide (a ∈ ascii "+-.")

/-- `REASON` is made of octets that are no control characters, with HT. -/
def isReason (a : UInt8) : Bool := decide (31 < a ∨ a = 9)

def text (s : String) : Pattern UInt8 := Pattern.literal (ascii s)

def sp : Pattern UInt8 := Pattern.literal [32]
def crlfPattern : Pattern UInt8 := Pattern.literal crlf

def digits (n : ℕ) : Pattern UInt8 := Pattern.exactly isDigit n

/-- One pattern after the other. -/
def all : List (Pattern UInt8) → Pattern UInt8
  | [] => .empty
  | [p] => p
  | p :: ps => .seq p (all ps)

/-- One of the patterns. -/
def oneOf : List (Pattern UInt8) → Pattern UInt8
  | [] => .fail
  | [p] => p
  | p :: ps => .alt p (oneOf ps)

def optional (p : Pattern UInt8) : Pattern UInt8 := .alt p .empty

def token : Pattern UInt8 := .cls isToken
def tokens : Pattern UInt8 := Pattern.plus isToken
def comment : Pattern UInt8 := all [text "\"", .star (.cls isCText), text "\""]
def quotedString : Pattern UInt8 := all [text "\"", .star (.cls isQdText), text "\""]
def word : Pattern UInt8 := .alt token quotedString

def version : Pattern UInt8 := all [text "HTTP/", digits 1, text ".", digits 1]

def escape : Pattern UInt8 := all [text "%", .cls isXdigit, .cls isXdigit]
def uChar : Pattern UInt8 := .alt (.cls isUnreserved) escape
def segment : Pattern UInt8 := .star (.cls isPChar)
def path : Pattern UInt8 := .seq (.cls isPChar) (.star (.seq (text "/") segment))
def relativePath : Pattern UInt8 := optional path
def absolutePath : Pattern UInt8 := .seq (text "/") relativePath
def absoluteUri : Pattern UInt8 :=
  all [Pattern.plus isScheme, text ":", .star (.alt uChar (.cls isReserved))]

def wkday : Pattern UInt8 := oneOf (["Mon", "Tue", "Wed", "Thu", "Fri", "Sat", "Sun"].map text)
def month : Pattern UInt8 := oneOf
  (["Jan", "Feb", "Mar", "Apr", "May", "Jun", "Jul", "Aug", "Sep", "Oct", "Nov", "Dec"].map text)
def date1 : Pattern UInt8 := all [digits 2, sp, month, sp, digits 4]
def time : Pattern UInt8 := all [digits 2, text ":", digits 2, text ":", digits 2]
def rfc1123Date : Pattern UInt8 := all [wkday, text ",", sp, date1, sp, time, sp, text "GMT"]
def weekday : Pattern UInt8 := oneOf
  (["Monday", "Tuesday", "Wednesday", "Thursday", "Friday", "Saturday", "Sunday"].map text)
def date2 : Pattern UInt8 := all [digits 2, text "-", month, text "-", digits 2]
def rfc850Date : Pattern UInt8 := all [weekday, text ",", sp, date2, sp, time, sp, text "GMT"]
def date3 : Pattern UInt8 := all [digits 2, text "-", month, text "-", digits 2]
def asctimeDate : Pattern UInt8 := all [wkday, sp, date3, sp, time, sp, digits 4]
def date : Pattern UInt8 := oneOf [rfc1123Date, rfc850Date, asctimeDate]

def contentCoding : Pattern UInt8 := oneOf [text "x-gzip", text "x-compress", tokens]
def typeParameter : Pattern UInt8 := all [tokens, text "=", .alt tokens quotedString]
def mediaType : Pattern UInt8 :=
  all [tokens, text "/", tokens, .star (.seq (text ";") typeParameter)]
def product : Pattern UInt8 := .seq tokens (optional (.seq (text "/") tokens))

def header : Pattern UInt8 := all [tokens, text ":", sp, tokens]

/-- A header with a name of its own. -/
def named (name : String) (value : Pattern UInt8) : Pattern UInt8 :=
  all [text name, text ":", sp, value]

def pragmaToken : Pattern UInt8 := .seq tokens (optional (.seq (text "=") word))
def generalHeader : Pattern UInt8 :=
  oneOf [named "Date" date, named "Pragma" (.alt (text "no-cache") pragmaToken)]

def requestHeader : Pattern UInt8 := oneOf
  [named "Authorization" tokens, named "From" tokens, named "If-Modified-Since" date,
    named "Referer" (.alt (text "ABSOLUTE_URI") (text "RELATIVE_URI")),
    named "User-Agent" (.alt product comment)]

def method : Pattern UInt8 := oneOf (["GET", "HEAD", "POST"].map text)
def requestUri : Pattern UInt8 := .alt absoluteUri absolutePath

def realm : Pattern UInt8 := .seq (text "realm=") quotedString
def authParameter : Pattern UInt8 := all [tokens, text "=", quotedString]
def challenge : Pattern UInt8 :=
  all [tokens, sp, realm, .star (.seq (text ",") authParameter)]
def responseHeader : Pattern UInt8 := oneOf
  [named "Location" absoluteUri, named "Server" (.alt product comment),
    named "WWW-Authenticate" challenge]

def reason : Pattern UInt8 := .star (.cls isReason)

def entityHeader : Pattern UInt8 := oneOf
  [named "Allow" (.seq method (.star method)), named "Content-Encoding" contentCoding,
    named "Content-Length" (Pattern.plus isDigit), named "Content-Type" mediaType,
    named "Expires" date, named "Last-Modified" date, header]

def chunkExtension : Pattern UInt8 :=
  .seq tokens (optional (.alt (.seq (text "=") tokens) quotedString))
def chunkLine : Pattern UInt8 :=
  .seq (Pattern.plus isXdigit) (.star (.seq (text ";") chunkExtension))

inductive RuleName where
  | responseStart | requestStart | method | uri | requestVersion | header | requestDelimiter
  | responseVersion | status | reason | responseDelimiter
  | body | chunkSize | chunksDelimiter | chunk | octet
  deriving DecidableEq, Repr

def on (c : Start) : Start → Bool := fun c' => decide (c' = c)

def rules : List (Flex.Rule Start UInt8 RuleName) :=
  [⟨on .initial, version, .responseStart⟩,
    ⟨on .initial, method, .requestStart⟩,
    ⟨on .request, .seq method sp, .method⟩,
    ⟨on .uri, .seq requestUri sp, .uri⟩,
    ⟨on .version, .seq version crlfPattern, .requestVersion⟩,
    ⟨on .requestHeaders, .seq generalHeader crlfPattern, .header⟩,
    ⟨on .requestHeaders, .seq requestHeader crlfPattern, .header⟩,
    ⟨on .requestHeaders, .seq entityHeader crlfPattern, .header⟩,
    ⟨on .requestHeaders, crlfPattern, .requestDelimiter⟩,
    ⟨on .response, .seq version sp, .responseVersion⟩,
    ⟨on .status, .seq (digits 3) sp, .status⟩,
    ⟨on .reason, .seq reason crlfPattern, .reason⟩,
    ⟨on .responseHeaders, .seq generalHeader crlfPattern, .header⟩,
    ⟨on .responseHeaders, .seq responseHeader crlfPattern, .header⟩,
    ⟨on .responseHeaders, .seq entityHeader crlfPattern, .header⟩,
    ⟨on .responseHeaders, crlfPattern, .responseDelimiter⟩,
    ⟨on .body, .star Pattern.any, .body⟩,
    ⟨on .chunkedBody, .seq chunkLine crlfPattern, .chunkSize⟩,
    ⟨on .chunkedBody, .seq entityHeader crlfPattern, .header⟩,
    ⟨on .chunkedBody, crlfPattern, .chunksDelimiter⟩,
    ⟨on .chunk, .seq chunkLine crlfPattern, .chunk⟩,
    ⟨fun _ => true, Pattern.any, .octet⟩]

end ACENetwork.Http
