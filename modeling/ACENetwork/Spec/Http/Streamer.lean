import Mathlib
import ACENetwork.Spec.Http.Record

/-! `HTTP_Module_Streamer_T::handleDataMessage`, with what it uses of `HTTP_Tools`, and the messages
that should stand on the wire. -/

namespace ACENetwork.Http

open Std

abbrev Form := TreeMap (List UInt8) (List UInt8) compare

/-- `HTTP_Record` with the form of a request, which the parser does not touch. -/
structure FormRecord extends Record where
  form : Form := ∅

namespace Streamer

def headerContentType : List UInt8 := ascii "Content-Type"
def mimeTypeWwwUrlEncoding : List UInt8 := ascii "application/x-www-form-urlencoded"

/-- `HTTP_Codes::HeaderType` -/
inductive HeaderType where
  | general | request | response | entity
  deriving DecidableEq, Repr

def headerNames : HeaderType → List (List UInt8)
  | .general => [ascii "Date", ascii "Pragma"]
  | .request => [ascii "Authorization", ascii "From", ascii "If-Modified-Since", ascii "Referer",
      ascii "User-Agent"]
  | .response => [ascii "Location", ascii "Server", ascii "WWW-Authenticate"]
  | .entity => [ascii "Allow", ascii "Content-Encoding", ascii "Content-Length", ascii "Content-Type",
      ascii "Expires", ascii "Last-Modified"]

def isNamed (fieldName : List UInt8) (type : HeaderType) : Bool :=
  decide (fieldName ∈ headerNames type)

/-- Every name that is not in a list is the one of an entity's header. -/
def isHeaderType (fieldName : List UInt8) : HeaderType → Bool
  | .entity => isNamed fieldName .entity ||
      (!isNamed fieldName .general && !isNamed fieldName .request && !isNamed fieldName .response)
  | type => isNamed fieldName type

/-- The methods in front of `HTTP_METHOD_MAX` are the ones of a request. -/
def isRequest (r : FormRecord) : Bool := decide (r.method ≠ .invalid)

def methodToString : Method → List UInt8
  | .get => ascii "GET"
  | .post => ascii "POST"
  | .head => ascii "HEAD"
  | .invalid => ascii "INVALID/UNKNOWN"

def versionToString : Version → List UInt8
  | .v0_9 => ascii "0.9"
  | .v1_0 => ascii "1.0"
  | .v1_1 => ascii "1.1"
  | .v2 => ascii "2"
  | .invalid => ascii "INVALID/UNKNOWN"

def statusToReason : ℕ → List UInt8
  | 200 => ascii "OK"
  | 201 => ascii "Created"
  | 202 => ascii "Accepted"
  | 204 => ascii "No Content"
  | 300 => ascii "Multiple Choices"
  | 301 => ascii "Moved Permanently"
  | 302 => ascii "Moved Temporarily"
  | 304 => ascii "Not Modified"
  | 400 => ascii "Bad Request"
  | 401 => ascii "Unauthorized"
  | 403 => ascii "Forbidden"
  | 404 => ascii "Not Found"
  | 500 => ascii "Internal Server Error"
  | 501 => ascii "Not Implemented"
  | 502 => ascii "Bad Gateway"
  | 503 => ascii "Service Unavailable"
  | _ => ascii "INVALID/UNKNOWN"

def decimal (n : ℕ) : List UInt8 := ascii (toString n)

def pair (entry : List UInt8 × List UInt8) : List UInt8 := entry.1 ++ ascii "=" ++ entry.2

/-- The entries of the form, each with a mark behind it. -/
def pairs (form : Form) : List UInt8 := form.toList.flatMap fun entry => pair entry ++ ascii "&"

/-- `s.erase (--s.end ())`, which has no meaning where there is nothing to erase. -/
def eraseLast (s : List UInt8) : Option (List UInt8) := if s = [] then none else some s.dropLast

/-- The value of a header that is there, or else a new header: the key of the map stays. -/
def putHeader (headers : Headers) (name value : List UInt8) : Headers :=
  headers.insert ((headers.getKey? name).getD name) value

def versionText (version : Version) : List UInt8 := versionStringPrefix ++ versionToString version

/-- The first line without its end, the headers as the method leaves them, and the content. -/
def startLine (r : FormRecord) : Option (List UInt8 × Headers × List UInt8) :=
  let buffer := methodToString r.method ++ ascii " " ++ r.uri
  match r.method with
  | .get =>
    let buffer := buffer ++ (if r.form.isEmpty then [] else ascii "?") ++ pairs r.form
    (if r.form.isEmpty then some buffer else eraseLast buffer).map fun buffer =>
      (buffer ++ ascii " " ++ versionText r.version, r.headers, [])
  | .post =>
    (eraseLast (pairs r.form)).map fun content =>
      (buffer ++ ascii " " ++ versionText r.version,
        putHeader (putHeader r.headers headerContentLength (decimal content.length)) headerContentType
          mimeTypeWwwUrlEncoding, content)
  | .head => some (buffer, r.headers, [])
  | .invalid =>
    some (versionText r.version ++ ascii " " ++ decimal r.status ++ ascii " " ++
      statusToReason r.status, r.headers, [])

def headerLine (entry : List UInt8 × List UInt8) : List UInt8 :=
  entry.1 ++ ascii ": " ++ entry.2 ++ crlf

def headerLines (headers : Headers) (type : HeaderType) : List UInt8 :=
  (headers.toList.filter fun entry => isHeaderType entry.1 type).flatMap headerLine

/-- The octets that are checked against the space and copied into the message. -/
def write (m : MessageBlock) (bytes : List UInt8) : Option MessageBlock :=
  if m.space < bytes.length then none else m.copy bytes

/-- What becomes of a message: it goes on with the record as it is then, or it is released and the
pointer to it is gone. -/
inductive Outcome where
  | passed (record : FormRecord) (message : MessageBlock)
  | released
  | assertion
  | undefined

/-- The last part of `handleDataMessage`: the buffer first and then the content, if there is any. -/
def insert (record : FormRecord) (m : MessageBlock) (buffer content : List UInt8) : Outcome :=
  match write m buffer with
  | none => .released
  | some m =>
    if content = [] then .passed record m else
    match write m content with
    | none => .released
    | some m => .passed record m

def handleDataMessage (r : FormRecord) (m : MessageBlock) : Outcome :=
  if m.length ≠ 0 then .assertion else
  match startLine r with
  | none => .undefined
  | some (line, headers, content) =>
    insert { r with headers } m
      (line ++ crlf ++ headerLines headers .general ++
        headerLines headers (if isRequest r then .request else .response) ++
        headerLines headers .entity ++ crlf) content

def formText (form : Form) : List UInt8 := List.intercalate (ascii "&") (form.toList.map pair)

def target (r : FormRecord) : List UInt8 :=
  if r.method = .get ∧ r.form.isEmpty = false then r.uri ++ ascii "?" ++ formText r.form else r.uri

def fields (r : FormRecord) : List (List UInt8) :=
  if isRequest r then [methodToString r.method, target r, versionText r.version]
  else [versionText r.version, decimal r.status, r.reason]

def body (r : FormRecord) : List UInt8 := if r.method = .post then formText r.form else []

/-- The octets are the first line, all headers of the record as it goes on, each one once, an
empty line and the body. Of the record, only these two headers of a `POST` may be new. -/
structure Written (r r' : FormRecord) (bytes : List UInt8) : Prop where
  text : ∃ entries : List (List UInt8 × List UInt8), entries.Perm r'.headers.toList ∧
    bytes = List.intercalate (ascii " ") (fields r) ++ crlf ++ entries.flatMap headerLine ++ crlf ++
      body r
  record : r' = { r with headers := r'.headers }
  unchanged : r.method ≠ .post → r'.headers = r.headers
  others : ∀ entry, compareNames headerContentLength entry.1 ≠ .eq →
    compareNames headerContentType entry.1 ≠ .eq →
    (entry ∈ r'.headers.toList ↔ entry ∈ r.headers.toList)
  contentLength : r.method = .post → r'.headers[headerContentLength]? = some (decimal (body r).length)

/-- A message goes on with all of its octets, or not at all. -/
def Serializes (r : FormRecord) (m : MessageBlock) : Prop :=
  match handleDataMessage r m with
  | .passed r' m' => Written r r' m'.content
  | .released => True
  | .assertion | .undefined => False

end Streamer

end ACENetwork.Http
