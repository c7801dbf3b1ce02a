import Mathlib
import ACENetwork.Spec.Http.ModuleParser
import ACENetwork.Spec.Http.Streamer

/-! A form that is posted: the message that `HTTP_Module_Streamer_T` writes, as
`HTTP_Module_Parser_T` reads it. -/

namespace ACENetwork.Http

/-- A text that is a token of the scanner, and that no quoted string starts in. -/
def Unquoted (s : List UInt8) : Prop := s ≠ [] ∧ ∀ a ∈ s, isToken a = true ∧ a ≠ 34

instance (s : List UInt8) : Decidable (Unquoted s) := inferInstanceAs (Decidable (_ ∧ _))

/-- A posted form with a target, a version and headers that the scanner has rules for. -/
structure Postable (r : FormRecord) : Prop where
  method : r.method = .post
  form : r.form.isEmpty = false
  -- the length is read into an `unsigned int`
  length_lt : (Streamer.formText r.form).length < 2 ^ 32
  uri : r.uri ∈ requestUri.lang
  version : r.version ∈ [Version.v0_9, .v1_0, .v1_1]
  names : ∀ entry ∈ r.headers.toList, Unquoted entry.1 ∧ 58 ∉ entry.1
  values : ∀ entry ∈ r.headers.toList, Unquoted entry.2
  -- a request is written without these
  kinds : ∀ entry ∈ r.headers.toList, entry.1 ∉ Streamer.headerNames .response
  -- `HTTP_Module_Parser_T::encoding` fails an assertion
  unencoded : ∀ entry ∈ r.headers.toList, entry.1 ≠ headerContentEncoding

/-- What is read has the method, the target and the headers of what was written, with the two
headers that a form needs, and no version. -/
structure SameRequest (r : FormRecord) (record : Record) : Prop where
  method : record.method = r.method
  uri : record.uri = r.uri
  version : record.version = .invalid
  contentLength : record.headers[headerContentLength]? =
    some (Streamer.decimal (Streamer.formText r.form).length)
  contentType : record.headers[Streamer.headerContentType]? = some Streamer.mimeTypeWwwUrlEncoding
  headers : ∀ name, compareNames headerContentLength name ≠ .eq →
    compareNames Streamer.headerContentType name ≠ .eq → record.headers[name]? = r.headers[name]?

/-- A new module that does not block puts one message to the next module: the form is what is left
to read in it, and its record is that of the request. -/
def ReadBack (tools : StringTools) (r : FormRecord) (bytes : List UInt8) : Prop :=
  ∃ m chain record, ModuleParser.Handles tools { driver := { blocking := false } } bytes m ∧
    m.pushed = [(chain, [record])] ∧ chain.flatMap Block.content = Streamer.formText r.form ∧
    SameRequest r record

end ACENetwork.Http
