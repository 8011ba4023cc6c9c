import SchemaHeader.Header.Walk
import SchemaHeader.Request
import SchemaHeader.Response

/-! Headers for a whole request. One ill-typed field in any of the files means that there are no
headers at all. -/
namespace SchemaHeader

/-- Why there are no headers. -/
inductive Failure where
  | undecodable (fault : Wire.Fault)
  | illTyped (log : Log)
  | internal (message : String)
  deriving DecidableEq

namespace Failure

def text : Failure → String
  | .undecodable fault => "failed to decode protobuf input: " ++ fault.text
  | .illTyped log => "header generation failed with " ++ toString log.size ++ " error(s)"
  | .internal message => "internal error: " ++ message

def diagnostics : Failure → List Diagnostic
  | .illTyped log => log.entries
  | _ => []

end Failure

namespace Dialect

variable (style : Dialect)

/-- The headers of those files that `isWanted` picks, in order, with one log for all of them. -/
def headersOf (isWanted : String → Bool) : List FileDescriptor → Log → List Header × Log
  | [], log => ([], log)
  | f :: rest, log =>
    if isWanted f.name then
      let (header, log) := style.header f log
      let (headers, log) := headersOf isWanted rest log
      (header :: headers, log)
    else headersOf isWanted rest log

/-- The headers of a request, or everything that was found wrong with its files. -/
def headers (request : Request) : Except Log (List Header) := do
  let (headers, log) := style.headersOf request.wants request.files {}
  log.toExcept
  return headers

def response (request : Request) : Except Log Response :=
  Response.ofHeaders request.parameter <$> style.headers request

/-- The bytes of the answer to the request that `bytes` hold. -/
def answer (bytes : List UInt8) : Except Failure (List UInt8) := do
  let request ← (Request.decode bytes).mapError .undecodable
  let headers ← (style.headers request).mapError .illTyped
  return (Response.ofHeaders request.parameter headers).encode

end Dialect

/-- The sum of the tallies, from left to right. -/
def Tally.total (tallies : List Tally) : Tally := tallies.foldl (· + ·) 0

end SchemaHeader
