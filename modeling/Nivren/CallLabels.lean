import Nivren.Ast

/-! The labels of standard calls.

A labeled call names its arguments in a fixed order. `lower_through` consults the table to find the
label of the value a pipeline hands on.
-/

namespace Nivren

/-- The entries `add` makes for one module. -/
def labelled (module : String) (entries : List (String × List String)) :
    List (String × List String) :=
  entries.map fun (name, labels) => (if module.isEmpty then name else module ++ "." ++ name, labels)

def builtinLabels : List (String × List String) := [
  ("len", ["value"]), ("type", ["value"]), ("append", ["values", "value"]),
  ("assert", ["condition", "message"]), ("ok", ["value"]), ("err", ["problem"])]

def atomicsLabels : List (String × List String) := [
  ("create", ["value"]), ("load", ["atomic"]), ("store", ["atomic", "value"]),
  ("swap", ["atomic", "value"]), ("add", ["atomic", "amount"]),
  ("compare_exchange", ["atomic", "expected", "replacement"])]

def numberLabels : List (String × List String) := [
  ("parse", ["source"]), ("from_int", ["value"]), ("format", ["value"]), ("to_int", ["value"])]

def binaryLabels : List (String × List String) := [
  ("concat", ["left", "right"]), ("u16_be", ["value"]), ("u16_le", ["value"]),
  ("u32_be", ["value"]), ("u32_le", ["value"]), ("u64_be", ["value"]), ("u64_le", ["value"]),
  ("i16_be", ["value"]), ("i16_le", ["value"]), ("i32_be", ["value"]), ("i32_le", ["value"]),
  ("int_be", ["value"]), ("int_le", ["value"]), ("float_be", ["value"]), ("float_le", ["value"]),
  ("read_u16_be", ["bytes", "offset"]), ("read_u16_le", ["bytes", "offset"]),
  ("read_u32_be", ["bytes", "offset"]), ("read_u32_le", ["bytes", "offset"]),
  ("read_u64_be", ["bytes", "offset"]), ("read_u64_le", ["bytes", "offset"]),
  ("read_i16_be", ["bytes", "offset"]), ("read_i16_le", ["bytes", "offset"]),
  ("read_i32_be", ["bytes", "offset"]), ("read_i32_le", ["bytes", "offset"]),
  ("read_int_be", ["bytes", "offset"]), ("read_int_le", ["bytes", "offset"]),
  ("read_float_be", ["bytes", "offset"]), ("read_float_le", ["bytes", "offset"])]

def bytesLabels : List (String × List String) := [
  ("from_string", ["value"]), ("from_values", ["values"]), ("to_string", ["bytes"]),
  ("length", ["bytes"]), ("get", ["bytes", "index"]), ("slice", ["bytes", "offset", "length"])]

def channelsLabels : List (String × List String) := [
  ("create", ["capacity"]), ("send", ["channel", "value", "timeout"]),
  ("receive", ["channel", "timeout"])]

def compressionLabels : List (String × List String) := [
  ("gzip", ["bytes", "level"]), ("gzip_decode", ["bytes", "maximum"]), ("zlib", ["bytes", "level"]),
  ("zlib_decode", ["bytes", "maximum"])]

def cryptoLabels : List (String × List String) := [
  ("sha256", ["bytes"]), ("hmac_sha256", ["key", "message"]),
  ("hmac_sha256_verify", ["key", "message", "expected"]), ("random_bytes", ["length"]),
  ("password_hash", ["password", "salt", "memory_kib", "iterations", "lanes"]),
  ("password_verify", ["password", "encoded"]), ("key_import", ["bytes"]), ("key_generate", []),
  ("encrypt", ["key", "nonce", "associated", "plaintext"]),
  ("decrypt", ["key", "nonce", "associated", "ciphertext"]), ("ed25519_public", ["key"]),
  ("ed25519_sign", ["key", "message"]), ("ed25519_verify", ["public_key", "message", "signature"])]

def csvLabels : List (String × List String) := [
  ("decode", ["source", "headers", "delimiter", "maximum_rows"]),
  ("encode", ["rows", "headers", "delimiter"])]

def encodingLabels : List (String × List String) := [
  ("hex_encode", ["bytes"]), ("hex_decode", ["source"]), ("base64_encode", ["bytes"]),
  ("base64_decode", ["source"]), ("base64url_encode", ["bytes"]), ("base64url_decode", ["source"])]

def envLabels : List (String × List String) := [("get", ["name"])]

def filesLabels : List (String × List String) := [
  ("read", ["path"]), ("write", ["path", "contents"]), ("exists", ["path"]),
  ("open_read", ["path"]), ("open_write", ["path"]), ("read_from", ["file", "maximum"]),
  ("write_to", ["file", "contents"]), ("close", ["file"])]

def asyncFilesLabels : List (String × List String) := [
  ("read_async", ["path", "maximum"]), ("write_async", ["path", "contents"])]

def floatLabels : List (String × List String) := [("parse", ["source"]), ("format", ["value"])]

def intLabels : List (String × List String) := [("parse", ["source"]), ("format", ["value"])]

def hostLabels : List (String × List String) := [
  ("invoke", ["name", "request"]), ("invoke_async", ["name", "request"]),
  ("open", ["kind", "request"]), ("call", ["handle", "name", "request"]), ("close", ["handle"])]

def iterLabels : List (String × List String) := [
  ("from", ["values"]), ("range", ["start", "end", "step"]), ("lines", ["file", "maximum_bytes"]),
  ("tcp_lines", ["stream", "maximum_bytes", "timeout"]), ("next", ["iterator"]),
  ("take", ["iterator", "count"]), ("skip", ["iterator", "count"]),
  ("transform", ["iterator", "by"]), ("select", ["iterator", "by"]), ("collect", ["iterator"]),
  ("chain", ["left", "right"]), ("count", ["iterator"]), ("fold", ["iterator", "initial", "by"]),
  ("any", ["iterator", "by"]), ("every", ["iterator", "by"]), ("find", ["iterator", "by"])]

def jsonLabels : List (String × List String) := [
  ("valid", ["source"]), ("compact", ["source"]), ("pretty", ["source"]), ("parse", ["source"]),
  ("encode", ["value"]), ("decode", ["schema", "source"]), ("read_next", ["file", "maximum"]),
  ("read_next_as", ["schema", "file", "maximum"])]

def listLabels : List (String × List String) := [
  ("batch", ["values", "count"]), ("transform", ["values", "by"]), ("select", ["values", "by"]),
  ("fold", ["values", "initial", "by"]), ("any", ["values", "by"]), ("every", ["values", "by"])]

def locksLabels : List (String × List String) := [
  ("create", ["value"]), ("acquire", ["lock", "timeout"]), ("read", ["guard"]),
  ("write", ["guard", "value"]), ("close", ["guard"])]

def logLabels : List (String × List String) := [
  ("info", ["message"]), ("warn", ["message"]), ("error", ["message"]),
  ("event", ["level", "message", "fields"])]

def mapLabels : List (String × List String) := [
  ("of", ["key", "value"]), ("set", ["map", "key", "value"]), ("get", ["map", "key"]),
  ("contains", ["map", "key"]), ("remove", ["map", "key"]), ("length", ["map"]), ("keys", ["map"]),
  ("values", ["map"])]

def nativeLabels : List (String × List String) := [
  ("open", ["path"]), ("call_int", ["library", "symbol", "arguments"]),
  ("call_float", ["library", "symbol", "arguments"]),
  ("call_buffer", ["library", "symbol", "input", "capacity"]), ("close", ["library"])]

def netLabels : List (String × List String) := [
  ("listen", ["host", "port"]), ("accept", ["listener", "timeout"]),
  ("connect", ["host", "port", "timeout"]), ("tls_connect", ["host", "port", "timeout", "options"]),
  ("read", ["stream", "maximum"]), ("read_exact_bytes", ["stream", "length", "timeout"]),
  ("read_line", ["stream", "maximum", "timeout"]), ("write", ["stream", "value"]),
  ("write_some", ["stream", "value", "maximum", "timeout"]),
  ("wait_ready", ["stream", "interest", "timeout"]),
  ("wait_ready_any", ["streams", "interest", "timeout"]),
  ("read_ready", ["stream", "maximum", "timeout"]),
  ("write_ready", ["stream", "value", "chunk_size", "timeout"]),
  ("tls_read_exact_bytes", ["stream", "length", "timeout"]),
  ("tls_read_line", ["stream", "maximum", "timeout"]),
  ("tls_write_ready", ["stream", "value", "chunk_size", "timeout"]), ("tls_close", ["stream"]),
  ("close", ["stream"])]

def pathLabels : List (String × List String) := [
  ("join", ["left", "right"]), ("basename", ["path"]), ("dirname", ["path"])]

def processLabels : List (String × List String) := [("run", ["command", "arguments"])]

def reflectLabels : List (String × List String) := [
  ("kind", ["value"]), ("fields", ["value"]), ("schema", ["declaration"])]

def plansLabels : List (String × List String) := [
  ("encode", ["plan"]), ("decode", ["shape", "bytes"])]

def uintLabels : List (String × List String) := [
  ("parse", ["source"]), ("format", ["value"]), ("from_int", ["value"]), ("to_int", ["value"]),
  ("wrapping_add", ["left", "right"]), ("wrapping_sub", ["left", "right"]),
  ("wrapping_mul", ["left", "right"]), ("min", []), ("max", [])]

def gpuLabels : List (String × List String) := [("available", []), ("open", ["adapter"])]

def problemsLabels : List (String × List String) := [("create", ["kind", "message"])]

def sourceLabels : List (String × List String) := [
  ("shape", ["name", "fields", "derives"]), ("choice", ["name", "cases"]),
  ("binding", ["name", "value"]), ("function", ["name", "takes", "gives", "body"]),
  ("give", ["expression"]), ("call", ["expression"]), ("when", ["condition", "then", "otherwise"]),
  ("each", ["name", "in", "body"])]

def setLabels : List (String × List String) := [
  ("of", ["value"]), ("add", ["set", "value"]), ("contains", ["set", "value"]),
  ("remove", ["set", "value"]), ("length", ["set"]), ("values", ["set"])]

def tasksLabels : List (String × List String) := [
  ("spawn", ["operation"]), ("await", ["task"]), ("await_for", ["task", "timeout"]),
  ("cancel", ["task"]), ("all", ["tasks"]), ("race", ["tasks"])]

def textLabels : List (String × List String) := [
  ("concat", ["left", "right"]), ("split", ["value", "separator", "maximum"]),
  ("split_last", ["value", "separator"]), ("starts_with", ["value", "prefix"]),
  ("contains", ["value", "needle"]), ("ends_with", ["value", "suffix"]),
  ("index_of", ["value", "needle"]), ("slice", ["value", "start", "end"]),
  ("replace", ["value", "needle", "replacement", "maximum"]), ("trim", ["value"]),
  ("trim_start", ["value"]), ("trim_end", ["value"]), ("to_upper", ["value"]),
  ("to_lower", ["value"]), ("join", ["parts", "separator"]), ("lines", ["value"]),
  ("repeat", ["value", "count"]), ("pad_start", ["value", "width", "pad"]),
  ("pad_end", ["value", "width", "pad"])]

def timeLabels : List (String × List String) := [
  ("sleep", ["seconds"]), ("now_zoned", ["zone"]), ("from_unix", ["seconds", "zone"]),
  ("parse", ["source"]), ("format", ["value"]), ("in_zone", ["value", "zone"]), ("unix", ["value"]),
  ("add_seconds", ["value", "seconds"]), ("monotonic", []), ("year", ["value"]),
  ("month", ["value"]), ("day", ["value"]), ("hour", ["value"]), ("minute", ["value"]),
  ("second", ["value"]), ("weekday", ["value"]), ("difference_seconds", ["left", "right"])]

def transactionsLabels : List (String × List String) := [
  ("create", ["map"]), ("get", ["transaction", "key"]), ("set", ["transaction", "key", "value"]),
  ("remove", ["transaction", "key"]), ("commit", ["transaction"]), ("rollback", ["transaction"]),
  ("close", ["transaction"])]

def webLabels : List (String × List String) := [
  ("encode_component", ["value"]), ("decode_component", ["value"]), ("get", ["url", "timeout"]),
  ("headers", []), ("request", ["method", "url", "headers", "body", "timeout", "maximum"]),
  ("read_request", ["stream", "maximum"]), ("respond", ["stream", "status", "headers", "body"]),
  ("websocket_connect", ["host", "port", "path", "timeout"]),
  ("websocket_secure_connect", ["host", "port", "path", "timeout", "options"]),
  ("websocket_accept", ["stream", "request"]), ("websocket_send", ["websocket", "message"]),
  ("websocket_receive", ["websocket", "maximum"]), ("websocket_close", ["websocket"]),
  ("websocket_secure_listen", ["host", "port", "certificate_pem", "private_key_pem", "options"]),
  ("websocket_secure_accept", ["listener", "timeout"]), ("tls_options", []),
  ("tls_close", ["listener"])]

/-- `LABELS`. -/
def callLabels : List (String × List String) :=
  labelled "" builtinLabels ++ labelled "std.atomics" atomicsLabels ++
    ["std.bigint", "std.decimal", "std.i8", "std.i16", "std.i32", "std.u8", "std.u16", "std.u32",
    "std.u64", "std.i128", "std.u128"].flatMap (labelled · numberLabels) ++
    labelled "std.binary" binaryLabels ++ labelled "std.bytes" bytesLabels ++
    labelled "std.channels" channelsLabels ++ labelled "std.compression" compressionLabels ++
    labelled "std.crypto" cryptoLabels ++ labelled "std.csv" csvLabels ++
    labelled "std.encoding" encodingLabels ++ labelled "std.env" envLabels ++
    labelled "std.files" filesLabels ++ labelled "std.files" asyncFilesLabels ++
    labelled "std.float" floatLabels ++ labelled "std.int" intLabels ++
    labelled "std.host" hostLabels ++ labelled "std.iter" iterLabels ++
    labelled "std.json" jsonLabels ++ labelled "std.list" listLabels ++
    labelled "std.locks" locksLabels ++ labelled "std.log" logLabels ++
    labelled "std.map" mapLabels ++ labelled "std.native" nativeLabels ++
    labelled "std.net" netLabels ++ labelled "std.path" pathLabels ++
    labelled "std.process" processLabels ++ labelled "std.reflect" reflectLabels ++
    labelled "std.plans" plansLabels ++ labelled "std.uint" uintLabels ++
    labelled "std.gpu" gpuLabels ++ labelled "std.problems" problemsLabels ++
    labelled "std.source" sourceLabels ++ labelled "std.set" setLabels ++
    labelled "std.tasks" tasksLabels ++ labelled "std.text" textLabels ++
    labelled "std.time" timeLabels ++ labelled "std.transactions" transactionsLabels ++
    labelled "std.web" webLabels

end Nivren
