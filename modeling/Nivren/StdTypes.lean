import Nivren.Types

/-! The types of the standard library.

The tables of `Checker::with_namespace`: what each member of `std` takes, gives and needs. Entries
stand in the source's order; `std` is the tree after string failures became the `Problem` shape.
-/

namespace Nivren

/-- `CAPABILITY_VOCABULARY`. -/
def capabilityVocabulary : List String :=
  ["FileRead", "FileWrite", "Environment", "Time", "Process", "Network", "Task", "Channel", "Log",
    "Native", "Random", "Gpu"]

def problemType : Ty := .record "Problem" []

namespace StdTypes

def stringResult : Ty := .result .string .string

def function (params : List Ty) (gives : Ty) : Ty := .function [] [] params gives []

def effect (params : List Ty) (gives : Ty) (capability : String) : Ty :=
  .function [] [] params gives [capability]

def binaryReader (gives : Ty) : Ty := function [.bytes, .int] (.result gives .string)

def callback (params : List Ty) (gives : Ty) : Ty := .function [] [] params gives ["$effects"]

def generic (names : List String) (params : List Ty) (gives : Ty) : Ty :=
  .function names [] params gives []

def element : Ty := .generic "Element"

def output : Ty := .generic "Output"

def key : Ty := .generic "Key"

def value : Ty := .generic "Value"

def fixedTypeModule (kind : FixedKind) : Ty := .module [
  ("from_int", function [.int] (.result (.fixed kind) .string)),
  ("parse", function [.string] (.result (.fixed kind) .string)),
  ("format", function [.fixed kind] .string),
  ("to_int", function [.fixed kind] (.result .int .string))]

def iteratorTypeModule : Ty := .module [
  ("from", generic ["Element"] [.array element] (.iterator element)),
  ("range", generic [] [.int, .int, .int] (.result (.iterator .int) .string)),
  ("lines", .function [] [] [.file, .int] (.result (.iterator (.result .string .string)) .string)
    ["FileRead"]),
  ("tcp_lines", .function [] [] [.tcpStream, .int, .float] (.result (.iterator (.result .string
    .string)) .string) ["Network"]),
  ("next", generic ["Element"] [.iterator element] (.nullable element)),
  ("take", generic ["Element"] [.iterator element, .int] (.iterator element)),
  ("skip", generic ["Element"] [.iterator element, .int] (.iterator element)),
  ("transform", generic ["Element", "Output"] [.iterator element, callback [element] output]
    (.iterator output)),
  ("select", generic ["Element"] [.iterator element, callback [element] .bool] (.iterator element)),
  ("collect", generic ["Element"] [.iterator element] (.array element)),
  ("chain", generic ["Element"] [.iterator element, .iterator element] (.iterator element)),
  ("count", generic ["Element"] [.iterator element] .int),
  ("fold", generic ["Element", "Output"] [.iterator element, output, callback [output, element]
    output] output),
  ("any", generic ["Element"] [.iterator element, callback [element] .bool] .bool),
  ("every", generic ["Element"] [.iterator element, callback [element] .bool] .bool),
  ("find", generic ["Element"] [.iterator element, callback [element] .bool] (.nullable element))]

def keyed (params : List Ty) (gives : Ty) : Ty :=
  .function ["Key", "Value"] [("Key", "Equal")] params gives []

def mapType : Ty := .map key value

def transactionType : Ty := .transaction key value

def orString (ok : Ty) : Ty := .result ok .string

def transactionTypeModule : Ty := .module [("create", keyed [mapType] transactionType),
  ("get", keyed [transactionType, key] (orString (.nullable value))),
  ("set", keyed [transactionType, key, value] (orString .null)),
  ("remove", keyed [transactionType, key] (orString .null)),
  ("commit", keyed [transactionType] (orString mapType)),
  ("rollback", keyed [transactionType] (orString mapType)),
  ("close", keyed [transactionType] (orString .null))]

def mapFunctions : List (String × Ty) := [
  ("of", keyed [key, value] mapType), ("set", keyed [mapType, key, value] mapType),
  ("get", keyed [mapType, key] (.nullable value)), ("contains", keyed [mapType, key] .bool),
  ("remove", keyed [mapType, key] mapType), ("length", keyed [mapType] .int),
  ("keys", keyed [mapType] (.array (.generic "Key"))), ("values", keyed [mapType] (.array value))]

def taskModule : Ty := .module [
  ("spawn", effect [.function [] [] [] .unknown ["$effects"]] .task "Task"),
  ("await", effect [.task] (.result .unknown .string) "Task"),
  ("await_for", effect [.task, .float] (.result .unknown .string) "Task"),
  ("cancel", effect [.task] .null "Task"),
  ("all", effect [.array .task] (.result (.array .unknown) .string) "Task"),
  ("race", effect [.array .task] (.result .unknown .string) "Task")]

def channelModule : Ty := .module [("create", effect [.int] .channel "Channel"),
  ("send", effect [.channel, .unknown, .float] (.result .null .string) "Channel"),
  ("receive", effect [.channel, .float] (.result .unknown .string) "Channel")]

def setType : Ty := .set element

def ofSet (params : List Ty) (gives : Ty) : Ty :=
  .function ["Element"] [("Element", "Equal")] params gives []

def setFunctions : List (String × Ty) := [
  ("of", ofSet [element] setType), ("add", ofSet [setType, element] setType),
  ("contains", ofSet [setType, element] .bool), ("remove", ofSet [setType, element] setType),
  ("length", ofSet [setType] .int), ("values", ofSet [setType] (.array (.generic "Element")))]

def accumulator : Ty := .generic "Accumulator"

def listFunctions : List (String × Ty) := [
  ("batch", generic ["Element"] [.array element, .int] (.result (.array (.array element)) .string)),
  ("transform", generic ["Element", "Output"] [.array element, callback [element] output] (.array
    output)),
  ("select", generic ["Element"] [.array element, callback [element] .bool] (.array element)),
  ("fold", generic ["Element", "Accumulator"] [.array element, accumulator, callback [accumulator,
    element] accumulator] accumulator),
  ("any", generic ["Element"] [.array element, callback [element] .bool] .bool),
  ("every", generic ["Element"] [.array element, callback [element] .bool] .bool)]

def filesModule : Ty := .module [("read", effect [.string] stringResult "FileRead"),
  ("write", effect [.string, .string] (.result .null .string) "FileWrite"),
  ("exists", effect [.string] (.result .bool .string) "FileRead"),
  ("open_read", effect [.string] (.result .file .string) "FileRead"),
  ("open_write", effect [.string] (.result .file .string) "FileWrite"),
  ("read_from", effect [.file, .int] stringResult "FileRead"),
  ("write_to", effect [.file, .string] (.result .null .string) "FileWrite"),
  ("read_async", effect [.string, .int] (.result .task .string) "FileRead"),
  ("write_async", effect [.string, .string] (.result .task .string) "FileWrite"),
  ("close", function [.file] (.result .null .string))]

def pathModule : Ty := .module [("join", function [.string, .string] .string),
  ("basename", function [.string] (.nullable .string)),
  ("dirname", function [.string] (.nullable .string))]

def envModule : Ty := .module [("get", effect [.string] (.nullable .string) "Environment")]

def timeModule : Ty := .module [("sleep", effect [.float] .null "Time"),
  ("from_unix", function [.int, .string] (.result .dateTime .string)),
  ("parse", function [.string] (.result .dateTime .string)),
  ("format", function [.dateTime] .string),
  ("in_zone", function [.dateTime, .string] (.result .dateTime .string)),
  ("unix", function [.dateTime] .int),
  ("add_seconds", function [.dateTime, .int] (.result .dateTime .string)),
  ("now_zoned", effect [.string] (.result .dateTime .string) "Time"),
  ("monotonic", effect [] .float "Time"), ("year", function [.dateTime] .int),
  ("month", function [.dateTime] .int), ("day", function [.dateTime] .int),
  ("hour", function [.dateTime] .int), ("minute", function [.dateTime] .int),
  ("second", function [.dateTime] .int), ("weekday", function [.dateTime] .int),
  ("difference_seconds", function [.dateTime, .dateTime] (.result .int .string))]

def processModule : Ty := .module [
  ("run", effect [.string, .array .string] stringResult "Process")]

def jsonModule : Ty := .module [
  ("valid", function [.string] .bool), ("compact", function [.string] stringResult),
  ("pretty", function [.string] stringResult),
  ("parse", function [.string] (.result .unknown .string)),
  ("encode", function [.unknown] (.result .string .string)),
  ("decode", function [.unknown, .string] (.result .unknown .string)),
  ("read_next", effect [.file, .int] (.result (.nullable .unknown) .string) "FileRead"),
  ("read_next_as", effect [.unknown, .file, .int] (.result (.nullable .unknown) .string)
    "FileRead")]

def bytesModule : Ty := .module [("from_string", function [.string] .bytes),
  ("from_values", function [.array .int] (.result .bytes .string)),
  ("to_string", function [.bytes] (.result .string .string)), ("length", function [.bytes] .int),
  ("get", function [.bytes, .int] (.result .int .string)),
  ("slice", function [.bytes, .int, .int] (.result .bytes .string))]

def textModule : Ty := .module [("concat", function [.string, .string] (.result .string .string)),
  ("split", function [.string, .string, .int] (.result (.array .string) .string)),
  ("starts_with", function [.string, .string] .bool),
  ("split_last", function [.string, .string] (.result (.array .string) .string)),
  ("contains", function [.string, .string] .bool), ("ends_with", function [.string, .string] .bool),
  ("index_of", function [.string, .string] (.nullable .int)),
  ("slice", function [.string, .int, .int] (.result .string .string)),
  ("replace", function [.string, .string, .string, .int] (.result .string .string)),
  ("trim", function [.string] .string), ("trim_start", function [.string] .string),
  ("trim_end", function [.string] .string),
  ("to_upper", function [.string] (.result .string .string)),
  ("to_lower", function [.string] (.result .string .string)),
  ("join", function [.array .string, .string] (.result .string .string)),
  ("lines", function [.string] (.array .string)),
  ("repeat", function [.string, .int] (.result .string .string)),
  ("pad_start", function [.string, .int, .string] (.result .string .string)),
  ("pad_end", function [.string, .int, .string] (.result .string .string))]

def intModule : Ty := .module [
  ("parse", function [.string] (.result .int .string)), ("format", function [.int] .string)]

def u128Module : Ty := .module [
  ("parse", function [.string] (.result .u128 .string)), ("format", function [.u128] .string),
  ("from_int", function [.int] (.result .u128 .string)),
  ("to_int", function [.u128] (.result .int .string))]

def uintModule : Ty := .module [
  ("parse", function [.string] (.result .uint .string)), ("format", function [.uint] .string),
  ("from_int", function [.int] (.result .uint .string)),
  ("to_int", function [.uint] (.result .int .string)),
  ("wrapping_add", function [.uint, .uint] .uint), ("wrapping_sub", function [.uint, .uint] .uint),
  ("wrapping_mul", function [.uint, .uint] .uint), ("min", function [] .uint),
  ("max", function [] .uint)]

def floatModule : Ty := .module [("parse", function [.string] (.result .float .string)),
  ("format", function [.float] (.result .string .string))]

def binaryModule : Ty := .module [
  ("u16_be", function [.fixed .u16] .bytes), ("u16_le", function [.fixed .u16] .bytes),
  ("u32_be", function [.fixed .u32] .bytes), ("u32_le", function [.fixed .u32] .bytes),
  ("u64_be", function [.fixed .u64] .bytes), ("u64_le", function [.fixed .u64] .bytes),
  ("i16_be", function [.fixed .i16] .bytes), ("i16_le", function [.fixed .i16] .bytes),
  ("i32_be", function [.fixed .i32] .bytes), ("i32_le", function [.fixed .i32] .bytes),
  ("int_be", function [.int] .bytes), ("int_le", function [.int] .bytes),
  ("float_be", function [.float] .bytes), ("float_le", function [.float] .bytes),
  ("read_u16_be", binaryReader (.fixed .u16)), ("read_u16_le", binaryReader (.fixed .u16)),
  ("read_u32_be", binaryReader (.fixed .u32)), ("read_u32_le", binaryReader (.fixed .u32)),
  ("read_u64_be", binaryReader (.fixed .u64)), ("read_u64_le", binaryReader (.fixed .u64)),
  ("read_i16_be", binaryReader (.fixed .i16)), ("read_i16_le", binaryReader (.fixed .i16)),
  ("read_i32_be", binaryReader (.fixed .i32)), ("read_i32_le", binaryReader (.fixed .i32)),
  ("read_int_be", binaryReader .int), ("read_int_le", binaryReader .int),
  ("read_float_be", binaryReader .float), ("read_float_le", binaryReader .float),
  ("concat", function [.bytes, .bytes] (.result .bytes .string))]

def cryptoModule : Ty := .module [("sha256", function [.bytes] (.result .bytes .string)),
  ("hmac_sha256", function [.bytes, .bytes] (.result .bytes .string)),
  ("hmac_sha256_verify", function [.bytes, .bytes, .bytes] (.result .bool .string)),
  ("random_bytes", effect [.int] (.result .bytes .string) "Random"),
  ("password_hash", function [.string, .bytes, .int, .int, .int] (.result .string .string)),
  ("password_verify", function [.string, .string] (.result .bool .string)),
  ("key_import", function [.bytes] (.result .secretKey .string)),
  ("key_generate", effect [] (.result .secretKey .string) "Random"),
  ("encrypt", function [.secretKey, .bytes, .bytes, .bytes] (.result .bytes .string)),
  ("decrypt", function [.secretKey, .bytes, .bytes, .bytes] (.result .bytes .string)),
  ("ed25519_public", function [.secretKey] (.result .bytes .string)),
  ("ed25519_sign", function [.secretKey, .bytes] (.result .bytes .string)),
  ("ed25519_verify", function [.bytes, .bytes, .bytes] (.result .bool .string))]

def bigintModule : Ty := .module [
  ("parse", function [.string] (.result .bigInt .string)), ("from_int", function [.int] .bigInt),
  ("format", function [.bigInt] .string), ("to_int", function [.bigInt] (.result .int .string))]

def decimalModule : Ty := .module [
  ("parse", function [.string] (.result .decimal .string)), ("from_int", function [.int] .decimal),
  ("format", function [.decimal] .string), ("to_int", function [.decimal] (.result .int .string))]

def netModule : Ty := .module [
  ("listen", effect [.string, .int] (.result .tcpListener .string) "Network"),
  ("accept", effect [.tcpListener, .float] (.result .tcpStream .string) "Network"),
  ("connect", effect [.string, .int, .float] (.result .tcpStream .string) "Network"),
  ("tls_connect", effect [.string, .int, .float, .map .string .string] (.result .tlsStream .string)
    "Network"),
  ("read", effect [.tcpStream, .int] stringResult "Network"),
  ("read_exact_bytes", effect [.tcpStream, .int, .float] (.result .bytes .string) "Network"),
  ("read_line", effect [.tcpStream, .int, .float] (.result .string .string) "Network"),
  ("write", effect [.tcpStream, .string] (.result .null .string) "Network"),
  ("write_some", effect [.tcpStream, .string, .int, .float] (.result .int .string) "Network"),
  ("wait_ready", effect [.tcpStream, .enum "Interest" [], .float] (.result .bool .string)
    "Network"),
  ("wait_ready_any", effect [.array .tcpStream, .enum "Interest" [], .float] (.result (.nullable
    .int) .string) "Network"),
  ("read_ready", effect [.tcpStream, .int, .float] (.result .string .string) "Network"),
  ("write_ready", effect [.tcpStream, .string, .int, .float] (.result .null .string) "Network"),
  ("tls_read_exact_bytes", effect [.tlsStream, .int, .float] (.result .bytes .string) "Network"),
  ("tls_read_line", effect [.tlsStream, .int, .float] (.result .string .string) "Network"),
  ("tls_write_ready", effect [.tlsStream, .string, .int, .float] (.result .null .string) "Network"),
  ("tls_close", effect [.tlsStream] (.result .null .string) "Network"),
  ("close", effect [.tcpStream] (.result .null .string) "Network")]

def webModule : Ty := .module [("get", effect [.string, .float] stringResult "Network"),
  ("headers", function [] (.map .string .string)),
  ("encode_component", function [.string] (.result .string .string)),
  ("decode_component", function [.string] (.result .string .string)),
  ("request", effect [.string, .string, .map .string .string, .string, .float, .int] (.result
    (.record "Response" []) .string) "Network"),
  ("read_request", effect [.tcpStream, .int] (.result (.record "Request" []) .string) "Network"),
  ("respond", effect [.tcpStream, .int, .map .string .string, .string] (.result .null .string)
    "Network"),
  ("websocket_connect", effect [.string, .int, .string, .float] (.result .webSocket .string)
    "Network"),
  ("websocket_secure_connect", effect [.string, .int, .string, .float, .map .string .string]
    (.result .webSocket .string) "Network"),
  ("websocket_secure_listen", effect [.string, .int, .string, .string, .map .string .string]
    (.result .tlsListener .string) "Network"),
  ("websocket_secure_accept", effect [.tlsListener, .float] (.result .webSocket .string) "Network"),
  ("tls_close", effect [.tlsListener] (.result .null .string) "Network"),
  ("tls_options", function [] (.map .string .string)),
  ("websocket_accept", effect [.tcpStream, .record "Request" []] (.result .webSocket .string)
    "Network"),
  ("websocket_send", effect [.webSocket, .string] (.result .null .string) "Network"),
  ("websocket_receive", effect [.webSocket, .int] stringResult "Network"),
  ("websocket_close", effect [.webSocket] (.result .null .string) "Network")]

def locksModule : Ty := .module [("create", function [.unknown] .lock),
  ("acquire", effect [.lock, .float] (.result .lockGuard .string) "Task"),
  ("read", effect [.lockGuard] (.result .unknown .string) "Task"),
  ("write", effect [.lockGuard, .unknown] (.result .null .string) "Task"),
  ("close", effect [.lockGuard] (.result .null .string) "Task")]

def logModule : Ty := .module [
  ("info", effect [.string] .null "Log"), ("warn", effect [.string] .null "Log"),
  ("error", effect [.string] .null "Log"),
  ("event", effect [.string, .string, .map .string .string] .null "Log")]

def hostModule : Ty := .module [("invoke", effect [.string, .string] stringResult "Native"),
  ("invoke_async", .function [] [] [.string, .string] (.result .task .string) ["Native", "Task"]),
  ("open", effect [.string, .string] (.result .nativeHandle .string) "Native"),
  ("call", effect [.nativeHandle, .string, .string] stringResult "Native"),
  ("close", effect [.nativeHandle] (.result .null .string) "Native")]

def atomicsModule : Ty := .module [
  ("create", function [.int] .atomicInt), ("load", function [.atomicInt] .int),
  ("store", function [.atomicInt, .int] .null), ("swap", function [.atomicInt, .int] .int),
  ("add", function [.atomicInt, .int] (.result .int .string)),
  ("compare_exchange", function [.atomicInt, .int, .int] (.result .int .int))]

def nativeModule : Ty := .module [
  ("open", effect [.string] (.result .nativeLibrary .string) "Native"),
  ("call_int", effect [.nativeLibrary, .string, .array .int] (.result .int .string) "Native"),
  ("call_float", effect [.nativeLibrary, .string, .array .float] (.result .float .string) "Native"),
  ("call_buffer", effect [.nativeLibrary, .string, .bytes, .int] (.result .bytes .string) "Native"),
  ("close", effect [.nativeLibrary] (.result .null .string) "Native")]

def reflectModule : Ty := .module [("kind", function [.unknown] .string),
  ("fields", function [.unknown] (.result (.map .string .string) .string)),
  ("schema", function [.unknown] (.result (.map .string .string) .string))]

def plansModule : Ty := .module [("encode", function [.unknown] (.result .bytes .string)),
  ("decode", function [.unknown, .bytes] (.result .unknown .string))]

def problemsModule : Ty := .module [("create", function [.string, .string] problemType)]

def sourceModule : Ty := .module [
  ("shape", function [.string, .map .string .string, .array .string] (.result .unknown .string)),
  ("choice", function [.string, .map .string .string] (.result .unknown .string)),
  ("binding", function [.string, .unknown] (.result .unknown .string)),
  ("function", function [.string, .map .string .string, .string, .array .unknown] (.result .unknown
    .string)),
  ("give", function [.string] (.result .unknown .string)),
  ("call", function [.string] (.result .unknown .string)),
  ("when", function [.string, .array .unknown, .array .unknown] (.result .unknown .string)),
  ("each", function [.string, .string, .array .unknown] (.result .unknown .string))]

def gpuModule : Ty := .module [
  ("available", effect [] .bool "Gpu"), ("open", effect [.string] (.result .unknown .string) "Gpu")]

def compressionModule : Ty := .module [("gzip", function [.bytes, .int] (.result .bytes .string)),
  ("gzip_decode", function [.bytes, .int] (.result .bytes .string)),
  ("zlib", function [.bytes, .int] (.result .bytes .string)),
  ("zlib_decode", function [.bytes, .int] (.result .bytes .string))]

def csvModule : Ty := .module [
  ("decode", function [.string, .array .string, .string, .int] (.result (.array (.map .string
    .string)) .string)),
  ("encode", function [.array (.map .string .string), .array .string, .string] (.result .string
    .string))]

def encodingModule : Ty := .module [("hex_encode", function [.bytes] (.result .string .string)),
  ("hex_decode", function [.string] (.result .bytes .string)),
  ("base64_encode", function [.bytes] (.result .string .string)),
  ("base64_decode", function [.string] (.result .bytes .string)),
  ("base64url_encode", function [.bytes] (.result .string .string)),
  ("base64url_decode", function [.string] (.result .bytes .string))]

def table : Ty := .module [
  ("files", filesModule), ("path", pathModule), ("env", envModule), ("time", timeModule),
  ("process", processModule), ("json", jsonModule), ("bytes", bytesModule), ("text", textModule),
  ("int", intModule), ("u128", u128Module), ("uint", uintModule), ("float", floatModule),
  ("binary", binaryModule), ("crypto", cryptoModule), ("iter", iteratorTypeModule),
  ("transactions", transactionTypeModule), ("bigint", bigintModule), ("decimal", decimalModule),
  ("i8", fixedTypeModule .i8), ("i16", fixedTypeModule .i16), ("i32", fixedTypeModule .i32),
  ("u8", fixedTypeModule .u8), ("u16", fixedTypeModule .u16), ("u32", fixedTypeModule .u32),
  ("u64", fixedTypeModule .u64), ("i128", fixedTypeModule .i128), ("map", .module mapFunctions),
  ("set", .module setFunctions), ("list", .module listFunctions), ("net", netModule),
  ("web", webModule), ("tasks", taskModule), ("channels", channelModule), ("locks", locksModule),
  ("log", logModule), ("host", hostModule), ("atomics", atomicsModule), ("native", nativeModule),
  ("reflect", reflectModule), ("plans", plansModule), ("problems", problemsModule),
  ("source", sourceModule), ("gpu", gpuModule), ("compression", compressionModule),
  ("csv", csvModule), ("encoding", encodingModule)]

end StdTypes

namespace Ty

mutual

/-- `problematize`: failures given as strings become the `Problem` shape. -/
def problematize : Ty → Ty
  | .result ok .string => .result (problematize ok) problemType
  | .result ok error => .result (problematize ok) (problematize error)
  | .module members => .module (problematizeMembers members)
  | .function typeParams constraints params gives needs =>
    .function typeParams constraints (problematizeAll params) (problematize gives) needs
  | .array element => .array (problematize element)
  | .iterator element => .iterator (problematize element)
  | .set element => .set (problematize element)
  | .nullable inner => .nullable (problematize inner)
  | .map key value => .map (problematize key) (problematize value)
  | .transaction key value => .transaction (problematize key) (problematize value)
  | .record name arguments => .record name (problematizeAll arguments)
  | .enum name arguments => .enum name (problematizeAll arguments)
  | other => other

def problematizeAll : List Ty → List Ty
  | [] => []
  | ty :: rest => problematize ty :: problematizeAll rest

def problematizeMembers : List (String × Ty) → List (String × Ty)
  | [] => []
  | (name, ty) :: rest => (name, problematize ty) :: problematizeMembers rest

end

mutual

/-- The `collect` of `standard_effects`: the functions below a path that need a capability. -/
def effects (path : String) : Ty → List (String × List String)
  | .function _ _ _ _ needs => if needs.isEmpty then [] else [(path, needs)]
  | .module members => memberEffects path members
  | _ => []

def memberEffects (path : String) : List (String × Ty) → List (String × List String)
  | [] => []
  | (name, ty) :: rest => effects (path ++ "." ++ name) ty ++ memberEffects path rest

end

end Ty

/-- The type of `std`. -/
def stdType : Ty := StdTypes.table.problematize

/-- `standard_effects`: the capabilities each standard function needs, by its path. -/
def standardEffects : List (String × List String) := stdType.effects "std"

end Nivren
