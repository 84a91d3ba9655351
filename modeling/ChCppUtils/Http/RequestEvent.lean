import ChCppUtils.Http.Router
import ChCppUtils.Lib.Split
import Mathlib.Algebra.Group.Nat.Defs

/-!
# A request at the server (http-thread.cpp, http-server.cpp)

What a handler gets: the `RequestEvent` that `OnRequest::fire` makes of a request, with the maps of its
headers and of its query, and the body that `HttpServer::readBody` adds. Both maps keep the first value
of a name. `readBody` takes the length of the body from a header, by `std::stoul`, which may throw.
-/

namespace ChCppUtils.Http.Server

/-- An exception that leaves a function of the standard library. -/
inductive Exception where
  | invalidArgument | outOfRange
deriving DecidableEq, Repr

/-! ### `std::stoul` -/

/-- `isspace` -/
def isSpace (c : Char) : Bool := c = ' ' || ('\t' ≤ c && c ≤ '\r')

/-- The number that a list of digits denotes. -/
def digitsValue (ds : Str) : Nat := ds.foldl (fun n c => 10 * n + (c.toNat - '0'.toNat)) 0

/-- Whether the text has a minus sign, and the text behind its sign. -/
def unsign : Str → Bool × Str
  | '-' :: rest => (true, rest)
  | '+' :: rest => (false, rest)
  | rest => (false, rest)

/-- `std::stoul(str)`, by `strtoul`: what follows the digits is not looked at, and a number with a minus
sign is negated as an `unsigned long`. -/
def stoul (str : Str) : Except Exception UInt64 :=
  let (negative, str) := unsign (str.dropWhile isSpace)
  let digits := str.takeWhile Char.isDigit
  if digits = [] then throw .invalidArgument
  else if 2 ^ 64 ≤ digitsValue digits then throw .outOfRange
  else pure (if negative then -UInt64.ofNat (digitsValue digits) else UInt64.ofNat (digitsValue digits))

/-! ### Requests -/

/-- An `evbuffer`; `fits`: it is in memory. -/
structure Evbuffer where
  bytes : List UInt8
  fits : bytes.length < 2 ^ 63

/-- `evhttp_request`: the method, the header fields in the order received, path and query of the URI,
and the input buffer. -/
structure EvhttpRequest where
  type : EvhttpCmdType
  input_headers : List (Str × Str)
  uri_path : Str
  uri_query : Option Str
  input_buffer : Evbuffer

/-- The value of the first header whose name has `p`. -/
def firstValue (p : Str → Bool) (headers : List (Str × Str)) : Option Str :=
  (headers.find? fun header => p header.1).map Prod.snd

/-- What `evbuffer_remove(buf, data, datlen)` returns, and copies to `data`, and leaves. -/
structure Removed where
  ret : Int32
  data : List UInt8
  left : Evbuffer

/-- `class RequestEvent`; `body` is null, or a block of `malloc` with these bytes. -/
structure RequestEvent where
  body : Option (List UInt8)
  length : UInt64
  request : EvhttpRequest
  headers : UnorderedMap Str Str
  query : UnorderedMap Str Str
  path : Str

namespace RequestEvent

def getNextQuery (path : Str) (frm : Nat) : Str := Split.next '&' path frm

def buildHeaderMap (req : EvhttpRequest) : UnorderedMap Str Str :=
  req.input_headers.foldl (fun headers (key, value) => headers.emplace key value) ∅

/-- The loop of `buildQueryMap`; the first argument bounds its iterations. -/
def buildQueryLoop (q : Str) : Nat → Nat → UnorderedMap Str Str → UnorderedMap Str Str
  | 0, _, query => query
  | n + 1, frm, query =>
    let token := getNextQuery q frm
    if token.length ≠ 0 then
      let (name, value) :=
        match token.findIdx? (· == '=') with
        | some pos => (token.take pos, token.drop (pos + 1))
        | none => (token, [])
      buildQueryLoop q n (frm + token.length + 1) (query.emplace name value)
    else query

def buildQueryMap (req : EvhttpRequest) : UnorderedMap Str Str :=
  match req.uri_query with
  | some q => buildQueryLoop q (q.length + 1) 0 ∅
  | none => ∅

/-- `RequestEvent(request)` -/
def new (request : EvhttpRequest) : RequestEvent where
  body := none
  length := 0
  request := request
  headers := buildHeaderMap request
  query := buildQueryMap request
  path := request.uri_path

def setBody (this : RequestEvent) (body : List UInt8) : RequestEvent := { this with body := some body }

def setLength (this : RequestEvent) (length : UInt64) : RequestEvent := { this with length := length }

def hasBody (this : RequestEvent) : Bool := this.body.isSome && this.length ≠ 0

/-- The bytes that a handler reads: `getLength()` of them at `getBody()`. -/
def content (this : RequestEvent) : Option (List UInt8) := if this.hasBody then this.body else none

end RequestEvent

/-- `HttpServer::readBody(event)`, with the contents of the blocks that it gets from `malloc`. Nothing is
freed in it. -/
def readBodyBlocks (evbuffer_remove : Evbuffer → Nat → Removed) (event : RequestEvent) :
    Except Exception (RequestEvent × List (List UInt8)) :=
  if event.request.type = .post then do
    let entry := event.headers.lookup "Content-Length".toList
    let contentLength ←
      match entry with
      | some second => if second.length ≠ 0 then stoul second else pure 0
      | none => pure 0
    if contentLength ≠ 0 then
      let buf := event.request.input_buffer
      let length := buf.bytes.length
      let removed := evbuffer_remove buf length
      let event := { event with request := { event.request with input_buffer := removed.left } }
      -- the `int` is converted to `size_t`
      let bodyLength := removed.ret.toInt64.toUInt64
      if bodyLength = contentLength then
        return ((event.setBody removed.data).setLength contentLength, [removed.data])
      else return (event, [removed.data])
    else return (event, [])
  else pure (event, [])

/-- The event after it. -/
def readBody (evbuffer_remove : Evbuffer → Nat → Removed) (event : RequestEvent) : Except Exception RequestEvent :=
  (readBodyBlocks evbuffer_remove event).map Prod.fst

end ChCppUtils.Http.Server
