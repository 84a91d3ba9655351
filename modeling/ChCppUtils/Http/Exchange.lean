import ChCppUtils.Http.Query
import ChCppUtils.Http.Startup

/-!
# From `HttpRequest` to the function of a route (http-request.cpp, http-thread.cpp, http-server.cpp)

`open`, `setHeader` and `send` put a message together. libevent carries it to a thread of the server, which
makes an event of it for the function of a route. That function is told what the client asked for
(`request_handled`): the path and the parameters of the URL, the headers, and the body of a POST, if it has less
than `2 ^ 31` bytes and none of the headers that the client sets says where the body ends.
-/

namespace ChCppUtils.Http.Exchange

open Server Runs

/-! ### The client -/

/-- The components that `evhttp_uri_parse` finds in a URL. -/
structure EvhttpUri where
  path : Str
  query : Option Str
  fragment : Option Str
deriving DecidableEq, Repr

/-- What `evhttp_make_request` is called with. -/
structure Message where
  type : EvhttpCmdType
  uri : Str
  output_headers : List (Str × Str)
  output_buffer : List UInt8
deriving DecidableEq, Repr

/-- The members of `class HttpRequest`, and of its `evhttp_request`, that make the message. -/
structure HttpRequest where
  method : EvhttpCmdType
  path : Str
  query : Str
  fragment : Str
  output_headers : List (Str × Str)
  output_buffer : List UInt8

/-- `std::to_string` -/
def decimal (n : Nat) : Str := Nat.toDigits 10 n

/-- `str.data()`, for a function that reads it up to its first zero. -/
def cString (str : Str) : Str := str.takeWhile (· ≠ '\x00')

namespace HttpRequest

/-- `open(method, url)` -/
def «open» (method : EvhttpCmdType) (uri : EvhttpUri) : HttpRequest where
  method := method
  path := uri.path
  query := uri.query.getD []
  fragment := uri.fragment.getD []
  output_headers := [("Connection".toList, "keep-alive".toList)]
  output_buffer := []

/-- `setHeader(name, value)`; `accepts` are the headers that `evhttp_add_header` takes. -/
def setHeader (accepts : Str × Str → Bool) (this : HttpRequest) (name value : Str) : HttpRequest :=
  if accepts (cString name, cString value) then
    { this with output_headers := this.output_headers ++ [(cString name, cString value)] }
  else this

def setHeaders (accepts : Str × Str → Bool) (this : HttpRequest) (headers : List (Str × Str)) : HttpRequest :=
  headers.foldl (fun r header => setHeader accepts r header.1 header.2) this

def fullPath (this : HttpRequest) : Str :=
  this.path ++ (if this.query.length ≠ 0 then '?' :: this.query else []) ++
    (if this.fragment.length ≠ 0 then '#' :: this.fragment else [])

/-- `send(contentLength)` -/
def sendLength (this : HttpRequest) (contentLength : UInt64) : Message where
  type := this.method
  uri := cString this.fullPath
  output_headers := this.output_headers ++ [("Content-Length".toList, decimal contentLength.toNat)]
  output_buffer := this.output_buffer

/-- `send(body, len)`: `body` is null, or points to these bytes. -/
def send (this : HttpRequest) (body : Option (List UInt8)) (len : UInt64) : Message :=
  match body with
  | some bytes =>
    if len ≠ 0 then { this with output_buffer := this.output_buffer ++ bytes.take len.toNat }.sendLength len
    else this.sendLength len
  | none => this.sendLength len

end HttpRequest

/-- The calls for a request with these headers and this body. -/
def request (accepts : Str × Str → Bool) (method : EvhttpCmdType) (uri : EvhttpUri) (headers : List (Str × Str))
    (body : List UInt8) : Message :=
  ((HttpRequest.open method uri).setHeaders accepts headers).send (some body) (.ofNat body.length)

/-! ### libevent -/

/-- A URL has been parsed: the path ends where the query begins, the query where the fragment does. -/
structure EvhttpUri.Parsed (uri : EvhttpUri) : Prop where
  path : ∀ c ∈ uri.path, c ≠ '?' ∧ c ≠ '#' ∧ c ≠ '\x00'
  query : ∀ c ∈ uri.query.getD [], c ≠ '#' ∧ c ≠ '\x00'
  fragment : ∀ c ∈ uri.fragment.getD [], c ≠ '\x00'

/-- A header that is sent and received as it is. -/
structure Plain (header : Str × Str) : Prop where
  name : (header.1.all fun c => c.isAlphanum || c == '-') = true
  name_ne : header.1 ≠ []
  value : (header.2.all fun c => ' ' ≤ c && c ≤ '~') = true
  head : header.2.head? ≠ some ' '
  getLast : header.2.getLast? ≠ some ' '

/-- A header that says where the body ends, or that the server has to agree to. -/
def isFraming (name : Str) : Bool :=
  name.map Char.toLower ∈ ["content-length".toList, "transfer-encoding".toList, "expect".toList]

/-- The query in the URI of a request line. -/
def queryOf (uri : Str) : Option Str :=
  match uri.dropWhile fun c => c ≠ '?' && c ≠ '#' with
  | '?' :: rest => some (rest.takeWhile (· ≠ '#'))
  | _ => none

/-- The request that a server's libevent makes of the message of a client's: it has the headers in order, before
those that libevent adds, and, for a POST, the body that `Content-Length` announces. -/
structure Carried (message : Message) (request : EvhttpRequest) : Prop where
  type : request.type = message.type
  path : message.uri.head? = some '/' → request.uri_path = message.uri.takeWhile fun c => c ≠ '?' && c ≠ '#'
  query : message.uri.head? = some '/' → request.uri_query = queryOf message.uri
  headers : (∀ header ∈ message.output_headers, Plain header) →
    ∃ more, request.input_headers = message.output_headers ++ more
  body : ∀ before value, message.output_headers = before ++ [("Content-Length".toList, value)] →
    (∀ header ∈ before, isFraming header.1 = false) → decimal? value = some message.output_buffer.length →
      message.type = .post → request.input_buffer.bytes = message.output_buffer

/-! ### The message -/

variable {accepts : Str × Str → Bool} {method : EvhttpCmdType} {uri : EvhttpUri} {headers : List (Str × Str)}
  {body : List UInt8}

theorem digitsValue_decimal (n : Nat) : digitsValue (decimal n) = n := Nat.ofDigitChars_ten_toDigits

theorem decimal_ne_nil (n : Nat) : decimal n ≠ [] := Nat.toDigits_ne_nil

theorem isDigit_decimal (n : Nat) : ∀ c ∈ decimal n, c.isDigit = true :=
  fun _ => Nat.isDigit_of_mem_toDigits (by decide) (by decide)

theorem decimal?_decimal (n : Nat) : decimal? (decimal n) = some n := by
  rw [decimal?, if_pos ⟨decimal_ne_nil n, List.all_eq_true.2 (isDigit_decimal n)⟩, digitsValue_decimal]

theorem opens_decimal {n : Nat} (h : n < 2 ^ 64) : Opens (decimal n) (.ofNat n) := by
  have hparts : Parts (decimal n) [] [] (decimal n) [] := by
    refine ⟨?_, nofun, List.mem_cons_self, isDigit_decimal n, nofun⟩
    rw [List.append_nil]
    rfl
  refine ⟨[], [], decimal n, [], hparts, decimal_ne_nil n, ?_, ?_⟩
  · rwa [digitsValue_decimal]
  · rw [digitsValue_decimal]
    rfl

theorem cString_eq {str : Str} (h : ∀ c ∈ str, c ≠ '\x00') : cString str = str :=
  List.takeWhile_eq_self_iff.2 fun c hc => decide_eq_true (h c hc)

theorem Plain.cString_eq {header : Str × Str} (h : Plain header) :
    (cString header.1, cString header.2) = header := by
  have hname : cString header.1 = header.1 := by
    refine Exchange.cString_eq fun c hc hzero => ?_
    subst hzero
    exact absurd (List.all_eq_true.1 h.name _ hc) (by decide)
  have hvalue : cString header.2 = header.2 := by
    refine Exchange.cString_eq fun c hc hzero => ?_
    subst hzero
    exact absurd (List.all_eq_true.1 h.value _ hc) (by decide)
  rw [hname, hvalue]

theorem setHeader_plain {r : HttpRequest} {header : Str × Str} (h : Plain header) (ha : accepts header = true) :
    r.setHeader accepts header.1 header.2 = { r with output_headers := r.output_headers ++ [header] } := by
  rw [HttpRequest.setHeader, h.cString_eq, if_pos ha]

theorem setHeaders_plain {r : HttpRequest} (h : ∀ header ∈ headers, Plain header)
    (ha : ∀ header, Plain header → accepts header = true) :
    r.setHeaders accepts headers = { r with output_headers := r.output_headers ++ headers } := by
  induction headers generalizing r with
  | nil =>
    rw [List.append_nil]
    rfl
  | cons header headers ih =>
    obtain ⟨hplain, hrest⟩ := List.forall_mem_cons.1 h
    have hstep : r.setHeaders accepts (header :: headers) =
        (r.setHeader accepts header.1 header.2).setHeaders accepts headers := rfl
    rw [hstep, setHeader_plain hplain (ha header hplain), ih hrest, List.append_assoc]
    rfl

/-- The headers of the message. -/
def sent (headers : List (Str × Str)) (len : Nat) : List (Str × Str) :=
  ("Connection".toList, "keep-alive".toList) :: headers ++ [("Content-Length".toList, decimal len)]

theorem request_eq (h : ∀ header ∈ headers, Plain header) (ha : ∀ header, Plain header → accepts header = true)
    (hlen : body.length < 2 ^ 64) : request accepts method uri headers body =
      ⟨method, cString (HttpRequest.open method uri).fullPath, sent headers body.length, body⟩ := by
  have hnat : (UInt64.ofNat body.length).toNat = body.length := UInt64.toNat_ofNat_of_lt' hlen
  rw [request, setHeaders_plain h ha, HttpRequest.send]
  simp only []
  split
  · rw [HttpRequest.sendLength, hnat, List.take_length]
    rfl
  · rename_i hz
    have hz : UInt64.ofNat body.length = 0 := by simpa using hz
    have hnil : body = [] := List.length_eq_zero_iff.1 (by rw [← hnat, hz]; rfl)
    subst hnil
    rfl

/-! ### The URI of the request line -/

theorem fullPath_eq (method : EvhttpCmdType) (uri : EvhttpUri) : (HttpRequest.open method uri).fullPath =
    uri.path ++ ((if (uri.query.getD []).length ≠ 0 then '?' :: uri.query.getD [] else []) ++
      (if (uri.fragment.getD []).length ≠ 0 then '#' :: uri.fragment.getD [] else [])) := List.append_assoc ..

theorem cString_fullPath (h : uri.Parsed) (method : EvhttpCmdType) :
    cString (HttpRequest.open method uri).fullPath = (HttpRequest.open method uri).fullPath := by
  refine cString_eq fun c hc => ?_
  rw [fullPath_eq, List.mem_append, List.mem_append] at hc
  rcases hc with hc | hc | hc
  · exact (h.path c hc).2.2
  · split at hc
    · rcases List.mem_cons.1 hc with rfl | hc
      · decide
      · exact (h.query c hc).2
    · cases hc
  · split at hc
    · rcases List.mem_cons.1 hc with rfl | hc
      · decide
      · exact h.fragment c hc
    · cases hc

theorem span_fullPath (h : uri.Parsed) (method : EvhttpCmdType) :
    ((HttpRequest.open method uri).fullPath.takeWhile fun c => c ≠ '?' && c ≠ '#') = uri.path ∧
      ((HttpRequest.open method uri).fullPath.dropWhile fun c => c ≠ '?' && c ≠ '#') =
        (if (uri.query.getD []).length ≠ 0 then '?' :: uri.query.getD [] else []) ++
          (if (uri.fragment.getD []).length ≠ 0 then '#' :: uri.fragment.getD [] else []) := by
  rw [fullPath_eq]
  refine span_append (fun c hc => ?_) fun c hc => ?_
  · obtain ⟨hquery, hfragment, -⟩ := h.path c hc
    simp [hquery, hfragment]
  · split at hc
    · obtain rfl : '?' = c := Option.some.inj hc
      rfl
    · split at hc
      · obtain rfl : '#' = c := Option.some.inj hc
        rfl
      · cases hc

/-- The query is found again, unless it was empty. -/
theorem queryOf_fullPath (h : uri.Parsed) (method : EvhttpCmdType) :
    (queryOf (HttpRequest.open method uri).fullPath).getD [] = uri.query.getD [] := by
  rw [queryOf, (span_fullPath h method).2]
  by_cases hq : (uri.query.getD []).length = 0
  · rw [if_neg (not_not_intro hq), List.length_eq_zero_iff.1 hq, List.nil_append]
    split
    · rename_i rest hrest
      split at hrest
      · cases hrest
      · cases hrest
    · rfl
  · rw [if_pos hq, List.cons_append]
    refine (span_append (fun c hc => decide_eq_true (h.query c hc).1) fun c hc => ?_).1
    split at hc
    · obtain rfl : '#' = c := Option.some.inj hc
      rfl
    · cases hc

/-! ### The event -/

/-- What the function of a route is told of the request. -/
structure Told (method : EvhttpCmdType) (uri : EvhttpUri) (headers : List (Str × Str)) (body : List UInt8)
    (event : RequestEvent) : Prop where
  path : event.path = uri.path
  /-- Of the parameters with one name, the first one. -/
  query : ∀ name, event.query.lookup name = firstValue (· = name) (params (uri.query.getD []))
  header : ∀ name value, name ≠ "Connection".toList → firstValue (· = name) headers = some value →
    event.headers.lookup name = some value
  connection : event.headers.lookup "Connection".toList = some "keep-alive".toList
  contentLength : event.headers.lookup "Content-Length".toList = some (decimal body.length)
  content : event.content = if method = .post ∧ body ≠ [] ∧ body.length < 2 ^ 31 then some body else none

variable {evbuffer_remove : Evbuffer → Nat → Removed} {got : EvhttpRequest} {event : RequestEvent}

theorem path_filled (event : RequestEvent) (n : UInt64) : (filled evbuffer_remove event n).path = event.path := by
  unfold filled
  split
  · simp only []
    split <;> rfl
  · rfl

theorem query_filled (event : RequestEvent) (n : UInt64) : (filled evbuffer_remove event n).query = event.query := by
  unfold filled
  split
  · simp only []
    split <;> rfl
  · rfl

theorem headers_filled (event : RequestEvent) (n : UInt64) :
    (filled evbuffer_remove event n).headers = event.headers := by
  unfold filled
  split
  · simp only []
    split <;> rfl
  · rfl

/-- The query of the event, for a request with this query or, if it is empty, without one. -/
theorem lookup_query {q : Str} (h : got.uri_query.getD [] = q) (name : Str) :
    (RequestEvent.new got).query.lookup name = firstValue (· = name) (params q) := by
  show (RequestEvent.buildQueryMap got).lookup name = _
  cases hq : got.uri_query with
  | none =>
    rw [hq] at h
    obtain rfl : [] = q := h
    rw [RequestEvent.buildQueryMap, hq]
    rfl
  | some q' =>
    rw [hq] at h
    obtain rfl : q' = q := h
    exact RequestEvent.lookup_buildQueryMap hq name

/-! ### The headers -/

theorem sent_plain (h : ∀ header ∈ headers, Plain header) (len : Nat) : ∀ header ∈ sent headers len, Plain header := by
  intro header hheader
  rw [sent, List.mem_append, List.mem_cons, List.mem_singleton] at hheader
  rcases hheader with (rfl | hheader) | rfl
  · exact ⟨by decide, by decide, by decide, by decide, by decide⟩
  · exact h header hheader
  · have hblank : ∀ c ∈ decimal len, c ≠ ' ' := by
      rintro c hc rfl
      exact absurd (isDigit_decimal len ' ' hc) (by decide)
    refine ⟨rfl, (by decide : "Content-Length".toList ≠ []), List.all_eq_true.2 fun c hc => ?_, fun hc => ?_, fun hc => ?_⟩
    · have hdigit := isDigit_decimal len c hc
      simp only [Char.isDigit, Bool.and_eq_true, decide_eq_true_eq] at hdigit
      have hmin : ' ' ≤ c := Nat.le_trans (by decide : 32 ≤ 48) hdigit.1
      have hmax : c ≤ '~' := Nat.le_trans hdigit.2 (by decide : 57 ≤ 126)
      simp [hmin, hmax]
    · exact hblank ' ' (List.mem_of_mem_head? hc) rfl
    · exact hblank ' ' (List.mem_of_getLast? hc) rfl

theorem firstValue_cons (p : Str → Bool) (header : Str × Str) (headers : List (Str × Str)) :
    firstValue p (header :: headers) = if p header.1 then some header.2 else firstValue p headers := by
  rw [firstValue, List.find?_cons]
  split
  · rename_i hp
    rw [if_pos hp]
    rfl
  · rename_i hp
    rw [if_neg (by rw [hp]; decide)]
    rfl

/-- No header that the client sets is taken for the length of the body. -/
theorem firstValue_contentLength (h : ∀ header ∈ headers, isFraming header.1 = false) (len : Nat)
    (more : List (Str × Str)) :
    firstValue (· = "Content-Length".toList) (sent headers len ++ more) = some (decimal len) := by
  have hnone : firstValue (· = "Content-Length".toList) headers = none := by
    refine firstValue_eq_none_iff.2 fun header hheader hname => ?_
    have hframing := h header hheader
    rw [hname] at hframing
    exact absurd hframing (by decide)
  rw [sent, List.append_assoc, List.cons_append, firstValue_cons, if_neg (by decide), firstValue_append, hnone]
  rfl

theorem firstValue_sent {name value : Str} (hne : name ≠ "Connection".toList)
    (h : firstValue (· = name) headers = some value) (len : Nat) (more : List (Str × Str)) :
    firstValue (· = name) (sent headers len ++ more) = some value := by
  rw [sent, List.append_assoc, List.cons_append, firstValue_cons,
    if_neg fun he => hne (of_decide_eq_true he).symm, firstValue_append, h]
  rfl

/-! ### The body -/

theorem reads_sent {more : List (Str × Str)} (h : ∀ header ∈ headers, isFraming header.1 = false) {len : Nat}
    (hlen : len < 2 ^ 64) (hmore : got.input_headers = sent headers len ++ more) : Reads got (.ofNat len) := by
  rw [Reads, hmore, firstValue_contentLength h]
  simp only [decimal_ne_nil, if_false]
  exact opens_decimal hlen

/-- The event of a POST whose length is told, if an `int` can tell it. -/
theorem content_filled (hremove : Removes evbuffer_remove) (hbody : got.input_buffer.bytes = body) :
    (filled evbuffer_remove (.new got) (.ofNat body.length)).content =
      if body ≠ [] ∧ body.length < 2 ^ 31 then some body else none := by
  have hfits : body.length < 2 ^ 63 := hbody ▸ got.input_buffer.fits
  have hnat : (UInt64.ofNat body.length).toNat = body.length := UInt64.toNat_ofNat_of_lt' (Nat.lt_trans hfits (by decide))
  have hzero : UInt64.ofNat body.length = 0 ↔ body = [] := by
    rw [← UInt64.toNat_inj, hnat]
    exact List.length_eq_zero_iff
  have hsize : (Int32.ofNat body.length).toInt64.toUInt64 = .ofNat body.length ↔ body.length < 2 ^ 31 := by
    constructor
    · intro he
      by_contra hlarge
      refine size_ne_of_large (Nat.not_lt.1 hlarge) hfits ?_
      rw [he, hnat]
    · intro hsmall
      exact (eq_size_iff hsmall).2 hnat
  have hfilled := filled_new hremove got (.ofNat body.length)
  rw [hbody] at hfilled
  have hiff : UInt64.ofNat body.length ≠ 0 ∧ (Int32.ofNat body.length).toInt64.toUInt64 = .ofNat body.length ↔
      body ≠ [] ∧ body.length < 2 ^ 31 := and_congr (not_congr hzero) hsize
  split at hfilled
  · rename_i hb
    rw [if_pos (hiff.1 hb)]
    exact hfilled.1
  · rename_i hb
    rw [if_neg fun h => hb (hiff.2 h)]
    exact RequestEvent.content_of_hasBody hfilled

/-- What `readBody` makes of the event of a request that has these headers, this URI and this body. -/
theorem exists_told (hremove : Removes evbuffer_remove) {more : List (Str × Str)}
    (hframing : ∀ header ∈ headers, isFraming header.1 = false) (hlen : body.length < 2 ^ 63)
    (htype : got.type = method) (hpath : got.uri_path = uri.path)
    (hquery : got.uri_query.getD [] = uri.query.getD [])
    (hmore : got.input_headers = sent headers body.length ++ more)
    (hbody : method = .post → got.input_buffer.bytes = body) :
    ∃ event, readBody evbuffer_remove (.new got) = .ok event ∧ Told method uri headers body event := by
  have hlookup : ∀ key, (RequestEvent.new got).headers.lookup key =
      firstValue (· = key) (sent headers body.length ++ more) := by
    intro key
    rw [lookup_headers, hmore]
  have hnew : ∀ event : RequestEvent, event.path = got.uri_path → event.query = (RequestEvent.new got).query →
      event.headers = (RequestEvent.new got).headers →
      event.content = (if method = .post ∧ body ≠ [] ∧ body.length < 2 ^ 31 then some body else none) →
      Told method uri headers body event := by
    intro event hp hq hh hc
    refine ⟨hp.trans hpath, fun name => ?_, fun name value hne hfirst => ?_, ?_, ?_, hc⟩
    · rw [hq]
      exact lookup_query hquery name
    · rw [hh, hlookup]
      exact firstValue_sent hne hfirst _ _
    · rw [hh, hlookup]
      rfl
    · rw [hh, hlookup]
      exact firstValue_contentLength hframing _ _
  by_cases hpost : method = .post
  · have hread : readBody evbuffer_remove (.new got) =
        (headerLength got).map (filled evbuffer_remove (.new got)) := readBody_new (htype.trans hpost)
    rw [headerLength_eq_ok_iff.2 (reads_sent hframing (by omega) hmore)] at hread
    refine ⟨_, hread, hnew _ (path_filled _ _) (query_filled _ _) (headers_filled _ _) ?_⟩
    rw [content_filled hremove (hbody hpost)]
    simp only [hpost, true_and]
  · have hne : (RequestEvent.new got).request.type ≠ .post := fun he => hpost (htype.symm.trans he)
    refine ⟨.new got, by rw [readBody, readBodyBlocks, if_neg hne]; rfl, hnew _ rfl rfl rfl ?_⟩
    rw [if_neg fun h => hpost h.1]
    rfl

/-! ### The server -/

/-- The route gets the request, if there is one for its path. -/
def Handled (router : Router) (method : EvhttpCmdType) (uri : EvhttpUri) (headers : List (Str × Str))
    (body : List UInt8) (outcome : Startup.Outcome) : Prop :=
  match router.getRoute method uri.path with
  | some route => ∃ event, outcome = .handled route event ∧ Told method uri headers body event
  | none => outcome = .badRequest

/-- A request whose message libevent has carried. -/
theorem handled_onRequestEvent (hremove : Removes evbuffer_remove) (huri : uri.Parsed)
    (hroot : uri.path.head? = some '/') (hplain : ∀ header ∈ headers, Plain header)
    (haccepts : ∀ header, Plain header → accepts header = true)
    (hframing : ∀ header ∈ headers, isFraming header.1 = false) (hlen : body.length < 2 ^ 63)
    (hcarried : Carried (request accepts method uri headers body) got) (router : Router) :
    Handled router method uri headers body (Startup.HttpServer.onRequestEvent evbuffer_remove router (.new got)) := by
  rw [request_eq hplain haccepts (by omega), cString_fullPath huri] at hcarried
  have hrooted : (HttpRequest.open method uri).fullPath.head? = some '/' := by
    rw [fullPath_eq, List.head?_append, hroot]
    rfl
  have hpath : got.uri_path = uri.path := (hcarried.path hrooted).trans (span_fullPath huri method).1
  have hquery : got.uri_query.getD [] = uri.query.getD [] := by
    rw [hcarried.query hrooted]
    exact queryOf_fullPath huri method
  obtain ⟨more, hmore⟩ := hcarried.headers (sent_plain hplain _)
  have hbody : method = .post → got.input_buffer.bytes = body := by
    refine hcarried.body (("Connection".toList, "keep-alive".toList) :: headers) _ rfl ?_ (decimal?_decimal _)
    exact List.forall_mem_cons.2 ⟨by decide, hframing⟩
  obtain ⟨event, hread, htold⟩ := exists_told hremove hframing hlen hcarried.type hpath hquery hmore hbody
  have htype : (RequestEvent.new got).request.type = method := hcarried.type
  have hnew : (RequestEvent.new got).request.uri_path = uri.path := hpath
  rw [Handled, Startup.HttpServer.onRequestEvent, htype, hnew]
  cases router.getRoute method uri.path with
  | none => rfl
  | some route =>
    rw [hread]
    exact ⟨event, rfl, htold⟩

section
variable {n : Nat} {s s' : Startup.HttpServer n} {i : Fin n}

/-- The server without what became of its requests. -/
def unlogged (s : Startup.HttpServer n) : Startup.HttpServer n := { s with log := [] }

theorem mainStep_unlogged (hs : s.mainStep = .ok s') : (unlogged s).mainStep = .ok (unlogged s') := by
  unfold Startup.HttpServer.mainStep at hs ⊢
  have hmain : (unlogged s).main = s.main := rfl
  rw [hmain]
  cases hm : s.main with
  | creating k =>
    simp only [hm] at hs ⊢
    split
    · rename_i hk
      rw [dif_pos hk] at hs
      rw [← Except.ok.inj hs]
      rfl
    · rename_i hk
      rw [dif_neg hk] at hs
      rw [← Except.ok.inj hs]
      rfl
  | starting i =>
    simp only [hm] at hs ⊢
    have hthread : (unlogged s).mThreads i = s.mThreads i := rfl
    rw [hthread]
    split
    · rename_i hp
      rw [if_pos hp] at hs
      cases hs
    · rename_i hp
      rw [if_neg hp] at hs
      rw [← Except.ok.inj hs]
      rfl
  | adding i =>
    simp only [hm] at hs ⊢
    rw [← Except.ok.inj hs]
    rfl
  | binding k =>
    simp only [hm] at hs ⊢
    split
    · rename_i hk
      rw [dif_pos hk] at hs
      rw [← Except.ok.inj hs]
      rfl
    · rename_i hk
      rw [dif_neg hk] at hs
      cases hs
  | setting i =>
    simp only [hm] at hs ⊢
    rw [← Except.ok.inj hs]
    rfl

theorem work_unlogged (hs : s.work i = .ok s') : (unlogged s).work i = .ok (unlogged s') := by
  unfold Startup.HttpServer.work at hs ⊢
  have hthread : (unlogged s).mThreads i = s.mThreads i := rfl
  have hqueue : (unlogged s).mJobQueue = s.mJobQueue := rfl
  rw [hthread, hqueue]
  cases hp : (s.mThreads i).phase with
  | unborn | dispatching => simp only [hp] at hs; cases hs
  | booting =>
    simp only [hp] at hs ⊢
    rw [← Except.ok.inj hs]
    rfl
  | fetching =>
    simp only [hp] at hs ⊢
    cases hq : s.mJobQueue with
    | zero => rw [hq] at hs; cases hs
    | succ q =>
      rw [hq] at hs
      rw [← Except.ok.inj hs]
      rfl

/-- Whatever became of the requests so far. -/
theorem inv_unlogged (h : Reach (Ok (Startup.HttpServer.step evbuffer_remove)) (.new n) s) : (unlogged s).Inv := by
  refine h.invariant (I := fun s => (unlogged s).Inv) ⟨fun _ => rfl, fun _ hx => absurd hx List.not_mem_nil⟩
    fun s a s' hi hs => ?_
  cases a with
  | main => exact hi.main (mainStep_unlogged hs)
  | work i => exact hi.work (work_unlogged hs)
  | request i request =>
    obtain rfl := Startup.HttpServer.step_request hs
    exact hi
  | route route =>
    rw [Ok, Startup.HttpServer.step] at hs
    split at hs
    · obtain rfl := Except.ok.inj hs
      exact ⟨hi.handler, fun _ hx => absurd hx List.not_mem_nil⟩
    · cases hs

/-- In any state of a server, for a thread whose function is bound. -/
theorem request_handled (hremove : Removes evbuffer_remove) (huri : uri.Parsed) (hroot : uri.path.head? = some '/')
    (hplain : ∀ header ∈ headers, Plain header) (haccepts : ∀ header, Plain header → accepts header = true)
    (hframing : ∀ header ∈ headers, isFraming header.1 = false) (hlen : body.length < 2 ^ 63)
    (hcarried : Carried (request accepts method uri headers body) got)
    (hreach : Reach (Ok (Startup.HttpServer.step evbuffer_remove)) (.new n) s) (hbound : s.Bound i)
    (hs : s.step evbuffer_remove (.request i got) = .ok s') :
    ∃ outcome, s'.log = s.log ++ [(i, got, outcome)] ∧ Handled s.router method uri headers body outcome := by
  obtain rfl := Startup.HttpServer.step_request hs
  have hhandler : (s.mThreads i).onrequest = ⟨some .onRequestEvent, some .server⟩ :=
    (inv_unlogged hreach).bound_iff.1 hbound
  refine ⟨_, rfl, ?_⟩
  rw [hhandler]
  exact handled_onRequestEvent hremove huri hroot hplain haccepts hframing hlen hcarried s.router

/-- What arrives of a POST of two bytes to `/a?x=1#f` with one header. -/
def arrived : EvhttpRequest where
  type := .post
  input_headers := sent [("X-Id".toList, "7".toList)] 2 ++ [("Host".toList, "h".toList)]
  uri_path := "/a".toList
  uri_query := some "x=1".toList
  input_buffer := ⟨[1, 2], by decide⟩

theorem carried_arrived : Carried (request (fun _ => true) .post ⟨"/a".toList, some "x=1".toList, some "f".toList⟩
    [("X-Id".toList, "7".toList)] [1, 2]) arrived :=
  ⟨rfl, fun _ => by decide, fun _ => by decide, fun _ => ⟨_, rfl⟩, fun _ _ _ _ _ _ => rfl⟩

/-- The function of the route reads the two bytes. -/
theorem request_handled_post : ∃ (s s' : Startup.HttpServer 1) (event : RequestEvent),
    Reach (Ok (Startup.HttpServer.step removeFront)) (.new 1) s ∧
      s.step removeFront (.request 0 arrived) = .ok s' ∧
      s'.log = s.log ++ [(0, arrived, .handled ⟨0, .post, "/a".toList⟩ event)] ∧ event.content = some [1, 2] := by
  have hg : Goes (Startup.HttpServer.step removeFront) (fun _ _ => True)
      (fun s : Startup.HttpServer 1 => s.Bound 0 ∧ (s.mThreads 0).phase = .dispatching ∧
        s.router.getRoute .post "/a".toList = some ⟨0, .post, "/a".toList⟩)
      (.new 1) (Startup.HttpServer.constructed ++ [.route ⟨0, .post, "/a".toList⟩]) := by
    decide
  obtain ⟨s, hr, hbound, hphase, hroute⟩ := hg.reach_ok
  have huri : EvhttpUri.Parsed ⟨"/a".toList, some "x=1".toList, some "f".toList⟩ :=
    ⟨by simp, by simp, by simp⟩
  have hplain : ∀ header ∈ [("X-Id".toList, "7".toList)], Plain header :=
    List.forall_mem_singleton.2 ⟨rfl, by decide, rfl, by decide, by decide⟩
  have hs : s.step removeFront (.request 0 arrived) = .ok (.onEvRequest removeFront s 0 arrived) := by
    rw [Startup.HttpServer.step, if_pos hphase]
    rfl
  obtain ⟨outcome, hlog, hhandled⟩ := request_handled removes_removeFront huri rfl hplain (fun _ _ => rfl)
    (by decide) (by decide) carried_arrived hr hbound hs
  rw [Handled, hroute] at hhandled
  obtain ⟨event, rfl, htold⟩ := hhandled
  exact ⟨s, _, event, hr, hs, hlog, htold.content⟩

end

end ChCppUtils.Http.Exchange
