import ChCppUtils.Http.Body
import ChCppUtils.Http.Request

/-!
# The body of a response (http-request.cpp)

`getResponseBody` takes bytes off the front of the input buffer, as many as the `Content-Length` of the response
says, or all of them where it says nothing or more. A handler that calls it again goes on where it was: the blocks
it gets are the body in order, and none of it is lost or given twice (`readParts_reply`). A block of `2 ^ 32`
bytes or more is handed out with a length that is too small, and the call returns false.
-/

namespace ChCppUtils.Http.Client

open Server

/-- `atol(str)`, by `strtol`: 0 where there is no number, and the nearest `long` where it is none. -/
def atol (str : Str) : Int :=
  let (negative, str) := unsign (str.dropWhile isSpace)
  let magnitude := digitsValue (str.takeWhile Char.isDigit)
  if negative then -(min magnitude (2 ^ 63) : Nat) else (min magnitude (2 ^ 63 - 1) : Nat)

/-- `cl.length() > 0 ? atol(cl.c_str()) : 0`, as a `size_t`. -/
def contentLength (cl : Str) : UInt64 := if cl.length > 0 then .ofInt (atol cl) else 0

/-- A call of `getResponseBody`: the block of `malloc`, `*length`, and the result. -/
structure BodyPart where
  body : List UInt8
  length : UInt32
  result : Bool
deriving DecidableEq, Repr

/-- `HttpRequest::getResponseBody(body, length, headers)`, with the headers and the buffer that it leaves. -/
def getResponseBody (evbuffer_remove : Evbuffer → Nat → Removed) (headers : UnorderedMap Str Str)
    (bodyBuffer : Evbuffer) : UnorderedMap Str Str × Evbuffer × BodyPart :=
  -- `headers["content-length"]` adds an entry where there is none
  let headers := headers.emplace "content-length".toList []
  let cl := (headers.lookup "content-length".toList).getD []
  let contentLength := contentLength cl
  let bodyLength :=
    if contentLength > 0 then min contentLength.toNat bodyBuffer.bytes.length else bodyBuffer.bytes.length
  let removed := evbuffer_remove bodyBuffer bodyLength
  -- the `int` is converted to `uint32_t`
  let length := removed.ret.toUInt32
  (headers, removed.left, ⟨removed.data, length, length.toNat = bodyLength⟩)

/-- `HttpResponse::getResponseBody(body, length)` -/
def HttpResponse.getResponseBody (evbuffer_remove : Evbuffer → Nat → Removed) (this : HttpResponse)
    (bodyBuffer : Evbuffer) : HttpResponse × Evbuffer × BodyPart :=
  let (headers, left, part) := Client.getResponseBody evbuffer_remove this.headers bodyBuffer
  ({ this with headers := headers }, left, part)

/-- A handler that calls it `k` times. -/
def HttpResponse.readParts (evbuffer_remove : Evbuffer → Nat → Removed) :
    Nat → HttpResponse → Evbuffer → Evbuffer × List BodyPart
  | 0, _, bodyBuffer => (bodyBuffer, [])
  | k + 1, this, bodyBuffer =>
    let (this, left, part) := this.getResponseBody evbuffer_remove bodyBuffer
    let (left, parts) := this.readParts evbuffer_remove k left
    (left, part :: parts)

/-! ### One call -/

variable {evbuffer_remove : Evbuffer → Nat → Removed} {headers : UnorderedMap Str Str} {buf : Evbuffer}
  {bytes : List UInt8} {k i : Nat}

/-- The length that the headers tell, 0 for none. -/
def announced (headers : UnorderedMap Str Str) : UInt64 :=
  contentLength ((headers.lookup "content-length".toList).getD [])

/-- How many bytes a call wants from a buffer of `len`. -/
def wanted (c : UInt64) (len : Nat) : Nat := if c = 0 then len else c.toNat

theorem lookup_emplace_contentLength (headers : UnorderedMap Str Str) :
    ((headers.emplace "content-length".toList []).lookup "content-length".toList).getD [] =
      (headers.lookup "content-length".toList).getD [] := by
  cases h : headers.lookup "content-length".toList with
  | none =>
    rw [UnorderedMap.lookup_emplace_of_none h]
    rfl
  | some value => rw [UnorderedMap.lookup_emplace_of_some h]

/-- A call leaves the announced length as it is. -/
structure Takes (headers : UnorderedMap Str Str) (bytes : List UInt8)
    (after : UnorderedMap Str Str × Evbuffer × BodyPart) : Prop where
  announced : announced after.1 = announced headers
  left : after.2.1.bytes = bytes.drop (wanted (Client.announced headers) bytes.length)
  body : after.2.2.body = bytes.take (wanted (Client.announced headers) bytes.length)
  length : after.2.2.length.toNat = after.2.2.body.length % 2 ^ 32
  result : after.2.2.result = true ↔ after.2.2.body.length < 2 ^ 32

theorem getResponseBody_takes (hremove : Removes evbuffer_remove) (headers : UnorderedMap Str Str) (buf : Evbuffer) :
    Takes headers buf.bytes (getResponseBody evbuffer_remove headers buf) := by
  have hcl := lookup_emplace_contentLength headers
  obtain ⟨n, hn, hle, htake, hdrop⟩ : ∃ n,
      (if announced headers > 0 then min (announced headers).toNat buf.bytes.length else buf.bytes.length) = n ∧
      n ≤ buf.bytes.length ∧ buf.bytes.take n = buf.bytes.take (wanted (announced headers) buf.bytes.length) ∧
      buf.bytes.drop n = buf.bytes.drop (wanted (announced headers) buf.bytes.length) := by
    refine ⟨_, rfl, ?_⟩
    split
    · rename_i hpos
      have hne : announced headers ≠ 0 := by
        rintro h0
        rw [h0] at hpos
        exact absurd hpos (by decide)
      rw [wanted, if_neg hne]
      exact ⟨Nat.min_le_right _ _, List.take_eq_take_min.symm, List.drop_eq_drop_min.symm⟩
    · rename_i hpos
      have hzero : announced headers = 0 := UInt64.toNat_inj.1 (Nat.eq_zero_of_not_pos fun h => hpos h)
      rw [wanted, if_pos hzero]
      exact ⟨Nat.le_refl _, rfl, rfl⟩
  have hcall : getResponseBody evbuffer_remove headers buf =
      (headers.emplace "content-length".toList [], (evbuffer_remove buf n).left,
        ⟨(evbuffer_remove buf n).data, (evbuffer_remove buf n).ret.toUInt32,
          (evbuffer_remove buf n).ret.toUInt32.toNat = n⟩) := by
    subst hn
    rw [getResponseBody, hcl]
    rfl
  have hlength : ((evbuffer_remove buf n).data).length = n := by
    rw [hremove.data, List.length_take, Nat.min_eq_left hle]
  have hret : (evbuffer_remove buf n).ret.toUInt32.toNat = n % 2 ^ 32 := by
    rw [hremove.ret, Nat.min_eq_left hle]
    rfl
  rw [hcall]
  refine ⟨?_, ?_, ?_, ?_, ?_⟩
  · rw [announced, announced, hcl]
  · exact (hremove.left buf n).trans hdrop
  · exact (hremove.data buf n).trans htake
  · exact hret.trans (by rw [hlength])
  · show decide ((evbuffer_remove buf n).ret.toUInt32.toNat = n) = true ↔ (evbuffer_remove buf n).data.length < 2 ^ 32
    rw [decide_eq_true_eq, hret, hlength]
    omega

/-! ### Calls in a row -/

/-- The piece of the body that call number `i` gets. -/
def piece (c : UInt64) (bytes : List UInt8) (i : Nat) : List UInt8 :=
  if c = 0 then if i = 0 then bytes else [] else (bytes.drop (i * c.toNat)).take c.toNat

theorem piece_zero (c : UInt64) (bytes : List UInt8) : piece c bytes 0 = bytes.take (wanted c bytes.length) := by
  rw [piece, wanted]
  split
  · rw [if_pos rfl, List.take_length]
  · rw [Nat.zero_mul, List.drop_zero]

/-- What is left after a call has the pieces of the calls that follow. -/
theorem piece_succ (c : UInt64) (bytes : List UInt8) (i : Nat) :
    piece c bytes (i + 1) = piece c (bytes.drop (wanted c bytes.length)) i := by
  rw [piece, piece, wanted]
  split
  · rw [if_neg (Nat.succ_ne_zero i), List.drop_length, ite_self]
  · rw [List.drop_drop, Nat.succ_mul, Nat.add_comm]

/-- `k` calls on a body of which `bytes` are there, with `left` after them. -/
structure Pieces (c : UInt64) (bytes : List UInt8) (k : Nat) (left : List UInt8) (parts : List BodyPart) : Prop where
  count : parts.length = k
  stream : (parts.map BodyPart.body).flatten ++ left = bytes
  body : ∀ i part, parts[i]? = some part → part.body = piece c bytes i
  length : ∀ part ∈ parts, part.length.toNat = part.body.length % 2 ^ 32
  result : ∀ part ∈ parts, part.result = true ↔ part.body.length < 2 ^ 32

theorem readParts_pieces (hremove : Removes evbuffer_remove) (response : HttpResponse) (buf : Evbuffer) (k : Nat) :
    Pieces (announced response.headers) buf.bytes k (response.readParts evbuffer_remove k buf).1.bytes
      (response.readParts evbuffer_remove k buf).2 := by
  induction k generalizing response buf with
  | zero => exact ⟨rfl, rfl, nofun, nofun, nofun⟩
  | succ k ih =>
    have htakes := getResponseBody_takes hremove response.headers buf
    have hrest := ih (response.getResponseBody evbuffer_remove buf).1 (response.getResponseBody evbuffer_remove buf).2.1
    have hann : announced (response.getResponseBody evbuffer_remove buf).1.headers = announced response.headers :=
      htakes.announced
    have hleft : (response.getResponseBody evbuffer_remove buf).2.1.bytes = _ := htakes.left
    rw [hann, hleft] at hrest
    rw [HttpResponse.readParts]
    refine ⟨congrArg (· + 1) hrest.count, ?_, fun i part hi => ?_, ?_, ?_⟩
    · rw [List.map_cons, List.flatten_cons, List.append_assoc, hrest.stream]
      show (Client.getResponseBody evbuffer_remove response.headers buf).2.2.body ++ _ = _
      rw [htakes.body, List.take_append_drop]
    · cases i with
      | zero =>
        obtain rfl := Option.some.inj hi
        rw [piece_zero]
        exact htakes.body
      | succ i =>
        rw [piece_succ]
        exact hrest.body i part hi
    · exact List.forall_mem_cons.2 ⟨htakes.length, hrest.length⟩
    · exact List.forall_mem_cons.2 ⟨htakes.result, hrest.result⟩

/-! ### The headers of the reply -/

/-- The first header of the name, in any case, has the length. -/
theorem announced_buildHeaderMap (r : Nat) (reply : EvhttpReply) :
    announced ((HttpResponse.new r).buildHeaderMap reply).headers =
      contentLength ((firstValue isContentLength reply.input_headers).getD []) := by
  have hmap : ((HttpResponse.new r).buildHeaderMap reply).headers =
      (reply.input_headers.map fun header => (header.1.map Char.toLower, header.2)).foldl
        (fun m x => m.emplace x.1 x.2) ∅ := by
    rw [List.foldl_map]
    rfl
  rw [announced, hmap, UnorderedMap.lookup_foldl_emplace, AList.lookup_empty, Option.none_or, List.find?_map,
    Option.map_map]
  rfl

/-- Whatever the headers of the reply are. -/
theorem readParts_reply (hremove : Removes evbuffer_remove) (r : Nat) (reply : EvhttpReply) (buf : Evbuffer) (k : Nat) :
    Pieces (contentLength ((firstValue isContentLength reply.input_headers).getD [])) buf.bytes k
      (((HttpResponse.new r).buildHeaderMap reply).readParts evbuffer_remove k buf).1.bytes
      (((HttpResponse.new r).buildHeaderMap reply).readParts evbuffer_remove k buf).2 := by
  rw [← announced_buildHeaderMap r reply]
  exact readParts_pieces hremove _ buf k

/-- A reply with blanks and letters around the number. -/
def two : EvhttpReply := ⟨200, none, [("CONTENT-LENGTH".toList, " 2x".toList)]⟩

def five : Evbuffer := ⟨[1, 2, 3, 4, 5], by decide⟩

/-- Five bytes are there, and the header says two at a time. -/
theorem readParts_reply_five :
    ((((HttpResponse.new 0).buildHeaderMap two).readParts removeFront 3 five).2.map BodyPart.body =
        [[1, 2], [3, 4], [5]]) ∧
      Pieces (contentLength ((firstValue isContentLength two.input_headers).getD [])) five.bytes 3
        (((HttpResponse.new 0).buildHeaderMap two).readParts removeFront 3 five).1.bytes
        (((HttpResponse.new 0).buildHeaderMap two).readParts removeFront 3 five).2 :=
  ⟨by decide, readParts_reply removes_removeFront 0 two five 3⟩

end ChCppUtils.Http.Client
