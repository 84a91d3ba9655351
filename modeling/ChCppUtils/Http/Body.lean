import ChCppUtils.Http.RequestEvent

/-!
# Which requests get their body

`readBody` goes by the first header spelled `Content-Length` and by the number that `std::stoul` reads
off its value. Headers of another case, text behind the number, a sign in front of it, and values without
a number are where that is not the number the request claims (`bodyTold_iff`).
-/

namespace ChCppUtils.Http.Server

variable {evbuffer_remove : Evbuffer → Nat → Removed} {request : EvhttpRequest} {n : UInt64}

/-- `evbuffer_remove`: up to `datlen` bytes are taken off the front of the buffer; it returns how many, in an
`int`. -/
structure Removes (evbuffer_remove : Evbuffer → Nat → Removed) : Prop where
  ret : ∀ buf datlen, (evbuffer_remove buf datlen).ret = Int32.ofNat (min datlen buf.bytes.length)
  data : ∀ buf datlen, (evbuffer_remove buf datlen).data = buf.bytes.take datlen
  left : ∀ buf datlen, (evbuffer_remove buf datlen).left.bytes = buf.bytes.drop datlen

/-! ### The number at the front of a text -/

/-- `str` is blanks, a sign or none, and digits up to something that is no digit. -/
structure Parts (str blanks sign digits rest : Str) : Prop where
  eq : str = blanks ++ (sign ++ (digits ++ rest))
  blanks : ∀ c ∈ blanks, isSpace c = true
  sign : sign ∈ [[], ['+'], ['-']]
  digits : ∀ c ∈ digits, c.isDigit = true
  rest : ∀ c ∈ rest.head?, c.isDigit = false

/-- `n` is the number that `str` opens with, below `2 ^ 64`, and is negated after a minus sign. -/
def Opens (str : Str) (n : UInt64) : Prop :=
  ∃ blanks sign digits rest, Parts str blanks sign digits rest ∧ digits ≠ [] ∧ digitsValue digits < 2 ^ 64 ∧
    n = if sign = ['-'] then -UInt64.ofNat (digitsValue digits) else UInt64.ofNat (digitsValue digits)

/-- A list whose front has `p` up to the first element that has not. -/
theorem span_append {α : Type} {p : α → Bool} {front rest : List α} (hfront : ∀ a ∈ front, p a = true)
    (hrest : ∀ a ∈ rest.head?, p a = false) :
    (front ++ rest).takeWhile p = front ∧ (front ++ rest).dropWhile p = rest := by
  rw [List.takeWhile_append_of_pos hfront, List.dropWhile_append_of_pos hfront]
  cases rest with
  | nil => simp
  | cons a rest => simp [hrest a rfl]

theorem head?_dropWhile {α : Type} (p : α → Bool) (l : List α) : ∀ a ∈ (l.dropWhile p).head?, p a = false := by
  intro a ha
  have := List.head?_dropWhile_not p l
  rw [Option.mem_def.1 ha] at this
  simpa using this

theorem isSpace_of_isDigit {c : Char} (h : c.isDigit = true) : isSpace c = false := by
  have h48 : 48 ≤ c.toNat := by
    simp only [Char.isDigit, Bool.and_eq_true, decide_eq_true_eq] at h
    exact h.1
  have hne : c ≠ ' ' := by
    rintro rfl
    exact absurd h48 (by decide)
  have hle : ¬ c ≤ '\r' := fun hle => by
    have : c.toNat ≤ 13 := hle
    omega
  simp [isSpace, hne, hle]

theorem unsign_of_head {str : Str} (hminus : str.head? ≠ some '-') (hplus : str.head? ≠ some '+') :
    unsign str = (false, str) := by
  unfold unsign
  split
  · exact absurd rfl hminus
  · exact absurd rfl hplus
  · rfl

section
variable {str blanks sign digits rest : Str}

theorem Parts.unsign_eq (h : Parts str blanks sign digits rest) (hne : digits ≠ []) :
    unsign (str.dropWhile isSpace) = (decide (sign = ['-']), digits ++ rest) := by
  obtain ⟨c, cs, rfl⟩ := List.exists_cons_of_ne_nil hne
  have hc : c.isDigit = true := h.digits c (by simp)
  have hdrop : str.dropWhile isSpace = sign ++ (c :: cs ++ rest) := by
    rw [h.eq]
    refine (span_append h.blanks ?_).2
    have hsign := h.sign
    simp only [List.mem_cons, List.not_mem_nil, or_false] at hsign
    rcases hsign with rfl | rfl | rfl
    · rintro _ ⟨⟩
      exact isSpace_of_isDigit hc
    · rintro _ ⟨⟩
      rfl
    · rintro _ ⟨⟩
      rfl
  rw [hdrop]
  have hsign := h.sign
  simp only [List.mem_cons, List.not_mem_nil, or_false] at hsign
  rcases hsign with rfl | rfl | rfl
  · refine unsign_of_head ?_ ?_
    · rintro ⟨⟩
      exact absurd hc (by decide)
    · rintro ⟨⟩
      exact absurd hc (by decide)
  · rfl
  · rfl

/-- Every text has parts; what `stoul` takes for the digits are its digits. -/
theorem exists_parts (str : Str) : ∃ blanks sign digits rest, Parts str blanks sign digits rest ∧
    unsign (str.dropWhile isSpace) = (decide (sign = ['-']), digits ++ rest) := by
  have hdigits : ∀ s : Str, ∀ c ∈ s.takeWhile Char.isDigit, c.isDigit = true := fun s c => List.mem_takeWhile_imp
  have hparts : ∀ sign s : Str, sign ∈ [[], ['+'], ['-']] → str.dropWhile isSpace = sign ++ s →
      Parts str (str.takeWhile isSpace) sign (s.takeWhile Char.isDigit) (s.dropWhile Char.isDigit) := by
    intro sign s hsign hs
    refine ⟨?_, fun c => List.mem_takeWhile_imp, hsign, hdigits s, head?_dropWhile _ s⟩
    rw [List.takeWhile_append_dropWhile, ← hs, List.takeWhile_append_dropWhile]
  unfold unsign
  split
  · rename_i s hs
    exact ⟨_, ['-'], _, _, hparts ['-'] s (by simp) hs, by simp⟩
  · rename_i s hs
    exact ⟨_, ['+'], _, _, hparts ['+'] s (by simp) hs, by simp⟩
  · exact ⟨_, [], _, _, hparts [] _ (by simp) rfl, by simp⟩

theorem Parts.stoul_eq (h : Parts str blanks sign digits rest)
    (hu : unsign (str.dropWhile isSpace) = (decide (sign = ['-']), digits ++ rest)) : stoul str =
      if digits = [] then throw .invalidArgument
      else if 2 ^ 64 ≤ digitsValue digits then throw .outOfRange
      else pure (if sign = ['-'] then -UInt64.ofNat (digitsValue digits) else UInt64.ofNat (digitsValue digits)) := by
  have htake := (span_append h.digits h.rest).1
  simp only [stoul, hu, htake, decide_eq_true_eq]

end

theorem stoul_eq_ok_iff {str : Str} {n : UInt64} : stoul str = .ok n ↔ Opens str n := by
  constructor
  · intro hok
    obtain ⟨blanks, sign, digits, rest, h, hu⟩ := exists_parts str
    rw [h.stoul_eq hu] at hok
    split at hok
    · cases hok
    · rename_i hne
      split at hok
      · cases hok
      · rename_i hlt
        exact ⟨blanks, sign, digits, rest, h, hne, Nat.not_le.1 hlt, (Except.ok.inj hok).symm⟩
  · rintro ⟨blanks, sign, digits, rest, h, hne, hlt, rfl⟩
    rw [h.stoul_eq (h.unsign_eq hne), if_neg hne, if_neg (Nat.not_le.2 hlt)]
    rfl

/-! ### The length that a request claims, and the one that is read -/

/-- `name` is `Content-Length`, in any case. -/
def isContentLength (name : Str) : Bool := name.map Char.toLower = "content-length".toList

/-- The number that a text of decimal digits denotes. -/
def decimal? (str : Str) : Option Nat := if str ≠ [] ∧ str.all Char.isDigit then some (digitsValue str) else none

/-- The first header named `Content-Length` has the length of the input buffer for its value, and the
buffer is not empty. -/
def Claimed (request : EvhttpRequest) : Prop :=
  0 < request.input_buffer.bytes.length ∧
    (firstValue isContentLength request.input_headers).bind decimal? = some request.input_buffer.bytes.length

instance (request : EvhttpRequest) : Decidable (Claimed request) := inferInstanceAs (Decidable (_ ∧ _))

/-- The length that `readBody` goes by: 0 where no header is spelled `Content-Length`, or the first that is
has no value. -/
def Reads (request : EvhttpRequest) (n : UInt64) : Prop :=
  match firstValue (· = "Content-Length".toList) request.input_headers with
  | none => n = 0
  | some value => if value = [] then n = 0 else Opens value n

/-- `readBody` returns; the event has the bytes of the input buffer for its body, and their number for its
length, if the request claims them, and no body otherwise. -/
def BodyTold (evbuffer_remove : Evbuffer → Nat → Removed) (request : EvhttpRequest) : Prop :=
  ∃ event, readBody evbuffer_remove (.new request) = .ok event ∧
    if Claimed request then
      event.content = some request.input_buffer.bytes ∧ event.length.toNat = request.input_buffer.bytes.length
    else event.hasBody = false

/-- The number that the first header named `Content-Length`, in any case, has for its whole value. -/
def claimedLength (request : EvhttpRequest) : Option Nat :=
  (firstValue isContentLength request.input_headers).bind decimal?

/-- The length `n` that `readBody` goes by is that of the buffer where the claimed one is. A length from `2 ^ 31` on is
none that the `int` of `evbuffer_remove` can stand for. -/
structure Clear (request : EvhttpRequest) (n : UInt64) : Prop where
  small : 0 < request.input_buffer.bytes.length → request.input_buffer.bytes.length < 2 ^ 31 →
    (n.toNat = request.input_buffer.bytes.length ↔ claimedLength request = some request.input_buffer.bytes.length)
  large : 2 ^ 31 ≤ request.input_buffer.bytes.length →
    claimedLength request ≠ some request.input_buffer.bytes.length ∧
      (n = 0 ∨ n ≠ (Int32.ofNat request.input_buffer.bytes.length).toInt64.toUInt64)

theorem claimed_iff (hpos : 0 < request.input_buffer.bytes.length) :
    Claimed request ↔ claimedLength request = some request.input_buffer.bytes.length := and_iff_right hpos

theorem lookup_headers (request : EvhttpRequest) (key : Str) :
    (RequestEvent.new request).headers.lookup key = firstValue (· = key) request.input_headers := by
  have h : (RequestEvent.new request).headers.lookup key =
      ((∅ : UnorderedMap Str Str).lookup key).or (firstValue (· = key) request.input_headers) :=
    UnorderedMap.lookup_foldl_emplace request.input_headers
  simpa using h

/-! ### What `readBody` does -/

/-- What `readBody` takes for the length. -/
def headerLength (request : EvhttpRequest) : Except Exception UInt64 :=
  match firstValue (· = "Content-Length".toList) request.input_headers with
  | some second => if second.length ≠ 0 then stoul second else pure 0
  | none => pure 0

theorem headerLength_eq_ok_iff : headerLength request = .ok n ↔ Reads request n := by
  unfold headerLength Reads
  cases firstValue (· = "Content-Length".toList) request.input_headers with
  | none => exact ⟨fun h => (Except.ok.inj h).symm, fun h => h ▸ rfl⟩
  | some value =>
    simp only [ne_eq, List.length_eq_zero_iff, ite_not]
    split
    · exact ⟨fun h => (Except.ok.inj h).symm, fun h => h ▸ rfl⟩
    · exact stoul_eq_ok_iff

instance (request : EvhttpRequest) : Decidable (∃ n, Reads request n) :=
  match h : headerLength request with
  | .ok n => isTrue ⟨n, headerLength_eq_ok_iff.1 h⟩
  | .error _ => isFalse fun ⟨_, hn⟩ => nomatch h.symm.trans (headerLength_eq_ok_iff.2 hn)

/-- The event after `readBody` has gone by the length `n`. -/
def filled (evbuffer_remove : Evbuffer → Nat → Removed) (event : RequestEvent) (n : UInt64) : RequestEvent :=
  if n ≠ 0 then
    let removed := evbuffer_remove event.request.input_buffer event.request.input_buffer.bytes.length
    let event := { event with request := { event.request with input_buffer := removed.left } }
    if removed.ret.toInt64.toUInt64 = n then (event.setBody removed.data).setLength n else event
  else event

/-- The blocks that `readBody` gets when it goes by the length `n`. -/
def blocksFor (evbuffer_remove : Evbuffer → Nat → Removed) (request : EvhttpRequest) (n : UInt64) :
    List (List UInt8) :=
  if n ≠ 0 then [(evbuffer_remove request.input_buffer request.input_buffer.bytes.length).data] else []

theorem readBodyBlocks_new (hpost : request.type = .post) : readBodyBlocks evbuffer_remove (.new request) =
    (headerLength request).map fun n =>
      (filled evbuffer_remove (.new request) n, blocksFor evbuffer_remove request n) := by
  have hpost' : (RequestEvent.new request).request.type = .post := hpost
  rw [readBodyBlocks, if_pos hpost', lookup_headers]
  unfold headerLength
  cases firstValue (· = "Content-Length".toList) request.input_headers with
  | none => rfl
  | some second =>
    simp only []
    split
    · cases stoul second with
      | error e => rfl
      | ok n =>
        simp only [bind, Except.bind, Except.map, filled, blocksFor]
        split
        · split <;> rfl
        · rfl
    · rfl

theorem readBody_new (hpost : request.type = .post) : readBody evbuffer_remove (.new request) =
    (headerLength request).map (filled evbuffer_remove (.new request)) := by
  rw [readBody, readBodyBlocks_new hpost]
  cases headerLength request <;> rfl

/-- The body is that of the buffer where the number is not 0 and is what `evbuffer_remove` returns. -/
theorem filled_new (hremove : Removes evbuffer_remove) (request : EvhttpRequest) (n : UInt64) :
    if n ≠ 0 ∧ (Int32.ofNat request.input_buffer.bytes.length).toInt64.toUInt64 = n then
      (filled evbuffer_remove (.new request) n).content = some request.input_buffer.bytes ∧
        (filled evbuffer_remove (.new request) n).length = n
    else (filled evbuffer_remove (.new request) n).hasBody = false := by
  have hret := hremove.ret request.input_buffer request.input_buffer.bytes.length
  have hdata := hremove.data request.input_buffer request.input_buffer.bytes.length
  rw [Nat.min_self] at hret
  rw [List.take_length] at hdata
  have hnew : (RequestEvent.new request).request = request := rfl
  by_cases hn : n ≠ 0
  · by_cases hr : (Int32.ofNat request.input_buffer.bytes.length).toInt64.toUInt64 = n
    · rw [if_pos ⟨hn, hr⟩, filled, if_pos hn, hnew]
      simp [hret, hdata, hr, RequestEvent.content, RequestEvent.hasBody, RequestEvent.setBody,
        RequestEvent.setLength, hn]
    · rw [if_neg fun h => hr h.2, filled, if_pos hn, hnew]
      simp [hret, hr, RequestEvent.hasBody, RequestEvent.new]
  · rw [if_neg fun h => hn h.1, filled, if_neg hn]
    rfl

/-! ### The number in the `int` of `evbuffer_remove` -/

theorem toNat_size_ofNat (n : Nat) : (Int32.ofNat n).toInt64.toUInt64.toNat =
    if n % 2 ^ 32 < 2 ^ 31 then n % 2 ^ 32 else 2 ^ 64 - 2 ^ 32 + n % 2 ^ 32 := by
  have hbits : (Int32.ofNat n).toBitVec.toNat = n % 2 ^ 32 := rfl
  have hsize : (Int32.ofNat n).toInt64.toUInt64.toNat = (BitVec.signExtend 64 (Int32.ofNat n).toBitVec).toNat := rfl
  rw [hsize, BitVec.toNat_signExtend, BitVec.toNat_setWidth, BitVec.msb_eq_decide, hbits]
  simp only [decide_eq_true_eq]
  split <;> split <;> omega

theorem size_of_small {L : Nat} (h : L < 2 ^ 31) : (Int32.ofNat L).toInt64.toUInt64.toNat = L := by
  rw [toNat_size_ofNat, Nat.mod_eq_of_lt (by omega), if_pos h]

theorem size_ne_of_large {L : Nat} (h : 2 ^ 31 ≤ L) (hfits : L < 2 ^ 63) :
    (Int32.ofNat L).toInt64.toUInt64.toNat ≠ L := by
  rw [toNat_size_ofNat]
  split <;> omega

theorem eq_size_iff {L : Nat} (h : L < 2 ^ 31) : (Int32.ofNat L).toInt64.toUInt64 = n ↔ n.toNat = L := by
  rw [← UInt64.toNat_inj, size_of_small h, eq_comm]

/-! ### When the body is told -/

theorem RequestEvent.content_of_hasBody {event : RequestEvent} (h : event.hasBody = false) : event.content = none := by
  rw [content, h]
  rfl

theorem RequestEvent.hasBody_of_content {event : RequestEvent} {bytes : List UInt8}
    (h : event.content = some bytes) : event.hasBody = true := by
  by_contra hno
  rw [content_of_hasBody (by simpa using hno)] at h
  cases h

theorem bodyTold_filled (hremove : Removes evbuffer_remove) (hpost : request.type = .post) (hn : Reads request n) :
    BodyTold evbuffer_remove request ↔
      if n ≠ 0 ∧ (Int32.ofNat request.input_buffer.bytes.length).toInt64.toUInt64 = n then
        Claimed request ∧ n.toNat = request.input_buffer.bytes.length
      else ¬ Claimed request := by
  have hread : readBody evbuffer_remove (.new request) = .ok (filled evbuffer_remove (.new request) n) := by
    rw [readBody_new hpost, headerLength_eq_ok_iff.2 hn]
    rfl
  have hfilled := filled_new hremove request n
  have htold : BodyTold evbuffer_remove request ↔ if Claimed request then
      (filled evbuffer_remove (.new request) n).content = some request.input_buffer.bytes ∧
        (filled evbuffer_remove (.new request) n).length.toNat = request.input_buffer.bytes.length
      else (filled evbuffer_remove (.new request) n).hasBody = false := by
    constructor
    · rintro ⟨event, hevent, h⟩
      rwa [Except.ok.inj (hread.symm.trans hevent)]
    · exact fun h => ⟨_, hread, h⟩
  rw [htold]
  by_cases hc : Claimed request
  · rw [if_pos hc]
    split at hfilled
    · obtain ⟨hcontent, hlength⟩ := hfilled
      rename_i hd
      rw [if_pos hd, hcontent, hlength]
      simp [hc]
    · rename_i hd
      rw [if_neg hd, RequestEvent.content_of_hasBody hfilled]
      simp [hc]
  · rw [if_neg hc]
    split at hfilled
    · rename_i hd
      rw [if_pos hd, RequestEvent.hasBody_of_content hfilled.1]
      simp [hc]
    · rename_i hd
      rw [if_neg hd, hfilled]
      simp [hc]

theorem bodyTold_of_reads (hremove : Removes evbuffer_remove) (hpost : request.type = .post) (hn : Reads request n) :
    BodyTold evbuffer_remove request ↔ Clear request n := by
  rw [bodyTold_filled hremove hpost hn]
  have hfits := request.input_buffer.fits
  rcases Nat.eq_zero_or_pos request.input_buffer.bytes.length with hzero | hpos
  · have hc : ¬ Claimed request := fun hc => Nat.lt_irrefl 0 (hzero ▸ hc.1)
    have hd : ¬ (n ≠ 0 ∧ (Int32.ofNat request.input_buffer.bytes.length).toInt64.toUInt64 = n) := by
      rintro ⟨hne, he⟩
      rw [hzero] at he
      exact hne he.symm
    rw [if_neg hd]
    exact iff_of_true hc ⟨fun h => by omega, fun h => by omega⟩
  · by_cases hsmall : request.input_buffer.bytes.length < 2 ^ 31
    · have hd : (n ≠ 0 ∧ (Int32.ofNat request.input_buffer.bytes.length).toInt64.toUInt64 = n) ↔
          n.toNat = request.input_buffer.bytes.length := by
        rw [eq_size_iff hsmall]
        refine and_iff_right_of_imp fun he hzero => ?_
        rw [← he, hzero] at hpos
        exact absurd hpos (by decide)
      have hclear : Clear request n ↔ (n.toNat = request.input_buffer.bytes.length ↔ Claimed request) := by
        rw [claimed_iff hpos]
        exact ⟨fun h => h.small hpos hsmall, fun h => ⟨fun _ _ => h, fun hlarge => absurd hsmall (Nat.not_lt.2 hlarge)⟩⟩
      rw [hclear]
      by_cases he : n.toNat = request.input_buffer.bytes.length
      · rw [if_pos (hd.2 he)]
        simp [he]
      · rw [if_neg fun h => he (hd.1 h)]
        simp [he]
    · have hlarge := Nat.not_lt.1 hsmall
      have hclear : Clear request n ↔ ¬ Claimed request ∧
          (n = 0 ∨ n ≠ (Int32.ofNat request.input_buffer.bytes.length).toInt64.toUInt64) := by
        rw [claimed_iff hpos]
        exact ⟨fun h => h.large hlarge, fun h => ⟨fun _ hlt => absurd hlt hsmall, fun _ => h⟩⟩
      rw [hclear]
      split
      · rename_i hd
        refine iff_of_false (fun h => ?_) fun h => h.2.elim hd.1 fun hne => hne hd.2.symm
        exact size_ne_of_large hlarge hfits (hd.2 ▸ h.2)
      · rename_i hd
        refine ⟨fun hc => ⟨hc, ?_⟩, fun h => h.1⟩
        by_cases hzero : n = 0
        · exact .inl hzero
        · exact .inr fun he => hd ⟨hzero, he.symm⟩

/-- The exception that may leave `readBody` is that of `stoul`. -/
theorem readBody_ok_iff (evbuffer_remove : Evbuffer → Nat → Removed) (request : EvhttpRequest) :
    (∃ event, readBody evbuffer_remove (.new request) = .ok event) ↔ (request.type = .post → ∃ n, Reads request n) := by
  by_cases hpost : request.type = .post
  · rw [readBody_new hpost]
    constructor
    · rintro ⟨event, hevent⟩ -
      cases hn : headerLength request with
      | error e =>
        rw [hn] at hevent
        cases hevent
      | ok n => exact ⟨n, headerLength_eq_ok_iff.1 hn⟩
    · intro h
      obtain ⟨n, hn⟩ := h hpost
      exact ⟨_, by rw [headerLength_eq_ok_iff.2 hn]; rfl⟩
  · have hpost' : (RequestEvent.new request).request.type ≠ .post := hpost
    exact iff_of_true ⟨_, by rw [readBody, readBodyBlocks, if_neg hpost']; rfl⟩ fun h => absurd h hpost

/-- `readBody` tells the body right iff it finds a length, and the length is right. -/
theorem bodyTold_iff (hremove : Removes evbuffer_remove) (hpost : request.type = .post) :
    BodyTold evbuffer_remove request ↔ ∃ n, Reads request n ∧ Clear request n := by
  constructor
  · intro h
    obtain ⟨event, hevent, -⟩ := id h
    obtain ⟨n, hn⟩ := (readBody_ok_iff evbuffer_remove request).1 ⟨event, hevent⟩ hpost
    exact ⟨n, hn, (bodyTold_of_reads hremove hpost hn).1 h⟩
  · rintro ⟨n, hn, hclear⟩
    exact (bodyTold_of_reads hremove hpost hn).2 hclear

/-- Nothing goes wrong where the first `Content-Length` in any case is the first one spelled so, its value is a
decimal number, and the number of bytes is an `int`. -/
theorem bodyTold_of_decimal (hremove : Removes evbuffer_remove) (hpost : request.type = .post)
    (hname : firstValue (· = "Content-Length".toList) request.input_headers =
      firstValue isContentLength request.input_headers)
    (hvalue : ∀ value ∈ firstValue isContentLength request.input_headers, ∃ k < 2 ^ 64, decimal? value = some k)
    (hlength : request.input_buffer.bytes.length < 2 ^ 31) : BodyTold evbuffer_remove request := by
  have hsmall : ∀ n, ((0 < request.input_buffer.bytes.length →
      (n.toNat = request.input_buffer.bytes.length ↔ Claimed request)) → Clear request n) :=
    fun n h => ⟨fun hpos _ => (h hpos).trans (claimed_iff hpos), fun hlarge => absurd hlength (Nat.not_lt.2 hlarge)⟩
  cases hv : firstValue isContentLength request.input_headers with
  | none =>
    have hreads : Reads request 0 := by rw [Reads, hname, hv]
    refine (bodyTold_of_reads hremove hpost hreads).2 (hsmall 0 fun hpos => ?_)
    refine iff_of_false (fun h => hpos.ne h) fun h => ?_
    rw [Claimed, hv] at h
    cases h.2
  | some value =>
    obtain ⟨k, hk, hdec⟩ := hvalue value hv
    obtain ⟨⟨hne, hdigits⟩, hval⟩ : (value ≠ [] ∧ value.all Char.isDigit = true) ∧ digitsValue value = k := by
      simpa [decimal?] using hdec
    have hreads : Reads request (.ofNat k) := by
      rw [Reads, hname, hv]
      simp only [hne, if_false]
      refine ⟨[], [], value, [], ⟨by simp, by simp, by simp, List.all_eq_true.1 hdigits, by simp⟩, hne, ?_, ?_⟩
      · exact hval ▸ hk
      · rw [hval]
        rfl
    refine (bodyTold_of_reads hremove hpost hreads).2 (hsmall _ fun hpos => ?_)
    rw [UInt64.toNat_ofNat_of_lt' hk, Claimed, hv, Option.bind_some, hdec]
    simp [hpos]

/-- `evbuffer_remove` as a function. -/
def removeFront (buf : Evbuffer) (datlen : Nat) : Removed where
  ret := Int32.ofNat (min datlen buf.bytes.length)
  data := buf.bytes.take datlen
  left := ⟨buf.bytes.drop datlen, lt_of_le_of_lt (by rw [List.length_drop]; exact Nat.sub_le _ _) buf.fits⟩

theorem removes_removeFront : Removes removeFront := ⟨fun _ _ => rfl, fun _ _ => rfl, fun _ _ => rfl⟩

/-- A request with one header and the one byte `0`. -/
def oneByte (header : Str × Str) : EvhttpRequest where
  type := .post
  input_headers := [header]
  uri_path := "/a".toList
  uri_query := none
  input_buffer := ⟨[0], by decide⟩

/-- `stoul` reads a 1 and the request claims a 1. -/
theorem bodyTold_one_byte : BodyTold removeFront (oneByte ("Content-Length".toList, "1".toList)) := by
  refine (bodyTold_iff removes_removeFront rfl).2 ⟨1, ?_, fun _ _ => by decide, fun h => absurd h (by decide)⟩
  exact headerLength_eq_ok_iff.1 (by decide)

/-- The name is not spelled as `readBody` looks it up. -/
theorem not_bodyTold_lower_case : ¬ BodyTold removeFront (oneByte ("content-length".toList, "1".toList)) := by
  rintro ⟨event, hread, h⟩
  rw [if_pos (by decide)] at h
  obtain rfl := Except.ok.inj hread
  revert h
  decide

end ChCppUtils.Http.Server
