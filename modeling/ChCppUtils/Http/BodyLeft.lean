import ChCppUtils.Http.Body

/-!
# A body that is not delivered

`readBody` empties the input buffer into a block of `malloc` before it knows whether the event gets the
block. Where the length it goes by is another one than that of the buffer, the bytes are gone from the
buffer and nothing points to the block (`leftInPlace_iff`).
-/

namespace ChCppUtils.Http.Server

variable {evbuffer_remove : Evbuffer → Nat → Removed} {request : EvhttpRequest} {n : UInt64}

/-- Where `readBody` returns without a body for the event, the input buffer has the bytes it had, and no
block is left that nothing points to. -/
def LeftInPlace (evbuffer_remove : Evbuffer → Nat → Removed) (request : EvhttpRequest) : Prop :=
  ∀ event blocks, readBodyBlocks evbuffer_remove (.new request) = .ok (event, blocks) → event.body = none →
    event.request.input_buffer.bytes = request.input_buffer.bytes ∧ blocks = []

/-- The event has no body where the number is 0 or is not what `evbuffer_remove` returns. -/
theorem body_filled (hremove : Removes evbuffer_remove) (request : EvhttpRequest) (n : UInt64) :
    (filled evbuffer_remove (.new request) n).body = none ↔
      n = 0 ∨ (Int32.ofNat request.input_buffer.bytes.length).toInt64.toUInt64 ≠ n := by
  have hret := hremove.ret request.input_buffer request.input_buffer.bytes.length
  rw [Nat.min_self] at hret
  have hnew : (RequestEvent.new request).request = request := rfl
  by_cases hn : n = 0
  · rw [filled, if_neg (not_not_intro hn)]
    exact iff_of_true rfl (.inl hn)
  · rw [filled, if_pos hn, hnew]
    simp only [hret]
    split
    · rename_i he
      exact iff_of_false (fun h => by cases h) fun h => h.elim hn fun hne => hne he
    · rename_i hne
      exact iff_of_true rfl (.inr hne)

theorem leftInPlace_of_reads (hremove : Removes evbuffer_remove) (hpost : request.type = .post)
    (hn : Reads request n) : LeftInPlace evbuffer_remove request ↔
      n = 0 ∨ (Int32.ofNat request.input_buffer.bytes.length).toInt64.toUInt64 = n := by
  have hread : readBodyBlocks evbuffer_remove (.new request) =
      .ok (filled evbuffer_remove (.new request) n, blocksFor evbuffer_remove request n) := by
    rw [readBodyBlocks_new hpost, headerLength_eq_ok_iff.2 hn]
    rfl
  constructor
  · intro h
    by_contra hno
    obtain ⟨hne, hsize⟩ := not_or.1 hno
    obtain ⟨-, hblocks⟩ := h _ _ hread ((body_filled hremove request n).2 (.inr hsize))
    rw [blocksFor, if_pos hne] at hblocks
    cases hblocks
  · intro h event blocks hok hnone
    obtain ⟨rfl, rfl⟩ := Prod.mk.inj (Except.ok.inj (hread.symm.trans hok))
    have hzero : n = 0 := by
      rcases (body_filled hremove request n).1 hnone with hzero | hne
      · exact hzero
      · exact h.resolve_right hne
    rw [filled, blocksFor, if_neg (not_not_intro hzero), if_neg (not_not_intro hzero)]
    exact ⟨rfl, rfl⟩

/-- Nothing is lost where the length that `readBody` goes by, if it finds one, is 0 or that of the buffer. -/
theorem leftInPlace_iff (hremove : Removes evbuffer_remove) (hpost : request.type = .post) :
    LeftInPlace evbuffer_remove request ↔
      ∀ n, Reads request n → n = 0 ∨ (Int32.ofNat request.input_buffer.bytes.length).toInt64.toUInt64 = n := by
  constructor
  · exact fun h n hn => (leftInPlace_of_reads hremove hpost hn).1 h
  · intro h event blocks hok hnone
    rw [readBodyBlocks_new hpost] at hok
    cases hl : headerLength request with
    | error e =>
      rw [hl] at hok
      cases hok
    | ok n =>
      have hn := headerLength_eq_ok_iff.1 hl
      rw [← readBodyBlocks_new hpost] at hok
      exact (leftInPlace_of_reads hremove hpost hn).2 (h n hn) event blocks hok hnone

/-- The one byte is delivered. -/
theorem leftInPlace_one_byte : LeftInPlace removeFront (oneByte ("Content-Length".toList, "1".toList)) := by
  refine (leftInPlace_iff removes_removeFront rfl).2 fun n hn => .inr ?_
  have hread := headerLength_eq_ok_iff.2 hn
  obtain rfl : 1 = n := Except.ok.inj hread
  decide

/-- Two bytes are announced and one is there. -/
theorem not_leftInPlace_two : ¬ LeftInPlace removeFront (oneByte ("Content-Length".toList, "2".toList)) := by
  intro h
  obtain ⟨hbytes, -⟩ := h _ _ rfl rfl
  revert hbytes
  decide

end ChCppUtils.Http.Server
