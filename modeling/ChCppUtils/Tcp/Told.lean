import ChCppUtils.Tcp.Server

/-!
# What is told about a client

The messages of a client put together are what its peer has sent, up to what is not read yet, and none of them is
empty. `onDisconnect` is called once for the stream of the peer, after which no message comes, and once if writing
fails, after which messages may come. `Told` says so of a list of calls, and has one lemma for each thing that may
happen to a client.
-/

namespace ChCppUtils.Tcp

open ThreadPool

/-- The stream of the peer has failed, and not the writing. -/
def What.ofStream : What → Bool
  | .eof | .error => true
  | .writing => false

namespace Call

/-- A message of the client, or a disconnection. -/
def about (client : Nat) : Call → Bool
  | onMessage k _ | onDisconnect k _ => k == client
  | onConnection _ | onLocalEvent _ => false

def connection? : Call → Option Nat
  | onConnection k => some k
  | onMessage _ _ | onDisconnect _ _ | onLocalEvent _ => none

def message? (client : Nat) : Call → Option (List UInt8)
  | onMessage k message => if k = client then some message else none
  | onConnection _ | onDisconnect _ _ | onLocalEvent _ => none

/-- A disconnection of the client, of its stream or of the writing. -/
def ends (client : Nat) (stream : Bool) : Call → Bool
  | onDisconnect k what => k == client && what.ofStream == stream
  | onConnection _ | onMessage _ _ | onLocalEvent _ => false

theorem message?_of_not_about {client : Nat} {call : Call} (h : call.about client = false) :
    call.message? client = none := by
  cases call with
  | onMessage k message => exact if_neg fun hk => by rw [hk, about, beq_self_eq_true] at h; cases h
  | onConnection | onDisconnect | onLocalEvent => rfl

theorem ends_of_not_about {client : Nat} {call : Call} (h : call.about client = false) (stream : Bool) :
    call.ends client stream = false := by
  cases call with
  | onDisconnect k what => rw [ends, show (k == client) = false from h, Bool.false_and]
  | onConnection | onMessage | onLocalEvent => rfl

end Call

def messages (client : Nat) (calls : List Call) : List (List UInt8) := calls.filterMap (·.message? client)

/-- The disconnections of a client that are of its stream, or of the writing. -/
def failures (client : Nat) (stream : Bool) (calls : List Call) : Nat := calls.countP (·.ends client stream)

/-- No message follows the end of the stream. -/
def Ordered (client : Nat) (calls : List Call) : Prop :=
  calls.Pairwise fun a b => a.ends client true = true → b.message? client = none

section
variable {client : Nat} {calls : List Call} {call : Call}

theorem messages_concat : messages client (calls ++ [call]) = messages client calls ++ (call.message? client).toList := by
  rw [messages, List.filterMap_append]
  cases hm : call.message? client with
  | none => rw [List.filterMap_cons_none hm]; rfl
  | some message => rw [List.filterMap_cons_some hm]; rfl

theorem failures_concat {stream : Bool} :
    failures client stream (calls ++ [call]) = failures client stream calls + (call.ends client stream).toNat := by
  rw [failures, List.countP_append, List.countP_singleton]
  cases call.ends client stream <;> rfl

theorem Ordered.concat (h : Ordered client calls)
    (hlast : (∀ a ∈ calls, a.ends client true = false) ∨ call.message? client = none) : Ordered client (calls ++ [call]) := by
  refine List.pairwise_append.2 ⟨h, List.pairwise_singleton _ _, fun a ha b hb he => ?_⟩
  rw [List.mem_singleton.1 hb]
  rcases hlast with hnone | hcall
  · rw [hnone a ha] at he
    cases he
  · exact hcall

theorem mem_concat_of_ne {x : Call} (h : x ≠ call) : x ∈ calls ++ [call] ↔ x ∈ calls := by
  rw [List.mem_append, List.mem_singleton, or_iff_left h]

theorem onDisconnect_ne {what : What} (h : call.about client = false) : .onDisconnect client what ≠ call := by
  rintro rfl
  rw [Call.about, beq_self_eq_true] at h
  cases h

end

/-- What fails was enabled, and is not any more. -/
theorem Conn.disable_counts {c : Conn} {what : What} (he : c.ends what = true) :
    (!(c.disable what).reading).toNat = (!c.reading).toNat + (what.ofStream == true).toNat ∧
      (!(c.disable what).writing).toNat = (!c.writing).toNat + (what.ofStream == false).toNat := by
  cases what with
  | eof =>
    simp only [ends, Bool.and_eq_true] at he
    rw [he.1.1]
    exact ⟨rfl, rfl⟩
  | error =>
    rw [show c.reading = true from he]
    exact ⟨rfl, rfl⟩
  | writing =>
    simp only [ends, Bool.and_eq_true] at he
    rw [he.1]
    exact ⟨rfl, rfl⟩

structure Told (calls : List Call) (stage : Stage) (client : Nat) (c : Conn) : Prop where
  stream : (messages client calls).flatten ++ c.unread = c.sent
  nonempty : [] ∉ messages client calls
  reads : failures client true calls = (!c.reading).toNat
  writes : failures client false calls = (!c.writing).toNat
  order : Ordered client calls
  eof : .onDisconnect client .eof ∈ calls → c.unread = [] ∧ c.closed = true
  disconnected : c.disconnected = true ↔ ∃ what, .onDisconnect client what ∈ calls
  queued : stage = .queued → c.reading = true ∧ c.writing = true ∧ ∀ call ∈ calls, call.about client = false
  finished : stage = .finished → c.pending = false

variable {client : Nat} {c : Conn} {calls : List Call} {stage : Stage}

namespace Told

theorem new (h : ∀ call ∈ calls, call.about client = false) : Told calls .queued client .new := by
  have hmessages : messages client calls = [] :=
    List.filterMap_eq_nil_iff.2 fun call hcall => Call.message?_of_not_about (h call hcall)
  have hends : ∀ stream, failures client stream calls = 0 := by
    intro stream
    refine List.countP_eq_zero.2 fun call hcall => ?_
    rw [Call.ends_of_not_about (h call hcall)]
    exact Bool.false_ne_true
  have hnone : ∀ what, .onDisconnect client what ∉ calls := fun what hmem => onDisconnect_ne (h _ hmem) rfl
  refine ⟨?_, ?_, hends true, hends false, ?_, fun hmem => absurd hmem (hnone .eof), ⟨fun hd => ?_, fun hd => ?_⟩,
    fun _ => ⟨rfl, rfl, h⟩, fun hq => ?_⟩
  · rw [hmessages]
    rfl
  · rw [hmessages]
    exact List.not_mem_nil
  · exact List.pairwise_of_forall_mem_list fun a ha b hb _ => Call.message?_of_not_about (h b hb)
  · cases hd
  · obtain ⟨what, hmem⟩ := hd
    exact absurd hmem (hnone what)
  · cases hq

theorem other {call : Call} (h : Told calls stage client c) (hcall : call.about client = false) :
    Told (calls ++ [call]) stage client c := by
  have hmessage := Call.message?_of_not_about hcall
  have hends := Call.ends_of_not_about hcall
  refine ⟨?_, ?_, ?_, ?_, h.order.concat (.inr hmessage), fun he => ?_, ?_, fun hq => ?_, h.finished⟩
  · rw [messages_concat, hmessage, Option.toList_none, List.append_nil]
    exact h.stream
  · rw [messages_concat, hmessage, Option.toList_none, List.append_nil]
    exact h.nonempty
  · rw [failures_concat, hends]
    exact h.reads
  · rw [failures_concat, hends]
    exact h.writes
  · exact h.eof ((mem_concat_of_ne (onDisconnect_ne hcall)).1 he)
  · rw [h.disconnected]
    exact exists_congr fun what => (mem_concat_of_ne (onDisconnect_ne hcall)).symm
  · obtain ⟨hr, hw, hnone⟩ := h.queued hq
    refine ⟨hr, hw, fun x hx => ?_⟩
    rcases List.mem_append.1 hx with hx | hx
    · exact hnone x hx
    · rw [List.mem_singleton.1 hx]
      exact hcall

/-- The job of the client begins, the callbacks write, or their output goes out. -/
theorem withOutput (h : Told calls stage client c) (output : Bool) :
    Told calls .started client { c with output := output } :=
  { h with queued := nofun, finished := nofun }

theorem leave (h : Told calls stage client c) (hp : c.pending = false) : Told calls .finished client c :=
  { h with queued := nofun, finished := fun _ => hp }

/-- The peer sends something, or closes its end. -/
theorem peer {c' : Conn} (h : Told calls stage client c) (hopen : c.closed = false)
    (hstream : ∀ told : List UInt8, told ++ c.unread = c.sent → told ++ c'.unread = c'.sent)
    (hsame : c'.reading = c.reading ∧ c'.writing = c.writing ∧ c'.output = c.output ∧ c'.disconnected = c.disconnected) :
    Told calls stage client c' := by
  obtain ⟨hr, hw, ho, hd⟩ := hsame
  refine ⟨hstream _ h.stream, h.nonempty, ?_, ?_, h.order, fun he => ?_, ?_, ?_, fun hf => ?_⟩
  · rw [hr]
    exact h.reads
  · rw [hw]
    exact h.writes
  · have hclosed := (h.eof he).2
    rw [hopen] at hclosed
    cases hclosed
  · rw [hd]
    exact h.disconnected
  · rw [hr, hw]
    exact h.queued
  · rw [Conn.pending, hr, hw, ho]
    exact h.finished hf

theorem not_ended (h : Told calls stage client c) (hr : c.reading = true) :
    ∀ call ∈ calls, call.ends client true = false := by
  have hreads := h.reads
  rw [hr] at hreads
  intro call hcall
  exact Bool.eq_false_iff.2 (List.countP_eq_zero.1 hreads call hcall)

theorem message {n : Nat} (h : Told calls .started client c) (hr : c.reading = true) (hn : 0 < n)
    (hle : n ≤ c.unread.length) :
    Told (calls ++ [.onMessage client (c.unread.take n)]) .started client { c with unread := c.unread.drop n } := by
  have hmessage : (Call.onMessage client (c.unread.take n)).message? client = some (c.unread.take n) := if_pos rfl
  refine ⟨?_, ?_, ?_, ?_, h.order.concat (.inl (h.not_ended hr)), fun he => ?_, ?_, nofun, nofun⟩
  · rw [messages_concat, hmessage, Option.toList_some, List.flatten_append, List.flatten_singleton, List.append_assoc,
      List.take_append_drop]
    exact h.stream
  · rw [messages_concat, hmessage, Option.toList_some, List.mem_append, List.mem_singleton, not_or]
    refine ⟨h.nonempty, fun hnil => ?_⟩
    have hlen := congrArg List.length hnil
    rw [List.length_take, List.length_nil] at hlen
    omega
  · rw [failures_concat]
    exact h.reads
  · rw [failures_concat]
    exact h.writes
  · have hend := h.not_ended hr _ ((mem_concat_of_ne (by intro he; cases he)).1 he)
    rw [Call.ends, beq_self_eq_true] at hend
    cases hend
  · rw [show Conn.disconnected _ = c.disconnected from rfl, h.disconnected]
    exact exists_congr fun what => (mem_concat_of_ne (by intro he; cases he)).symm

theorem disconnect {what : What} (h : Told calls .started client c) (he : c.ends what = true) :
    Told (calls ++ [.onDisconnect client what]) .started client { c.disable what with disconnected := true } := by
  have hmessage : (Call.onDisconnect client what).message? client = none := rfl
  have hends : ∀ stream, (Call.onDisconnect client what).ends client stream = (what.ofStream == stream) := by
    intro stream
    rw [Call.ends, beq_self_eq_true, Bool.true_and]
  have hconn : (c.disable what).unread = c.unread ∧ (c.disable what).sent = c.sent ∧ (c.disable what).closed = c.closed := by
    cases what <;> exact ⟨rfl, rfl, rfl⟩
  obtain ⟨hunread, hsent, hclosed⟩ := hconn
  obtain ⟨hreads, hwrites⟩ := Conn.disable_counts he
  refine ⟨?_, ?_, ?_, ?_, h.order.concat (.inr hmessage), fun hmem => ?_, ⟨fun _ => ⟨what, ?_⟩, fun _ => rfl⟩, nofun,
    nofun⟩
  · rw [messages_concat, hmessage, Option.toList_none, List.append_nil, show Conn.unread _ = c.unread from hunread,
      show Conn.sent _ = c.sent from hsent]
    exact h.stream
  · rw [messages_concat, hmessage, Option.toList_none, List.append_nil]
    exact h.nonempty
  · rw [failures_concat, hends, h.reads]
    exact hreads.symm
  · rw [failures_concat, hends, h.writes]
    exact hwrites.symm
  · rw [show Conn.unread _ = c.unread from hunread, show Conn.closed _ = c.closed from hclosed]
    rcases List.mem_append.1 hmem with hmem | hmem
    · exact h.eof hmem
    · cases List.mem_singleton.1 hmem
      simp only [Conn.ends, Bool.and_eq_true, List.isEmpty_iff] at he
      exact ⟨he.2, he.1.2⟩
  · exact List.mem_append_right _ (List.mem_singleton.2 rfl)

end Told

end ChCppUtils.Tcp
