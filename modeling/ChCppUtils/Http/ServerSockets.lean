import ChCppUtils.Http.Server

/-!
# Which socket a server listens on

The first thread of the process binds the only listening socket there ever is; all other threads, of
whatever server and port, accept on what `evListenSocket` points to, and the first thread that goes
closes it for all of them. A history is sound exactly when every construction finds that socket open
and bound to its port, and every destruction leaves no thread of another server (`eachState_own_iff`).
-/

namespace ChCppUtils.Http.Server

open Runs

namespace Process

/-- The thread accepts on an open socket that is bound to its port. -/
def Serves (s : Process) (thread : HttpThread) : Prop :=
  ∃ b ∈ s.boundSockets[thread.evBoundSocket]?, b.freed = false ∧ s.sockets.lookup b.fd = some thread.mPort

def Own (s : Process) : Prop := ∀ server ∈ s.servers, ∀ thread ∈ server.mThreads, s.Serves thread

/-- What `evListenSocket` points to is open and bound to the port. -/
def Listens (s : Process) (port : UInt16) : Prop :=
  ∃ h ∈ s.evListenSocket, ∃ b ∈ s.boundSockets[h]?, b.freed = false ∧ s.sockets.lookup b.fd = some port

def Fits (s : Process) : Action → Prop
  | .construct port answers => answers = [] ∨ s.evListenSocket = none ∨ s.Listens port
  | .destroy k => (∀ server ∈ s.servers[k]?, server.mThreads = []) ∨
    ∀ server ∈ s.servers.eraseIdx k, server.mThreads = []

instance (s : Process) (thread : HttpThread) : Decidable (s.Serves thread) :=
  inferInstanceAs (Decidable (∃ b ∈ s.boundSockets[thread.evBoundSocket]?, _))

instance (s : Process) (port : UInt16) : Decidable (s.Listens port) :=
  inferInstanceAs (Decidable (∃ h ∈ s.evListenSocket, ∃ b ∈ s.boundSockets[h]?, _))

instance (s : Process) : Decidable s.Own :=
  inferInstanceAs (Decidable (∀ server ∈ s.servers, ∀ thread ∈ server.mThreads, s.Serves thread))

instance (s : Process) : ∀ a, Decidable (s.Fits a)
  | .construct port answers => inferInstanceAs (Decidable (answers = [] ∨ s.evListenSocket = none ∨ s.Listens port))
  | .destroy k => inferInstanceAs (Decidable ((∀ server ∈ s.servers[k]?, server.mThreads = []) ∨
    ∀ server ∈ s.servers.eraseIdx k, server.mThreads = []))

/-! ### The three stages of the one socket -/

/-- The socket is on the descriptor `fd`, open and bound to `port`. -/
structure Listening (fd : Nat) (port : UInt16) (s : Process) : Prop where
  static : ∃ h, s.evListenSocket = some h ∧ h < s.boundSockets.length
  bound : ∀ b ∈ s.boundSockets, b = ⟨fd, false⟩
  sockets : ∀ f, s.sockets.lookup f = if f = fd then some port else none

/-- No thread has been started. -/
structure Unused (s : Process) : Prop where
  static : s.evListenSocket = none
  bound : s.boundSockets = []
  sockets : ∀ f, s.sockets.lookup f = none
  idle : ∀ server ∈ s.servers, server.mThreads = []

/-- All threads accept on the open socket. -/
structure Shared (fd : Nat) (port : UInt16) (s : Process) : Prop where
  listening : s.Listening fd port
  threads : ∀ server ∈ s.servers, ∀ thread ∈ server.mThreads,
    thread.mPort = port ∧ thread.evBoundSocket < s.boundSockets.length

/-- The socket is closed, and so are all threads. -/
structure Gone (s : Process) : Prop where
  static : s.evListenSocket ≠ none
  sockets : ∀ f, s.sockets.lookup f = none
  idle : ∀ server ∈ s.servers, server.mThreads = []

inductive Inv (s : Process) : Prop
  | unused (h : s.Unused)
  | shared {fd : Nat} {port : UInt16} (h : s.Shared fd port)
  | gone (h : s.Gone)

variable {s s' : Process} {fd : Nat} {port mPort : UInt16} {thread : HttpThread} {ans : Answer}
  {answers : List Answer} {mThreads : List HttpThread}

theorem Listening.getElem (h : s.Listening fd port) {i : Nat} (hi : i < s.boundSockets.length) :
    s.boundSockets[i]? = some ⟨fd, false⟩ := by
  rw [List.getElem?_eq_getElem hi]
  exact congrArg some (h.bound _ (List.getElem_mem hi))

theorem Shared.own (h : s.Shared fd port) : s.Own := by
  intro server hs thread ht
  obtain ⟨hp, hi⟩ := h.threads server hs thread ht
  exact ⟨⟨fd, false⟩, h.listening.getElem hi, rfl, by rw [h.listening.sockets, if_pos rfl, hp]⟩

theorem own_of_idle (h : ∀ server ∈ s.servers, server.mThreads = []) : s.Own := by
  intro server hs thread ht
  rw [h server hs] at ht
  cases ht

theorem Inv.own (h : s.Inv) : s.Own := by
  cases h with
  | unused h => exact own_of_idle h.idle
  | shared h => exact h.own
  | gone h => exact own_of_idle h.idle

/-! ### `init` -/

theorem Listening.init (h : s.Listening fd port) (hs : s.init mPort ans = .ok (s', thread)) :
    s'.Listening fd port ∧ s'.servers = s.servers ∧ s.boundSockets.length ≤ s'.boundSockets.length ∧
      thread.mPort = mPort ∧ thread.evBoundSocket < s'.boundSockets.length := by
  obtain ⟨hl, hstatic, hlt⟩ := h.static
  unfold Process.init at hs
  rw [hstatic] at hs
  obtain ⟨rfl, rfl⟩ := Prod.mk.inj (Except.ok.inj hs)
  have hfd : s.boundSocketGetFd hl ans.stale = fd := by rw [boundSocketGetFd, h.getElem hlt]; rfl
  have hlen : (s.boundSockets ++ [(⟨fd, false⟩ : EvhttpBoundSocket)]).length = s.boundSockets.length + 1 := by simp
  rw [hfd]
  refine ⟨⟨⟨hl, hstatic, ?_⟩, fun b hb => ?_, h.sockets⟩, rfl, ?_, rfl, ?_⟩
  · show hl < (s.boundSockets ++ [_]).length
    omega
  · rcases List.mem_append.1 hb with hb | hb
    · exact h.bound b hb
    · exact List.mem_singleton.1 hb
  · show s.boundSockets.length ≤ (s.boundSockets ++ [_]).length
    omega
  · show s.boundSockets.length < (s.boundSockets ++ [_]).length
    omega

theorem Unused.init (h : s.Unused) (hs : s.init mPort ans = .ok (s', thread)) :
    s'.Listening ans.fd mPort ∧ s'.servers = s.servers ∧
      thread.mPort = mPort ∧ thread.evBoundSocket < s'.boundSockets.length := by
  unfold Process.init at hs
  rw [h.static] at hs
  obtain ⟨⟨s₁, bound⟩, hb, hs⟩ := Res.of_bind hs
  obtain ⟨rfl, rfl⟩ := Prod.mk.inj (Except.ok.inj hs)
  unfold bindSocketWithHandle at hb
  split at hb
  · cases hb
  obtain ⟨rfl, rfl⟩ := Prod.mk.inj (Except.ok.inj hb)
  have hbound : s.boundSockets ++ [(⟨ans.fd, false⟩ : EvhttpBoundSocket)] = [⟨ans.fd, false⟩] := by rw [h.bound]; rfl
  refine ⟨⟨⟨_, rfl, ?_⟩, fun b hb => ?_, fun f => ?_⟩, rfl, rfl, ?_⟩
  · show s.boundSockets.length < (s.boundSockets ++ [_]).length
    simp
  · have hb : b ∈ s.boundSockets ++ [⟨ans.fd, false⟩] := hb
    rw [hbound] at hb
    exact List.mem_singleton.1 hb
  · show (AList.insert ans.fd mPort s.sockets).lookup f = _
    by_cases hf : f = ans.fd
    · rw [if_pos hf, hf, AList.lookup_insert]
    · rw [if_neg hf, AList.lookup_insert_ne hf, h.sockets]
  · show s.boundSockets.length < (s.boundSockets ++ [_]).length
    simp

theorem createThreads_cons (hs : s.createThreads mPort (ans :: answers) = .ok (s', mThreads)) :
    ∃ s₁ thread ts, s.init mPort ans = .ok (s₁, thread) ∧ s₁.createThreads mPort answers = .ok (s', ts) ∧
      mThreads = thread :: ts := by
  rw [createThreads] at hs
  obtain ⟨⟨s₁, thread⟩, hi, hs⟩ := Res.of_bind hs
  obtain ⟨⟨s₂, ts⟩, hc, hs⟩ := Res.of_bind hs
  obtain ⟨rfl, rfl⟩ := Prod.mk.inj (Except.ok.inj hs)
  exact ⟨s₁, thread, ts, hi, hc, rfl⟩

theorem Listening.createThreads (h : s.Listening fd port)
    (hs : s.createThreads mPort answers = .ok (s', mThreads)) :
    s'.Listening fd port ∧ s'.servers = s.servers ∧ s.boundSockets.length ≤ s'.boundSockets.length ∧
      ∀ thread ∈ mThreads, thread.mPort = mPort ∧ thread.evBoundSocket < s'.boundSockets.length := by
  induction answers generalizing s mThreads with
  | nil =>
    obtain ⟨rfl, rfl⟩ := Prod.mk.inj (Except.ok.inj hs)
    exact ⟨h, rfl, le_rfl, fun _ ht => absurd ht List.not_mem_nil⟩
  | cons ans answers ih =>
    obtain ⟨s₁, thread, ts, hi, hc, rfl⟩ := createThreads_cons hs
    obtain ⟨h₁, hserv₁, hle₁, hp, hlt⟩ := h.init hi
    obtain ⟨h', hserv, hle, hts⟩ := ih h₁ hc
    refine ⟨h', hserv.trans hserv₁, le_trans hle₁ hle, fun t ht => ?_⟩
    rcases List.mem_cons.1 ht with rfl | ht
    · exact ⟨hp, lt_of_lt_of_le hlt hle⟩
    · exact hts t ht

/-- Where the socket is set and closed, no thread opens one. -/
theorem createThreads_closed (hstatic : s.evListenSocket ≠ none) (hsock : ∀ f, s.sockets.lookup f = none)
    (hs : s.createThreads mPort answers = .ok (s', mThreads)) : ∀ f, s'.sockets.lookup f = none := by
  induction answers generalizing s mThreads with
  | nil =>
    obtain ⟨rfl, -⟩ := Prod.mk.inj (Except.ok.inj hs)
    exact hsock
  | cons ans answers ih =>
    obtain ⟨s₁, thread, ts, hi, hc, -⟩ := createThreads_cons hs
    obtain ⟨hl, hsome⟩ := Option.ne_none_iff_exists'.1 hstatic
    unfold Process.init at hi
    rw [hsome] at hi
    obtain ⟨rfl, -⟩ := Prod.mk.inj (Except.ok.inj hi)
    refine ih ?_ ?_ hc
    · exact hstatic
    · exact hsock

theorem createThreads_eq_nil (hs : s.createThreads mPort answers = .ok (s', mThreads)) :
    mThreads = [] ↔ answers = [] := by
  cases answers with
  | nil =>
    obtain ⟨-, rfl⟩ := Prod.mk.inj (Except.ok.inj hs)
    exact iff_of_true rfl rfl
  | cons ans answers =>
    obtain ⟨s₁, thread, ts, -, -, rfl⟩ := createThreads_cons hs
    exact iff_of_false (List.cons_ne_nil _ _) (List.cons_ne_nil _ _)

/-! ### `deinit` -/

theorem deinit_frame (s : Process) (thread : HttpThread) :
    (s.deinit thread).servers = s.servers ∧ (s.deinit thread).evListenSocket = s.evListenSocket ∧
      (∀ f, s.sockets.lookup f = none → (s.deinit thread).sockets.lookup f = none) := by
  unfold deinit delAcceptSocket
  split
  · rename_i b hb
    refine ⟨rfl, rfl, fun f hf => ?_⟩
    show (AList.erase b.fd s.sockets).lookup f = none
    by_cases he : f = b.fd
    · rw [he, AList.lookup_erase]
    · rw [AList.lookup_erase_ne he, hf]
  · exact ⟨rfl, rfl, fun _ hf => hf⟩

theorem foldl_deinit_frame (mThreads : List HttpThread) (s : Process) :
    (mThreads.foldl deinit s).servers = s.servers ∧ (mThreads.foldl deinit s).evListenSocket = s.evListenSocket ∧
      (∀ f, s.sockets.lookup f = none → (mThreads.foldl deinit s).sockets.lookup f = none) := by
  induction mThreads generalizing s with
  | nil => exact ⟨rfl, rfl, fun _ hf => hf⟩
  | cons thread mThreads ih =>
    obtain ⟨h1, h2, h3⟩ := deinit_frame s thread
    obtain ⟨g1, g2, g3⟩ := ih (s.deinit thread)
    exact ⟨g1.trans h1, g2.trans h2, fun f hf => g3 f (h3 f hf)⟩

/-- The first thread that goes closes the socket. -/
theorem Listening.closed (h : s.Listening fd port) (hlt : thread.evBoundSocket < s.boundSockets.length)
    (mThreads : List HttpThread) (f : Nat) : ((thread :: mThreads).foldl deinit s).sockets.lookup f = none := by
  refine (foldl_deinit_frame mThreads (s.deinit thread)).2.2 f ?_
  unfold deinit delAcceptSocket
  rw [h.getElem hlt]
  show (AList.erase fd s.sockets).lookup f = none
  by_cases he : f = fd
  · rw [he, AList.lookup_erase]
  · rw [AList.lookup_erase_ne he, h.sockets, if_neg he]

/-! ### Steps -/

theorem Own.serves_last {servers : List HttpServer} (h : Own s) (hs : s.servers = servers ++ [⟨port, mThreads⟩]) :
    ∀ thread ∈ mThreads, s.Serves thread :=
  h ⟨port, mThreads⟩ (by rw [hs]; simp)

theorem step_construct (hs : s.step (.construct port answers) = .ok s') :
    ∃ s₁ mThreads, s.createThreads port answers = .ok (s₁, mThreads) ∧
      s' = { s₁ with servers := s₁.servers ++ [⟨port, mThreads⟩] } := by
  obtain ⟨⟨s₁, mThreads⟩, hc, hs⟩ := Res.of_bind hs
  exact ⟨s₁, mThreads, hc, (Except.ok.inj hs).symm⟩

theorem step_destroy {k : Nat} (hs : s.step (.destroy k) = .ok s') :
    ∃ server, s.servers[k]? = some server ∧
      s' = server.mThreads.foldl deinit { s with servers := s.servers.eraseIdx k } := by
  rw [step] at hs
  split at hs
  · cases hs
  · rename_i server hk
    exact ⟨server, hk, (Except.ok.inj hs).symm⟩

theorem idle_concat {servers : List HttpServer} (h : ∀ server ∈ servers, server.mThreads = []) :
    ∀ server ∈ servers ++ [⟨port, []⟩], server.mThreads = [] := by
  intro server hm
  rcases List.mem_append.1 hm with hm | hm
  · exact h server hm
  · rw [List.mem_singleton.1 hm]

/-- A server of threads that accept on the socket. -/
theorem Shared.concat {s₁ : Process} (hl : s₁.Listening fd port)
    (hold : ∀ server ∈ s₁.servers, ∀ thread ∈ server.mThreads,
      thread.mPort = port ∧ thread.evBoundSocket < s₁.boundSockets.length)
    (hnew : ∀ thread ∈ mThreads, thread.mPort = port ∧ thread.evBoundSocket < s₁.boundSockets.length) :
    Shared fd port { s₁ with servers := s₁.servers ++ [⟨port, mThreads⟩] } := by
  refine ⟨⟨hl.static, hl.bound, hl.sockets⟩, fun server hm thread ht => ?_⟩
  rcases List.mem_append.1 hm with hm | hm
  · exact hold server hm thread ht
  · rw [List.mem_singleton.1 hm] at ht
    exact hnew thread ht

theorem Listening.listens (h : s.Listening fd port) : s.Listens port := by
  obtain ⟨hl, hstatic, hlt⟩ := h.static
  exact ⟨hl, hstatic, ⟨fd, false⟩, h.getElem hlt, rfl, by rw [h.sockets, if_pos rfl]⟩

theorem Listening.port_eq (h : s.Listening fd port) (hl : s.Listens mPort) : mPort = port := by
  obtain ⟨i, -, b, hb, -, hp⟩ := hl
  rw [h.bound b (List.mem_of_getElem? hb), h.sockets, if_pos rfl] at hp
  exact (Option.some.inj hp).symm

theorem Inv.construct_nil (h : s.Inv) : Inv { s with servers := s.servers ++ [⟨port, []⟩] } := by
  cases h with
  | unused h => exact .unused ⟨h.static, h.bound, h.sockets, idle_concat h.idle⟩
  | shared h =>
    refine .shared ⟨⟨h.listening.static, h.listening.bound, h.listening.sockets⟩, fun server hm thread ht => ?_⟩
    rcases List.mem_append.1 hm with hm | hm
    · exact h.threads server hm thread ht
    · rw [List.mem_singleton.1 hm] at ht
      cases ht
  | gone h => exact .gone ⟨h.static, h.sockets, idle_concat h.idle⟩

theorem Inv.construct (h : s.Inv) (hf : s.Fits (.construct port answers))
    (hs : s.step (.construct port answers) = .ok s') : s'.Inv := by
  obtain ⟨s₁, mThreads, hc, rfl⟩ := step_construct hs
  cases answers with
  | nil =>
    obtain ⟨rfl, rfl⟩ := Prod.mk.inj (Except.ok.inj hc)
    exact h.construct_nil
  | cons ans answers =>
    have hf := hf.resolve_left (List.cons_ne_nil _ _)
    cases h with
    | unused h =>
      obtain ⟨s₂, thread, ts, hi, hts, rfl⟩ := createThreads_cons hc
      obtain ⟨hl, hserv, hp, hlt⟩ := h.init hi
      obtain ⟨hl', hserv', hle, hnew⟩ := hl.createThreads hts
      refine .shared (.concat hl' (fun server hm t ht => ?_) fun t ht => ?_)
      · rw [hserv', hserv] at hm
        rw [h.idle server hm] at ht
        cases ht
      · rcases List.mem_cons.1 ht with rfl | ht
        · exact ⟨hp, lt_of_lt_of_le hlt hle⟩
        · exact hnew t ht
    | @shared fd p h =>
      obtain ⟨i, hi, -⟩ := h.listening.static
      obtain rfl := h.listening.port_eq (hf.resolve_left (by rw [hi]; nofun))
      obtain ⟨hl, hserv, hle, hnew⟩ := h.listening.createThreads hc
      refine .shared (.concat hl (fun server hm t ht => ?_) hnew)
      rw [hserv] at hm
      obtain ⟨hp, hlt⟩ := h.threads server hm t ht
      exact ⟨hp, lt_of_lt_of_le hlt hle⟩
    | gone h =>
      obtain ⟨i, -, b, -, -, hp⟩ := hf.resolve_left h.static
      rw [h.sockets] at hp
      cases hp

theorem Inv.fits_construct (h : s.Inv) (hs : s.step (.construct port answers) = .ok s') (ho : s'.Own) :
    s.Fits (.construct port answers) := by
  obtain ⟨s₁, mThreads, hc, rfl⟩ := step_construct hs
  by_cases hn : answers = []
  · exact .inl hn
  obtain ⟨thread, ht⟩ := List.exists_mem_of_ne_nil _ (mt (createThreads_eq_nil hc).1 hn)
  obtain ⟨b, hb, -, hlook⟩ := ho.serves_last rfl thread ht
  cases h with
  | unused h => exact .inr (.inl h.static)
  | @shared fd p h =>
    obtain ⟨hl, -, -, hnew⟩ := h.listening.createThreads hc
    obtain rfl : port = p := by
      rw [hl.bound b (List.mem_of_getElem? hb), hl.sockets, if_pos rfl, (hnew thread ht).1] at hlook
      exact (Option.some.inj hlook).symm
    exact .inr (.inr h.listening.listens)
  | gone h =>
    rw [createThreads_closed h.static h.sockets hc] at hlook
    cases hlook

theorem Inv.destroy (h : s.Inv) {k : Nat} (hf : s.Fits (.destroy k)) (hs : s.step (.destroy k) = .ok s') :
    s'.Inv := by
  obtain ⟨server, hk, rfl⟩ := step_destroy hs
  have hsub : ∀ server ∈ s.servers.eraseIdx k, server ∈ s.servers := fun _ hm => List.mem_of_mem_eraseIdx hm
  have hidle : (∀ server ∈ s.servers, server.mThreads = []) → server.mThreads = [] :=
    fun hi => hi server (List.mem_of_getElem? hk)
  cases h with
  | unused h =>
    rw [hidle h.idle]
    exact .unused ⟨h.static, h.bound, h.sockets, fun server hm => h.idle server (hsub server hm)⟩
  | gone h =>
    rw [hidle h.idle]
    exact .gone ⟨h.static, h.sockets, fun server hm => h.idle server (hsub server hm)⟩
  | @shared fd p h =>
    have hl : Listening fd p { s with servers := s.servers.eraseIdx k } :=
      ⟨h.listening.static, h.listening.bound, h.listening.sockets⟩
    cases ht : server.mThreads with
    | nil => exact .shared ⟨hl, fun server hm => h.threads server (hsub server hm)⟩
    | cons thread ts =>
      obtain ⟨-, hlt⟩ := h.threads server (List.mem_of_getElem? hk) thread (by rw [ht]; simp)
      have hnil := hf.resolve_left fun hn => by rw [hn server hk] at ht; cases ht
      obtain ⟨i, hi, -⟩ := h.listening.static
      obtain ⟨hserv, hstatic, -⟩ := foldl_deinit_frame (thread :: ts) { s with servers := s.servers.eraseIdx k }
      refine .gone ⟨?_, hl.closed hlt ts, ?_⟩
      · rw [hstatic]
        exact fun hn => by rw [show s.evListenSocket = none from hn] at hi; cases hi
      · rw [hserv]
        exact hnil

theorem Inv.fits_destroy (h : s.Inv) {k : Nat} (hs : s.step (.destroy k) = .ok s') (ho : s'.Own) :
    s.Fits (.destroy k) := by
  obtain ⟨server, hk, rfl⟩ := step_destroy hs
  have hidle : (∀ server ∈ s.servers, server.mThreads = []) → s.Fits (.destroy k) :=
    fun hi => .inl fun server hm => hi server (List.mem_of_getElem? hm)
  cases h with
  | unused h => exact hidle h.idle
  | gone h => exact hidle h.idle
  | @shared fd p h =>
    cases ht : server.mThreads with
    | nil =>
      refine .inl fun server' hk' => ?_
      obtain rfl := Option.some.inj (hk.symm.trans hk')
      exact ht
    | cons thread ts =>
      have hl : Listening fd p { s with servers := s.servers.eraseIdx k } :=
        ⟨h.listening.static, h.listening.bound, h.listening.sockets⟩
      obtain ⟨-, hlt⟩ := h.threads server (List.mem_of_getElem? hk) thread (by rw [ht]; simp)
      obtain ⟨hserv, -⟩ := foldl_deinit_frame (thread :: ts) { s with servers := s.servers.eraseIdx k }
      rw [ht] at ho
      refine .inr fun other hm => ?_
      by_contra hne
      obtain ⟨t, htm⟩ := List.exists_mem_of_ne_nil _ hne
      obtain ⟨b, -, -, hlook⟩ := ho other (by rw [hserv]; exact hm) t htm
      rw [hl.closed hlt ts] at hlook
      cases hlook

/-- In the states of a history all threads accept on an open socket of their port iff every
construction and every destruction fits. -/
theorem eachState_own_iff (tr : List (Action × Process)) (hrun : Run (Ok step) new tr) :
    EachState Own new tr ↔ EachStep Fits new tr := by
  refine Run.eachState_iff (I := Inv) (fun _ h => h.own) (fun s a s' h hf hs => ?_) (fun s a s' h hs ho => ?_)
    (.unused ⟨rfl, rfl, fun _ => rfl, fun _ hm => absurd hm List.not_mem_nil⟩) hrun
  · cases a with
    | construct port answers => exact h.construct hf hs
    | destroy k => exact h.destroy hf hs
  · cases a with
    | construct port answers => exact h.fits_construct hs ho
    | destroy k => exact h.fits_destroy hs ho

/-- A server with two threads is constructed and destroyed. -/
theorem own_one_server :
    ∃ tr, exec step new [.construct 80 [⟨3, 0⟩, ⟨4, 0⟩], .destroy 0] = .ok tr ∧ EachState Own new tr := by
  have hg : Goes step Fits (fun _ => True) new [.construct 80 [⟨3, 0⟩, ⟨4, 0⟩], .destroy 0] := by decide
  obtain ⟨tr, htr, hc, -⟩ := hg.exec
  exact ⟨tr, htr, (eachState_own_iff tr (Run.of_exec htr)).2 hc⟩

/-- The second server gets the socket of the first one, which is on another port. -/
theorem not_own_two_ports :
    ∃ tr, exec step new [.construct 80 [⟨3, 0⟩], .construct 8080 [⟨4, 0⟩]] = .ok tr ∧ ¬ EachState Own new tr := by
  have hg : Goes step (fun _ _ => True) (fun s => ¬ s.Own) new
      [.construct 80 [⟨3, 0⟩], .construct 8080 [⟨4, 0⟩]] := by decide
  obtain ⟨tr, htr, -, s, ho, hs⟩ := hg.exec
  exact ⟨tr, htr, fun h => ho (hs _ h)⟩

end Process

end ChCppUtils.Http.Server
