import ChCppUtils.Basic
import ChCppUtils.Lib.Runs
import ChCppUtils.Http.Body

/-!
# Requests while the server is constructed (http-server.cpp, http-thread.cpp)

The first loop of `createThreads` starts the threads and queues a job for each, so that they dispatch;
the second loop sets and binds the function that gets their requests. A request that comes to a thread
before the second loop has passed it is not answered (`answered_iff`).
-/

namespace ChCppUtils.Http.Server.Startup

open Runs

/-- What the constructor sets for requests, `HttpServer::_onRequestEvent`, and what it binds. -/
inductive Callback where
  | onRequestEvent
deriving DecidableEq, Repr

inductive Object where
  | server
deriving DecidableEq, Repr

/-- `class OnRequest`. The constructor makes `onrequest` null and leaves `this_` as it is. -/
structure OnRequest where
  onrequest : Option Callback
  this_ : Option Object
deriving DecidableEq, Repr

/-- What becomes of a request: `fire` does nothing; `_onRequestEvent` gets a `this_` that was never set;
`send400BadRequest`; an exception leaves `readBody`; the function of a route gets the event. -/
inductive Outcome where
  | ignored
  | wild
  | badRequest
  | thrown (e : Exception)
  | handled (route : Route) (event : RequestEvent)

def Outcome.Answered : Outcome → Prop
  | .badRequest | .handled .. => True
  | _ => False

instance : DecidablePred Outcome.Answered
  | .badRequest | .handled .. => .isTrue trivial
  | .ignored | .wild | .thrown _ => .isFalse id

/-- Where a thread is in `Thread::run`, once it is born: before `mSemaphore.notify()`, where it makes the event
base and is in `init`; in `threadGetNextJob_`; in the `event_base_dispatch` of `_workerRoutine`. -/
inductive Phase where
  | unborn
  | booting
  | fetching
  | dispatching
deriving DecidableEq, Repr

structure HttpThread where
  phase : Phase
  onrequest : OnRequest
deriving DecidableEq, Repr

/-- Where the thread is that constructs the server: in the first loop of `createThreads`, with `k` threads in
`mThreads`; in `thread->start()`; before `addJob`; in the second loop, with `k` threads bound (with all of
them, the constructor has returned); between `onRequest` and `bind`. -/
inductive Main (n : Nat) where
  | creating (k : Nat)
  | starting (i : Fin n)
  | adding (i : Fin n)
  | binding (k : Nat)
  | setting (i : Fin n)
deriving DecidableEq, Repr

/-- A server of `n` threads. The jobs of `mJobQueue` are all for `_workerRoutine`; `log` is what became of
the requests so far. -/
structure HttpServer (n : Nat) where
  mThreads : Fin n → HttpThread
  mJobQueue : Nat
  router : Router
  main : Main n
  log : List (Fin n × EvhttpRequest × Outcome)

/-- The next steps of the constructor and of a thread, libevent's call of `_onEvRequest` in a thread, and
`route(..)` on the constructed server. -/
inductive Action (n : Nat) where
  | main
  | work (i : Fin n)
  | request (i : Fin n) (request : EvhttpRequest)
  | route (route : Route)

namespace HttpServer

variable {n : Nat}

def new (n : Nat) : HttpServer n := ⟨fun _ => ⟨.unborn, ⟨none, none⟩⟩, 0, .new, .creating 0, []⟩

def setThread (s : HttpServer n) (i : Fin n) (t : HttpThread) : HttpServer n :=
  { s with mThreads := Function.update s.mThreads i t }

def onRequestEvent (evbuffer_remove : Evbuffer → Nat → Removed) (router : Router) (event : RequestEvent) : Outcome :=
  match router.getRoute event.request.type event.request.uri_path with
  | none => .badRequest
  | some route =>
    match readBody evbuffer_remove event with
    | .ok event => .handled route event
    | .error e => .thrown e

def fire (evbuffer_remove : Evbuffer → Nat → Removed) (router : Router) (o : OnRequest) (request : EvhttpRequest) :
    Outcome :=
  match o.onrequest with
  | none => .ignored
  | some .onRequestEvent =>
    match o.this_ with
    | none => .wild
    | some .server => onRequestEvent evbuffer_remove router (.new request)

/-- `createThreads` -/
def mainStep (s : HttpServer n) : Res (HttpServer n) :=
  match s.main with
  | .creating k =>
    if h : k < n then pure ({ s with main := .starting ⟨k, h⟩ }.setThread ⟨k, h⟩ ⟨.booting, ⟨none, none⟩⟩)
    else pure { s with main := .binding 0 }
  | .starting i => if (s.mThreads i).phase = .booting then throw .badAnswer else pure { s with main := .adding i }
  | .adding i => pure { s with mJobQueue := s.mJobQueue + 1, main := .creating (i + 1) }
  | .binding k =>
    if h : k < n then
      let t := s.mThreads ⟨k, h⟩
      pure ({ s with main := .setting ⟨k, h⟩ }.setThread ⟨k, h⟩
        { t with onrequest := { t.onrequest with onrequest := some .onRequestEvent } })
    else throw .badAnswer
  | .setting i =>
    let t := s.mThreads i
    pure ({ s with main := .binding (i + 1) }.setThread i { t with onrequest := { t.onrequest with this_ := some .server } })

/-- `Thread::run`, up to the dispatch, which does not end while the server is there. -/
def work (s : HttpServer n) (i : Fin n) : Res (HttpServer n) :=
  match (s.mThreads i).phase with
  | .booting => pure (s.setThread i { s.mThreads i with phase := .fetching })
  | .fetching =>
    match s.mJobQueue with
    | 0 => throw .badAnswer
    | mJobQueue + 1 => pure ({ s with mJobQueue := mJobQueue }.setThread i { s.mThreads i with phase := .dispatching })
  | .unborn | .dispatching => throw .badAnswer

def onEvRequest (evbuffer_remove : Evbuffer → Nat → Removed) (s : HttpServer n) (i : Fin n) (request : EvhttpRequest) :
    HttpServer n :=
  { s with log := s.log ++ [(i, request, fire evbuffer_remove s.router (s.mThreads i).onrequest request)] }

def step (evbuffer_remove : Evbuffer → Nat → Removed) (s : HttpServer n) : Action n → Res (HttpServer n)
  | .main => s.mainStep
  | .work i => s.work i
  | .request i request =>
    if (s.mThreads i).phase = .dispatching then pure (onEvRequest evbuffer_remove s i request) else throw .badAnswer
  | .route route => if s.main = .binding n then pure { s with router := s.router.addRoute route } else throw .badAnswer

/-- Every request so far reached `onRequestEvent`, and was given to a route or answered with 400. -/
def Answered (s : HttpServer n) : Prop := ∀ x ∈ s.log, x.2.2.Answered

/-- The second loop of the constructor is through with the thread. -/
def Bound (s : HttpServer n) (i : Fin n) : Prop :=
  match s.main with
  | .binding k => i < k
  | .setting j => i < j
  | .creating _ | .starting _ | .adding _ => False

/-- A request comes to a thread that is bound; if it has a route, `readBody` can tell its length. -/
def InTime (s : HttpServer n) : Action n → Prop
  | .request i request => s.Bound i ∧
      (s.router.getRoute request.type request.uri_path ≠ none → request.type = .post → ∃ n, Reads request n)
  | _ => True

instance (s : HttpServer n) : Decidable s.Answered := inferInstanceAs (Decidable (∀ x ∈ s.log, _))

instance (s : HttpServer n) (i : Fin n) : Decidable (s.Bound i) :=
  match h : s.main with
  | .binding k => decidable_of_iff (i < k) (by rw [Bound, h])
  | .setting j => decidable_of_iff (i < j) (by rw [Bound, h])
  | .creating _ | .starting _ | .adding _ => .isFalse (by simp [Bound, h])

instance (s : HttpServer n) (a : Action n) : Decidable (s.InTime a) :=
  match a with
  | .request _ _ => inferInstanceAs (Decidable (_ ∧ _))
  | .main | .work _ | .route _ => .isTrue trivial

/-! ### What becomes of one request -/

variable {evbuffer_remove : Evbuffer → Nat → Removed} {s s' : HttpServer n} {i : Fin n} {request : EvhttpRequest}

theorem onRequestEvent_answered_iff (router : Router) :
    (onRequestEvent evbuffer_remove router (.new request)).Answered ↔
      (router.getRoute request.type request.uri_path ≠ none → request.type = .post → ∃ n, Reads request n) := by
  rw [← readBody_ok_iff evbuffer_remove request]
  have htype : (RequestEvent.new request).request.type = request.type := rfl
  have hpath : (RequestEvent.new request).request.uri_path = request.uri_path := rfl
  rw [onRequestEvent, htype, hpath]
  cases router.getRoute request.type request.uri_path with
  | none => exact iff_of_true trivial fun h => absurd rfl h
  | some route =>
    cases readBody evbuffer_remove (.new request) with
    | ok event => exact iff_of_true trivial fun _ => ⟨event, rfl⟩
    | error e => exact iff_of_false id fun h => by cases (h (by simp)).choose_spec

/-- The request gets to `onRequestEvent` through an `OnRequest` that is set and bound. -/
theorem fire_answered_iff (router : Router) (o : OnRequest) :
    (fire evbuffer_remove router o request).Answered ↔ o = ⟨some .onRequestEvent, some .server⟩ ∧
      (router.getRoute request.type request.uri_path ≠ none → request.type = .post → ∃ n, Reads request n) := by
  obtain ⟨onrequest, this_⟩ := o
  cases onrequest with
  | none => exact iff_of_false id fun h => by cases h.1
  | some f =>
    cases this_ with
    | none => exact iff_of_false id fun h => by cases h.1
    | some o => exact (onRequestEvent_answered_iff router).trans (and_iff_right rfl).symm

/-! ### The invariant -/

/-- What the constructor has made of the `OnRequest` of a thread. -/
def handlerAt (main : Main n) (i : Fin n) : OnRequest :=
  match main with
  | .creating _ | .starting _ | .adding _ => ⟨none, none⟩
  | .binding k => if i < k then ⟨some .onRequestEvent, some .server⟩ else ⟨none, none⟩
  | .setting j =>
    if i < j then ⟨some .onRequestEvent, some .server⟩
    else if i = j then ⟨some .onRequestEvent, none⟩ else ⟨none, none⟩

structure Inv (s : HttpServer n) : Prop where
  handler : ∀ i, (s.mThreads i).onrequest = handlerAt s.main i
  answered : s.Answered

theorem Inv.bound_iff (h : s.Inv) :
    s.Bound i ↔ (s.mThreads i).onrequest = ⟨some .onRequestEvent, some .server⟩ := by
  rw [h.handler i]
  unfold Bound handlerAt
  cases s.main with
  | creating k => simp
  | starting j => simp
  | adding j => simp
  | binding k =>
    simp only []
    split <;> simp [*]
  | setting j =>
    simp only []
    split
    · simp [*]
    · split <;> simp [*]

@[simp] theorem setThread_main (s : HttpServer n) (i : Fin n) (t : HttpThread) : (s.setThread i t).main = s.main := rfl

theorem setThread_onrequest (s : HttpServer n) (i j : Fin n) (t : HttpThread) :
    ((s.setThread i t).mThreads j).onrequest = if j = i then t.onrequest else (s.mThreads j).onrequest := by
  have hthreads : (s.setThread i t).mThreads j = if j = i then t else s.mThreads j :=
    Function.update_apply s.mThreads i t j
  rw [hthreads]
  split <;> rfl

theorem Inv.next (h : s.Inv) (hlog : s'.log = s.log)
    (hhandler : ∀ i, (s'.mThreads i).onrequest = handlerAt s'.main i) : s'.Inv :=
  ⟨hhandler, by rw [Answered, hlog]; exact h.answered⟩

theorem Inv.main (h : s.Inv) (hs : s.mainStep = .ok s') : s'.Inv := by
  have hold := h.handler
  unfold mainStep at hs
  cases hm : s.main with
  | creating k =>
    simp only [hm] at hs hold
    split at hs
    · obtain rfl := Except.ok.inj hs
      refine h.next rfl fun i => ?_
      rw [setThread_onrequest]
      split
      · rfl
      · exact hold i
    · obtain rfl := Except.ok.inj hs
      refine h.next rfl fun i => ?_
      simp [hold, handlerAt]
  | starting j =>
    simp only [hm] at hs hold
    split at hs
    · cases hs
    · obtain rfl := Except.ok.inj hs
      exact h.next rfl hold
  | adding j =>
    simp only [hm] at hs hold
    obtain rfl := Except.ok.inj hs
    exact h.next rfl hold
  | binding k =>
    simp only [hm] at hs hold
    split at hs
    · rename_i hk
      obtain rfl := Except.ok.inj hs
      refine h.next rfl fun i => ?_
      rw [setThread_onrequest]
      split
      · -- the thread at `k` is not bound yet
        rename_i hi
        subst hi
        simp [hold, handlerAt]
      · rename_i hi
        simp [hold, handlerAt, hi, Fin.lt_def]
    · cases hs
  | setting j =>
    simp only [hm] at hs hold
    obtain rfl := Except.ok.inj hs
    refine h.next rfl fun i => ?_
    rw [setThread_onrequest]
    split
    · rename_i hi
      subst hi
      simp [hold, handlerAt]
    · rename_i hi
      have hne : (i : ℕ) ≠ j := fun he => hi (Fin.ext he)
      have hlt : (i : ℕ) < j + 1 ↔ i < j := by
        rw [Fin.lt_def]
        omega
      simp [hold, handlerAt, hi, hlt]

theorem Inv.work (h : s.Inv) (hs : s.work i = .ok s') : s'.Inv := by
  have hkeep : ∀ (r : HttpServer n) (p : Phase), r.main = s.main → r.log = s.log → r.mThreads = s.mThreads →
      (r.setThread i { s.mThreads i with phase := p }).Inv := by
    intro r p hmain hlog hthreads
    refine h.next hlog fun j => ?_
    rw [setThread_onrequest, hthreads]
    have hmain' : (r.setThread i { s.mThreads i with phase := p }).main = s.main := hmain
    rw [hmain']
    split
    · rename_i hj
      rw [hj]
      exact h.handler i
    · exact h.handler j
  unfold HttpServer.work at hs
  cases hp : (s.mThreads i).phase with
  | unborn => simp only [hp] at hs; cases hs
  | booting =>
    simp only [hp] at hs
    obtain rfl := Except.ok.inj hs
    exact hkeep s _ rfl rfl rfl
  | fetching =>
    simp only [hp] at hs
    cases hq : s.mJobQueue with
    | zero => rw [hq] at hs; cases hs
    | succ q =>
      rw [hq] at hs
      obtain rfl := Except.ok.inj hs
      exact hkeep { s with mJobQueue := q } _ rfl rfl rfl
  | dispatching => simp only [hp] at hs; cases hs

theorem answered_onEvRequest_iff (h : s.Inv) : (onEvRequest evbuffer_remove s i request).Answered ↔
    s.InTime (.request i request) := by
  have hlog : (onEvRequest evbuffer_remove s i request).Answered ↔ s.Answered ∧
      (fire evbuffer_remove s.router (s.mThreads i).onrequest request).Answered := by
    simp [Answered, onEvRequest, or_imp, forall_and]
  rw [hlog, and_iff_right h.answered, fire_answered_iff, ← h.bound_iff]
  rfl

theorem step_request (hs : step evbuffer_remove s (.request i request) = .ok s') :
    s' = onEvRequest evbuffer_remove s i request := by
  unfold step at hs
  simp only [] at hs
  split at hs
  · exact (Except.ok.inj hs).symm
  · cases hs

theorem Inv.step {a : Action n} (h : s.Inv) (hc : s.InTime a) (hs : step evbuffer_remove s a = .ok s') : s'.Inv := by
  cases a with
  | main => exact h.main hs
  | work i => exact h.work hs
  | request i request =>
    obtain rfl := step_request hs
    exact ⟨h.handler, (answered_onEvRequest_iff h).2 hc⟩
  | route route =>
    unfold HttpServer.step at hs
    simp only [] at hs
    split at hs
    · obtain rfl := Except.ok.inj hs
      exact h.next rfl h.handler
    · cases hs

/-- In every state of a run the requests are all answered iff each came to a thread that was bound, with a
length that can be told if it needs one. -/
theorem answered_iff (evbuffer_remove : Evbuffer → Nat → Removed) (n : Nat) (tr : List (Action n × HttpServer n))
    (hrun : Run (Ok (step evbuffer_remove)) (new n) tr) :
    EachState Answered (new n) tr ↔ EachStep InTime (new n) tr := by
  refine Run.eachState_iff (I := Inv) (fun _ h => h.answered) (fun _ _ _ h hc hs => h.step hc hs)
    (fun s a s' h hs hp => ?_) ⟨fun _ => rfl, fun _ hx => absurd hx List.not_mem_nil⟩ hrun
  cases a with
  | main => trivial
  | work i => trivial
  | request i request =>
    obtain rfl := step_request hs
    exact (answered_onEvRequest_iff h).1 hp
  | route route => trivial

/-- The constructor of a server with one thread, up to the end of the second loop. -/
def constructed : List (Action 1) := [.main, .work 0, .main, .main, .work 0, .main, .main, .main]

/-- A request that comes after the constructor finds no route and is answered. -/
theorem answered_constructed : ∃ tr,
    exec (step removeFront) (new 1) (constructed ++ [.request 0 (oneByte ("Content-Length".toList, "1".toList))]) = .ok tr ∧
      EachState Answered (new 1) tr := by
  have hg : Goes (step removeFront) InTime (fun _ => True) (new 1)
      (constructed ++ [.request 0 (oneByte ("Content-Length".toList, "1".toList))]) := by decide
  obtain ⟨tr, htr, hc, -⟩ := hg.exec
  exact ⟨tr, htr, (answered_iff removeFront 1 tr (Run.of_exec htr)).2 hc⟩

/-- The thread has its job, and a request comes before the second loop. -/
theorem not_answered_early : ∃ tr, exec (step removeFront) (new 1)
      [.main, .work 0, .main, .main, .work 0, .request 0 (oneByte ("Content-Length".toList, "1".toList))] = .ok tr ∧
    ¬ EachState Answered (new 1) tr := by
  have hg : Goes (step removeFront) (fun _ _ => True) (fun s => ¬ s.Answered) (new 1)
      [.main, .work 0, .main, .main, .work 0, .request 0 (oneByte ("Content-Length".toList, "1".toList))] := by decide
  obtain ⟨tr, htr, -, s, ho, hs⟩ := hg.exec
  exact ⟨tr, htr, fun h => ho (hs _ h)⟩

end HttpServer

end ChCppUtils.Http.Server.Startup
