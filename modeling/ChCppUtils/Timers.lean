import ChCppUtils.Basic
import ChCppUtils.Lib.Runs
import Mathlib.Data.List.Perm.Basic

/-!
# The jobs of a `Timer` (timer.cpp)

Each `create_` adds a dispatch job to the pool of the timer, which has one worker. `restart` adds one of its
own and then calls `create_`. The worker may stay in one dispatch as long as events are armed, so that the
jobs of the restarts pile up (`restarts_pile_up`). They do not where the worker takes the first job of a restart
before its second is added (`backlog_bounded`), which it cannot do where the callback restarts
(`not_apart_of_callback`).
-/

namespace ChCppUtils.Timers

open Runs

/-- The libevent event of a timer. -/
inductive Event where
  | pending
  | expired
deriving DecidableEq, Repr

/-- `class TimerEvent`; `mEvent` is null while a call makes it. -/
structure TimerEvent where
  mEvent : Option Event
deriving DecidableEq, Repr

/-- The worker of the pool: in `threadGetNextJob_`; in the `event_base_dispatch` of `_timerRoutine`; there, in
the callback of a timer. -/
inductive Worker where
  | fetching
  | dispatching
  | callback (i : Nat)
deriving DecidableEq, Repr

def Worker.inCallback : Worker → Bool
  | .callback _ => true
  | .fetching | .dispatching => false

/-- Who calls: the callback that the worker is in, or another thread. -/
inductive Caller where
  | callback
  | other
deriving DecidableEq, Repr

inductive Function where
  | create
  | restart
deriving DecidableEq, Repr

/-- Where a call is: `restart` has freed the event; `create_` begins; it has added the event. -/
inductive Stage where
  | freed
  | making
  | added
deriving DecidableEq, Repr

/-- A call that has not returned, for the timer with the number `event`. -/
structure Call where
  function : Function
  event : Nat
  stage : Stage
  caller : Caller
deriving DecidableEq, Repr

/-- `class Timer`: the timers created, the jobs of the pool that wait, each with its timer, the worker, and
the calls that are going on. -/
structure Timer where
  events : List TimerEvent
  mJobQueue : List Nat
  worker : Worker
  calls : List Call
deriving DecidableEq, Repr

/-- A call, and the next step of one; the worker takes a job; a timer expires; its callback returns; so does
`event_base_dispatch`. -/
inductive Action where
  | create (caller : Caller)
  | restart (caller : Caller) (i : Nat)
  | go (k : Nat)
  | take
  | expire (i : Nat)
  | leave
  | finish
deriving DecidableEq, Repr

namespace Timer

def new : Timer := ⟨[], [], .fetching, []⟩

def addJob (s : Timer) (event : Nat) : Timer := { s with mJobQueue := s.mJobQueue ++ [event] }

def setEvent (s : Timer) (i : Nat) (event : Option Event) : Timer := { s with events := s.events.set i ⟨event⟩ }

/-- A callback calls one function after the other. -/
def CanCall (s : Timer) : Caller → Prop
  | .callback => s.worker.inCallback ∧ ∀ c ∈ s.calls, c.caller ≠ .callback
  | .other => True

instance (s : Timer) (caller : Caller) : Decidable (s.CanCall caller) :=
  match caller with
  | .callback => inferInstanceAs (Decidable (_ ∧ _))
  | .other => .isTrue trivial

/-- `create(tv, onTimerEvent, this_)`, up to `create_`. -/
def create (s : Timer) (caller : Caller) : Res Timer :=
  if s.CanCall caller then
    pure { s with
      events := s.events ++ [⟨none⟩]
      calls := ⟨.create, s.events.length, .making, caller⟩ :: s.calls }
  else throw .badAnswer

/-- `restart(event)`, up to its `addJob`; a null event is followed. -/
def restart (s : Timer) (caller : Caller) (i : Nat) : Res Timer :=
  if s.CanCall caller then
    match s.events[i]? with
    | none => throw .badAnswer
    | some ⟨none⟩ => throw .nullDeref
    | some ⟨some _⟩ => pure ({ s with calls := ⟨.restart, i, .freed, caller⟩ :: s.calls }.setEvent i none)
  else throw .badAnswer

def go (s : Timer) (k : Nat) : Res Timer :=
  match s.calls[k]? with
  | none => throw .badAnswer
  | some c =>
    let calls := s.calls.eraseIdx k
    match c.stage with
    | .freed => pure ({ s with calls := { c with stage := .making } :: calls }.addJob c.event)
    | .making => pure ({ s with calls := { c with stage := .added } :: calls }.setEvent c.event (some .pending))
    | .added => pure ({ s with calls := calls }.addJob c.event)

def take (s : Timer) : Res Timer :=
  match s.worker, s.mJobQueue with
  | .fetching, _ :: mJobQueue => pure { s with mJobQueue := mJobQueue, worker := .dispatching }
  | _, _ => throw .badAnswer

def expire (s : Timer) (i : Nat) : Res Timer :=
  if s.worker = .dispatching ∧ s.events[i]? = some ⟨some .pending⟩ then
    pure ({ s with worker := .callback i }.setEvent i (some .expired))
  else throw .badAnswer

def leave (s : Timer) : Res Timer :=
  match s.worker with
  | .callback _ =>
    if ∀ c ∈ s.calls, c.caller ≠ .callback then pure { s with worker := .dispatching } else throw .badAnswer
  | .fetching | .dispatching => throw .badAnswer

/-- The dispatch ends when no event is pending. -/
def finish (s : Timer) : Res Timer :=
  if s.worker = .dispatching ∧ ∀ e ∈ s.events, e.mEvent ≠ some .pending then pure { s with worker := .fetching }
  else throw .badAnswer

def step (s : Timer) : Action → Res Timer
  | .create caller => s.create caller
  | .restart caller i => s.restart caller i
  | .go k => s.go k
  | .take => s.take
  | .expire i => s.expire i
  | .leave => s.leave
  | .finish => s.finish

/-- No more jobs wait than there are timers. -/
def Bounded (s : Timer) : Prop := s.mJobQueue.length ≤ s.events.length

/-- The worker has taken all jobs that were added for the timer. -/
def Taken (s : Timer) (event : Nat) : Prop := event ∉ s.mJobQueue

/-- `restart` is called when the jobs of the timer have been taken, and no other call for it is going on; and
`create_` adds the second of its two jobs when the first has been taken. -/
def Apart (s : Timer) : Action → Prop
  | .restart _ i => s.Taken i ∧ ∀ c ∈ s.calls, c.event ≠ i
  | .go k => ∀ c ∈ s.calls[k]?, c.function = .restart → c.stage = .added → s.Taken c.event
  | .create _ | .take | .expire _ | .leave | .finish => True

instance (s : Timer) : Decidable s.Bounded := inferInstanceAs (Decidable (_ ≤ _))

instance (s : Timer) (event : Nat) : Decidable (s.Taken event) := inferInstanceAs (Decidable (_ ∉ _))

instance (s : Timer) (a : Action) : Decidable (s.Apart a) :=
  match a with
  | .restart _ i => inferInstanceAs (Decidable (s.Taken i ∧ ∀ c ∈ s.calls, c.event ≠ i))
  | .go k => inferInstanceAs (Decidable (∀ c ∈ s.calls[k]?, _ → _ → _))
  | .create _ | .take | .expire _ | .leave | .finish => .isTrue trivial

/-! ### The invariant -/

variable {s s' : Timer} {caller : Caller} {i k : Nat} {c : Call}

/-- No timer has two jobs that wait, or a job that waits and a call that will add its first one. -/
structure Inv (s : Timer) : Prop where
  jobs : s.mJobQueue.Nodup
  made : ∀ i ∈ s.mJobQueue, i < s.events.length
  calls : (s.calls.map Call.event).Nodup
  events : ∀ c ∈ s.calls, c.event < s.events.length
  freed : ∀ c ∈ s.calls, c.stage = .freed → c.function = .restart
  first : ∀ c ∈ s.calls, c.function = .create ∨ c.stage = .freed → s.Taken c.event

theorem Inv.new : Inv new where
  jobs := List.nodup_nil
  made _ hi := absurd hi List.not_mem_nil
  calls := List.nodup_nil
  events _ hc := absurd hc List.not_mem_nil
  freed _ hc := absurd hc List.not_mem_nil
  first _ hc := absurd hc List.not_mem_nil

theorem Inv.bounded (h : s.Inv) : s.Bounded := by
  have hsub : s.mJobQueue ⊆ List.range s.events.length := fun i hi => List.mem_range.2 (h.made i hi)
  have hle := h.jobs.length_le_of_subset hsub
  rwa [List.length_range] at hle

theorem Inv.setEvent (h : s.Inv) (i : Nat) (event : Option Event) : (s.setEvent i event).Inv where
  jobs := h.jobs
  made j hj := by
    simp only [Timer.setEvent, List.length_set]
    exact h.made j hj
  calls := h.calls
  events c hc := by
    simp only [Timer.setEvent, List.length_set]
    exact h.events c hc
  freed := h.freed
  first := h.first

theorem Inv.call (h : s.Inv) (hlt : c.event < s.events.length) (hother : ∀ d ∈ s.calls, d.event ≠ c.event)
    (hstage : c.stage = .freed → c.function = .restart)
    (htaken : c.function = .create ∨ c.stage = .freed → s.Taken c.event) :
    Inv { s with calls := c :: s.calls } where
  jobs := h.jobs
  made := h.made
  calls := by
    refine List.nodup_cons.2 ⟨fun hm => ?_, h.calls⟩
    obtain ⟨d, hd, he⟩ := List.mem_map.1 hm
    exact hother d hd he
  events d hd := by
    rcases List.mem_cons.1 hd with rfl | hd
    · exact hlt
    · exact h.events d hd
  freed d hd := by
    rcases List.mem_cons.1 hd with rfl | hd
    · exact hstage
    · exact h.freed d hd
  first d hd := by
    rcases List.mem_cons.1 hd with rfl | hd
    · exact htaken
    · exact h.first d hd

theorem Inv.create (h : s.Inv) (hs : s.create caller = .ok s') : s'.Inv := by
  unfold Timer.create at hs
  split at hs
  swap
  · cases hs
  obtain rfl := Except.ok.inj hs
  have hgrown : Inv { s with events := s.events ++ [⟨none⟩] } := by
    refine ⟨h.jobs, fun i hi => ?_, h.calls, fun c hc => ?_, h.freed, h.first⟩
    · have := h.made i hi
      rw [List.length_append]
      omega
    · have := h.events c hc
      rw [List.length_append]
      omega
  refine hgrown.call (c := ⟨.create, s.events.length, .making, caller⟩) (by simp) (fun d hd => ?_) (by simp)
    fun _ hm => ?_
  · exact Nat.ne_of_lt (h.events d hd)
  · exact Nat.lt_irrefl _ (h.made _ hm)

theorem Inv.restart (h : s.Inv) (hc : s.Apart (.restart caller i)) (hs : s.restart caller i = .ok s') : s'.Inv := by
  obtain ⟨htaken, hother⟩ := hc
  unfold Timer.restart at hs
  split at hs
  swap
  · cases hs
  split at hs
  · cases hs
  · cases hs
  · rename_i hi
    obtain rfl := Except.ok.inj hs
    have hlt := (List.getElem?_eq_some_iff.1 hi).1
    exact (h.call (c := ⟨.restart, i, .freed, caller⟩) hlt hother (fun _ => rfl) fun _ => htaken).setEvent i none

/-- What the other calls are for is not what this one is for. -/
theorem Inv.event_ne (h : s.Inv) (hk : s.calls[k]? = some c) : ∀ d ∈ s.calls.eraseIdx k, d.event ≠ c.event := by
  obtain ⟨hlt, rfl⟩ := List.getElem?_eq_some_iff.1 hk
  have hperm := (List.getElem_cons_eraseIdx_perm hlt).map Call.event
  have hnodup := List.nodup_cons.1 (hperm.nodup_iff.2 h.calls)
  intro d hd he
  exact hnodup.1 (he ▸ List.mem_map_of_mem hd)

theorem Inv.erase (h : s.Inv) (k : Nat) : Inv { s with calls := s.calls.eraseIdx k } where
  jobs := h.jobs
  made := h.made
  calls := h.calls.sublist ((List.eraseIdx_sublist s.calls k).map Call.event)
  events c hc := h.events c (List.mem_of_mem_eraseIdx hc)
  freed c hc := h.freed c (List.mem_of_mem_eraseIdx hc)
  first c hc := h.first c (List.mem_of_mem_eraseIdx hc)

theorem Inv.stage (h : s.Inv) (hk : s.calls[k]? = some c) {stage : Stage} (hstage : stage ≠ .freed)
    (htaken : c.function = .create → s.Taken c.event) :
    Inv { s with calls := { c with stage := stage } :: s.calls.eraseIdx k } := by
  refine (h.erase k).call (h.events c (List.mem_of_getElem? hk)) (fun d hd => h.event_ne hk d hd) (fun he => absurd he hstage) ?_
  rintro (hf | hf)
  · exact htaken hf
  · exact absurd hf hstage

/-- A job is added for a timer none of whose jobs waits; a call that has yet to add its first is not for it. -/
theorem Inv.addJob (h : s.Inv) {event : Nat} (hlt : event < s.events.length) (htaken : s.Taken event)
    (hother : ∀ c ∈ s.calls, c.function = .create ∨ c.stage = .freed → c.event ≠ event) : (s.addJob event).Inv where
  jobs := by
    refine List.nodup_append.2 ⟨h.jobs, by simp, fun i hi j hj => ?_⟩
    rw [List.mem_singleton.1 hj]
    exact fun he => htaken (he ▸ hi)
  made i hi := by
    rcases List.mem_append.1 hi with hi | hi
    · exact h.made i hi
    · rw [List.mem_singleton.1 hi]; exact hlt
  calls := h.calls
  events := h.events
  freed := h.freed
  first c hc hfirst hm := by
    rcases List.mem_append.1 hm with hm | hm
    · exact h.first c hc hfirst hm
    · exact hother c hc hfirst (List.mem_singleton.1 hm)

/-- At two of the three places of a call it adds a job. The one of `create` is the first of the timer; the second one
of a restart finds the first taken. -/
theorem Inv.go (h : s.Inv) (hc : s.Apart (.go k)) (hs : s.go k = .ok s') : s'.Inv := by
  unfold Timer.go at hs
  cases hk : s.calls[k]? with
  | none => rw [hk] at hs; cases hs
  | some c =>
    have hm := List.mem_of_getElem? hk
    have hlt := h.events c hm
    have hother := h.event_ne hk
    simp only [hk] at hs
    cases hst : c.stage with
    | freed =>
      simp only [hst] at hs
      obtain rfl := Except.ok.inj hs
      have hrestart := h.freed c hm hst
      have hcreate : c.function ≠ .create := by rw [hrestart]; decide
      have hstage := h.stage hk (show Stage.making ≠ .freed by decide) fun hf => absurd hf hcreate
      refine hstage.addJob hlt (h.first c hm (.inr hst)) fun d hd hfirst => ?_
      rcases List.mem_cons.1 hd with rfl | hd
      · exact absurd hfirst (by simp [hrestart])
      · exact hother d hd
    | making =>
      simp only [hst] at hs
      obtain rfl := Except.ok.inj hs
      exact (h.stage hk (by decide) fun hf => h.first c hm (.inl hf)).setEvent _ _
    | added =>
      simp only [hst] at hs
      obtain rfl := Except.ok.inj hs
      refine (h.erase k).addJob hlt ?_ fun d hd _ => hother d hd
      cases hf : c.function with
      | create => exact h.first c hm (.inl hf)
      | restart => exact hc c hk hf hst

theorem Inv.take (h : s.Inv) (hs : s.take = .ok s') : s'.Inv := by
  unfold Timer.take at hs
  split at hs
  · rename_i _ _ _ mJobQueue _ hq
    obtain rfl := Except.ok.inj hs
    have hsub : ∀ i ∈ mJobQueue, i ∈ s.mJobQueue := fun i hi => by rw [hq]; exact List.mem_cons_of_mem _ hi
    have hjobs := h.jobs
    rw [hq] at hjobs
    exact ⟨(List.nodup_cons.1 hjobs).2, fun i hi => h.made i (hsub i hi), h.calls, h.events, h.freed,
      fun c hc hfirst hm => h.first c hc hfirst (hsub _ hm)⟩
  · cases hs

theorem Inv.worker (h : s.Inv) (worker : Worker) : Inv { s with worker := worker } :=
  ⟨h.jobs, h.made, h.calls, h.events, h.freed, h.first⟩

theorem Inv.expire (h : s.Inv) (hs : s.expire i = .ok s') : s'.Inv := by
  unfold Timer.expire at hs
  split at hs
  · obtain rfl := Except.ok.inj hs
    exact (h.worker _).setEvent i _
  · cases hs

theorem Inv.leave (h : s.Inv) (hs : s.leave = .ok s') : s'.Inv := by
  unfold Timer.leave at hs
  split at hs
  · split at hs
    · obtain rfl := Except.ok.inj hs
      exact h.worker _
    · cases hs
  · cases hs
  · cases hs

theorem Inv.finish (h : s.Inv) (hs : s.finish = .ok s') : s'.Inv := by
  unfold Timer.finish at hs
  split at hs
  · obtain rfl := Except.ok.inj hs
    exact h.worker _
  · cases hs

theorem Inv.step {a : Action} (h : s.Inv) (hc : s.Apart a) (hs : s.step a = .ok s') : s'.Inv := by
  cases a with
  | create caller => exact h.create hs
  | restart caller i => exact h.restart hc hs
  | go k => exact h.go hc hs
  | take => exact h.take hs
  | expire i => exact h.expire hs
  | leave => exact h.leave hs
  | finish => exact h.finish hs

/-- If the worker takes the jobs of a timer before each restart, and the first job of the restart before its second
is added, no more jobs wait than there are timers. -/
theorem backlog_bounded (tr : List (Action × Timer)) (hrun : Run (Ok step) new tr) (hapart : EachStep Apart new tr) :
    EachState Bounded new tr :=
  Run.eachState_of (I := Inv) (fun _ h => h.bounded) (fun _ _ _ h hc hs => h.step hc hs) Inv.new hrun hapart

/-- `create`, and the worker takes the job. -/
def created : List Action := [.create .other, .go 0, .go 0, .take]

/-- The timer expires, and its callback restarts it. -/
def period : List Action := [.expire 0, .restart .callback 0, .go 0, .go 0, .go 0, .leave]

/-- A timer that is restarted from another thread once its event has expired and the dispatch is over. -/
theorem backlog_bounded_restart : ∃ tr,
    exec step new (created ++ [.expire 0, .leave, .finish, .restart .other 0, .go 0, .take, .finish, .go 0, .go 0]) =
      .ok tr ∧ EachState Bounded new tr := by
  have hg : Goes step Apart (fun _ => True) new
      (created ++ [.expire 0, .leave, .finish, .restart .other 0, .go 0, .take, .finish, .go 0, .go 0]) := by decide
  obtain ⟨tr, htr, hc, -⟩ := hg.exec
  exact ⟨tr, htr, backlog_bounded tr (Run.of_exec htr) hc⟩

/-- After one period two jobs wait for the one timer. -/
theorem not_backlog_bounded : ∃ tr, exec step new (created ++ period) = .ok tr ∧ ¬ EachState Bounded new tr := by
  have hg : Goes step (fun _ _ => True) (fun s => ¬ s.Bounded) new (created ++ period) := by decide
  obtain ⟨tr, htr, -, s, ho, hs⟩ := hg.exec
  exact ⟨tr, htr, fun h => ho (hs _ h)⟩

/-! ### Restarts from the callback -/

/-- The callback that calls has the worker, and the first job of its restart waits. -/
def Within (s : Timer) : Prop := ∀ c ∈ s.calls, c.caller = .callback →
  s.worker.inCallback ∧ (c.function = .restart → c.stage ≠ .freed → ¬ s.Taken c.event)

theorem Within.call (h : s.Within) (hcan : s.CanCall c.caller) (hc : c.function = .restart → c.stage = .freed) :
    Within { s with calls := c :: s.calls } := by
  intro d hd hcaller
  rcases List.mem_cons.1 hd with rfl | hd
  · rw [hcaller] at hcan
    exact ⟨hcan.1, fun hf hst => absurd (hc hf) hst⟩
  · exact h d hd hcaller

/-- What was added for a timer waits for the worker. -/
theorem Within.go (h : s.Within) (hs : s.go k = .ok s') : s'.Within := by
  unfold Timer.go at hs
  cases hk : s.calls[k]? with
  | none => rw [hk] at hs; cases hs
  | some c =>
    have hm := List.mem_of_getElem? hk
    have herase : Within { s with calls := s.calls.eraseIdx k } :=
      fun d hd hcaller => h d (List.mem_of_mem_eraseIdx hd) hcaller
    have hadd : ∀ d event, ¬ s.Taken d → ¬ (s.addJob event).Taken d :=
      fun d event hd hn => hd fun hin => hn (List.mem_append_left _ hin)
    simp only [hk] at hs
    cases hst : c.stage with
    | freed =>
      simp only [hst] at hs
      obtain rfl := Except.ok.inj hs
      intro d hd hcaller
      rcases List.mem_cons.1 hd with rfl | hd
      · exact ⟨(h c hm hcaller).1, fun _ _ hn => hn (List.mem_append_right _ (List.mem_singleton.2 rfl))⟩
      · exact ⟨(herase d hd hcaller).1, fun hf hdst => hadd _ _ ((herase d hd hcaller).2 hf hdst)⟩
    | making =>
      simp only [hst] at hs
      obtain rfl := Except.ok.inj hs
      intro d hd hcaller
      rcases List.mem_cons.1 hd with rfl | hd
      · exact ⟨(h c hm hcaller).1, fun hf _ => (h c hm hcaller).2 hf (by rw [hst]; decide)⟩
      · exact herase d hd hcaller
    | added =>
      simp only [hst] at hs
      obtain rfl := Except.ok.inj hs
      intro d hd hcaller
      exact ⟨(herase d hd hcaller).1, fun hf hdst => hadd _ _ ((herase d hd hcaller).2 hf hdst)⟩

/-- Outside of the callback it does not call. -/
theorem Within.of_not_inCallback (h : s.Within) (hw : s.worker.inCallback = false) (hcalls : s'.calls = s.calls) :
    s'.Within := by
  intro c hc hcaller
  rw [hcalls] at hc
  have hin := (h c hc hcaller).1
  rw [hw] at hin
  cases hin

theorem Within.step {a : Action} (h : s.Within) (hs : s.step a = .ok s') : s'.Within := by
  cases a with
  | create caller =>
    have hs : s.create caller = .ok s' := hs
    unfold Timer.create at hs
    split at hs
    · rename_i hcan
      obtain rfl := Except.ok.inj hs
      exact h.call (c := ⟨.create, s.events.length, .making, caller⟩) hcan nofun
    · cases hs
  | restart caller i =>
    have hs : s.restart caller i = .ok s' := hs
    unfold Timer.restart at hs
    split at hs
    swap
    · cases hs
    rename_i hcan
    split at hs
    · cases hs
    · cases hs
    · obtain rfl := Except.ok.inj hs
      exact h.call (c := ⟨.restart, i, .freed, caller⟩) hcan fun _ => rfl
  | go k => exact h.go hs
  | take =>
    have hs : s.take = .ok s' := hs
    unfold Timer.take at hs
    split at hs
    · rename_i hw _
      obtain rfl := Except.ok.inj hs
      exact h.of_not_inCallback (by rw [hw]; rfl) rfl
    · cases hs
  | expire i =>
    have hs : s.expire i = .ok s' := hs
    unfold Timer.expire at hs
    split at hs
    · rename_i hw
      obtain rfl := Except.ok.inj hs
      exact h.of_not_inCallback (by rw [hw.1]; rfl) rfl
    · cases hs
  | leave =>
    have hs : s.leave = .ok s' := hs
    unfold Timer.leave at hs
    split at hs
    · split at hs
      · rename_i hnone
        obtain rfl := Except.ok.inj hs
        exact fun c hc hcaller => absurd hcaller (hnone c hc)
      · cases hs
    · cases hs
    · cases hs
  | finish =>
    have hs : s.finish = .ok s' := hs
    unfold Timer.finish at hs
    split at hs
    · rename_i hw
      obtain rfl := Except.ok.inj hs
      exact h.of_not_inCallback (by rw [hw.1]; rfl) rfl
    · cases hs

/-- The second job of a restart from the callback never finds the first one taken: the worker is in the callback. -/
theorem not_apart_of_callback (h : Reach (Ok step) new s) (hk : s.calls[k]? = some ⟨.restart, i, .added, .callback⟩) :
    ¬ s.Apart (.go k) := by
  have hwithin : s.Within := h.invariant (fun c hc => absurd hc List.not_mem_nil) fun _ _ _ h hs => h.step hs
  intro hc
  exact (hwithin _ (List.mem_of_getElem? hk) rfl).2 rfl nofun (hc _ hk rfl rfl)

/-- The worker in its first dispatch, with one timer that was restarted `k` times. -/
def restarted (k : Nat) : Timer := ⟨[⟨some .pending⟩], List.replicate (2 * k) 0, .dispatching, []⟩

theorem reach_period {k : Nat} (h : Reach (Ok step) new (restarted k)) : Reach (Ok step) new (restarted (k + 1)) := by
  have hqueue : List.replicate (2 * (k + 1)) 0 = (List.replicate (2 * k) 0 ++ [0]) ++ [0] := by
    simp [Nat.mul_succ, List.replicate_add]
  have hexpire := h.step (show step (restarted k) (.expire 0) = .ok _ from rfl)
  have hrestart := hexpire.step (show step _ (.restart .callback 0) = .ok _ from rfl)
  have hadd := hrestart.step (show step _ (.go 0) = .ok _ from rfl)
  have hmake := hadd.step (show step _ (.go 0) = .ok _ from rfl)
  have hcreate := hmake.step (show step _ (.go 0) = .ok _ from rfl)
  have hleave := hcreate.step (show step _ .leave = .ok _ from rfl)
  rw [restarted, hqueue]
  exact hleave

/-- With each period two more jobs wait. -/
theorem restarts_pile_up (k : Nat) : Reach (Ok step) new (restarted k) := by
  induction k with
  | zero =>
    have hg : Goes step (fun _ _ => True) (fun s => s = restarted 0) new created := by decide
    obtain ⟨s, hs, rfl⟩ := hg.reach_ok
    exact hs
  | succ k ih => exact reach_period ih

end Timer

end ChCppUtils.Timers
