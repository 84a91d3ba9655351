import ChCppUtils.Lib.UnorderedMap
import ChCppUtils.ThreadPool.Pool

/-!
# `Logger` (logger.hpp)

Any number of threads stream fragments and line terminators into one logger; its own thread prints the
lines, and the destructor those that are left. An action is one critical section of `mQMutex`, or what the
logger's thread or the owner does between two of them. The lines printed are those that the threads have
terminated, in that order, and each has the fragments of its own thread (`Delivered`).
-/

namespace ChCppUtils

open Runs
open ThreadPool (Semaphore)

namespace Logger

/-- Where the logger's thread is in `threadFunc_`: before the first `mSemaphore.notify()`; at the test of
`shutdown`; at that of `mLogQueue.empty ()`; before `mQMutex.lock ()`; with `log` taken, not printed, and
the mutex unlocked again; in `mQCondition.wait_for`; out of the loop; after the second `notify()`. -/
inductive Phase where
  | booting
  | checking
  | looking
  | popping
  | printing (log : Str)
  | waiting
  | leaving
  | exited
deriving DecidableEq, Repr

/-- Where the thread is that owns the logger: in the `mSemaphore.wait()` of the constructor; between the two;
in the `wait()` of the destructor; in its loop over `mLogQueue`; after it. -/
inductive Main where
  | constructing
  | live
  | stopping
  | draining
  | done
deriving DecidableEq, Repr

/-- One call of `operator<<`. `text` is what inserting its argument appends to the stream of the thread;
`entered` and `next` are what inserting the time appends, if the stream is made here, and if a line begins
after this call. -/
structure Insertion (τ : Type) where
  thread : τ
  text : Str
  entered : Str
  next : Str
deriving DecidableEq, Repr

end Logger

open Logger in
/-- `class Logger`; the streams are their text. `cout` has the lines printed; `past`, latest first, has the
calls that came before `shutdown`, with those for line terminators marked: the code keeps no such list, `step`
does. -/
structure Logger (τ : Type) where
  shutdown : Bool
  mLogMap : UnorderedMap τ Str
  mLogQueue : List Str
  mSemaphore : Semaphore
  thread : Phase
  main : Main
  cout : List Str
  past : List (Insertion τ × Bool)

namespace Logger

/-- `log << a` and `log << endl` in some thread, and the next steps of the logger's thread and of the owner. -/
inductive Action (τ : Type) where
  | insert (i : Insertion τ)
  | terminate (i : Insertion τ)
  | work
  | main
deriving DecidableEq, Repr

variable {τ : Type} [DecidableEq τ]

def new (τ : Type) : Logger τ := ⟨false, ∅, [], ⟨0⟩, .booting, .constructing, [], []⟩

/-- `clear()`: the stream of the thread begins a line. -/
def clear (m : UnorderedMap τ Str) (thread : τ) (time : Str) : UnorderedMap τ Str :=
  AList.insert thread (time ++ " | ".toList) m

def getThreadEntry (m : UnorderedMap τ Str) (thread : τ) (time : Str) : UnorderedMap τ Str × Str :=
  match m.lookup thread with
  | some entry => (m, entry)
  | none => (clear (m.emplace thread []) thread time, time ++ " | ".toList)

/-- `operator<<(const T &a)` -/
def insert (s : Logger τ) (i : Insertion τ) : Logger τ :=
  if s.shutdown then s
  else
    let (m, threadEntry) := getThreadEntry s.mLogMap i.thread i.entered
    { s with mLogMap := AList.insert i.thread (threadEntry ++ i.text) m }

/-- `operator<<(std::ostream& (*pf) (std::ostream&))` -/
def terminate (s : Logger τ) (i : Insertion τ) : Logger τ :=
  if s.shutdown then s
  else
    let (m, threadEntry) := getThreadEntry s.mLogMap i.thread i.entered
    let log := threadEntry ++ i.text
    { s with
      mLogMap := clear (AList.insert i.thread log m) i.thread i.next
      mLogQueue := s.mLogQueue ++ [log] }

/-- `threadFunc_`, from wherever the thread is. A wait on `mQCondition` may end at any time. -/
def work (s : Logger τ) : Res (Logger τ) :=
  match s.thread with
  | .booting => pure { s with mSemaphore := s.mSemaphore.notify, thread := .checking }
  | .checking => pure { s with thread := if s.shutdown then .leaving else .looking }
  | .looking => pure { s with thread := if s.mLogQueue = [] then .waiting else .popping }
  | .popping =>
    match s.mLogQueue with
    | log :: mLogQueue => pure { s with mLogQueue := mLogQueue, thread := .printing log }
    | [] => throw .endDeref
  | .printing log => pure { s with cout := s.cout ++ [log], thread := .checking }
  | .waiting => pure { s with thread := .checking }
  | .leaving => pure { s with mSemaphore := s.mSemaphore.notify, thread := .exited }
  | .exited => throw .badAnswer

/-- The constructor and the destructor, which may begin at any time. -/
def mainStep (s : Logger τ) : Res (Logger τ) :=
  match s.main with
  | .constructing =>
    match s.mSemaphore.wait with
    | some sem => pure { s with mSemaphore := sem, main := .live }
    | none => throw .badAnswer
  | .live => pure { s with shutdown := true, main := .stopping }
  | .stopping =>
    match s.mSemaphore.wait with
    | some sem => pure { s with mSemaphore := sem, mLogMap := ∅, main := .draining }
    | none => throw .badAnswer
  | .draining =>
    match s.mLogQueue with
    | log :: mLogQueue => pure { s with mLogQueue := mLogQueue, cout := s.cout ++ [log] }
    | [] => pure { s with main := .done }
  | .done => throw .badAnswer

/-- Nobody streams into a logger that is not constructed yet, or gone. -/
def act (s : Logger τ) : Action τ → Res (Logger τ)
  | .insert i => if s.main = .constructing ∨ s.main = .done then throw .badAnswer else pure (s.insert i)
  | .terminate i => if s.main = .constructing ∨ s.main = .done then throw .badAnswer else pure (s.terminate i)
  | .work => s.work
  | .main => s.mainStep

/-- The calls that came before `shutdown`, with this action. -/
def pastWith (s : Logger τ) : Action τ → List (Insertion τ × Bool)
  | .insert i => if s.shutdown then s.past else (i, false) :: s.past
  | .terminate i => if s.shutdown then s.past else (i, true) :: s.past
  | .work | .main => s.past

def step (s : Logger τ) (a : Action τ) : Res (Logger τ) := do
  let s' ← s.act a
  return { s' with past := s.pastWith a }

/-! ### What the threads have streamed -/

/-- The fragments that the thread has streamed since it last terminated a line. -/
def since (thread : τ) : List (Insertion τ × Bool) → List Str
  | [] => []
  | (i, ends) :: past =>
    if i.thread = thread then if ends then [] else since thread past ++ [i.text] else since thread past

/-- The time of the line that the thread is at. -/
def time? (thread : τ) : List (Insertion τ × Bool) → Option Str
  | [] => none
  | (i, ends) :: past =>
    if i.thread = thread then some (if ends then i.next else (time? thread past).getD i.entered) else time? thread past

/-- The lines terminated, oldest first: each with its time and the fragments of its thread. -/
def lines : List (Insertion τ × Bool) → List Str
  | [] => []
  | (i, ends) :: past =>
    if ends then lines past ++
      [(time? i.thread past).getD i.entered ++ " | ".toList ++ (since i.thread past ++ [i.text]).flatten]
    else lines past

/-! ### The invariant -/

variable {s s' : Logger τ} {i : Insertion τ} {t : τ}

/-- The text of the line that the thread is at, if it has a stream. -/
def current (thread : τ) (past : List (Insertion τ × Bool)) : Option Str :=
  (time? thread past).map fun time => time ++ " | ".toList ++ (since thread past).flatten

/-- The line that the logger's thread has taken and not printed. -/
def inHand (s : Logger τ) : List Str :=
  match s.thread with
  | .printing log => [log]
  | _ => []

/-- How often the logger's thread has notified the semaphore. -/
def Phase.notified : Phase → Nat
  | .booting => 0
  | .checking | .looking | .popping | .printing _ | .waiting | .leaving => 1
  | .exited => 2

/-- How many waits on the semaphore the owner is through with. -/
def Main.waited : Main → Nat
  | .constructing => 0
  | .live | .stopping => 1
  | .draining | .done => 2

def Main.inDestructor : Main → Bool
  | .constructing | .live => false
  | .stopping | .draining | .done => true

structure Inv (s : Logger τ) : Prop where
  printed : s.cout ++ s.inHand ++ s.mLogQueue = lines s.past
  entries : s.shutdown = false → ∀ t, s.mLogMap.lookup t = current t s.past
  popping : s.thread = .popping → s.mLogQueue ≠ []
  semaphore : s.mSemaphore.count + s.main.waited = s.thread.notified
  shutdown : s.shutdown = s.main.inDestructor
  left : s.thread = .leaving ∨ s.thread = .exited → s.shutdown = true
  drained : s.main = .done → s.mLogQueue = []

/-! ### The steps of the streaming threads -/

theorem time?_cons (t : τ) (i : Insertion τ) (ends : Bool) (past : List (Insertion τ × Bool)) :
    time? t ((i, ends) :: past) =
      if i.thread = t then some (if ends then i.next else (time? t past).getD i.entered) else time? t past := rfl

theorem since_of_time? {past : List (Insertion τ × Bool)} (h : time? t past = none) : since t past = [] := by
  induction past with
  | nil => rfl
  | cons x past ih =>
    obtain ⟨i, ends⟩ := x
    rw [time?_cons] at h
    split at h
    · cases h
    · rename_i hne
      rw [since, if_neg hne, ih h]

/-- The stream that a thread finds, or makes. -/
def entry (s : Logger τ) (i : Insertion τ) : Str :=
  (time? i.thread s.past).getD i.entered ++ " | ".toList ++ (since i.thread s.past).flatten

theorem getThreadEntry_eq (h : s.Inv) (hs : s.shutdown = false) (i : Insertion τ) :
    (getThreadEntry s.mLogMap i.thread i.entered).2 = s.entry i ∧
      ∀ t, t ≠ i.thread → (getThreadEntry s.mLogMap i.thread i.entered).1.lookup t = s.mLogMap.lookup t := by
  have hold := h.entries hs i.thread
  unfold getThreadEntry entry
  rw [hold, current]
  cases ht : time? i.thread s.past with
  | none =>
    refine ⟨by simp [since_of_time? ht], fun t hne => ?_⟩
    simp only [Option.map_none, clear]
    rw [AList.lookup_insert_ne hne, UnorderedMap.lookup_emplace_ne hne]
  | some time => exact ⟨rfl, fun t hne => rfl⟩

theorem current_insert (t : τ) (s : Logger τ) (i : Insertion τ) : current t ((i, false) :: s.past) =
    if t = i.thread then some (s.entry i ++ i.text) else current t s.past := by
  rw [current, time?_cons, since]
  by_cases ht : t = i.thread
  · subst ht
    simp [entry]
  · rw [if_neg (Ne.symm ht), if_neg (Ne.symm ht), if_neg ht, current]

theorem current_terminate (t : τ) (s : Logger τ) (i : Insertion τ) : current t ((i, true) :: s.past) =
    if t = i.thread then some (i.next ++ " | ".toList) else current t s.past := by
  rw [current, time?_cons, since]
  by_cases ht : t = i.thread
  · subst ht
    simp
  · rw [if_neg (Ne.symm ht), if_neg (Ne.symm ht), if_neg ht, current]

theorem Inv.insert (h : s.Inv) (i : Insertion τ) :
    ({ s.insert i with past := s.pastWith (.insert i) } : Logger τ).Inv := by
  unfold Logger.insert pastWith
  split
  · exact h
  · rename_i hs
    have hs : s.shutdown = false := by simpa using hs
    obtain ⟨hentry, hother⟩ := getThreadEntry_eq h hs i
    refine ⟨h.printed, fun _ t => ?_, h.popping, h.semaphore, h.shutdown, h.left, h.drained⟩
    rw [current_insert]
    simp only []
    split
    · rename_i ht
      rw [ht, AList.lookup_insert, hentry]
    · rename_i ht
      rw [AList.lookup_insert_ne ht, hother t ht, h.entries hs t]

/-- The line that is queued is the one the thread has terminated. -/
theorem lines_terminate (s : Logger τ) (i : Insertion τ) :
    lines ((i, true) :: s.past) = lines s.past ++ [s.entry i ++ i.text] := by
  rw [lines, if_pos rfl, entry, List.flatten_append]
  simp

theorem Inv.terminate (h : s.Inv) (i : Insertion τ) :
    ({ s.terminate i with past := s.pastWith (.terminate i) } : Logger τ).Inv := by
  unfold Logger.terminate pastWith
  split
  · exact h
  · rename_i hs
    have hs : s.shutdown = false := by simpa using hs
    obtain ⟨hentry, hother⟩ := getThreadEntry_eq h hs i
    refine ⟨?_, fun _ t => ?_, fun _ => ?_, h.semaphore, h.shutdown, h.left, fun hm => ?_⟩
    · have hprinted := h.printed
      simp only []
      rw [lines_terminate, hentry, ← hprinted, inHand, inHand]
      simp
    · rw [current_terminate]
      simp only [clear]
      split
      · rename_i ht
        rw [ht, AList.lookup_insert]
      · rename_i ht
        rw [AList.lookup_insert_ne ht, AList.lookup_insert_ne ht, hother t ht, h.entries hs t]
    · simp
    · have hshut := h.shutdown
      rw [hs, show s.main = .done from hm] at hshut
      cases hshut

/-! ### The steps of the logger's thread and of the owner -/

/-- The logger's thread goes on to `p` with the same line in hand, or none. -/
theorem Inv.moves (h : s.Inv) {p : Phase} (hhand : ({ s with thread := p } : Logger τ).inHand = s.inHand)
    (hnotified : p.notified = s.thread.notified) (hpopping : p = .popping → s.mLogQueue ≠ [])
    (hleft : p = .leaving ∨ p = .exited → s.shutdown = true) : ({ s with thread := p } : Logger τ).Inv := by
  refine ⟨?_, h.entries, hpopping, ?_, h.shutdown, hleft, h.drained⟩
  · rw [hhand]
    exact h.printed
  · simp only []
    rw [hnotified]
    exact h.semaphore

theorem Inv.work (h : s.Inv) (hs : s.work = .ok s') : ({ s' with past := s.past } : Logger τ).Inv := by
  have hprinted := h.printed
  have hsem := h.semaphore
  unfold Logger.work at hs
  cases ht : s.thread with
  | booting =>
    simp only [ht] at hs hsem
    obtain rfl := Except.ok.inj hs
    refine ⟨by simpa [inHand, ht] using hprinted, h.entries, by simp, ?_, h.shutdown, by simp, h.drained⟩
    simp only [Semaphore.notify, Phase.notified] at hsem ⊢
    omega
  | checking =>
    simp only [ht] at hs
    obtain rfl := Except.ok.inj hs
    split
    · rename_i hshut
      exact h.moves (by simp [inHand, ht]) (by rw [ht]; rfl) (by simp) fun _ => hshut
    · exact h.moves (by simp [inHand, ht]) (by rw [ht]; rfl) (by simp) (by simp)
  | looking =>
    simp only [ht] at hs
    obtain rfl := Except.ok.inj hs
    split
    · exact h.moves (by simp [inHand, ht]) (by rw [ht]; rfl) (by simp) (by simp)
    · rename_i hq
      exact h.moves (by simp [inHand, ht]) (by rw [ht]; rfl) (fun _ => hq) (by simp)
  | popping =>
    simp only [ht] at hs hsem
    cases hq : s.mLogQueue with
    | nil => exact absurd hq (h.popping ht)
    | cons log mLogQueue =>
      rw [hq] at hs hprinted
      obtain rfl := Except.ok.inj hs
      refine ⟨by simpa [inHand, ht] using hprinted, h.entries, by simp, hsem, h.shutdown, by simp, fun hm => ?_⟩
      have := h.drained hm
      rw [hq] at this
      cases this
  | printing log =>
    simp only [ht] at hs hsem
    obtain rfl := Except.ok.inj hs
    exact ⟨by simpa [inHand, ht] using hprinted, h.entries, by simp, hsem, h.shutdown, by simp, h.drained⟩
  | waiting =>
    simp only [ht] at hs
    obtain rfl := Except.ok.inj hs
    exact h.moves (by simp [inHand, ht]) (by rw [ht]; rfl) (by simp) (by simp)
  | leaving =>
    simp only [ht] at hs hsem
    obtain rfl := Except.ok.inj hs
    have hshut := h.left (.inl ht)
    refine ⟨by simpa [inHand, ht] using hprinted, h.entries, by simp, ?_, h.shutdown, fun _ => hshut, h.drained⟩
    simp only [Semaphore.notify, Phase.notified] at hsem ⊢
    omega
  | exited =>
    simp only [ht] at hs
    cases hs

/-- The owner gets past its wait where the semaphore has been notified. -/
theorem wait_some {sem sem' : Semaphore} (h : sem.wait = some sem') : sem.count = sem'.count + 1 := by
  unfold Semaphore.wait at h
  split at h
  · cases h
  · obtain rfl := Option.some.inj h
    simp only []
    omega

theorem Inv.exited (h : s.Inv) (hm : s.main.waited = 2) : s.thread = .exited := by
  have hsem := h.semaphore
  rw [hm] at hsem
  cases ht : s.thread <;> simp [ht, Phase.notified] at hsem
  rfl

theorem Inv.main (h : s.Inv) (hs : s.mainStep = .ok s') : ({ s' with past := s.past } : Logger τ).Inv := by
  have hprinted := h.printed
  have hsem := h.semaphore
  have hshut := h.shutdown
  unfold Logger.mainStep at hs
  cases hm : s.main with
  | constructing =>
    simp only [hm] at hs hsem hshut
    split at hs
    · rename_i sem hw
      obtain rfl := Except.ok.inj hs
      have hcount := wait_some hw
      refine ⟨hprinted, h.entries, h.popping, ?_, hshut, h.left, by simp⟩
      simp only [Main.waited] at hsem ⊢
      omega
    · cases hs
  | live =>
    simp only [hm] at hs hsem
    obtain rfl := Except.ok.inj hs
    exact ⟨hprinted, by simp, h.popping, hsem, rfl, fun _ => rfl, by simp⟩
  | stopping =>
    simp only [hm] at hs hsem hshut
    split at hs
    · rename_i sem hw
      obtain rfl := Except.ok.inj hs
      have hcount := wait_some hw
      refine ⟨hprinted, fun hf => ?_, h.popping, ?_, hshut, h.left, by simp⟩
      · rw [show s.shutdown = true from hshut] at hf
        cases hf
      · simp only [Main.waited] at hsem ⊢
        omega
    · cases hs
  | draining =>
    have hexited := h.exited (by rw [hm]; rfl)
    simp only [hm] at hs hsem hshut
    cases hq : s.mLogQueue with
    | nil =>
      rw [hq] at hs hprinted
      obtain rfl := Except.ok.inj hs
      exact ⟨hprinted, h.entries, by simp [hexited], hsem, hshut, h.left, fun _ => rfl⟩
    | cons log mLogQueue =>
      rw [hq] at hs hprinted
      obtain rfl := Except.ok.inj hs
      exact ⟨by simpa [inHand, hexited] using hprinted, h.entries, by simp [hexited], hsem, hshut, h.left, by simp⟩
  | done =>
    simp only [hm] at hs
    cases hs

theorem act_insert (hs : s.act (.insert i) = .ok s') : s' = s.insert i := by
  unfold Logger.act at hs
  simp only [] at hs
  split at hs
  · cases hs
  · exact (Except.ok.inj hs).symm

theorem act_terminate (hs : s.act (.terminate i) = .ok s') : s' = s.terminate i := by
  unfold Logger.act at hs
  simp only [] at hs
  split at hs
  · cases hs
  · exact (Except.ok.inj hs).symm

theorem step_cases {a : Action τ} (hs : s.step a = .ok s') :
    ∃ s₁, s.act a = .ok s₁ ∧ s' = { s₁ with past := s.pastWith a } := by
  obtain ⟨s₁, hact, hs⟩ := Res.of_bind hs
  exact ⟨s₁, hact, (Except.ok.inj hs).symm⟩

theorem Inv.step {a : Action τ} (h : s.Inv) (hs : s.step a = .ok s') : s'.Inv := by
  obtain ⟨s₁, hact, rfl⟩ := step_cases hs
  cases a with
  | insert i =>
    obtain rfl := act_insert hact
    exact h.insert i
  | terminate i =>
    obtain rfl := act_terminate hact
    exact h.terminate i
  | work => exact h.work hact
  | main => exact h.main hact

theorem Inv.of_reach (h : Reach (Ok Logger.step) (new τ) s) : s.Inv :=
  h.invariant ⟨rfl, fun _ _ => rfl, by simp [new], rfl, rfl, by simp [new], by simp [new]⟩ fun _ _ _ h hs => h.step hs

/-! ### The end of the logger -/

/-- A step of the logger's thread or of the owner. -/
def Action.own : Action τ → Bool
  | .work | .main => true
  | .insert _ | .terminate _ => false

/-- A bound on the steps from a place to `exited`, once `shutdown` is set. -/
def Phase.rest : Phase → Nat
  | .exited => 0
  | .leaving => 1
  | .checking => 2
  | .printing _ | .waiting => 3
  | .popping => 4
  | .looking => 5
  | .booting => 6

def Main.rest : Main → Nat
  | .done => 0
  | .draining => 1
  | .stopping => 2
  | .live => 3
  | .constructing => 4

/-- How many steps the logger's thread and the owner have left at most. -/
def rest (s : Logger τ) : Nat := s.thread.rest + s.main.rest + s.mLogQueue.length

omit [DecidableEq τ] in
theorem rest_work (hshut : s.shutdown = true) (hs : s.work = .ok s') : s'.rest < s.rest ∧ s'.shutdown = true := by
  unfold Logger.work at hs
  unfold rest
  cases ht : s.thread with
  | booting =>
    simp only [ht] at hs
    obtain rfl := Except.ok.inj hs
    exact ⟨by simp only [Phase.rest]; omega, hshut⟩
  | checking =>
    simp only [ht, hshut] at hs
    obtain rfl := Except.ok.inj hs
    exact ⟨by simp [Phase.rest], rfl⟩
  | looking =>
    simp only [ht] at hs
    obtain rfl := Except.ok.inj hs
    have hlt : (if s.mLogQueue = [] then Phase.waiting else .popping).rest < Phase.looking.rest := by
      split <;> decide
    exact ⟨by simp only []; omega, hshut⟩
  | popping =>
    simp only [ht] at hs
    cases hq : s.mLogQueue with
    | nil => rw [hq] at hs; cases hs
    | cons log mLogQueue =>
      rw [hq] at hs
      obtain rfl := Except.ok.inj hs
      exact ⟨by simp only [Phase.rest, List.length_cons]; omega, hshut⟩
  | printing log =>
    simp only [ht] at hs
    obtain rfl := Except.ok.inj hs
    exact ⟨by simp only [Phase.rest]; omega, hshut⟩
  | waiting =>
    simp only [ht] at hs
    obtain rfl := Except.ok.inj hs
    exact ⟨by simp only [Phase.rest]; omega, hshut⟩
  | leaving =>
    simp only [ht] at hs
    obtain rfl := Except.ok.inj hs
    exact ⟨by simp only [Phase.rest]; omega, hshut⟩
  | exited =>
    simp only [ht] at hs
    cases hs

omit [DecidableEq τ] in
theorem rest_main (hshut : s.shutdown = true) (hs : s.mainStep = .ok s') : s'.rest < s.rest ∧ s'.shutdown = true := by
  unfold Logger.mainStep at hs
  unfold rest
  cases hm : s.main with
  | constructing =>
    simp only [hm] at hs
    split at hs
    · obtain rfl := Except.ok.inj hs
      exact ⟨by simp only [Main.rest]; omega, hshut⟩
    · cases hs
  | live =>
    simp only [hm] at hs
    obtain rfl := Except.ok.inj hs
    exact ⟨by simp only [Main.rest]; omega, rfl⟩
  | stopping =>
    simp only [hm] at hs
    split at hs
    · obtain rfl := Except.ok.inj hs
      exact ⟨by simp only [Main.rest]; omega, hshut⟩
    · cases hs
  | draining =>
    simp only [hm] at hs
    cases hq : s.mLogQueue with
    | nil =>
      rw [hq] at hs
      obtain rfl := Except.ok.inj hs
      exact ⟨by simp only [Main.rest]; omega, hshut⟩
    | cons log mLogQueue =>
      rw [hq] at hs
      obtain rfl := Except.ok.inj hs
      exact ⟨by simp only [List.length_cons]; omega, hshut⟩
  | done =>
    simp only [hm] at hs
    cases hs

/-- Once `shutdown` is set, a call of `operator<<` does nothing, and each step of the two threads counts. -/
theorem rest_step {a : Action τ} (hshut : s.shutdown = true) (hs : s.step a = .ok s') :
    (if a.own then s'.rest < s.rest else s'.rest = s.rest) ∧ s'.shutdown = true := by
  obtain ⟨s₁, hact, rfl⟩ := step_cases hs
  cases a with
  | insert i =>
    obtain rfl := act_insert hact
    rw [Logger.insert, if_pos hshut]
    exact ⟨rfl, hshut⟩
  | terminate i =>
    obtain rfl := act_terminate hact
    rw [Logger.terminate, if_pos hshut]
    exact ⟨rfl, hshut⟩
  | work =>
    have hrest : s₁.rest < s.rest ∧ s₁.shutdown = true := rest_work hshut hact
    exact hrest
  | main =>
    have hrest : s₁.rest < s.rest ∧ s₁.shutdown = true := rest_main hshut hact
    exact hrest

theorem countP_own_le {tr : List (Action τ × Logger τ)} (hshut : s.shutdown = true) (hrun : Run (Ok step) s tr) :
    tr.countP (·.1.own) ≤ s.rest := by
  induction tr generalizing s with
  | nil => exact Nat.zero_le _
  | cons x tr ih =>
    obtain ⟨a, s'⟩ := x
    obtain ⟨hs, hrun⟩ := hrun
    obtain ⟨hrest, hshut'⟩ := rest_step hshut hs
    have := ih hshut' hrun
    rw [List.countP_cons]
    simp only []
    split
    · rename_i ha
      rw [if_pos ha] at hrest
      omega
    · rename_i ha
      rw [if_neg ha] at hrest
      omega

theorem Inv.goes_on (h : s.Inv) (hshut : s.shutdown = true) (hdone : s.main ≠ .done) :
    ∃ a s', Action.own a = true ∧ s.step a = .ok s' := by
  by_cases hexited : s.thread = .exited
  · -- the owner's turn
    have hsem := h.semaphore
    rw [hexited] at hsem
    have hmain : ∃ s', s.mainStep = .ok s' := by
      have hstop := h.shutdown
      rw [hshut] at hstop
      unfold Logger.mainStep
      cases hm : s.main with
      | constructing => rw [hm] at hstop; cases hstop
      | live => rw [hm] at hstop; cases hstop
      | stopping =>
        simp only [hm, Main.waited, Phase.notified] at hsem
        have hcount : s.mSemaphore.count ≠ 0 := by omega
        simp only [Semaphore.wait, if_neg hcount]
        exact ⟨_, rfl⟩
      | draining =>
        simp only []
        split <;> exact ⟨_, rfl⟩
      | done => exact absurd hm hdone
    obtain ⟨s', hs'⟩ := hmain
    exact ⟨.main, _, rfl, by rw [Logger.step, act, hs']; rfl⟩
  · have hwork : ∃ s', s.work = .ok s' := by
      unfold Logger.work
      cases ht : s.thread with
      | popping =>
        obtain ⟨log, mLogQueue, hq⟩ := List.exists_cons_of_ne_nil (h.popping ht)
        simp only [hq]
        exact ⟨_, rfl⟩
      | exited => exact absurd ht hexited
      | booting => exact ⟨_, rfl⟩
      | checking => exact ⟨_, rfl⟩
      | looking => exact ⟨_, rfl⟩
      | printing log => exact ⟨_, rfl⟩
      | waiting => exact ⟨_, rfl⟩
      | leaving => exact ⟨_, rfl⟩
    obtain ⟨s', hs'⟩ := hwork
    exact ⟨.work, _, rfl, by rw [Logger.step, act, hs']; rfl⟩

/-- The lines printed are the first of those that the threads have terminated before `shutdown`, and all of
them when the destructor has returned; and it returns, whatever the other threads do, once it has begun. -/
structure Delivered (s : Logger τ) : Prop where
  order : s.cout <+: lines s.past
  all : s.main = .done → s.cout = lines s.past
  goes_on : s.shutdown = true → s.main ≠ .done → ∃ a s', Action.own a = true ∧ s.step a = .ok s'
  ends : s.shutdown = true → ∀ tr, Run (Ok step) s tr → tr.countP (·.1.own) ≤ s.rest

theorem delivered (h : Reach (Ok step) (new τ) s) : s.Delivered := by
  have hinv := Inv.of_reach h
  have hprinted := hinv.printed
  refine ⟨?_, fun hm => ?_, hinv.goes_on, fun hshut tr hrun => countP_own_le hshut hrun⟩
  · rw [← hprinted, List.append_assoc]
    exact List.prefix_append _ _
  · have hexited := hinv.exited (by rw [hm]; rfl)
    rw [inHand, hexited, hinv.drained hm] at hprinted
    simpa using hprinted

/-- Two threads each stream a line, the second one after its first terminator; the destructor begins while
the logger's thread has the first line in hand. -/
theorem delivered_two_threads : ∃ s, Reach (Ok step) (new Nat) s ∧ s.main = .done ∧
    s.past = [(⟨1, "\n".toList, [], "t2".toList⟩, true), (⟨1, "c".toList, [], []⟩, false),
      (⟨0, "\n".toList, [], "t1".toList⟩, true), (⟨1, "\n".toList, [], "t1".toList⟩, true),
      (⟨1, "b".toList, "t0".toList, []⟩, false), (⟨0, "a".toList, "t0".toList, []⟩, false)] ∧
    s.cout = ["t0 | b\n".toList, "t0 | a\n".toList, "t1 | c\n".toList] ∧ s.Delivered := by
  have hg : Goes Logger.step (fun _ _ => True)
      (fun s => s.main = .done ∧
        s.past = [(⟨1, "\n".toList, [], "t2".toList⟩, true), (⟨1, "c".toList, [], []⟩, false),
          (⟨0, "\n".toList, [], "t1".toList⟩, true), (⟨1, "\n".toList, [], "t1".toList⟩, true),
          (⟨1, "b".toList, "t0".toList, []⟩, false), (⟨0, "a".toList, "t0".toList, []⟩, false)] ∧
        s.cout = ["t0 | b\n".toList, "t0 | a\n".toList, "t1 | c\n".toList]) (new Nat)
      [.work, .main, .insert ⟨0, "a".toList, "t0".toList, []⟩, .insert ⟨1, "b".toList, "t0".toList, []⟩,
        .terminate ⟨1, "\n".toList, [], "t1".toList⟩, .terminate ⟨0, "\n".toList, [], "t1".toList⟩,
        .work, .work, .work, .insert ⟨1, "c".toList, [], []⟩, .terminate ⟨1, "\n".toList, [], "t2".toList⟩,
        .main, .insert ⟨0, "d".toList, [], []⟩, .work, .work, .work, .main, .main, .main, .main] := by decide
  obtain ⟨s, hs, hm, hp, hc⟩ := hg.reach_ok
  exact ⟨s, hs, hm, hp, hc, delivered hs⟩

end Logger

end ChCppUtils
