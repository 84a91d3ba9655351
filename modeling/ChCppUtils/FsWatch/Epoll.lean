import ChCppUtils.FsWatch.Steps
import ChCppUtils.Lib.Runs

/-!
# The watcher thread (fs-watch.cpp)

`epollThreadRoutine` takes a batch of ready descriptors and gives each one that is in `map` to
`handleActivity`, which reads events until there are none. A descriptor stays in `map` when it is closed,
so the test does not tell open ones from closed ones: if the handling of one descriptor closes another
one of the batch, the read of that one fails and the process exits. As long as no directory-delete event
drops a node with a descriptor of the batch, all reads succeed (`readSafe_of_spares`).
-/

namespace ChCppUtils.FsWatch

open Runs

def MAX_EVENTS : Nat := 10

/-- Where the thread is in the two loops. -/
inductive Point where
  /-- At `epoll_wait`. -/
  | waiting
  /-- In the loop over the batch, with these descriptors left. -/
  | batch (ready : List Int)
  /-- `handleActivity(fd)` is about to read. -/
  | reading (fd : Int) (ready : List Int)
  /-- `handleActivity(fd)` has these events of its buffer left. -/
  | handling (fd : Int) (buf : List InotifyEvent) (ready : List Int)
deriving DecidableEq, Repr

/-- The descriptors that are still read in this round: the one at hand and those left of the batch. -/
def Point.pending : Point → List Int
  | .waiting => []
  | .batch ready => ready
  | .reading fd ready | .handling fd _ ready => fd :: ready

structure Loop where
  watch : FsWatch
  point : Point

/-- What the handling of an event drops with a callback. -/
def drops (s : FsWatch) (fd : Int) (event : InotifyEvent) : List (Str × Option TreeNode) :=
  if event.isDir = true ∧ event.bit = .delete then
    match s.getFullPath fd event with
    | .ok path => (s.tree.drop path).2
    | .error _ => []
  else []

namespace Loop

inductive Call where
  /-- `epoll_wait` returns these descriptors. -/
  | epollWait (events : List Int)
  /-- The thread goes to the next descriptor of the batch, or back to the read. -/
  | next
  /-- `read` returns these events; none is `EAGAIN`. -/
  | read (buf : List InotifyEvent)
  /-- The next event of the buffer is handled. -/
  | handle (ans : Answer)
  /-- A step of the walk the watcher is in. -/
  | walk (a : Action)

def step (s : Loop) : Call → Res Loop
  | .epollWait events =>
    if s.point = .waiting ∧ s.watch.walking = none ∧ events.length ≤ MAX_EVENTS ∧ events.Nodup ∧
        ∀ fd ∈ events, ∃ d ∈ s.watch.descriptors.lookup fd, d.epoll = true then
      pure { s with point := .batch events }
    else throw .badAnswer
  | .next =>
    match s.point with
    | .batch [] => pure { s with point := .waiting }
    | .batch (fd :: ready) =>
      if fd ∈ s.watch.map then pure { s with point := .reading fd ready }
      else pure { s with point := .batch ready }
    | .handling fd [] ready =>
      if s.watch.walking = none then pure { s with point := .reading fd ready } else throw .badAnswer
    | _ => throw .badAnswer
  | .read buf =>
    match s.point with
    | .reading fd ready =>
      -- `EBADF`
      if fd ∉ s.watch.descriptors then throw .exitFailure
      else if buf = [] then pure { s with point := .batch ready }
      else if ∀ event ∈ buf, event.bit = .other ∨ IsName event.name then
        pure { s with point := .handling fd buf ready }
      else throw .badAnswer
    | _ => throw .badAnswer
  | .handle ans =>
    match s.point with
    | .handling fd (event :: buf) ready =>
      if s.watch.walking = none then do
        let (watch, _) ← s.watch.handleEvent fd event ans
        return ⟨watch, .handling fd buf ready⟩
      else throw .badAnswer
    | _ => throw .badAnswer
  | .walk a =>
    match a with
    | .event .. => throw .badAnswer
    | a => do
      let watch ← s.watch.next a
      return { s with watch }

/-- `init()` has added the watch of the root. -/
def start (watch : FsWatch) : Loop := ⟨watch, .waiting⟩

/-- `handleActivity` reads an open descriptor, and does not exit. -/
def ReadSafe (s : Loop) : Prop := ∀ fd ready, s.point = .reading fd ready →
  fd ∈ s.watch.descriptors ∧ ∀ buf, s.step (.read buf) ≠ .error .exitFailure

def drops (s : Loop) : Call → List (Str × Option TreeNode)
  | .handle _ =>
    match s.point with
    | .handling fd (event :: _) _ => s.watch.drops fd event
    | _ => []
  | _ => []

/-- What the step drops has no node with a descriptor that is still to be read. -/
def Spares (s : Loop) (c : Call) : Prop := ∀ x ∈ s.drops c, ∀ node ∈ x.2, node.fd ∉ s.point.pending

instance (s : Loop) (c : Call) : Decidable (s.Spares c) :=
  inferInstanceAs (Decidable (∀ x ∈ s.drops c, ∀ node ∈ x.2, _))

end Loop

variable {s s' : FsWatch} {a : Action} {out : List Notice} {dir : Str} {ans : Answer} {fd fd' : Int}
  {event : InotifyEvent}

/-! ### Which descriptors a step closes -/

theorem mem_descriptors_addWatch (h : s.addWatch dir ans = .ok s') (hfd : fd ∈ s.descriptors) :
    fd ∈ s'.descriptors := by
  rcases addWatch_cases h with ⟨-, rfl⟩ | ⟨-, -, -, rfl⟩
  · exact hfd
  · rw [descriptors_install, AList.mem_insert]
    exact .inr hfd

theorem mem_descriptors_walk (h : Effect s a s' out) (ha : ∀ fd event ans, a ≠ .event fd event ans)
    (hfd : fd ∈ s.descriptors) : fd ∈ s'.descriptors := by
  cases h with
  | entry hw hrel hs =>
    rw [← descriptors_reportFile] at hfd
    split at hs
    · exact mem_descriptors_addWatch hs hfd
    · rw [hs]
      exact hfd
  | walkDone hw => exact hfd
  | create | modify | fileDelete | dirDelete | ignored => exact absurd rfl (ha _ _ _)

theorem mem_descriptors_event (h : Effect s (.event fd event ans) s' out) (hfd : fd' ∈ s.descriptors) :
    fd' ∈ s'.descriptors ↔ ∀ x ∈ s.drops fd event, ∀ node ∈ x.2, node.fd ≠ fd' := by
  have hnone : ¬ (event.isDir = true ∧ event.bit = .delete) → s.drops fd event = [] := fun h => if_neg h
  cases h with
  | @create _ _ _ path s₁ hr hk hp hs =>
    rw [hnone (by simp [hk])]
    have hkeep : fd' ∈ s₁.descriptors := mem_descriptors_addWatch hs hfd
    exact iff_of_true hkeep (by simp)
  | modify hr hk hp hout =>
    rw [hnone (by simp [hk])]
    refine iff_of_true ?_ (by simp)
    split
    · rw [descriptors_addToTree]
      exact hfd
    · exact hfd
  | fileDelete hr hk hp hcb hc =>
    rw [hnone (by simp [hk])]
    exact iff_of_true hfd (by simp)
  | dirDelete hr hk hp hs hc =>
    obtain ⟨hcl, -⟩ := removeWatch_cases hs
    rw [drops, if_pos hk, hp, ← AList.lookup_isSome, hcl.descriptors]
    constructor
    · intro hopen x hx node hnode hne
      rw [if_pos ⟨x, hx, node, hnode, hne⟩] at hopen
      cases hopen
    · intro hkeep
      rw [if_neg, AList.lookup_isSome]
      · exact hfd
      · rintro ⟨x, hx, node, hnode, hne⟩
        exact hkeep x hx node hnode hne
  | ignored hr hk =>
    refine iff_of_true hfd ?_
    have hdrops : s.drops fd event = [] := by
      rcases hk with hm | hk
      · unfold drops
        rw [getFullPath, AList.lookup_eq_none.2 hm]
        split <;> rfl
      · exact hnone fun h => hk.1 ⟨h.1, .inr h.2⟩
    rw [hdrops]
    simp

namespace Loop

variable {s s' : Loop} {c : Call}

/-- The descriptors that are still to be read are open. -/
structure Ready (s : Loop) : Prop where
  pending : ∀ fd ∈ s.point.pending, fd ∈ s.watch.descriptors
  names : ∀ fd buf ready, s.point = .handling fd buf ready →
    ∀ event ∈ buf, event.bit = .other ∨ IsName event.name

theorem Ready.open_of_pending {ready : List Int} (h : Ready s) (hpoint : s.point.pending = ready) :
    ∀ fd ∈ ready, fd ∈ s.watch.descriptors := by
  rw [← hpoint]
  exact h.pending

theorem Ready.readSafe (h : Ready s) : s.ReadSafe := by
  intro fd ready hpoint
  have hopen := h.open_of_pending (show s.point.pending = fd :: ready by rw [hpoint]; rfl) fd List.mem_cons_self
  refine ⟨hopen, fun buf hexit => ?_⟩
  simp only [step, hpoint, hopen, not_true, if_false] at hexit
  split at hexit
  · cases hexit
  · split at hexit <;> cases hexit

theorem Ready.next (h : Ready s) (hs : s.step .next = .ok s') : Ready s' := by
  rw [step] at hs
  split at hs
  · obtain rfl := Except.ok.inj hs
    exact ⟨by simp [Point.pending], nofun⟩
  · rename_i fd ready hpoint
    have hopen := h.open_of_pending (show s.point.pending = fd :: ready by rw [hpoint]; rfl)
    split at hs
    · obtain rfl := Except.ok.inj hs
      exact ⟨hopen, nofun⟩
    · obtain rfl := Except.ok.inj hs
      exact ⟨fun fd' hm => hopen fd' (List.mem_cons_of_mem fd hm), nofun⟩
  · rename_i fd ready hpoint
    split at hs
    · obtain rfl := Except.ok.inj hs
      exact ⟨h.open_of_pending (show s.point.pending = fd :: ready by rw [hpoint]; rfl), nofun⟩
    · cases hs
  · cases hs

theorem Ready.read {buf : List InotifyEvent} (h : Ready s) (hs : s.step (.read buf) = .ok s') : Ready s' := by
  rw [step] at hs
  split at hs
  swap
  · cases hs
  rename_i fd ready hpoint
  have hopen := h.open_of_pending (show s.point.pending = fd :: ready by rw [hpoint]; rfl)
  split at hs
  · cases hs
  split at hs
  · obtain rfl := Except.ok.inj hs
    exact ⟨fun fd' hm => hopen fd' (List.mem_cons_of_mem fd hm), nofun⟩
  split at hs
  · rename_i hnames
    obtain rfl := Except.ok.inj hs
    refine ⟨hopen, fun fd' buf' ready' heq => ?_⟩
    obtain ⟨-, rfl, -⟩ := Point.handling.inj heq
    exact hnames
  · cases hs

/-- The one step that closes descriptors. -/
theorem Ready.handle_iff {ans : Answer} (h : Ready s) (hs : s.step (.handle ans) = .ok s') :
    Ready s' ↔ s.Spares (.handle ans) := by
  rw [step] at hs
  split at hs
  swap
  · cases hs
  rename_i fd event buf ready hpoint
  split at hs
  swap
  · cases hs
  rename_i hw
  obtain ⟨⟨watch, out⟩, hevent, hs⟩ := Res.of_bind hs
  obtain rfl := Except.ok.inj hs
  have hopen := h.open_of_pending (show s.point.pending = fd :: ready by rw [hpoint]; rfl)
  have hnames := h.names fd (event :: buf) ready hpoint
  have heff := effect_handleEvent ⟨hw, hopen fd List.mem_cons_self, hnames event List.mem_cons_self⟩ hevent
  have hkeep : ∀ fd' ∈ fd :: ready, (fd' ∈ watch.descriptors ↔
      ∀ x ∈ s.watch.drops fd event, ∀ node ∈ x.2, node.fd ≠ fd') :=
    fun fd' hm => mem_descriptors_event heff (hopen fd' hm)
  simp only [Spares, drops, hpoint, Point.pending]
  constructor
  · intro h' x hx node hnode hm
    exact (hkeep node.fd hm).1 (h'.pending _ hm) x hx node hnode rfl
  · intro hspares
    refine ⟨fun fd' hm => (hkeep fd' hm).2 fun x hx node hnode he => ?_, fun fd' buf' ready' heq => ?_⟩
    · exact hspares x hx node hnode (he ▸ hm)
    · obtain ⟨-, rfl, -⟩ := Point.handling.inj heq
      exact fun e he => hnames e (List.mem_cons_of_mem event he)

theorem Ready.walk {a : Action} (h : Ready s) (hs : s.step (.walk a) = .ok s') : Ready s' := by
  have hwalk : (∀ fd event ans, a ≠ .event fd event ans) → ∀ watch, s.watch.next a = .ok watch →
      Ready { s with watch } := by
    intro ha watch hw
    obtain ⟨out, he⟩ := next_effect hw
    exact ⟨fun fd hm => mem_descriptors_walk he ha (h.pending fd hm), h.names⟩
  cases a with
  | event fd event ans => cases hs
  | entry | walkDone =>
    obtain ⟨watch, hw, hs⟩ := Res.of_bind hs
    obtain rfl := Except.ok.inj hs
    exact hwalk nofun watch hw

theorem Ready.step_iff (h : Ready s) (hs : s.step c = .ok s') : Ready s' ↔ s.Spares c := by
  cases c with
  | epollWait events =>
    refine iff_of_true ?_ (by simp [Spares, drops])
    rw [step] at hs
    split at hs
    swap
    · cases hs
    rename_i hready
    obtain rfl := Except.ok.inj hs
    refine ⟨fun fd hm => ?_, nofun⟩
    obtain ⟨d, hd, -⟩ := hready.2.2.2.2 fd hm
    exact UnorderedMap.mem_of_lookup hd
  | next => exact iff_of_true (h.next hs) (by simp [Spares, drops])
  | read buf => exact iff_of_true (h.read hs) (by simp [Spares, drops])
  | handle ans => exact h.handle_iff hs
  | walk a => exact iff_of_true (h.walk hs) (by simp [Spares, drops])

theorem Ready.start (w : FsWatch) : Ready (start w) := ⟨by simp [Loop.start, Point.pending], nofun⟩

end Loop

/-- The descriptors of every batch stay open until they are read, exactly when all steps spare them. -/
theorem eachState_ready_iff {w : FsWatch} {tr : List (Loop.Call × Loop)}
    (hrun : Run (Ok Loop.step) (Loop.start w) tr) :
    EachState Loop.Ready (Loop.start w) tr ↔ EachStep Loop.Spares (Loop.start w) tr :=
  Run.eachState_iff (I := Loop.Ready) (fun _ h => h) (fun _ _ _ h hc hs => (h.step_iff hs).2 hc)
    (fun _ _ _ h hs h' => (h.step_iff hs).1 h') (.start w) hrun

theorem readSafe_of_spares (w : FsWatch) (tr : List (Loop.Call × Loop)) (hrun : Run (Ok Loop.step) (Loop.start w) tr)
    (hspares : EachStep Loop.Spares (Loop.start w) tr) : EachState Loop.ReadSafe (Loop.start w) tr := by
  obtain ⟨h₀, htr⟩ := (eachState_ready_iff hrun).2 hspares
  exact ⟨h₀.readSafe, fun x hx => (htr x hx).readSafe⟩

/-- `r/a` and `r/b` are there before. `a` goes while the descriptors of `r` and `r/b` are ready. -/
theorem readSafe_sibling :
    ∃ w tr, (new "r".toList false false ∅).init ⟨3, 1, true⟩ = .ok w ∧
      exec Loop.step (Loop.start w)
        [.walk (.entry ["a".toList] Fts.FTS_D ⟨5, 1, true⟩), .walk (.entry ["b".toList] Fts.FTS_D ⟨6, 1, true⟩),
          .walk .walkDone, .epollWait [3, 6], .next, .read [⟨.delete, true, "a".toList⟩], .handle ⟨7, 1, true⟩,
          .next, .read [], .next, .read []] = .ok tr ∧ EachState Loop.ReadSafe (Loop.start w) tr := by
  have hg : Gives ((new "r".toList false false ∅).init ⟨3, 1, true⟩) fun w =>
      Goes Loop.step Loop.Spares (fun _ => True) (Loop.start w)
        [.walk (.entry ["a".toList] Fts.FTS_D ⟨5, 1, true⟩), .walk (.entry ["b".toList] Fts.FTS_D ⟨6, 1, true⟩),
          .walk .walkDone, .epollWait [3, 6], .next, .read [⟨.delete, true, "a".toList⟩], .handle ⟨7, 1, true⟩,
          .next, .read [], .next, .read []] := by
    decide
  obtain ⟨w, hinit, hgoes⟩ := hg.ok
  obtain ⟨tr, htr, hc, -⟩ := hgoes.exec
  exact ⟨w, tr, hinit, htr, readSafe_of_spares w tr (Run.of_exec htr) hc⟩

/-- `r/a` goes while its descriptor is ready behind that of `r`: it is closed, and read. -/
theorem not_readSafe_parent_first :
    ∃ w tr, (new "r".toList false false ∅).init ⟨3, 1, true⟩ = .ok w ∧
      exec Loop.step (Loop.start w)
        [.walk (.entry ["a".toList] Fts.FTS_D ⟨5, 1, true⟩), .walk .walkDone, .epollWait [3, 5], .next,
          .read [⟨.delete, true, "a".toList⟩], .handle ⟨7, 1, true⟩, .next, .read [], .next] = .ok tr ∧
      ¬ EachState Loop.ReadSafe (Loop.start w) tr := by
  have hg : Gives ((new "r".toList false false ∅).init ⟨3, 1, true⟩) fun w =>
      Goes Loop.step (fun _ _ => True) (fun s => s.point = .reading 5 [] ∧ 5 ∉ s.watch.descriptors) (Loop.start w)
        [.walk (.entry ["a".toList] Fts.FTS_D ⟨5, 1, true⟩), .walk .walkDone, .epollWait [3, 5], .next,
          .read [⟨.delete, true, "a".toList⟩], .handle ⟨7, 1, true⟩, .next, .read [], .next] := by
    decide
  obtain ⟨w, hinit, hgoes⟩ := hg.ok
  obtain ⟨tr, htr, -, s, ⟨hpoint, hclosed⟩, hs⟩ := hgoes.exec
  exact ⟨w, tr, hinit, htr, fun h => hclosed (hs _ h 5 [] hpoint).1⟩

end ChCppUtils.FsWatch
