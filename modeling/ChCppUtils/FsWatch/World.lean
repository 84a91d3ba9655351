import ChCppUtils.FsWatch.Steps
import ChCppUtils.Lib.Runs

/-!
# The watcher and the file system

Other processes make directories below the root while the watcher boots, walks and handles events. A
directory that is made gives an event to every descriptor that watches its parent. A walk hands out
the entry of a directory before it reads the directory's listing, and the listing has every
directory that is there when it is read. Calls of the kernel succeed and no event is lost; the rest
(files, devices, what the walks themselves cause) may put any event into a queue that is not about
the creation or deletion of a directory.
-/

namespace ChCppUtils.FsWatch

/-- The directories at and below the root, each as the names that lead to it. -/
structure Dirs where
  all : Finset (List Str)
  root_mem : [] ∈ all
  names : ∀ p ∈ all, ∀ n ∈ p, IsName n
  closed : ∀ p n, p ++ [n] ∈ all → p ∈ all

/-- An empty root. -/
def Dirs.bare : Dirs where
  all := {[]}
  root_mem := Finset.mem_singleton_self []
  names := by simp
  closed := by simp

theorem Dirs.mem_of_prefix (t : Dirs) {p q : List Str} (hpq : p <+: q) (hq : q ∈ t.all) : p ∈ t.all := by
  obtain ⟨rel, rfl⟩ := hpq
  induction rel using List.reverseRecOn with
  | nil => rwa [List.append_nil] at hq
  | append_singleton rel n ih =>
    rw [← List.append_assoc] at hq
    exact ih (t.closed _ n hq)

/-- `mkdir(p/name)` -/
def Dirs.mkdir (t : Dirs) (p : List Str) (name : Str) (hp : p ∈ t.all) (hn : IsName name) : Dirs where
  all := insert (p ++ [name]) t.all
  root_mem := Finset.mem_insert_of_mem t.root_mem
  names := by
    intro q hq n hnq
    rcases Finset.mem_insert.1 hq with rfl | hq
    · rcases List.mem_append.1 hnq with hnq | hnq
      · exact t.names p hp n hnq
      · exact List.mem_singleton.1 hnq ▸ hn
    · exact t.names q hq n hnq
  closed := by
    intro q n hq
    rcases Finset.mem_insert.1 hq with hq | hq
    · rw [(List.append_inj' hq rfl).1]
      exact Finset.mem_insert_of_mem hp
    · exact Finset.mem_insert_of_mem (t.closed q n hq)

/-- What a walk has still to do: to hand out an entry, or to read the listing of a directory whose
entry it has handed out. Paths are relative to the directory of the walk. -/
inductive Visit where
  | entry (rel : List Str) (info : Nat)
  | listing (rel : List Str)
deriving DecidableEq

structure World where
  dirs : Dirs
  watch : FsWatch
  /-- The events of each descriptor that have not been handled. -/
  queue : Int → List InotifyEvent
  todo : List Visit

/-- All three calls of `addWatch` succeed; that the descriptor is new is checked by the step. -/
def Succeeds (ans : Answer) : Prop := 0 ≤ ans.wd ∧ ans.epoll = true

instance (ans : Answer) : Decidable (Succeeds ans) := inferInstanceAs (Decidable (_ ∧ _))

/-- The descriptor watches the directory at `p`, and `epoll` reports its events. -/
def Watches (s : FsWatch) (fd : Int) (p : List Str) : Prop :=
  ∃ d ∈ s.descriptors.lookup fd, d.dir = Fts.pathOf s.root p ∧ 0 ≤ d.wd ∧ d.epoll = true

instance (s : FsWatch) (fd : Int) (p : List Str) : Decidable (s.Watches fd p) :=
  inferInstanceAs (Decidable (∃ d ∈ s.descriptors.lookup fd, _))

namespace World

/-- A listing of the directory at `path`: names with their `fts_info`, among them every directory
that is there. -/
def Lists (s : World) (path : Str) (names : List (Str × Nat)) : Prop :=
  (∀ x ∈ names, IsName x.1) ∧ ∀ q ∈ s.dirs.all, ∀ n ∈ q.getLast?,
    Fts.pathOf s.watch.root q.dropLast = path → (n, Fts.FTS_D) ∈ names

instance (s : World) (path : Str) (names : List (Str × Nat)) : Decidable (s.Lists path names) :=
  inferInstanceAs (Decidable (_ ∧ ∀ q ∈ s.dirs.all, ∀ n ∈ q.getLast?, _ → _))

inductive Move where
  /-- Another process makes a directory. -/
  | mkdir (p : List Str) (name : Str)
  /-- Any other event comes up. -/
  | notify (fd : Int) (event : InotifyEvent)
  /-- `fts_read` returns the next entry, and `walk` reports it. -/
  | read (ans : Answer)
  /-- `fts_read` reads a listing. -/
  | list (names : List (Str × Nat))
  /-- `fts_read` has nothing left. -/
  | readDone
  /-- The watcher handles the oldest event of a descriptor. -/
  | handle (fd : Int) (ans : Answer)

def step (s : World) : Move → Res World
  | .mkdir p name =>
    if h : p ∈ s.dirs.all ∧ IsName name ∧ p ++ [name] ∉ s.dirs.all then
      pure { s with
        dirs := s.dirs.mkdir p name h.1 h.2.1
        queue := fun fd =>
          if s.watch.Watches fd p then s.queue fd ++ [⟨.create, true, name⟩] else s.queue fd }
    else throw .badAnswer
  | .notify fd event =>
    if fd ∈ s.watch.descriptors ∧ ¬ (event.isDir = true ∧ (event.bit = .create ∨ event.bit = .delete)) then
      pure { s with queue := Function.update s.queue fd (s.queue fd ++ [event]) }
    else throw .badAnswer
  | .read ans =>
    match s.todo with
    | .entry rel info :: todo =>
      if Succeeds ans then do
        let watch ← s.watch.next (.entry rel info ans)
        return { s with watch, todo := if info = Fts.FTS_D then .listing rel :: todo else todo }
      else throw .badAnswer
    | _ => throw .badAnswer
  | .list names =>
    match s.todo, s.watch.walking with
    | .listing rel :: todo, some dir =>
      if s.Lists (Fts.pathOf dir rel) names then
        pure { s with todo := names.map (fun x => .entry (rel ++ [x.1]) x.2) ++ todo }
      else throw .badAnswer
    | _, _ => throw .badAnswer
  | .readDone =>
    if s.todo = [] then do
      let watch ← s.watch.next .walkDone
      return { s with watch }
    else throw .badAnswer
  | .handle fd ans =>
    match s.queue fd with
    | [] => throw .badAnswer
    | event :: queue =>
      if Succeeds ans then do
        let watch ← s.watch.next (.event fd event ans)
        return { s with
          watch
          queue := Function.update s.queue fd queue
          todo := match watch.walking with
            | some _ => [.entry [] Fts.FTS_D]
            | none => s.todo }
      else throw .badAnswer

/-- All that a move can do. -/
inductive Moved (s : World) : Move → World → Prop
  | mkdir {p : List Str} {name : Str} (hp : p ∈ s.dirs.all) (hn : IsName name) (hnew : p ++ [name] ∉ s.dirs.all) :
    Moved s (.mkdir p name) { s with
      dirs := s.dirs.mkdir p name hp hn
      queue := fun fd => if s.watch.Watches fd p then s.queue fd ++ [⟨.create, true, name⟩] else s.queue fd }
  | notify {fd : Int} {event : InotifyEvent} (hfd : fd ∈ s.watch.descriptors)
    (hother : ¬ (event.isDir = true ∧ (event.bit = .create ∨ event.bit = .delete))) :
    Moved s (.notify fd event) { s with queue := Function.update s.queue fd (s.queue fd ++ [event]) }
  | read {rel : List Str} {info : Nat} {todo : List Visit} {ans : Answer} {w : FsWatch}
    (htodo : s.todo = .entry rel info :: todo) (hans : Succeeds ans)
    (hw : s.watch.next (.entry rel info ans) = .ok w) :
    Moved s (.read ans) { s with watch := w, todo := if info = Fts.FTS_D then .listing rel :: todo else todo }
  | list {rel : List Str} {todo : List Visit} {dir : Str} {names : List (Str × Nat)}
    (htodo : s.todo = .listing rel :: todo) (hdir : s.watch.walking = some dir)
    (hlist : s.Lists (Fts.pathOf dir rel) names) :
    Moved s (.list names) { s with todo := names.map (fun x => .entry (rel ++ [x.1]) x.2) ++ todo }
  | readDone {w : FsWatch} (htodo : s.todo = []) (hw : s.watch.next .walkDone = .ok w) :
    Moved s .readDone { s with watch := w }
  | handle {fd : Int} {ans : Answer} {event : InotifyEvent} {queue : List InotifyEvent} {w : FsWatch}
    (hqueue : s.queue fd = event :: queue) (hans : Succeeds ans)
    (hw : s.watch.next (.event fd event ans) = .ok w) :
    Moved s (.handle fd ans) { s with
      watch := w
      queue := Function.update s.queue fd queue
      todo := match w.walking with
        | some _ => [.entry [] Fts.FTS_D]
        | none => s.todo }

theorem moved_of_step {s s' : World} {m : Move} (hs : s.step m = .ok s') : Moved s m s' := by
  cases m with
  | mkdir p name =>
    rw [step] at hs
    split at hs
    · rename_i h
      obtain rfl := Except.ok.inj hs
      exact .mkdir h.1 h.2.1 h.2.2
    · cases hs
  | notify fd event =>
    rw [step] at hs
    split at hs
    · rename_i h
      obtain rfl := Except.ok.inj hs
      exact .notify h.1 h.2
    · cases hs
  | read ans =>
    rw [step] at hs
    split at hs
    · rename_i htodo
      split at hs
      · rename_i hans
        obtain ⟨w, hw, hs⟩ := Res.of_bind hs
        obtain rfl := Except.ok.inj hs
        exact .read htodo hans hw
      · cases hs
    · cases hs
  | list names =>
    rw [step] at hs
    split at hs
    · rename_i htodo hdir
      split at hs
      · rename_i hlist
        obtain rfl := Except.ok.inj hs
        exact .list htodo hdir hlist
      · cases hs
    · cases hs
  | readDone =>
    rw [step] at hs
    split at hs
    · rename_i htodo
      obtain ⟨w, hw, hs⟩ := Res.of_bind hs
      obtain rfl := Except.ok.inj hs
      exact .readDone htodo hw
    · cases hs
  | handle fd ans =>
    rw [step] at hs
    split at hs
    · cases hs
    · rename_i hqueue
      split at hs
      · rename_i hans
        obtain ⟨w, hw, hs⟩ := Res.of_bind hs
        obtain rfl := Except.ok.inj hs
        exact .handle hqueue hans hw
      · cases hs

/-- `init()` has added the watch of the root and starts its walk. -/
def start (dirs : Dirs) (watch : FsWatch) : World := ⟨dirs, watch, fun _ => [], [.entry [] Fts.FTS_D]⟩

/-- No event is pending and no walk is in progress. -/
def Quiet (s : World) : Prop :=
  s.watch.walking = none ∧ ∀ fd ∈ s.watch.descriptors.keys, s.queue fd = []

instance (s : World) : Decidable s.Quiet := inferInstanceAs (Decidable (_ ∧ _))

end World

end ChCppUtils.FsWatch
