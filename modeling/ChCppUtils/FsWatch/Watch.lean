import ChCppUtils.DirTree.Tree
import ChCppUtils.FsWatch.Paths
import ChCppUtils.Lib.UnorderedMap

/-!
# `FsWatch` (fs-watch.cpp)

The watcher with the descriptors the kernel has open for it. A step is the handling of one inotify
event, or of one entry of a walk: the walk that `init` or a directory-create event starts goes on,
entry by entry, before the next event is read. The kernel's answers come with the step: the number
of a descriptor is any that is not open at that moment.
-/

namespace ChCppUtils

open Fts (walkEntry)

/-- `TreeNode`; `addr` tells the objects apart. -/
structure TreeNode where
  addr : Nat
  path : Str
  fd : Int
  wd : Int
deriving DecidableEq, Repr

/-- An open inotify descriptor: the directory it was made for, the result of `inotify_add_watch`, and
whether `epoll_ctl` has registered it. -/
structure Descriptor where
  dir : Str
  wd : Int
  epoll : Bool
deriving DecidableEq, Repr

/-- What `inotify_init1`, `inotify_add_watch` and `epoll_ctl` return. -/
structure Answer where
  fd : Int
  wd : Int
  epoll : Bool
deriving DecidableEq, Repr

/-- The bit of an event's mask that says what happened. -/
inductive EventBit where
  | create | closeWrite | movedTo | delete | other
deriving DecidableEq, Repr

/-- `inotify_event`, with the flag `IN_ISDIR` of its mask apart. -/
structure InotifyEvent where
  bit : EventBit
  isDir : Bool
  name : Str
deriving DecidableEq, Repr

inductive Notice where
  | newFile (data : OnFileData)
  | emptyDir (data : OnFileData)
deriving DecidableEq, Repr

/-- `class FsWatch`. The callbacks are set or not. `walking` is the directory of the walk the watcher
is in. `descriptors`, `allocated` and `deleted` are the kernel's and the heap's. -/
structure FsWatch where
  root : Str
  map : UnorderedMap Int Str
  set : Finset Str
  tree : DirTree TreeNode
  onNewFile : Bool
  onEmptyDir : Bool
  filters : Finset Str
  walking : Option Str
  descriptors : UnorderedMap Int Descriptor
  allocated : Nat
  deleted : List Nat

namespace FsWatch

/-- The options `init` gives its `Fts`. -/
def options : Fts.Options where
  filters := ∅
  bIgnoreHiddenFiles := true
  bIgnoreHiddenDirs := true
  bIgnoreRegularFiles := false
  bIgnoreRegularDirs := false

def addToTree (s : FsWatch) (dir : Str) (fd wd : Int) : FsWatch :=
  if dir.length = 0 ∧ fd = -1 ∧ wd = -1 then { s with tree := s.tree.insert dir none }
  else { s with
    tree := s.tree.insert dir (some ⟨s.allocated, dir, fd, wd⟩)
    allocated := s.allocated + 1 }

def removeFromTree (s : FsWatch) (dir : Str) : FsWatch := { s with tree := (s.tree.drop dir).1 }

/-- The part of `addWatch` that follows the calls of the kernel. -/
def install (s : FsWatch) (dir : Str) (ans : Answer) : FsWatch :=
  { s with
    descriptors := AList.insert ans.fd ⟨dir, ans.wd, ans.epoll⟩ s.descriptors
    map := s.map.emplace ans.fd dir
    set := insert dir s.set }.addToTree dir ans.fd ans.wd

/-- `addWatch(dir, true)`. What `inotify_add_watch` and `epoll_ctl` return is not looked at. -/
def addWatch (s : FsWatch) (dir : Str) (ans : Answer) : Res FsWatch :=
  if dir ∈ s.set then pure s
  else if ans.fd = -1 then throw .exitFailure
  else if ans.fd < 0 ∨ ans.fd ∈ s.descriptors then throw .badAnswer
  else pure (s.install dir ans)

/-- Closing a descriptor that is not open does nothing. -/
def dropCbk (s : FsWatch) (path : Str) (data : Option TreeNode) : Res FsWatch :=
  match data with
  | none => throw .nullDeref
  | some node => pure { s with
      set := s.set.erase path
      descriptors := AList.erase node.fd s.descriptors
      deleted := node.addr :: s.deleted }

/-- The callback leaves the tree alone, so its calls come before the change of the tree. -/
def removeWatch (s : FsWatch) (dir : Str) : Res FsWatch := do
  let (tree, calls) := s.tree.drop dir
  let s ← calls.foldlM (fun s (path, data) => s.dropCbk path data) s
  return { s with tree := tree }

def fireFileCbk (name ext path : Str) : Notice := .newFile ⟨name, ext, path, IS_REGULAR⟩

def fireDirCbk (name ext path : Str) : Notice := .emptyDir ⟨name, ext, path, IS_DIR⟩

def getFullPath (s : FsWatch) (fd : Int) (event : InotifyEvent) : Res Str :=
  match s.map.lookup fd with
  | none => throw .endDeref
  | some dir => pure (dir ++ (if s.root.getLast? = some '/' then [] else ['/']) ++ event.name)

/-- `deletedChild.substr(0, deletedChild.find_last_of('/'))` is the path up to its last `/`. -/
def checkEmptyDir (s : FsWatch) (deletedChild : Str) : Res (List Notice) :=
  if s.onEmptyDir then do
    let parent := Split.upToLast '/' deletedChild
    if ← s.tree.hasChildren parent then return []
    else if parent ≠ s.root then return [fireDirCbk parent [] parent]
    else return []
  else return []

def handleFileModify (s : FsWatch) (fd : Int) (event : InotifyEvent) : Res (FsWatch × List Notice) := do
  let path ← s.getFullPath fd event
  let name := event.name
  let ext := extOf name
  let fired :=
    if s.onNewFile then
      if s.filters = ∅ ∨ ext ∈ s.filters then [fireFileCbk name ext path] else []
    else []
  return (if s.onEmptyDir then s.addToTree [] (-1) (-1) else s, fired)

def handleFileDelete (s : FsWatch) (fd : Int) (event : InotifyEvent) : Res (FsWatch × List Notice) :=
  if s.onEmptyDir then do
    let path ← s.getFullPath fd event
    let s := s.removeFromTree path
    return (s, ← s.checkEmptyDir path)
  else return (s, [])

/-- Up to the walk of the new directory, which the next steps make. -/
def handleDirectoryCreate (s : FsWatch) (fd : Int) (event : InotifyEvent) (ans : Answer) :
    Res (FsWatch × List Notice) := do
  let newDir ← s.getFullPath fd event
  let s ← s.addWatch newDir ans
  return ({ s with walking := some newDir }, [])

def handleDirectoryDelete (s : FsWatch) (fd : Int) (event : InotifyEvent) : Res (FsWatch × List Notice) := do
  let deleteDir ← s.getFullPath fd event
  let s ← s.removeWatch deleteDir
  return (s, ← s.checkEmptyDir deleteDir)

/-- The body of the loop of `handleActivity`. An event has one bit, so one of the tests at most
succeeds. -/
def handleEvent (s : FsWatch) (fd : Int) (event : InotifyEvent) (ans : Answer) :
    Res (FsWatch × List Notice) :=
  if event.isDir = true ∧ event.bit = .create then s.handleDirectoryCreate fd event ans
  else if event.isDir = false ∧ (event.bit = .closeWrite ∨ event.bit = .movedTo) then
    s.handleFileModify fd event
  else if event.isDir = false ∧ event.bit = .delete then s.handleFileDelete fd event
  else if event.isDir = true ∧ event.bit = .delete then s.handleDirectoryDelete fd event
  else pure (s, [])

/-- `onFile(data)`, the callback of the walks. -/
def onFile (s : FsWatch) (ans : Answer) (data : OnFileData) : Res FsWatch :=
  if data.flags &&& IS_DIR ≠ 0 then s.addWatch data.path ans
  else if data.flags &&& IS_REGULAR ≠ 0 then
    pure (if s.onEmptyDir then s.addToTree data.path (-1) (-1) else s)
  else pure s

/-! ### Steps -/

inductive Action where
  /-- `fts_read` returns the entry at `rel` below the directory of the walk. -/
  | entry (rel : List Str) (info : Nat) (ans : Answer)
  /-- `fts_read` returns null. -/
  | walkDone
  /-- An event is read from a descriptor. -/
  | event (fd : Int) (event : InotifyEvent) (ans : Answer)
deriving DecidableEq, Repr

def step (s : FsWatch) : Action → Res (FsWatch × List Notice)
  | .entry rel info ans =>
    match s.walking with
    | none => throw .badAnswer
    | some dir =>
      if ∀ name ∈ rel, IsName name then do
        let s ← (walkEntry options (Fts.entry dir rel info)).foldlM (fun s data => s.onFile ans data) s
        return (s, [])
      else throw .badAnswer
  | .walkDone => if s.walking = none then throw .badAnswer else pure ({ s with walking := none }, [])
  | .event fd event ans =>
    -- an event about the watched directory itself has no name, and none of the bits that count
    if s.walking = none ∧ fd ∈ s.descriptors ∧ (event.bit = .other ∨ IsName event.name) then
      -- `epollThreadRoutine` handles the descriptors it finds in `map`
      if fd ∈ s.map then s.handleEvent fd event ans else pure (s, [])
    else throw .badAnswer

/-- `FsWatch(root)` with its callbacks and filters set, and the tree that `init` makes. -/
def new (root : Str) (onNewFile onEmptyDir : Bool) (filters : Finset Str) : FsWatch :=
  ⟨root, ∅, ∅, DirTree.new, onNewFile, onEmptyDir, filters, none, ∅, 0, []⟩

/-- `init()` up to its walk; `Fts` walks `.` in place of an empty root. -/
def init (s : FsWatch) (ans : Answer) : Res FsWatch := do
  let s ← s.addWatch s.root ans
  return { s with walking := some (if s.root.length = 0 then ['.'] else s.root) }

/-- A step without what it fires. -/
def next (s : FsWatch) (a : Action) : Res FsWatch := (s.step a).map Prod.fst

end FsWatch

end ChCppUtils
