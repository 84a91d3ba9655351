import ChCppUtils.Basic
import ChCppUtils.Lib.Split
import Mathlib.Data.Finset.Basic

/-!
# `Fts` (fts.cpp)

`walk` reads the entries of a file hierarchy and reports some of them. An entry is what `fts_read`
returns; `entry` builds the one at a relative path below the directory of the walk.
-/

namespace ChCppUtils

/-- `OnFileData`, with the two values of `flags` that the code sets. -/
structure OnFileData where
  name : Str
  ext : Str
  path : Str
  flags : Nat
deriving DecidableEq, Repr

def IS_REGULAR : Nat := 0x01
def IS_DIR : Nat := 0x02

/-- `find_last_of(c)` as an `int32_t`: `npos` becomes `-1`. -/
def findLastOf (c : Char) (name : Str) : Int :=
  match Split.rfind c name with
  | some pos => pos
  | none => -1

/-- `name.substr(pos + 1)` behind the last dot: the whole name where there is none. -/
def extOf (name : Str) : Str := name.drop (findLastOf '.' name + 1).toNat

namespace Fts

/-- The codes of `fts_info`, and the masks the code tests them with. -/
def FTS_D : Nat := 1
def FTS_F : Nat := 8

/-- `FTSENT`, as far as `walk` reads it. -/
structure FTSENT where
  fts_info : Nat
  fts_name : Str
  fts_path : Str
deriving DecidableEq, Repr

/-- `class Fts`: the options and the filters. -/
structure Options where
  filters : Finset Str
  bIgnoreHiddenFiles : Bool
  bIgnoreHiddenDirs : Bool
  bIgnoreRegularFiles : Bool
  bIgnoreRegularDirs : Bool

def fireFileCbk (name ext path : Str) : OnFileData := ⟨name, ext, path, IS_REGULAR⟩

def fireDirCbk (name ext path : Str) : OnFileData := ⟨name, ext, path, IS_DIR⟩

/-- What `walk` reports for an entry that passes the test for a file. -/
def onRegular (o : Options) (node : FTSENT) : List OnFileData :=
  let name := node.fts_name
  let pos := findLastOf '.' name
  let ext := extOf name
  let fire := if o.filters = ∅ ∨ ext ∈ o.filters then [fireFileCbk node.fts_name ext node.fts_path] else []
  if pos = 0 then if !o.bIgnoreHiddenFiles then fire else [] else fire

/-- What `walk` reports for an entry that passes the test for a directory. -/
def onDirectory (o : Options) (node : FTSENT) : List OnFileData :=
  let name := node.fts_name
  let pos := findLastOf '.' name
  let fire := [fireDirCbk node.fts_name (extOf name) node.fts_path]
  if pos = 0 then
    if !o.bIgnoreHiddenDirs then if name = ['.'] then [] else fire else []
  else fire

/-- The loop body of `walk`: the callbacks for one entry, in order. -/
def walkEntry (o : Options) (node : FTSENT) : List OnFileData :=
  (if node.fts_info &&& FTS_F ≠ 0 ∧ o.bIgnoreRegularFiles = false then onRegular o node else []) ++
    (if node.fts_info &&& FTS_D ≠ 0 ∧ o.bIgnoreRegularDirs = false then onDirectory o node else [])

/-! ### What is reported -/

def ReportsFile (o : Options) (node : FTSENT) : Prop :=
  node.fts_info &&& FTS_F ≠ 0 ∧ o.bIgnoreRegularFiles = false ∧
    (findLastOf '.' node.fts_name = 0 → o.bIgnoreHiddenFiles = false) ∧
    (o.filters = ∅ ∨ extOf node.fts_name ∈ o.filters)

def ReportsDir (o : Options) (node : FTSENT) : Prop :=
  node.fts_info &&& FTS_D ≠ 0 ∧ o.bIgnoreRegularDirs = false ∧
    (findLastOf '.' node.fts_name = 0 → o.bIgnoreHiddenDirs = false ∧ node.fts_name ≠ ['.'])

instance (o : Options) (node : FTSENT) : Decidable (ReportsFile o node) :=
  inferInstanceAs (Decidable (_ ∧ _ ∧ (_ → _) ∧ _))

instance (o : Options) (node : FTSENT) : Decidable (ReportsDir o node) :=
  inferInstanceAs (Decidable (_ ∧ _ ∧ (_ → _)))

theorem onRegular_eq (o : Options) (node : FTSENT) :
    onRegular o node = if (findLastOf '.' node.fts_name = 0 → o.bIgnoreHiddenFiles = false) ∧
        (o.filters = ∅ ∨ extOf node.fts_name ∈ o.filters) then
      [fireFileCbk node.fts_name (extOf node.fts_name) node.fts_path] else [] := by
  unfold onRegular
  by_cases h0 : findLastOf '.' node.fts_name = 0
  · cases hh : o.bIgnoreHiddenFiles <;> simp [h0]
  · simp [h0]

theorem onDirectory_eq (o : Options) (node : FTSENT) :
    onDirectory o node =
      if findLastOf '.' node.fts_name = 0 → o.bIgnoreHiddenDirs = false ∧ node.fts_name ≠ ['.'] then
        [fireDirCbk node.fts_name (extOf node.fts_name) node.fts_path] else [] := by
  unfold onDirectory
  by_cases h0 : findLastOf '.' node.fts_name = 0
  · cases hh : o.bIgnoreHiddenDirs <;> simp [h0]
  · simp [h0]

theorem walkEntry_eq (o : Options) (node : FTSENT) :
    walkEntry o node =
      (if ReportsFile o node then [fireFileCbk node.fts_name (extOf node.fts_name) node.fts_path] else []) ++
      (if ReportsDir o node then [fireDirCbk node.fts_name (extOf node.fts_name) node.fts_path] else []) := by
  rw [walkEntry, onRegular_eq, onDirectory_eq, ← ite_and, ← ite_and]
  congr 1
  · exact if_congr (by rw [ReportsFile, and_assoc]) rfl rfl
  · exact if_congr (by rw [ReportsDir, and_assoc]) rfl rfl

theorem reports_of_mem_walkEntry {o : Options} {node : FTSENT} {data : OnFileData}
    (h : data ∈ walkEntry o node) : ReportsFile o node ∨ ReportsDir o node := by
  rw [walkEntry_eq, List.mem_append] at h
  rcases h with h | h
  · left
    by_contra hf
    simp [hf] at h
  · right
    by_contra hd
    simp [hd] at h

/-! ### The entries of a hierarchy -/

/-- The path `fts` gives an entry: a `/` at the end of the parent's path is not doubled. -/
def childPath (parent name : Str) : Str :=
  (if parent.getLast? = some '/' then parent.dropLast else parent) ++ ['/'] ++ name

/-- The path of the entry that `rel` leads to from the directory of the walk. -/
def pathOf (root : Str) (rel : List Str) : Str := rel.foldl childPath root

/-- The name `fts` gives the directory of the walk itself: what stands behind its last `/`. -/
def rootName (root : Str) : Str :=
  match Split.rfind '/' root with
  | some pos => if pos ≠ 0 ∨ root.length ≠ 1 then root.drop (pos + 1) else root
  | none => root

def entry (root : Str) (rel : List Str) (info : Nat) : FTSENT :=
  ⟨info, rel.getLast?.getD (rootName root), pathOf root rel⟩

end Fts

end ChCppUtils
