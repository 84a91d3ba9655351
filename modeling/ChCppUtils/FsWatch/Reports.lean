import Mathlib.Algebra.Group.Nat.Defs
import ChCppUtils.FsWatch.Watch
import Mathlib.Data.List.Flatten

/-!
# What a walk reports

The codes of `fts_info` number the kinds of entries, and `walk` tests them with `&`: other kinds have the bit
of a file or of a directory too, and are reported as one unless the options ignore what they are taken for.
`find_last_of('.')` finds the dot of a hidden name only if there is no other, so hidden files and directories
with a second dot are reported although the options ignore them (`walk_eq_iff`). An extension is found even
where there is no dot (`filtersTrue_iff`). A name has at most 255 bytes, so the `int32_t` of the code holds
every position in it (`toInt_findLastOf`).
-/

namespace ChCppUtils

open Split

variable {name : Str} {c : Char}

/-! ### The last dot -/

/-- The `int32_t` that a position, or `npos`, becomes. -/
theorem toInt_findLastOf (h : name.length < 2 ^ 31) :
    (Int32.ofNat ((rfind c name).getD (2 ^ 64 - 1))).toInt = findLastOf c name := by
  unfold findLastOf
  cases hr : rfind c name with
  | none => decide
  | some pos =>
    have hpos : pos < 2 ^ 31 := by
      by_cases hm : c ∈ name
      · obtain ⟨last, hname, hlast⟩ := exists_eq_upToLast hm
        rw [hname, rfind_append hlast] at hr
        have hlen := congrArg List.length hname
        rw [List.length_append, List.length_cons, Option.some.inj hr] at hlen
        omega
      · rw [rfind_eq_none hm] at hr
        cases hr
    exact Int32.toInt_ofNat_of_lt hpos

/-- The text behind the last dot; nothing where there is none. -/
def extension (name : Str) : Str :=
  match rfind '.' name with
  | some pos => name.drop (pos + 1)
  | none => []

theorem extOf_eq_extension (h : '.' ∈ name) : extOf name = extension name := by
  obtain ⟨last, hname, hlast⟩ := exists_eq_upToLast h
  have hr : rfind '.' name = some (upToLast '.' name).length := by
    conv_lhs => rw [hname, rfind_append hlast]
  rw [extOf, extension, findLastOf, hr]
  rfl

theorem extOf_of_no_dot (h : '.' ∉ name) : extOf name = name ∧ extension name = [] := by
  rw [extOf, extension, findLastOf, rfind_eq_none h]
  exact ⟨rfl, rfl⟩

theorem findLastOf_eq_zero_iff : findLastOf '.' name = 0 ↔ name.head? = some '.' ∧ '.' ∉ name.tail := by
  by_cases h : '.' ∈ name
  · obtain ⟨last, hname, hlast⟩ := exists_eq_upToLast h
    generalize upToLast '.' name = front at hname
    subst hname
    rw [findLastOf, rfind_append hlast]
    cases front with
    | nil => simp [hlast]
    | cons d front =>
      refine iff_of_false (fun h => ?_) (by simp)
      have : (front.length : Int) + 1 = 0 := by simpa using h
      omega
  · rw [findLastOf, rfind_eq_none h]
    refine iff_of_false (by decide) fun hd => h ?_
    obtain ⟨rest, rfl⟩ := List.head?_eq_some_iff.1 hd.1
    exact List.mem_cons_self

namespace Fts

variable {o : Options} {node : FTSENT}

/-- `walk`, for the entries that `fts_read` returns: the callbacks in order. -/
def walk (o : Options) (nodes : List FTSENT) : List OnFileData := nodes.flatMap (walkEntry o)

/-! ### Kinds -/

/-- The codes up to `FTS_SLNONE` that pass for a file, and those that pass for a directory. -/
example : (List.range 14).filter (· &&& FTS_F ≠ 0) = [8, 9, 10, 11, 12, 13] ∧
    (List.range 14).filter (· &&& FTS_D ≠ 0) = [1, 3, 5, 7, 9, 11, 13] := by decide

/-- The name starts with a dot and has no other. -/
def DotOnlyFirst (name : Str) : Prop := name.head? = some '.' ∧ '.' ∉ name.tail

instance (name : Str) : Decidable (DotOnlyFirst name) := inferInstanceAs (Decidable (_ ∧ _))

/-- What a callback is about: its flags, the name and the path. -/
def kindOf (data : OnFileData) : Nat × Str × Str := (data.flags, data.name, data.path)

/-- The options ignore a file of this name: all files, or hidden ones, whose name starts with a dot. -/
def IgnoresFile (o : Options) (name : Str) : Prop :=
  o.bIgnoreRegularFiles = true ∨ name.head? = some '.' ∧ o.bIgnoreHiddenFiles = true

def IgnoresDir (o : Options) (name : Str) : Prop :=
  o.bIgnoreRegularDirs = true ∨ name.head? = some '.' ∧ o.bIgnoreHiddenDirs = true

instance (o : Options) (name : Str) : Decidable (IgnoresFile o name) := inferInstanceAs (Decidable (_ ∨ _))

instance (o : Options) (name : Str) : Decidable (IgnoresDir o name) := inferInstanceAs (Decidable (_ ∨ _))

/-- One callback for a file that is not ignored, one for a directory that is not, and none for other kinds. -/
def reportByKind (o : Options) (node : FTSENT) : List (Nat × Str × Str) :=
  if node.fts_info = FTS_F ∧ ¬ IgnoresFile o node.fts_name then [(IS_REGULAR, node.fts_name, node.fts_path)]
  else if node.fts_info = FTS_D ∧ ¬ IgnoresDir o node.fts_name then [(IS_DIR, node.fts_name, node.fts_path)]
  else []

/-- Where a report is right: a file, unless hidden files are ignored and its name has a second dot; a directory,
unless hidden ones are ignored and its name has a second dot, or they are not and it is `.`; and of another kind
what is ignored as all that its bits take it for. -/
def KindTold (o : Options) (node : FTSENT) : Prop :=
  if node.fts_info = FTS_F then
    o.bIgnoreRegularFiles = true ∨ o.bIgnoreHiddenFiles = false ∨
      ¬ (node.fts_name.head? = some '.' ∧ '.' ∈ node.fts_name.tail)
  else if node.fts_info = FTS_D then
    o.bIgnoreRegularDirs = true ∨ o.bIgnoreHiddenDirs = false ∧ node.fts_name ≠ ['.'] ∨
      o.bIgnoreHiddenDirs = true ∧ ¬ (node.fts_name.head? = some '.' ∧ '.' ∈ node.fts_name.tail)
  else
    (node.fts_info &&& FTS_F ≠ 0 →
      o.bIgnoreRegularFiles = true ∨ DotOnlyFirst node.fts_name ∧ o.bIgnoreHiddenFiles = true) ∧
    (node.fts_info &&& FTS_D ≠ 0 → o.bIgnoreRegularDirs = true ∨
      DotOnlyFirst node.fts_name ∧ (o.bIgnoreHiddenDirs = true ∨ node.fts_name = ['.']))

instance (o : Options) (node : FTSENT) : Decidable (KindTold o node) := by
  delta KindTold
  infer_instance

theorem reportsFile_iff (hf : o.filters = ∅) : ReportsFile o node ↔ node.fts_info &&& FTS_F ≠ 0 ∧
    ¬ (o.bIgnoreRegularFiles = true ∨ DotOnlyFirst node.fts_name ∧ o.bIgnoreHiddenFiles = true) := by
  simp [ReportsFile, DotOnlyFirst, findLastOf_eq_zero_iff, hf]

theorem reportsDir_iff : ReportsDir o node ↔ node.fts_info &&& FTS_D ≠ 0 ∧ ¬ (o.bIgnoreRegularDirs = true ∨
    DotOnlyFirst node.fts_name ∧ (o.bIgnoreHiddenDirs = true ∨ node.fts_name = ['.'])) := by
  simp [ReportsDir, DotOnlyFirst, findLastOf_eq_zero_iff]

/-- What `walk` reports for an entry, without the extensions. -/
theorem kindOf_walkEntry (o : Options) (node : FTSENT) : (walkEntry o node).map kindOf =
    (if ReportsFile o node then [(IS_REGULAR, node.fts_name, node.fts_path)] else []) ++
      if ReportsDir o node then [(IS_DIR, node.fts_name, node.fts_path)] else [] := by
  rw [walkEntry_eq, List.map_append]
  congr 1
  · split <;> rfl
  · split <;> rfl

theorem ite_singleton_eq_iff {α : Type} {p q : Prop} [Decidable p] [Decidable q] (x : α) :
    (if p then [x] else []) = (if q then [x] else []) ↔ (p ↔ q) := by
  by_cases hp : p <;> by_cases hq : q <;> simp [hp, hq]

theorem walkEntry_eq_reportByKind_iff (hf : o.filters = ∅) :
    (walkEntry o node).map kindOf = reportByKind o node ↔ KindTold o node := by
  rw [kindOf_walkEntry, reportByKind, KindTold]
  simp only [reportsFile_iff hf, reportsDir_iff, IgnoresFile, IgnoresDir]
  by_cases hfile : node.fts_info = FTS_F
  · have hbits : FTS_F &&& FTS_F ≠ 0 ∧ FTS_F &&& FTS_D = 0 := by decide
    have hne : FTS_F ≠ FTS_D := by decide
    simp only [hfile, hbits, hne, ne_eq, not_true_eq_false, not_false_eq_true, true_and, false_and, if_true,
      if_false, List.append_nil]
    rw [ite_singleton_eq_iff, DotOnlyFirst]
    by_cases hhead : node.fts_name.head? = some '.'
    · by_cases htail : '.' ∈ node.fts_name.tail <;> cases o.bIgnoreRegularFiles <;> cases o.bIgnoreHiddenFiles <;>
        simp [hhead, htail]
    · simp [hhead]
  · by_cases hdir : node.fts_info = FTS_D
    · have hbits : FTS_D &&& FTS_D ≠ 0 ∧ FTS_D &&& FTS_F = 0 := by decide
      have hne : FTS_D ≠ FTS_F := by decide
      simp only [hdir, hbits, hne, ne_eq, not_true_eq_false, not_false_eq_true, true_and, false_and, if_true,
        if_false, List.nil_append]
      rw [ite_singleton_eq_iff, DotOnlyFirst]
      by_cases hname : node.fts_name = ['.']
      · cases o.bIgnoreRegularDirs <;> cases o.bIgnoreHiddenDirs <;> simp [hname]
      · by_cases hhead : node.fts_name.head? = some '.'
        · by_cases htail : '.' ∈ node.fts_name.tail <;> cases o.bIgnoreRegularDirs <;> cases o.bIgnoreHiddenDirs <;>
            simp [hname, hhead, htail]
        · simp [hname, hhead]
    · simp only [hfile, hdir, false_and, if_false, List.append_eq_nil_iff, ite_eq_right_iff, List.cons_ne_nil,
        imp_false, not_and_not_right]

theorem notMem_walkEntry (o : Options) (node : FTSENT) (path : Str) :
    (IS_DIR, ['.'], path) ∉ (walkEntry o node).map kindOf := by
  rw [kindOf_walkEntry, List.mem_append, not_or]
  constructor
  · intro hmem
    split at hmem
    · exact absurd (Prod.mk.inj (List.mem_singleton.1 hmem)).1 (by decide)
    · cases hmem
  · intro hmem
    split at hmem
    · rename_i hdir
      obtain ⟨hname, -⟩ := Prod.mk.inj (Prod.mk.inj (List.mem_singleton.1 hmem)).2
      refine (reportsDir_iff.1 hdir).2 (.inr ⟨?_, .inr hname.symm⟩)
      rw [← hname]
      exact ⟨rfl, List.not_mem_nil⟩
    · cases hmem

/-- What should be reported is reported, but for the entry `.`. -/
theorem reportByKind_sublist (hf : o.filters = ∅) (hname : (IS_DIR, ['.'], node.fts_path) ∉ reportByKind o node) :
    (reportByKind o node).Sublist ((walkEntry o node).map kindOf) := by
  rw [kindOf_walkEntry]
  unfold reportByKind at hname ⊢
  split
  · rename_i h
    have hfile : ReportsFile o node := by
      refine (reportsFile_iff hf).2 ⟨by rw [h.1]; decide, fun hign => h.2 ?_⟩
      exact hign.imp_right fun hdot => ⟨hdot.1.1, hdot.2⟩
    rw [if_pos hfile]
    exact List.sublist_append_left _ _
  · rename_i hfile
    rw [if_neg hfile] at hname
    split
    · rename_i h
      rw [if_pos h] at hname
      have hdir : ReportsDir o node := by
        refine reportsDir_iff.2 ⟨by rw [h.1]; decide, fun hign => ?_⟩
        rcases hign with hall | ⟨hdot, hhidden | hdotdir⟩
        · exact h.2 (.inl hall)
        · exact h.2 (.inr ⟨hdot.1, hhidden⟩)
        · exact hname (by rw [hdotdir]; exact List.mem_cons_self)
      rw [if_pos hdir]
      exact List.sublist_append_right _ _
    · exact List.nil_sublist _

/-- Pieces that are part of others make the same list only if they are the same. -/
theorem flatMap_eq_iff {α β : Type} {f g : α → List β} {l : List α} (h : ∀ a ∈ l, (g a).Sublist (f a)) :
    l.flatMap f = l.flatMap g ↔ ∀ a ∈ l, f a = g a := by
  induction l with
  | nil => simp
  | cons a l ih =>
    obtain ⟨ha, hl⟩ := List.forall_mem_cons.1 h
    rw [List.flatMap_cons, List.flatMap_cons, List.forall_mem_cons, ← ih hl]
    constructor
    · intro heq
      have hlen := congrArg List.length heq
      rw [List.length_append, List.length_append] at hlen
      have hrest := (List.Sublist.flatMap_right l hl).length_le
      have hfirst := ha.length_le
      exact List.append_inj heq (by omega)
    · rintro ⟨heq, hrest⟩
      rw [heq, hrest]

/-- Without filters, what is reported is right iff it is for each entry. -/
theorem walk_eq_iff (o : Options) (nodes : List FTSENT) (hf : o.filters = ∅) :
    (walk o nodes).map kindOf = nodes.flatMap (reportByKind o) ↔ ∀ node ∈ nodes, KindTold o node := by
  have heach : (∀ node ∈ nodes, KindTold o node) ↔
      ∀ node ∈ nodes, (walkEntry o node).map kindOf = reportByKind o node :=
    forall₂_congr fun node _ => (walkEntry_eq_reportByKind_iff hf).symm
  rw [heach, walk, List.map_flatMap]
  constructor
  · intro heq
    have hname : ∀ node ∈ nodes, (IS_DIR, ['.'], node.fts_path) ∉ reportByKind o node := by
      intro node hnode hmem
      have hin := List.mem_flatMap.2 ⟨node, hnode, hmem⟩
      rw [← heq] at hin
      obtain ⟨node', -, hin⟩ := List.mem_flatMap.1 hin
      exact notMem_walkEntry o node' _ hin
    exact (flatMap_eq_iff fun node hnode => reportByKind_sublist hf (hname node hnode)).1 heq
  · intro h
    exact List.flatMap_congr h

/-- A directory with a file in it, read again in post-order (`FTS_DP`). -/
theorem walk_file_in_directory : (walk FsWatch.options
      [⟨FTS_D, "a".toList, "r/a".toList⟩, ⟨FTS_F, "x".toList, "r/a/x".toList⟩, ⟨6, "a".toList, "r/a".toList⟩]).map kindOf =
    List.flatMap (reportByKind FsWatch.options)
      [⟨FTS_D, "a".toList, "r/a".toList⟩, ⟨FTS_F, "x".toList, "r/a/x".toList⟩, ⟨6, "a".toList, "r/a".toList⟩] :=
  (walk_eq_iff FsWatch.options _ rfl).2 (by decide)

/-- `FTS_SL`: a symbolic link is reported as a regular file. -/
theorem walk_ne_symlink : (walk FsWatch.options [⟨12, "l".toList, "r/l".toList⟩]).map kindOf ≠
    List.flatMap (reportByKind FsWatch.options) [⟨12, "l".toList, "r/l".toList⟩] := by
  decide

/-! ### Names -/

/-- The filters let the extension of the name through, if there are any. -/
def Wanted (filters : Finset Str) (name : Str) : Prop := filters = ∅ ∨ extension name ∈ filters

instance (filters : Finset Str) (name : Str) : Decidable (Wanted filters name) := inferInstanceAs (Decidable (_ ∨ _))

/-- A regular file is reported iff its name is neither ignored as hidden nor filtered out; and the extension
passes in `handleFileModify` iff it passes here. -/
structure FiltersTrue (o : Options) (name : Str) : Prop where
  walk : ∀ path, walkEntry o ⟨FTS_F, name, path⟩ ≠ [] ↔ o.bIgnoreRegularFiles = false ∧
    (name.head? ≠ some '.' ∨ o.bIgnoreHiddenFiles = false) ∧ Wanted o.filters name
  modify : ∀ (s s' : FsWatch) fd event out, s.filters = o.filters → s.onNewFile = true → event.name = name →
    s.handleFileModify fd event = .ok (s', out) → (out ≠ [] ↔ Wanted o.filters name)

theorem wanted_iff (filters : Finset Str) (name : Str) :
    ((filters = ∅ ∨ extOf name ∈ filters) ↔ Wanted filters name) ↔
      '.' ∈ name ∨ filters = ∅ ∨ (name ∈ filters ↔ [] ∈ filters) := by
  unfold Wanted
  by_cases hdot : '.' ∈ name
  · simp [extOf_eq_extension hdot, hdot]
  · obtain ⟨hext, hnone⟩ := extOf_of_no_dot hdot
    rw [hext, hnone]
    by_cases hf : filters = ∅
    · simp [hf]
    · simp [hf, hdot]

theorem handleFileModify_ne_nil_iff {s s' : FsWatch} {fd : Int} {event : InotifyEvent} {out : List Notice}
    (hcb : s.onNewFile = true) (h : s.handleFileModify fd event = .ok (s', out)) :
    out ≠ [] ↔ s.filters = ∅ ∨ extOf event.name ∈ s.filters := by
  obtain ⟨path, -, h⟩ := Res.of_bind h
  obtain ⟨-, rfl⟩ := Prod.mk.inj (Except.ok.inj h)
  rw [if_pos hcb]
  split
  · rename_i hw
    exact iff_of_true (List.cons_ne_nil _ _) hw
  · rename_i hw
    exact iff_of_false (fun hne => hne rfl) hw

theorem walkEntry_ne_nil_iff (path : Str) : walkEntry o ⟨FTS_F, name, path⟩ ≠ [] ↔
    o.bIgnoreRegularFiles = false ∧ (findLastOf '.' name = 0 → o.bIgnoreHiddenFiles = false) ∧
      (o.filters = ∅ ∨ extOf name ∈ o.filters) := by
  have hd : ¬ ReportsDir o ⟨FTS_F, name, path⟩ := fun h => h.1 (by decide : FTS_F &&& FTS_D = 0)
  have hf : ReportsFile o ⟨FTS_F, name, path⟩ ↔ o.bIgnoreRegularFiles = false ∧
      (findLastOf '.' name = 0 → o.bIgnoreHiddenFiles = false) ∧ (o.filters = ∅ ∨ extOf name ∈ o.filters) :=
    and_iff_right (by decide : FTS_F &&& FTS_F ≠ 0)
  rw [walkEntry_eq, if_neg hd, List.append_nil, ← hf]
  split
  · rename_i h
    exact iff_of_true (List.cons_ne_nil _ _) h
  · rename_i h
    exact iff_of_false (fun hne => hne rfl) h

/-- What `walk` reports is right where the extension is, and the name of no hidden file has a second dot. -/
theorem walk_true_iff (hext : (o.filters = ∅ ∨ extOf name ∈ o.filters) ↔ Wanted o.filters name) :
    (∀ path, walkEntry o ⟨FTS_F, name, path⟩ ≠ [] ↔ o.bIgnoreRegularFiles = false ∧
      (name.head? ≠ some '.' ∨ o.bIgnoreHiddenFiles = false) ∧ Wanted o.filters name) ↔
    ¬ (name.head? = some '.' ∧ '.' ∈ name.tail ∧ o.bIgnoreRegularFiles = false ∧ o.bIgnoreHiddenFiles = true ∧
      Wanted o.filters name) := by
  simp only [walkEntry_ne_nil_iff, hext, findLastOf_eq_zero_iff]
  cases o.bIgnoreHiddenFiles with
  | false => simp
  | true =>
    by_cases hhead : name.head? = some '.'
    · by_cases htail : '.' ∈ name.tail
      · simp [hhead, htail]
      · simp [hhead, htail]
    · simp [hhead]

/-- Both tests are right iff the name is not that of a hidden file that a second dot lets through, and is
not one without a dot that passes where an empty extension does not, or the other way round. -/
theorem filtersTrue_iff (o : Options) (name : Str) : FiltersTrue o name ↔
    ¬ (name.head? = some '.' ∧ '.' ∈ name.tail ∧ o.bIgnoreRegularFiles = false ∧ o.bIgnoreHiddenFiles = true ∧
      Wanted o.filters name) ∧ ('.' ∈ name ∨ o.filters = ∅ ∨ (name ∈ o.filters ↔ [] ∈ o.filters)) := by
  rw [← wanted_iff]
  constructor
  · intro h
    -- a watcher with these filters handles an event of its root
    let s : FsWatch := { FsWatch.new [] true false o.filters with map := UnorderedMap.emplace ∅ 3 [] }
    have hext : (o.filters = ∅ ∨ extOf name ∈ o.filters) ↔ Wanted o.filters name := by
      have hs : s.handleFileModify 3 ⟨.closeWrite, false, name⟩ = .ok (s, _) := rfl
      exact (handleFileModify_ne_nil_iff (by rfl) hs).symm.trans (h.modify s s 3 _ _ rfl rfl rfl hs)
    exact ⟨(walk_true_iff hext).1 h.walk, hext⟩
  · rintro ⟨hhidden, hext⟩
    refine ⟨(walk_true_iff hext).2 hhidden, fun s s' fd event out hfilters hcb hname hs => ?_⟩
    rw [handleFileModify_ne_nil_iff hcb hs, hfilters, hname]
    exact hext

/-- `.a.b` is reported although hidden files are ignored. -/
theorem not_filtersTrue_hidden : ¬ FiltersTrue FsWatch.options ".a.b".toList := by
  intro h
  exact absurd (h.walk "r/.a.b".toList) (by decide)

end Fts

end ChCppUtils
