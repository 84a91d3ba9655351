import ChCppUtils.Basic
import ChCppUtils.Lib.FileTree
import ChCppUtils.Lib.Progress
import ChCppUtils.Lib.Split
import ChCppUtils.Lib.Tally

/-!
# Making the directories of a path

`mkpath` calls `do_mkdir` for each directory on the path, from the top. `do_mkdir` asks first (`stat`) and makes
the directory then (`mkdir`), so that another caller may come in between: that is what the test for `EEXIST` is
for. Whether a call succeeds is decided when it starts (`mkpath_eq_zero_iff`), and callers at work on one
file system at the same time do not change that, whatever the order of their system calls (`mkpath_concurrent`).

The system calls are a parameter. What is shown of `mkpath` is for paths on which they answer as documented for a
tree without symbolic links, with all permissions and within the limits of names and paths (`Plain`). Nothing is
removed in the meantime.
-/

namespace ChCppUtils.MkPath

abbrev Fs := FileTree Str ['.'] ['.', '.']

open FileTree Runs

/-- What `mkdir` leaves in `errno`, as far as the caller looks. -/
inductive Errno where
  | eexist
  | other
deriving DecidableEq, Repr

/-- The inode that the lookup of a path starts from. -/
def start (cwd : Nat) (path : Str) : Nat := if path.head? = some '/' then 0 else cwd

def names (path : Str) : List Str := Split.segs '/' path

/-- What is there: is it a directory? -/
def found (fs : Fs) (cwd : Nat) (path : Str) : Option Bool :=
  if path = [] then none
  else match fs.walk (start cwd path) (names path) with
    | none => none
    | some i => if path.getLast? = some '/' ∧ fs.isDir i = false then none else some (fs.isDir i)

/-- A new directory in `d`. -/
def mkdirAt (fs : Fs) (d : Nat) (name : Str) : Except Errno Fs :=
  if hd : fs.isDir d = true then
    if hn : fs.entry d name = none then .ok (fs.makeDir d name hd hn) else .error .eexist
  else .error .other

def make (fs : Fs) (cwd : Nat) (path : Str) : Except Errno Fs :=
  if path = [] then .error .other
  else match (names path).getLast?, fs.walk (start cwd path) (names path).dropLast with
    | none, _ => .error .eexist
    | some _, none => .error .other
    | some name, some d => mkdirAt fs d name

/-- `stat`, if it returns 0 with whether there is a directory, and `mkdir` with the `mode` of the call. -/
structure SystemCalls where
  stat : Fs → Nat → Str → Option Bool
  mkdir : Fs → Nat → Str → Except Errno Fs

/-- The calls are permitted for the path, no limit is exceeded and no symbolic link is on it. -/
structure SystemCalls.Plain (os : SystemCalls) (cwd : Nat) (path : Str) : Prop where
  stat : ∀ fs, os.stat fs cwd path = found fs cwd path
  mkdir : ∀ fs, os.mkdir fs cwd path = make fs cwd path

def doMkdir (os : SystemCalls) (fs : Fs) (cwd : Nat) (path : Str) : Fs × Int :=
  match os.stat fs cwd path with
  | none =>
    match os.mkdir fs cwd path with
    | .ok fs' => (fs', 0)
    | .error .eexist => (fs, 0)
    | .error .other => (fs, -1)
  | some isDir => if isDir then (fs, 0) else (fs, -1)

/-- The calls of `do_mkdir` in the loop: `copy` is what was scanned, `piece` its part from `pp` on. -/
def loopCalls (copy piece : Str) : Str → List Str
  | [] => []
  | c :: rest =>
    if c = '/' then (if piece = [] then [] else [copy]) ++ loopCalls (copy ++ [c]) [] rest
    else loopCalls (copy ++ [c]) (piece ++ [c]) rest

def calls (path : Str) : List Str := loopCalls [] [] path ++ [path]

/-- The calls one after the other, while the status is 0. -/
def mkpathFrom (os : SystemCalls) (cwd : Nat) : Fs → List Str → Fs × Int
  | fs, [] => (fs, 0)
  | fs, path :: rest =>
    if (doMkdir os fs cwd path).2 = 0 then mkpathFrom os cwd (doMkdir os fs cwd path).1 rest
    else doMkdir os fs cwd path

def mkpath (os : SystemCalls) (fs : Fs) (cwd : Nat) (path : Str) : Fs × Int := mkpathFrom os cwd fs (calls path)

/-- The path is handed on as a C string. -/
def mkPath (os : SystemCalls) (fs : Fs) (cwd : Nat) (path : Str) : Fs × Bool :=
  let (fs', rc) := mkpath os fs cwd (path.takeWhile (· ≠ '\x00'))
  (fs', rc == 0)

/-- Of all the limits, the one on the length of a name. -/
def nameMax (max : Nat) : SystemCalls where
  stat fs cwd path := if ∀ name ∈ names path, name.length ≤ max then found fs cwd path else none
  mkdir fs cwd path := if ∀ name ∈ names path, name.length ≤ max then make fs cwd path else .error .other

theorem plain_nameMax {max cwd : Nat} {path : Str} (h : ∀ name ∈ names path, name.length ≤ max) :
    (nameMax max).Plain cwd path := ⟨fun _ => if_pos h, fun _ => if_pos h⟩

/-! ### The calls for one path -/

/-- The calls lead from the names `ns` to `full`, each at most one name further. -/
inductive Chain (os : SystemCalls) (cwd st : Nat) : List Str → List Str → List Str → Prop
  | done (ns : List Str) : Chain os cwd st ns [] ns
  | again {ns full : List Str} {path : Str} {rest : List Str} (hos : os.Plain cwd path) (hne : path ≠ [])
      (hst : start cwd path = st) (h : names path = ns) (hrest : Chain os cwd st ns rest full) :
      Chain os cwd st ns (path :: rest) full
  | further {ns full : List Str} {path : Str} {rest : List Str} (x : Str) (hos : os.Plain cwd path) (hne : path ≠ [])
      (hst : start cwd path = st) (hlast : path.getLast? ≠ some '/') (h : names path = ns ++ [x])
      (hrest : Chain os cwd st (ns ++ [x]) rest full) : Chain os cwd st ns (path :: rest) full

variable {os : SystemCalls} {fs fs' : Fs} {cwd st d i : Nat} {path p x : Str} {ns full : List Str} {rest todo : List Str}

theorem Chain.prefix (h : Chain os cwd st ns todo full) : ns <+: full := by
  induction h with
  | done ns => exact List.prefix_rfl
  | again _ _ _ _ _ ih => exact ih
  | further x _ _ _ _ _ _ ih => exact (List.prefix_append _ _).trans ih

theorem names_of_piece (h : '/' ∉ p) : names p = if p = [] then [] else [p] := Split.segs_of_not_mem h

theorem start_append (cwd : Nat) (hp : p ≠ []) (q : Str) : start cwd (p ++ q) = start cwd p := by
  obtain ⟨c, p, rfl⟩ := List.exists_cons_of_ne_nil hp
  rfl

/-- `copy` ends in `piece`, and the names before that are `ns`. -/
def Scanned (copy piece : Str) (ns : List Str) : Prop :=
  '/' ∉ piece ∧ (copy = piece ∧ ns = [] ∨ ∃ front, copy = front ++ '/' :: piece ∧ ns = names front)

variable {copy piece left : Str}

theorem Scanned.names (h : Scanned copy piece ns) : names copy = ns ++ names piece := by
  obtain ⟨-, ⟨rfl, rfl⟩ | ⟨front, rfl, rfl⟩⟩ := h
  · rfl
  · exact Split.segs_append_cons front piece

theorem Scanned.getLast? (h : Scanned copy piece ns) (hp : piece ≠ []) : copy.getLast? ≠ some '/' := by
  have hpiece : piece.getLast? ≠ some '/' := fun hl => h.1 (List.mem_of_getLast? hl)
  obtain ⟨-, ⟨rfl, -⟩ | ⟨front, rfl, -⟩⟩ := h
  · exact hpiece
  · rwa [List.getLast?_append_of_ne_nil _ (List.cons_ne_nil _ _), List.getLast?_cons,
      Option.getD_of_ne_none (by simpa using hp)]

theorem Scanned.slash (h : Scanned copy piece ns) : Scanned (copy ++ ['/']) [] (ns ++ MkPath.names piece) :=
  ⟨List.not_mem_nil, .inr ⟨copy, rfl, h.names.symm⟩⟩

theorem Scanned.char {c : Char} (h : Scanned copy piece ns) (hc : c ≠ '/') : Scanned (copy ++ [c]) (piece ++ [c]) ns := by
  refine ⟨?_, ?_⟩
  · rw [List.mem_append, List.mem_singleton]
    exact fun hm => hm.elim h.1 (Ne.symm hc)
  · obtain ⟨-, ⟨rfl, rfl⟩ | ⟨front, rfl, rfl⟩⟩ := h
    · exact .inl ⟨rfl, rfl⟩
    · exact .inr ⟨front, by simp, rfl⟩

theorem chain_loopCalls (h : Scanned copy piece ns) (hne : copy ++ left ≠ []) (hst : start cwd (copy ++ left) = st)
    (hos : ∀ path ∈ loopCalls copy piece left ++ [copy ++ left], os.Plain cwd path) :
    Chain os cwd st ns (loopCalls copy piece left ++ [copy ++ left]) (names (copy ++ left)) := by
  induction left generalizing copy piece ns with
  | nil =>
    have hcopy := hos _ (List.mem_append_right _ (List.mem_singleton.2 rfl))
    rw [List.append_nil] at hne hst hcopy ⊢
    by_cases hp : piece = []
    · have hn : names copy = ns := by rw [h.names, hp]; exact List.append_nil ns
      rw [hn]
      exact .again hcopy hne hst hn (.done ns)
    · have hn : names copy = ns ++ [piece] := by rw [h.names, names_of_piece h.1, if_neg hp]
      rw [hn]
      exact .further piece hcopy hne hst (h.getLast? hp) hn (.done _)
  | cons c left ih =>
    have hsplit : copy ++ c :: left = (copy ++ [c]) ++ left := by simp
    rw [hsplit] at hne hst hos ⊢
    rw [loopCalls] at hos ⊢
    split
    · rename_i hc
      subst hc
      rw [if_pos rfl, List.append_assoc] at hos
      have hchain := ih h.slash hne hst fun path hm => hos path (List.mem_append_right _ hm)
      by_cases hp : piece = []
      · subst hp
        rw [if_pos rfl, List.nil_append]
        rwa [show MkPath.names [] = [] from rfl, List.append_nil] at hchain
      · rw [if_neg hp] at hos
        rw [if_neg hp, List.append_assoc, List.singleton_append]
        have hn : names piece = [piece] := by rw [names_of_piece h.1, if_neg hp]
        rw [hn] at hchain
        have hcopy : copy ≠ [] := by
          rintro rfl
          obtain ⟨hs, -⟩ | ⟨front, hs, -⟩ := h.2
          · exact hp hs.symm
          · simp at hs
        have hplain := hos copy (List.mem_append_left _ (List.mem_singleton.2 rfl))
        refine .further piece hplain hcopy ?_ (h.getLast? hp) (by rw [h.names, hn]) hchain
        rw [← hst, List.append_assoc, start_append cwd hcopy]
    · rename_i hc
      rw [if_neg hc] at hos
      exact ih (h.char hc) hne hst hos

theorem chain_calls (h : path ≠ []) (hos : ∀ q ∈ calls path, os.Plain cwd q) :
    Chain os cwd (start cwd path) [] (calls path) (names path) :=
  chain_loopCalls (show Scanned [] [] [] from ⟨List.not_mem_nil, .inl ⟨rfl, rfl⟩⟩) h rfl hos

/-! ### One call -/

/-- There is a directory of that name. -/
def Made (fs : Fs) (st : Nat) (ns : List Str) : Prop := ∃ d, fs.walk st ns = some d ∧ fs.isDir d = true

/-- There are more directories, and the same paths are open. -/
structure Grows (fs fs' : Fs) : Prop where
  le : fs.Le fs'
  opens : ∀ p names, p.inode < fs.inodes.length → (fs'.Open p names ↔ fs.Open p names)

theorem Grows.refl (fs : Fs) : Grows fs fs := ⟨Le.refl fs, fun _ _ _ => Iff.rfl⟩

theorem Grows.trans {fs'' : Fs} (h : Grows fs fs') (h' : Grows fs' fs'') : Grows fs fs'' :=
  ⟨h.le.trans h'.le, fun p names hp =>
    (h'.opens p names (Nat.lt_of_lt_of_le hp h.le.length)).trans (h.opens p names hp)⟩

theorem grows_makeDir (hd : fs.isDir d = true) (hn : fs.entry d x = none) : Grows fs (fs.makeDir d x hd hn) :=
  ⟨le_makeDir hd hn, fun _ _ hp => open_makeDir hd hn (.keep hp)⟩

theorem Made.mono (h : Made fs st ns) (hle : fs.Le fs') : Made fs' st ns := by
  obtain ⟨d, hw, hd⟩ := h
  exact ⟨d, hle.walk hw, hle.isDir hd⟩

theorem Made.lt (h : Made fs st ns) : st < fs.inodes.length := by
  obtain ⟨d, hw, hd⟩ := h
  exact lt_of_isDirIn (isDir_of_walk hw hd)

theorem Made.open (h : Made fs st ns) : fs.Open ⟨st, 0⟩ ns := by
  obtain ⟨d, hw, hd⟩ := h
  have happ : fs.Open ⟨st, 0⟩ (ns ++ []) ↔ fs.Open ⟨d, 0⟩ [] := open_append hw
  rw [List.append_nil] at happ
  exact happ.2 fun _ => hd

theorem walk_snoc (hw : fs.walk st ns = some d) : fs.walk st (ns ++ [x]) = fs.entry d x := by
  rw [walk_append, hw]
  show fs.walk d [x] = _
  rw [walk_cons]
  cases fs.entry d x <;> rfl

theorem found_cases (fs : Fs) (hne : path ≠ []) (hst : start cwd path = st) :
    found fs cwd path = some true ∧ Made fs st (names path) ∨
      (∃ i, fs.walk st (names path) = some i ∧ fs.isDir i = false ∧
        found fs cwd path = if path.getLast? = some '/' then none else some false) ∨
      found fs cwd path = none ∧ fs.walk st (names path) = none := by
  rw [found, if_neg hne, hst]
  cases hw : fs.walk st (names path) with
  | none => exact .inr (.inr ⟨rfl, rfl⟩)
  | some i =>
    show (if _ then none else some (fs.isDir i)) = _ ∧ _ ∨ _
    cases hd : fs.isDir i with
    | true => exact .inl ⟨if_neg fun h => Bool.noConfusion h.2, i, hw, hd⟩
    | false => exact .inr (.inl ⟨i, rfl, hd, by simp [hd]⟩)

/-- The directory to make it in is there: it is made, or its name was taken in the meantime. -/
theorem make_further (hne : path ≠ []) (hst : start cwd path = st) (hn : names path = ns ++ [x])
    (hw : fs.walk st ns = some d) (hd : fs.isDir d = true) :
    (∃ hn : fs.entry d x = none, make fs cwd path = .ok (fs.makeDir d x hd hn)) ∨
      (∃ j, fs.entry d x = some j) ∧ make fs cwd path = .error .eexist := by
  have hmk : make fs cwd path = mkdirAt fs d x := by
    simp only [make, if_neg hne, hst, hn, List.getLast?_concat, List.dropLast_concat, hw]
  rw [hmk, mkdirAt, dif_pos hd]
  by_cases he : fs.entry d x = none
  · exact .inl ⟨he, dif_pos he⟩
  · exact .inr ⟨Option.ne_none_iff_exists'.1 he, dif_neg he⟩

theorem made_of_open (hw : fs.walk st ns = some i) (ho : fs.Open ⟨st, 0⟩ ns) : Made fs st ns := by
  have happ : fs.Open ⟨st, 0⟩ (ns ++ []) ↔ fs.Open ⟨i, 0⟩ [] := open_append hw
  rw [List.append_nil] at happ
  exact ⟨i, hw, happ.1 ho rfl⟩

theorem found_of_made (hne : path ≠ []) (hm : Made fs (start cwd path) (names path)) : found fs cwd path = some true := by
  obtain ⟨d, hw, hd⟩ := hm
  rcases found_cases fs hne rfl with ⟨h, -⟩ | ⟨i, hi, hfile, -⟩ | ⟨-, hnone⟩
  · exact h
  · rw [hi, Option.some_inj] at hw
    rw [hw, hd] at hfile
    cases hfile
  · rw [hnone] at hw
    cases hw

theorem found_further (fs : Fs) (hne : path ≠ []) (hst : start cwd path = st) (hlast : path.getLast? ≠ some '/')
    (hn : names path = ns ++ [x]) :
    found fs cwd path = some true ∧ Made fs st (ns ++ [x]) ∨
      found fs cwd path = some false ∧ ¬ fs.Open ⟨st, 0⟩ (ns ++ [x]) ∨
      found fs cwd path = none ∧ fs.walk st (ns ++ [x]) = none := by
  have hcases := found_cases fs hne hst
  rw [hn] at hcases
  rcases hcases with h | ⟨i, hi, hfile, hs⟩ | h
  · exact .inl h
  · refine .inr (.inl ⟨hs.trans (if_neg hlast), fun ho => ?_⟩)
    obtain ⟨d, hw, hd⟩ := made_of_open hi ho
    rw [hi, Option.some_inj] at hw
    rw [← hw, hfile] at hd
    cases hd
  · exact .inr (.inr h)

/-- Nothing to be made is in the way of a missing name. -/
theorem open_of_missing (hm : Made fs st ns) (hnone : fs.walk st (ns ++ [x]) = none) : fs.Open ⟨st, 0⟩ (ns ++ [x]) := by
  obtain ⟨d, hw, hd⟩ := hm
  rw [walk_snoc hw] at hnone
  rw [open_append hw, open_cons hd, hnone]
  exact fun h => absurd h Nat.one_ne_zero

theorem make_cases (hne : path ≠ []) (hst : start cwd path = st) (hn : names path = ns ++ [x]) (hm : Made fs st ns)
    (ho : fs.Open ⟨st, 0⟩ (ns ++ [x])) :
    (∃ fs', make fs cwd path = .ok fs' ∧ Grows fs fs' ∧ Made fs' st (ns ++ [x])) ∨
      (make fs cwd path = .error .eexist ∧ fs.walk st (ns ++ [x]) ≠ none ∧ Made fs st (ns ++ [x])) := by
  obtain ⟨d, hw, hd⟩ := hm
  rcases make_further hne hst hn hw hd with ⟨hnone, h⟩ | ⟨⟨j, hj⟩, h⟩
  · have hgrows := grows_makeDir hd hnone
    refine .inl ⟨_, h, hgrows, fs.inodes.length, ?_, isDir_makeDir hd hnone⟩
    rw [walk_snoc (hgrows.le.walk hw), entry_makeDir hd hnone,
      if_neg (Nat.ne_of_lt (lt_of_isDirIn hd)), if_pos ⟨rfl, rfl⟩]
  · have hwalk : fs.walk st (ns ++ [x]) = some j := (walk_snoc hw).trans hj
    exact .inr ⟨h, by rw [hwalk]; exact Option.some_ne_none j, made_of_open hwalk ho⟩

/-! ### One caller alone -/

theorem doMkdir_again (hos : os.Plain cwd path) (hne : path ≠ []) (hm : Made fs (start cwd path) (names path)) :
    doMkdir os fs cwd path = (fs, 0) := by
  rw [doMkdir, hos.stat, found_of_made hne hm]
  rfl

theorem doMkdir_further (hos : os.Plain cwd path) (hne : path ≠ []) (hst : start cwd path = st)
    (hlast : path.getLast? ≠ some '/') (hn : names path = ns ++ [x]) (hm : Made fs st ns) :
    (∃ fs', doMkdir os fs cwd path = (fs', 0) ∧ Grows fs fs' ∧ Made fs' st (ns ++ [x])) ∨
      doMkdir os fs cwd path = (fs, -1) ∧ ¬ fs.Open ⟨st, 0⟩ (ns ++ [x]) := by
  rw [doMkdir, hos.stat, hos.mkdir]
  rcases found_further fs hne hst hlast hn with ⟨hs, hmade⟩ | ⟨hs, hfile⟩ | ⟨hs, hnone⟩
  · exact .inl ⟨fs, by rw [hs]; rfl, .refl fs, hmade⟩
  · exact .inr ⟨by rw [hs]; rfl, hfile⟩
  · rcases make_cases hne hst hn hm (open_of_missing hm hnone) with ⟨fs', hk, hgrows, hmade⟩ | ⟨-, hsome, -⟩
    · exact .inl ⟨fs', by rw [hs, hk], hgrows, hmade⟩
    · exact absurd hnone hsome

theorem mkpathFrom_cases (hc : Chain os cwd st ns todo full) (hm : Made fs st ns) :
    ∃ fs', Grows fs fs' ∧ (mkpathFrom os cwd fs todo = (fs', 0) ∧ Made fs' st full ∨
      mkpathFrom os cwd fs todo = (fs', -1) ∧ ¬ fs.Open ⟨st, 0⟩ full) := by
  induction hc generalizing fs with
  | done ns => exact ⟨fs, .refl fs, .inl ⟨rfl, hm⟩⟩
  | again hos hne hst h _ ih =>
    rw [mkpathFrom, doMkdir_again hos hne (by rw [hst, h]; exact hm)]
    exact ih hm
  | further x hos hne hst hlast h hrest ih =>
    rcases doMkdir_further hos hne hst hlast h hm with ⟨fs₁, hk, hgrows, hmade⟩ | ⟨hk, hfile⟩
    · rw [mkpathFrom, hk]
      obtain ⟨fs', hgrows', hcases⟩ := ih hmade
      refine ⟨fs', hgrows.trans hgrows', hcases.imp_right fun ⟨hr, hfile⟩ => ⟨hr, fun ho => hfile ?_⟩⟩
      exact (hgrows.opens ⟨_, 0⟩ _ hm.lt).2 ho
    · rw [mkpathFrom, hk]
      refine ⟨fs, .refl fs, .inr ⟨rfl, fun ho => hfile ?_⟩⟩
      obtain ⟨more, hmore⟩ := hrest.prefix
      rw [← hmore] at ho
      exact ho.of_prefix

theorem isDir_start (hd : fs.isDir cwd = true) (path : Str) : fs.isDir (start cwd path) = true := by
  unfold start
  split
  · exact fs.root
  · exact hd

theorem made_nil (hd : fs.isDir cwd = true) (path : Str) : Made fs (start cwd path) [] :=
  ⟨_, rfl, isDir_start hd path⟩

theorem mkpath_cases (hos : ∀ q ∈ calls path, os.Plain cwd q) (hd : fs.isDir cwd = true) (hne : path ≠ []) :
    ∃ fs', Grows fs fs' ∧ (mkpath os fs cwd path = (fs', 0) ∧ Made fs' (start cwd path) (names path) ∨
      mkpath os fs cwd path = (fs', -1) ∧ ¬ fs.Open ⟨start cwd path, 0⟩ (names path)) :=
  mkpathFrom_cases (chain_calls hne hos) (made_nil hd path)

/-- No file is in the way of the path. -/
def Free (fs : Fs) (cwd : Nat) (path : Str) : Prop := path ≠ [] ∧ fs.Open ⟨start cwd path, 0⟩ (names path)

instance (fs : Fs) (cwd : Nat) (path : Str) : Decidable (Free fs cwd path) := inferInstanceAs (Decidable (_ ∧ _))

theorem mkpath_nil (hos : os.Plain cwd []) (fs : Fs) : mkpath os fs cwd [] = (fs, -1) := by
  have hdo : doMkdir os fs cwd [] = (fs, -1) := by
    rw [doMkdir, hos.stat, hos.mkdir]
    rfl
  show mkpathFrom os cwd fs [[]] = _
  rw [mkpathFrom, hdo]
  rfl

theorem made_of_found (hne : path ≠ []) (hs : found fs cwd path = some true) : Made fs (start cwd path) (names path) := by
  rcases found_cases fs hne rfl with ⟨-, hmade⟩ | ⟨i, -, -, h⟩ | ⟨h, -⟩
  · exact hmade
  · rw [hs] at h
    split at h <;> cases h
  · rw [hs] at h
    cases h

/-- Where the directory is there in the end, nothing was in the way at the start. -/
theorem Grows.free (hgrows : Grows fs fs') (hd : fs.isDir cwd = true) (hne : path ≠ [])
    (hmade : Made fs' (start cwd path) (names path)) : Free fs cwd path :=
  ⟨hne, (hgrows.opens ⟨_, 0⟩ _ (made_nil hd path).lt).1 hmade.open⟩

theorem Grows.free_of_found (hgrows : Grows fs fs') (hd : fs.isDir cwd = true) (hs : found fs' cwd path = some true) :
    Free fs cwd path := by
  have hne : path ≠ [] := by
    rintro rfl
    cases hs
  exact hgrows.free hd hne (made_of_found hne hs)

/-- What a call reports, and what it has done then. -/
theorem mkpath_spec (hd : fs.isDir cwd = true) (path : Str) (hos : ∀ q ∈ calls path, os.Plain cwd q) :
    Grows fs (mkpath os fs cwd path).1 ∧ (mkpath os fs cwd path).2 = (if Free fs cwd path then 0 else -1) ∧
      (Free fs cwd path ↔ found (mkpath os fs cwd path).1 cwd path = some true) := by
  by_cases hne : path = []
  · subst hne
    have hfree : ¬ Free fs cwd [] := fun h => h.1 rfl
    rw [mkpath_nil (hos [] (List.mem_singleton.2 rfl)) fs, if_neg hfree]
    exact ⟨.refl fs, rfl, ⟨fun h => absurd h hfree, nofun⟩⟩
  · obtain ⟨fs', hgrows, ⟨hr, hmade⟩ | ⟨hr, hfile⟩⟩ := mkpath_cases hos hd hne
    · have hfree := hgrows.free hd hne hmade
      rw [hr, if_pos hfree]
      exact ⟨hgrows, rfl, fun _ => found_of_made hne hmade, fun _ => hfree⟩
    · have hfree : ¬ Free fs cwd path := fun h => hfile h.2
      rw [hr, if_neg hfree]
      exact ⟨hgrows, rfl, fun h => absurd h hfree, fun hs => hgrows.free_of_found hd hs⟩

/-- A directory that is made on the way is there for the `..` after it. -/
theorem mkpath_spec_dots : (mkpath (nameMax 255) (.bare _ _) 0 ['a', '/', '.', '.', '/', 'b']).2 = 0 ∧
    found (mkpath (nameMax 255) (.bare _ _) 0 ['a', '/', '.', '.', '/', 'b']).1 0 ['a', '/', '.', '.', '/', 'b'] =
      some true := by
  have hos : ∀ q ∈ calls ['a', '/', '.', '.', '/', 'b'], (nameMax 255).Plain 0 q :=
    fun q hq => plain_nameMax ((by decide : ∀ q ∈ calls ['a', '/', '.', '.', '/', 'b'],
      ∀ name ∈ names q, name.length ≤ 255) q hq)
  obtain ⟨-, hstatus, hfree⟩ := mkpath_spec (show (FileTree.bare _ _ : Fs).isDir 0 = true from rfl) _ hos
  have hf : Free (.bare _ _) 0 ['a', '/', '.', '.', '/', 'b'] := by decide
  exact ⟨hstatus.trans (if_pos hf), hfree.1 hf⟩

theorem mkPath_iff (hd : fs.isDir cwd = true) (path : Str)
    (hos : ∀ q ∈ calls (path.takeWhile (· ≠ '\x00')), os.Plain cwd q) :
    (mkPath os fs cwd path).2 = true ↔ Free fs cwd (path.takeWhile (· ≠ '\x00')) := by
  show ((mkpath os fs cwd _).2 == 0) = true ↔ _
  rw [beq_iff_eq, (mkpath_spec hd _ hos).2.1]
  split
  · rename_i hfree
    exact ⟨fun _ => hfree, fun _ => rfl⟩
  · rename_i hfree
    exact ⟨fun h => absurd h (by decide), fun h => absurd h hfree⟩

/-! ### Callers at the same time -/

structure Caller where
  cwd : Nat
  path : Str
  /-- The calls of `do_mkdir` that are left. -/
  todo : List Str
  /-- `stat` has found nothing, and `mkdir` is next. -/
  missing : Bool
  status : Int

def Caller.new (cwd : Nat) (path : Str) : Caller := ⟨cwd, path, calls path, false, 0⟩

namespace Caller

/-- `do_mkdir` goes on after `stat`; `rest` are the calls after this one. -/
def afterStat (fs : Fs) (c : Caller) (rest : List Str) : Option Bool → Fs × Caller
  | none => (fs, { c with missing := true })
  | some true => (fs, { c with todo := rest })
  | some false => (fs, { c with status := -1 })

def afterMkdir (fs : Fs) (c : Caller) (rest : List Str) : Except Errno Fs → Fs × Caller
  | .ok fs' => (fs', { c with todo := rest, missing := false })
  | .error .eexist => (fs, { c with todo := rest, missing := false })
  | .error .other => (fs, { c with status := -1 })

/-- The next system call of a caller that has not returned. -/
def turn (os : SystemCalls) (fs : Fs) (c : Caller) : Res (Fs × Caller) :=
  match c.todo with
  | [] => .error .badAnswer
  | path :: rest =>
    if c.status ≠ 0 then .error .badAnswer
    else if c.missing then .ok (c.afterMkdir fs rest (os.mkdir fs c.cwd path))
    else .ok (c.afterStat fs rest (os.stat fs c.cwd path))

end Caller

structure System (n : Nat) where
  fs : Fs
  callers : Fin n → Caller

namespace System

variable {n : Nat}

def new (fs : Fs) (asked : Fin n → Nat × Str) : System n := ⟨fs, fun k => .new (asked k).1 (asked k).2⟩

def step (os : SystemCalls) (s : System n) (k : Fin n) : Res (System n) := do
  let (fs, c) ← (s.callers k).turn os s.fs
  return ⟨fs, Function.update s.callers k c⟩

end System

namespace Caller

variable {c c' : Caller} {fs₀ : Fs}

def base (c : Caller) : Nat := start c.cwd c.path

theorem base_lt (hd : fs.isDir c.cwd = true) : c.base < fs.inodes.length := lt_of_isDirIn (isDir_start hd c.path)

/-- Where a caller is on its path; `fs₀` is the file system it started with. -/
inductive Inv (os : SystemCalls) (fs₀ fs : Fs) (c : Caller) : Prop
  | asking (ns : List Str) (hpath : c.path ≠ []) (hstatus : c.status = 0) (hmissing : c.missing = false)
      (hchain : Chain os c.cwd c.base ns c.todo (names c.path)) (hmade : Made fs c.base ns)
  | making (ns : List Str) (x path : Str) (rest : List Str) (hpath : c.path ≠ []) (hstatus : c.status = 0)
      (hmissing : c.missing = true) (htodo : c.todo = path :: rest) (hos : os.Plain c.cwd path)
      (hne : path ≠ []) (hst : start c.cwd path = c.base)
      (hn : names path = ns ++ [x]) (hchain : Chain os c.cwd c.base (ns ++ [x]) rest (names c.path))
      (hmade : Made fs c.base ns) (hopen : fs₀.Open ⟨c.base, 0⟩ (ns ++ [x]))
  | empty (hstatus : c.status = 0) (hpath : c.path = []) (htodo : c.todo = [[]]) (hos : os.Plain c.cwd [])
  | failed (hstatus : c.status = -1) (hblocked : ¬ Free fs₀ c.cwd c.path)

theorem Inv.new (hd : fs₀.isDir cwd = true) (path : Str) (hos : ∀ q ∈ calls path, os.Plain cwd q) :
    Inv os fs₀ fs₀ (.new cwd path) := by
  by_cases hne : path = []
  · subst hne
    exact .empty rfl rfl rfl (hos [] (List.mem_singleton.2 rfl))
  · exact .asking [] hne rfl rfl (chain_calls hne hos) (made_nil hd path)

theorem Inv.mono (h : Inv os fs₀ fs c) (hle : fs.Le fs') : Inv os fs₀ fs' c := by
  cases h with
  | asking ns hpath hstatus hmissing hchain hmade => exact .asking ns hpath hstatus hmissing hchain (hmade.mono hle)
  | making ns x path rest hpath hstatus hmissing htodo hos hne hst hn hchain hmade hopen =>
    exact .making ns x path rest hpath hstatus hmissing htodo hos hne hst hn hchain (hmade.mono hle) hopen
  | empty hstatus hpath htodo hos => exact .empty hstatus hpath htodo hos
  | failed hstatus hblocked => exact .failed hstatus hblocked

/-- The system calls that are left. -/
def ahead (c : Caller) : Nat := if c.status = 0 then 2 * c.todo.length - c.missing.toNat else 0

theorem turn_stat (hstatus : c.status = 0) (hmissing : c.missing = false) (htodo : c.todo = path :: rest) :
    c.turn os fs = .ok (c.afterStat fs rest (os.stat fs c.cwd path)) := by
  simp [turn, hstatus, hmissing, htodo]

theorem turn_mkdir (hstatus : c.status = 0) (hmissing : c.missing = true) (htodo : c.todo = path :: rest) :
    c.turn os fs = .ok (c.afterMkdir fs rest (os.mkdir fs c.cwd path)) := by
  simp [turn, hstatus, hmissing, htodo]

theorem turn_error (h : c.todo = [] ∨ c.status ≠ 0) : c.turn os fs = .error .badAnswer := by
  unfold turn
  rcases h with h | h
  · rw [h]
  · split
    · rfl
    · rw [if_pos h]

/-- What a turn does to a caller, and that it is one system call less. -/
structure Turned (os : SystemCalls) (fs₀ fs : Fs) (c : Caller) (fs' : Fs) (c' : Caller) : Prop where
  grows : Grows fs fs'
  inv : Inv os fs₀ fs' c'
  asked : c'.cwd = c.cwd ∧ c'.path = c.path
  ahead : c'.ahead < c.ahead

theorem Turned.next (hgrows : Grows fs fs') (hpath : c.path ≠ []) (hstatus : c.status = 0) (htodo : c.todo = path :: rest)
    (hchain : Chain os c.cwd c.base ns rest (names c.path)) (hmade : Made fs' c.base ns) :
    Turned os fs₀ fs c fs' { c with todo := rest, missing := false } where
  grows := hgrows
  inv := .asking ns hpath hstatus rfl hchain hmade
  asked := ⟨rfl, rfl⟩
  ahead := by
    have hle := Bool.toNat_le c.missing
    simp only [Caller.ahead, hstatus, htodo, if_pos, List.length_cons, Bool.toNat_false]
    omega

theorem Turned.fail (hstatus : c.status = 0) (htodo : c.todo = path :: rest)
    (hblocked : ¬ Free fs₀ c.cwd c.path) : Turned os fs₀ fs c fs { c with status := -1 } where
  grows := .refl fs
  inv := .failed rfl hblocked
  asked := ⟨rfl, rfl⟩
  ahead := by
    have hle := Bool.toNat_le c.missing
    have hfail : ({ c with status := -1 } : Caller).ahead = 0 := rfl
    rw [hfail, Caller.ahead, if_pos hstatus, htodo, List.length_cons]
    omega

theorem Inv.stat (hd : fs₀.isDir c.cwd = true) (hgrows : Grows fs₀ fs) (hpath : c.path ≠ [])
    (hstatus : c.status = 0) (hmissing : c.missing = false) (hchain : Chain os c.cwd c.base ns c.todo (names c.path)) (hmade : Made fs c.base ns)
    (ht : c.turn os fs = .ok (fs', c')) : Turned os fs₀ fs c fs' c' := by
  have hsame : ∀ rest, ({ c with todo := rest } : Caller) = { c with todo := rest, missing := false } := by
    rw [← hmissing]
    exact fun _ => rfl
  generalize htodo : c.todo = todo at hchain
  cases hchain with
  | done _ =>
    rw [turn_error (.inl htodo)] at ht
    cases ht
  | again hos hne hst hn hrest =>
    rw [turn_stat hstatus hmissing htodo, hos.stat, found_of_made hne (by rw [hst, hn]; exact hmade)] at ht
    obtain ⟨rfl, rfl⟩ := Prod.mk.inj (Except.ok.inj ht)
    rw [hsame]
    exact .next (.refl fs) hpath hstatus htodo hrest hmade
  | further x hos hne hst hlast hn hrest =>
    rw [turn_stat hstatus hmissing htodo, hos.stat] at ht
    rcases found_further fs hne hst hlast hn with ⟨hs, hmade'⟩ | ⟨hs, hfile⟩ | ⟨hs, hnone⟩
    · rw [hs] at ht
      obtain ⟨rfl, rfl⟩ := Prod.mk.inj (Except.ok.inj ht)
      rw [hsame]
      exact .next (.refl fs) hpath hstatus htodo hrest hmade'
    · rw [hs] at ht
      obtain ⟨rfl, rfl⟩ := Prod.mk.inj (Except.ok.inj ht)
      refine .fail hstatus htodo fun hfree => hfile ?_
      have ho := (hgrows.opens ⟨_, 0⟩ _ (base_lt hd)).2 hfree.2
      obtain ⟨more, hmore⟩ := hrest.prefix
      rw [← hmore] at ho
      exact ho.of_prefix
    · rw [hs] at ht
      obtain ⟨rfl, rfl⟩ := Prod.mk.inj (Except.ok.inj ht)
      have hopen := (hgrows.opens ⟨_, 0⟩ _ (base_lt hd)).1 (open_of_missing hmade hnone)
      refine ⟨.refl fs, ?_, ⟨rfl, rfl⟩, ?_⟩
      · exact .making ns x _ _ hpath hstatus rfl htodo hos hne hst hn hrest hmade hopen
      · simp only [Caller.ahead, hstatus, hmissing, htodo, if_pos, List.length_cons, Bool.toNat_false,
          Bool.toNat_true]
        omega

theorem Inv.empty_turn (hstatus : c.status = 0) (hpath : c.path = []) (htodo : c.todo = [[]])
    (hos : os.Plain c.cwd []) (ht : c.turn os fs = .ok (fs', c')) : Turned os fs₀ fs c fs' c' := by
  cases hmissing : c.missing with
  | false =>
    rw [turn_stat hstatus hmissing htodo, hos.stat] at ht
    obtain ⟨rfl, rfl⟩ := Prod.mk.inj (Except.ok.inj ht)
    refine ⟨.refl fs, .empty hstatus hpath htodo hos, ⟨rfl, rfl⟩, ?_⟩
    rw [Caller.ahead, Caller.ahead, if_pos hstatus, if_pos hstatus, htodo, hmissing]
    exact Nat.one_lt_two
  | true =>
    rw [turn_mkdir hstatus hmissing htodo, hos.mkdir] at ht
    obtain ⟨rfl, rfl⟩ := Prod.mk.inj (Except.ok.inj ht)
    exact .fail hstatus htodo fun hfree => hfree.1 hpath

theorem Inv.turn (h : Inv os fs₀ fs c) (hd : fs₀.isDir c.cwd = true) (hgrows : Grows fs₀ fs) (ht : c.turn os fs = .ok (fs', c')) :
    Turned os fs₀ fs c fs' c' := by
  cases h with
  | asking ns hpath hstatus hmissing hchain hmade => exact Inv.stat hd hgrows hpath hstatus hmissing hchain hmade ht
  | making ns x path rest hpath hstatus hmissing htodo hos hne hst hn hchain hmade hopen =>
    rw [turn_mkdir hstatus hmissing htodo, hos.mkdir] at ht
    have hopen := (hgrows.opens ⟨_, 0⟩ _ (base_lt hd)).2 hopen
    rcases make_cases hne hst hn hmade hopen with ⟨fs₁, hk, hgrows', hmade'⟩ | ⟨hk, -, hmade'⟩
    · rw [hk] at ht
      obtain ⟨rfl, rfl⟩ := Prod.mk.inj (Except.ok.inj ht)
      exact .next hgrows' hpath hstatus htodo hchain hmade'
    · rw [hk] at ht
      obtain ⟨rfl, rfl⟩ := Prod.mk.inj (Except.ok.inj ht)
      exact .next (.refl fs) hpath hstatus htodo hchain hmade'
  | empty hstatus hpath htodo hos => exact Inv.empty_turn hstatus hpath htodo hos ht
  | failed hstatus _ =>
    rw [turn_error (.inr (by rw [hstatus]; decide))] at ht
    cases ht

theorem Inv.turn_ok (h : Inv os fs₀ fs c) (hend : ∀ r, c.turn os fs ≠ .ok r) :
    (c.status = 0 ∧ c.path ≠ [] ∧ Made fs c.base (names c.path)) ∨ c.status = -1 ∧ ¬ Free fs₀ c.cwd c.path := by
  cases h with
  | asking ns hpath hstatus hmissing hchain hmade =>
    generalize htodo : c.todo = todo at hchain
    cases hchain with
    | done _ => exact .inl ⟨hstatus, hpath, hmade⟩
    | again | further => exact absurd (turn_stat hstatus hmissing htodo) (hend _)
  | making ns x path rest hpath hstatus hmissing htodo => exact absurd (turn_mkdir hstatus hmissing htodo) (hend _)
  | empty hstatus hpath htodo _ =>
    cases hmissing : c.missing with
    | false => exact absurd (turn_stat hstatus hmissing htodo) (hend _)
    | true => exact absurd (turn_mkdir hstatus hmissing htodo) (hend _)
  | failed hstatus hblocked => exact .inr ⟨hstatus, hblocked⟩

end Caller

namespace System

variable {n : Nat} {s s' : System n} {fs₀ : Fs} {asked : Fin n → Nat × Str} {k : Fin n}

theorem step_cases (h : s.step os k = .ok s') :
    ∃ c, (s.callers k).turn os s.fs = .ok (s'.fs, c) ∧ s'.callers = Function.update s.callers k c := by
  obtain ⟨⟨fs, c⟩, hturn, hs⟩ := Res.of_bind h
  obtain rfl := Except.ok.inj hs
  exact ⟨c, hturn, rfl⟩

theorem step_of_turn {r : Fs × Caller} (h : (s.callers k).turn os s.fs = .ok r) :
    s.step os k = .ok ⟨r.1, Function.update s.callers k r.2⟩ := by
  rw [step, h]
  rfl

structure Inv (os : SystemCalls) (fs₀ : Fs) (asked : Fin n → Nat × Str) (s : System n) : Prop where
  grows : Grows fs₀ s.fs
  callers : ∀ k, (s.callers k).Inv os fs₀ s.fs
  asked : ∀ k, (s.callers k).cwd = (asked k).1 ∧ (s.callers k).path = (asked k).2

theorem Inv.step (h : s.Inv os fs₀ asked) (hd : ∀ k, fs₀.isDir (asked k).1 = true) (hs : s.step os k = .ok s') :
    s'.Inv os fs₀ asked ∧ Tally.total Caller.ahead s'.callers < Tally.total Caller.ahead s.callers := by
  obtain ⟨c, hturn, hcallers⟩ := step_cases hs
  have hdk : fs₀.isDir (s.callers k).cwd = true := by rw [(h.asked k).1]; exact hd k
  have hturned := (h.callers k).turn hdk h.grows hturn
  refine ⟨⟨h.grows.trans hturned.grows, fun j => ?_, fun j => ?_⟩, ?_⟩
  · rw [hcallers]
    by_cases hj : j = k
    · rw [hj, Function.update_self]
      exact hturned.inv
    · rw [Function.update_of_ne hj]
      exact (h.callers j).mono hturned.grows.le
  · rw [hcallers]
    by_cases hj : j = k
    · rw [hj, Function.update_self, hturned.asked.1, hturned.asked.2]
      exact h.asked k
    · rw [Function.update_of_ne hj]
      exact h.asked j
  · have htotal := Tally.total_update Caller.ahead s.callers k c
    have hlt := hturned.ahead
    rw [hcallers]
    omega

/-- Every call has returned, with what it would have returned alone, and where that is 0 the directory is there. -/
structure Returned (os : SystemCalls) (fs₀ : Fs) (asked : Fin n → Nat × Str) (s : System n) : Prop where
  grows : Grows fs₀ s.fs
  status : ∀ k, (s.callers k).status = (mkpath os fs₀ (asked k).1 (asked k).2).2
  made : ∀ k, Free fs₀ (asked k).1 (asked k).2 ↔ found s.fs (asked k).1 (asked k).2 = some true

theorem mkpath_concurrent (fs : Fs) (asked : Fin n → Nat × Str) (hd : ∀ k, fs.isDir (asked k).1 = true)
    (hos : ∀ k, ∀ q ∈ calls (asked k).2, os.Plain (asked k).1 q) :
    Settles (Ok (step os)) (fun _ _ => True) (Returned os fs asked) (new fs asked) := by
  have h₀ : (new fs asked).Inv os fs asked := ⟨.refl fs, fun k => .new (hd k) _ (hos k), fun _ => ⟨rfl, rfl⟩⟩
  refine .of_measure (fun s => Tally.total Caller.ahead s.callers) (fun s k s' h _ hs => h.step hd hs) ?_ h₀
  intro s h hend
  have hreturned : ∀ k, ((s.callers k).status = 0 ∧ (asked k).2 ≠ [] ∧
      Made s.fs (start (asked k).1 (asked k).2) (names (asked k).2)) ∨
        (s.callers k).status = -1 ∧ ¬ Free fs (asked k).1 (asked k).2 := by
    intro k
    have hk := (h.callers k).turn_ok fun r hr => hend k _ trivial (step_of_turn hr)
    rwa [Caller.base, (h.asked k).1, (h.asked k).2] at hk
  refine ⟨h.grows, fun k => ?_, fun k => ?_⟩
  · rw [(mkpath_spec (hd k) (asked k).2 (hos k)).2.1]
    rcases hreturned k with ⟨hstatus, hne, hmade⟩ | ⟨hstatus, hblocked⟩
    · rw [hstatus, if_pos (h.grows.free (hd k) hne hmade)]
    · rw [hstatus, if_neg hblocked]
  · rcases hreturned k with ⟨-, hne, hmade⟩ | ⟨-, hblocked⟩
    · exact ⟨fun _ => found_of_made hne hmade, fun _ => h.grows.free (hd k) hne hmade⟩
    · exact ⟨fun hfree => absurd hfree hblocked, fun hs => h.grows.free_of_found (hd k) hs⟩

/-- Both find nothing, one makes the directory, and the other one is told that it exists. -/
theorem mkpath_concurrent_race :
    Settles (Ok (step (nameMax 255))) (fun _ _ => True) (Returned (nameMax 255) (.bare _ _) fun _ => (0, ['a', '/']))
      (new (n := 2) (.bare _ _) fun _ => (0, ['a', '/'])) ∧
    Goes (step (nameMax 255)) (fun _ _ => True) (fun s : System 2 => (s.callers 0).status = 0 ∧
      (s.callers 1).status = 0 ∧ (s.callers 1).todo = [] ∧ s.fs.inodes.length = 2)
      (new (.bare _ _) fun _ => (0, ['a', '/'])) [0, 1, 0, 1, 1, 0] :=
  ⟨mkpath_concurrent _ _ (fun _ => rfl) fun _ q hq => plain_nameMax ((by decide : ∀ q ∈ calls ['a', '/'],
    ∀ name ∈ names q, name.length ≤ 255) q hq), by decide⟩

end System

end ChCppUtils.MkPath
