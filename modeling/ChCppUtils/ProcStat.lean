import ChCppUtils.Basic
import ChCppUtils.Lib.Scan
import ChCppUtils.Lib.Split

/-!
# What the kernel says about the process

`stat2proc` reads the line of `/proc/<pid>/stat`. The name of the command stands between parentheses and may have
blanks and parentheses itself, so it ends at the last one. The numbers behind it are read by one `sscanf`; older
kernels print less of them, newer ones more (`stat2proc_statLine`).
-/

namespace ChCppUtils

open Scan

/-- `proc_t`, what `stat2proc` writes of it -/
structure ProcT where
  cmd : Str
  state : Char
  ppid : Int
  pgrp : Int
  session : Int
  tty : Int
  tpgid : Int
  flags : Int
  min_flt : Int
  cmin_flt : Int
  maj_flt : Int
  cmaj_flt : Int
  utime : Int
  stime : Int
  cutime : Int
  cstime : Int
  priority : Int
  nice : Int
  nlwp : Int
  alarm : Int
  start_time : Int
  vsize : Int
  rss : Int
  rss_rlim : Int
  start_code : Int
  end_code : Int
  start_stack : Int
  kstk_esp : Int
  kstk_eip : Int
  wchan : Int
  exit_signal : Int
  processor : Int
  rtprio : Int
  sched : Int
deriving DecidableEq, Repr

namespace ProcStat

/-- `memset(&proc, 0x00, sizeof(proc))` -/
def zero : ProcT :=
  ⟨[], '\x00', 0, 0, 0, 0, 0, 0, 0, 0, 0, 0, 0, 0, 0, 0, 0, 0, 0, 0, 0, 0, 0, 0, 0, 0, 0, 0, 0, 0, 0, 0, 0, 0⟩

/-- A member of `proc_t` with a numeric type. -/
structure Member where
  kind : Kind
  get : ProcT → Int
  set : Int → ProcT → ProcT

def int : Kind := ⟨32, true⟩

def long : Kind := ⟨64, true⟩

/-- `unsigned long` and `unsigned long long` -/
def ulong : Kind := ⟨64, false⟩

/-- What `sscanf` does with a number behind `state`: it stores it, or skips it, as a word or as a number. -/
inductive Column where
  | member (m : Member)
  | skipWord
  | skipNum

def Column.directive : Column → Directive
  | .member m => .num m.kind
  | .skipWord => .skipWord
  | .skipNum => .skipNum

def Column.member? : Column → Option Member
  | .member m => some m
  | .skipWord | .skipNum => none

def columns : List Column := [
  .member ⟨int, (·.ppid), fun v P => { P with ppid := v }⟩,
  .member ⟨int, (·.pgrp), fun v P => { P with pgrp := v }⟩,
  .member ⟨int, (·.session), fun v P => { P with session := v }⟩,
  .member ⟨int, (·.tty), fun v P => { P with tty := v }⟩,
  .member ⟨int, (·.tpgid), fun v P => { P with tpgid := v }⟩,
  .member ⟨ulong, (·.flags), fun v P => { P with flags := v }⟩,
  .member ⟨ulong, (·.min_flt), fun v P => { P with min_flt := v }⟩,
  .member ⟨ulong, (·.cmin_flt), fun v P => { P with cmin_flt := v }⟩,
  .member ⟨ulong, (·.maj_flt), fun v P => { P with maj_flt := v }⟩,
  .member ⟨ulong, (·.cmaj_flt), fun v P => { P with cmaj_flt := v }⟩,
  .member ⟨ulong, (·.utime), fun v P => { P with utime := v }⟩,
  .member ⟨ulong, (·.stime), fun v P => { P with stime := v }⟩,
  .member ⟨ulong, (·.cutime), fun v P => { P with cutime := v }⟩,
  .member ⟨ulong, (·.cstime), fun v P => { P with cstime := v }⟩,
  .member ⟨long, (·.priority), fun v P => { P with priority := v }⟩,
  .member ⟨long, (·.nice), fun v P => { P with nice := v }⟩,
  .member ⟨int, (·.nlwp), fun v P => { P with nlwp := v }⟩,
  .member ⟨long, (·.alarm), fun v P => { P with alarm := v }⟩,
  .member ⟨ulong, (·.start_time), fun v P => { P with start_time := v }⟩,
  .member ⟨ulong, (·.vsize), fun v P => { P with vsize := v }⟩,
  .member ⟨long, (·.rss), fun v P => { P with rss := v }⟩,
  .member ⟨ulong, (·.rss_rlim), fun v P => { P with rss_rlim := v }⟩,
  .member ⟨ulong, (·.start_code), fun v P => { P with start_code := v }⟩,
  .member ⟨ulong, (·.end_code), fun v P => { P with end_code := v }⟩,
  .member ⟨ulong, (·.start_stack), fun v P => { P with start_stack := v }⟩,
  .member ⟨ulong, (·.kstk_esp), fun v P => { P with kstk_esp := v }⟩,
  .member ⟨ulong, (·.kstk_eip), fun v P => { P with kstk_eip := v }⟩,
  .skipWord, .skipWord, .skipWord, .skipWord,
  .member ⟨ulong, (·.wchan), fun v P => { P with wchan := v }⟩,
  .skipNum, .skipNum,
  .member ⟨int, (·.exit_signal), fun v P => { P with exit_signal := v }⟩,
  .member ⟨int, (·.processor), fun v P => { P with processor := v }⟩,
  .member ⟨ulong, (·.rtprio), fun v P => { P with rtprio := v }⟩,
  .member ⟨ulong, (·.sched), fun v P => { P with sched := v }⟩]

def format : Str := (
  "%c " ++
  "%d %d %d %d %d " ++
  "%lu %lu %lu %lu %lu " ++
  "%Lu %Lu %Lu %Lu " ++
  "%ld %ld " ++
  "%d " ++
  "%ld " ++
  "%Lu " ++
  "%lu " ++
  "%ld " ++
  "%lu %lu %lu %lu %lu %lu " ++
  "%*s %*s %*s %*s " ++
  "%lu %*lu %*lu " ++
  "%d %d " ++
  "%lu %lu").toList

def conversions : List Directive := (directives format.length format).getD []

def put (P : ProcT) : Value × Member → ProcT
  | (.num v, m) => m.set v P
  | (.char _, _) => P

/-- The values go to `state` and to the members, in their order. -/
def assign (P : ProcT) : List Value → ProcT
  | .char c :: values => (values.zip (columns.filterMap Column.member?)).foldl put { P with state := c }
  | _ => P

/-- fill in default values for older kernels -/
def defaults (P : ProcT) : ProcT :=
  { P with processor := 0, rtprio := ulong.wrap (-1), sched := ulong.wrap (-1), nlwp := 0 }

def atLeastOne (P : ProcT) : ProcT := if P.nlwp = 0 then { P with nlwp := 1 } else P

/-- `strchr(S, c) + 1` -/
def behind (c : Char) (S : Str) : Res Str :=
  match S.dropWhile (· ≠ c) with
  | [] => .error .nullDeref
  | _ :: S => .ok S

/-- The offset of the last `c`. Without one the code goes on from a null pointer. -/
def last (c : Char) (S : Str) : Res Nat :=
  match Split.rfind c S with
  | none => .error .nullDeref
  | some tmp => .ok tmp

def stat2proc (S : Str) (P : ProcT) : Res ProcT := do
  let S ← behind '(' S
  let tmp ← last ')' S
  let num := tmp % 2 ^ 32
  let num := if 16 ≤ num then 15 else num
  -- skip ") "
  if S.length < tmp + 2 then .error .endDeref
  else return atLeastOne (assign { defaults P with cmd := S.take num } (scan conversions (S.drop (tmp + 2))))

/-! ### The line -/

def statLine (pid comm : Str) (state : Char) (numbers : List Int) : Str :=
  pid ++ ' ' :: '(' :: (comm ++ ')' :: ' ' :: state :: line (numbers.map .num))

/-- The numbers are those of the process `q`, in the columns that they have a member for. -/
def Shows (q : ProcT) (cols : List Column) (numbers : List Int) : Prop :=
  ∀ p ∈ cols.zip numbers, ∀ m ∈ p.1.member?, p.2 = m.get q

/-- `P` with the members of these columns from `q`. -/
def fill (q : ProcT) (cols : List Column) (P : ProcT) : ProcT :=
  (cols.filterMap Column.member?).foldl (fun P m => m.set (m.get q) P) P

/-- Each member has a value of its type. -/
def Typed (q : ProcT) : Prop := ∀ m ∈ columns.filterMap Column.member?, m.kind.Holds (m.get q)

instance (q : ProcT) : Decidable (Typed q) := inferInstanceAs (Decidable (∀ m ∈ columns.filterMap Column.member?, m.kind.Holds (m.get q)))

instance (q : ProcT) (cols : List Column) (numbers : List Int) : Decidable (Shows q cols numbers) :=
  inferInstanceAs (Decidable (∀ p ∈ cols.zip numbers, ∀ m ∈ p.1.member?, p.2 = m.get q))

theorem conversions_eq : conversions = .char :: (columns.map Column.directive).flatMap ([.blank, ·]) := by decide +kernel

variable {q P : ProcT} {pid comm : Str} {state : Char} {numbers : List Int} {cols : List Column}

theorem foldl_put (h : Shows q cols numbers) (P : ProcT) :
    ((((cols.map Column.directive).zip (numbers.map Field.num)).filterMap fun p => stored p.1 p.2).zip
      (cols.filterMap Column.member?)).foldl put P = fill q (cols.take numbers.length) P := by
  induction cols generalizing numbers P with
  | nil =>
    rw [List.take_nil]
    rfl
  | cons c cols ih =>
    cases numbers with
    | nil => rfl
    | cons v numbers =>
      have hrest := fun P => @ih numbers (fun p hp => h p (List.mem_cons_of_mem _ hp)) P
      cases c with
      | member m =>
        have hv : v = m.get q := h (.member m, v) List.mem_cons_self m rfl
        rw [hv]
        exact hrest (m.set (m.get q) P)
      | skipWord | skipNum => exact hrest P

theorem fits_columns (hq : ∀ m ∈ cols.filterMap Column.member?, m.kind.Holds (m.get q)) (h : Shows q cols numbers) :
    ∀ p ∈ (cols.map Column.directive).zip (numbers.map Field.num), Fits p.1 p.2 := by
  intro p hp
  rw [List.zip_map, List.mem_map] at hp
  obtain ⟨⟨c, v⟩, hcv, rfl⟩ := hp
  cases c with
  | member m =>
    have hv : v = m.get q := h _ hcv m rfl
    rw [hv]
    exact .num (hq m (List.mem_filterMap.2 ⟨_, (List.of_mem_zip hcv).1, rfl⟩))
  | skipWord => exact .skipWord_num v
  | skipNum => exact .skipNum v

theorem scan_statLine (hq : Typed q) (h : Shows q columns numbers) (state : Char) (P : ProcT) :
    assign P (scan conversions (state :: line (numbers.map .num))) =
      fill q (columns.take numbers.length) { P with state := state } := by
  rw [conversions_eq, scan, scan_line (by decide) (fits_columns hq h)]
  exact foldl_put h _

/-- What no member of the columns writes stays. -/
theorem fill_keep {β : Type} (g : ProcT → β) (hg : ∀ m ∈ cols.filterMap Column.member?, ∀ v P, g (m.set v P) = g P)
    (q P : ProcT) : g (fill q cols P) = g P := by
  unfold fill
  generalize cols.filterMap Column.member? = members at hg
  induction members generalizing P with
  | nil => rfl
  | cons m members ih =>
    rw [List.foldl_cons, ih _ fun m hm => hg m (List.mem_cons_of_mem _ hm)]
    exact hg m List.mem_cons_self _ P

theorem fill_append (q P : ProcT) (cols more : List Column) : fill q (cols ++ more) P = fill q more (fill q cols P) := by
  rw [fill, List.filterMap_append, List.foldl_append]
  rfl

theorem fill_all (q P : ProcT) : fill q columns P = { q with cmd := P.cmd, state := P.state } := rfl

theorem showNum_chars (v : Int) : ∀ c ∈ showNum v, c = '-' ∨ c.isDigit = true := by
  intro c hc
  rcases List.mem_append.1 hc with hc | hc
  · split at hc
    · exact .inl (List.mem_singleton.1 hc)
    · cases hc
  · exact .inr (isDigit_toDigits _ c hc)

theorem not_mem_line {c : Char} (hminus : c ≠ '-') (hdigit : c.isDigit = false) (hspace : isspace c = false)
    (numbers : List Int) : c ∉ line (numbers.map .num) := by
  intro h
  rcases List.mem_append.1 h with h | h
  · obtain ⟨f, hf, h⟩ := List.mem_flatMap.1 h
    obtain ⟨v, -, rfl⟩ := List.mem_map.1 hf
    rcases List.mem_cons.1 h with rfl | h
    · cases hspace
    · rcases showNum_chars v c h with rfl | h
      · exact hminus rfl
      · rw [hdigit] at h
        cases h
  · rw [List.mem_singleton.1 h] at hspace
    cases hspace

/-- What is there before the numbers are read. -/
def prepared (P : ProcT) (comm : Str) (state : Char) : ProcT := { defaults P with cmd := comm.take 15, state := state }

/-- Any name, and any number of numbers: the members that have no number keep their defaults. -/
theorem stat2proc_statLine (hpid : '(' ∉ pid) (hcomm : comm.length < 2 ^ 32) (hstate : state ≠ ')') (hq : Typed q)
    (h : Shows q columns numbers) (P : ProcT) :
    stat2proc (statLine pid comm state numbers) P =
      .ok (atLeastOne (fill q (columns.take numbers.length) (prepared P comm state))) := by
  have hbehind : behind '(' (statLine pid comm state numbers) =
      .ok (comm ++ ')' :: ' ' :: state :: line (numbers.map .num)) := by
    have hdrop : (statLine pid comm state numbers).dropWhile (· ≠ '(') =
        '(' :: (comm ++ ')' :: ' ' :: state :: line (numbers.map .num)) := by
      rw [statLine, List.dropWhile_append_of_pos]
      · rfl
      · rintro c hc
        simp only [ne_eq, decide_not, Bool.not_eq_eq_eq_not, Bool.not_true, decide_eq_false_iff_not]
        rintro rfl
        exact hpid hc
    rw [behind, hdrop]
  have hlast : last ')' (comm ++ ')' :: ' ' :: state :: line (numbers.map .num)) = .ok comm.length := by
    rw [last, Split.rfind_append]
    rw [List.mem_cons, List.mem_cons, not_or, not_or]
    exact ⟨by decide, Ne.symm hstate, not_mem_line (by decide) (by decide) (by decide) numbers⟩
  have hcmd : (comm ++ ')' :: ' ' :: state :: line (numbers.map .num)).take
      (if 16 ≤ comm.length % 2 ^ 32 then 15 else comm.length % 2 ^ 32) = comm.take 15 := by
    rw [Nat.mod_eq_of_lt hcomm]
    split
    · rw [List.take_append_of_le_length (by omega)]
    · rw [List.take_left, List.take_of_length_le (by omega)]
  have hdrop : (comm ++ ')' :: ' ' :: state :: line (numbers.map .num)).drop (comm.length + 2) =
      state :: line (numbers.map .num) := by
    rw [List.drop_append, List.drop_eq_nil_of_le (by omega)]
    simp
  have hlen : ¬ (comm ++ ')' :: ' ' :: state :: line (numbers.map .num)).length < comm.length + 2 := by
    simp only [List.length_append, List.length_cons]
    omega
  rw [stat2proc, hbehind]
  show last ')' _ >>= _ = _
  rw [hlast]
  show (if _ then _ else pure (atLeastOne (assign { defaults P with cmd := _ } _))) = _
  rw [if_neg hlen, hcmd, hdrop, scan_statLine hq h]
  rfl

/-- A name with a parenthesis, and a line that ends with the processor. -/
theorem stat2proc_statLine_old : ∃ P,
    stat2proc (statLine ['7'] ['a', ')', ' '] 'R' (List.replicate 36 0)) zero = .ok P ∧ P.cmd = ['a', ')', ' '] ∧
      P.state = 'R' ∧ P.nlwp = 1 ∧ P.processor = 0 ∧ P.rtprio = (2 ^ 64 - 1 : Nat) :=
  ⟨_, stat2proc_statLine (q := zero) (by decide) (by decide) (by decide) (by decide) (by decide) zero, by decide,
    by decide, by decide, by decide, by decide⟩

end ProcStat

/-! ### The timer -/

structure ProcStat where
  PAGESIZE : UInt32
  proc : ProcT

namespace ProcStat

/-- `str` is what the file has. It is handed on as a C string. -/
def onTimerEvent (s : ProcStat) (str : Str) : Res ProcStat := do
  let proc ← stat2proc (str.takeWhile (· ≠ '\x00')) zero
  return { s with proc }

def getRSS (s : ProcStat) : UInt32 := UInt32.ofInt (s.proc.rss * s.PAGESIZE.toNat)

variable {q : ProcT} {pid comm : Str} {state : Char} {numbers : List Int} {s : ProcStat}

theorem set_rss : ∀ m ∈ (columns.drop 21).filterMap Column.member?, ∀ v P, (m.set v P).rss = P.rss := by
  simp only [columns, List.drop, List.filterMap, Column.member?, List.forall_mem_cons, List.not_mem_nil, false_implies,
    implies_true, and_self]

/-- The resident set is the member of column 21, and nothing behind it writes there. -/
theorem rss_fill (q P : ProcT) {n : Nat} (hn : 21 ≤ n) : (fill q (columns.take n) P).rss = q.rss := by
  obtain ⟨k, rfl⟩ := Nat.exists_eq_add_of_le hn
  rw [List.take_add, fill_append, fill_keep ProcT.rss]
  · rfl
  · exact fun m hm => set_rss m (((List.take_sublist k (columns.drop 21)).filterMap _).subset hm)

theorem rss_atLeastOne (P : ProcT) : (atLeastOne P).rss = P.rss := by
  unfold atLeastOne
  split <;> rfl

theorem cmd_atLeastOne (P : ProcT) : (atLeastOne P).cmd = P.cmd := by
  unfold atLeastOne
  split <;> rfl

theorem set_cmd : ∀ m ∈ columns.filterMap Column.member?, ∀ v P, (m.set v P).cmd = P.cmd := by
  simp only [columns, List.filterMap, Column.member?, List.forall_mem_cons, List.not_mem_nil, false_implies,
    implies_true, and_self]

theorem cmd_fill (q P : ProcT) (n : Nat) : (fill q (columns.take n) P).cmd = P.cmd :=
  fill_keep ProcT.cmd (fun m hm => set_cmd m (((List.take_sublist n columns).filterMap _).subset hm)) q P

theorem toNat_ofInt (x : Int) : ((UInt32.ofInt x).toNat : Int) = x % (2 ^ 32 : Nat) := by
  have hnonneg := Int.emod_nonneg x (show (4294967296 : Int) ≠ 0 by decide)
  have hmod : (UInt32.ofInt x).toNat = (x % 4294967296).toNat % 4294967296 := rfl
  omega

/-- No character of the line ends it early. -/
theorem takeWhile_statLine (hpid : '\x00' ∉ pid) (hcomm : '\x00' ∉ comm) (hstate : state ≠ '\x00') :
    (statLine pid comm state numbers).takeWhile (· ≠ '\x00') = statLine pid comm state numbers := by
  refine List.takeWhile_eq_self_iff.2 fun c hc => decide_eq_true ?_
  rintro rfl
  simp only [statLine, List.mem_append, List.mem_cons] at hc
  rcases hc with hc | hc | hc | hc | hc | hc | hc | hc
  · exact hpid hc
  · exact absurd hc (by decide)
  · exact absurd hc (by decide)
  · exact hcomm hc
  · exact absurd hc (by decide)
  · exact absurd hc (by decide)
  · exact hstate hc.symm
  · exact not_mem_line (by decide) (by decide) (by decide) numbers hc

/-- After the timer event: `getRSS` has the bytes of the resident set, up to multiples of 4 GiB. -/
theorem getRSS_statLine (hpid : ∀ c ∈ pid, c.isDigit = true) (hcomm : '\x00' ∉ comm) (hlen : comm.length < 2 ^ 32)
    (hclose : state ≠ ')') (hend : state ≠ '\x00') (hq : Typed q) (h : Shows q columns numbers)
    (hn : 21 ≤ numbers.length) :
    ∃ s', s.onTimerEvent (statLine pid comm state numbers) = .ok s' ∧ s'.proc.cmd = comm.take 15 ∧
      (s'.getRSS.toNat : Int) = q.rss * s.PAGESIZE.toNat % (2 ^ 32 : Nat) := by
  have hopen : '(' ∉ pid := fun hc => absurd (hpid _ hc) (by decide)
  have hzero : '\x00' ∉ pid := fun hc => absurd (hpid _ hc) (by decide)
  have hread := stat2proc_statLine hopen hlen hclose hq h zero
  refine ⟨⟨s.PAGESIZE, atLeastOne (fill q (columns.take numbers.length) (prepared zero comm state))⟩, ?_, ?_, ?_⟩
  · rw [onTimerEvent, takeWhile_statLine hzero hcomm hend, hread]
    rfl
  · show (atLeastOne _).cmd = _
    rw [cmd_atLeastOne, cmd_fill]
    rfl
  · show ((UInt32.ofInt ((atLeastOne _).rss * _)).toNat : Int) = _
    rw [rss_atLeastOne, rss_fill q _ hn, toNat_ofInt]

/-- A million pages of 4096 bytes are 4 GiB. -/
theorem getRSS_statLine_wraps : ∃ s' : ProcStat,
    onTimerEvent ⟨4096, zero⟩ (statLine ['7'] ['i', 'n', 'i', 't'] 'S' (List.replicate 20 0 ++ [1048576])) = .ok s' ∧
      s'.getRSS = 0 := by
  have hshows : Shows { zero with rss := 1048576 } columns (List.replicate 20 0 ++ [1048576]) := by decide
  have hpid : ∀ c ∈ ['7'], c.isDigit = true := List.forall_mem_singleton.2 rfl
  have hcomm : '\x00' ∉ ['i', 'n', 'i', 't'] := by simp
  obtain ⟨s', hs, -, hrss⟩ := getRSS_statLine (s := ⟨4096, zero⟩) hpid hcomm (by decide)
    (show 'S' ≠ ')' by decide) (by decide) (by decide) hshows (by decide)
  exact ⟨s', hs, UInt32.toNat_inj.1 (Int.ofNat_inj.1 hrss)⟩

end ProcStat

end ChCppUtils
