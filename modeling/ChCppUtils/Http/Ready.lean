import ChCppUtils.Lib.Progress
import ChCppUtils.Lib.Tally
import ChCppUtils.Http.Startup

/-!
# The server gets ready

The constructor waits for each thread before it queues the thread's job, and a thread that has its job keeps it.
So the jobs that are queued are as many as the threads that look for one (`Counts`), and the constructor and the
threads, in any order, come to the point where it has returned and every thread dispatches (`settles_ready`).
-/

namespace ChCppUtils.Http.Server.Startup

open Runs Tally

variable {n : Nat}

def HttpThread.isDispatching (t : HttpThread) : Bool := t.phase = .dispatching

/-- The steps that a thread still makes. -/
def HttpThread.ahead (t : HttpThread) : Nat :=
  match t.phase with
  | .booting => 2
  | .fetching => 1
  | .unborn | .dispatching => 0

namespace Main

/-- How many threads are in `mThreads` or about to be. -/
def started : Main n → Nat
  | .creating k => k
  | .starting i | .adding i => i + 1
  | .binding _ | .setting _ => n

/-- How many threads the constructor has waited for. -/
def awaited : Main n → Nat
  | .creating k => k
  | .starting i => i
  | .adding i => i + 1
  | .binding _ | .setting _ => n

/-- How many jobs it has queued. -/
def added : Main n → Nat
  | .creating k => k
  | .starting i | .adding i => i
  | .binding _ | .setting _ => n

/-- The steps of the constructor, and those of the threads that it has yet to start. -/
def ahead : Main n → Nat
  | .creating k => 5 * (n - k) + 2 * n + 2
  | .starting i => 5 * (n - i) + 2 * n - 1
  | .adding i => 5 * (n - i) + 2 * n - 2
  | .binding k => 2 * (n - k) + 1
  | .setting i => 2 * (n - i)

end Main

/-- A step of the constructor or of a thread. -/
def Action.Own : Action n → Prop
  | .main | .work _ => True
  | .request .. | .route _ => False

namespace HttpServer

variable {evbuffer_remove : Evbuffer → Nat → Removed} {s s' : HttpServer n} {i j : Fin n} {t : HttpThread}

/-! ### What a step does -/

theorem mainStep_cases (hs : s.mainStep = .ok s') :
    (∃ k, ∃ hk : k < n, s.main = .creating k ∧
      s' = { s with main := .starting ⟨k, hk⟩ }.setThread ⟨k, hk⟩ ⟨.booting, ⟨none, none⟩⟩) ∨
    (∃ k, n ≤ k ∧ s.main = .creating k ∧ s' = { s with main := .binding 0 }) ∨
    (∃ i, s.main = .starting i ∧ (s.mThreads i).phase ≠ .booting ∧ s' = { s with main := .adding i }) ∨
    (∃ i, s.main = .adding i ∧ s' = { s with mJobQueue := s.mJobQueue + 1, main := .creating (i + 1) }) ∨
    (∃ i : Fin n, ∃ o, s.main = .binding i ∧
      s' = { s with main := .setting i }.setThread i ⟨(s.mThreads i).phase, o⟩) ∨
    ∃ i o, s.main = .setting i ∧
      s' = { s with main := .binding (i + 1) }.setThread i ⟨(s.mThreads i).phase, o⟩ := by
  unfold mainStep at hs
  split at hs
  · rename_i k hm
    split at hs
    · rename_i hk
      exact .inl ⟨k, hk, hm, (Except.ok.inj hs).symm⟩
    · rename_i hk
      exact .inr (.inl ⟨k, Nat.le_of_not_lt hk, hm, (Except.ok.inj hs).symm⟩)
  · rename_i i hm
    split at hs
    · cases hs
    · rename_i hp
      exact .inr (.inr (.inl ⟨i, hm, hp, (Except.ok.inj hs).symm⟩))
  · rename_i i hm
    exact .inr (.inr (.inr (.inl ⟨i, hm, (Except.ok.inj hs).symm⟩)))
  · rename_i k hm
    split at hs
    · rename_i hk
      exact .inr (.inr (.inr (.inr (.inl ⟨⟨k, hk⟩, _, hm, (Except.ok.inj hs).symm⟩))))
    · cases hs
  · rename_i i hm
    exact .inr (.inr (.inr (.inr (.inr ⟨i, _, hm, (Except.ok.inj hs).symm⟩))))

theorem work_cases (hs : s.work i = .ok s') :
    ((s.mThreads i).phase = .booting ∧ s' = s.setThread i { s.mThreads i with phase := .fetching }) ∨
    ∃ q, (s.mThreads i).phase = .fetching ∧ s.mJobQueue = q + 1 ∧
      s' = { s with mJobQueue := q }.setThread i { s.mThreads i with phase := .dispatching } := by
  unfold HttpServer.work at hs
  split at hs
  · rename_i hp
    exact .inl ⟨hp, (Except.ok.inj hs).symm⟩
  · rename_i hp
    split at hs
    · cases hs
    · rename_i q hq
      exact .inr ⟨q, hp, hq, (Except.ok.inj hs).symm⟩
  · cases hs
  · cases hs

theorem setThread_self (s : HttpServer n) (i : Fin n) (t : HttpThread) : (s.setThread i t).mThreads i = t :=
  Function.update_self ..

theorem setThread_ne (s : HttpServer n) (t : HttpThread) (h : j ≠ i) :
    (s.setThread i t).mThreads j = s.mThreads j := Function.update_of_ne h ..

theorem tally_setThread (s : HttpServer n) (i : Fin n) (t : HttpThread) :
    tally HttpThread.isDispatching (s.setThread i t).mThreads + (s.mThreads i).isDispatching.toNat =
      tally HttpThread.isDispatching s.mThreads + t.isDispatching.toNat :=
  tally_update HttpThread.isDispatching s.mThreads i t

/-! ### The jobs and the threads -/

structure Counts (s : HttpServer n) : Prop where
  jobs : s.mJobQueue + tally HttpThread.isDispatching s.mThreads = s.main.added
  fresh : ∀ i : Fin n, s.main.started ≤ i → (s.mThreads i).phase = .unborn
  born : ∀ i : Fin n, i < s.main.started → (s.mThreads i).phase ≠ .unborn
  booted : ∀ i : Fin n, i < s.main.awaited → (s.mThreads i).phase ≠ .booting
  room : ∀ k, s.main = .creating k ∨ s.main = .binding k → k ≤ n

theorem Counts.new (n : Nat) : (new n).Counts where
  jobs := by
    have hnone : tally HttpThread.isDispatching (HttpServer.new n).mThreads = 0 :=
      Finset.sum_eq_zero fun _ _ => rfl
    rw [hnone]
    rfl
  fresh _ _ := rfl
  born _ hi := absurd hi (Nat.not_lt_zero _)
  booted _ hi := absurd hi (Nat.not_lt_zero _)
  room k hk := by
    rcases hk with hk | hk
    · obtain rfl : 0 = k := Main.creating.inj hk
      exact Nat.zero_le n
    · cases hk

/-- The constructor goes on, and the phases stay. -/
theorem Counts.main_of (h : s.Counts) (hphase : ∀ i, (s'.mThreads i).phase = (s.mThreads i).phase)
    (hjobs : s'.mJobQueue + s.main.added = s.mJobQueue + s'.main.added)
    (hstarted : s'.main.started = s.main.started)
    (hbooted : ∀ i : Fin n, i < s'.main.awaited → (s.mThreads i).phase ≠ .booting)
    (hroom : ∀ k, s'.main = .creating k ∨ s'.main = .binding k → k ≤ n) : s'.Counts := by
  have htally : tally HttpThread.isDispatching s'.mThreads = tally HttpThread.isDispatching s.mThreads := by
    refine Finset.sum_congr rfl fun i _ => ?_
    rw [HttpThread.isDispatching, HttpThread.isDispatching, hphase i]
  have hold := h.jobs
  refine ⟨?_, ?_, ?_, ?_, hroom⟩
  · rw [htally]
    omega
  · intro i hi
    rw [hstarted] at hi
    rw [hphase]
    exact h.fresh i hi
  · intro i hi
    rw [hstarted] at hi
    rw [hphase]
    exact h.born i hi
  · intro i hi
    rw [hphase]
    exact hbooted i hi

theorem Counts.start {k : Nat} (h : s.Counts) (hk : k < n) (hm : s.main = .creating k) (o : OnRequest) :
    Counts ({ s with main := .starting ⟨k, hk⟩ }.setThread ⟨k, hk⟩ ⟨.booting, o⟩) := by
  have hself := setThread_self { s with main := .starting ⟨k, hk⟩ } ⟨k, hk⟩ ⟨.booting, o⟩
  have hne : ∀ {j : Fin n}, (j : Nat) ≠ k →
      ({ s with main := .starting ⟨k, hk⟩ }.setThread ⟨k, hk⟩ ⟨.booting, o⟩).mThreads j = s.mThreads j :=
    fun hj => setThread_ne { s with main := .starting ⟨k, hk⟩ } _ fun he => hj (congrArg Fin.val he)
  have hstarted : s.main.started = k := by rw [hm]; rfl
  have hawaited : s.main.awaited = k := by rw [hm]; rfl
  have hunborn : (s.mThreads ⟨k, hk⟩).phase = .unborn := h.fresh _ (Nat.le_of_eq hstarted)
  refine ⟨?_, ?_, ?_, ?_, ?_⟩
  · have htally := tally_setThread { s with main := .starting ⟨k, hk⟩ } ⟨k, hk⟩ ⟨.booting, o⟩
    have hzero : (s.mThreads ⟨k, hk⟩).isDispatching = false := by
      rw [HttpThread.isDispatching, hunborn]
      rfl
    have hjobs := h.jobs
    rw [hm] at hjobs
    show s.mJobQueue + _ = k
    change _ + (s.mThreads ⟨k, hk⟩).isDispatching.toNat = tally _ s.mThreads + 0 at htally
    rw [hzero] at htally
    rw [show Main.added (n := n) (.creating k) = k from rfl] at hjobs
    simp only [Bool.toNat_false] at htally
    omega
  · intro j hj
    replace hj : k + 1 ≤ j := hj
    rw [hne (by omega)]
    exact h.fresh j (by omega)
  · intro j hj
    replace hj : j < k + 1 := hj
    rcases Nat.lt_succ_iff_lt_or_eq.1 hj with hlt | rfl
    · rw [hne (by omega)]
      exact h.born j (by omega)
    · rw [hself]
      intro hp
      cases hp
  · intro j hj
    replace hj : j < k := hj
    rw [hne (by omega)]
    exact h.booted j (by omega)
  · rintro k' (hk' | hk') <;> cases hk'

theorem Counts.setThread {q : Nat} (h : s.Counts) (hunborn : (s.mThreads i).phase ≠ .unborn)
    (ht : t.phase = .fetching ∨ t.phase = .dispatching)
    (hq : q + t.isDispatching.toNat = s.mJobQueue + (s.mThreads i).isDispatching.toNat) :
    Counts ({ s with mJobQueue := q }.setThread i t) := by
  have hself := setThread_self { s with mJobQueue := q } i t
  have hne : ∀ {j}, j ≠ i → ({ s with mJobQueue := q }.setThread i t).mThreads j = s.mThreads j :=
    fun hj => setThread_ne { s with mJobQueue := q } t hj
  refine ⟨?_, ?_, ?_, ?_, h.room⟩
  · have htally := tally_setThread { s with mJobQueue := q } i t
    have hjobs := h.jobs
    show q + _ = s.main.added
    change _ + (s.mThreads i).isDispatching.toNat = tally _ s.mThreads + _ at htally
    omega
  · intro j hj
    have hji : j ≠ i := by
      rintro rfl
      exact hunborn (h.fresh j hj)
    rw [hne hji]
    exact h.fresh j hj
  · intro j hj
    by_cases hji : j = i
    · rw [hji, hself]
      rcases ht with ht | ht <;> rw [ht] <;> intro hp <;> cases hp
    · rw [hne hji]
      exact h.born j hj
  · intro j hj
    by_cases hji : j = i
    · rw [hji, hself]
      rcases ht with ht | ht <;> rw [ht] <;> intro hp <;> cases hp
    · rw [hne hji]
      exact h.booted j hj

theorem setThread_phase {r : HttpServer n} {o : OnRequest} (hr : r.mThreads = s.mThreads) (j : Fin n) :
    ((r.setThread i ⟨(s.mThreads i).phase, o⟩).mThreads j).phase = (s.mThreads j).phase := by
  by_cases hj : j = i
  · rw [hj, setThread_self]
  · rw [setThread_ne r _ hj, hr]

theorem Counts.main (h : s.Counts) (hs : s.mainStep = .ok s') : s'.Counts := by
  have hold := h.booted
  rcases mainStep_cases hs with ⟨k, hk, hm, rfl⟩ | ⟨k, hk, hm, rfl⟩ | ⟨i, hm, hp, rfl⟩ | ⟨i, hm, rfl⟩ |
    ⟨i, o, hm, rfl⟩ | ⟨i, o, hm, rfl⟩ <;> rw [hm] at hold
  · exact h.start hk hm _
  · obtain rfl : k = n := Nat.le_antisymm (h.room k (.inl hm)) hk
    refine h.main_of (fun _ => rfl) (by rw [hm]; rfl) (by rw [hm]; rfl) hold ?_
    rintro k' (hk' | hk')
    · cases hk'
    · obtain rfl : 0 = k' := Main.binding.inj hk'
      exact Nat.zero_le _
  · refine h.main_of (fun _ => rfl) (by rw [hm]; rfl) (by rw [hm]; rfl) ?_ ?_
    · intro j hj
      rcases Nat.lt_succ_iff_lt_or_eq.1 (show (j : Nat) < i + 1 from hj) with hlt | he
      · exact hold j hlt
      · rw [Fin.ext he]
        exact hp
    · rintro k' (hk' | hk') <;> cases hk'
  · refine h.main_of (fun _ => rfl) ?_ (by rw [hm]; rfl) hold ?_
    · rw [hm]
      show s.mJobQueue + 1 + i = s.mJobQueue + (i + 1)
      omega
    · rintro k' (hk' | hk')
      · obtain rfl : (i : Nat) + 1 = k' := Main.creating.inj hk'
        exact i.isLt
      · cases hk'
  · refine h.main_of (setThread_phase rfl) (by rw [hm]; rfl) (by rw [hm]; rfl) hold ?_
    rintro k' (hk' | hk') <;> cases hk'
  · refine h.main_of (setThread_phase rfl) (by rw [hm]; rfl) (by rw [hm]; rfl) hold ?_
    rintro k' (hk' | hk')
    · cases hk'
    · obtain rfl : (i : Nat) + 1 = k' := Main.binding.inj hk'
      exact i.isLt

theorem Counts.work (h : s.Counts) (hs : s.work i = .ok s') : s'.Counts := by
  rcases work_cases hs with ⟨hp, rfl⟩ | ⟨q, hp, hq, rfl⟩
  · refine h.setThread (q := s.mJobQueue) (by rw [hp]; intro he; cases he) (.inl rfl) ?_
    rw [HttpThread.isDispatching, HttpThread.isDispatching, hp]
    rfl
  · refine h.setThread (by rw [hp]; intro he; cases he) (.inr rfl) ?_
    rw [HttpThread.isDispatching, HttpThread.isDispatching, hp, hq]
    rfl

theorem Counts.step {a : Action n} (h : s.Counts) (hs : step evbuffer_remove s a = .ok s') : s'.Counts := by
  cases a with
  | main => exact h.main hs
  | work i => exact h.work hs
  | request i request =>
    obtain rfl := step_request hs
    exact ⟨h.jobs, h.fresh, h.born, h.booted, h.room⟩
  | route route =>
    unfold HttpServer.step at hs
    simp only [] at hs
    split at hs
    · obtain rfl := Except.ok.inj hs
      exact ⟨h.jobs, h.fresh, h.born, h.booted, h.room⟩
    · cases hs

theorem Counts.of_reach (h : Reach (Ok (HttpServer.step evbuffer_remove)) (HttpServer.new n) s) : s.Counts :=
  h.invariant (.new n) fun _ _ _ hc hs => hc.step hs

/-! ### The way to the end of the constructor -/

def ahead (s : HttpServer n) : Nat := s.main.ahead + total HttpThread.ahead s.mThreads

theorem ahead_setThread (s : HttpServer n) (i : Fin n) (t : HttpThread) :
    (s.setThread i t).ahead + (s.mThreads i).ahead = s.ahead + t.ahead := by
  have htotal := total_update HttpThread.ahead s.mThreads i t
  show s.main.ahead + total HttpThread.ahead (Function.update s.mThreads i t) + _ = _
  rw [ahead]
  omega

theorem ahead_main (s : HttpServer n) (m : Main n) (q : Nat) :
    ({ s with mJobQueue := q, main := m } : HttpServer n).ahead + s.main.ahead = s.ahead + m.ahead := by
  show m.ahead + total HttpThread.ahead s.mThreads + _ = _
  rw [ahead]
  omega

theorem ahead_mainStep (h : s.Counts) (hs : s.mainStep = .ok s') : s'.ahead < s.ahead := by
  rcases mainStep_cases hs with ⟨k, hk, hm, rfl⟩ | ⟨k, hk, hm, rfl⟩ | ⟨i, hm, hp, rfl⟩ | ⟨i, hm, rfl⟩ |
    ⟨i, o, hm, rfl⟩ | ⟨i, o, hm, rfl⟩
  · have hset := ahead_setThread ({ s with main := .starting ⟨k, hk⟩ } : HttpServer n) ⟨k, hk⟩ ⟨.booting, ⟨none, none⟩⟩
    have hmain := ahead_main s (.starting ⟨k, hk⟩) s.mJobQueue
    have hzero : (s.mThreads ⟨k, hk⟩).ahead = 0 := by
      rw [HttpThread.ahead, h.fresh ⟨k, hk⟩ (Nat.le_of_eq (by rw [hm]; rfl))]
    rw [hm] at hmain
    simp only [Main.ahead] at hmain
    change _ + (s.mThreads ⟨k, hk⟩).ahead = _ + 2 at hset
    rw [hzero] at hset
    omega
  · have hmain := ahead_main s (.binding 0) s.mJobQueue
    rw [hm] at hmain
    simp only [Main.ahead] at hmain
    omega
  · have hmain := ahead_main s (.adding i) s.mJobQueue
    have hi := i.isLt
    rw [hm] at hmain
    simp only [Main.ahead] at hmain
    omega
  · have hmain := ahead_main s (.creating (i + 1)) (s.mJobQueue + 1)
    have hi := i.isLt
    rw [hm] at hmain
    simp only [Main.ahead] at hmain
    omega
  · have hset := ahead_setThread ({ s with main := .setting i } : HttpServer n) i ⟨(s.mThreads i).phase, o⟩
    have hmain := ahead_main s (.setting i) s.mJobQueue
    have hi := i.isLt
    rw [hm] at hmain
    simp only [Main.ahead] at hmain
    have hset := Nat.add_right_cancel hset
    omega
  · have hset := ahead_setThread ({ s with main := .binding (i + 1) } : HttpServer n) i ⟨(s.mThreads i).phase, o⟩
    have hmain := ahead_main s (.binding (i + 1)) s.mJobQueue
    have hi := i.isLt
    rw [hm] at hmain
    simp only [Main.ahead] at hmain
    have hset := Nat.add_right_cancel hset
    omega

theorem ahead_work (hs : s.work i = .ok s') : s'.ahead < s.ahead := by
  rcases work_cases hs with ⟨hp, rfl⟩ | ⟨q, hp, -, rfl⟩
  · have hset := ahead_setThread s i { s.mThreads i with phase := .fetching }
    have hold : (s.mThreads i).ahead = 2 := by rw [HttpThread.ahead, hp]
    rw [hold] at hset
    change _ = _ + 1 at hset
    omega
  · have hset := ahead_setThread ({ s with mJobQueue := q } : HttpServer n) i { s.mThreads i with phase := .dispatching }
    have hold : (s.mThreads i).ahead = 1 := by rw [HttpThread.ahead, hp]
    change _ + (s.mThreads i).ahead = s.ahead + 0 at hset
    rw [hold] at hset
    omega

/-- The constructor has returned, and every thread has its job. -/
structure Ready (s : HttpServer n) : Prop where
  main : s.main = .binding n
  queue : s.mJobQueue = 0
  dispatching : ∀ i, (s.mThreads i).phase = .dispatching

/-- As long as the server is not ready the constructor or a thread can go on. -/
theorem Counts.ready (h : s.Counts)
    (hnone : ∀ a : Action n, a.Own → ∀ s', HttpServer.step evbuffer_remove s a ≠ .ok s') : s.Ready := by
  have hmain : ∀ s', s.mainStep ≠ .ok s' := hnone .main trivial
  have hwork : ∀ i s', s.work i ≠ .ok s' := fun i => hnone (.work i) trivial
  -- a thread that boots can go on
  have hbooting : ∀ i, (s.mThreads i).phase ≠ .booting := by
    intro i hp
    refine hwork i (s.setThread i { s.mThreads i with phase := .fetching }) ?_
    unfold HttpServer.work
    rw [hp]
    rfl
  have hm : s.main = .binding n := by
    cases hm : s.main with
    | creating k =>
      by_cases hk : k < n
      · exact absurd (by simp only [mainStep, hm, dif_pos hk]; rfl) (hmain _)
      · exact absurd (by simp only [mainStep, hm, dif_neg hk]; rfl) (hmain _)
    | starting i => exact absurd (by simp only [mainStep, hm, if_neg (hbooting i)]; rfl) (hmain _)
    | adding i => exact absurd (by simp only [mainStep, hm]; rfl) (hmain _)
    | binding k =>
      rcases Nat.lt_or_eq_of_le (h.room k (.inr hm)) with hk | rfl
      · exact absurd (by simp only [mainStep, hm, dif_pos hk]; rfl) (hmain _)
      · rfl
    | setting i => exact absurd (by simp only [mainStep, hm]; rfl) (hmain _)
  have hjobs := h.jobs
  have hborn := h.born
  rw [hm] at hjobs hborn
  have hdispatching : ∀ i, (s.mThreads i).phase = .dispatching := by
    intro i
    cases hp : (s.mThreads i).phase with
    | unborn => exact absurd hp (hborn i i.isLt)
    | booting => exact absurd hp (hbooting i)
    | dispatching => rfl
    | fetching =>
      -- there is a job for it
      have hlt : tally HttpThread.isDispatching s.mThreads < Fintype.card (Fin n) :=
        tally_lt_card (i := i) (by rw [HttpThread.isDispatching, hp]; rfl)
      rw [Fintype.card_fin] at hlt
      obtain ⟨q, hq⟩ : ∃ q, s.mJobQueue = q + 1 :=
        Nat.exists_eq_succ_of_ne_zero fun h0 => by simp only [Main.added] at hjobs; omega
      exact absurd (by simp only [HttpServer.work, hp, hq]; rfl) (hwork i _)
  refine ⟨hm, ?_, hdispatching⟩
  have hall : tally HttpThread.isDispatching s.mThreads = Fintype.card (Fin n) :=
    tally_of_forall fun i => by rw [HttpThread.isDispatching, hdispatching i]; rfl
  rw [Fintype.card_fin] at hall
  simp only [Main.added] at hjobs
  omega

/-- Wherever the construction is, and whatever requests have come: the constructor and the threads, in any order,
get to the point where it has returned and every thread dispatches. -/
theorem settles_ready (h : Reach (Ok (step evbuffer_remove)) (new n) s) :
    Settles (Ok (step evbuffer_remove)) (fun _ a => a.Own) Ready s := by
  refine Settles.of_measure (I := Counts) ahead (fun t a t' hc ha hs => ⟨hc.step hs, ?_⟩) (fun t hc hnone => ?_)
    (Counts.of_reach h)
  · cases a with
    | main => exact ahead_mainStep hc hs
    | work i => exact ahead_work hs
    | request | route => exact ha.elim
  · exact hc.ready fun a ha s' hs => hnone a s' ha hs

/-- Two threads, of which the first takes a job before the second is there. -/
theorem settles_ready_two : ∃ s : HttpServer 2, Reach (Ok (step removeFront)) (new 2) s ∧ ¬ s.Ready ∧
    Settles (Ok (step removeFront)) (fun _ a => a.Own) Ready s := by
  have hg : Goes (step removeFront) (fun _ _ => True) (fun s : HttpServer 2 => s.main = .starting 1) (new 2)
      [.main, .work 0, .main, .main, .work 0, .main] := by
    decide
  obtain ⟨s, hr, hm⟩ := hg.reach_ok
  have hstarting : ¬ s.Ready := by
    intro hready
    cases hm.symm.trans hready.main
  exact ⟨s, hr, hstarting, settles_ready hr⟩

end HttpServer

end ChCppUtils.Http.Server.Startup
