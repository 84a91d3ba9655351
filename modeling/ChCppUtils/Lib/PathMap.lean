import Mathlib.Data.List.Infix
import Mathlib.Data.List.Induction

/-!
# Partial maps over paths

A `PathMap` gives a value to some paths (lists of tokens). `insert` sets the value at a path and
brings every prefix of it into being, with a default value where there was none; `drop` removes a
path with all its extensions. What a map made by these has is read off the history (`ofOps_isSome`,
`ofOps_eq_some`).
-/

/-- A partial map from paths to values. -/
abbrev PathMap (τ δ : Type*) := List τ → Option δ

namespace PathMap

variable {α τ δ : Type*} [DecidableEq τ] {dflt : δ}

/-- The value `d` at `p`, and every proper prefix of `p` present. -/
def insert (dflt : δ) (p : List τ) (d : δ) (m : PathMap τ δ) : PathMap τ δ := fun q =>
  if q = p then some d else if q <+: p then some ((m q).getD dflt) else m q

/-- `p` and its extensions removed. -/
def drop (p : List τ) (m : PathMap τ δ) : PathMap τ δ := fun q => if p <+: q then none else m q

def PrefixClosed (m : PathMap τ δ) : Prop := ∀ p q, p <+: q → (m q).isSome → (m p).isSome

/-- The map below the one-token path `t`. -/
def sub (t : τ) (m : PathMap τ δ) : PathMap τ δ := fun p => m (t :: p)

theorem insert_self (p : List τ) (d : δ) (m : PathMap τ δ) : insert dflt p d m p = some d := by
  simp [insert]

theorem insert_not_above {p q : List τ} (d : δ) (m : PathMap τ δ) (h : ¬ q <+: p) :
    insert dflt p d m q = m q := by
  have hne : q ≠ p := fun he => h (he ▸ List.prefix_rfl)
  simp [insert, h, hne]

theorem insert_of_some {p q : List τ} {d e : δ} {m : PathMap τ δ} (hne : q ≠ p) (h : m q = some e) :
    insert dflt p d m q = some e := by
  unfold insert
  split
  · exact absurd ‹q = p› hne
  · split <;> simp [h]

theorem insert_isSome {p q : List τ} {d : δ} {m : PathMap τ δ} :
    (insert dflt p d m q).isSome ↔ q <+: p ∨ (m q).isSome := by
  unfold insert
  split
  · subst ‹q = p›; simp
  · split <;> simp [*]

theorem insert_cons (t : τ) (ts q : List τ) (d : δ) (m : PathMap τ δ) (t' : τ) :
    insert dflt (t :: ts) d m (t' :: q) =
      if t' = t then insert dflt ts d (m.sub t) q else m (t' :: q) := by
  by_cases ht : t' = t
  · subst ht; simp [insert, sub, List.cons_prefix_cons]
  · simp [insert, ht, List.cons_prefix_cons]

theorem insert_nil (d : δ) (m : PathMap τ δ) (q : List τ) :
    insert dflt [] d m q = if q = [] then some d else m q := by
  by_cases hq : q = [] <;> simp [insert, hq]

theorem insert_cons_nil (t : τ) (ts : List τ) (d : δ) (m : PathMap τ δ) :
    insert dflt (t :: ts) d m [] = some ((m []).getD dflt) := by
  simp [insert]

/-- A bare root with the default value is as good as no root. -/
theorem insert_congr_root {p : List τ} {d : δ} {m m' : PathMap τ δ} (hroot : (m []).getD dflt = (m' []).getD dflt)
    (h : ∀ q, q ≠ [] → m q = m' q) : insert dflt p d m = insert dflt p d m' := by
  funext q
  by_cases hq : q = []
  · subst hq; simp [insert, hroot]
  · simp [insert, h q hq]

theorem drop_cons (t : τ) (ts q : List τ) (m : PathMap τ δ) (t' : τ) :
    drop (t :: ts) m (t' :: q) = if t' = t then drop ts (m.sub t) q else m (t' :: q) := by
  by_cases ht : t' = t
  · subst ht; simp [drop, sub, List.cons_prefix_cons]
  · simp [drop, Ne.symm ht, ht, List.cons_prefix_cons]

theorem drop_cons_nil (t : τ) (ts : List τ) (m : PathMap τ δ) : drop (t :: ts) m [] = m [] := by
  simp [drop]

theorem drop_below {p q : List τ} {m : PathMap τ δ} (h : p <+: q) : drop p m q = none := by
  simp [drop, h]

theorem drop_not_below {p q : List τ} {m : PathMap τ δ} (h : ¬ p <+: q) : drop p m q = m q := by
  simp [drop, h]

theorem drop_isSome {p q : List τ} {m : PathMap τ δ} :
    (drop p m q).isSome ↔ ¬ p <+: q ∧ (m q).isSome := by
  by_cases h : p <+: q <;> simp [drop, h]

theorem insert_insert (p : List τ) (d e : δ) (m : PathMap τ δ) :
    insert dflt p e (insert dflt p d m) = insert dflt p e m := by
  funext q
  by_cases hq : q = p
  · simp [insert, hq]
  · by_cases hpre : q <+: p <;> simp [insert, hq, hpre]

/-- No path at or below `r` has the default value. -/
def FullBelow (dflt : δ) (r : List τ) (m : PathMap τ δ) : Prop := ∀ q, r <+: q → m q ≠ some dflt

omit [DecidableEq τ] in
theorem FullBelow.mono {r : List τ} {m m' : PathMap τ δ} (h : FullBelow dflt r m)
    (hm : ∀ q, m' q = none ∨ m' q = m q) : FullBelow dflt r m' := by
  intro q hq
  rcases hm q with hn | he
  · rw [hn]
    exact nofun
  · rw [he]
    exact h q hq

/-- An insert leaves the default value where a path between `r` and the new one is not there yet. -/
theorem FullBelow.insert_iff {r p : List τ} {d : δ} {m : PathMap τ δ} (h : FullBelow dflt r m) :
    FullBelow dflt r (insert dflt p d m) ↔
      (r <+: p → d ≠ dflt) ∧ ∀ q, q <+: p → r <+: q → q ≠ p → (m q).isSome := by
  constructor
  · intro h'
    refine ⟨fun hr he => h' p hr (by rw [insert_self, he]), fun q hqp hrq hne => ?_⟩
    by_contra hn
    rw [Option.not_isSome_iff_eq_none] at hn
    exact h' q hrq (by simp [insert, hne, hqp, hn])
  · rintro ⟨hd, hall⟩ q hrq
    unfold insert
    split
    · rename_i he
      subst he
      exact fun he => hd hrq (Option.some.inj he)
    · split
      · rename_i hne hqp
        obtain ⟨e, he⟩ := Option.isSome_iff_exists.1 (hall q hqp hrq hne)
        rw [he]
        exact he ▸ h q hrq
      · exact h q hrq

theorem drop_eq {p : List τ} {m : PathMap τ δ} (q : List τ) : drop p m q = none ∨ drop p m q = m q := by
  by_cases h : p <+: q
  · exact .inl (drop_below h)
  · exact .inr (drop_not_below h)

theorem PrefixClosed.drop_absent {m : PathMap τ δ} (h : m.PrefixClosed) {p : List τ}
    (hp : m p = none) : PathMap.drop p m = m := by
  funext q
  by_cases hpq : p <+: q
  · rw [drop_below hpq]
    cases hq : m q with
    | none => rfl
    | some e => have := h p q hpq (by simp [hq]); simp [hp] at this
  · exact drop_not_below hpq

/-! ### Histories -/

inductive Op (τ δ : Type*) where
  | insert (p : List τ) (d : δ)
  | drop (p : List τ)

namespace Op

def apply (dflt : δ) (m : PathMap τ δ) : Op τ δ → PathMap τ δ
  | .insert p d => PathMap.insert dflt p d m
  | .drop p => PathMap.drop p m

/-- The operation removes `p`. -/
def Drops (p : List τ) : Op τ δ → Prop
  | .insert _ _ => False
  | .drop q => q <+: p

/-- The operation sets the value at `p` or removes `p`. -/
def Sets (p : List τ) : Op τ δ → Prop
  | .insert q _ => q = p
  | .drop q => q <+: p

end Op

/-- The map after the operations `ops`, oldest first. -/
def ofOps (dflt : δ) (m : PathMap τ δ) (ops : List (Op τ δ)) : PathMap τ δ :=
  ops.foldl (Op.apply dflt) m

theorem ofOps_concat (m : PathMap τ δ) (ops : List (Op τ δ)) (o : Op τ δ) :
    ofOps dflt m (ops ++ [o]) = o.apply dflt (ofOps dflt m ops) := by
  simp [ofOps]

/-- Where an element stands in a list that grew at its end: it is the new one or it was there. -/
theorem append_singleton_eq {ops pre post : List α} {o x : α} (h : ops ++ [o] = pre ++ x :: post) :
    (post = [] ∧ pre = ops ∧ x = o) ∨ ∃ post', post = post' ++ [o] ∧ ops = pre ++ x :: post' := by
  rcases List.eq_nil_or_concat post with rfl | ⟨post', o', rfl⟩
  · obtain ⟨rfl, ho⟩ := List.append_inj' h rfl
    exact .inl ⟨rfl, rfl, (List.singleton_inj.1 ho).symm⟩
  · rw [List.concat_eq_append, ← List.cons_append, ← List.append_assoc] at h
    obtain ⟨rfl, ho⟩ := List.append_inj' h rfl
    obtain rfl := List.singleton_inj.1 ho
    exact .inr ⟨post', by simp, rfl⟩

/-- A path is present iff some insert went to it or below it and no later drop took it away. -/
theorem ofOps_isSome {m : PathMap τ δ} {p : List τ} (hm : m p = none) (ops : List (Op τ δ)) :
    (ofOps dflt m ops p).isSome ↔
      ∃ pre q d post, ops = pre ++ .insert q d :: post ∧ p <+: q ∧ ∀ o ∈ post, ¬ o.Drops p := by
  induction ops using List.reverseRecOn with
  | nil => simp [ofOps, hm]
  | append_singleton ops o ih =>
    rw [ofOps_concat]
    constructor
    · intro h
      cases o with
      | insert q d =>
        rcases insert_isSome.1 h with hq | hq
        · exact ⟨ops, q, d, [], rfl, hq, by simp⟩
        · obtain ⟨pre, q', d', post, rfl, hp, hpost⟩ := ih.1 hq
          refine ⟨pre, q', d', post ++ [.insert q d], by simp, hp, ?_⟩
          simpa [or_imp, forall_and, Op.Drops] using hpost
      | drop q =>
        obtain ⟨hq, hs⟩ := drop_isSome.1 h
        obtain ⟨pre, q', d', post, rfl, hp, hpost⟩ := ih.1 hs
        refine ⟨pre, q', d', post ++ [.drop q], by simp, hp, ?_⟩
        simpa [or_imp, forall_and, Op.Drops] using ⟨hpost, hq⟩
    · rintro ⟨pre, q, d, post, heq, hp, hpost⟩
      rcases append_singleton_eq heq with ⟨-, -, rfl⟩ | ⟨post, rfl, rfl⟩
      · exact insert_isSome.2 (.inl hp)
      · have hs := ih.2 ⟨pre, q, d, post, rfl, hp, fun x hx => hpost x (by simp [hx])⟩
        have ho := hpost o (by simp)
        cases o with
        | insert q' d' => exact insert_isSome.2 (.inr hs)
        | drop q' => exact drop_isSome.2 ⟨ho, hs⟩

omit [DecidableEq τ] in
/-- An operation that leaves `p` alone: the history before it decides. -/
theorem lastSet_concat {p : List τ} {d : δ} {ops : List (Op τ δ)} {o : Op τ δ} (hset : ¬ o.Sets p)
    (h : (∃ pre post, ops = pre ++ .insert p d :: post ∧ ∀ x ∈ post, ¬ x.Sets p) ∨
      (d = dflt ∧ ∀ pre e post, ops = pre ++ .insert p e :: post → ∃ x ∈ post, x.Drops p)) :
    (∃ pre post, ops ++ [o] = pre ++ .insert p d :: post ∧ ∀ x ∈ post, ¬ x.Sets p) ∨
      (d = dflt ∧ ∀ pre e post, ops ++ [o] = pre ++ .insert p e :: post → ∃ x ∈ post, x.Drops p) := by
  rcases h with ⟨pre, post, rfl, hpost⟩ | ⟨rfl, hno⟩
  · refine .inl ⟨pre, post ++ [o], by simp, ?_⟩
    simpa [or_imp, forall_and] using ⟨hpost, hset⟩
  · refine .inr ⟨rfl, fun pre e post heq => ?_⟩
    rcases append_singleton_eq heq with ⟨-, -, rfl⟩ | ⟨post, rfl, rfl⟩
    · exact absurd rfl hset
    · obtain ⟨x, hx, hd⟩ := hno pre e post rfl
      exact ⟨x, by simp [hx], hd⟩

/-- Where a path is absent, each insert that addressed it was followed by a drop. -/
theorem dropped_of_absent {m : PathMap τ δ} {p q : List τ} {e : δ} (hm : m p = none) {ops : List (Op τ δ)}
    (hp : ofOps dflt m ops p = none) (hq : p ≠ q) (pre : List (Op τ δ)) (e' : δ) (post : List (Op τ δ))
    (heq : ops ++ [.insert q e] = pre ++ .insert p e' :: post) : ∃ x ∈ post, x.Drops p := by
  rcases append_singleton_eq heq with ⟨-, -, ho⟩ | ⟨post, rfl, rfl⟩
  · injection ho with hqp
    exact absurd hqp hq
  · by_contra hno
    push Not at hno
    have : (ofOps dflt m _ p).isSome := (ofOps_isSome hm _).2
      ⟨pre, p, e', post, rfl, List.prefix_rfl, fun x hx => hno x (by simp [hx])⟩
    simp [hp] at this

/-- A path that an insert of another one creates has the default. -/
theorem eq_dflt_of_created {m : PathMap τ δ} {p q : List τ} {d e : δ} (hq : p ≠ q) (hp : m p = none)
    (h : insert dflt q e m p = some d) : d = dflt := by
  have hpre : p <+: q := by
    rcases insert_isSome.1 (show (insert dflt q e m p).isSome by rw [h]; rfl) with h' | h'
    · exact h'
    · simp [hp] at h'
  simpa [insert, hq, hpre, hp, eq_comm] using h

/-- The value at a present path is that of the last insert that addressed it since it was last
created, else the default. -/
theorem ofOps_eq_some {m : PathMap τ δ} {p : List τ} {d : δ} (hm : m p = none)
    (ops : List (Op τ δ)) (h : ofOps dflt m ops p = some d) :
    (∃ pre post, ops = pre ++ .insert p d :: post ∧ ∀ o ∈ post, ¬ o.Sets p) ∨
      (d = dflt ∧ ∀ pre e post, ops = pre ++ .insert p e :: post → ∃ o ∈ post, o.Drops p) := by
  induction ops using List.reverseRecOn generalizing d with
  | nil => simp [ofOps, hm] at h
  | append_singleton ops o ih =>
    rw [ofOps_concat] at h
    cases o with
    | insert q e =>
      by_cases hq : p = q
      · subst hq
        rw [Op.apply, insert_self, Option.some.injEq] at h
        subst h
        exact .inl ⟨ops, [], rfl, by simp⟩
      · cases hp : ofOps dflt m ops p with
        | some e' =>
          rw [Op.apply, insert_of_some hq hp, Option.some.injEq] at h
          subst h
          exact lastSet_concat (fun he => hq he.symm) (ih hp)
        | none => exact .inr ⟨eq_dflt_of_created hq hp h, dropped_of_absent hm hp hq⟩
    | drop q =>
      by_cases hq : q <+: p
      · simp [Op.apply, drop_below hq] at h
      · rw [Op.apply, drop_not_below hq] at h
        exact lastSet_concat hq (ih h)

end PathMap
