import Mathlib.Data.List.Nodup
import Mathlib.Logic.Function.Basic

/-!
# Objects that are owned through places

Objects are made one after the other and numbered. Each place holds one object at most; an object that
leaves its place without being deleted can never be deleted again. `Sound` is what all operations keep:
no object is deleted twice, or while a place holds it. `Kept` says that none is lost, and the `kept_` rules
say for each operation when it loses none.
-/

structure Ledger (π : Type*) where
  held : π → Option Nat
  allocated : Nat
  deleted : List Nat

namespace Ledger

variable {π : Type*} {l : Ledger π} {R : π → Prop} {p : π} {x : Nat} {xs : List Nat}

@[ext] theorem ext' {l l' : Ledger π} (hheld : ∀ p, l.held p = l'.held p) (hallocated : l.allocated = l'.allocated)
    (hdeleted : l.deleted = l'.deleted) : l = l' := by
  cases l
  cases l'
  obtain rfl := hallocated
  obtain rfl := hdeleted
  congr
  exact funext hheld

def new (π : Type*) : Ledger π := ⟨fun _ => none, 0, []⟩

/-- A new object at `p`. -/
def put [DecidableEq π] (l : Ledger π) (p : π) : Ledger π :=
  ⟨Function.update l.held p (some l.allocated), l.allocated + 1, l.deleted⟩

/-- The places in `S` let go of what they hold. -/
def clear (l : Ledger π) (S : π → Prop) [DecidablePred S] : Ledger π :=
  { l with held := fun p => if S p then none else l.held p }

/-- The places in `S` let go of what they hold, and `xs` are deleted. -/
def delete (l : Ledger π) (S : π → Prop) [DecidablePred S] (xs : List Nat) : Ledger π :=
  { l.clear S with deleted := xs ++ l.deleted }

/-- The list has each object that a place in `S` holds once, and no others. -/
structure Lists (l : Ledger π) (S : π → Prop) (xs : List Nat) : Prop where
  mem : ∀ x, x ∈ xs ↔ ∃ p, S p ∧ l.held p = some x
  nodup : xs.Nodup

structure Sound (l : Ledger π) : Prop where
  inj : ∀ p q x, l.held p = some x → l.held q = some x → p = q
  lt : ∀ p x, l.held p = some x → x < l.allocated
  alive : ∀ p x, l.held p = some x → x ∉ l.deleted
  once : l.deleted.Nodup
  made : ∀ x ∈ l.deleted, x < l.allocated

/-- Every object is deleted, or held by a place in `R`. -/
def Kept (l : Ledger π) (R : π → Prop) : Prop := ∀ x < l.allocated, x ∈ l.deleted ∨ ∃ p, R p ∧ l.held p = some x

theorem Sound.new : (new π).Sound := ⟨nofun, nofun, nofun, .nil, nofun⟩

theorem kept_new : (new π).Kept R := nofun

/-! ### `put` -/

section
variable [DecidableEq π]

theorem held_put (q : π) : (l.put p).held q = if q = p then some l.allocated else l.held q :=
  Function.update_apply l.held p (some l.allocated) q

theorem Sound.put (h : l.Sound) : (l.put p).Sound := by
  have hold : ∀ q x, (l.put p).held q = some x → q = p ∧ x = l.allocated ∨ q ≠ p ∧ l.held q = some x := by
    intro q x hq
    rw [held_put] at hq
    split at hq
    · rename_i hqp
      exact .inl ⟨hqp, (Option.some.inj hq).symm⟩
    · rename_i hqp
      exact .inr ⟨hqp, hq⟩
  refine ⟨fun q q' x hq hq' => ?_, fun q x hq => ?_, fun q x hq hx => ?_, h.once, fun x hx => ?_⟩
  · rcases hold q x hq with ⟨rfl, rfl⟩ | ⟨-, hq⟩
    · rcases hold q' _ hq' with ⟨rfl, -⟩ | ⟨-, hq'⟩
      · rfl
      · exact absurd (h.lt q' _ hq') (Nat.lt_irrefl _)
    · rcases hold q' x hq' with ⟨-, rfl⟩ | ⟨-, hq'⟩
      · exact absurd (h.lt q _ hq) (Nat.lt_irrefl _)
      · exact h.inj q q' x hq hq'
  · rcases hold q x hq with ⟨-, rfl⟩ | ⟨-, hq⟩
    · exact Nat.lt_succ_self _
    · exact Nat.lt_succ_of_lt (h.lt q x hq)
  · rcases hold q x hq with ⟨-, rfl⟩ | ⟨-, hq⟩
    · exact absurd (h.made _ hx) (Nat.lt_irrefl _)
    · exact h.alive q x hq hx
  · exact Nat.lt_succ_of_lt (h.made x hx)

/-- What is lost stays lost. -/
theorem Kept.of_put (hk : (l.put p).Kept R) : l.Kept R := by
  intro x hx
  rcases hk x (Nat.lt_succ_of_lt hx) with hd | ⟨q, hR, hq⟩
  · exact .inl hd
  · rw [held_put] at hq
    split at hq
    · exact absurd (Option.some.inj hq) (Nat.ne_of_gt hx)
    · exact .inr ⟨q, hR, hq⟩

theorem kept_put_iff (h : l.Sound) (hk : l.Kept R) (hp : R p) : (l.put p).Kept R ↔ l.held p = none := by
  constructor
  · intro hk'
    by_contra hne
    obtain ⟨x, hx⟩ := Option.ne_none_iff_exists'.1 hne
    rcases hk' x (Nat.lt_succ_of_lt (h.lt p x hx)) with hd | ⟨q, -, hq⟩
    · exact h.alive p x hx hd
    · rw [held_put] at hq
      split at hq
      · exact absurd (Option.some.inj hq) (Nat.ne_of_gt (h.lt p x hx))
      · rename_i hqp
        exact hqp (h.inj q p x hq hx)
  · intro hnone x hx
    rcases Nat.lt_succ_iff_lt_or_eq.1 hx with hx | rfl
    · rcases hk x hx with hd | ⟨q, hR, hq⟩
      · exact .inl hd
      · refine .inr ⟨q, hR, ?_⟩
        have hqp : q ≠ p := by
          rintro rfl
          rw [hnone] at hq
          cases hq
        rw [held_put, if_neg hqp, hq]
    · exact .inr ⟨p, hp, by rw [held_put, if_pos rfl]⟩

theorem not_kept_put_put (h : l.Sound) (hp : R p) : ¬ ((l.put p).put p).Kept R := by
  intro hk
  have := (kept_put_iff h.put hk.of_put hp).1 hk
  rw [held_put, if_pos rfl] at this
  cases this

end

/-! ### `clear` and `delete` -/

section
variable {S : π → Prop} [DecidablePred S]

theorem clear_held (q : π) : (l.clear S).held q = if S q then none else l.held q := rfl

theorem delete_held (xs : List Nat) (q : π) : (l.delete S xs).held q = if S q then none else l.held q := rfl

theorem held_clear {q : π} : (l.clear S).held q = some x ↔ ¬ S q ∧ l.held q = some x := by
  rw [clear_held]
  split <;> simp [*]

theorem Sound.clear (h : l.Sound) : (l.clear S).Sound := by
  refine ⟨fun q q' x hq hq' => ?_, fun q x hq => ?_, fun q x hq => ?_, h.once, h.made⟩
  · exact h.inj q q' x (held_clear.1 hq).2 (held_clear.1 hq').2
  · exact h.lt q x (held_clear.1 hq).2
  · exact h.alive q x (held_clear.1 hq).2

theorem kept_clear_iff (h : l.Sound) (hk : l.Kept R) : (l.clear S).Kept R ↔ ∀ p, S p → l.held p = none := by
  constructor
  · intro hk' p hp
    by_contra hne
    obtain ⟨x, hx⟩ := Option.ne_none_iff_exists'.1 hne
    rcases hk' x (h.lt p x hx) with hd | ⟨q, -, hq⟩
    · exact h.alive p x hx hd
    · obtain ⟨hqS, hq⟩ := held_clear.1 hq
      exact hqS (h.inj q p x hq hx ▸ hp)
  · intro hnone x hx
    rcases hk x hx with hd | ⟨q, hR, hq⟩
    · exact .inl hd
    · refine .inr ⟨q, hR, held_clear.2 ⟨fun hqS => ?_, hq⟩⟩
      rw [hnone q hqS] at hq
      cases hq

theorem Sound.delete (h : l.Sound) (hxs : l.Lists S xs) : (l.delete S xs).Sound := by
  refine ⟨h.clear.inj, h.clear.lt, fun q x hq hx => ?_, ?_, fun x hx => ?_⟩
  · obtain ⟨hqS, hq⟩ := held_clear.1 hq
    rcases List.mem_append.1 hx with hx | hx
    · obtain ⟨p, hp, hpx⟩ := (hxs.mem x).1 hx
      exact hqS (h.inj q p x hq hpx ▸ hp)
    · exact h.alive q x hq hx
  · refine List.nodup_append'.2 ⟨hxs.nodup, h.once, fun x hx hd => ?_⟩
    obtain ⟨p, -, hpx⟩ := (hxs.mem x).1 hx
    exact h.alive p x hpx hd
  · rcases List.mem_append.1 hx with hx | hx
    · obtain ⟨p, -, hpx⟩ := (hxs.mem x).1 hx
      exact h.lt p x hpx
    · exact h.made x hx

theorem Kept.delete (hk : l.Kept R) (hxs : l.Lists S xs) : (l.delete S xs).Kept R := by
  intro x hx
  rcases hk x hx with hd | ⟨q, hR, hq⟩
  · exact .inl (List.mem_append_right _ hd)
  · by_cases hqS : S q
    · exact .inl (List.mem_append_left _ ((hxs.mem x).2 ⟨q, hqS, hq⟩))
    · exact .inr ⟨q, hR, held_clear.2 ⟨hqS, hq⟩⟩

/-- When the places in `R` delete what they hold, all objects are deleted once iff none was lost. -/
theorem count_delete_iff [DecidablePred R] (h : l.Sound) (hxs : l.Lists R xs) :
    (∀ x < l.allocated, (l.delete R xs).deleted.count x = 1) ↔ l.Kept R := by
  have honce := (h.delete hxs).once
  have hmem : ∀ x, x ∈ (l.delete R xs).deleted ↔ x ∈ l.deleted ∨ ∃ p, R p ∧ l.held p = some x := by
    intro x
    rw [delete, List.mem_append, hxs.mem x, or_comm]
  constructor
  · intro hall x hx
    exact (hmem x).1 (List.count_pos_iff.1 (by rw [hall x hx]; exact Nat.one_pos))
  · intro hk x hx
    exact List.count_eq_one_of_mem honce ((hmem x).2 (hk x hx))

end

end Ledger
