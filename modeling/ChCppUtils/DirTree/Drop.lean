import ChCppUtils.DirTree.Tree

/-!
# The calls of a drop

`drop(key)` calls back for every node of the subtree, with the data of the node and a path put
together from the key and the keys of the nodes. Where the key is spelled the way the tree spells
it (`Canonical`), that path is the node's tokens with `/` between them (`mem_calls_of_canonical`).
-/

namespace ChCppUtils

open Split

variable {D : Type}

theorem Children.mem_keys_of_find {k : Str} {n : Node D} :
    ∀ {cs : Children D}, cs.find k = some n → k ∈ cs.keys
  | .cons k₁ n₁ r, h => by
    rw [Children.find] at h
    rw [Children.keys, List.mem_cons]
    split at h
    · rename_i hk; exact .inl hk.symm
    · exact .inr (mem_keys_of_find h)

theorem Children.exists_find_cons {k₁ : Str} {n₁ : Node D} {r : Children D} {P : Str → Node D → Prop}
    (hr : k₁ ∉ r.keys) : (∃ k c, (Children.cons k₁ n₁ r).find k = some c ∧ P k c) ↔
      P k₁ n₁ ∨ ∃ k c, r.find k = some c ∧ P k c := by
  constructor
  · rintro ⟨k, c, hf, hP⟩
    rw [Children.find] at hf
    split at hf
    · rename_i hk
      obtain rfl := Option.some.inj hf
      exact .inl (hk ▸ hP)
    · exact .inr ⟨k, c, hf, hP⟩
  · rintro (hP | ⟨k, c, hf, hP⟩)
    · exact ⟨k₁, n₁, by simp [Children.find], hP⟩
    · have hne : k₁ ≠ k := fun he => hr (he ▸ Children.mem_keys_of_find hf)
      exact ⟨k, c, by rw [Children.find, if_neg hne, hf], hP⟩

/-! ### The order of a drop -/

mutual

/-- The nodes of a subtree in the order in which they are dropped, each with the path that leads to it. -/
def Node.visits : Node D → List (List Str × Option D)
  | .mk _ data children => children.visits ++ [([], data)]

def Children.visits : Children D → List (List Str × Option D)
  | .nil => []
  | .cons key node rest => (node.visits.map fun (rel, data) => (key :: rel, data)) ++ rest.visits

end

mutual

theorem Node.mem_visits {d : Option D} : ∀ (n : Node D) (rel : List Str), n.Keyed →
    ((rel, d) ∈ n.visits ↔ n.view rel = some d)
  | .mk key data cs, rel, h => by
    rw [Node.visits, List.mem_append, Children.mem_visits cs rel h, List.mem_singleton, Prod.mk.injEq]
    constructor
    · rintro (⟨k, c, hf, rel, rfl, hv⟩ | ⟨rfl, rfl⟩)
      · rw [Node.view_cons, show (Node.mk key data cs).getChild k = some c from hf]
        exact hv
      · rfl
    · intro hv
      cases rel with
      | nil => exact .inr ⟨rfl, (Option.some.inj hv).symm⟩
      | cons k rel =>
        rw [Node.view_cons] at hv
        obtain ⟨c, hc, hv⟩ := Option.bind_eq_some_iff.1 hv
        exact .inl ⟨k, c, hc, rel, rfl, hv⟩

theorem Children.mem_visits {d : Option D} : ∀ (cs : Children D) (p : List Str), cs.Keyed →
    ((p, d) ∈ cs.visits ↔ ∃ k c, cs.find k = some c ∧ ∃ rel, p = k :: rel ∧ c.view rel = some d)
  | .nil, _, _ => by simp [Children.visits, Children.find]
  | .cons k₁ n₁ r, p, ⟨_, hr₁, hn₁, hr⟩ => by
    have ih : ∀ rel, (rel, d) ∈ n₁.visits ↔ n₁.view rel = some d := fun rel => Node.mem_visits n₁ rel hn₁
    rw [Children.visits, List.mem_append, Children.mem_visits r p hr, List.mem_map, Children.exists_find_cons hr₁]
    refine or_congr_left ⟨?_, ?_⟩
    · rintro ⟨⟨rel, d'⟩, hm, heq⟩
      obtain ⟨rfl, rfl⟩ := Prod.mk.inj heq
      exact ⟨rel, rfl, (ih rel).1 hm⟩
    · rintro ⟨rel, rfl, hv⟩
      exact ⟨(rel, d), (ih rel).2 hv, rfl⟩

end

mutual

theorem Node.visits_bottomUp : ∀ n : Node D, n.Keyed → n.visits.Pairwise fun x y => ¬ x.1 <+: y.1
  | .mk _ data cs, h => by
    rw [Node.visits, List.pairwise_append]
    refine ⟨Children.visits_bottomUp cs h, List.pairwise_singleton _ _, fun x hx y hy hpre => ?_⟩
    obtain ⟨k, c, -, rel, hx, -⟩ := (Children.mem_visits cs _ h).1 hx
    rw [List.mem_singleton.1 hy, hx] at hpre
    exact List.cons_ne_nil k rel (List.prefix_nil.1 hpre)

theorem Children.visits_bottomUp : ∀ cs : Children D, cs.Keyed → cs.visits.Pairwise fun x y => ¬ x.1 <+: y.1
  | .nil, _ => .nil
  | .cons k₁ n₁ r, ⟨_, hr₁, hn₁, hr⟩ => by
    rw [Children.visits, List.pairwise_append]
    refine ⟨?_, Children.visits_bottomUp r hr, fun x hx y hy hpre => ?_⟩
    · rw [List.pairwise_map]
      refine (Node.visits_bottomUp n₁ hn₁).imp fun hne hpre => hne ?_
      exact (List.cons_prefix_cons.1 hpre).2
    · -- the two are below different children
      obtain ⟨⟨rel, d⟩, -, rfl⟩ := List.mem_map.1 hx
      obtain ⟨k, c, hf, rel', hy, -⟩ := (Children.mem_visits r _ hr).1 hy
      rw [hy] at hpre
      obtain rfl := (List.cons_prefix_cons.1 hpre).1
      exact hr₁ (Children.mem_keys_of_find hf)

end

mutual

theorem Node.dropChildren_eq : ∀ (n : Node D) (suffix : Str), n.Keyed → n.dropChildren suffix =
    n.visits.map fun (rel, data) => (suffix ++ behind '/' (n.key :: rel), data)
  | .mk key data cs, suffix, h => by
    rw [Node.dropChildren, Node.visits, List.map_append, Children.dropEach_eq cs _ h]
    simp [Node.key]

theorem Children.dropEach_eq : ∀ (cs : Children D) (suffix : Str), cs.Keyed → cs.dropEach suffix =
    cs.visits.map fun (p, data) => (suffix ++ behind '/' p, data)
  | .nil, _, _ => rfl
  | .cons k₁ n₁ r, suffix, ⟨hk₁, _, hn₁, hr⟩ => by
    rw [Children.dropEach, Children.visits, List.map_append, List.map_map, Node.dropChildren_eq n₁ suffix hn₁,
      Children.dropEach_eq r suffix hr, hk₁]
    rfl

end

/-- What is at one key at most in a keyed list comes up once at most. -/
theorem count_map_snd_le {α β : Type*} [BEq β] [LawfulBEq β] {b : β} {l : List (α × β)}
    (hn : (l.map Prod.fst).Nodup)
    (hb : ∀ p q, (p, b) ∈ l → (q, b) ∈ l → p = q) : (l.map Prod.snd).count b ≤ 1 := by
  induction l with
  | nil => exact Nat.zero_le 1
  | cons x l ih =>
    obtain ⟨p, b'⟩ := x
    rw [List.map_cons, List.nodup_cons] at hn
    rw [List.map_cons, List.count_cons]
    by_cases he : b' = b
    · subst he
      have hnone : b' ∉ l.map Prod.snd := by
        intro hm
        obtain ⟨⟨q, b''⟩, hq, rfl⟩ := List.mem_map.1 hm
        obtain rfl := hb p q List.mem_cons_self (List.mem_cons_of_mem _ hq)
        exact hn.1 (List.mem_map_of_mem hq)
      rw [List.count_eq_zero_of_not_mem hnone]
      simp
    · have hrest := ih hn.2 fun p q hp hq => hb p q (List.mem_cons_of_mem _ hp) (List.mem_cons_of_mem _ hq)
      simpa [he] using hrest

theorem Node.Keyed.walk {n c : Node D} {ts : List Str} {t : Str} (h : n.Keyed)
    (hw : n.walk (ts ++ [t]) = some c) : c.key = t ∧ c.Keyed := by
  induction ts generalizing n with
  | nil =>
    rw [List.nil_append, Node.walk_cons] at hw
    obtain ⟨c', hc, hw⟩ := Option.bind_eq_some_iff.1 hw
    obtain rfl : c' = c := Option.some.inj hw
    exact h.getChild hc
  | cons t' ts ih =>
    rw [List.cons_append, Node.walk_cons] at hw
    obtain ⟨c', hc, hw⟩ := Option.bind_eq_some_iff.1 hw
    exact ih (h.getChild hc).2 hw

namespace DirTree

variable {t : DirTree D} {key : Str} {x : Str × Option D}

/-- The nodes that a drop removes, in order, with their positions in the tree. -/
def dropped (t : DirTree D) (key : Str) : List (List Str × Option D) :=
  match t.root.walk (tokens key) with
  | none => []
  | some sub => sub.visits.map fun (rel, data) => (tokens key ++ rel, data)

theorem drop_eq_visits {ts : List Str} {last : Str} (hts : tokens key = ts ++ [last])
    (hn : (t.view (tokens key)).isSome) : ∃ sub : Node D, sub.Keyed ∧
      (∀ rel, t.view (tokens key ++ rel) = sub.view rel) ∧
      t.dropped key = (sub.visits.map fun (rel, data) => (tokens key ++ rel, data)) ∧
      (t.drop key).2 =
        sub.visits.map fun (rel, data) => (upToLast '/' (normalize key) ++ behind '/' (last :: rel), data) := by
  rw [view, Node.view_isSome] at hn
  obtain ⟨sub, hsub⟩ := Option.isSome_iff_exists.1 hn
  obtain ⟨hkey, hK⟩ := t.keyed.walk (hts ▸ hsub)
  refine ⟨sub, hK, fun rel => ?_, ?_, ?_⟩
  · rw [view, Node.view, Node.walk_append, hsub]
    rfl
  · rw [dropped, hsub]
  · rw [drop_calls hsub, sub.dropChildren_eq [] hK, List.map_map, hkey]
    rfl

theorem exists_tokens_eq_concat (key : Str) : ∃ ts last, tokens key = ts ++ [last] :=
  ⟨_, _, (List.dropLast_concat_getLast (tokens_ne_nil key)).symm⟩

theorem dropped_of_none (h : t.view (tokens key) = none) : t.dropped key = [] := by
  have hw : t.root.walk (tokens key) = none := by
    rw [view, ← Option.not_isSome_iff_eq_none, Node.view_isSome] at h
    simpa using h
  rw [dropped, hw]

theorem mem_dropped {p : List Str} {d : Option D} :
    (p, d) ∈ t.dropped key ↔ tokens key <+: p ∧ t.view p = some d := by
  cases hn : t.view (tokens key) with
  | none =>
    rw [dropped_of_none hn]
    refine iff_of_false List.not_mem_nil ?_
    rintro ⟨hpre, hp⟩
    have := view_prefixClosed t (tokens key) p hpre (by rw [hp]; rfl)
    rw [hn] at this
    cases this
  | some e =>
    obtain ⟨ts, last, hts⟩ := exists_tokens_eq_concat key
    obtain ⟨sub, hK, hview, hdropped, -⟩ := drop_eq_visits hts (t := t) (by rw [hn]; rfl)
    rw [hdropped, List.mem_map]
    constructor
    · rintro ⟨⟨rel, d⟩, hm, heq⟩
      obtain ⟨rfl, rfl⟩ := Prod.mk.inj heq
      exact ⟨List.prefix_append _ _, (hview rel).trans ((sub.mem_visits rel hK).1 hm)⟩
    · rintro ⟨⟨rel, rfl⟩, hp⟩
      exact ⟨(rel, d), (sub.mem_visits rel hK).2 ((hview rel).symm.trans hp), rfl⟩

theorem dropped_bottomUp (t : DirTree D) (key : Str) :
    (t.dropped key).Pairwise fun x y => ¬ x.1 <+: y.1 := by
  cases hn : t.view (tokens key) with
  | none => rw [dropped_of_none hn]; exact .nil
  | some e =>
    obtain ⟨ts, last, hts⟩ := exists_tokens_eq_concat key
    obtain ⟨sub, hK, -, hdropped, -⟩ := drop_eq_visits hts (t := t) (by rw [hn]; rfl)
    rw [hdropped, List.pairwise_map]
    exact (sub.visits_bottomUp hK).imp fun hne hpre => hne ((List.prefix_append_right_inj _).1 hpre)

theorem dropped_nodup (t : DirTree D) (key : Str) : ((t.dropped key).map Prod.fst).Nodup := by
  rw [List.Nodup, List.pairwise_map]
  refine (t.dropped_bottomUp key).imp fun hne he => hne ?_
  rw [he]

theorem drop_data (t : DirTree D) (key : Str) : (t.drop key).2.map Prod.snd = (t.dropped key).map Prod.snd := by
  cases hn : t.view (tokens key) with
  | none => rw [dropped_of_none hn, drop_of_none hn]; rfl
  | some e =>
    obtain ⟨ts, last, hts⟩ := exists_tokens_eq_concat key
    obtain ⟨sub, -, -, hdropped, hcalls⟩ := drop_eq_visits hts (t := t) (by rw [hn]; rfl)
    rw [hdropped, hcalls, List.map_map, List.map_map]
    rfl

theorem mem_calls {ts : List Str} {last : Str} (hts : tokens key = ts ++ [last])
    (hn : (t.view (tokens key)).isSome) : x ∈ (t.drop key).2 ↔ ∃ rel data,
      t.view (tokens key ++ rel) = some data ∧
        x = (upToLast '/' (normalize key) ++ behind '/' (last :: rel), data) := by
  obtain ⟨sub, hK, hview, -, hcalls⟩ := drop_eq_visits hts hn
  rw [hcalls, List.mem_map]
  constructor
  · rintro ⟨⟨rel, d⟩, hm, rfl⟩
    exact ⟨rel, d, (hview rel).trans ((sub.mem_visits rel hK).1 hm), rfl⟩
  · rintro ⟨rel, d, hv, rfl⟩
    exact ⟨(rel, d), (sub.mem_visits rel hK).2 ((hview rel).symm.trans hv), rfl⟩

theorem mem_data_calls {d : Option D} :
    d ∈ (t.drop key).2.map Prod.snd ↔ ∃ rel, t.view (tokens key ++ rel) = some d := by
  rw [drop_data, List.mem_map]
  constructor
  · rintro ⟨⟨p, d⟩, hm, rfl⟩
    obtain ⟨⟨rel, rfl⟩, hv⟩ := mem_dropped.1 hm
    exact ⟨rel, hv⟩
  · rintro ⟨rel, hv⟩
    exact ⟨_, mem_dropped.2 ⟨List.prefix_append _ _, hv⟩, rfl⟩

theorem count_data_calls_le [DecidableEq D] {d : Option D}
    (hd : ∀ p q, t.view p = some d → t.view q = some d → p = q) :
    ((t.drop key).2.map Prod.snd).count d ≤ 1 := by
  rw [drop_data]
  exact count_map_snd_le (t.dropped_nodup key) fun p q hp hq =>
    hd p q (mem_dropped.1 hp).2 (mem_dropped.1 hq).2

/-- A drop goes once through every node of the subtree at the key, from the bottom up, with the data
that the nodes have, and takes them and no others out of the tree. -/
structure DropsOnce (t : DirTree D) (key : Str) : Prop where
  nodes : ∀ p data, (p, data) ∈ t.dropped key ↔ tokens key <+: p ∧ t.view p = some data
  once : ((t.dropped key).map Prod.fst).Nodup
  bottomUp : (t.dropped key).Pairwise fun x y => ¬ x.1 <+: y.1
  data : (t.drop key).2.map Prod.snd = (t.dropped key).map Prod.snd
  gone : ∀ p, tokens key <+: p → (t.drop key).1.view p = none
  frame : ∀ p, ¬ tokens key <+: p → (t.drop key).1.view p = t.view p

theorem dropsOnce (t : DirTree D) (key : Str) : t.DropsOnce key where
  nodes := fun _ _ => mem_dropped
  once := t.dropped_nodup key
  bottomUp := t.dropped_bottomUp key
  data := t.drop_data key
  gone := fun p hp => by rw [view_drop, PathMap.drop_below hp]
  frame := fun p hp => by rw [view_drop, PathMap.drop_not_below hp]

/-! ### Keys spelled as the tree spells them -/

/-- The key is its tokens with `/` between them. -/
def Canonical (key : Str) : Prop := key = ['/'].intercalate (tokens key)

instance (key : Str) : Decidable (Canonical key) := inferInstanceAs (Decidable (_ = _))

theorem isName_of_mem_tokens {s : Str} (h : s ∈ tokens key) : IsName s := by
  refine ⟨ne_nil_of_mem_tokens h, ?_⟩
  rw [tokens_eq] at h
  exact not_mem_of_mem_lead h

theorem char0_intercalate {s : Str} {ts : List Str} (h : s ≠ []) :
    char0 (['/'].intercalate (s :: ts)) = char0 s := by
  cases ts with
  | nil => rw [List.intercalate_singleton]
  | cons t ts => rw [intercalate_cons, char0_append h]

theorem tokens_intercalate {rel : List Str} (h : ∀ s ∈ rel, IsName s) :
    tokens (['/'].intercalate (tokens key ++ rel)) = tokens key ++ rel := by
  obtain ⟨s, ts, hts⟩ := exists_tokens_eq_cons key
  have htok : ∀ s ∈ tokens key ++ rel, IsName s := fun s hs =>
    (List.mem_append.1 hs).elim isName_of_mem_tokens (h s)
  have hdot : char0 (['/'].intercalate (tokens key ++ rel)) = '.' := by
    rw [hts, List.cons_append, char0_intercalate (List.cons_ne_nil _ _)]; rfl
  rw [DirTree.tokens_eq, normalize_of_dot hdot, lead,
    List.splitOn_intercalate _ (fun s hs => (htok s hs).2) (by simp [tokens_ne_nil])]
  exact List.takeWhile_eq_self_iff.2 fun s hs => by simpa using (htok s hs).1

/-- The callback gets the nodes of the subtree under their tokens. -/
theorem mem_calls_of_canonical (hk : Canonical (normalize key)) (hs : '/' ∈ key)
    (hn : (t.view (tokens key)).isSome) : x ∈ (t.drop key).2 ↔ ∃ rel data,
      t.view (tokens key ++ rel) = some data ∧ x = (['/'].intercalate (tokens key ++ rel), data) := by
  obtain ⟨ts, last, hts⟩ := exists_tokens_eq_concat key
  have hlast : IsName last := isName_of_mem_tokens (show last ∈ tokens key by rw [hts]; simp)
  rw [Canonical, tokens_normalize, hts] at hk
  have hne : ts ≠ [] := by
    rintro rfl
    rw [List.nil_append, List.intercalate_singleton] at hk
    refine hlast.2 (hk ▸ ?_)
    unfold normalize
    split
    · exact List.mem_append_right _ hs
    · split
      · exact List.mem_append_right _ hs
      · exact hs
  have hup : upToLast '/' (normalize key) = ['/'].intercalate ts := by
    rw [hk, intercalate_append hne, behind_cons, behind_nil, List.append_nil]
    exact upToLast_append hlast.2
  rw [mem_calls hts hn, hup]
  simp only [← intercalate_append hne, hts, List.append_assoc, List.singleton_append]

end DirTree

end ChCppUtils
