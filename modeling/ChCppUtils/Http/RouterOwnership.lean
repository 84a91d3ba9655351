import ChCppUtils.DirTree.Drop
import ChCppUtils.Http.Router

/-!
# Who deletes the routes

`~Router` drops the key `/` from the tree of each method and deletes the data of the nodes it is
called back with: those at and below the token `.`. A node holds one route, the last one registered at
its tokens. So every route of a history is deleted once exactly when all paths come to lie below `.`
and no two routes of a method have the same tokens (`deleted_once_iff`); no route is deleted twice.
-/

namespace ChCppUtils.Http.Router

open DirTree (tokens)

/-- `dropCbk(path, data)`, with what it deletes: null is passed over. -/
def dropCbk (_path : Str) (route : Option Route) : List Route := route.toList

/-- The routes that `~Router` deletes, in order. -/
def destroy (router : Router) : List Route :=
  router.routes.entries.flatMap fun entry =>
    (entry.2.drop ['/']).2.flatMap fun (path, route) => dropCbk path route

/-- The `Route` objects made by a history of `HttpServer::route` calls, oldest first. -/
def allocate (calls : List (EvhttpCmdType × Str)) : List Route :=
  calls.zipIdx.map fun ((method, path), addr) => ⟨addr, method, path⟩

/-- The router of a server after these calls. -/
def route (calls : List (EvhttpCmdType × Str)) : Router := addRoutes (allocate calls)

theorem tokens_slash : tokens ['/'] = [['.']] := by decide

variable {rs : List Route} {r : Route} {method : EvhttpCmdType} {tree : DirTree Route}

theorem count_dropCbk (calls : List (Str × Option Route)) (r : Route) :
    (calls.flatMap fun (path, route) => dropCbk path route).count r = (calls.map Prod.snd).count (some r) := by
  induction calls with
  | nil => rfl
  | cons x calls ih =>
    obtain ⟨path, route⟩ := x
    rw [List.flatMap_cons, List.count_append, ih, List.map_cons, List.count_cons]
    cases route with
    | none => simp [dropCbk]
    | some r' => simp [dropCbk, List.count_cons, Nat.add_comm]

/-! ### The tree of a method -/

theorem view_eq_some_iff (h : (addRoutes rs).routes.lookup method = some tree) {p : List Str} :
    tree.view p = some (some r) ↔ p ≠ [] ∧ lastAt rs method p = some r := by
  rw [lookup_addRoutes] at h
  split at h
  · cases h
  obtain rfl := Option.some.inj h
  by_cases hp : p = []
  · rw [hp, DirTree.view_run_nil]
    simp
  · rw [DirTree.view_run _ hp, absRun_inserts]
    constructor
    · intro hv
      split at hv
      · exact ⟨hp, Option.some.inj hv⟩
      · cases hv
    · rintro ⟨-, hl⟩
      obtain ⟨hr, hm, ht⟩ := of_lastSuch hl
      rw [if_pos ⟨r, hr, hm, ht ▸ List.prefix_rfl⟩, hl]

/-- The tree of its method hands a route over once if it is the last one at its tokens and these
start with `.`, and else not at all. -/
theorem count_calls (h : (addRoutes rs).routes.lookup method = some tree) :
    ((tree.drop ['/']).2.map Prod.snd).count (some r) =
      if [['.']] <+: tokens r.path ∧ lastAt rs method (tokens r.path) = some r then 1 else 0 := by
  have hmem : some r ∈ (tree.drop ['/']).2.map Prod.snd ↔
      [['.']] <+: tokens r.path ∧ lastAt rs method (tokens r.path) = some r := by
    rw [DirTree.mem_data_calls, tokens_slash]
    constructor
    · rintro ⟨rel, hv⟩
      obtain ⟨-, hl⟩ := (view_eq_some_iff h).1 hv
      rw [(of_lastSuch hl).2.2]
      exact ⟨List.prefix_append _ _, hl⟩
    · rintro ⟨⟨rel, hrel⟩, hl⟩
      exact ⟨rel, (view_eq_some_iff h).2 ⟨by simp, hrel ▸ hl⟩⟩
  have hle : ((tree.drop ['/']).2.map Prod.snd).count (some r) ≤ 1 := by
    refine DirTree.count_data_calls_le fun p q hp hq => ?_
    have hpt := (of_lastSuch ((view_eq_some_iff h).1 hp).2).2.2
    have hqt := (of_lastSuch ((view_eq_some_iff h).1 hq).2).2.2
    exact hpt.symm.trans hqt
  split
  · rename_i hc
    have := List.count_pos_iff.2 (hmem.2 hc)
    omega
  · rename_i hc
    exact List.count_eq_zero_of_not_mem fun hm => hc (hmem.1 hm)

/-! ### The router -/

theorem count_calls_of_ne (h : (addRoutes rs).routes.lookup method = some tree) (hm : method ≠ r.method) :
    ((tree.drop ['/']).2.map Prod.snd).count (some r) = 0 := by
  rw [count_calls h, if_neg]
  rintro ⟨-, hl⟩
  exact hm (of_lastSuch hl).2.1.symm

theorem count_destroy (hr : r ∈ rs) : (destroy (addRoutes rs)).count r =
    if [['.']] <+: tokens r.path ∧ lastAt rs r.method (tokens r.path) = some r then 1 else 0 := by
  obtain ⟨tree, htree⟩ : ∃ tree, (addRoutes rs).routes.lookup r.method = some tree := by
    rw [lookup_addRoutes, if_neg]
    · exact ⟨_, rfl⟩
    · intro hn
      have hmem : DirTree.Op.insert r.path (some r) ∈ inserts rs r.method :=
        List.mem_map_of_mem (List.mem_filter.2 ⟨hr, by simp⟩)
      rw [hn] at hmem
      cases hmem
  -- the entries before and after that of the route's method are of other methods
  obtain ⟨l₁, l₂, hl⟩ := List.append_of_mem (AList.mem_lookup_iff.1 htree)
  have hother : ∀ entry ∈ l₁ ++ l₂, ((entry.2.drop ['/']).2.map Prod.snd).count (some r) = 0 := by
    intro entry he
    have hin : entry ∈ (addRoutes rs).routes.entries := by
      rw [hl]
      rcases List.mem_append.1 he with he | he
      · exact List.mem_append_left _ he
      · exact List.mem_append_right _ (List.mem_cons_of_mem _ he)
    refine count_calls_of_ne (AList.mem_lookup_iff.2 hin) fun hm => ?_
    have hnodup : ((l₁ ++ l₂).map Sigma.fst).Nodup ∧ r.method ∉ (l₁ ++ l₂).map Sigma.fst := by
      have hk := (addRoutes rs).routes.nodupKeys
      rw [hl, List.NodupKeys, List.keys, List.map_append, List.map_cons] at hk
      rw [List.map_append]
      exact ⟨(List.nodup_middle.1 hk).of_cons, (List.nodup_cons.1 (List.nodup_middle.1 hk)).1⟩
    exact hnodup.2 (hm ▸ List.mem_map_of_mem he)
  have hzero : ∀ l : List (Sigma fun _ : EvhttpCmdType => DirTree Route),
      (∀ entry ∈ l, ((entry.2.drop ['/']).2.map Prod.snd).count (some r) = 0) →
      (l.flatMap fun entry =>
        (entry.2.drop ['/']).2.flatMap fun (path, route) => dropCbk path route).count r = 0 := by
    intro l hl
    induction l with
    | nil => rfl
    | cons entry l ih =>
      rw [List.flatMap_cons, List.count_append, count_dropCbk, hl entry List.mem_cons_self,
        ih fun e he => hl e (List.mem_cons_of_mem _ he)]
  rw [destroy, hl, List.flatMap_append, List.flatMap_cons, List.count_append, List.count_append,
    hzero l₁ fun e he => hother e (List.mem_append_left _ he),
    hzero l₂ fun e he => hother e (List.mem_append_right _ he), count_dropCbk, count_calls htree]
  omega

/-! ### Histories of registrations -/

/-- No two routes of the same method are registered at the same node. -/
def Apart (rs : List Route) : Prop :=
  rs.Pairwise fun r r' => r.method = r'.method → tokens r.path ≠ tokens r'.path

theorem forall_lastAt_iff (hn : rs.Nodup) :
    (∀ r ∈ rs, lastAt rs r.method (tokens r.path) = some r) ↔ Apart rs := by
  induction rs using List.reverseRecOn with
  | nil => simp [Apart]
  | append_singleton rs x ih =>
    obtain ⟨hrs, -, hx⟩ := List.nodup_append.1 hn
    have hstep : ∀ r ∈ rs, lastAt (rs ++ [x]) r.method (tokens r.path) = some r ↔
        (r.method = x.method → tokens r.path ≠ tokens x.path) ∧
          lastAt rs r.method (tokens r.path) = some r := by
      intro r hr
      rw [lastAt, lastSuch_append_singleton]
      by_cases hsame : x.method = r.method ∧ tokens x.path = tokens r.path
      · rw [if_pos hsame]
        refine iff_of_false (fun he => ?_) fun hc => hc.1 hsame.1.symm hsame.2.symm
        exact hx r hr x (List.mem_singleton_self x) (Option.some.inj he).symm
      · rw [if_neg hsame]
        exact ⟨fun h => ⟨fun hm ht => hsame ⟨hm.symm, ht.symm⟩, h⟩, fun h => h.2⟩
    have hself : lastAt (rs ++ [x]) x.method (tokens x.path) = some x := by
      rw [lastAt, lastSuch_append_singleton, if_pos ⟨rfl, rfl⟩]
    rw [Apart, List.pairwise_append]
    constructor
    · intro h
      have hall := fun r hr => (hstep r hr).1 (h r (List.mem_append_left _ hr))
      refine ⟨(ih hrs).1 fun r hr => (hall r hr).2, List.pairwise_singleton _ x, fun r hr y hy => ?_⟩
      rw [List.mem_singleton.1 hy]
      exact (hall r hr).1
    · rintro ⟨ha, -, hcross⟩ r hr
      rcases List.mem_append.1 hr with hr | hr
      · exact (hstep r hr).2 ⟨hcross r hr x (List.mem_singleton_self x), (ih hrs).2 ha r hr⟩
      · rw [List.mem_singleton.1 hr]; exact hself

theorem map_allocate (calls : List (EvhttpCmdType × Str)) :
    (allocate calls).map (fun r => (r.method, r.path)) = calls := by
  have hf : (fun r : Route => (r.method, r.path)) ∘
      (fun x : (EvhttpCmdType × Str) × Nat => (⟨x.2, x.1.1, x.1.2⟩ : Route)) = Prod.fst := rfl
  show (calls.zipIdx.map fun x => (⟨x.2, x.1.1, x.1.2⟩ : Route)).map _ = calls
  rw [List.map_map, hf, List.zipIdx_map_fst]

theorem nodup_allocate (calls : List (EvhttpCmdType × Str)) : (allocate calls).Nodup := by
  have haddr : (allocate calls).map Route.addr = List.range' 0 calls.length := by
    have hf : Route.addr ∘ (fun x : (EvhttpCmdType × Str) × Nat => (⟨x.2, x.1.1, x.1.2⟩ : Route)) = Prod.snd := rfl
    show (calls.zipIdx.map fun x => (⟨x.2, x.1.1, x.1.2⟩ : Route)).map _ = _
    rw [List.map_map, hf, List.zipIdx_map_snd]
  refine List.Nodup.of_map Route.addr ?_
  rw [haddr]
  exact List.nodup_range'

/-- Every route is deleted exactly once iff the tokens of all paths start with `.` and no two calls for
a method lead to the same tokens. -/
theorem deleted_once_iff (calls : List (EvhttpCmdType × Str)) :
    (∀ r ∈ allocate calls, (destroy (route calls)).count r = 1) ↔
      (∀ call ∈ calls, [['.']] <+: tokens call.2) ∧
        calls.Pairwise fun call call' => call.1 = call'.1 → tokens call.2 ≠ tokens call'.2 := by
  have hcount : (∀ r ∈ allocate calls, (destroy (route calls)).count r = 1) ↔
      ∀ r ∈ allocate calls, [['.']] <+: tokens r.path ∧
        lastAt (allocate calls) r.method (tokens r.path) = some r := by
    refine forall₂_congr fun r hr => ?_
    rw [route, count_destroy hr]
    split <;> simp_all
  have hpaths : (∀ call ∈ calls, [['.']] <+: tokens call.2) ↔
      ∀ r ∈ allocate calls, [['.']] <+: tokens r.path := by
    conv_lhs => rw [← map_allocate calls]
    simp
  have hapart : (calls.Pairwise fun call call' => call.1 = call'.1 → tokens call.2 ≠ tokens call'.2) ↔
      Apart (allocate calls) := by
    conv_lhs => rw [← map_allocate calls]
    rw [List.pairwise_map]
    rfl
  rw [hcount, hpaths, hapart, ← forall_lastAt_iff (nodup_allocate calls)]
  exact ⟨fun h => ⟨fun r hr => (h r hr).1, fun r hr => (h r hr).2⟩, fun h r hr => ⟨h.1 r hr, h.2 r hr⟩⟩

/-- The second registration of `/a` takes the node from the first route, and `.well-known` is not
below the token `.`: two of three routes are not deleted. -/
theorem not_deleted_once_repeated :
    ¬ ∀ r ∈ allocate [(.get, "/a".toList), (.get, "/a".toList), (.get, ".well-known".toList)],
      (destroy (route [(.get, "/a".toList), (.get, "/a".toList), (.get, ".well-known".toList)])).count r = 1 := by
  decide

end ChCppUtils.Http.Router
