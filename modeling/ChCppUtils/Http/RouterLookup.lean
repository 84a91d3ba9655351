import ChCppUtils.Http.Router

/-!
# Which route a request gets

A path that starts with `/` is read up to its first empty segment: `lead path` is what the router
sees and `rest path` are the segments it does not see. A request gets a route with its own segments,
or with `*` for the last one, exactly when what the router leaves out on both sides agrees
(`sound_iff`). A request for a path without empty segments finds the route registered for it, or
with `*` for its last segment, unless a longer route goes through it (`complete_iff`).
-/

namespace ChCppUtils.Http.Router

open DirTree (tokens)

/-! ### Segments of a path -/

/-- The non-empty segments of a path. -/
def segs (path : Str) : List Str := Split.segs '/' path

/-- The segments after the leading `/`, up to the first empty one. -/
def lead (path : Str) : List Str := Split.lead '/' (path.drop 1)

/-- The non-empty segments behind the first empty one. -/
def rest (path : Str) : List Str := Split.rest '/' (path.drop 1)

/-- The path starts with `/`. -/
def Rooted (path : Str) : Prop := path.head? = some '/'

instance (path : Str) : Decidable (Rooted path) := inferInstanceAs (Decidable (_ = _))

theorem Rooted.eq_cons {path : Str} (h : Rooted path) : path = '/' :: path.drop 1 := by
  cases path with
  | nil => exact absurd h (by decide)
  | cons c cs => rw [show c = '/' from Option.some.inj h]; rfl

theorem segs_eq {path : Str} (h : Rooted path) : segs path = lead path ++ rest path := by
  have hs : Split.segs '/' ('/' :: path.drop 1) = Split.segs '/' (path.drop 1) := by
    rw [Split.segs, Split.splitOn_eq_takeWhile]
    rfl
  rw [lead, rest, Split.lead_append_rest, segs, ← hs, ← h.eq_cons]

theorem tokens_eq {path : Str} (h : Rooted path) : tokens path = ['.'] :: lead path := by
  have hn : DirTree.normalize path = '.' :: path := by rw [h.eq_cons]; rfl
  have ht : ('.' :: path).takeWhile (· ≠ '/') = ['.'] := by rw [h.eq_cons]; rfl
  rw [DirTree.tokens_eq, hn, Split.lead_eq_takeWhile, ht, if_neg (List.cons_ne_nil _ _)]
  rfl

/-- The segments of a path with `*` for the last one. -/
def wild (ss : List Str) : List Str := ss.dropLast ++ [['*']]

theorem length_wild {ss : List Str} (h : ss ≠ []) : (wild ss).length = ss.length := by
  have := List.length_pos_of_ne_nil h
  simp [wild]
  omega

theorem wild_append {ss ts : List Str} (h : ts ≠ []) : wild (ss ++ ts) = ss ++ wild ts := by
  simp [wild, List.dropLast_append_of_ne_nil h]

/-! ### The lookup in terms of the segments -/

section
variable {rs : List Route} {method : EvhttpCmdType} {path : Str} {r : Route}

/-- The last route of a method with given leading segments. -/
def lastLead (rs : List Route) (method : EvhttpCmdType) (ss : List Str) : Option Route :=
  lastSuch rs fun r => r.method = method ∧ lead r.path = ss

/-- Some route of the method has a path that goes through the segments `ss`. -/
def PassesLead (rs : List Route) (method : EvhttpCmdType) (ss : List Str) : Prop :=
  ∃ r ∈ rs, r.method = method ∧ ss <+: lead r.path

instance (rs : List Route) (method : EvhttpCmdType) (ss : List Str) : Decidable (PassesLead rs method ss) :=
  inferInstanceAs (Decidable (∃ r ∈ rs, r.method = method ∧ ss <+: lead r.path))

theorem PassesLead.of_lastLead {ss : List Str} (h : lastLead rs method ss = some r) : PassesLead rs method ss := by
  obtain ⟨hr, hm, hl⟩ := of_lastSuch h
  exact ⟨r, hr, hm, hl ▸ List.prefix_rfl⟩

theorem passes_iff (hrs : ∀ r ∈ rs, Rooted r.path) (ss : List Str) :
    Passes rs method (['.'] :: ss) ↔ PassesLead rs method ss := by
  constructor
  · rintro ⟨r, hr, hm, hp⟩
    rw [tokens_eq (hrs r hr)] at hp
    exact ⟨r, hr, hm, (List.cons_prefix_cons.1 hp).2⟩
  · rintro ⟨r, hr, hm, hp⟩
    refine ⟨r, hr, hm, ?_⟩
    rw [tokens_eq (hrs r hr)]
    exact List.cons_prefix_cons.2 ⟨rfl, hp⟩

theorem lastAt_eq (hrs : ∀ r ∈ rs, Rooted r.path) (ss : List Str) :
    lastAt rs method (['.'] :: ss) = lastLead rs method ss :=
  lastSuch_congr fun r hr => by rw [tokens_eq (hrs r hr)]; simp

theorem lastAt_wild (hrs : ∀ r ∈ rs, Rooted r.path) (ss : List Str) :
    lastAt rs method ((['.'] :: ss).dropLast ++ [['*']]) =
      if ss = [] then none else lastLead rs method (wild ss) := by
  by_cases hs : ss = []
  · rw [if_pos hs, hs]
    refine lastSuch_eq_none.2 fun r hr h => ?_
    have ht := h.2
    rw [tokens_eq (hrs r hr)] at ht
    exact absurd (List.cons.inj ht).1 (by decide)
  · rw [if_neg hs, List.dropLast_cons_of_ne_nil hs, List.cons_append]
    exact lastAt_eq hrs _

theorem getRoute_eq (hrs : ∀ r ∈ rs, Rooted r.path) (hp : Rooted path) :
    (addRoutes rs).getRoute method path =
      if PassesLead rs method (lead path) then lastLead rs method (lead path)
      else if lead path = [] then none else lastLead rs method (wild (lead path)) := by
  rw [getRoute_addRoutes, tokens_eq hp, lastAt_eq hrs, lastAt_wild hrs]
  simp only [passes_iff hrs]

end

/-! ### Soundness -/

/-- A route for the request has its segments, or its segments with `*` for the last one. -/
def Sound (rs : List Route) (method : EvhttpCmdType) (path : Str) : Prop :=
  ∀ r, (addRoutes rs).getRoute method path = some r →
    r ∈ rs ∧ r.method = method ∧
      (segs r.path = segs path ∨ segs path ≠ [] ∧ segs r.path = wild (segs path))

/-- What a route at the leading segments of the request has behind its first empty segment is what
the request has there, or has `*` for the last of it. -/
def ExactAgrees (path : Str) (r : Route) : Prop :=
  rest r.path = rest path ∨ rest path ≠ [] ∧ rest r.path = wild (rest path)

/-- Neither a route at `*` nor the request has a segment behind its first empty one. -/
def WildAgrees (path : Str) (r : Route) : Prop := rest r.path = [] ∧ rest path = []

/-- The condition for `Sound`, on the registered paths and the request. -/
structure RestsAgree (rs : List Route) (method : EvhttpCmdType) (path : Str) : Prop where
  exact : ∀ r, lastLead rs method (lead path) = some r → ExactAgrees path r
  wild : ¬ PassesLead rs method (lead path) → lead path ≠ [] →
    ∀ r, lastLead rs method (wild (lead path)) = some r → WildAgrees path r

section
variable {path : Str} {r : Route}

theorem exactAgrees_iff (hp : Rooted path) (hr : Rooted r.path) (hl : lead r.path = lead path) :
    (segs r.path = segs path ∨ segs path ≠ [] ∧ segs r.path = wild (segs path)) ↔ ExactAgrees path r := by
  rw [segs_eq hp, segs_eq hr, hl, ExactAgrees, List.append_cancel_left_eq]
  by_cases hR : rest path = []
  · -- then `*` stands for the last leading segment, and `rest r.path` has no place
    rw [hR, List.append_nil]
    constructor
    · rintro (h | ⟨hne, h⟩)
      · exact .inl h
      · have hlen := congrArg List.length h
        rw [List.length_append, length_wild hne] at hlen
        exact .inl (List.eq_nil_of_length_eq_zero (by omega))
    · rintro (h | ⟨hne, -⟩)
      · exact .inl h
      · exact absurd rfl hne
  · rw [wild_append hR, List.append_cancel_left_eq]
    simp [hR]

theorem wildAgrees_iff (hp : Rooted path) (hr : Rooted r.path) (hne : lead path ≠ [])
    (hl : lead r.path = wild (lead path)) (hx : lead r.path ≠ lead path) :
    (segs r.path = segs path ∨ segs path ≠ [] ∧ segs r.path = wild (segs path)) ↔ WildAgrees path r := by
  have hlen : (lead r.path).length = (lead path).length := by rw [hl, length_wild hne]
  rw [segs_eq hp, segs_eq hr, WildAgrees]
  constructor
  · rintro (h | ⟨-, h⟩)
    · exact absurd (List.append_inj_left h hlen) hx
    · by_cases hR : rest path = []
      · rw [hR, List.append_nil, hl] at h
        exact ⟨List.append_right_eq_self.1 h, hR⟩
      · rw [wild_append hR] at h
        exact absurd (List.append_inj_left h hlen) hx
  · rintro ⟨hrR, hR⟩
    rw [hrR, hR, List.append_nil, List.append_nil]
    exact .inr ⟨hne, hl⟩

end

theorem sound_iff (rs : List Route) (method : EvhttpCmdType) (path : Str)
    (hrs : ∀ r ∈ rs, Rooted r.path) (hp : Rooted path) :
    Sound rs method path ↔ RestsAgree rs method path := by
  have hget : (addRoutes rs).getRoute method path = _ := getRoute_eq hrs hp
  constructor
  · intro h
    refine ⟨fun r hr => ?_, fun hps hne r hr => ?_⟩
    · obtain ⟨hmem, -, hl⟩ := of_lastSuch hr
      rw [if_pos (PassesLead.of_lastLead hr), hr] at hget
      exact (exactAgrees_iff hp (hrs r hmem) hl).1 (h r hget).2.2
    · obtain ⟨hmem, hm, hl⟩ := of_lastSuch hr
      rw [if_neg hps, if_neg hne, hr] at hget
      have hx : lead r.path ≠ lead path := fun he => hps ⟨r, hmem, hm, he ▸ List.prefix_rfl⟩
      exact (wildAgrees_iff hp (hrs r hmem) hne hl hx).1 (h r hget).2.2
  · intro h r hr
    rw [hget] at hr
    by_cases hps : PassesLead rs method (lead path)
    · rw [if_pos hps] at hr
      obtain ⟨hmem, hm, hl⟩ := of_lastSuch hr
      exact ⟨hmem, hm, (exactAgrees_iff hp (hrs r hmem) hl).2 (h.exact r hr)⟩
    · rw [if_neg hps] at hr
      by_cases hne : lead path = []
      · rw [if_pos hne] at hr; exact absurd hr (by simp)
      · rw [if_neg hne] at hr
        obtain ⟨hmem, hm, hl⟩ := of_lastSuch hr
        have hx : lead r.path ≠ lead path := fun he => hps ⟨r, hmem, hm, he ▸ List.prefix_rfl⟩
        exact ⟨hmem, hm, (wildAgrees_iff hp (hrs r hmem) hne hl hx).2 (h.wild hps hne r hr)⟩

theorem sound_api_wildcard :
    Sound [⟨0, .get, "/api/*".toList⟩, ⟨1, .get, "/api".toList⟩] .get "/api/x".toList :=
  (sound_iff _ _ _ (by decide) (by decide)).2
    ⟨fun r h => absurd h (by rw [show lastLead _ _ _ = none by decide]; simp),
      fun _ _ r h => by
        obtain rfl : (⟨0, .get, "/api/*".toList⟩ : Route) = r := Option.some.inj h
        exact ⟨by decide, by decide⟩⟩

/-- `/api//x` is answered by the route of `/api`: the lookup stops at the empty segment. -/
theorem not_sound_empty_segment : ¬ Sound [⟨0, .get, "/api".toList⟩] .get "/api//x".toList := by
  intro h
  have hr := h ⟨0, .get, "/api".toList⟩ (by decide)
  exact absurd hr.2.2 (by decide)

/-! ### Completeness -/

/-- A segment of a path without empty segments. -/
def Segment (s : Str) : Prop := s ≠ [] ∧ '/' ∉ s

instance (s : Str) : Decidable (Segment s) := inferInstanceAs (Decidable (_ ∧ _))

/-- `/s1/…/sn` -/
def pathOf (ss : List Str) : Str := '/' :: ['/'].intercalate ss

/-- The last route registered under a path. -/
def lastAtPath (rs : List Route) (method : EvhttpCmdType) (path : Str) : Option Route :=
  lastSuch rs fun r => r.method = method ∧ r.path = path

/-- The route for `/s1/…/sn` is the last one registered for it, and else the last one registered for
`/s1/…/s(n-1)/*`. -/
structure Complete (rs : List Route) (method : EvhttpCmdType) (ss : List Str) : Prop where
  exact : ∀ r, lastAtPath rs method (pathOf ss) = some r →
    (addRoutes rs).getRoute method (pathOf ss) = some r
  wild : lastAtPath rs method (pathOf ss) = none →
    ∀ r, lastAtPath rs method (pathOf (wild ss)) = some r →
      (addRoutes rs).getRoute method (pathOf ss) = some r

theorem rooted_pathOf (ss : List Str) : Rooted (pathOf ss) := rfl

theorem segs_pathOf {ss : List Str} (h : ∀ s ∈ ss, Segment s) : segs (pathOf ss) = ss := by
  by_cases hs : ss = []
  · rw [hs]; rfl
  · have hsplit : (pathOf ss).splitOn '/' = [] :: ss := by
      rw [Split.splitOn_eq_takeWhile]
      show [] :: (['/'].intercalate ss).splitOn '/' = _
      rw [List.splitOn_intercalate _ (fun s hs => (h s hs).2) hs]
    rw [segs, Split.segs, hsplit, List.filter_cons_of_neg (by simp)]
    exact List.filter_eq_self.2 fun s hs => by simpa using (h s hs).1

theorem lead_pathOf {ss : List Str} (h : ∀ s ∈ ss, Segment s) : lead (pathOf ss) = ss := by
  by_cases hs : ss = []
  · rw [hs]; rfl
  · show ((['/'].intercalate ss).splitOn '/').takeWhile _ = ss
    rw [List.splitOn_intercalate _ (fun s hs => (h s hs).2) hs]
    exact List.takeWhile_eq_self_iff.2 fun s hs => by simpa using (h s hs).1

theorem segment_wild {ss : List Str} (h : ∀ s ∈ ss, Segment s) : ∀ s ∈ wild ss, Segment s := by
  intro s hs
  rcases List.mem_append.1 hs with hs | hs
  · exact h s (List.mem_of_mem_dropLast hs)
  · rw [List.mem_singleton.1 hs]; decide

section
variable {rs : List Route} {method : EvhttpCmdType} {ss : List Str}
  (hrs : ∀ r ∈ rs, ∃ ts, (∀ s ∈ ts, Segment s) ∧ r.path = pathOf ts)
include hrs

theorem rooted_of_segments : ∀ r ∈ rs, Rooted r.path := by
  intro r hr
  obtain ⟨ts, -, he⟩ := hrs r hr
  rw [he]; exact rooted_pathOf ts

theorem lastAtPath_eq (hss : ∀ s ∈ ss, Segment s) :
    lastAtPath rs method (pathOf ss) = lastLead rs method ss := by
  refine lastSuch_congr fun r hr => ?_
  obtain ⟨ts, hts, he⟩ := hrs r hr
  rw [he, lead_pathOf hts]
  constructor
  · rintro ⟨hm, hp⟩
    have := congrArg lead hp
    rw [lead_pathOf hts, lead_pathOf hss] at this
    exact ⟨hm, this⟩
  · rintro ⟨hm, rfl⟩; exact ⟨hm, rfl⟩

end

theorem complete_iff (rs : List Route) (method : EvhttpCmdType) (ss : List Str)
    (hrs : ∀ r ∈ rs, ∃ ts, (∀ s ∈ ts, Segment s) ∧ r.path = pathOf ts)
    (hss : ∀ s ∈ ss, Segment s) (hne : ss ≠ []) :
    Complete rs method ss ↔
      (∃ r ∈ rs, r.method = method ∧ r.path = pathOf ss) ∨
      (¬ ∃ r ∈ rs, r.method = method ∧ r.path = pathOf (wild ss)) ∨
      ¬ ∃ r ∈ rs, r.method = method ∧ ss <+: segs r.path := by
  have hroot := rooted_of_segments hrs
  have hget : (addRoutes rs).getRoute method (pathOf ss) = _ := getRoute_eq hroot (rooted_pathOf ss)
  have hexact : lastAtPath rs method (pathOf ss) = lastLead rs method ss := lastAtPath_eq hrs hss
  have hwild : lastAtPath rs method (pathOf (wild ss)) = lastLead rs method (wild ss) :=
    lastAtPath_eq hrs (segment_wild hss)
  rw [lead_pathOf hss, if_neg hne] at hget
  have hpass : (∃ r ∈ rs, r.method = method ∧ ss <+: segs r.path) ↔ PassesLead rs method ss := by
    have hseg : ∀ r ∈ rs, segs r.path = lead r.path := by
      intro r hr
      obtain ⟨ts, hts, he⟩ := hrs r hr
      rw [he, segs_pathOf hts, lead_pathOf hts]
    constructor <;> rintro ⟨r, hr, hm, hp⟩
    · exact ⟨r, hr, hm, hseg r hr ▸ hp⟩
    · exact ⟨r, hr, hm, (hseg r hr).symm ▸ hp⟩
  rw [hpass]
  constructor
  · intro h
    by_cases hx : ∃ r ∈ rs, r.method = method ∧ r.path = pathOf ss
    · exact .inl hx
    · refine .inr ?_
      have hnone : lastAtPath rs method (pathOf ss) = none :=
        lastSuch_eq_none.2 fun r hr hp => hx ⟨r, hr, hp⟩
      by_cases hps : PassesLead rs method ss
      · left
        rintro ⟨r, hr, hp⟩
        obtain ⟨w, hw⟩ : ∃ w, lastAtPath rs method (pathOf (wild ss)) = some w := by
          rw [← Option.isSome_iff_exists, Option.isSome_iff_ne_none]
          exact fun hn => lastSuch_eq_none.1 hn r hr hp
        have := h.wild hnone w hw
        rw [hget, if_pos hps, ← hexact, hnone] at this
        exact absurd this (by simp)
      · exact .inr hps
  · intro h
    refine ⟨fun r hr => ?_, fun hnone r hr => ?_⟩
    · rw [hexact] at hr
      rw [hget, if_pos (PassesLead.of_lastLead hr), hr]
    · rcases h with ⟨r', hr', hp⟩ | hnw | hps
      · exact absurd hp (lastSuch_eq_none.1 hnone r' hr')
      · obtain ⟨hmem, hp⟩ := of_lastSuch hr
        exact absurd ⟨r, hmem, hp⟩ hnw
      · rw [hget, if_neg hps, ← hwild, hr]

theorem complete_api_wildcard :
    Complete [⟨0, .get, "/api/*".toList⟩, ⟨1, .get, "/files/a/b".toList⟩] .get ["api".toList, "x".toList] :=
  (complete_iff _ _ _
    (by
      intro r hr
      rcases List.mem_cons.1 hr with rfl | hr
      · exact ⟨["api".toList, "*".toList], by decide, by decide⟩
      · rw [List.mem_singleton.1 hr]
        exact ⟨["files".toList, "a".toList, "b".toList], by decide, by decide⟩)
    (by decide) (by decide)).2 (.inr (.inr (by decide)))

/-- `/api/x/y` puts a node without a route at `/api/x`, and `/api/*` is not reached from there. -/
theorem not_complete_shadowed :
    ¬ Complete [⟨0, .get, "/api/*".toList⟩, ⟨1, .get, "/api/x/y".toList⟩] .get ["api".toList, "x".toList] := by
  intro h
  have hr := h.wild (by decide) ⟨0, .get, "/api/*".toList⟩ (by decide)
  exact absurd hr (by decide)

end ChCppUtils.Http.Router
