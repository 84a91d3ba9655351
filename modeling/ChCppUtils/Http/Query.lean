import ChCppUtils.Http.RequestEvent

/-!
# The query of a request

`buildQueryMap` cuts the query at every `&` and each token at its first `=`, and keeps the first value of
a name. It reads the tokens up to the first empty one, which it takes for the end (`lookup_buildQueryMap`):
a query that is put together from names and values is read back (`buildQueryMap_queryString`), but what
stands behind an empty token is lost (`concatenates_iff`).
-/

namespace ChCppUtils.Http.Server

open Split

variable {q a b : Str} {req : EvhttpRequest}

/-- The name and the value of a token. -/
def param (token : Str) : Str × Str :=
  match token.findIdx? (· == '=') with
  | some pos => (token.take pos, token.drop (pos + 1))
  | none => (token, [])

/-- The parameters of the tokens before the first empty one. -/
def params (q : Str) : List (Str × Str) := (lead '&' q).map param

namespace RequestEvent

theorem buildQueryLoop_eq {n frm : Nat} {query : UnorderedMap Str Str} (h : q.length < n + frm) :
    buildQueryLoop q n frm query = (params (q.drop frm)).foldl (fun m x => m.emplace x.1 x.2) query := by
  induction n generalizing frm query with
  | zero =>
    rw [List.drop_eq_nil_of_le (by omega)]
    rfl
  | succ n ih =>
    rw [buildQueryLoop, params, lead_drop]
    by_cases ht : next '&' q frm = []
    · simp [getNextQuery, ht]
    · have hlen : (getNextQuery q frm).length ≠ 0 := by simpa [getNextQuery] using ht
      rw [if_pos hlen, if_neg ht, List.map_cons, List.foldl_cons]
      exact ih (by omega)

/-- The map has the first value of each name among the parameters. -/
theorem lookup_buildQueryMap (hq : req.uri_query = some q) (name : Str) :
    (buildQueryMap req).lookup name = firstValue (· = name) (params q) := by
  have hloop : buildQueryMap req = (params q).foldl (fun m x => m.emplace x.1 x.2) ∅ := by
    simp only [buildQueryMap, hq]
    exact buildQueryLoop_eq (by omega)
  rw [hloop, UnorderedMap.lookup_foldl_emplace]
  simp [firstValue]

end RequestEvent

/-! ### Queries put together -/

/-- `name1=value1&...&nameN=valueN` -/
def queryString (ps : List (Str × Str)) : Str := ['&'].intercalate (ps.map fun p => p.1 ++ '=' :: p.2)

theorem param_append {name : Str} (h : '=' ∉ name) (value : Str) : param (name ++ '=' :: value) = (name, value) := by
  have hpos : (name ++ '=' :: value).findIdx? (· == '=') = some name.length := by
    rw [List.findIdx?_append, List.findIdx?_eq_none_iff.2 (by simp; rintro c hc rfl; exact h hc)]
    simp [List.findIdx?_cons]
  rw [param, hpos]
  simp

theorem params_queryString {ps : List (Str × Str)} (h : ∀ p ∈ ps, '=' ∉ p.1 ∧ '&' ∉ p.1 ∧ '&' ∉ p.2) :
    params (queryString ps) = ps := by
  cases ps with
  | nil => rfl
  | cons p ps =>
    have htokens : (queryString (p :: ps)).splitOn '&' = (p :: ps).map fun p => p.1 ++ '=' :: p.2 := by
      refine List.splitOn_intercalate '&' (fun token ht => ?_) (by simp)
      obtain ⟨x, hx, rfl⟩ := List.mem_map.1 ht
      obtain ⟨-, hname, hvalue⟩ := h x hx
      simp [hname, hvalue]
    have hne : [] ∉ (queryString (p :: ps)).splitOn '&' := by
      rw [htokens]
      simp
    have hparam : ∀ x ∈ p :: ps, param (x.1 ++ '=' :: x.2) = x := fun x hx => param_append (h x hx).1 x.2
    rw [params, lead_eq_splitOn hne, htokens, List.map_map]
    exact (List.map_congr_left hparam).trans (List.map_id _)

/-- What is put together of names without `=` and `&` and values without `&` is read back, the first value
of each name. -/
theorem buildQueryMap_queryString (ps : List (Str × Str)) (h : ∀ p ∈ ps, '=' ∉ p.1 ∧ '&' ∉ p.1 ∧ '&' ∉ p.2)
    (hq : req.uri_query = some (queryString ps)) (name : Str) :
    (RequestEvent.buildQueryMap req).lookup name = firstValue (· = name) ps := by
  rw [RequestEvent.lookup_buildQueryMap hq, params_queryString h]

/-- A name twice, an empty name, a value with `=` in it. -/
theorem buildQueryMap_queryString_twice : (RequestEvent.buildQueryMap
      ⟨.get, [], "/".toList, some "a=1&=x=y&a=2".toList, ⟨[], by decide⟩⟩).lookup "a".toList = some "1".toList :=
  buildQueryMap_queryString [("a".toList, "1".toList), ([], "x=y".toList), ("a".toList, "2".toList)] (by decide) rfl
    "a".toList

/-! ### Concatenation -/

/-- The map of `a&b` has what the map of `a` has, and what that of `b` has under other names. -/
def Concatenates (req : EvhttpRequest) (a b : Str) : Prop :=
  ∀ name, (RequestEvent.buildQueryMap { req with uri_query := some (a ++ '&' :: b) }).lookup name =
    ((RequestEvent.buildQueryMap { req with uri_query := some a }).lookup name).or
      ((RequestEvent.buildQueryMap { req with uri_query := some b }).lookup name)

theorem firstValue_append (p : Str → Bool) (ps qs : List (Str × Str)) :
    firstValue p (ps ++ qs) = (firstValue p ps).or (firstValue p qs) := by
  unfold firstValue
  rw [List.find?_append]
  cases ps.find? fun x => p x.1 <;> rfl

theorem firstValue_eq_none_iff {name : Str} {ps : List (Str × Str)} :
    firstValue (· = name) ps = none ↔ ∀ p ∈ ps, p.1 ≠ name := by
  simp [firstValue]

theorem concatenates_iff_firstValue : Concatenates req a b ↔ ∀ name,
    firstValue (· = name) (params (a ++ '&' :: b)) =
      (firstValue (· = name) (params a)).or (firstValue (· = name) (params b)) := by
  refine forall_congr' fun name => ?_
  rw [RequestEvent.lookup_buildQueryMap (q := a ++ '&' :: b) rfl, RequestEvent.lookup_buildQueryMap (q := a) rfl,
    RequestEvent.lookup_buildQueryMap (q := b) rfl]

theorem concatenates_of_nil_not_mem (h : [] ∉ a.splitOn '&') : Concatenates req a b := by
  rw [concatenates_iff_firstValue]
  intro name
  rw [params, lead_append_of_nil_not_mem h, List.map_append, firstValue_append]
  rfl

theorem concatenates_iff_of_nil_mem (h : [] ∈ a.splitOn '&') :
    Concatenates req a b ↔ ∀ x ∈ params b, ∃ y ∈ params a, y.1 = x.1 := by
  have hparams : params (a ++ '&' :: b) = params a := by rw [params, lead_append_of_nil_mem h, params]
  rw [concatenates_iff_firstValue, hparams]
  constructor
  · intro hc x hx
    by_contra hno
    have ha : firstValue (· = x.1) (params a) = none :=
      firstValue_eq_none_iff.2 fun y hy he => hno ⟨y, hy, he⟩
    have hb := hc x.1
    rw [ha, Option.none_or] at hb
    exact firstValue_eq_none_iff.1 hb.symm x hx rfl
  · intro hnames name
    cases ha : firstValue (· = name) (params a) with
    | some value => rfl
    | none =>
      have hb : firstValue (· = name) (params b) = none := by
        refine firstValue_eq_none_iff.2 fun x hx he => ?_
        obtain ⟨y, hy, hyx⟩ := hnames x hx
        exact firstValue_eq_none_iff.1 ha y hy (hyx.trans he)
      rw [hb]
      rfl

/-- Nothing is lost where no piece of `a` is empty, and where all that `b` names `a` names too. -/
theorem concatenates_iff (req : EvhttpRequest) (a b : Str) : Concatenates req a b ↔
    [] ∉ a.splitOn '&' ∨ ∀ x ∈ params b, ∃ y ∈ params a, y.1 = x.1 := by
  by_cases h : [] ∈ a.splitOn '&'
  · rw [concatenates_iff_of_nil_mem h]
    simp [h]
  · exact iff_of_true (concatenates_of_nil_not_mem h) (.inl h)

/-- `a=1&` and `b=2`: the empty token after the first `&` ends the loop. -/
theorem not_concatenates_trailing :
    ¬ Concatenates ⟨.get, [], "/".toList, none, ⟨[], by decide⟩⟩ "a=1&".toList "b=2".toList := by
  intro h
  have := h "b".toList
  revert this
  decide

end ChCppUtils.Http.Server
