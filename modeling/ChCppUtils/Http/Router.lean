import ChCppUtils.DirTree.Refine
import ChCppUtils.Lib.UnorderedMap

/-!
# `Router` (http-router.cpp)

One `DirTree` a method, with the routes as data. `getRoute` on a router built by `addRoute` calls is
decided by the registered paths alone (`getRoute_addRoutes`): the last route at the tokens of the
requested path if any registered path goes through them, and else the last one at the same tokens
with `*` for the last.
-/

namespace ChCppUtils.Http

open DirTree (tokens)

/-- `evhttp_cmd_type`: the methods `getMethod` names, and the values it does not. -/
inductive EvhttpCmdType where
  | get | post | head | put | delete | options | trace | connect | patch
  | other (code : Int)
deriving DecidableEq, Repr

/-- `class Route`. Two objects with the same fields differ in their address. -/
structure Route where
  addr : Nat
  method : EvhttpCmdType
  path : Str
deriving DecidableEq, Repr

/-- `class Router` -/
structure Router where
  routes : UnorderedMap EvhttpCmdType (DirTree Route)

namespace Router

def new : Router := ⟨∅⟩

/-- `getDirTree(method)`: the tree of a method, made and stored where there is none. -/
def getDirTree (router : Router) (method : EvhttpCmdType) : Router × DirTree Route :=
  match router.routes.lookup method with
  | none => (⟨router.routes.emplace method DirTree.new⟩, DirTree.new)
  | some dirTree => (router, dirTree)

/-- `addRoute(route)`; the tree is changed through the pointer the map holds. -/
def addRoute (router : Router) (route : Route) : Router :=
  let (router, dirTree) := router.getDirTree route.method
  ⟨AList.insert route.method (dirTree.insert route.path (some route)) router.routes⟩

def searchCbk (treeToken _searchToken : Str) : Bool := if treeToken = ['*'] then true else false

def getRoute (router : Router) (method : EvhttpCmdType) (path : Str) : Option Route :=
  match router.routes.lookup method with
  | none => none
  | some dirTree => dirTree.search path searchCbk

/-- The router after the registrations `rs`, oldest first. -/
def addRoutes (rs : List Route) : Router := rs.foldl addRoute new

/-! ### The tree of a method -/

/-- The calls on the tree of `method`. -/
def inserts (rs : List Route) (method : EvhttpCmdType) : List (DirTree.Op Route) :=
  (rs.filter (·.method = method)).map fun r => .insert r.path (some r)

theorem lookup_addRoute (router : Router) (route : Route) (method : EvhttpCmdType) :
    (router.addRoute route).routes.lookup method =
      if method = route.method then
        some (((router.routes.lookup method).getD DirTree.new).insert route.path (some route))
      else router.routes.lookup method := by
  unfold addRoute getDirTree
  by_cases hm : method = route.method
  · subst hm
    rw [if_pos rfl]
    cases h : router.routes.lookup route.method <;> simp [AList.lookup_insert]
  · rw [if_neg hm]
    cases h : router.routes.lookup route.method with
    | none =>
      dsimp only
      rw [AList.lookup_insert_ne hm, UnorderedMap.lookup_emplace_ne hm]
    | some t =>
      dsimp only
      rw [AList.lookup_insert_ne hm]

theorem lookup_addRoutes (rs : List Route) (method : EvhttpCmdType) :
    (addRoutes rs).routes.lookup method =
      if inserts rs method = [] then none else some (DirTree.run (inserts rs method)) := by
  induction rs using List.reverseRecOn with
  | nil => rfl
  | append_singleton rs r ih =>
    rw [show addRoutes (rs ++ [r]) = (addRoutes rs).addRoute r by simp [addRoutes], lookup_addRoute]
    by_cases hm : method = r.method
    · have hi : inserts (rs ++ [r]) method = inserts rs method ++ [.insert r.path (some r)] := by
        simp [inserts, hm]
      rw [if_pos hm, hi, if_neg (by simp), DirTree.run_append_singleton, ih]
      by_cases hn : inserts rs method = []
      · rw [if_pos hn, hn]; rfl
      · rw [if_neg hn]; rfl
    · have hi : inserts (rs ++ [r]) method = inserts rs method := by
        simp [inserts, Ne.symm hm]
      rw [if_neg hm, hi, ih]

theorem getRoute_addRoutes_eq_lookupWild (rs : List Route) (method : EvhttpCmdType) (path : Str) :
    (addRoutes rs).getRoute method path =
      DirTree.lookupWild searchCbk (tokens path) (DirTree.absRun ((inserts rs method).map DirTree.Op.abs)) := by
  rw [getRoute, lookup_addRoutes, ← (DirTree.run_refines _).search]
  by_cases hn : inserts rs method = []
  · rw [if_pos hn, hn, (DirTree.run_refines _).search]; rfl
  · rw [if_neg hn]

/-! ### What the registered paths decide -/

/-- The last registered route with a property. -/
def lastSuch (rs : List Route) (P : Route → Prop) [DecidablePred P] : Option Route :=
  (rs.filter P).getLast?

section
variable {rs : List Route} {P Q : Route → Prop} [DecidablePred P] [DecidablePred Q] {r : Route}

theorem lastSuch_append_singleton :
    lastSuch (rs ++ [r]) P = if P r then some r else lastSuch rs P := by
  unfold lastSuch
  by_cases hr : P r <;> simp [hr]

theorem of_lastSuch (h : lastSuch rs P = some r) : r ∈ rs ∧ P r := by
  simpa using List.mem_of_getLast? h

theorem lastSuch_eq_none : lastSuch rs P = none ↔ ∀ r ∈ rs, ¬ P r := by
  simp [lastSuch]

theorem lastSuch_congr (h : ∀ r ∈ rs, (P r ↔ Q r)) : lastSuch rs P = lastSuch rs Q := by
  have hf : rs.filter P = rs.filter Q := List.filter_congr fun r hr => by simp [h r hr]
  rw [lastSuch, lastSuch, hf]

end

/-- The last route of a method at a list of tokens. -/
def lastAt (rs : List Route) (method : EvhttpCmdType) (ts : List Str) : Option Route :=
  lastSuch rs fun r => r.method = method ∧ tokens r.path = ts

/-- The path of some route of the method goes through the tokens `ts`. -/
def Passes (rs : List Route) (method : EvhttpCmdType) (ts : List Str) : Prop :=
  ∃ r ∈ rs, r.method = method ∧ ts <+: tokens r.path

instance (rs : List Route) (method : EvhttpCmdType) (ts : List Str) : Decidable (Passes rs method ts) :=
  inferInstanceAs (Decidable (∃ r ∈ rs, r.method = method ∧ ts <+: tokens r.path))

theorem absRun_inserts (rs : List Route) (method : EvhttpCmdType) (q : List Str) :
    DirTree.absRun ((inserts rs method).map DirTree.Op.abs) q =
      if Passes rs method q then some (lastAt rs method q) else none := by
  induction rs using List.reverseRecOn with
  | nil => simp [Passes, inserts, DirTree.absRun, PathMap.ofOps]
  | append_singleton rs r ih =>
    have hP : Passes (rs ++ [r]) method q ↔ Passes rs method q ∨ r.method = method ∧ q <+: tokens r.path := by
      simp [Passes, or_and_right, exists_or]
    rw [lastAt, lastSuch_append_singleton, ← lastAt]
    by_cases hm : r.method = method
    · have hi : inserts (rs ++ [r]) method = inserts rs method ++ [.insert r.path (some r)] := by
        simp [inserts, hm]
      rw [hi, List.map_append, List.map_singleton, DirTree.absRun, PathMap.ofOps_concat, ← DirTree.absRun]
      show PathMap.insert none (tokens r.path) (some r) _ q = _
      unfold PathMap.insert
      rw [ih]
      by_cases hq : q = tokens r.path
      · have hp : Passes (rs ++ [r]) method q := hP.2 (.inr ⟨hm, hq ▸ List.prefix_rfl⟩)
        rw [if_pos hq, if_pos hp, if_pos ⟨hm, hq.symm⟩]
      · have hat : ¬ (r.method = method ∧ tokens r.path = q) := fun h => hq h.2.symm
        rw [if_neg hq, if_neg hat]
        by_cases hqr : q <+: tokens r.path
        · rw [if_pos hqr, if_pos (hP.2 (.inr ⟨hm, hqr⟩))]
          by_cases hps : Passes rs method q
          · rw [if_pos hps]; rfl
          · have hl : lastAt rs method q = none :=
              lastSuch_eq_none.2 fun r' hr' h => hps ⟨r', hr', h.1, h.2 ▸ List.prefix_rfl⟩
            rw [if_neg hps, hl]; rfl
        · have hiff : Passes (rs ++ [r]) method q ↔ Passes rs method q := by
            rw [hP]; exact or_iff_left fun h => hqr h.2
          rw [if_neg hqr]
          simp only [hiff]
    · have hi : inserts (rs ++ [r]) method = inserts rs method := by
        simp [inserts, hm]
      have hiff : Passes (rs ++ [r]) method q ↔ Passes rs method q := by
        rw [hP]; exact or_iff_left fun h => hm h.1
      have hat : ¬ (r.method = method ∧ tokens r.path = q) := fun h => hm h.1
      rw [hi, ih, if_neg hat]
      simp only [hiff]

theorem getRoute_addRoutes (rs : List Route) (method : EvhttpCmdType) (path : Str) :
    (addRoutes rs).getRoute method path =
      if Passes rs method (tokens path) then lastAt rs method (tokens path)
      else lastAt rs method ((tokens path).dropLast ++ [['*']]) := by
  rw [getRoute_addRoutes_eq_lookupWild, DirTree.lookupWild, absRun_inserts, absRun_inserts]
  by_cases hp : Passes rs method (tokens path)
  · simp only [if_pos hp]
  · simp only [if_neg hp]
    obtain ⟨t, ht⟩ : ∃ t, (tokens path).getLast? = some t :=
      ⟨_, List.getLast?_eq_some_getLast (DirTree.tokens_ne_nil path)⟩
    by_cases hs : Passes rs method ((tokens path).dropLast ++ [['*']])
    · simp [if_pos hs, ht, searchCbk]
    · rw [if_neg hs]
      have hl : lastAt rs method ((tokens path).dropLast ++ [['*']]) = none :=
        lastSuch_eq_none.2 fun r hr h => hs ⟨r, hr, h.1, h.2 ▸ List.prefix_rfl⟩
      rw [hl]

end Router

end ChCppUtils.Http
