import ChCppUtils.FsWatch.Steps
import ChCppUtils.Lib.Runs

/-!
# Descriptors and the directories they stand for

`map` should give the directory of every open inotify descriptor. An entry is made when a descriptor
is installed and stays when it is closed, and a later descriptor with the same number does not
replace it: `map.insert` keeps what is there. So `map` is right throughout a run exactly when no
descriptor is installed under a number that has an entry for another directory
(`eachState_mapCoherent_iff`).
-/

namespace ChCppUtils.FsWatch

open Runs

/-- The number and the directory of the descriptor that a step installs. -/
def installs (s : FsWatch) : Action → Option (Int × Str)
  | .entry rel info ans =>
    match s.walking with
    | none => none
    | some dir =>
      if Fts.ReportsDir options (Fts.entry dir rel info) ∧ Fts.pathOf dir rel ∉ s.set then
        some (ans.fd, Fts.pathOf dir rel)
      else none
  | .walkDone => none
  | .event fd event ans =>
    if event.isDir = true ∧ event.bit = .create then
      match s.getFullPath fd event with
      | .ok dir => if dir ∈ s.set then none else some (ans.fd, dir)
      | .error _ => none
    else none

/-- `map` has no entry of another directory under the number of a new descriptor. -/
def FreshNumber (s : FsWatch) (a : Action) : Prop :=
  ∀ x ∈ s.installs a, s.map.lookup x.1 = none ∨ s.map.lookup x.1 = some x.2

instance (s : FsWatch) (a : Action) : Decidable (s.FreshNumber a) :=
  inferInstanceAs (Decidable (∀ x ∈ s.installs a, _ ∨ _))

/-- `map` gives the directory of every open descriptor, so the paths of its events are below it. -/
def MapCoherent (s : FsWatch) : Prop := ∀ fd d, s.descriptors.lookup fd = some d →
  s.map.lookup fd = some d.dir ∧ ∀ event, s.getFullPath fd event =
    .ok (d.dir ++ (if s.root.getLast? = some '/' then [] else ['/']) ++ event.name)

variable {s s' : FsWatch} {a : Action} {out : List Notice} {dir path : Str} {ans : Answer}
  {fd : Int} {event : InotifyEvent}

theorem mapCoherent_iff : s.MapCoherent ↔
    ∀ fd d, s.descriptors.lookup fd = some d → s.map.lookup fd = some d.dir := by
  constructor
  · intro h fd d hd
    exact (h fd d hd).1
  · intro h fd d hd
    refine ⟨h fd d hd, fun event => ?_⟩
    rw [getFullPath, h fd d hd]
    rfl

/-! ### What a step does to the map and the descriptors -/

/-- The step installs a descriptor, or installs none and may close some. -/
inductive MapEffect (s s' : FsWatch) : Option (Int × Str) → Prop
  | install {fd : Int} {d : Descriptor} (hfd : fd ∉ s.descriptors)
    (hmap : s'.map = s.map.emplace fd d.dir) (hds : s'.descriptors = AList.insert fd d s.descriptors) :
    MapEffect s s' (some (fd, d.dir))
  | rest (hmap : s'.map = s.map)
    (hds : ∀ fd d, s'.descriptors.lookup fd = some d → s.descriptors.lookup fd = some d) :
    MapEffect s s' none

theorem addWatch_mapEffect (h : s.addWatch dir ans = .ok s') :
    MapEffect s s' (if dir ∈ s.set then none else some (ans.fd, dir)) := by
  rcases addWatch_cases h with ⟨hd, rfl⟩ | ⟨hd, -, hfd, rfl⟩
  · rw [if_pos hd]; exact .rest rfl fun _ _ h => h
  · rw [if_neg hd]
    exact .install (d := ⟨dir, ans.wd, ans.epoll⟩) hfd map_install descriptors_install

theorem MapEffect.congr {s₁ s₁' : FsWatch} {o : Option (Int × Str)} (h : MapEffect s₁ s₁' o)
    (hm : s.map = s₁.map) (hd : s.descriptors = s₁.descriptors) (hm' : s'.map = s₁'.map)
    (hd' : s'.descriptors = s₁'.descriptors) : MapEffect s s' o := by
  cases h with
  | install hfd hmap hds => exact .install (hd ▸ hfd) (by rw [hm', hmap, hm]) (by rw [hd', hds, hd])
  | rest hmap hds => exact .rest (by rw [hm', hmap, hm]) (by rw [hd', hd]; exact hds)

theorem Effect.mapEffect (h : Effect s a s' out) : MapEffect s s' (s.installs a) := by
  cases h with
  | @entry dir rel info ans _ hw hrel hs =>
    simp only [installs, hw]
    split at hs
    · rename_i hd
      have hm := addWatch_mapEffect hs
      rw [set_reportFile] at hm
      have heq : (if Fts.ReportsDir options (Fts.entry dir rel info) ∧ Fts.pathOf dir rel ∉ s.set then
          some (ans.fd, Fts.pathOf dir rel) else none) =
          if Fts.pathOf dir rel ∈ s.set then none else some (ans.fd, Fts.pathOf dir rel) := by
        by_cases hset : Fts.pathOf dir rel ∈ s.set <;> simp [hd, hset]
      rw [heq]
      exact hm.congr (map_reportFile _).symm (descriptors_reportFile _).symm rfl rfl
    · rename_i hd
      rw [if_neg fun h => hd h.1, hs]
      exact .rest (map_reportFile _) fun _ _ h => by rwa [descriptors_reportFile] at h
  | walkDone hw => exact .rest rfl fun _ _ h => h
  | create hr hk hp hs =>
    simp only [installs, if_pos hk, hp]
    exact (addWatch_mapEffect hs).congr rfl rfl rfl rfl
  | @modify fd event ans path out hr hk hp hout =>
    have hn : s.installs (.event fd event ans) = none := if_neg fun h => by simp [hk.1] at h
    rw [hn]
    split
    · exact .rest map_addToTree fun _ _ h => by rwa [descriptors_addToTree] at h
    · exact .rest rfl fun _ _ h => h
  | @fileDelete fd event ans path out hr hk hp hcb hc =>
    have hn : s.installs (.event fd event ans) = none := if_neg fun h => by simp [hk.1] at h
    rw [hn]
    exact .rest rfl fun _ _ h => h
  | @dirDelete fd event ans path _ out hr hk hp hs hc =>
    have hn : s.installs (.event fd event ans) = none := if_neg fun h => by simp [hk.2] at h
    rw [hn]
    obtain ⟨hcl, -⟩ := removeWatch_cases hs
    exact .rest hcl.map fun fd d h => hcl.lookup h
  | @ignored fd event ans hr hk =>
    have hn : s.installs (.event fd event ans) = none := by
      rw [installs]
      split
      · rename_i hc
        rcases hk with hm | hk
        · have hl : s.map.lookup fd = none := AList.lookup_eq_none.2 hm
          rw [getFullPath, hl]; rfl
        · exact absurd ⟨hc.1, .inl hc.2⟩ hk.1
      · rfl
    rw [hn]
    exact .rest rfl fun _ _ h => h

/-! ### Runs -/

theorem MapCoherent.init {root : Str} {onNewFile onEmptyDir : Bool} {filters : Finset Str}
    (h : (new root onNewFile onEmptyDir filters).init ans = .ok s) : s.MapCoherent := by
  obtain ⟨-, rfl⟩ := init_cases h
  rw [mapCoherent_iff]
  intro fd d hd
  have hd : ((new root onNewFile onEmptyDir filters).install root ans).descriptors.lookup fd = some d := hd
  show ((new root onNewFile onEmptyDir filters).install root ans).map.lookup fd = _
  rw [descriptors_install] at hd
  rw [map_install]
  by_cases hf : fd = ans.fd
  · rw [hf, AList.lookup_insert] at hd
    obtain rfl := Option.some.inj hd
    rw [hf]
    exact UnorderedMap.lookup_emplace_of_none rfl
  · rw [AList.lookup_insert_ne hf] at hd
    cases hd

theorem MapCoherent.step (h : s.MapCoherent) (ha : s.FreshNumber a) (hs : s.next a = .ok s') :
    s'.MapCoherent := by
  obtain ⟨out, he⟩ := next_effect hs
  have hm := he.mapEffect
  rw [mapCoherent_iff] at h ⊢
  unfold FreshNumber at ha
  cases hi : s.installs a with
  | none =>
    rw [hi] at hm
    cases hm with
    | rest hmap hds =>
      intro fd d hd
      rw [hmap]
      exact h fd d (hds fd d hd)
  | some x =>
    rw [hi] at hm ha
    cases hm with
    | @install fd₁ d₁ hfd hmap hds =>
      intro fd d hd
      rw [hds] at hd
      rw [hmap]
      by_cases hf : fd = fd₁
      · rw [hf, AList.lookup_insert] at hd
        obtain rfl := Option.some.inj hd
        rw [hf]
        rcases ha _ rfl with hn | hsome
        · exact UnorderedMap.lookup_emplace_of_none hn
        · exact UnorderedMap.lookup_emplace_of_some hsome
      · rw [AList.lookup_insert_ne hf] at hd
        rw [UnorderedMap.lookup_emplace_ne hf]
        exact h fd d hd

/-- The entry that is found under the number of a new descriptor is the one that was there. -/
theorem freshNumber_of_next (hs : s.next a = .ok s') (hc : s'.MapCoherent) : s.FreshNumber a := by
  obtain ⟨out, he⟩ := next_effect hs
  have hm := he.mapEffect
  rw [mapCoherent_iff] at hc
  intro x hx
  rw [Option.mem_def] at hx
  rw [hx] at hm
  cases hm with
  | @install fd d hfd hmap hds =>
    have hd := hc fd d (by rw [hds, AList.lookup_insert])
    rw [hmap] at hd
    cases hl : s.map.lookup fd with
    | none => exact .inl rfl
    | some dir =>
      rw [UnorderedMap.lookup_emplace_of_some hl] at hd
      exact .inr hd

theorem eachState_mapCoherent_iff (root : Str) (onNewFile onEmptyDir : Bool) (filters : Finset Str)
    (ans : Answer) (s₀ : FsWatch) (tr : List (Action × FsWatch))
    (hinit : (new root onNewFile onEmptyDir filters).init ans = .ok s₀) (hrun : Run (Ok next) s₀ tr) :
    EachState MapCoherent s₀ tr ↔ EachStep FreshNumber s₀ tr :=
  Run.eachState_iff (I := MapCoherent) (fun _ h => h) (fun _ _ _ h hc hs => h.step hc hs)
    (fun _ _ _ _ hs hc => freshNumber_of_next hs hc) (MapCoherent.init hinit) hrun

def dirEvent (bit : EventBit) (name : Str) : InotifyEvent := ⟨bit, true, name⟩

/-- `./r/a` is made, removed and made again; its descriptor gets the same number. -/
theorem mapCoherent_same_directory :
    ∃ s₀ tr, (new "./r".toList false false ∅).init ⟨3, 1, true⟩ = .ok s₀ ∧
      exec next s₀ [.walkDone, .event 3 (dirEvent .create "a".toList) ⟨5, 1, true⟩, .walkDone,
        .event 3 (dirEvent .delete "a".toList) ⟨5, 1, true⟩,
        .event 3 (dirEvent .create "a".toList) ⟨5, 1, true⟩] = .ok tr ∧ EachState MapCoherent s₀ tr := by
  have hg : Gives ((new "./r".toList false false ∅).init ⟨3, 1, true⟩) fun s₀ =>
      Goes next FreshNumber (fun _ => True) s₀
        [.walkDone, .event 3 (dirEvent .create "a".toList) ⟨5, 1, true⟩, .walkDone,
          .event 3 (dirEvent .delete "a".toList) ⟨5, 1, true⟩,
          .event 3 (dirEvent .create "a".toList) ⟨5, 1, true⟩] := by
    decide
  obtain ⟨s₀, hinit, hgoes⟩ := hg.ok
  obtain ⟨tr, htr, hc, -⟩ := hgoes.exec
  exact ⟨s₀, tr, hinit, htr,
    (eachState_mapCoherent_iff _ _ _ _ _ s₀ tr hinit (Run.of_exec htr)).2 hc⟩

/-- `r/a` is made and removed and `r/b` gets the number of its descriptor. -/
theorem not_mapCoherent_reused_number :
    ∃ s₀ tr, (new "r".toList false false ∅).init ⟨3, 1, true⟩ = .ok s₀ ∧
      exec next s₀ [.walkDone, .event 3 (dirEvent .create "a".toList) ⟨5, 1, true⟩, .walkDone,
        .event 3 (dirEvent .delete "a".toList) ⟨5, 1, true⟩,
        .event 3 (dirEvent .create "b".toList) ⟨5, 1, true⟩] = .ok tr ∧ ¬ EachState MapCoherent s₀ tr := by
  have hg : Gives ((new "r".toList false false ∅).init ⟨3, 1, true⟩) fun s₀ =>
      Goes next (fun _ _ => True) (fun s => s.map.lookup 5 = some "r/a".toList ∧
          s.descriptors.lookup 5 = some ⟨"r/b".toList, 1, true⟩) s₀
        [.walkDone, .event 3 (dirEvent .create "a".toList) ⟨5, 1, true⟩, .walkDone,
          .event 3 (dirEvent .delete "a".toList) ⟨5, 1, true⟩,
          .event 3 (dirEvent .create "b".toList) ⟨5, 1, true⟩] := by
    decide
  obtain ⟨s₀, hinit, hgoes⟩ := hg.ok
  obtain ⟨tr, htr, -, s, ⟨hm, hd⟩, hs⟩ := hgoes.exec
  refine ⟨s₀, tr, hinit, htr, fun h => ?_⟩
  have := ((hs _ h) 5 _ hd).1
  rw [hm] at this
  exact absurd this (by decide)

end ChCppUtils.FsWatch
