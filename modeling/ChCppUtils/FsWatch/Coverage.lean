import ChCppUtils.FsWatch.World

/-!
# No directory is missed

A directory that is not watched yet is covered: an event of its parent's descriptor, an entry or a
listing that the walk has still to read lies on its way from the root. Each step hands the cover on
(`Covered`), and when nothing is pending all directories are watched (`watched_of_quiet`).
-/

namespace ChCppUtils.FsWatch

open Runs

/-- No name on the way starts with a dot. -/
def Visible (p : List Str) : Prop := ∀ n ∈ p, n.head? ≠ some '.'

instance (p : List Str) : Decidable (Visible p) := inferInstanceAs (Decidable (∀ n ∈ p, _))

/-- No name on the way is one that `walk` takes for hidden: its last dot is not its first character. -/
def Unfiltered (p : List Str) : Prop := ∀ n ∈ p, findLastOf '.' n ≠ 0

instance (p : List Str) : Decidable (Unfiltered p) := inferInstanceAs (Decidable (∀ n ∈ p, _))

variable {s s' : FsWatch} {p : List Str} {dir path name : Str} {ans : Answer} {fd : Int}
  {event : InotifyEvent} {out : List Notice} {a : Action}

/-! ### The watcher's own tables -/

/-- The tables of the watcher agree: what is in `set` has an open descriptor, and `map` has the
directories of exactly the open descriptors. -/
structure Tables (s : FsWatch) : Prop where
  noSlash : s.root.getLast? ≠ some '/'
  opened : ∀ path ∈ s.set, ∃ fd d, s.descriptors.lookup fd = some d ∧ d.dir = path
  descriptors : ∀ fd d, s.descriptors.lookup fd = some d → Succeeds ⟨fd, d.wd, d.epoll⟩ ∧
    s.map.lookup fd = some d.dir ∧ Below s.root d.dir
  map : ∀ fd ∈ s.map, fd ∈ s.descriptors

/-- Watches stay. -/
structure Grows (s s' : FsWatch) : Prop where
  root : s'.root = s.root
  set : ∀ path ∈ s.set, path ∈ s'.set
  descriptors : ∀ fd d, s.descriptors.lookup fd = some d → s'.descriptors.lookup fd = some d

theorem Grows.refl (s : FsWatch) : Grows s s := ⟨rfl, fun _ h => h, fun _ _ h => h⟩

theorem Grows.trans {s₁ : FsWatch} (h : Grows s s₁) (h' : Grows s₁ s') : Grows s s' :=
  ⟨h'.root.trans h.root, fun p hp => h'.set p (h.set p hp),
    fun fd d hd => h'.descriptors fd d (h.descriptors fd d hd)⟩

theorem Grows.watches (h : Grows s s') (hw : s.Watches fd p) : s'.Watches fd p := by
  obtain ⟨d, hd, hdir, hans⟩ := hw
  exact ⟨d, h.descriptors fd d hd, by rw [h.root]; exact hdir, hans⟩

theorem Watches.mem_keys (h : s.Watches fd p) : fd ∈ s.descriptors.keys := by
  obtain ⟨d, hd, -⟩ := h
  exact AList.mem_keys.1 (UnorderedMap.mem_of_lookup hd)

theorem Tables.watches (h : Tables s) (hp : Fts.pathOf s.root p ∈ s.set) : ∃ fd, s.Watches fd p := by
  obtain ⟨fd, d, hd, hdir⟩ := h.opened _ hp
  exact ⟨fd, d, hd, hdir, (h.descriptors fd d hd).1⟩

theorem Tables.congr (h : Tables s) (hr : s'.root = s.root) (hset : s'.set = s.set) (hm : s'.map = s.map)
    (hd : s'.descriptors = s.descriptors) : Tables s' ∧ Grows s s' := by
  refine ⟨⟨?_, ?_, ?_, ?_⟩, ⟨hr, ?_, ?_⟩⟩
  · rw [hr]; exact h.noSlash
  · rw [hset, hd]; exact h.opened
  · rw [hr, hm, hd]; exact h.descriptors
  · rw [hm, hd]; exact h.map
  · rw [hset]; exact fun _ h => h
  · rw [hd]; exact fun _ _ h => h

theorem Tables.install (h : Tables s) (hfd : ans.fd ∉ s.descriptors) (hans : Succeeds ans)
    (hp : Below s.root path) : Tables (s.install path ans) ∧ Grows s (s.install path ans) := by
  have hold : ∀ fd d, s.descriptors.lookup fd = some d → fd ≠ ans.fd := by
    intro fd d hd he
    exact hfd (he ▸ UnorderedMap.mem_of_lookup hd)
  have hm : s.map.lookup ans.fd = none := by
    rw [AList.lookup_eq_none]
    intro hm
    exact hfd (h.map _ hm)
  have hkeep : ∀ fd d, s.descriptors.lookup fd = some d →
      (s.install path ans).descriptors.lookup fd = some d := by
    intro fd d hd
    rw [descriptors_install, AList.lookup_insert_ne (hold fd d hd)]
    exact hd
  refine ⟨⟨?_, ?_, ?_, ?_⟩, root_install, ?_, hkeep⟩
  · rw [root_install]; exact h.noSlash
  · intro q hq
    rw [set_install] at hq
    rcases Finset.mem_insert.1 hq with rfl | hq
    · exact ⟨ans.fd, _, by rw [descriptors_install, AList.lookup_insert], rfl⟩
    · obtain ⟨fd, d, hd, hdir⟩ := h.opened q hq
      exact ⟨fd, d, hkeep fd d hd, hdir⟩
  · intro fd d hd
    rw [descriptors_install] at hd
    rw [map_install, root_install]
    by_cases hf : fd = ans.fd
    · subst hf
      rw [AList.lookup_insert] at hd
      obtain rfl := Option.some.inj hd
      exact ⟨hans, UnorderedMap.lookup_emplace_of_none hm, hp⟩
    · rw [AList.lookup_insert_ne hf] at hd
      rw [UnorderedMap.lookup_emplace_ne hf]
      exact h.descriptors fd d hd
  · intro fd hfd'
    rw [map_install, ← AList.lookup_isSome] at hfd'
    rw [descriptors_install, AList.mem_insert]
    by_cases hf : fd = ans.fd
    · exact .inl hf
    · rw [UnorderedMap.lookup_emplace_ne hf, AList.lookup_isSome] at hfd'
      exact .inr (h.map fd hfd')
  · intro q hq
    rw [set_install]
    exact Finset.mem_insert_of_mem hq

theorem Tables.addWatch (h : Tables s) (hs : s.addWatch path ans = .ok s') (hans : Succeeds ans)
    (hp : Below s.root path) : (Tables s' ∧ Grows s s') ∧ path ∈ s'.set := by
  rcases addWatch_cases hs with ⟨hd, rfl⟩ | ⟨-, -, hfd, rfl⟩
  · exact ⟨⟨h, .refl _⟩, hd⟩
  · refine ⟨h.install hfd hans hp, ?_⟩
    rw [set_install]
    exact Finset.mem_insert_self path s.set

theorem Tables.init {root : Str} {onNewFile onEmptyDir : Bool} {filters : Finset Str} (hroot : root ≠ [])
    (hslash : root.getLast? ≠ some '/') (hans : Succeeds ans)
    (hinit : (new root onNewFile onEmptyDir filters).init ans = .ok s) :
    Tables s ∧ s.root = root ∧ s.walking = some root ∧ root ∈ s.set := by
  obtain ⟨-, rfl⟩ := init_cases hinit
  have hlen : root.length ≠ 0 := fun h => hroot (List.length_eq_zero_iff.1 h)
  have hnew : Tables (new root onNewFile onEmptyDir filters) :=
    ⟨hslash, fun path hp => absurd hp (Finset.notMem_empty path), fun fd d hd => by simp [new] at hd,
      fun fd hm => absurd hm (AList.notMem_empty fd)⟩
  obtain ⟨ht, hg⟩ := hnew.install (AList.notMem_empty _) hans (.refl root)
  rw [if_neg hlen]
  obtain ⟨ht', -⟩ :
      Tables { (new root onNewFile onEmptyDir filters).install root ans with walking := some root } ∧
      Grows _ { (new root onNewFile onEmptyDir filters).install root ans with walking := some root } :=
    ht.congr rfl rfl rfl rfl
  refine ⟨ht', hg.root, rfl, ?_⟩
  show root ∈ ((new root onNewFile onEmptyDir filters).install root ans).set
  rw [set_install]
  exact Finset.mem_insert_self root _

theorem Visible.unfiltered (h : Visible p) : Unfiltered p := by
  intro n hn h0
  unfold findLastOf at h0
  split at h0
  · rename_i pos hpos
    have hpos0 : pos = 0 := by omega
    subst hpos0
    exact h n hn (Split.head?_of_rfind_zero hpos)
  · omega

theorem reportsDir_of_unfiltered {rel : List Str} (hrel : rel ≠ []) (h : Unfiltered rel) :
    Fts.ReportsDir options (Fts.entry dir rel Fts.FTS_D) := by
  refine ⟨(by decide : Fts.FTS_D &&& Fts.FTS_D ≠ 0), rfl, fun h0 => ?_⟩
  obtain ⟨rel, name, rfl⟩ := (List.eq_nil_or_concat rel).resolve_left hrel
  rw [List.concat_eq_append] at h h0
  have hname : (Fts.entry dir (rel ++ [name]) Fts.FTS_D).fts_name = name := by simp [Fts.entry]
  rw [hname] at h0
  exact absurd h0 (h name (by simp))

theorem Tables.entry {rel : List Str} {info : Nat} (h : Tables s) (hw : s.walking = some dir)
    (hdir : Below s.root dir) (hans : Succeeds ans) (he : Effect s (.entry rel info ans) s' out) :
    (Tables s' ∧ Grows s s') ∧ s'.walking = s.walking ∧
      (Fts.ReportsDir options (Fts.entry dir rel info) → Fts.pathOf dir rel ∈ s'.set) := by
  cases he with
  | @entry dir' rel info ans _ hw' hrel hs =>
    rw [hw] at hw'
    obtain rfl := Option.some.inj hw'
    have hwalk : (s.reportFile (Fts.entry dir rel info)).walking = s.walking := walking_reportFile _
    obtain ⟨ht, hg⟩ : Tables (s.reportFile (Fts.entry dir rel info)) ∧
        Grows s (s.reportFile (Fts.entry dir rel info)) :=
      h.congr (root_reportFile _) (set_reportFile _) (map_reportFile _) (descriptors_reportFile _)
    split at hs
    · have hbelow : Below (s.reportFile (Fts.entry dir rel info)).root (Fts.pathOf dir rel) := by
        rw [hg.root]
        exact hdir.pathOf hrel
      obtain ⟨⟨ht', hg'⟩, hset⟩ := ht.addWatch hs hans hbelow
      refine ⟨⟨ht', hg.trans hg'⟩, ?_, fun _ => hset⟩
      rw [← hwalk]
      exact walking_addWatch hs
    · rename_i hd
      subst hs
      exact ⟨⟨ht, hg⟩, hwalk, fun h => absurd h hd⟩

theorem Tables.onEvent (h : Tables s) (hans : Succeeds ans)
    (hdel : ¬ (event.isDir = true ∧ event.bit = .delete))
    (he : Effect s (.event fd event ans) s' out) : s.walking = none ∧ (Tables s' ∧ Grows s s') ∧
      ∃ d, s.descriptors.lookup fd = some d ∧
        (event.isDir = true ∧ event.bit = .create → IsName event.name ∧
          s'.walking = some (Fts.childPath d.dir event.name) ∧ Fts.childPath d.dir event.name ∈ s'.set) ∧
        (¬ (event.isDir = true ∧ event.bit = .create) → s'.walking = none) := by
  have hr : s.Readable fd event := by cases he <;> assumption
  obtain ⟨d, hd⟩ := UnorderedMap.exists_lookup hr.open
  obtain ⟨-, hm, hb⟩ := h.descriptors fd d hd
  refine ⟨hr.walking, ?_⟩
  cases he with
  | @create _ _ _ path s₁ _ hk hp hs =>
    have hpath := path_of_event hb hm (fun hslash => absurd hslash h.noSlash) hp
    subst hpath
    have hname := hr.isName (by simp [hk])
    obtain ⟨⟨ht, hg⟩, hset⟩ := h.addWatch hs hans (hb.childPath hname)
    obtain ⟨ht', hg'⟩ : Tables { s₁ with walking := some (Fts.childPath d.dir event.name) } ∧
      Grows s₁ { s₁ with walking := some (Fts.childPath d.dir event.name) } := ht.congr rfl rfl rfl rfl
    exact ⟨⟨ht', hg.trans hg'⟩, d, hd, fun _ => ⟨hname, rfl, hset⟩, fun hn => absurd hk hn⟩
  | modify _ hk hp hout =>
    have hne : ¬ (event.isDir = true ∧ event.bit = .create) := fun hc => by simp [hc.1] at hk
    split
    · exact ⟨h.congr root_addToTree set_addToTree map_addToTree descriptors_addToTree, d, hd,
        fun hc => absurd hc hne, fun _ => walking_addToTree.trans hr.walking⟩
    · exact ⟨⟨h, .refl s⟩, d, hd, fun hc => absurd hc hne, fun _ => hr.walking⟩
  | fileDelete _ hk hp hcb hc =>
    have hne : ¬ (event.isDir = true ∧ event.bit = .create) := fun hc => by simp [hc.1] at hk
    exact ⟨h.congr rfl rfl rfl rfl, d, hd, fun hc => absurd hc hne, fun _ => hr.walking⟩
  | dirDelete _ hk hp hs hc => exact absurd hk hdel
  | ignored _ hk =>
    have hne : ¬ (event.isDir = true ∧ event.bit = .create) := by
      intro hc
      rcases hk with hfd | hk
      · rw [AList.lookup_eq_none.2 hfd] at hm
        cases hm
      · exact hk.1 ⟨hc.1, .inl hc.2⟩
    exact ⟨⟨h, .refl _⟩, d, hd, fun hc => absurd hc hne, fun _ => hr.walking⟩

namespace World

variable {s s' : World} {q : List Str} {root : Str} {fd : Int} {ans : Answer}

/-- Something that is still to be handled or read will lead the watcher to `p`: it is about `p` itself
or about a directory above it. -/
inductive Pending (s : World) (p : List Str) : Prop
  | event {q : List Str} {name : Str} {fd : Int} (hq : q ++ [name] <+: p) (hw : s.watch.Watches fd q)
    (he : ⟨.create, true, name⟩ ∈ s.queue fd)
  | entry {b rel : List Str} (hw : s.watch.walking = some (Fts.pathOf s.watch.root b))
    (hv : .entry rel Fts.FTS_D ∈ s.todo) (hp : b ++ rel <+: p)
  | listing {b rel : List Str} (hw : s.watch.walking = some (Fts.pathOf s.watch.root b))
    (hv : .listing rel ∈ s.todo) (hp : b ++ rel <+: p) (hne : b ++ rel ≠ p)

structure Covered (root : Str) (s : World) : Prop where
  root_eq : s.watch.root = root
  tables : Tables s.watch
  walk : ∀ dir ∈ s.watch.walking, Below s.watch.root dir ∧ dir ∈ s.watch.set
  idle : s.watch.walking = none → s.todo = []
  queue : ∀ fd, ∀ event ∈ s.queue fd, ¬ (event.isDir = true ∧ event.bit = .delete)
  covers : ∀ p ∈ s.dirs.all, Unfiltered p → Fts.pathOf s.watch.root p ∈ s.watch.set ∨ s.Pending p

theorem Pending.below (h : s.Pending p) (hpq : p <+: q) : s.Pending q := by
  cases h with
  | event hq hw he => exact .event (hq.trans hpq) hw he
  | entry hw hv hp => exact .entry hw hv (hp.trans hpq)
  | listing hw hv hp hne =>
    refine .listing hw hv (hp.trans hpq) ?_
    rintro rfl
    exact hne (hp.eq_of_length (Nat.le_antisymm hp.length_le hpq.length_le))

theorem Pending.queue_mono (h : s.Pending p) (hw : s'.watch = s.watch) (ht : s'.todo = s.todo)
    (hq : ∀ fd, ∀ event ∈ s.queue fd, event ∈ s'.queue fd) : s'.Pending p := by
  cases h with
  | event hp hwatch he => exact .event hp (by rw [hw]; exact hwatch) (hq _ _ he)
  | entry hwalk hv hp => exact .entry (by rw [hw]; exact hwalk) (by rw [ht]; exact hv) hp
  | listing hwalk hv hp hne => exact .listing (by rw [hw]; exact hwalk) (by rw [ht]; exact hv) hp hne

theorem Covered.mkdir {name : Str} (h : Covered root s) (hs : s.step (.mkdir p name) = .ok s') :
    Covered root s' := by
  cases moved_of_step hs with
  | mkdir hp hn hnew =>
    have hmono : ∀ fd, ∀ event ∈ s.queue fd, event ∈
        if s.watch.Watches fd p then s.queue fd ++ [⟨.create, true, name⟩] else s.queue fd := by
      intro fd event he
      split
      · exact List.mem_append_left _ he
      · exact he
    refine ⟨h.root_eq, h.tables, h.walk, h.idle, ?_, ?_⟩
    · intro fd event he
      dsimp only at he
      split at he
      · rcases List.mem_append.1 he with he | he
        · exact h.queue fd event he
        · rw [List.mem_singleton.1 he]
          simp
      · exact h.queue fd event he
    · intro q hq hvis
      rcases Finset.mem_insert.1 hq with rfl | hq
      · -- the new directory is covered by what covers its parent, or its parent's watch has the event
        have hvisp : Unfiltered p := fun n hn => hvis n (List.mem_append_left _ hn)
        right
        rcases h.covers p hp hvisp with hset | hpend
        · obtain ⟨fd, hw⟩ := h.tables.watches hset
          exact .event List.prefix_rfl hw (by simp [hw])
        · refine Pending.below (p := p) ?_ (List.prefix_append p [name])
          exact hpend.queue_mono rfl rfl hmono
      · rcases h.covers q hq hvis with hset | hpend
        · exact .inl hset
        · exact .inr (hpend.queue_mono rfl rfl hmono)

/-- Events come up that are not about the deletion of a directory. -/
theorem Covered.enqueue {queue : Int → List InotifyEvent} (h : Covered root s)
    (hmono : ∀ fd, ∀ event ∈ s.queue fd, event ∈ queue fd)
    (hnew : ∀ fd, ∀ event ∈ queue fd, event ∉ s.queue fd → ¬ (event.isDir = true ∧ event.bit = .delete)) :
    Covered root { s with queue } := by
  refine ⟨h.root_eq, h.tables, h.walk, h.idle, ?_, ?_⟩
  · intro fd event he
    by_cases hold : event ∈ s.queue fd
    · exact h.queue fd event hold
    · exact hnew fd event he hold
  · intro q hq hvis
    rcases h.covers q hq hvis with hset | hpend
    · exact .inl hset
    · exact .inr (hpend.queue_mono rfl rfl hmono)

theorem Covered.notify {event : InotifyEvent} (h : Covered root s)
    (hs : s.step (.notify fd event) = .ok s') : Covered root s' := by
  cases moved_of_step hs with
  | notify hfd hother =>
    refine h.enqueue (fun fd' e he => ?_) fun fd' e he hnew => ?_
    · by_cases hf : fd' = fd
      · subst hf
        simp [he]
      · rwa [Function.update_of_ne hf]
    · by_cases hf : fd' = fd
      · subst hf
        rw [Function.update_self] at he
        obtain rfl := List.mem_singleton.1 ((List.mem_append.1 he).resolve_left hnew)
        exact fun hd => hother ⟨hd.1, .inr hd.2⟩
      · rw [Function.update_of_ne hf] at he
        exact absurd he hnew

theorem Covered.read (h : Covered root s) (hs : s.step (.read ans) = .ok s') : Covered root s' := by
  cases moved_of_step hs with
  | @read rel info todo ans w htodo hans hw =>
    obtain ⟨out, he⟩ := next_effect hw
    obtain ⟨dir, hdir⟩ : ∃ dir, s.watch.walking = some dir := by
      cases he with
      | entry hw => exact ⟨_, hw⟩
    obtain ⟨hbelow, hmem⟩ := h.walk dir hdir
    obtain ⟨⟨ht, hg⟩, hwalk, hset⟩ := h.tables.entry hdir hbelow hans he
    have hw' : w.walking = some dir := hwalk.trans hdir
    refine ⟨hg.root.trans h.root_eq, ht, ?_, ?_, h.queue, ?_⟩
    · intro d hd
      rw [hw'] at hd
      obtain rfl := Option.some.inj hd
      rw [hg.root]
      exact ⟨hbelow, hg.set _ hmem⟩
    · intro hn
      rw [hw'] at hn
      cases hn
    · intro q hq hvis
      have hpath : ∀ b, s.watch.walking = some (Fts.pathOf s.watch.root b) →
          w.walking = some (Fts.pathOf w.root b) := fun b hb => by rw [hwalk, hg.root, hb]
      have htail : ∀ v ∈ todo, v ∈ if info = Fts.FTS_D then .listing rel :: todo else todo := by
        intro v hv
        split
        · exact List.mem_cons_of_mem _ hv
        · exact hv
      rcases h.covers q hq hvis with hin | hpend
      · exact .inl (by rw [hg.root]; exact hg.set _ hin)
      cases hpend with
      | event hp hwatch he => exact .inr (.event hp (hg.watches hwatch) he)
      | @entry b rel' hb hv hp =>
        rw [htodo] at hv
        rcases List.mem_cons.1 hv with heq | hv
        swap
        · exact .inr (.entry (hpath b hb) (htail _ hv) hp)
        obtain ⟨rfl, rfl⟩ := Visit.entry.inj heq
        by_cases hbq : b ++ rel' = q
        · -- the entry of `q` itself is handed out: `q` is the directory of the walk, or gets its watch
          left
          rw [hdir] at hb
          obtain rfl := Option.some.inj hb
          subst hbq
          by_cases hrel : rel' = []
          · rw [hrel, List.append_nil, hg.root]
            exact hg.set _ hmem
          · have hvis' : Unfiltered rel' := fun n hn => hvis n (List.mem_append_right b hn)
            rw [Fts.pathOf_append, hg.root]
            exact hset (reportsDir_of_unfiltered hrel hvis')
        · exact .inr (.listing (hpath b hb) (by simp) hp hbq)
      | @listing b rel' hb hv hp hne =>
        rw [htodo] at hv
        rcases List.mem_cons.1 hv with heq | hv
        · cases heq
        · exact .inr (.listing (hpath b hb) (htail _ hv) hp hne)

theorem Covered.list {names : List (Str × Nat)} (h : Covered root s)
    (hs : s.step (.list names) = .ok s') : Covered root s' := by
  cases moved_of_step hs with
  | @list rel todo dir names htodo hdir hlist =>
    refine ⟨h.root_eq, h.tables, h.walk, ?_, h.queue, ?_⟩
    · intro hn
      have hn : s.watch.walking = none := hn
      rw [hdir] at hn
      cases hn
    · intro q hq hvis
      rcases h.covers q hq hvis with hin | hpend
      · exact .inl hin
      right
      cases hpend with
      | event hp hwatch he => exact .event hp hwatch he
      | @entry b rel' hb hv hp =>
        rw [htodo] at hv
        rcases List.mem_cons.1 hv with heq | hv
        · cases heq
        · exact .entry hb (List.mem_append_right _ hv) hp
      | @listing b rel' hb hv hp hne =>
        rw [htodo] at hv
        rcases List.mem_cons.1 hv with heq | hv
        swap
        · exact .listing hb (List.mem_append_right _ hv) hp hne
        obtain rfl := Visit.listing.inj heq
        -- the listing has the directory on the way to `q`
        obtain ⟨t, rfl⟩ := hp
        cases t with
        | nil => exact absurd (List.append_nil _).symm hne
        | cons n t =>
          have hdirs : b ++ rel' ++ [n] ∈ s.dirs.all := s.dirs.mem_of_prefix ⟨t, by simp⟩ hq
          rw [hdir] at hb
          obtain rfl := Option.some.inj hb
          have hn : (n, Fts.FTS_D) ∈ names := by
            refine hlist.2 _ hdirs n (by simp) ?_
            rw [List.dropLast_concat, Fts.pathOf_append]
          refine @Pending.entry _ _ b (rel' ++ [n]) hdir ?_ ⟨t, by simp⟩
          exact List.mem_append_left _ (List.mem_map.2 ⟨_, hn, rfl⟩)

theorem Covered.readDone (h : Covered root s) (hs : s.step .readDone = .ok s') : Covered root s' := by
  cases moved_of_step hs with
  | readDone htodo hw =>
    obtain ⟨out, he⟩ := next_effect hw
    cases he with
    | walkDone hdir =>
      obtain ⟨ht, hg⟩ : Tables { s.watch with walking := none } ∧
          Grows s.watch { s.watch with walking := none } :=
        h.tables.congr rfl rfl rfl rfl
      refine ⟨h.root_eq, ht, nofun, fun _ => htodo, h.queue, ?_⟩
      intro q hq hvis
      rcases h.covers q hq hvis with hin | hpend
      · exact .inl hin
      right
      cases hpend with
      | event hp hwatch he => exact .event hp hwatch he
      | entry hb hv hp => rw [htodo] at hv; cases hv
      | listing hb hv hp hne => rw [htodo] at hv; cases hv

theorem mem_queue_iff {event : InotifyEvent} {queue : List InotifyEvent} (h : s.queue fd = event :: queue)
    (fd' : Int) (e : InotifyEvent) :
    e ∈ s.queue fd' ↔ fd' = fd ∧ e = event ∨ e ∈ Function.update s.queue fd queue fd' := by
  by_cases hf : fd' = fd
  · subst hf
    simp [h]
  · simp [hf]

theorem Covered.handle (h : Covered root s) (hs : s.step (.handle fd ans) = .ok s') : Covered root s' := by
  cases moved_of_step hs with
  | @handle fd ans event queue w hqueue hans hw =>
    obtain ⟨out, heff⟩ := next_effect hw
    have hdel := h.queue fd event (by rw [hqueue]; exact List.mem_cons_self)
    obtain ⟨hidle, ⟨ht, hg⟩, d, hd, hnew, hold⟩ := h.tables.onEvent hans hdel heff
    obtain ⟨-, -, hbelow⟩ := h.tables.descriptors fd d hd
    have htodo := h.idle hidle
    refine ⟨hg.root.trans h.root_eq, ht, ?_, ?_, ?_, ?_⟩
    · intro dir hdir
      by_cases hcreate : event.isDir = true ∧ event.bit = .create
      · obtain ⟨hname, hwalk, hset⟩ := hnew hcreate
        rw [hwalk] at hdir
        obtain rfl := Option.some.inj hdir
        rw [hg.root]
        exact ⟨hbelow.childPath hname, hset⟩
      · rw [hold hcreate] at hdir
        cases hdir
    · intro hn
      simp only [show w.walking = none from hn]
      exact htodo
    · intro fd' e he
      exact h.queue fd' e ((mem_queue_iff hqueue fd' e).2 (.inr he))
    · intro q hq hvis
      rcases h.covers q hq hvis with hin | hpend
      · exact .inl (by rw [hg.root]; exact hg.set _ hin)
      right
      cases hpend with
      | @event q' n fd' hp hwatch he =>
        rcases (mem_queue_iff hqueue fd' _).1 he with ⟨rfl, rfl⟩ | he
        · -- the directory of this event is walked now
          obtain ⟨-, hwalk, -⟩ := hnew ⟨rfl, rfl⟩
          obtain ⟨d', hd', hdir, -⟩ := hwatch
          obtain rfl : d' = d := Option.some.inj (hd'.symm.trans hd)
          refine @Pending.entry _ _ (q' ++ [n]) [] ?_ (by simp [hwalk]) (by simpa using hp)
          rw [Fts.pathOf_concat, hg.root, ← hdir]
          exact hwalk
        · exact .event hp (hg.watches hwatch) he
      | entry hb hv hp => rw [hidle] at hb; cases hb
      | listing hb hv hp hne => rw [hidle] at hb; cases hb

theorem Covered.step {m : Move} (h : Covered root s) (hs : s.step m = .ok s') : Covered root s' := by
  cases m with
  | mkdir p name => exact h.mkdir hs
  | notify fd event => exact h.notify hs
  | read ans => exact h.read hs
  | list names => exact h.list hs
  | readDone => exact h.readDone hs
  | handle fd ans => exact h.handle hs

/-- A move is made by others, or is a step of the watcher: of its walk, or on the oldest event of a
descriptor. -/
theorem watch_of_step {m : Move} (hs : s.step m = .ok s') : s'.watch = s.watch ∨
    (∃ a, s.watch.next a = .ok s'.watch ∧
      ((∃ rel info ans, a = .entry rel info ans ∧ Succeeds ans) ∨ a = .walkDone)) ∨
    ∃ fd ans event, m = .handle fd ans ∧ Succeeds ans ∧ event ∈ s.queue fd ∧
      s.watch.next (.event fd event ans) = .ok s'.watch := by
  cases moved_of_step hs with
  | mkdir | notify | list => exact .inl rfl
  | read htodo hans hw => exact .inr (.inl ⟨_, hw, .inl ⟨_, _, _, rfl, hans⟩⟩)
  | readDone htodo hw => exact .inr (.inl ⟨_, hw, .inr rfl⟩)
  | handle hqueue hans hw =>
    exact .inr (.inr ⟨_, _, _, rfl, hans, by rw [hqueue]; exact List.mem_cons_self, hw⟩)

theorem Covered.grows {m : Move} (h : Covered root s) (hs : s.step m = .ok s') : Grows s.watch s'.watch := by
  rcases watch_of_step hs with he | ⟨a, hw, ha⟩ | ⟨fd, ans, event, -, hans, hmem, hw⟩
  · rw [he]
    exact .refl s.watch
  · obtain ⟨out, he⟩ := next_effect hw
    rcases ha with ⟨rel, info, ans, rfl, hans⟩ | rfl
    · obtain ⟨dir, hdir⟩ : ∃ dir, s.watch.walking = some dir := by
        cases he with
        | entry hdir => exact ⟨_, hdir⟩
      exact (h.tables.entry hdir (h.walk dir hdir).1 hans he).1.2
    · generalize s'.watch = w at he
      cases he with
      | walkDone hdir => exact ⟨rfl, fun _ h => h, fun _ _ h => h⟩
  · obtain ⟨out, he⟩ := next_effect hw
    exact (h.tables.onEvent hans (h.queue fd event hmem) he).2.1.2

theorem Covered.start {w : FsWatch} (dirs : Dirs) (ht : Tables w) (hr : w.root = root)
    (hw : w.walking = some root) (hset : root ∈ w.set) : Covered root (World.start dirs w) := by
  refine ⟨hr, ht, ?_, ?_, fun fd e he => absurd he List.not_mem_nil, ?_⟩
  · intro dir hd
    rw [show (World.start dirs w).watch = w from rfl, hw] at hd
    obtain rfl := Option.some.inj hd
    rw [show (World.start dirs w).watch = w from rfl, hr]
    exact ⟨.refl root, hset⟩
  · intro hn
    rw [show (World.start dirs w).watch = w from rfl, hw] at hn
    cases hn
  · -- the walk starts at the root
    intro p _ _
    right
    refine @Pending.entry _ _ [] [] ?_ List.mem_cons_self List.nil_prefix
    rw [show (World.start dirs w).watch = w from rfl, hw, hr]
    rfl

end World

theorem World.Covered.watched {root : Str} {s : World} (h : World.Covered root s) (hquiet : s.Quiet)
    (hp : p ∈ s.dirs.all) (hvis : Unfiltered p) : Fts.pathOf root p ∈ s.watch.set ∧ ∃ fd, s.watch.Watches fd p := by
  obtain ⟨hidle, hqueue⟩ := hquiet
  have hin : Fts.pathOf s.watch.root p ∈ s.watch.set := by
    rcases h.covers p hp hvis with hin | hpend
    · exact hin
    cases hpend with
    | @event q n fd hq hw he =>
      rw [hqueue fd hw.mem_keys] at he
      cases he
    | entry hb hv hp => rw [hidle] at hb; cases hb
    | listing hb hv hp hne => rw [hidle] at hb; cases hb
  exact ⟨h.root_eq ▸ hin, h.tables.watches hin⟩

theorem World.covered_of_reach {root : Str} {onNewFile onEmptyDir : Bool} {filters : Finset Str} {w : FsWatch}
    {dirs : Dirs} {s : World} (hroot : root ≠ []) (hslash : root.getLast? ≠ some '/') (hans : Succeeds ans)
    (hinit : (new root onNewFile onEmptyDir filters).init ans = .ok w)
    (h : Reach (Ok World.step) (World.start dirs w) s) : World.Covered root s := by
  obtain ⟨ht, hr, hw, hset⟩ := Tables.init hroot hslash hans hinit
  exact h.invariant (I := World.Covered root) (.start dirs ht hr hw hset) fun _ _ _ hI hs => hI.step hs

/-- When nothing is pending, every directory below the root that is not hidden is watched. -/
theorem watched_of_quiet (root : Str) (onNewFile onEmptyDir : Bool) (filters : Finset Str) (ans : Answer)
    (w : FsWatch) (dirs : Dirs) (s : World) (hroot : root ≠ []) (hslash : root.getLast? ≠ some '/')
    (hans : Succeeds ans) (hinit : (new root onNewFile onEmptyDir filters).init ans = .ok w)
    (h : Reach (Ok World.step) (World.start dirs w) s) (hquiet : s.Quiet) :
    ∀ p ∈ s.dirs.all, Visible p → Fts.pathOf root p ∈ s.watch.set ∧ ∃ fd, s.watch.Watches fd p := by
  intro p hp hvis
  exact (World.covered_of_reach hroot hslash hans hinit h).watched hquiet hp hvis.unfiltered

/-- `r/a` is there before; `r/a/b` is made after `r/a` has its watch and before its listing is read, and
so is seen twice. -/
theorem watched_seen_twice :
    ∃ w s, (new "r".toList false false ∅).init ⟨3, 1, true⟩ = .ok w ∧
      Reach (Ok World.step) (World.start (Dirs.bare.mkdir [] "a".toList Dirs.bare.root_mem (by decide)) w) s ∧
      s.Quiet ∧ ∃ fd, s.watch.Watches fd ["a".toList, "b".toList] := by
  have hg : Gives ((new "r".toList false false ∅).init ⟨3, 1, true⟩) fun w =>
      Goes World.step (fun _ _ => True) (fun s => s.Quiet ∧ ["a".toList, "b".toList] ∈ s.dirs.all)
        (World.start (Dirs.bare.mkdir [] "a".toList Dirs.bare.root_mem (by decide)) w)
        [.read ⟨4, 1, true⟩, .list [("a".toList, Fts.FTS_D)], .read ⟨4, 1, true⟩,
          .mkdir ["a".toList] "b".toList, .list [("b".toList, Fts.FTS_D)], .read ⟨5, 1, true⟩, .list [], .readDone,
          .handle 4 ⟨6, 1, true⟩, .read ⟨6, 1, true⟩, .list [], .readDone] := by
    decide
  obtain ⟨w, hinit, hgoes⟩ := hg.ok
  obtain ⟨s, hr, hq, hp⟩ := hgoes.reach_ok
  exact ⟨w, s, hinit, hr, hq,
    (watched_of_quiet _ _ _ _ _ w _ s (by decide) (by decide) (by decide) hinit hr hq _ hp (by decide)).2⟩

end ChCppUtils.FsWatch
