import TreeMachine.Proofs.WrittenFiles
import TreeMachine.Watch.Tracker

/-!
# The counts of a tracker are exact

After any wishes, whatever the system answers, the count of a directory is the number of
followed files in it, and a directory is counted just when there are such files. A file
that cannot be followed changes nothing. If the system grants all that is asked of it, the
directories that it watches are those that are counted.

What is known of the system is what it promises for requests that it grants: it watches one
more directory, or no longer watches one.
-/

open List

namespace TreeMachine.Watch.Tracker

/-- How many of the followed files are in a directory. -/
def inside (t : Tracker) (dir : String) : Nat :=
  t.files.countP (Path.dir · = dir)

/-- The directories that are counted. -/
def keys (t : Tracker) : List String :=
  t.dirs.map Prod.fst

/-- Every file is followed once, and the counts are the numbers of followed files. -/
structure Exact (t : Tracker) : Prop where
  once : t.files.Nodup
  count : ∀ dir, t.count dir = t.inside dir
  key : ∀ dir, dir ∈ t.keys ↔ 0 < t.inside dir

variable {t t' : Tracker} {path dir : String} {w : Wish}

/-! ### Counts -/

lemma lookup_setCount (n : Nat) (d : String) :
    ((t.setCount dir n).lookup d).getD 0 = if d = dir then n else t.count d := by
  have hothers := lookup_filter_ne t.dirs dir d
  rw [setCount, count]
  split
  · grind
  · rw [lookup_cons]
    grind

lemma mem_setCount (n : Nat) (d : String) :
    d ∈ (t.setCount dir n).map Prod.fst ↔ if d = dir then 0 < n else d ∈ t.keys := by
  by_cases hn : n = 0 <;> by_cases hd : d = dir <;> simp [setCount, keys, hn, hd]
  grind

lemma count_follow (d : String) : (t.follow path).count d =
    if d = Path.dir path then t.count (Path.dir path) + 1 else t.count d := by
  rw [count, follow, lookup_setCount]

lemma count_forget (d : String) : (t.forget path).count d =
    if d = Path.dir path then t.count (Path.dir path) - 1 else t.count d := by
  rw [count, forget, lookup_setCount]

lemma mem_keys_follow (d : String) : d ∈ (t.follow path).keys ↔ d = Path.dir path ∨ d ∈ t.keys := by
  rw [keys, follow, mem_setCount]
  grind

lemma mem_keys_forget (d : String) : d ∈ (t.forget path).keys ↔
    if d = Path.dir path then 1 < t.count (Path.dir path) else d ∈ t.keys := by
  rw [keys, forget, mem_setCount]
  grind

lemma inside_follow (d : String) :
    (t.follow path).inside d = t.inside d + if d = Path.dir path then 1 else 0 := by
  rw [inside, follow, countP_cons]
  grind [inside]

lemma inside_forget (ht : t.files.Nodup) (hmem : path ∈ t.files) (d : String) :
    (t.forget path).inside d = t.inside d - if d = Path.dir path then 1 else 0 := by
  rw [inside, forget, ← ht.erase_eq_filter, countP_erase]
  grind [inside]

lemma Exact.follow (h : t.Exact) (hnew : path ∉ t.files) : (t.follow path).Exact where
  once := nodup_cons.2 ⟨hnew, h.once⟩
  count d := by
    rw [count_follow, inside_follow, h.count, h.count]
    grind
  key d := by
    rw [mem_keys_follow, inside_follow, h.key]
    grind

lemma Exact.forget (h : t.Exact) (hmem : path ∈ t.files) : (t.forget path).Exact where
  once := h.once.filter _
  count d := by
    rw [count_forget, inside_forget h.once hmem, h.count, h.count]
    grind
  key d := by
    rw [mem_keys_forget, inside_forget h.once hmem, h.key, h.count]
    grind

/-! ### One wish -/

variable {σ : Type} {serve : σ → Request → Except String Unit × σ} {s s' : σ}
  {outcome : Except String Unit}

/-- What a wish can come to. The system is asked about the first file of a directory and
about the last. -/
inductive Handles (serve : σ → Request → Except String Unit × σ) (t : Tracker) (s : σ) :
    Wish → Except String Unit → Tracker → σ → Prop where
  | known (path : String) : path ∈ t.files → Handles serve t s (.add path) (.ok ()) t s
  | next (path : String) : path ∉ t.files → t.count (Path.dir path) ≠ 0 →
    Handles serve t s (.add path) (.ok ()) (t.follow path) s
  | first (path : String) (s' : σ) : path ∉ t.files →
    t.request? (.add path) = some (.watch (Path.dir path)) →
    serve s (.watch (Path.dir path)) = (.ok (), s') →
    Handles serve t s (.add path) (.ok ()) (t.follow path) s'
  | refused (path e : String) (s' : σ) :
    t.request? (.add path) = some (.watch (Path.dir path)) →
    serve s (.watch (Path.dir path)) = (.error e, s') →
    Handles serve t s (.add path) (.error e) t s'
  | unknown (path : String) : path ∉ t.files → Handles serve t s (.remove path) (.ok ()) t s
  | fewer (path : String) : path ∈ t.files → 1 < t.count (Path.dir path) →
    Handles serve t s (.remove path) (.ok ()) (t.forget path) s
  | last (path : String) (answer : Except String Unit) (s' : σ) : path ∈ t.files →
    t.count (Path.dir path) ≤ 1 →
    t.request? (.remove path) = some (.unwatch (Path.dir path)) →
    serve s (.unwatch (Path.dir path)) = (answer, s') →
    Handles serve t s (.remove path) answer (t.forget path) s'

lemma handles_of_handleAt (h : t.handleAt serve s w = (outcome, t', s')) :
    Handles serve t s w outcome t' s' := by
  cases w with
  | add path =>
    by_cases hmem : path ∈ t.files
    · have hrun : t.handleAt serve s (.add path) = (.ok (), t, s) := by
        simp [handleAt, request?, fulfil, hmem]
      cases hrun.symm.trans h
      exact .known path hmem
    by_cases hcount : t.count (Path.dir path) = 0
    · have hask : t.request? (.add path) = some (.watch (Path.dir path)) := by
        simp [request?, hmem, hcount]
      simp only [handleAt, hask, fulfil, contains_iff_mem, hmem, if_false] at h
      cases hserve : serve s (.watch (Path.dir path)) with
      | mk answer s1 =>
        rw [hserve] at h
        cases answer with
        | ok => cases h; exact .first path _ hmem hask hserve
        | error e => cases h; exact .refused path e _ hask hserve
    · have hrun : t.handleAt serve s (.add path) = (.ok (), t.follow path, s) := by
        simp [handleAt, request?, fulfil, hmem, hcount]
      cases hrun.symm.trans h
      exact .next path hmem hcount
  | remove path =>
    by_cases hmem : path ∈ t.files
    · by_cases hcount : t.count (Path.dir path) ≤ 1
      · have hask : t.request? (.remove path) = some (.unwatch (Path.dir path)) := by
          simp [request?, hmem, hcount]
        have hrun : t.handleAt serve s (.remove path) =
            ((serve s (.unwatch (Path.dir path))).1, t.forget path,
              (serve s (.unwatch (Path.dir path))).2) := by
          simp [handleAt, hask, fulfil, hmem]
        cases hrun.symm.trans h
        exact .last path _ _ hmem hcount hask rfl
      · have hrun : t.handleAt serve s (.remove path) = (.ok (), t.forget path, s) := by
          simp [handleAt, request?, fulfil, hmem, hcount]
        cases hrun.symm.trans h
        exact .fewer path hmem (by omega)
    · have hrun : t.handleAt serve s (.remove path) = (.ok (), t, s) := by
        simp [handleAt, request?, fulfil, hmem]
      cases hrun.symm.trans h
      exact .unknown path hmem

lemma Exact.handleAt (h : t.Exact) (hw : Handles serve t s w outcome t' s') : t'.Exact := by
  cases hw with
  | known | refused | unknown => exact h
  | next path hnew => exact h.follow hnew
  | first path s' hnew => exact h.follow hnew
  | fewer path hmem => exact h.forget hmem
  | last path answer s' hmem => exact h.forget hmem

/-! ### The directories that are watched -/

/-- What the system does if it grants a request: `watched` has one directory more or less. -/
structure Keeps (serve : σ → Request → Except String Unit × σ) (watched : σ → Set String) :
    Prop where
  watch : ∀ s dir s', serve s (.watch dir) = (.ok (), s') →
    watched s' = insert dir (watched s)
  unwatch : ∀ s dir s', serve s (.unwatch dir) = (.ok (), s') →
    watched s' = watched s \ {dir}

lemma watched_of_handles (hkeeps : Keeps serve watched) (h : t.Exact)
    (hs : ∀ d, d ∈ watched s ↔ d ∈ t.keys)
    (hgranted : ∀ r, t.request? w = some r → (serve s r).1 = .ok ())
    (hw : Handles serve t s w outcome t' s') (d : String) : d ∈ watched s' ↔ d ∈ t'.keys := by
  cases hw with
  | known | unknown => exact hs d
  | next path hnew hcount =>
    have hkey : Path.dir path ∈ t.keys := (h.key _).2 (h.count _ ▸ Nat.pos_of_ne_zero hcount)
    rw [hs, mem_keys_follow]
    exact ⟨.inr, fun hd => hd.elim (· ▸ hkey) id⟩
  | first path s' hnew hask hserve =>
    rw [hkeeps.watch _ _ _ hserve, mem_keys_follow, Set.mem_insert_iff, hs]
  | refused path e s' hask hserve => simpa [hserve] using hgranted _ hask
  | fewer path hmem hcount =>
    have hkey : Path.dir path ∈ t.keys := (h.key _).2 (h.count _ ▸ Nat.zero_lt_of_lt hcount)
    rw [hs, mem_keys_forget]
    grind
  | last path answer s' hmem hcount hask hserve =>
    have hok : outcome = .ok () := by simpa [hserve] using hgranted _ hask
    rw [hkeeps.unwatch _ _ _ (hok ▸ hserve), mem_keys_forget, Set.mem_sdiff, hs]
    grind

/-! ### Any wishes -/

/-- Carries out wishes one after the other. -/
def handleAll (absolute : String → Except String String)
    (serve : σ → Request → Except String Unit × σ) : Tracker → σ → List Wish → Tracker × σ
  | t, s, [] => (t, s)
  | t, s, w :: rest =>
    let (_, t, s) := t.handle absolute serve s w
    handleAll absolute serve t s rest

/-- The system grants all that it is asked for some wishes. -/
def Granted (absolute : String → Except String String)
    (serve : σ → Request → Except String Unit × σ) : Tracker → σ → List Wish → Prop
  | _, _, [] => True
  | t, s, w :: rest =>
    (∀ r ∈ (w.resolve absolute).toOption.bind t.request?, (serve s r).1 = .ok ()) ∧
      Granted absolute serve (t.handle absolute serve s w).2.1
        (t.handle absolute serve s w).2.2 rest

variable {absolute : String → Except String String}

/-- A name without a path changes nothing; another wish is about its path. -/
lemma handle_cases (t : Tracker) (s : σ) (w : Wish) :
    (∃ e, t.handle absolute serve s w = (.error e, t, s)) ∨
      ∃ w', w.resolve absolute = .ok w' ∧ t.handle absolute serve s w = t.handleAt serve s w' := by
  unfold handle
  cases w.resolve absolute with
  | error e => exact .inl ⟨e, rfl⟩
  | ok w' => exact .inr ⟨w', rfl, rfl⟩

lemma Exact.handleAll (h : t.Exact) (s : σ) (wishes : List Wish) :
    (t.handleAll absolute serve s wishes).1.Exact := by
  induction wishes generalizing t s with
  | nil => exact h
  | cons w rest ih =>
    rw [Tracker.handleAll]
    rcases handle_cases t s w with ⟨e, he⟩ | ⟨w', -, hw⟩
    · rw [he]
      exact ih h s
    · rw [hw]
      exact ih (h.handleAt (handles_of_handleAt rfl)) _

lemma watched_of_handleAll (hkeeps : Keeps serve watched) (h : t.Exact)
    (hs : ∀ d, d ∈ watched s ↔ d ∈ t.keys) (wishes : List Wish)
    (hgranted : Granted absolute serve t s wishes) (d : String) :
    d ∈ watched (t.handleAll absolute serve s wishes).2 ↔
      d ∈ (t.handleAll absolute serve s wishes).1.keys := by
  induction wishes generalizing t s with
  | nil => exact hs d
  | cons w rest ih =>
    obtain ⟨hask, hrest⟩ := hgranted
    rw [handleAll]
    rcases handle_cases t s w with ⟨e, he⟩ | ⟨w', hresolve, hw⟩
    · rw [he] at hrest ⊢
      exact ih h hs hrest
    · rw [hw] at hrest ⊢
      rw [hresolve] at hask
      have hhandles : Handles serve t s w' _ _ _ := handles_of_handleAt rfl
      exact ih (h.handleAt hhandles) (watched_of_handles hkeeps h hs hask hhandles) hrest

lemma exact_empty : Exact {} where
  once := .nil
  count d := rfl
  key d := by simp [keys, inside]

/-- After any wishes the counts are exact. A further file that cannot be followed changes
nothing. If all requests were granted, the directories watched are those that are counted. -/
theorem counts_exact (absolute : String → Except String String)
    (serve : σ → Request → Except String Unit × σ) (s : σ) (wishes : List Wish) :
    (handleAll absolute serve {} s wishes).1.Exact ∧
      (∀ name e t' s', (handleAll absolute serve {} s wishes).1.handle absolute serve
          (handleAll absolute serve {} s wishes).2 (.add name) = (.error e, t', s') →
        t' = (handleAll absolute serve {} s wishes).1) ∧
      ∀ watched : σ → Set String, Keeps serve watched → watched s = ∅ →
        Granted absolute serve {} s wishes →
        ∀ d, d ∈ watched (handleAll absolute serve {} s wishes).2 ↔
          d ∈ (handleAll absolute serve {} s wishes).1.keys := by
  refine ⟨exact_empty.handleAll s wishes, ?_, ?_⟩
  · intro name e t' s' hw
    rcases handle_cases _ _ (.add name) with ⟨e, he⟩ | ⟨w', hresolve, hat⟩
    · cases he.symm.trans hw
      rfl
    · cases handles_of_handleAt (hat.symm.trans hw) with
      | refused => rfl
      | last path =>
        -- the wish is still one to add a file
        rw [Wish.resolve] at hresolve
        cases ha : absolute name <;> rw [ha] at hresolve <;> cases hresolve
  · intro watched hkeeps hs
    exact watched_of_handleAll hkeeps exact_empty (by simp [hs, keys]) wishes

/-- A system that grants every request, and remembers what it watches. -/
def granting (watched : List String) : Request → Except String Unit × List String
  | .watch dir => (.ok (), dir :: watched)
  | .unwatch dir => (.ok (), watched.filter (· != dir))

lemma keeps_granting : Keeps granting fun watched => {dir | dir ∈ watched} where
  watch watched dir watched' h := by
    cases h
    ext d
    simp
  unwatch watched dir watched' h := by
    cases h
    ext d
    simp

/-- Names stand for paths of a directory; the empty one stands for none. -/
def underA (name : String) : Except String String :=
  if name.isEmpty then .error "no name" else .ok ("/" ++ name)

def sharing : List Wish :=
  [.add "a/x", .add "a/y", .add "b/z", .add "", .remove "a/x", .remove "b/z"]

/-- Two files of one directory are followed and one of them is given up, another directory is
left again and a name has no path: the first directory is watched still, for the sake of one
file. -/
theorem counts_exact_sharing :
    handleAll underA granting {} [] sharing = ({ files := ["/a/y"], dirs := [("/a", 1)] }, ["/a"]) ∧
      Exact { files := ["/a/y"], dirs := [("/a", 1)] } ∧
      ∀ d, d ∈ ["/a"] ↔ d ∈ keys { files := ["/a/y"], dirs := [("/a", 1)] } := by
  have hrun : handleAll underA granting {} [] sharing =
      ({ files := ["/a/y"], dirs := [("/a", 1)] }, ["/a"]) := by decide +kernel
  have hgranted : Granted underA granting {} [] sharing := by
    simp only [sharing, Granted]
    decide +kernel
  obtain ⟨hexact, -, hwatched⟩ := counts_exact underA granting [] sharing
  have hwatched := hwatched _ keeps_granting (by simp) hgranted
  rw [hrun] at hexact hwatched
  exact ⟨hrun, hexact, hwatched⟩

end TreeMachine.Watch.Tracker
