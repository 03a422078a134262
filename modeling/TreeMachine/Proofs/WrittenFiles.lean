import Mathlib
import TreeMachine.Files

/-!
# Written files

What was written to a path is what is read from it.
-/

open List

namespace TreeMachine

/-- Entries of other keys do not change what a list has for a key. -/
lemma lookup_filter_ne {α : Type} (entries : List (String × α)) (key k : String) :
    (entries.filter (·.1 != key)).lookup k = if k = key then none else entries.lookup k := by
  induction entries with
  | nil => simp
  | cons x entries ih =>
    obtain ⟨key', a⟩ := x
    rw [filter_cons]
    grind [List.lookup]

namespace Files

variable {fs : Files} {path p q d : String} {content : Content} {elements : List String}

lemma content_update (fs : Files) (p q : String) (f : Entry → Entry) :
    (Files.entry? (fs.update p f) q).map (·.content) =
      (fs.entry? q).map fun e => if q = p then (f e).content else e.content := by
  rw [ entry?, entry?, update]
  induction fs.entries with
  | nil => rfl
  | cons x entries ih =>
    simp only [map_cons, lookup_cons]
    grind

lemma content_stamp (fs : Files) (p q : String) (modified : Int) :
    (Files.entry? (fs.stamp p modified) q).map (·.content) = (fs.entry? q).map (·.content) := by
  rw [stamp, content_update]
  simp

lemma entry?_put (fs : Files) (p q : String) (content : Option Content) (modified : Int) :
    Files.entry? (fs.put p content modified) q =
      if q = p then some { id := fs.nextId, content, modified } else fs.entry? q := by
  rw [ entry?, entry?, put, erase, lookup_cons, lookup_filter_ne]
  grind

lemma look_eq (fs : Files) (p : String) : fs.look p =
    match (fs.entry? p).map (·.content) with
    | some (some content) => .file p content
    | some none => .dir p
    | none => if isOutside p then .dir p else .vacant p := by
  rw [look]
  rcases fs.entry? p with _ | ⟨id, _ | content, modified⟩ <;> rfl

/-- Filling a file changes what is at its path, and nothing else. -/
lemma look_fill (fs : Files) (p q : String) (content : Content) :
    (fs.fill p content).look q = if q = p then .file p content else fs.look q := by
  have hcontent : (Files.entry? (fs.fill p content) q).map (·.content) =
      if q = p then some (some content) else (fs.entry? q).map (·.content) := by
    rw [fill]
    split
    next e he =>
      refine (content_update fs p q fun e => { e with content, modified := fs.now }).trans ?_
      split_ifs with hq
      · rw [hq, he]; rfl
      · rfl
    next =>
      refine (content_stamp _ _ _ _).trans ?_
      rw [entry?_put]
      split_ifs <;> rfl
  rw [look_eq, hcontent]
  by_cases hq : q = p
  · rw [if_pos hq, if_pos hq, hq]
  · rw [if_neg hq, if_neg hq, look_eq]

lemma descend_fill (hp : ∀ d, fs.look p ≠ .dir d) {start : Place} {element : String}
    (h : fs.descend start element = .ok (.dir d)) :
    (fs.fill p content).descend start element = .ok (.dir d) := by
  cases start with
  | file | vacant => cases h
  | dir path =>
    rw [descend] at h ⊢
    split_ifs at h ⊢ with hstay
    · exact h
    · rw [look_fill, if_neg]
      · exact h
      · intro hpath
        exact hp d (hpath ▸ Except.ok.inj h)

/-- The way to a directory does not lead over a path that is no directory. -/
lemma follow_fill (hp : ∀ d, fs.look p ≠ .dir d) {start : Place}
    (h : fs.follow start elements = .ok (.dir d)) :
    (fs.fill p content).follow start elements = .ok (.dir d) := by
  induction elements generalizing start with
  | nil => exact h
  | cons element elements ih =>
    rw [follow, foldlM_cons] at h ⊢
    cases hnext : fs.descend start element with
    | error t => rw [hnext] at h; cases h
    | ok next =>
      rw [hnext] at h
      have hdir : ∃ d', next = .dir d' := by
        cases elements with
        | nil => exact ⟨d, Except.ok.inj h⟩
        | cons =>
          cases next with
          | dir d' => exact ⟨d', rfl⟩
          | file | vacant => cases h
      obtain ⟨d', rfl⟩ := hdir
      rw [descend_fill hp hnext]
      exact ih h

/-- A write goes to the last element of a path, in a directory that the elements before it
lead to, if no directory is there. -/
lemma of_target {fs : Files} (h : fs.target path = .ok p) :
    path.isEmpty = false ∧ ∃ above last dir, path.splitToList (· == '/') = above ++ [last] ∧
      fs.follow (root path) above = .ok (.dir dir) ∧ (∀ d, fs.look p ≠ .dir d) ∧
      ∀ fs' : Files, fs'.descend (.dir dir) last = .ok (fs'.look p) := by
  rw [target] at h
  generalize path.splitToList (· == '/') = elements at h ⊢
  split_ifs at h with hempty hlength
  · split at h <;> cases h
  have hkept : (elements.reverse.dropWhile String.isEmpty).reverse = elements := by
    rw [length_reverse, not_lt, ← elements.length_reverse] at hlength
    rw [(dropWhile_sublist _).eq_of_length_le hlength, reverse_reverse]
  rw [hkept] at h
  split at h
  next => cases h
  next => cases h
  next => cases h
  next dir hdir =>
    obtain rfl | ⟨above, last, rfl⟩ := elements.eq_nil_or_concat
    · cases h
    rw [concat_eq_append] at h hdir
    rw [dropLast_concat] at hdir
    rw [getLastD_concat, descend] at h
    split_ifs at h with hstay
    refine ⟨by simpa using hempty, above, last, dir, by simp, hdir, ?_⟩
    generalize hclean : Path.clean (dir ++ "/" ++ last) = q at h
    have hq : q = p ∧ ∀ d, fs.look q ≠ .dir d := by
      cases hlook : fs.look q with
      | dir => rw [hlook] at h; cases h
      | file q' | vacant q' =>
        rw [hlook] at h
        cases h
        rw [look] at hlook
        split at hlook <;> grind
    obtain ⟨rfl, hq⟩ := hq
    refine ⟨hq, fun fs' => ?_⟩
    rw [descend, if_neg hstay, hclean]

/-- What was written is read. -/
lemma open?_write {fs' : Files} (h : fs.write path content = .ok fs') :
    path.isEmpty = false ∧ fs'.open? path = .ok (some content) := by
  cases htarget : fs.target path with
  | error t => simp [write, htarget, bind, Except.bind] at h
  | ok p =>
    rw [write, htarget] at h
    cases h
    obtain ⟨hempty, above, last, dir, hpath, hdir, hp, hlast⟩ := of_target htarget
    have hfollow : (fs.fill p content).follow (root path) (above ++ [last]) =
        .ok (.file p content) := by
      rw [follow, foldlM_append]
      rw [show List.foldlM _ _ above = _ from follow_fill hp hdir]
      simp [hlast, look_fill, bind, Except.bind, pure, Except.pure]
    refine ⟨hempty, ?_⟩
    rw [open?, locate, hempty, hpath, if_neg (by simp), hfollow]

end Files

end TreeMachine
