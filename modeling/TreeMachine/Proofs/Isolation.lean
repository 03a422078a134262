import TreeMachine.Proofs.Bytes

/-!
# Isolation of heap blocks

A heap serves requests one after the other: allocations, reads and writes, in any order and
with any arguments. The log of what it served says which blocks exist and what was last
written to each word, and the heap holds exactly that.
-/

open List

namespace TreeMachine.Heap

lemma mod_four_eq_zero_iff (a : Int32) : a % 4 = 0 ↔ 4 ∣ a.toInt := by
  rw [← Int32.toInt_inj, Int32.toInt_mod]
  exact (Int.dvd_iff_tmod_eq_zero (a := 4) (b := a.toInt)).symm

lemma neg_iff_toInt_neg (a : Int32) : a < 0 ↔ a.toInt < 0 :=
  Int32.lt_iff_toInt_lt

/-! ### The words of a heap -/

/-- The addresses of the words that may be read and written. -/
def Accessible (h : Heap) (a : Int32) : Prop :=
  4 ∣ a.toInt ∧ 4 ≤ a.toInt ∧ a.toInt + 4 ≤ h.used

def index (a : Int32) : Nat :=
  a.toInt.toNat / 4

lemma index_inj (ha : 4 ∣ a.toInt) (ha4 : 4 ≤ a.toInt) (hb : 4 ∣ b.toInt) (hb4 : 4 ≤ b.toInt)
    (hab : index a = index b) : a = b := by
  obtain ⟨i, hi⟩ := ha
  obtain ⟨j, hj⟩ := hb
  unfold index at hab
  exact Int32.toInt_inj.1 (by omega)

lemma locate_of_accessible {h : Heap} (ha : h.Accessible a) (op : String) :
    h.locate a op = .ok (4 * index a) := by
  obtain ⟨hdvd, hlo, hhi⟩ := ha
  have hzero : a ≠ 0 := by
    rintro rfl
    exact absurd hlo (by decide)
  have hneg : ¬ a < 0 := by
    rw [neg_iff_toInt_neg]
    omega
  have hmod : ¬ a % 4 ≠ 0 := by
    rw [not_not]
    exact (mod_four_eq_zero_iff a).2 hdvd
  have hend : ¬ a.toInt + 4 > h.used := by omega
  rw [locate, if_neg hzero, if_neg hneg, if_neg hmod, if_neg hend]
  exact congrArg Except.ok (by unfold index; omega)

lemma Accessible.index_lt {h : Heap} (ha : h.Accessible a) : index a < h.words := by
  obtain ⟨-, hlo, hhi⟩ := ha
  have hused := h.used_eq
  unfold index
  omega

lemma accessible_of_locate {h : Heap} (hi : h.locate a op = .ok i) : h.Accessible a := by
  unfold locate at hi
  split_ifs at hi with hzero hneg hmod hend
  rw [not_not, mod_four_eq_zero_iff] at hmod
  rw [neg_iff_toInt_neg] at hneg
  have hne : a.toInt ≠ 0 := fun h0 => hzero (Int32.toInt_inj.1 h0)
  exact ⟨hmod, by omega, by omega⟩

lemma load_of_accessible {h : Heap} (ha : h.Accessible a) : h.load a = .ok (h.read (index a)) := by
  rw [load, locate_of_accessible ha]
  rfl

lemma store_of_accessible {h : Heap} (ha : h.Accessible a) (v : Int32) :
    h.store a v = .ok (h.write (index a) v) := by
  rw [store, locate_of_accessible ha]
  rfl

lemma load_eq_ok_iff {h : Heap} : h.load a = .ok w ↔ h.Accessible a ∧ h.read (index a) = w := by
  constructor
  · intro hw
    cases hi : h.locate a "load" with
    | error c => simp [load, hi, Except.map] at hw
    | ok i =>
      have ha := accessible_of_locate hi
      rw [load_of_accessible ha] at hw
      exact ⟨ha, Except.ok.inj hw⟩
  · rintro ⟨ha, rfl⟩
    exact load_of_accessible ha

lemma store_eq_ok_iff {h h' : Heap} :
    h.store a v = .ok h' ↔ h.Accessible a ∧ h' = h.write (index a) v := by
  constructor
  · intro hs
    cases hi : h.locate a "store" with
    | error c => simp [store, hi, Except.map] at hs
    | ok i =>
      have ha := accessible_of_locate hi
      rw [store_of_accessible ha] at hs
      exact ⟨ha, (Except.ok.inj hs).symm⟩
  · rintro ⟨ha, rfl⟩
    exact store_of_accessible ha v

lemma accessible_congr {h h' : Heap} (hu : h'.used = h.used) (a : Int32) :
    h'.Accessible a ↔ h.Accessible a := by
  rw [Accessible, Accessible, hu]

lemma load_of_store {h h' : Heap} (hs : h.store a v = .ok h') :
    h'.load a = .ok v ∧ ∀ b, b ≠ a → h'.load b = h.load b := by
  obtain ⟨ha, rfl⟩ := store_eq_ok_iff.1 hs
  have hacc := accessible_congr (used_write h (index a) v)
  refine ⟨load_eq_ok_iff.2 ⟨(hacc a).2 ha, by simp [read_write _ ha.index_lt]⟩,
    fun b hne => ?_⟩
  by_cases hb : h.Accessible b
  · have hi : index b ≠ index a := fun hi => hne (index_inj hb.1 hb.2.1 ha.1 ha.2.1 hi)
    rw [load_of_accessible hb, load_of_accessible ((hacc b).2 hb), read_write _ ha.index_lt,
      if_neg hi]
  · -- the address is refused by the same check, which only looks at the size
    have hl : (h.write (index a) v).locate b "load" = h.locate b "load" := by
      rw [locate, locate, used_write]
    rw [load, load, hl]
    cases hi : h.locate b "load" with
    | error c => simp only [Except.map]
    | ok i => exact absurd (accessible_of_locate hi) hb

lemma room_eq_ok_iff {h : Heap} {size a : Int32} : h.room size = .ok a ↔
      (0 ≤ size.toInt ∧ 4 ∣ size.toInt ∧ (h.used : Int) + size.toInt ≤ h.limit) ∧
        a = Int32.ofNat h.used := by
  have hneg := neg_iff_toInt_neg size
  have hmod := mod_four_eq_zero_iff size
  unfold room
  split_ifs with h1 h2 h3
  · rw [hneg] at h1
    simp only [false_iff]
    omega
  · simp only [false_iff]
    tauto
  · simp only [false_iff]
    omega
  · rw [not_not] at h2
    rw [hneg] at h1
    rw [Except.ok.injEq, eq_comm]
    exact ⟨fun ha => ⟨⟨by omega, hmod.1 h2, by omega⟩, ha⟩, And.right⟩

lemma alloc_eq_ok_iff {h h' : Heap} {size a : Int32} : h.alloc size = .ok (a, h') ↔
      (0 ≤ size.toInt ∧ 4 ∣ size.toInt ∧ (h.used : Int) + size.toInt ≤ h.limit) ∧
        a = Int32.ofNat h.used ∧ h' = h.extend size.toInt.toNat := by
  rw [← and_assoc, ← room_eq_ok_iff]
  unfold alloc
  cases hr : h.room size with
  | error c => simp [bind, Except.bind]
  | ok b =>
    simp only [bind, Except.bind, pure, Except.pure, Except.ok.injEq, Prod.mk.injEq]
    tauto

/-- The bytes in use after an allocation. -/
lemma used_of_alloc {h h' : Heap} {size a : Int32} (ha : h.alloc size = .ok (a, h')) :
    (h'.used : Int) = h.used + size.toInt := by
  obtain ⟨⟨hpos, hdvd, hroom⟩, -, rfl⟩ := alloc_eq_ok_iff.1 ha
  rw [used_extend h (by omega) (by omega)]
  omega

/-! ### Requests and their log -/

/-- A request to a heap. -/
inductive Request where
  | alloc (size : Int32)
  | load (addr : Int32)
  | store (addr word : Int32)
  deriving Repr, DecidableEq

/-- What became of a request. -/
inductive Event where
  | allocated (addr size : Int32)
  | loaded (addr word : Int32)
  | stored (addr word : Int32)
  | failed (request : Request) (fault : Fault)
  deriving Repr, DecidableEq

def Request.serve (h : Heap) : Request → Event × Heap
  | .alloc size =>
    match h.alloc size with
    | .ok (addr, h') => (.allocated addr size, h')
    | .error c => (.failed (.alloc size) c, h)
  | .load addr =>
    match h.load addr with
    | .ok v => (.loaded addr v, h)
    | .error c => (.failed (.load addr) c, h)
  | .store addr v =>
    match h.store addr v with
    | .ok h' => (.stored addr v, h')
    | .error c => (.failed (.store addr v) c, h)

/-- Serves requests in order and logs what became of them. -/
def serve (h : Heap) : List Request → List Event × Heap
  | [] => ([], h)
  | r :: rs =>
    let (e, h1) := r.serve h
    let (es, h2) := serve h1 rs
    (e :: es, h2)

/-- The block an event brings into being: its address and its size. -/
def Event.block? : Event → Option (Int32 × Int32)
  | .allocated addr size => some (addr, size)
  | _ => none

def blocks (log : List Event) : List (Int32 × Int32) :=
  log.filterMap Event.block?

/-- What is in the word at an address once an event took place. -/
def Event.update (a : Int32) (w : Int32) : Event → Int32
  | .stored b v => if b = a then v else w
  | _ => w

/-- What a log leaves in the word at an address. -/
def contents (log : List Event) (a : Int32) : Int32 :=
  log.foldl (Event.update a) 0

@[simp] lemma blocks_snoc (log : List Event) (e : Event) :
    blocks (log ++ [e]) = blocks log ++ e.block?.toList := by
  cases h : e.block? <;> simp [blocks, h]

@[simp] lemma contents_snoc (log : List Event) (e : Event) (a : Int32) :
    contents (log ++ [e]) a = e.update a (contents log a) := by
  simp [contents]

lemma contents_of_not_stored (h : ∀ v, Event.stored a v ∉ log) : contents log a = 0 := by
  induction log using List.reverseRecOn with
  | nil => rfl
  | append_singleton log e ih =>
    rw [contents_snoc, ih fun v hv => h v (by simp [hv])]
    cases e with
    | stored b v =>
      have hne : b ≠ a := by
        rintro rfl
        exact h v (by simp)
      rw [Event.update, if_neg hne]
    | _ => rfl

def Apart (b b' : Int32 × Int32) : Prop :=
  b.1.toInt + b.2.toInt ≤ b'.1.toInt ∨ b'.1.toInt + b'.2.toInt ≤ b.1.toInt

/-- The heap holds what the log of its requests says. -/
structure Keeps (limit : Int) (log : List Event) (h : Heap) : Prop where
  limit_eq : h.limit = limit
  inside : ∀ b ∈ blocks log,
    4 ∣ b.1.toInt ∧ 4 ≤ b.1.toInt ∧ 0 ≤ b.2.toInt ∧ b.1.toInt + b.2.toInt ≤ h.used
  apart : (blocks log).Pairwise Apart
  /-- Blocks lie above everything that was stored before they existed. -/
  above : log.Pairwise fun e e' => ∀ {a v b size}, e = .stored a v → e' = .allocated b size →
    a.toInt < b.toInt
  stored : ∀ {a v}, .stored a v ∈ log → h.Accessible a
  holds : ∀ {a : Int32}, 4 ∣ a.toInt → 4 ≤ a.toInt → h.read (index a) = contents log a

lemma Keeps.init (limit : Int) : Keeps limit [] (empty limit) where
  limit_eq := rfl
  inside _ hb := absurd hb not_mem_nil
  apart := .nil
  above := .nil
  stored hs := absurd hs not_mem_nil
  holds _ _ := rfl

section

variable {limit : Int} {log : List Event} {h : Heap}

lemma Keeps.idle {e : Event} (hk : Keeps limit log h) (hb : e.block? = none)
    (hs : ∀ a v, e ≠ .stored a v) : Keeps limit (log ++ [e]) h where
  limit_eq := hk.limit_eq
  inside := by simpa [hb] using hk.inside
  apart := by simpa [hb] using hk.apart
  above := by
    refine pairwise_append.2 ⟨hk.above, pairwise_singleton _ _, ?_⟩
    rintro _ - _ he a v b size - rfl
    obtain rfl := mem_singleton.1 he
    simp [Event.block?] at hb
  stored {a v} ha := by
    obtain ha | ha := mem_append.1 ha
    · exact hk.stored ha
    · exact absurd (mem_singleton.1 ha).symm (hs a v)
  holds {a} ha ha4 := by
    rw [hk.holds ha ha4, contents_snoc]
    cases e with
    | stored b v => exact absurd rfl (hs b v)
    | _ => rfl

lemma Keeps.allocate (hlim : limit < 2 ^ 31) (hk : Keeps limit log h)
    (ha : h.alloc size = .ok (addr, h')) : Keeps limit (log ++ [.allocated addr size]) h' := by
  have hused := used_of_alloc ha
  obtain ⟨⟨hpos, hdvd, hroom⟩, rfl, rfl⟩ := alloc_eq_ok_iff.1 ha
  have hle : limit = h.limit := hk.limit_eq.symm
  have haddr : (Int32.ofNat h.used).toInt = h.used :=
    Int32.toInt_ofNat_of_lt (by omega)
  have hfour := h.aligned
  have hmin := h.reserved
  refine ⟨(limit_extend _ _).trans hk.limit_eq, ?_, ?_, ?_, ?_, ?_⟩
  · intro b hb
    rw [blocks_snoc] at hb
    obtain hb | hb := mem_append.1 hb
    · have hin := hk.inside b hb
      omega
    · obtain rfl := mem_singleton.1 hb
      simp only [haddr]
      omega
  · rw [blocks_snoc]
    refine pairwise_append.2 ⟨hk.apart, pairwise_singleton _ _, ?_⟩
    intro b hb b' hb'
    obtain rfl := mem_singleton.1 hb'
    have hin := hk.inside b hb
    exact .inl (by rw [haddr]; omega)
  · refine pairwise_append.2 ⟨hk.above, pairwise_singleton _ _, ?_⟩
    rintro _ he _ he' a v b size rfl rfl
    obtain ⟨rfl, rfl⟩ := Event.allocated.inj (mem_singleton.1 he')
    have hacc := (hk.stored he).2.2
    omega
  · intro a v hs
    obtain hs | hs := mem_append.1 hs
    · obtain ⟨h1, h2, h3⟩ := hk.stored hs
      exact ⟨h1, h2, by omega⟩
    · exact absurd (mem_singleton.1 hs) (by simp)
  · intro a hdiv ha4
    rw [read_extend, hk.holds hdiv ha4, contents_snoc]
    rfl

lemma Keeps.write (hk : Keeps limit log h) (hs : h.store a v = .ok h') :
    Keeps limit (log ++ [.stored a v]) h' := by
  obtain ⟨ha, rfl⟩ := store_eq_ok_iff.1 hs
  have hacc := accessible_congr (used_write h (index a) v)
  refine ⟨by rw [limit_write, hk.limit_eq], ?_, ?_, ?_, ?_, ?_⟩
  · simpa [Event.block?] using hk.inside
  · simpa [Event.block?] using hk.apart
  · refine pairwise_append.2 ⟨hk.above, pairwise_singleton _ _, ?_⟩
    rintro _ - _ he a v b size - rfl
    exact absurd (mem_singleton.1 he) (by simp)
  · intro b w hb
    rw [hacc]
    obtain hb | hb := mem_append.1 hb
    · exact hk.stored hb
    · obtain ⟨rfl, rfl⟩ := Event.stored.inj (mem_singleton.1 hb)
      exact ha
  · intro b hdiv hb4
    rw [read_write _ ha.index_lt, contents_snoc, Event.update, hk.holds hdiv hb4]
    by_cases hab : a = b
    · rw [if_pos (by rw [hab]), if_pos hab]
    · have hi : index b ≠ index a := fun hi => hab (index_inj ha.1 ha.2.1 hdiv hb4 hi.symm)
      rw [if_neg hi, if_neg hab]

/-- One request keeps what the log says. -/
lemma Keeps.request (hlim : limit < 2 ^ 31) (hk : Keeps limit log h) (r : Request) :
    Keeps limit (log ++ [(r.serve h).1]) (r.serve h).2 := by
  cases r with
  | alloc size =>
    rw [Request.serve]
    cases ha : h.alloc size with
    | ok r => exact hk.allocate hlim ha
    | error c => exact hk.idle rfl (by simp)
  | load a =>
    rw [Request.serve]
    cases h.load a <;> exact hk.idle rfl (by simp)
  | store a v =>
    rw [Request.serve]
    cases hs : h.store a v with
    | ok h' => exact hk.write hs
    | error c => exact hk.idle rfl (by simp)

/-- Every run of requests keeps what the log says. -/
lemma keeps_serve (hlim : limit < 2 ^ 31) (hk : Keeps limit log h) (rs : List Request) :
    Keeps limit (log ++ (serve h rs).1) (serve h rs).2 := by
  induction rs generalizing log h with
  | nil => simpa [serve] using hk
  | cons r rs ih => simpa [serve] using ih (hk.request hlim r)

end

lemma used_le_request (h : Heap) (r : Request) : h.used ≤ (r.serve h).2.used := by
  cases r with
  | alloc size =>
    rw [Request.serve]
    cases ha : h.alloc size with
    | ok r =>
      have hused := used_of_alloc ha
      obtain ⟨⟨hpos, -⟩, -⟩ := alloc_eq_ok_iff.1 ha
      show h.used ≤ r.2.used
      omega
    | error c => exact le_refl _
  | load a =>
    rw [Request.serve]
    cases h.load a <;> exact le_refl _
  | store a v =>
    rw [Request.serve]
    cases hs : h.store a v with
    | ok h' => simp [(store_eq_ok_iff.1 hs).2]
    | error c => exact le_refl _

lemma used_le_serve (h : Heap) (rs : List Request) : h.used ≤ (serve h rs).2.used := by
  induction rs generalizing h with
  | nil => exact le_refl _
  | cons r rs ih => exact (used_le_request h r).trans (ih _)

lemma Keeps.zero_of_block {limit log log' h b size a}
    (hk : Keeps limit (log ++ .allocated b size :: log') h) (hdvd : 4 ∣ a.toInt)
    (hlo : b.toInt ≤ a.toInt) (hhi : a.toInt + 4 ≤ b.toInt + size.toInt)
    (hs : ∀ v, .stored a v ∉ log') : h.load a = .ok 0 := by
  obtain ⟨-, hmin, -, hmax⟩ := hk.inside (b, size) (by simp [blocks, Event.block?])
  simp only at hmin hmax
  have hacc : h.Accessible a := ⟨hdvd, by omega, by omega⟩
  have hnone : ∀ v, .stored a v ∉ log ++ .allocated b size :: log' := by
    intro v hv
    obtain hv | hv := mem_append.1 hv
    · -- a store from before the allocation is below the block
      have habove := (pairwise_append.1 hk.above).2.2 _ hv _ mem_cons_self rfl rfl
      omega
    · simp [hs v] at hv
  rw [load_of_accessible hacc, hk.holds hdvd (by omega), contents_of_not_stored hnone]

/-- Requests to a new heap, in any order and with any arguments. The heap stays aligned and
within its limit and never shrinks; the blocks it gave out are disjoint, aligned, in use and
zero until stored to; a store changes the one word it names, and no byte besides; exactly the
addresses of words in use can be read and written; and a request that fails changes nothing. -/
theorem isolated_serve (limit : Int) (hlim : limit < 2 ^ 31) (rs : List Request) :
    let log := (serve (empty limit) rs).1
    let h := (serve (empty limit) rs).2
    (4 ∣ h.used ∧ 4 ≤ h.used ∧ (h.used : Int) ≤ max limit 4 ∧
        ∀ more, h.used ≤ (serve h more).2.used) ∧
      (blocks log).Pairwise Apart ∧
      (∀ b ∈ blocks log,
        4 ∣ b.1.toInt ∧ 4 ≤ b.1.toInt ∧ 0 ≤ b.2.toInt ∧ b.1.toInt + b.2.toInt ≤ h.used) ∧
      (∀ before after b size a, log = before ++ .allocated b size :: after → 4 ∣ a.toInt →
        b.toInt ≤ a.toInt → a.toInt + 4 ≤ b.toInt + size.toInt → (∀ v, .stored a v ∉ after) →
        h.load a = .ok 0) ∧
      (∀ a v h', h.store a v = .ok h' →
        h'.load a = .ok v ∧ h'.used = h.used ∧ (∀ b, b ≠ a → h'.load b = h.load b) ∧
          ∀ c : Nat, (c : Int) < a.toInt ∨ a.toInt + 4 ≤ c → h'.byte c = h.byte c) ∧
      (∀ a, ((∃ w, h.load a = .ok w) ↔ 4 ∣ a.toInt ∧ 4 ≤ a.toInt ∧ a.toInt + 4 ≤ h.used)) ∧
      (∀ a v, ((∃ h', h.store a v = .ok h') ↔
        4 ∣ a.toInt ∧ 4 ≤ a.toInt ∧ a.toInt + 4 ≤ h.used)) ∧
      ∀ (r : Request) r' c, (r.serve h).1 = .failed r' c → (r.serve h).2 = h := by
  intro log h
  have hk : Keeps limit log h := keeps_serve hlim (.init limit) rs
  have hwithin := h.within
  rw [hk.limit_eq] at hwithin
  refine ⟨⟨h.aligned, h.reserved, hwithin, used_le_serve h⟩, hk.apart, hk.inside, ?_,
    ?_, ?_, ?_, ?_⟩
  · intro before after b size a hlog hdvd hlo hhi hs
    rw [hlog] at hk
    exact hk.zero_of_block hdvd hlo hhi hs
  · intro a v h' hs
    obtain ⟨hself, hother⟩ := load_of_store hs
    obtain ⟨⟨hdvd, hlo, hhi⟩, rfl⟩ := store_eq_ok_iff.1 hs
    refine ⟨hself, used_write h _ v, hother, fun c hc => ?_⟩
    have hindex : (4 * index a : Int) = a.toInt := by
      unfold index
      omega
    exact byte_putWord_of_apart h v (by omega) (by omega)
  · intro a
    exact ⟨fun ⟨_, hw⟩ => (load_eq_ok_iff.1 hw).1, fun ha => ⟨_, load_of_accessible ha⟩⟩
  · intro a v
    exact ⟨fun ⟨_, hs⟩ => (store_eq_ok_iff.1 hs).1,
      fun ha => ⟨_, store_of_accessible ha v⟩⟩
  · intro r r' c hf
    cases r with
    | alloc size =>
      rw [Request.serve] at hf ⊢
      cases ha : h.alloc size <;> simp [ha] at hf ⊢
    | load a =>
      rw [Request.serve]
      cases h.load a <;> rfl
    | store a v =>
      rw [Request.serve] at hf ⊢
      cases hs : h.store a v <;> simp [hs] at hf ⊢

/-- Three blocks, one of them empty, fill a heap of sixteen bytes. -/
theorem isolated_serve_sixteen :
    let rs := [.alloc 8, .store 4 7, .alloc 0, .alloc 4, .store 2 1, .alloc 4]
    blocks (serve (empty 16) rs).1 = [(4, 8), (12, 0), (12, 4)] ∧
      (blocks (serve (empty 16) rs).1).Pairwise Apart ∧
      (serve (empty 16) rs).2.load 8 = .ok 0 := by
  intro rs
  obtain ⟨-, hapart, -, hzero, -⟩ := isolated_serve 16 (by decide) rs
  refine ⟨by decide +kernel, hapart, ?_⟩
  refine hzero [] (serve (empty 16) rs).1.tail 4 8 8 (by decide +kernel) (by decide)
    (by decide) (by decide) ?_
  have hno : ∀ e ∈ (serve (empty 16) rs).1.tail, ∀ v, e ≠ .stored 8 v := by
    have : (serve (empty 16) rs).1.tail =
        [.stored 4 7, .allocated 12 0, .allocated 12 4,
          .failed (.store 2 1) (.badAddress 2 "misaligned"),
          .failed (.alloc 4) (.heapExhausted 4 16 16)] := by decide +kernel
    simp [this]
  exact fun v hv => hno _ hv v rfl

end TreeMachine.Heap
