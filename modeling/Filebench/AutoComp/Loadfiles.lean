import Filebench.Lib.CString
import Mathlib.Data.List.GetD

/-! # The names of the workload files

The completion of `load` offers the names of the workload files. They are read from the directory
into a buffer that grows by a fixed step, and kept until the directory changes. -/
namespace Filebench

def filenameMaxlen : ℕ := 128

def mallocStep : ℕ := 64

/-- `ac_fname_cache_t` -/
structure FnameCache where
  fncBuf : Option (ℕ → CString)
  fncBufsize : ℕ
  fncMtime : ℤ

/-- What the system calls give: `malloc` the names that lie in fresh memory, `readdir` the listing,
`realloc` whether there is memory for so many names. -/
structure LoadEnv where
  stat : Option ℤ
  malloc : Option (ℕ → CString)
  opendir : Bool
  readdir : List CString
  realloc : ℕ → Bool

/-- The buffer while it is filled, with the index of every store and the size at that time. -/
structure NameBuf where
  buf : ℕ → CString
  bufsize : ℕ
  i : ℕ
  stores : List (ℕ × ℕ)

def NameBuf.store (b : NameBuf) (name : CString) : NameBuf :=
  { b with buf := Function.update b.buf b.i name, stores := b.stores ++ [(b.i, b.bufsize)] }

/-- `snprintf`, and the null over the dot. -/
def rowName (dName : CString) : CString :=
  if dName.length - 2 ≤ filenameMaxlen - 1 then
    (dName.take (filenameMaxlen - 1)).take (dName.length - 2)
  else dName.take (filenameMaxlen - 1)

/-- The test of the loop, which goes on to the next entry where it fails. -/
def IsLoadfile (dName : CString) : Prop :=
  ¬ (dName.length ≤ 2 ∨ dName[dName.length - 2]? ≠ some '.' ∨
    dName[dName.length - 1]? ≠ some 'f')

instance (dName : CString) : Decidable (IsLoadfile dName) := inferInstanceAs (Decidable (¬ _))

inductive SearchStop where
  /-- `realloc` fails; the stores made so far -/
  | nomem (stores : List (ℕ × ℕ))
  /-- the size does not fit an `int` -/
  | overflow

/-- The next name, with room for it. -/
def NameBuf.append (b : NameBuf) (dName : CString) : NameBuf :=
  { b.store (rowName dName) with i := b.i + 1 }

/-- The loop body. -/
def searchEntry (realloc : ℕ → Bool) (dName : CString) (b : NameBuf) :
    Except SearchStop NameBuf :=
  if IsLoadfile dName then
    if b.i = b.bufsize then
      if 2 ^ 31 ≤ b.bufsize + mallocStep then .error .overflow
      else if realloc (b.bufsize + mallocStep) then
        .ok (NameBuf.append { b with bufsize := b.bufsize + mallocStep } dName)
      else .error (.nomem b.stores)
    else .ok (b.append dName)
  else .ok b

def searchLoop (realloc : ℕ → Bool) : List CString → NameBuf → Except SearchStop NameBuf
  | [], b => .ok b
  | dName :: entries, b => (searchEntry realloc dName b).bind (searchLoop realloc entries)

inductive SearchResult where
  | ret (code : ℤ) (cache : FnameCache) (stores : List (ℕ × ℕ))
  | undefined

def searchLoadfiles (env : LoadEnv) (cache : FnameCache) : SearchResult :=
  match env.stat with
  | none => .ret (-1) cache []
  | some mtime =>
    if mtime = cache.fncMtime then .ret 0 cache []
    else
      match env.malloc with
      | none => .ret (-1) cache []
      | some buf =>
        if env.opendir then
          match searchLoop env.realloc env.readdir ⟨buf, mallocStep, 0, []⟩ with
          | .error (.nomem stores) => .ret (-1) cache stores
          | .error .overflow => .undefined
          | .ok b =>
            .ret 0 ⟨some (b.store []).buf, b.bufsize, mtime⟩ (b.store []).stores
        else .ret (-1) cache []

/-! ## The names -/

/-- The names of the workload files without their suffix, in the order of the listing. -/
def workloadNames (entries : List CString) : List CString :=
  (entries.filter fun name => 2 < name.length ∧ ['.', 'f'] <:+ name).map
    fun name => name.take (name.length - 2)

/-- The names in order, then the empty one that ends them, within the buffer. -/
def CacheHolds (cache : FnameCache) (entries : List CString) : Prop :=
  (workloadNames entries).length < cache.fncBufsize ∧
    ∃ buf, cache.fncBuf = some buf ∧
      ∀ k ≤ (workloadNames entries).length, buf k = (workloadNames entries).getD k []

/-- No store outside the buffer, and after a success the cache holds the names. -/
def SearchRight (env : LoadEnv) (cache : FnameCache) : Prop :=
  ∃ code cache' stores, searchLoadfiles env cache = .ret code cache' stores ∧
    (∀ s ∈ stores, s.1 < s.2) ∧ (code = 0 → CacheHolds cache' env.readdir)

/-- The size of the buffer after the growth `k`. -/
def grownSize (k : ℕ) : ℕ := mallocStep * (k + 2)

/-- The growth `k` comes while the names from `start` to `stop` are stored. -/
def GrowsAt (start stop k : ℕ) : Prop := start ≤ mallocStep * (k + 1) ∧ mallocStep * (k + 1) < stop

/-- No system call stops the search before the size of the buffer leaves the range of an `int`. -/
structure ReadsAll (env : LoadEnv) : Prop where
  memory : env.malloc ≠ none
  opens : env.opendir = true
  grows : ∀ k, GrowsAt 0 (workloadNames env.readdir).length k → grownSize k < 2 ^ 31 →
    env.realloc (grownSize k) = true

/-- The names leave room for the one that ends them, and each fits its row. -/
structure NamesFit (names : List CString) : Prop where
  room : names = [] ∨ ¬ mallocStep ∣ names.length
  size : names.length + mallocStep < 2 ^ 31
  rows : ∀ name ∈ names, name.length < filenameMaxlen

theorem isLoadfile_iff (name : CString) :
    IsLoadfile name ↔ 2 < name.length ∧ ['.', 'f'] <:+ name := by
  rw [IsLoadfile, not_or, not_or, not_le, not_not, not_not]
  apply and_congr_right
  intro hlen
  have hdot : name.length - 2 < name.length := by omega
  have hsucc : name.length - 2 + 1 = name.length - 1 := by omega
  have hlast : name.length - 1 < name.length := by omega
  have hend : name.length - 1 + 1 = name.length := by omega
  rw [List.suffix_iff_eq_drop, List.length_cons, List.length_singleton,
    List.drop_eq_getElem_cons hdot]
  simp only [hsucc]
  rw [List.drop_eq_getElem_cons hlast]
  simp only [hend]
  rw [List.drop_length, List.getElem?_eq_getElem hdot, List.getElem?_eq_getElem hlast]
  simp [eq_comm]

theorem rowName_eq_iff {name : CString} (h : 2 < name.length) :
    rowName name = name.take (name.length - 2) ↔
      (name.take (name.length - 2)).length < filenameMaxlen := by
  have hstem : (name.take (name.length - 2)).length = name.length - 2 := by
    rw [List.length_take]
    omega
  have hmax : filenameMaxlen = 128 := rfl
  rw [rowName, hstem]
  split_ifs with hfits
  · rw [List.take_take, Nat.min_eq_left hfits]
    exact iff_of_true rfl (by omega)
  · refine iff_of_false (fun heq => ?_) (by omega)
    have hlen := congrArg List.length heq
    rw [hstem, List.length_take] at hlen
    omega

/-- What the rows hold of the listing. -/
def loadRows (entries : List CString) : List CString :=
  (entries.filter fun name => IsLoadfile name).map rowName

theorem workloadNames_eq (entries : List CString) : workloadNames entries =
    (entries.filter fun name => IsLoadfile name).map fun name => name.take (name.length - 2) := by
  rw [workloadNames]
  simp only [isLoadfile_iff]

theorem length_loadRows (entries : List CString) :
    (loadRows entries).length = (workloadNames entries).length := by
  rw [workloadNames_eq, loadRows, List.length_map, List.length_map]

/-- The rows hold the names if and only if each name fits. -/
theorem loadRows_eq_iff (entries : List CString) :
    loadRows entries = workloadNames entries ↔
      ∀ name ∈ workloadNames entries, name.length < filenameMaxlen := by
  rw [workloadNames_eq, loadRows, List.map_inj_left, List.forall_mem_map]
  refine forall₂_congr fun name hname => rowName_eq_iff ?_
  have hload := of_decide_eq_true (List.mem_filter.mp hname).2
  exact ((isLoadfile_iff name).mp hload).1

/-! ## The loop -/

/-- The buffer with these rows stored. -/
structure Filled (b : NameBuf) (rows : List CString) : Prop where
  index : b.i = rows.length
  size : b.bufsize = mallocStep * max 1 ((rows.length + (mallocStep - 1)) / mallocStep)
  rows : ∀ k (h : k < rows.length), b.buf k = rows[k]
  bounded : ∀ s ∈ b.stores, s.1 < s.2

theorem Filled.nil (buf : ℕ → CString) : Filled ⟨buf, mallocStep, 0, []⟩ [] where
  index := rfl
  size := rfl
  rows := fun _ h => absurd h (Nat.not_lt_zero _)
  bounded := fun _ h => absurd h List.not_mem_nil

variable {b : NameBuf} {rows : List CString} {realloc : ℕ → Bool} {dName : CString}

/-- The buffer is full where the growth `k` comes. -/
theorem Filled.full_iff (h : Filled b rows) :
    b.i = b.bufsize ↔ ∃ k, rows.length = mallocStep * (k + 1) := by
  have hstep : mallocStep = 64 := rfl
  rw [h.index, h.size, hstep]
  constructor
  · intro hfull
    exact ⟨rows.length / 64 - 1, by omega⟩
  · rintro ⟨k, hlen⟩
    omega

theorem Filled.grown (h : Filled b rows) {k : ℕ} (hlen : rows.length = mallocStep * (k + 1)) :
    b.bufsize + mallocStep = grownSize k := by
  have hstep : mallocStep = 64 := rfl
  rw [h.size, grownSize, hlen, hstep]
  omega

theorem Filled.index_le (h : Filled b rows) : b.i ≤ b.bufsize := by
  have hstep : mallocStep = 64 := rfl
  rw [h.index, h.size, hstep]
  omega

theorem Filled.append (h : Filled b rows) {size : ℕ} (hroom : b.i < size)
    (hsize : size = mallocStep * max 1 ((rows.length + 1 + (mallocStep - 1)) / mallocStep)) :
    Filled (NameBuf.append { b with bufsize := size } dName) (rows ++ [rowName dName]) where
  index := by
    rw [List.length_append, ← h.index]
    rfl
  size := by
    rw [List.length_append]
    exact hsize
  rows k hk := by
    rw [List.length_append, List.length_singleton] at hk
    change Function.update b.buf b.i (rowName dName) k = _
    rcases Nat.lt_succ_iff_lt_or_eq.mp hk with hlt | rfl
    · rw [Function.update_of_ne (h.index ▸ hlt.ne), List.getElem_append_left hlt]
      exact h.rows k hlt
    · rw [h.index, Function.update_self, List.getElem_append_right le_rfl]
      simp
  bounded s hs := by
    rcases List.mem_append.mp hs with hs | hs
    · exact h.bounded s hs
    · rw [List.mem_singleton.mp hs]
      exact hroom

/-- Room for one more name, without a growth. -/
theorem Filled.append_room (h : Filled b rows) (hroom : b.i ≠ b.bufsize) :
    Filled (b.append dName) (rows ++ [rowName dName]) := by
  have hlt : b.i < b.bufsize := lt_of_le_of_ne h.index_le hroom
  apply h.append hlt
  have hstep : mallocStep = 64 := rfl
  rw [h.index, h.size, hstep] at hlt
  rw [h.size, hstep]
  omega

theorem Filled.append_grown (h : Filled b rows) {k : ℕ}
    (hlen : rows.length = mallocStep * (k + 1)) :
    Filled (NameBuf.append { b with bufsize := grownSize k } dName) (rows ++ [rowName dName]) := by
  have hstep : mallocStep = 64 := rfl
  apply h.append
  · rw [h.index, hlen, grownSize, hstep]
    omega
  · rw [hlen, grownSize, hstep]
    omega

/-- What the loop comes to: all names are stored, or the first growth that fails stops it. -/
inductive LoopEnd (realloc : ℕ → Bool) (rows stored : List CString) :
    Except SearchStop NameBuf → Prop where
  | stored (b : NameBuf) (filled : Filled b (rows ++ stored))
      (grows : ∀ k, GrowsAt rows.length (rows ++ stored).length k →
        grownSize k < 2 ^ 31 ∧ realloc (grownSize k) = true) :
      LoopEnd realloc rows stored (.ok b)
  | nomem (stores : List (ℕ × ℕ)) (bounded : ∀ s ∈ stores, s.1 < s.2) (k : ℕ)
      (growth : GrowsAt rows.length (rows ++ stored).length k) (fits : grownSize k < 2 ^ 31)
      (fails : realloc (grownSize k) = false) :
      LoopEnd realloc rows stored (.error (.nomem stores))
  | overflow (k : ℕ) (growth : GrowsAt rows.length (rows ++ stored).length k)
      (large : 2 ^ 31 ≤ grownSize k)
      (grows : ∀ k, GrowsAt rows.length (rows ++ stored).length k → grownSize k < 2 ^ 31 →
        realloc (grownSize k) = true) :
      LoopEnd realloc rows stored (.error .overflow)

theorem searchEntry_skip (h : ¬ IsLoadfile dName) : searchEntry realloc dName b = .ok b :=
  if_neg h

theorem searchEntry_room (h : IsLoadfile dName) (hroom : b.i ≠ b.bufsize) :
    searchEntry realloc dName b = .ok (b.append dName) := by
  rw [searchEntry, if_pos h, if_neg hroom]

theorem searchEntry_full (h : IsLoadfile dName) (hb : Filled b rows) {k : ℕ}
    (hlen : rows.length = mallocStep * (k + 1)) :
    searchEntry realloc dName b =
      if 2 ^ 31 ≤ grownSize k then .error .overflow
      else if realloc (grownSize k) then
        .ok (NameBuf.append { b with bufsize := grownSize k } dName)
      else .error (.nomem b.stores) := by
  rw [searchEntry, if_pos h, if_pos (hb.full_iff.mpr ⟨k, hlen⟩), hb.grown hlen]

theorem loadRows_skip (h : ¬ IsLoadfile dName) (entries : List CString) :
    loadRows (dName :: entries) = loadRows entries := by
  rw [loadRows, List.filter_cons_of_neg (by simpa using h)]
  rfl

theorem loadRows_cons (h : IsLoadfile dName) (entries : List CString) :
    loadRows (dName :: entries) = rowName dName :: loadRows entries := by
  rw [loadRows, List.filter_cons_of_pos (by simpa using h), List.map_cons]
  rfl

theorem growsAt_cons (rows : List CString) (row : CString) (stored : List CString) (k : ℕ) :
    GrowsAt rows.length (rows ++ row :: stored).length k ↔ rows.length = mallocStep * (k + 1) ∨
      GrowsAt (rows ++ [row]).length (rows ++ [row] ++ stored).length k := by
  rw [GrowsAt, GrowsAt, List.append_cons rows row stored, List.length_append, List.length_append,
    List.length_singleton]
  omega

/-- One more name before the rest of the loop, the buffer grown for it where it was full. -/
theorem LoopEnd.cons {row : CString} {stored : List CString} {result : Except SearchStop NameBuf}
    (hfirst : ∀ k, rows.length = mallocStep * (k + 1) →
      grownSize k < 2 ^ 31 ∧ realloc (grownSize k) = true)
    (h : LoopEnd realloc (rows ++ [row]) stored result) :
    LoopEnd realloc rows (row :: stored) result := by
  cases h with
  | stored b filled grows =>
    refine .stored b ?_ fun k hk => ?_
    · rwa [List.append_assoc] at filled
    · exact ((growsAt_cons rows row stored k).mp hk).elim (hfirst k) (grows k)
  | nomem stores bounded k growth fits fails =>
    exact .nomem stores bounded k ((growsAt_cons rows row stored k).mpr (.inr growth)) fits fails
  | overflow k growth large grows =>
    refine .overflow k ((growsAt_cons rows row stored k).mpr (.inr growth)) large ?_
    intro j hj hfits
    exact ((growsAt_cons rows row stored j).mp hj).elim (fun hj => (hfirst j hj).2)
      fun hj => grows j hj hfits

theorem growsAt_first {k : ℕ} (hlen : rows.length = mallocStep * (k + 1)) (row : CString)
    (stored : List CString) : GrowsAt rows.length (rows ++ row :: stored).length k :=
  (growsAt_cons rows row stored k).mpr (.inl hlen)

theorem searchLoop_end (realloc : ℕ → Bool) (entries : List CString) (h : Filled b rows) :
    LoopEnd realloc rows (loadRows entries) (searchLoop realloc entries b) := by
  induction entries generalizing b rows with
  | nil =>
    refine .stored b ?_ fun k hk => ?_
    · exact (List.append_nil rows).symm ▸ h
    · rw [loadRows, List.filter_nil, List.map_nil, List.append_nil] at hk
      exact absurd hk.2 hk.1.not_gt
  | cons dName entries ih =>
    rw [searchLoop]
    by_cases hload : IsLoadfile dName
    · rw [loadRows_cons hload]
      by_cases hfull : b.i = b.bufsize
      · obtain ⟨k, hlen⟩ := h.full_iff.mp hfull
        have hat := growsAt_first hlen (rowName dName) (loadRows entries)
        rw [searchEntry_full hload h hlen]
        by_cases hlarge : 2 ^ 31 ≤ grownSize k
        · rw [if_pos hlarge]
          refine .overflow k hat hlarge fun j hj hfits => ?_
          -- A later growth is larger still.
          have hkj : k ≤ j := by
            have := hlen ▸ hj.1
            have hstep : mallocStep = 64 := rfl
            rw [hstep] at this
            omega
          rw [grownSize] at hlarge hfits
          have := Nat.mul_le_mul_left mallocStep (Nat.add_le_add_right hkj 2)
          omega
        · rw [if_neg hlarge]
          cases hrealloc : realloc (grownSize k) with
          | false => exact .nomem b.stores h.bounded k hat (not_le.mp hlarge) hrealloc
          | true =>
            apply (ih (h.append_grown hlen)).cons
            intro j hj
            obtain rfl : j = k := by
              have hstep : mallocStep = 64 := rfl
              rw [hstep] at hj hlen
              omega
            exact ⟨not_le.mp hlarge, hrealloc⟩
      · rw [searchEntry_room hload hfull]
        exact (ih (h.append_room hfull)).cons fun k hk => absurd (h.full_iff.mpr ⟨k, hk⟩) hfull
    · rw [searchEntry_skip hload, loadRows_skip hload]
      exact ih h

/-! ## The call -/

/-- The terminator is within the buffer unless the names fill it. -/
theorem Filled.room_iff (h : Filled b rows) :
    b.i < b.bufsize ↔ rows = [] ∨ ¬ mallocStep ∣ rows.length := by
  have hstep : mallocStep = 64 := rfl
  rw [h.index, h.size, hstep, ← List.length_eq_zero_iff]
  omega

theorem growsAt_last {n : ℕ} (h : 2 ^ 31 < n + mallocStep) :
    ∃ k, GrowsAt 0 n k ∧ 2 ^ 31 ≤ grownSize k := by
  have hstep : mallocStep = 64 := rfl
  rw [hstep] at h
  refine ⟨2 ^ 25 - 2, ⟨Nat.zero_le _, ?_⟩, ?_⟩
  · rw [hstep]
    omega
  · rw [grownSize, hstep]
    norm_num

/-- After a loop that stored everything. -/
theorem Filled.holds_iff {entries : List CString} (h : Filled b (loadRows entries)) (mtime : ℤ) :
    CacheHolds ⟨some (b.store []).buf, b.bufsize, mtime⟩ entries ↔
      b.i < b.bufsize ∧ loadRows entries = workloadNames entries := by
  have hi : b.i = (workloadNames entries).length := h.index.trans (length_loadRows entries)
  have hbuf : (b.store []).buf = Function.update b.buf b.i [] := rfl
  rw [CacheHolds, ← hi]
  apply and_congr_right
  intro _
  constructor
  · rintro ⟨buf, hsome, hnames⟩
    rw [hbuf, Option.some_inj] at hsome
    apply List.ext_getElem (length_loadRows entries)
    intro k hk hk'
    have hne : k ≠ b.i := by omega
    have hname := hnames k (by omega)
    rw [← hsome, Function.update_of_ne hne, h.rows k hk, List.getD_eq_getElem _ _ hk'] at hname
    exact hname
  · intro hrows
    refine ⟨_, rfl, fun k hk => ?_⟩
    rw [hbuf]
    rcases hk.lt_or_eq with hlt | rfl
    · have hk' : k < (loadRows entries).length := by rwa [length_loadRows, ← hi]
      have hget : b.buf k = (loadRows entries).getD k [] := by
        rw [h.rows k hk', List.getD_eq_getElem _ _ hk']
      rw [Function.update_of_ne hlt.ne, hget, hrows]
    · rw [Function.update_self, List.getD_eq_default _ _ hi.ge]

/-- The growths and the terminator tell whether the names fit. -/
theorem namesFit_iff {entries : List CString} (h : Filled b (loadRows entries))
    (hgrows : ∀ k, GrowsAt 0 (workloadNames entries).length k → grownSize k < 2 ^ 31) :
    NamesFit (workloadNames entries) ↔
      b.i < b.bufsize ∧ loadRows entries = workloadNames entries := by
  have hempty : loadRows entries = [] ↔ workloadNames entries = [] := by
    rw [← List.length_eq_zero_iff, length_loadRows, List.length_eq_zero_iff]
  rw [h.room_iff, loadRows_eq_iff, length_loadRows, hempty]
  constructor
  · rintro ⟨hroom, -, hrows⟩
    exact ⟨hroom, hrows⟩
  · rintro ⟨hroom, hrows⟩
    refine ⟨hroom, ?_, hrows⟩
    have hle : (workloadNames entries).length + mallocStep ≤ 2 ^ 31 := by
      by_contra hlarge
      obtain ⟨k, hat, hsize⟩ := growsAt_last (not_le.mp hlarge)
      exact absurd (hgrows k hat) hsize.not_gt
    rcases hroom with hnil | hstep
    · rw [hnil]
      decide
    · apply lt_of_le_of_ne hle
      intro heq
      apply hstep
      exact (Nat.dvd_add_left (dvd_refl mallocStep)).mp (heq ▸ ⟨2 ^ 25, rfl⟩)

theorem SearchResult.ret_right {r : SearchResult} {code : ℤ} {cache : FnameCache}
    {stores : List (ℕ × ℕ)} {entries : List CString} (h : r = .ret code cache stores) :
    (∃ code' cache' stores', r = .ret code' cache' stores' ∧ (∀ s ∈ stores', s.1 < s.2) ∧
        (code' = 0 → CacheHolds cache' entries)) ↔
      (∀ s ∈ stores, s.1 < s.2) ∧ (code = 0 → CacheHolds cache entries) := by
  subst h
  constructor
  · rintro ⟨code', cache', stores', heq, hright⟩
    obtain ⟨rfl, rfl, rfl⟩ := SearchResult.ret.inj heq
    exact hright
  · intro hright
    exact ⟨code, cache, stores, rfl, hright⟩

/-- What a call comes to. -/
inductive SearchEnd (env : LoadEnv) (cache : FnameCache) : SearchResult → Prop where
  | failed (stores : List (ℕ × ℕ)) (bounded : ∀ s ∈ stores, s.1 < s.2)
      (stops : env.stat = none ∨ env.stat ≠ some cache.fncMtime ∧ ¬ ReadsAll env) :
      SearchEnd env cache (.ret (-1) cache stores)
  | kept (unchanged : env.stat = some cache.fncMtime) : SearchEnd env cache (.ret 0 cache [])
  | read (mtime : ℤ) (stat : env.stat = some mtime) (changed : mtime ≠ cache.fncMtime)
      (reads : ReadsAll env) (b : NameBuf) (filled : Filled b (loadRows env.readdir))
      (grows : ∀ k, GrowsAt 0 (workloadNames env.readdir).length k → grownSize k < 2 ^ 31) :
      SearchEnd env cache
        (.ret 0 ⟨some (b.store []).buf, b.bufsize, mtime⟩ (b.store []).stores)
  | overflow (mtime : ℤ) (stat : env.stat = some mtime) (changed : mtime ≠ cache.fncMtime)
      (reads : ReadsAll env) (large : 2 ^ 31 ≤ (workloadNames env.readdir).length + mallocStep) :
      SearchEnd env cache .undefined

variable {env : LoadEnv} {cache : FnameCache}

/-- A call that gets as far as the loop. -/
theorem searchEnd_loop {mtime : ℤ} {buf : ℕ → CString} (hstat : env.stat = some mtime)
    (hchanged : mtime ≠ cache.fncMtime) (hmalloc : env.malloc = some buf)
    (hopendir : env.opendir = true) :
    SearchEnd env cache
      (match searchLoop env.realloc env.readdir ⟨buf, mallocStep, 0, []⟩ with
      | .error (.nomem stores) => .ret (-1) cache stores
      | .error .overflow => .undefined
      | .ok b => .ret 0 ⟨some (b.store []).buf, b.bufsize, mtime⟩ (b.store []).stores) := by
  have hend := searchLoop_end env.realloc env.readdir (Filled.nil buf)
  have hlen : ([] ++ loadRows env.readdir : List CString).length =
      (workloadNames env.readdir).length := length_loadRows _
  have hmem : env.malloc ≠ none := hmalloc ▸ Option.some_ne_none buf
  generalize searchLoop env.realloc env.readdir ⟨buf, mallocStep, 0, []⟩ = result at hend ⊢
  cases hend with
  | stored b filled grows =>
    rw [hlen] at grows
    exact .read mtime hstat hchanged ⟨hmem, hopendir, fun k hk _ => (grows k hk).2⟩ b filled
      fun k hk => (grows k hk).1
  | nomem stores bounded k growth fits fails =>
    rw [hlen] at growth
    refine .failed stores bounded (.inr ⟨fun hsame => ?_, fun hreads => ?_⟩)
    · exact hchanged (Option.some_inj.mp (hstat.symm.trans hsame))
    · exact Bool.noConfusion (fails.symm.trans (hreads.grows k growth fits))
  | overflow k growth large grows =>
    rw [hlen] at growth grows
    refine .overflow mtime hstat hchanged ⟨hmem, hopendir, grows⟩ (large.trans ?_)
    have hat := growth.2
    rw [Nat.mul_add] at hat
    rw [grownSize, Nat.mul_add]
    omega

theorem searchLoadfiles_end (env : LoadEnv) (cache : FnameCache) :
    SearchEnd env cache (searchLoadfiles env cache) := by
  have hnone : ∀ s ∈ ([] : List (ℕ × ℕ)), s.1 < s.2 := fun s hs => absurd hs List.not_mem_nil
  rw [searchLoadfiles]
  cases hstat : env.stat with
  | none => exact .failed [] hnone (.inl hstat)
  | some mtime =>
    by_cases hchanged : mtime = cache.fncMtime
    · simp only [if_pos hchanged]
      exact .kept (hchanged ▸ hstat)
    · have hdiffers : env.stat ≠ some cache.fncMtime := fun hsame =>
        hchanged (Option.some_inj.mp (hstat.symm.trans hsame))
      simp only [if_neg hchanged]
      cases hmalloc : env.malloc with
      | none => exact .failed [] hnone (.inr ⟨hdiffers, fun hreads => hreads.memory hmalloc⟩)
      | some buf =>
        cases hopendir : env.opendir with
        | true => exact searchEnd_loop hstat hchanged hmalloc hopendir
        | false =>
          refine .failed [] hnone (.inr ⟨hdiffers, fun hreads => ?_⟩)
          exact Bool.noConfusion (hopendir.symm.trans hreads.opens)

theorem Filled.stores_iff (h : Filled b rows) :
    (∀ s ∈ (b.store []).stores, s.1 < s.2) ↔ b.i < b.bufsize :=
  List.forall_mem_append.trans ((and_iff_right h.bounded).trans List.forall_mem_singleton)

/-- The search keeps to its buffer and gives the names if and only if the cache that it keeps
holds them already, or the names that it reads fit. -/
theorem searchLoadfiles_right (env : LoadEnv) (cache : FnameCache) :
    SearchRight env cache ↔
      (env.stat = some cache.fncMtime → CacheHolds cache env.readdir) ∧
      (env.stat ≠ none → env.stat ≠ some cache.fncMtime → ReadsAll env →
        NamesFit (workloadNames env.readdir)) := by
  rw [SearchRight]
  have hend := searchLoadfiles_end env cache
  generalize searchLoadfiles env cache = result at hend ⊢
  cases hend with
  | failed stores bounded stops =>
    rw [SearchResult.ret_right rfl]
    refine iff_of_true ⟨bounded, fun h => absurd h (by decide)⟩ ⟨fun hsame => ?_, ?_⟩
    · rcases stops with hnone | ⟨hne, -⟩
      · exact absurd (hsame.symm.trans hnone) (Option.some_ne_none _)
      · exact absurd hsame hne
    · intro hsome _ hreads
      rcases stops with hnone | ⟨-, hstops⟩
      · exact absurd hnone hsome
      · exact absurd hreads hstops
  | kept unchanged =>
    rw [SearchResult.ret_right rfl, and_iff_right fun s hs => absurd hs List.not_mem_nil]
    exact ⟨fun h => ⟨fun _ => h rfl, fun _ hne => absurd unchanged hne⟩, fun h _ => h.1 unchanged⟩
  | read mtime stat changed reads b filled grows =>
    have hne : env.stat ≠ some cache.fncMtime := fun hsame =>
      changed (Option.some_inj.mp (stat.symm.trans hsame))
    rw [SearchResult.ret_right rfl, filled.stores_iff, filled.holds_iff, namesFit_iff filled grows]
    constructor
    · intro h
      exact ⟨fun hsame => absurd hsame hne, fun _ _ _ => h.2 rfl⟩
    · intro h
      have hfit := h.2 (stat ▸ Option.some_ne_none mtime) hne reads
      exact ⟨hfit.1, fun _ => hfit⟩
  | overflow mtime stat changed reads large =>
    have hne : env.stat ≠ some cache.fncMtime := fun hsame =>
      changed (Option.some_inj.mp (stat.symm.trans hsame))
    refine iff_of_false ?_ fun h => ?_
    · rintro ⟨code, cache', stores, hret, -⟩
      exact SearchResult.noConfusion hret
    · exact absurd (h.2 (stat ▸ Option.some_ne_none mtime) hne reads).size large.not_gt

/-- A directory of 64 workload files. -/
def fullStep : LoadEnv :=
  ⟨some 1, some fun _ => [], true, (List.range 64).map fun k => [Char.ofNat (48 + k), '.', 'f'],
    fun _ => true⟩

/-- The terminator is stored behind the 64 names that the buffer has room for. -/
theorem searchLoadfiles_full :
    (∃ cache stores, searchLoadfiles fullStep ⟨none, 0, 0⟩ = .ret 0 cache stores ∧
      (64, 64) ∈ stores) ∧ ¬ SearchRight fullStep ⟨none, 0, 0⟩ := by
  constructor
  · exact ⟨_, _, rfl, by decide⟩
  · rintro ⟨code, cache, stores, hret, hbounded, -⟩
    obtain ⟨-, -, rfl⟩ := SearchResult.ret.inj hret
    exact absurd (hbounded (64, 64) (by decide)) (Nat.lt_irrefl 64)

/-! ## The cache over a session -/

/-- The calls of a session, with what the system calls give in each. -/
def searchCalls : List LoadEnv → FnameCache → Option FnameCache
  | [], cache => some cache
  | env :: envs, cache =>
    match searchLoadfiles env cache with
    | .ret _ cache' _ => searchCalls envs cache'
    | .undefined => none

/-- A call whose listing fits leaves the cache, or fills it with that listing. -/
theorem searchLoadfiles_fit (h : NamesFit (workloadNames env.readdir)) (cache : FnameCache) :
    ∃ code cache' stores, searchLoadfiles env cache = .ret code cache' stores ∧
      (cache' = cache ∨
        env.stat = some cache'.fncMtime ∧ CacheHolds cache' env.readdir) := by
  have hend := searchLoadfiles_end env cache
  generalize searchLoadfiles env cache = result at hend ⊢
  cases hend with
  | failed stores _ _ => exact ⟨-1, cache, stores, rfl, .inl rfl⟩
  | kept _ => exact ⟨0, cache, [], rfl, .inl rfl⟩
  | read mtime stat _ _ b filled grows =>
    refine ⟨0, _, _, rfl, .inr ⟨stat, (filled.holds_iff mtime).mpr ?_⟩⟩
    exact (namesFit_iff filled grows).mp h
  | overflow _ _ _ _ large => exact absurd h.size large.not_gt

/-- Where all listings fit, the cache is as it was at the start or holds a listing of the directory
at the time that it was read. -/
theorem searchCalls_cache (envs : List LoadEnv) (cache : FnameCache)
    (h : ∀ env ∈ envs, NamesFit (workloadNames env.readdir)) :
    ∃ cache', searchCalls envs cache = some cache' ∧ (cache' = cache ∨
      ∃ env ∈ envs, env.stat = some cache'.fncMtime ∧ CacheHolds cache' env.readdir) := by
  induction envs generalizing cache with
  | nil => exact ⟨cache, rfl, .inl rfl⟩
  | cons env envs ih =>
    obtain ⟨hfirst, hrest⟩ := List.forall_mem_cons.mp h
    obtain ⟨code, cache₁, stores, hcall, hcache₁⟩ := searchLoadfiles_fit hfirst cache
    obtain ⟨cache', hrun, hcache'⟩ := ih cache₁ hrest
    have hsteps : searchCalls (env :: envs) cache = searchCalls envs cache₁ := by
      rw [searchCalls, hcall]
    refine ⟨cache', hsteps.trans hrun, ?_⟩
    rcases hcache' with rfl | ⟨env', hmem, hholds⟩
    · exact hcache₁.imp_right fun hholds => ⟨env, .head _, hholds⟩
    · exact .inr ⟨env', .tail _ hmem, hholds⟩

/-! ## The completion -/

/-- The string and the index pointer after it; the empty name ends the list. -/
def getNextLoadfile (listp : Option (ℕ → CString)) (curp : ℕ) : Option CString × ℕ :=
  match listp with
  | none => (none, curp)
  | some buf => (if buf curp = [] then none else some (buf curp), curp + 1)

/-- `match_string` asks for strings until there is none; the fuel bounds the names. -/
def loadfileStrings (listp : Option (ℕ → CString)) : ℕ → ℕ → Option (List CString)
  | 0, _ => none
  | fuel + 1, curp =>
    match getNextLoadfile listp curp with
    | (none, _) => some []
    | (some name, curp') => (loadfileStrings listp fuel curp').map (name :: ·)

theorem workloadNames_ne_nil {entries : List CString} {name : CString}
    (h : name ∈ workloadNames entries) : name ≠ [] := by
  rw [workloadNames, List.mem_map] at h
  obtain ⟨dName, hmem, rfl⟩ := h
  have hlen := (of_decide_eq_true (List.mem_filter.mp hmem).2).1
  rw [← List.length_pos_iff, List.length_take]
  omega

theorem loadfileStrings_from {buf : ℕ → CString} {names : List CString} (hne : [] ∉ names)
    (hbuf : ∀ k ≤ names.length, buf k = names.getD k []) {k : ℕ} (hk : k ≤ names.length) :
    loadfileStrings (some buf) (names.length - k + 1) k = some (names.drop k) := by
  rcases hk.lt_or_eq with hlt | rfl
  · have hget : buf k = names[k] := (hbuf k hk).trans (List.getD_eq_getElem _ _ hlt)
    have hname : names[k] ≠ [] := fun heq => hne (heq ▸ List.getElem_mem hlt)
    have hrest : names.length - k = names.length - (k + 1) + 1 := by omega
    have ih := loadfileStrings_from hne hbuf (Nat.succ_le_of_lt hlt)
    rw [loadfileStrings, getNextLoadfile, hget, if_neg hname, hrest, List.drop_eq_getElem_cons hlt]
    simp only [ih, Option.map_some]
  · have hend : buf names.length = [] := (hbuf _ le_rfl).trans (List.getD_eq_default _ _ le_rfl)
    rw [loadfileStrings, getNextLoadfile, hend, if_pos rfl, List.drop_length]
termination_by names.length - k

/-- From a cache that holds a listing the completion is offered exactly its names. -/
theorem loadfileStrings_holds {cache : FnameCache} {entries : List CString}
    (h : CacheHolds cache entries) :
    loadfileStrings cache.fncBuf ((workloadNames entries).length + 1) 0 =
      some (workloadNames entries) := by
  obtain ⟨-, buf, hbuf, hnames⟩ := h
  rw [hbuf]
  exact loadfileStrings_from (fun hmem => workloadNames_ne_nil hmem rfl) hnames (Nat.zero_le _)

end Filebench
