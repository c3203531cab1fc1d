import Filebench.Lib.CString
import Filebench.Lib.Scan
import Mathlib.Data.List.GetD

/-! # The word of an attribute list

Of an attribute list that the user is typing the completion needs the last item: where it begins,
and whether it is a name, a value or a variable. -/
namespace Filebench

def attrListSep : Char := ','

def attrAssignOp : Char := '='

def varPrefix : Char := '$'

/-- `ac_strtype_t` -/
inductive AcStrtype where
  | complete
  | incomplete
  | null
  | invalid
  deriving DecidableEq, Repr

/-- `ac_str_t`, its pointers as indices of the line. -/
structure AcStr where
  startp : ℤ
  endp : ℤ
  strtype : AcStrtype
  deriving DecidableEq, Repr

/-- The values of `ac_toktype_t` that an attribute list has. -/
inductive AcToktype where
  | attrname
  | attrval
  | rvarname
  | attrlist
  deriving DecidableEq, Repr

/-- The search for `=` in the item that `acstr` points to. -/
def parseAttrItem (mem : ℤ → Char) (acstr : AcStr) : AcToktype × AcStr :=
  let p := findUp mem (· = attrAssignOp) acstr.startp acstr.endp
  if p ≤ acstr.endp then
    if mem (p + 1) = varPrefix then
      (.rvarname, { acstr with
        startp := p + 2
        strtype := if mem (p + 2) ≠ nul then .incomplete else .null })
    else (.attrval, acstr)
  else (.attrname, acstr)

def parseAttrList (mem : ℤ → Char) (acstr : AcStr) : AcToktype × AcStr :=
  if acstr.strtype = .complete then (.attrlist, acstr)
  else if acstr.strtype = .null then (.attrname, acstr)
  else
    let p := findDown mem (· = attrListSep) acstr.startp acstr.endp
    if p = acstr.endp then (.attrname, { acstr with startp := p + 1, strtype := .null })
    -- A separator at the very start is not moved past.
    else if acstr.startp < p then parseAttrItem mem { acstr with startp := p + 1 }
    else parseAttrItem mem acstr

def strNum : ℕ := 3

/-- The line with the null behind it. -/
def lineChar (line : CString) (k : ℤ) : Char := line.getD k.toNat nul

/-- A null pointer is no index of the line. -/
def nullPtr : ℤ := -1

def skipBlanks (line : CString) (p : ℤ) : ℤ :=
  findUp (lineChar line) (· ≠ ' ') p line.length

def wordEnd (line : CString) (p : ℤ) : ℤ :=
  findUp (lineChar line) (fun c => c = ' ' ∨ c = nul) p line.length

/-- The loop over the strings, with the number of those left. -/
def parseStrs (line : CString) : ℕ → ℤ → List AcStr
  | 0, _ => []
  | n + 1, p =>
    let start := skipBlanks line p
    let stop := wordEnd line start
    let unset := List.replicate n ⟨nullPtr, nullPtr, .invalid⟩
    if lineChar line start = nul then ⟨start, nullPtr, .null⟩ :: unset
    else if lineChar line stop = nul then ⟨start, stop - 1, .incomplete⟩ :: unset
    else ⟨start, stop - 1, .complete⟩ :: parseStrs line n stop

def parseUserInput (line : CString) : List AcStr := parseStrs line strNum 0

/-- The loop of `compare_string` and the test behind it. -/
def compareLoop (mem : ℤ → Char) (endp : ℤ) (issub : Bool) : CString → ℤ → Option CString
  | [], p => if p = endp + 1 then some [] else none
  | c :: q, p =>
    if p ≤ endp then
      if mem p ≠ c then none else compareLoop mem endp issub q (p + 1)
    else if p = endp + 1 ∧ issub then some (c :: q)
    else none

/-- The rest of `str` after the word, where they match. -/
def compareString (mem : ℤ → Char) (acstr : AcStr) (str : CString) (issub : Bool) :
    Option CString :=
  compareLoop mem acstr.endp issub str acstr.startp

/-! ## The last item -/

/-- A string that the user is typing, at the end of the line. -/
structure Incomplete (mem : ℤ → Char) (acstr : AcStr) : Prop where
  strtype : acstr.strtype = .incomplete
  nonempty : acstr.startp ≤ acstr.endp
  ended : mem (acstr.endp + 1) = nul
  inside : ∀ k, acstr.startp ≤ k → k ≤ acstr.endp → mem k ≠ nul

/-- The last item begins at `s`: after the last separator, or with the string. -/
structure LastItem (mem : ℤ → Char) (acstr : AcStr) (s : ℤ) : Prop where
  start : s = acstr.startp ∨ acstr.startp < s ∧ mem (s - 1) = attrListSep
  high : s ≤ acstr.endp + 1
  last : ∀ k, s ≤ k → k ≤ acstr.endp → mem k ≠ attrListSep

/-- The item from `s` to `e` has the form `name=$var`, with the first `=` at `p`. -/
structure RefAt (mem : ℤ → Char) (s e p : ℤ) : Prop where
  low : s ≤ p
  high : p + 1 ≤ e
  assign : mem p = attrAssignOp
  first : ∀ k, s ≤ k → k < p → mem k ≠ attrAssignOp
  var : mem (p + 1) = varPrefix

/-- What the user is typing in the item from `s` to `e`, and where it begins. -/
inductive ItemToken (mem : ℤ → Char) (s e : ℤ) : AcToktype → ℤ → Prop where
  | attrname (noAssign : ∀ k, s ≤ k → k ≤ e → mem k ≠ attrAssignOp) :
      ItemToken mem s e .attrname s
  | rvarname (p : ℤ) (ref : RefAt mem s e p) : ItemToken mem s e .rvarname (p + 2)
  | attrval (p : ℤ) (low : s ≤ p) (high : p ≤ e) (assign : mem p = attrAssignOp)
      (noRef : ∀ q, ¬ RefAt mem s e q) : ItemToken mem s e .attrval s

/-- The result for the last item. -/
def AttrRight (mem : ℤ → Char) (acstr : AcStr) : Prop :=
  ∃ s, LastItem mem acstr s ∧
    ItemToken mem s acstr.endp (parseAttrList mem acstr).1 (parseAttrList mem acstr).2.startp

/-- The only separator comes first, something follows it, and that is no reference. -/
structure OnlyFirst (mem : ℤ → Char) (acstr : AcStr) : Prop where
  first : mem acstr.startp = attrListSep
  more : acstr.startp < acstr.endp
  only : ∀ k, acstr.startp < k → k ≤ acstr.endp → mem k ≠ attrListSep
  noRef : ∀ p, ¬ RefAt mem (acstr.startp + 1) acstr.endp p

variable {mem : ℤ → Char} {acstr : AcStr}

/-- The last item begins behind the separator that the scan down stops at. -/
theorem lastItem_iff {q : ℤ} (h : LastDown mem (· = attrListSep) acstr.startp acstr.endp q)
    {s : ℤ} : LastItem mem acstr s ↔ s = q + 1 := by
  constructor
  · rintro ⟨hstart, hhigh, hlast⟩
    have hqs : ¬ s ≤ q ∨ q < acstr.startp := by
      by_contra hboth
      obtain ⟨hsq, hq⟩ := not_or.mp hboth
      exact hlast q (not_not.mp hsq) h.high (h.stopped (not_lt.mp hq))
    rcases hstart with rfl | ⟨hlt, hsep⟩
    · have := h.low
      omega
    · have hsq : s - 1 ≤ q := by
        by_contra hgt
        exact h.after (s - 1) (not_le.mp hgt) (by omega) hsep
      omega
  · rintro rfl
    refine ⟨?_, by have := h.high; omega, fun k hk hend => h.after k (by omega) hend⟩
    rcases lt_or_ge q acstr.startp with hlt | hge
    · have := h.low
      exact .inl (by omega)
    · refine .inr ⟨by omega, ?_⟩
      rw [add_sub_cancel_right]
      exact h.stopped hge

/-- A reference begins at the first `=`. -/
theorem FirstUp.refAt_iff {s e p q : ℤ} (h : FirstUp mem (· = attrAssignOp) s e p) :
    RefAt mem s e q ↔ q = p ∧ p + 1 ≤ e ∧ mem (p + 1) = varPrefix := by
  constructor
  · intro href
    obtain rfl : q = p := by
      rcases lt_trichotomy q p with hlt | heq | hgt
      · exact absurd href.assign (h.before q href.low hlt)
      · exact heq
      · exact absurd (h.stopped (by have := href.high; omega)) (href.first p h.low hgt)
    exact ⟨rfl, href.high, href.var⟩
  · rintro ⟨rfl, hhigh, hvar⟩
    exact ⟨h.low, hhigh, h.stopped (by omega), h.before, hvar⟩

/-- What the search for `=` comes to. The null behind the word is no `$`. -/
theorem parseAttrItem_cases (acstr : AcStr) (hlow : acstr.startp ≤ acstr.endp + 1)
    (hended : mem (acstr.endp + 1) = nul) :
    ∃ p, FirstUp mem (· = attrAssignOp) acstr.startp acstr.endp p ∧
      ((p + 1 ≤ acstr.endp ∧ mem (p + 1) = varPrefix ∧ parseAttrItem mem acstr =
          (.rvarname, { acstr with
            startp := p + 2
            strtype := if mem (p + 2) ≠ nul then .incomplete else .null })) ∨
        (p ≤ acstr.endp ∧ mem (p + 1) ≠ varPrefix ∧ parseAttrItem mem acstr = (.attrval, acstr)) ∨
        (acstr.endp < p ∧ parseAttrItem mem acstr = (.attrname, acstr))) := by
  refine ⟨_, findUp_firstUp hlow, ?_⟩
  rw [parseAttrItem]
  generalize findUp mem (· = attrAssignOp) acstr.startp acstr.endp = p
  by_cases hp : p ≤ acstr.endp
  · simp only [if_pos hp]
    by_cases hvar : mem (p + 1) = varPrefix
    · have hne : p ≠ acstr.endp := by
        rintro rfl
        exact absurd (hended.symm.trans hvar) (by decide)
      exact .inl ⟨by omega, hvar, if_pos hvar⟩
    · exact .inr (.inl ⟨hp, hvar, if_neg hvar⟩)
  · exact .inr (.inr ⟨not_le.mp hp, if_neg hp⟩)

/-- Where the item is looked for in an incomplete word. -/
theorem parseAttrList_cases (h : Incomplete mem acstr) :
    ∃ q, LastDown mem (· = attrListSep) acstr.startp acstr.endp q ∧
      ((q = acstr.endp ∧
          parseAttrList mem acstr = (.attrname, { acstr with startp := q + 1, strtype := .null })) ∨
        (acstr.startp < q ∧ q < acstr.endp ∧
          parseAttrList mem acstr = parseAttrItem mem { acstr with startp := q + 1 }) ∨
        (q ≤ acstr.startp ∧ q < acstr.endp ∧
          parseAttrList mem acstr = parseAttrItem mem acstr)) := by
  have hnonempty := h.nonempty
  have hlast : LastDown mem (· = attrListSep) acstr.startp acstr.endp _ :=
    findDown_lastDown (by omega)
  have hhigh := hlast.high
  have hcomplete : acstr.strtype ≠ .complete := h.strtype ▸ by decide
  have hnull : acstr.strtype ≠ .null := h.strtype ▸ by decide
  refine ⟨_, hlast, ?_⟩
  rw [parseAttrList, if_neg hcomplete, if_neg hnull]
  generalize findDown mem (· = attrListSep) acstr.startp acstr.endp = q at hhigh ⊢
  rcases hhigh.eq_or_lt with hend | hlt
  · exact .inl ⟨hend, if_pos hend⟩
  · simp only [if_neg hlt.ne]
    by_cases hstart : acstr.startp < q
    · exact .inr (.inl ⟨hstart, hlt, if_pos hstart⟩)
    · exact .inr (.inr ⟨not_lt.mp hstart, hlt, if_neg hstart⟩)

/-- The scan up tells what the item is that `acstr` points to. -/
theorem parseAttrItem_token (acstr : AcStr) (hlow : acstr.startp ≤ acstr.endp + 1)
    (hended : mem (acstr.endp + 1) = nul) :
    ItemToken mem acstr.startp acstr.endp (parseAttrItem mem acstr).1
      (parseAttrItem mem acstr).2.startp := by
  obtain ⟨p, hfirst, ⟨hp, hvar, hparse⟩ | ⟨hp, hvar, hparse⟩ | ⟨hp, hparse⟩⟩ :=
    parseAttrItem_cases acstr hlow hended
  · rw [hparse]
    exact .rvarname p (hfirst.refAt_iff.mpr ⟨rfl, hp, hvar⟩)
  · rw [hparse]
    exact .attrval p hfirst.low hp (hfirst.stopped hp) fun q href =>
      hvar (hfirst.refAt_iff.mp href).2.2
  · rw [hparse]
    exact .attrname (hfirst.none_iff.mp hp)

/-- A token leaves the start of the item where it is, or is a reference. -/
theorem ItemToken.start {s e startp : ℤ} {tok : AcToktype} (h : ItemToken mem s e tok startp) :
    (startp = s ∧ ∀ p, ¬ RefAt mem s e p) ∨
      ∃ p, RefAt mem s e p ∧ tok = .rvarname ∧ startp = p + 2 := by
  cases h with
  | attrname noAssign =>
    refine .inl ⟨rfl, fun p href => noAssign p href.low ?_ href.assign⟩
    have := href.high
    omega
  | rvarname p ref => exact .inr ⟨p, ref, rfl, rfl⟩
  | attrval p low high assign noRef => exact .inl ⟨rfl, noRef⟩

/-- With the separator in front of the item. -/
theorem refAt_sep {s e p : ℤ} (hsep : mem s = attrListSep) :
    RefAt mem s e p ↔ RefAt mem (s + 1) e p := by
  have hassign : mem s ≠ attrAssignOp := hsep ▸ by decide
  constructor
  · intro href
    have hne : s ≠ p := fun heq => hassign (heq ▸ href.assign)
    have hlow := href.low
    exact ⟨by omega, href.high, href.assign, fun k hk => href.first k (by omega), href.var⟩
  · intro href
    have hlow := href.low
    refine ⟨by omega, href.high, href.assign, fun k hk hkp => ?_, href.var⟩
    rcases hk.eq_or_lt with rfl | hlt
    · exact hassign
    · exact href.first k (by omega) hkp

/-- A token found from the separator on is that of the item only for a reference. -/
theorem ItemToken.sep_iff {s e startp : ℤ} {tok : AcToktype} (h : ItemToken mem s e tok startp)
    (hsep : mem s = attrListSep) :
    ItemToken mem (s + 1) e tok startp ↔ ∃ p, RefAt mem (s + 1) e p := by
  constructor
  · intro hitem
    rcases hitem.start with ⟨hstart, hnone⟩ | ⟨p, href, -, -⟩
    · rcases h.start with ⟨hstart', -⟩ | ⟨p, href, -, -⟩
      · omega
      · exact absurd ((refAt_sep hsep).mp href) (hnone p)
    · exact ⟨p, href⟩
  · rintro ⟨p, href⟩
    rcases h.start with ⟨-, hnone⟩ | ⟨q, hq, rfl, rfl⟩
    · exact absurd ((refAt_sep hsep).mpr href) (hnone p)
    · exact .rvarname q ((refAt_sep hsep).mp hq)

/-- The last item is found unless the only separator comes first, with something behind it that is
no reference. -/
theorem parseAttrList_right (mem : ℤ → Char) (acstr : AcStr) (h : Incomplete mem acstr) :
    AttrRight mem acstr ↔ ¬ OnlyFirst mem acstr := by
  have hnonempty := h.nonempty
  obtain ⟨q, hlast, hcases⟩ := parseAttrList_cases h
  have hlow := hlast.low
  have hhigh := hlast.high
  simp only [AttrRight, lastItem_iff hlast, exists_eq_left]
  rcases hcases with ⟨hend, hparse⟩ | ⟨hstart, -, hparse⟩ | ⟨hstart, hend, hparse⟩
  · -- Nothing follows the last separator.
    rw [hparse]
    refine iff_of_true (.attrname fun k hk hk' => absurd hk (by omega)) fun hfirst => ?_
    have hmore := hfirst.more
    exact hfirst.only q (by omega) hhigh (hlast.stopped (by omega))
  · rw [hparse]
    refine iff_of_true ?_ fun hfirst => hfirst.only q hstart hhigh (hlast.stopped hstart.le)
    exact parseAttrItem_token { acstr with startp := q + 1 } (by simpa using hhigh) h.ended
  · have htoken := parseAttrItem_token acstr (by omega) h.ended
    rw [hparse]
    rcases hlow.eq_or_lt with hbelow | habove
    · -- There is no separator.
      obtain rfl : q = acstr.startp - 1 := hbelow.symm
      rw [sub_add_cancel]
      refine iff_of_true htoken fun hfirst => ?_
      exact hlast.after acstr.startp (by omega) hnonempty hfirst.first
    · obtain rfl : q = acstr.startp := by omega
      have hsep := hlast.stopped le_rfl
      rw [htoken.sep_iff hsep]
      constructor
      · rintro ⟨p, href⟩ hfirst
        exact hfirst.noRef p href
      · intro hnot
        by_contra hnone
        exact hnot ⟨hsep, hend, hlast.after, fun p href => hnone ⟨p, href⟩⟩

/-- `a=1,b` -/
theorem parseAttrList_second :
    AttrRight (lineChar ['a', '=', '1', ',', 'b']) ⟨0, 4, .incomplete⟩ := by
  refine (parseAttrList_right _ _ ⟨rfl, by decide, by decide, by decide⟩).mpr fun h => ?_
  exact absurd h.first (by decide)

/-- `eventgen ,r`: the word keeps its separator. -/
theorem parseAttrList_comma :
    parseUserInput ['e', 'v', 'e', 'n', 't', 'g', 'e', 'n', ' ', ',', 'r'] =
      [⟨0, 7, .complete⟩, ⟨9, 10, .incomplete⟩, ⟨nullPtr, nullPtr, .invalid⟩] ∧
    parseAttrList (lineChar ['e', 'v', 'e', 'n', 't', 'g', 'e', 'n', ' ', ',', 'r'])
      ⟨9, 10, .incomplete⟩ = (.attrname, ⟨9, 10, .incomplete⟩) ∧
    ¬ AttrRight (lineChar ['e', 'v', 'e', 'n', 't', 'g', 'e', 'n', ' ', ',', 'r'])
      ⟨9, 10, .incomplete⟩ := by
  refine ⟨by decide, by decide, ?_⟩
  rintro ⟨s, hlast, htoken⟩
  rcases htoken.start with ⟨hstart, -⟩ | ⟨p, -, htok, -⟩
  · exact hlast.last 9 hstart.ge (by decide) (by decide)
  · exact absurd htok (by decide)

/-! ## The strings of a line -/

variable {line : CString}

theorem lineChar_length (line : CString) : lineChar line line.length = nul :=
  List.getD_eq_default _ _ le_rfl

/-- A scan of the line that the null behind it stops. -/
theorem FirstUp.le_length {stop : Char → Prop} {p q : ℤ} (hnul : stop nul) (hp : p ≤ line.length)
    (h : FirstUp (lineChar line) stop p line.length q) : q ≤ line.length := by
  by_contra hgt
  exact h.none_iff.mp (not_le.mp hgt) _ hp le_rfl ((lineChar_length line).symm ▸ hnul)

theorem skipBlanks_firstUp {p : ℤ} (hp : p ≤ line.length) :
    FirstUp (lineChar line) (· ≠ ' ') p line.length (skipBlanks line p) :=
  findUp_firstUp (by omega)

theorem wordEnd_firstUp {p : ℤ} (hp : p ≤ line.length) :
    FirstUp (lineChar line) (fun c => c = ' ' ∨ c = nul) p line.length (wordEnd line p) :=
  findUp_firstUp (by omega)

theorem parseStrs_incomplete {n : ℕ} {p : ℤ} (hp : p ≤ line.length) {acstr : AcStr}
    (hmem : acstr ∈ parseStrs line n p) (htype : acstr.strtype = .incomplete) :
    Incomplete (lineChar line) acstr := by
  induction n generalizing p with
  | zero => exact absurd hmem List.not_mem_nil
  | succ n ih =>
    have hskip := skipBlanks_firstUp hp
    have hskip_le := hskip.le_length (by decide) hp
    have hend := wordEnd_firstUp hskip_le
    have hend_le := hend.le_length (.inr rfl) hskip_le
    have hunset : ∀ {a : AcStr}, a ∈ List.replicate n ⟨nullPtr, nullPtr, .invalid⟩ →
        a.strtype ≠ .incomplete := fun ha => List.eq_of_mem_replicate ha ▸ by decide
    simp only [parseStrs] at hmem
    split_ifs at hmem with hnul hstop
    · rcases List.mem_cons.mp hmem with rfl | hrest
      · exact AcStrtype.noConfusion htype
      · exact absurd htype (hunset hrest)
    · rcases List.mem_cons.mp hmem with rfl | hrest
      · have hlt : skipBlanks line p ≠ wordEnd line (skipBlanks line p) := by
          intro heq
          exact hnul (heq ▸ hstop)
        have hlow := hend.low
        refine ⟨rfl, by simp only; omega, ?_, fun k hk hk' => ?_⟩
        · simpa using hstop
        · simp only at hk hk'
          exact (not_or.mp (hend.before k hk (by omega))).2
      · exact absurd htype (hunset hrest)
    · rcases List.mem_cons.mp hmem with rfl | hrest
      · exact AcStrtype.noConfusion htype
      · exact ih hend_le hrest

/-- The string that the user is typing is one that `parseAttrList` expects. -/
theorem parseUserInput_incomplete {acstr : AcStr} (hmem : acstr ∈ parseUserInput line)
    (htype : acstr.strtype = .incomplete) : Incomplete (lineChar line) acstr :=
  parseStrs_incomplete (Int.natCast_nonneg _) hmem htype

/-! ## The rest of the result -/

/-- The word ends where it did, and is null exactly where nothing of it was typed. -/
structure WordOf (mem : ℤ → Char) (acstr acstr' : AcStr) : Prop where
  endp : acstr'.endp = acstr.endp
  low : acstr.startp ≤ acstr'.startp
  high : acstr'.startp ≤ acstr.endp + 1
  null_iff : acstr'.strtype = .null ↔ acstr'.startp = acstr.endp + 1

theorem Incomplete.wordOf (h : Incomplete mem acstr) : WordOf mem acstr acstr where
  endp := rfl
  low := le_rfl
  high := by
    have := h.nonempty
    omega
  null_iff := by
    have := h.nonempty
    exact iff_of_false (h.strtype ▸ by decide) (by omega)

theorem parseAttrItem_word (h : Incomplete mem acstr) :
    WordOf mem acstr (parseAttrItem mem acstr).2 := by
  have hnonempty := h.nonempty
  obtain ⟨p, hfirst, ⟨hp, -, hparse⟩ | ⟨-, -, hparse⟩ | ⟨-, hparse⟩⟩ :=
    parseAttrItem_cases acstr (by omega) h.ended
  · have hlow := hfirst.low
    rw [hparse]
    refine ⟨rfl, by simp only; omega, by simp only; omega, ?_⟩
    simp only [ne_eq, ite_not]
    by_cases hnul : mem (p + 2) = nul
    · rw [if_pos hnul]
      apply iff_of_true rfl
      by_contra hlt
      exact h.inside (p + 2) (by omega) (by omega) hnul
    · rw [if_neg hnul]
      refine iff_of_false (by decide) fun heq => hnul ?_
      rw [heq]
      exact h.ended
  · rw [hparse]
    exact h.wordOf
  · rw [hparse]
    exact h.wordOf

theorem parseAttrList_word (h : Incomplete mem acstr) :
    WordOf mem acstr (parseAttrList mem acstr).2 := by
  have hnonempty := h.nonempty
  obtain ⟨q, -, ⟨hend, hparse⟩ | ⟨hstart, hend, hparse⟩ | ⟨-, -, hparse⟩⟩ := parseAttrList_cases h
  · rw [hparse]
    exact ⟨rfl, by simp only; omega, by simp only; omega, iff_of_true rfl (by simp [hend])⟩
  · have hitem : Incomplete mem { acstr with startp := q + 1 } :=
      ⟨h.strtype, by simp only; omega, h.ended, fun k hk => h.inside k (by simp only at hk; omega)⟩
    obtain ⟨hendp, hlow, hhigh, hnull⟩ := parseAttrItem_word hitem
    rw [hparse]
    exact ⟨hendp, by simp only at hlow; omega, hhigh, hnull⟩
  · rw [hparse]
    exact parseAttrItem_word h

/-! ## The match -/

/-- The characters from `p` on, up to `endp`. -/
def typed (mem : ℤ → Char) (p endp : ℤ) : List Char :=
  (List.range (endp + 1 - p).toNat).map fun k : ℕ => mem (p + k)

theorem typed_past (mem : ℤ → Char) (endp : ℤ) : typed mem (endp + 1) endp = [] := by
  rw [typed, sub_self]
  rfl

theorem typed_cons {p endp : ℤ} (h : p ≤ endp) :
    typed mem p endp = mem p :: typed mem (p + 1) endp := by
  have hlen : (endp + 1 - p).toNat = (endp + 1 - (p + 1)).toNat + 1 := by omega
  rw [typed, hlen, List.range_succ_eq_map, List.map_cons, List.map_map, Nat.cast_zero, add_zero,
    typed]
  refine congrArg _ (List.map_congr_left fun k _ => congrArg mem ?_)
  push_cast
  ring

theorem compareLoop_eq_some {endp p : ℤ} {issub : Bool} {str rest : CString} (h : p ≤ endp + 1) :
    compareLoop mem endp issub str p = some rest ↔
      str = typed mem p endp ++ rest ∧ (issub = true ∨ rest = []) := by
  induction str generalizing p with
  | nil =>
    rw [compareLoop]
    rcases h.eq_or_lt with rfl | hlt
    · rw [if_pos rfl, typed_past, List.nil_append, Option.some_inj]
      exact ⟨fun heq => ⟨heq, .inr heq.symm⟩, And.left⟩
    · rw [if_neg hlt.ne, typed_cons (by omega)]
      exact iff_of_false (fun hnone => Option.some_ne_none _ hnone.symm)
        fun heq => List.cons_ne_nil _ _ heq.1.symm
  | cons c q ih =>
    rw [compareLoop]
    rcases h.eq_or_lt with rfl | hlt
    · rw [if_neg (by omega), typed_past, List.nil_append]
      simp only [true_and]
      split_ifs with hsub
      · rw [Option.some_inj]
        exact ⟨fun heq => ⟨heq, .inl hsub⟩, And.left⟩
      · apply iff_of_false id
        rintro ⟨rfl, hrest⟩
        exact hrest.elim hsub (List.cons_ne_nil _ _)
    · rw [if_pos (by omega), typed_cons (by omega), List.cons_append, List.cons.injEq, ite_not]
      split_ifs with hc
      · rw [ih (by omega), hc, eq_self, true_and]
      · exact iff_of_false id fun heq => hc heq.1.1.symm

theorem compareString_eq_some (h : acstr.startp ≤ acstr.endp + 1) {str rest : CString}
    {issub : Bool} : compareString mem acstr str issub = some rest ↔
      str = typed mem acstr.startp acstr.endp ++ rest ∧ (issub = true ∨ rest = []) :=
  compareLoop_eq_some h

/-- The separator stays in the word. -/
theorem parseAttrList_onlyFirst (h : Incomplete mem acstr) (hfirst : OnlyFirst mem acstr) :
    (parseAttrList mem acstr).2 = acstr := by
  have hmore := hfirst.more
  obtain ⟨q, hlast, ⟨hend, -⟩ | ⟨hstart, -, -⟩ | ⟨-, -, hparse⟩⟩ := parseAttrList_cases h
  · exact absurd (hlast.stopped (by omega)) (hfirst.only q (by omega) hend.le)
  · exact absurd (hlast.stopped hstart.le) (hfirst.only q hstart hlast.high)
  · obtain ⟨p, hscan, ⟨hp, hvar, -⟩ | ⟨-, -, hitem⟩ | ⟨-, hitem⟩⟩ :=
      parseAttrItem_cases acstr (by omega) h.ended
    · exact absurd ((refAt_sep hfirst.first).mp (hscan.refAt_iff.mpr ⟨rfl, hp, hvar⟩))
        (hfirst.noRef p)
    · rw [hparse, hitem]
    · rw [hparse, hitem]

/-- After a separator at the start no name is offered. -/
theorem parseAttrList_unmatched (h : Incomplete mem acstr) (hfirst : OnlyFirst mem acstr)
    {name : CString} (hname : attrListSep ∉ name) (issub : Bool) :
    compareString mem (parseAttrList mem acstr).2 name issub = none := by
  rw [parseAttrList_onlyFirst h hfirst]
  by_contra hsome
  obtain ⟨rest, hmatch⟩ := Option.ne_none_iff_exists'.mp hsome
  have hnonempty := h.nonempty
  obtain ⟨rfl, -⟩ := (compareString_eq_some (by omega)).mp hmatch
  rw [typed_cons hnonempty, hfirst.first] at hname
  exact hname (.head _)

end Filebench
