import Filebench.Lib.CString
import Filebench.Lib.Returns

/-! # Loading scripts

`load` switches the lexer to the buffer of another file and keeps the way back in two globals,
and `yywrap` goes that way once. A file that loads another one overwrites its own way back. -/
namespace Filebench

open Fuel

variable {T : Type}

/-- A script as the lexer sees it: load commands and all other tokens. -/
inductive Item (T : Type) where
  | token (t : T)
  | load (name : CString)

/-- A file system: what the files that can be opened hold. -/
abbrev Fopen (T : Type) := CString → Option (List (Item T))

/-- The lexer of flex with its buffers, each of which keeps what is left of it, and the globals
behind `load`. Files and their buffers are numbered as they are opened. -/
structure Lexer (T : Type) where
  yyin : ℕ
  parentscript : Option ℕ
  script : ℕ
  current : ℕ
  left : ℕ → List (Item T)
  opened : ℕ
  lexed : List T

/-- How the lexing of a script ends, with the tokens so far. -/
inductive LexEnd (T : Type) where
  | eof (lexed : List T)
  | aborted (lexed : List T)

/-- The file of a load command: the one in the working directory, or else that of the installed
workloads. -/
def loadFile (fopen : Fopen T) (fbbasepath name : CString) : Option (List (Item T)) :=
  match fopen (name ++ ".f".toList) with
  | some newfile => some newfile
  | none => fopen (fbbasepath ++ "/workloads/".toList ++ name ++ ".f".toList)

def yySwitchfileparent (newfile : List (Item T)) (s : Lexer T) : Lexer T :=
  { s with
    script := s.current
    current := s.opened
    left := Function.update s.left s.opened newfile
    opened := s.opened + 1 }

def yySwitchfilescript (s : Lexer T) : Lexer T := { s with current := s.script }

def loadCommand (newfile : List (Item T)) (s : Lexer T) : Lexer T :=
  yySwitchfileparent newfile { s with parentscript := some s.yyin, yyin := s.opened }

/-- At the end of a file: back to the script that loaded it, or none. -/
def yywrap (s : Lexer T) : Option (Lexer T) :=
  match s.parentscript with
  | some file => some { yySwitchfilescript { s with yyin := file } with parentscript := none }
  | none => none

/-- Some tokens were taken from the current buffer, and less is left in it. -/
def Lexer.advance (s : Lexer T) (ts : List T) (rest : List (Item T)) : Lexer T :=
  { s with left := Function.update s.left s.current rest, lexed := s.lexed ++ ts }

/-- The next token, the next load command, or the end of a file. -/
def lexStep (fopen : Fopen T) (fbbasepath : CString) (s : Lexer T) : Lexer T ⊕ LexEnd T :=
  match s.left s.current with
  | .token t :: rest => .inl (s.advance [t] rest)
  | .load name :: rest =>
    match loadFile fopen fbbasepath name with
    | some newfile => .inl (loadCommand newfile (s.advance [] rest))
    | none => .inr (.aborted s.lexed)
  | [] =>
    match yywrap s with
    | some s => .inl s
    | none => .inr (.eof s.lexed)

def lexAll (fopen : Fopen T) (fbbasepath : CString) : ℕ → Lexer T → Option (LexEnd T)
  | 0, _ => none
  | fuel + 1, s =>
    match lexStep fopen fbbasepath s with
    | .inl s => lexAll fopen fbbasepath fuel s
    | .inr r => some r

/-- At the beginning of a script. -/
def Lexer.start (items : List (Item T)) : Lexer T :=
  ⟨0, none, 0, 0, fun _ => items, 1, []⟩

/-! ## Nested scripts -/

section

variable (fopen : Fopen T) (fbbasepath : CString)

/-- The script nests files to a finite depth, and these are its tokens, with those of a loaded
file in place of the command that loads it. -/
inductive Expands : List (Item T) → List T → Prop where
  | nil : Expands [] []
  | token (t : T) {rest ts} : Expands rest ts → Expands (.token t :: rest) (t :: ts)
  | load {name newfile rest ts us} : loadFile fopen fbbasepath name = some newfile →
      Expands newfile ts → Expands rest us → Expands (.load name :: rest) (ts ++ us)

def Loads (items : List (Item T)) : Prop := ∃ name, .load name ∈ items

/-- Where a loaded file loads others, nothing is left to lex after the command that loads it. -/
inductive Intact : List (Item T) → Prop where
  | nil : Intact []
  | token (t : T) {rest} : Intact rest → Intact (.token t :: rest)
  | load {name newfile rest} : loadFile fopen fbbasepath name = some newfile →
      ¬ Loads newfile → Intact rest → Intact (.load name :: rest)
  | last {name newfile rest} : loadFile fopen fbbasepath name = some newfile →
      Loads newfile → Intact newfile → Expands fopen fbbasepath rest [] →
      Intact (.load name :: rest)

end

section

variable {fopen : Fopen T} {fbbasepath : CString} {items : List (Item T)} {ts : List T}

theorem Expands.unique {us : List T} (h : Expands fopen fbbasepath items ts)
    (h' : Expands fopen fbbasepath items us) : ts = us := by
  induction h generalizing us with
  | nil =>
    cases h'
    rfl
  | token t _ ih =>
    cases h' with
    | token _ h' => rw [ih h']
  | load hfile _ _ ihfile ih =>
    cases h' with
    | load hfile' hnew' h' =>
      obtain rfl := Option.some.inj (hfile.symm.trans hfile')
      rw [ihfile hnew', ih h']

theorem lexAll_step {s s' : Lexer T} {r : LexEnd T} (h : lexStep fopen fbbasepath s = .inl s')
    (hr : Returns (fun fuel => lexAll fopen fbbasepath fuel s') r) :
    Returns (fun fuel => lexAll fopen fbbasepath fuel s) r := by
  apply Returns.of_succ
  simp only [lexAll, h]
  exact hr

theorem lexAll_end {s : Lexer T} {r : LexEnd T} (h : lexStep fopen fbbasepath s = .inr r) :
    Returns (fun fuel => lexAll fopen fbbasepath fuel s) r := by
  apply Returns.of_succ
  simp only [lexAll, h]
  exact returns_of_const fun _ => rfl

theorem lexStep_token {s : Lexer T} {t : T} {rest : List (Item T)}
    (h : s.left s.current = .token t :: rest) :
    lexStep fopen fbbasepath s = .inl (s.advance [t] rest) := by
  simp only [lexStep, h]

theorem lexStep_load {s : Lexer T} {name : CString} {newfile rest : List (Item T)}
    (h : s.left s.current = .load name :: rest)
    (hfile : loadFile fopen fbbasepath name = some newfile) :
    lexStep fopen fbbasepath s = .inl (loadCommand newfile (s.advance [] rest)) := by
  simp only [lexStep, h, hfile]

theorem lexStep_wrap {s s' : Lexer T} (h : s.left s.current = []) (hwrap : yywrap s = some s') :
    lexStep fopen fbbasepath s = .inl s' := by
  simp only [lexStep, h, hwrap]

theorem lexStep_eof {s : Lexer T} (h : s.left s.current = []) (hwrap : yywrap s = none) :
    lexStep fopen fbbasepath s = .inr (.eof s.lexed) := by
  simp only [lexStep, h, hwrap]

theorem Lexer.advance_nil {s : Lexer T} (h : s.left s.current = []) : s.advance [] [] = s := by
  rw [Lexer.advance, ← h, Function.update_eq_self, List.append_nil]

theorem Lexer.advance_advance (s : Lexer T) (ts us : List T) (rest rest' : List (Item T)) :
    (s.advance ts rest).advance us rest' = s.advance (ts ++ us) rest' := by
  simp only [Lexer.advance, Function.update_idem, List.append_assoc]

theorem Lexer.left_advance (s : Lexer T) (ts : List T) (rest : List (Item T)) :
    (s.advance ts rest).left (s.advance ts rest).current = rest := Function.update_self ..

theorem not_loads_of_token {t : T} {rest : List (Item T)} (h : ¬ Loads (.token t :: rest)) :
    ¬ Loads rest := by
  rintro ⟨name, hname⟩
  exact h ⟨name, .tail _ hname⟩

theorem loads_of_token {t : T} {rest : List (Item T)} (h : Loads (.token t :: rest)) :
    Loads rest := by
  obtain ⟨name, hname⟩ := h
  cases hname with
  | tail _ hname => exact ⟨name, hname⟩

/-- A file that loads nothing is lexed in full, and then its way back is taken. -/
theorem lexAll_leaf (h : Expands fopen fbbasepath items ts) (hno : ¬ Loads items)
    {s s' : Lexer T} {r : LexEnd T} (hleft : s.left s.current = items)
    (hwrap : yywrap (s.advance ts []) = some s')
    (hr : Returns (fun fuel => lexAll fopen fbbasepath fuel s') r) :
    Returns (fun fuel => lexAll fopen fbbasepath fuel s) r := by
  induction h generalizing s with
  | nil =>
    rw [Lexer.advance_nil hleft] at hwrap
    exact lexAll_step (lexStep_wrap hleft hwrap) hr
  | @token t rest ts _ ih =>
    apply lexAll_step (lexStep_token hleft)
    apply ih (not_loads_of_token hno) (s.left_advance [t] rest)
    rwa [Lexer.advance_advance]
  | load => exact absurd ⟨_, .head _⟩ hno

theorem Intact.token_iff {t : T} {rest : List (Item T)} :
    Intact fopen fbbasepath (.token t :: rest) ↔ Intact fopen fbbasepath rest := by
  constructor
  · intro h
    cases h with
    | token _ h => exact h
  · exact Intact.token t

theorem Intact.load_leaf_iff {name : CString} {newfile rest : List (Item T)}
    (hfile : loadFile fopen fbbasepath name = some newfile) (hno : ¬ Loads newfile) :
    Intact fopen fbbasepath (.load name :: rest) ↔ Intact fopen fbbasepath rest := by
  constructor
  · intro h
    cases h with
    | load _ _ h => exact h
    | last hfile' hloads =>
      obtain rfl := Option.some.inj (hfile.symm.trans hfile')
      exact absurd hloads hno
  · exact Intact.load hfile hno

theorem Intact.load_last_iff {name : CString} {newfile rest : List (Item T)}
    (hfile : loadFile fopen fbbasepath name = some newfile) (hloads : Loads newfile) :
    Intact fopen fbbasepath (.load name :: rest) ↔
      Intact fopen fbbasepath newfile ∧ Expands fopen fbbasepath rest [] := by
  constructor
  · intro h
    cases h with
    | load hfile' hno =>
      obtain rfl := Option.some.inj (hfile.symm.trans hfile')
      exact absurd hloads hno
    | last hfile' _ hnew hrest =>
      obtain rfl := Option.some.inj (hfile.symm.trans hfile')
      exact ⟨hnew, hrest⟩
  · rintro ⟨hnew, hrest⟩
    exact .last hfile hloads hnew hrest

theorem Lexer.left_loadCommand (s : Lexer T) (newfile : List (Item T)) :
    (loadCommand newfile s).left (loadCommand newfile s).current = newfile :=
  Function.update_self ..

/-- The end of a loaded file that loads nothing. -/
theorem yywrap_loadCommand {s : Lexer T} (newfile rest : List (Item T)) (ts : List T)
    (hcurrent : s.current < s.opened) :
    ∃ s', yywrap ((loadCommand newfile (s.advance [] rest)).advance ts []) = some s' ∧
      s'.left s'.current = rest ∧ s'.current < s'.opened ∧ s'.parentscript = none ∧
      s'.lexed = s.lexed ++ ts := by
  refine ⟨_, rfl, ?_, ?_, rfl, ?_⟩
  · have hne : s.current ≠ s.opened := hcurrent.ne
    simp [Lexer.advance, loadCommand, yySwitchfileparent, yySwitchfilescript, hne]
  · exact hcurrent.trans (Nat.lt_succ_self _)
  · simp [Lexer.advance, loadCommand, yySwitchfileparent, yySwitchfilescript]

/-- Whoever has no way back lexes all of a script and stops, and who loads a file has none. -/
theorem lexAll_expands (h : Expands fopen fbbasepath items ts) {s : Lexer T}
    (hleft : s.left s.current = items) (hcurrent : s.current < s.opened)
    (hback : s.parentscript = none ∨ Loads items) :
    ∃ us, Returns (fun fuel => lexAll fopen fbbasepath fuel s) (.eof (s.lexed ++ us)) ∧
      us <+: ts ∧ (us = ts ↔ Intact fopen fbbasepath items) := by
  induction h generalizing s with
  | nil =>
    have hparent : s.parentscript = none := by
      rcases hback with hparent | ⟨name, hname⟩
      · exact hparent
      · cases hname
    refine ⟨[], ?_, List.prefix_rfl, ⟨fun _ => .nil, fun _ => rfl⟩⟩
    rw [List.append_nil]
    exact lexAll_end (lexStep_eof hleft (by simp only [yywrap, hparent]))
  | @token t rest ts _ ih =>
    obtain ⟨us, hr, hprefix, hiff⟩ := ih (s := s.advance [t] rest) (s.left_advance [t] rest)
      hcurrent (hback.imp id loads_of_token)
    refine ⟨t :: us, ?_, List.cons_prefix_cons.mpr ⟨rfl, hprefix⟩, ?_⟩
    · apply lexAll_step (lexStep_token hleft)
      simpa [Lexer.advance] using hr
    · rw [Intact.token_iff, ← hiff]
      simp
  | @load name newfile rest ts us hfile hnew hrest ihnew ih =>
    have hstep := lexStep_load hleft hfile
    by_cases hloads : Loads newfile
    · obtain ⟨vs, hr, hprefix, hiff⟩ := ihnew (s := loadCommand newfile (s.advance [] rest))
        (Lexer.left_loadCommand _ _) (Nat.lt_succ_self _) (.inr hloads)
      refine ⟨vs, ?_, hprefix.trans (List.prefix_append ts us), ?_⟩
      · apply lexAll_step hstep
        simpa [Lexer.advance, loadCommand, yySwitchfileparent] using hr
      · rw [Intact.load_last_iff hfile hloads, ← hiff]
        constructor
        · rintro rfl
          have hlen := hprefix.length_le
          rw [List.length_append] at hlen
          obtain rfl : us = [] := List.eq_nil_of_length_eq_zero (by omega)
          exact ⟨List.append_nil ts, hrest⟩
        · rintro ⟨rfl, hnil⟩
          rw [hrest.unique hnil, List.append_nil]
    · obtain ⟨s', hwrap, hleft', hcurrent', hparent', hlexed⟩ :=
        yywrap_loadCommand newfile rest ts hcurrent
      obtain ⟨vs, hr, hprefix, hiff⟩ := ih hleft' hcurrent' (.inl hparent')
      refine ⟨ts ++ vs, ?_, (List.prefix_append_right_inj ts).mpr hprefix, ?_⟩
      · apply lexAll_step hstep
        apply lexAll_leaf hnew hloads (Lexer.left_loadCommand _ _) hwrap
        rwa [hlexed, List.append_assoc] at hr
      · rw [Intact.load_leaf_iff hfile hloads, ← hiff, List.append_cancel_left_eq]

/-- A script that nests files to any finite depth is lexed to an end, and in full just when it
is intact. -/
theorem lexAll_iff_intact (h : Expands fopen fbbasepath items ts) :
    ∃ us, Returns (fun fuel => lexAll fopen fbbasepath fuel (.start items)) (.eof us) ∧
      (us = ts ↔ Intact fopen fbbasepath items) := by
  obtain ⟨us, hr, -, hiff⟩ :=
    lexAll_expands h (s := .start items) rfl Nat.zero_lt_one (.inl rfl)
  exact ⟨us, hr, hiff⟩

end

/-- Three scripts: `a` loads `b`, which loads `c`. -/
def scripts : Fopen ℕ := fun name =>
  if name = "a.f".toList then some [.load ['b'], .token 1]
  else if name = "b.f".toList then some [.load ['c'], .token 2]
  else if name = "c.f".toList then some [.token 3]
  else none

theorem scripts_c : loadFile scripts [] ['c'] = some [.token 3] := rfl

theorem expands_b : Expands scripts [] [.load ['c'], .token 2] ([3] ++ [2]) :=
  .load scripts_c (.token 3 .nil) (.token 2 .nil)

/-- `b` is lexed in full. -/
theorem lexAll_iff_intact_b : ∃ us,
    Returns (fun fuel => lexAll scripts [] fuel (.start [.load ['c'], .token 2])) (.eof us) ∧
      (us = [3, 2] ↔ Intact scripts [] [.load ['c'], .token 2]) :=
  lexAll_iff_intact expands_b

/-- `a` is not. -/
theorem lexAll_nested_short :
    Expands scripts [] [.load ['b'], .token 1] [3, 2, 1] ∧
      Returns (fun fuel => lexAll scripts [] fuel (.start [.load ['b'], .token 1]))
        (.eof [3, 2]) := by
  constructor
  · have hload : Expands scripts [] [.load ['b'], .token 1] ([3, 2] ++ [1]) :=
      .load rfl expands_b (.token 1 .nil)
    exact hload
  · refine ⟨7, fun fuel hfuel => ?_⟩
    obtain ⟨k, rfl⟩ := Nat.exists_eq_add_of_le' hfuel
    rfl

end Filebench
