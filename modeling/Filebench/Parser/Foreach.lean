import Filebench.Flowop.Abort
import Filebench.Lib.Staged
import Filebench.Vars.Operation

/-! # The foreach command

The grammar acts on some commands when it reads them, leaves the work of others to the function
`cmd`, and sets no such function for some. At the top level a command is read and its function
called, if it has one; the body of a `foreach` is read once and its functions are called for each
value. -/
namespace Filebench

open Staged

/-- How the program ends within a command: it calls or reads through a null pointer, or divides
by zero, or it exits. -/
inductive Halt (S : Type) where
  | crash (s : S)
  | exit (s : S)

abbrev CmdAct (S : Type) := Act (Halt S) S

/-- What the actions of the grammar do to the state of the program. -/
structure ShellOps (S : Type) where
  assign : SetOp → S → S
  setMode : RMode → S → S
  setNousestats : S → S
  setDebugLevel : FbInt → S → S
  load : CString → CmdAct S

/-- The values of a `foreach`. -/
inductive ValueList where
  | integers (list : List FbInt)
  | strings (list : List CString)

/-- The commands of the grammar. The `set` commands with numbers and variables have a first
operand and more after it. Those whose action only prepares a function are left open: reading one
may make variables for its attributes. -/
inductive Command (S : Type) where
  | setInteger (tgt1 : CString) (first : Operand) (rest : List (FskOp × Operand))
  | setBoolean (tgt1 : CString) (b : Bool)
  | setString (tgt1 s : CString)
  | setMode (rmode : RMode)
  | setNousestats
  | debug (level : FbInt)
  | load (name : CString)
  | foreach (tgt1 : CString) (list : ValueList) (body : List (Command S))
  | other (read : S → Except (Halt S) (CmdAct S × S))

/-- The functions of the `set` commands with numbers. -/
inductive SetFunc where
  | null
  | parserSetInteger
  | parserSetVar
  | parserSetVarOpInt
  | parserSetIntOpVar
  | parserSetVarOpVar
  deriving DecidableEq, Repr

/-- What these commands use of `cmd_t`. -/
structure SetCmd where
  cmd : SetFunc
  cmdTgt1 : CString
  cmdTgt2 : Option CString
  cmdTgt3 : Option CString
  cmdQty : FbInt
  cmdSubtype : Option FskOp

variable {S : Type} (ops : ShellOps S)

/-- `set_integer_command` up to the first operand. -/
def setFirst (tgt1 : CString) (first : Operand) (s : S) : SetCmd × S :=
  match first with
  | .int qty => (⟨.parserSetInteger, tgt1, none, none, qty, none⟩, s)
  | .var tgt2 => (⟨.parserSetVar, tgt1, some tgt2, none, 0, none⟩, ops.assign (.var tgt1 tgt2) s)

/-- An operator between two integers is worked out at once. -/
def setIntOpInt (c : SetCmd) (op : FskOp) (n : FbInt) : Act (Halt S) S := fun s =>
  if op = .divide ∧ n = 0 then .error (.crash s)
  else .ok (ops.assign (.integer c.cmdTgt1 (op.eval c.cmdQty n)) s)

/-- `set_integer_command` with one more operator. -/
def setBinaryOp (c : SetCmd) (s : S) : FskOp × Operand → Except (Halt S) (SetCmd × S)
  | (op, .int n) =>
    if c.cmd = .parserSetInteger then do
      let s ← setIntOpInt ops c op n s
      .ok ({ c with cmd := .null }, s)
    else .ok ({ c with cmdQty := n, cmdSubtype := some op, cmd := .parserSetVarOpInt }, s)
  | (op, .var tgt3) =>
    .ok
      ({ c with
          cmdTgt3 := some tgt3
          cmdSubtype := some op
          cmd := if c.cmd = .parserSetInteger then .parserSetIntOpVar else .parserSetVarOpVar },
        s)

def setRest : List (FskOp × Operand) → SetCmd → S → Except (Halt S) (SetCmd × S)
  | [], c, s => .ok (c, s)
  | r :: rest, c, s => do
    let (c, s) ← setBinaryOp ops c s r
    setRest rest c s

/-- The functions `parser_set_...`. A missing variable is a null pointer. -/
def SetCmd.func (c : SetCmd) : Option (CmdAct S) :=
  match c.cmd with
  | .null => none
  | .parserSetInteger => some fun s => .ok (ops.assign (.integer c.cmdTgt1 c.cmdQty) s)
  | .parserSetVar => some fun s =>
    match c.cmdTgt2 with
    | some tgt2 => .ok (ops.assign (.var c.cmdTgt1 tgt2) s)
    | none => .error (.crash s)
  | .parserSetVarOpInt => some fun s =>
    match c.cmdSubtype, c.cmdTgt2 with
    | some op, some tgt2 => .ok (ops.assign (.varOpInt c.cmdTgt1 op tgt2 c.cmdQty) s)
    | some _, none => .error (.crash s)
    | none, _ => .ok s
  | .parserSetIntOpVar => some fun s =>
    match c.cmdSubtype, c.cmdTgt3 with
    | some op, some tgt3 => .ok (ops.assign (.intOpVar c.cmdTgt1 op c.cmdQty tgt3) s)
    | some _, none => .error (.crash s)
    | none, _ => .ok s
  | .parserSetVarOpVar => some fun s =>
    match c.cmdSubtype, c.cmdTgt2, c.cmdTgt3 with
    | some op, some tgt2, some tgt3 => .ok (ops.assign (.varOpVar c.cmdTgt1 op tgt2 tgt3) s)
    | some _, _, _ => .error (.crash s)
    | none, _, _ => .ok s

/-- The common part of the two loops: the assignments of the values, each followed by the inner
commands. -/
def parserForeach (cmdList : List (Option (CmdAct S))) : List SetOp → CmdAct S
  | [], s => .ok s
  | op :: list, s => do
    let s ← callAll Halt.crash cmdList (ops.assign op s)
    parserForeach cmdList list s

def ValueList.assigns (tgt1 : CString) : ValueList → List SetOp
  | .integers list => list.map (.integer tgt1)
  | .strings list => list.map (.string tgt1)

mutual

/-- The action of the grammar on a command. -/
def Command.read : Command S → Phrase (Halt S) S
  | .setInteger tgt1 first rest => fun s => do
    let (c, s) := setFirst ops tgt1 first s
    let (c, s) ← setRest ops rest c s
    .ok (c.func ops, s)
  | .setBoolean tgt1 b => fun s => .ok (none, ops.assign (.boolean tgt1 b) s)
  | .setString tgt1 str => fun s => .ok (none, ops.assign (.string tgt1 str) s)
  | .setMode rmode => fun s => .ok (none, ops.setMode rmode s)
  | .setNousestats => fun s => .ok (none, ops.setNousestats s)
  | .debug level => fun s => .ok (none, ops.setDebugLevel level s)
  | .load name => fun s => do
    let s ← ops.load name s
    .ok (none, s)
  | .foreach tgt1 list body => fun s => do
    let (cmdList, s) ← prepareAll (readAll body) s
    .ok (some (parserForeach ops cmdList (list.assigns tgt1)), s)
  | .other read => fun s => do
    let (k, s) ← read s
    .ok (some k, s)

def readAll : List (Command S) → List (Phrase (Halt S) S)
  | [] => []
  | c :: cs => c.read :: readAll cs

end

/-- Commands at the top level, one after the other. -/
def commands (cs : List (Command S)) : CmdAct S := runAll (readAll ops cs)

/-- The set command for one value. -/
def ValueList.sets (tgt1 : CString) : ValueList → List (Command S)
  | .integers list => list.map fun n => .setInteger tgt1 (.int n) []
  | .strings list => list.map (.setString tgt1)

/-- The commands that `foreach $tgt1 in list { body }` stands for. -/
def unrolled (tgt1 : CString) (list : ValueList) (body : List (Command S)) : List (Command S) :=
  (list.sets tgt1).flatMap fun set => set :: body

/-! ## Reading and calling -/

section

variable {ops : ShellOps S} {I : S → Prop}

theorem readAll_append (cs cs' : List (Command S)) :
    readAll ops (cs ++ cs') = readAll ops cs ++ readAll ops cs' := by
  induction cs with
  | nil => rfl
  | cons c cs ih => rw [List.cons_append, readAll, readAll, ih, List.cons_append]

theorem commands_append (cs cs' : List (Command S)) (s : S) :
    commands ops (cs ++ cs') s = commands ops cs s >>= commands ops cs' := by
  rw [commands, readAll_append, runAll_append]
  rfl

/-- Which commands only prepare a function, whatever the state: those that set an integer, or an
integer and a variable. -/
theorem deferred_setInteger (tgt1 : CString) (n : FbInt) :
    Deferred I ((Command.setInteger tgt1 (.int n) []).read ops)
      fun s => .ok (ops.assign (.integer tgt1 n) s) := by
  intro s _
  rw [Command.read]
  rfl

theorem deferred_setIntOpVar (tgt1 : CString) (n : FbInt) (op : FskOp) (src1 : CString) :
    Deferred I ((Command.setInteger tgt1 (.int n) [(op, .var src1)]).read ops)
      fun s => .ok (ops.assign (.intOpVar tgt1 op n src1) s) := by
  intro s _
  rw [Command.read]
  rfl

theorem deferred_foreach (tgt1 : CString) (list : ValueList) {body : List (Command S)}
    {ks : List (CmdAct S)} (h : List.Forall₂ (Deferred I) (readAll ops body) ks) :
    Deferred I ((Command.foreach tgt1 list body).read ops)
      (parserForeach ops (ks.map some) (list.assigns tgt1)) := by
  intro s hs
  rw [Command.read]
  change (prepareAll (readAll ops body) s >>= fun x => _) = _
  rw [prepareAll_deferred h hs]
  rfl

theorem commands_single (c : Command S) (s : S) :
    commands ops [c] s = Phrase.run (c.read ops) s := by
  rw [commands, readAll, readAll, runAll]
  exact bind_pure _

/-- A set command at the top level, with what comes after it. -/
theorem commands_setInteger (tgt1 : CString) (n : FbInt) (cs : List (Command S)) (s : S) :
    commands ops (.setInteger tgt1 (.int n) [] :: cs) s =
      commands ops cs (ops.assign (.integer tgt1 n) s) := by
  rw [commands, readAll, runAll, (deferred_setInteger (I := fun _ => True) tgt1 n).run trivial]
  rfl

theorem commands_setString (tgt1 str : CString) (cs : List (Command S)) (s : S) :
    commands ops (.setString tgt1 str :: cs) s =
      commands ops cs (ops.assign (.string tgt1 str) s) := by
  rw [commands, readAll, runAll, Command.read]
  rfl

/-- One value after the other: both orders of reading come to the same. -/
theorem parserForeach_eq {body : List (Command S)} {ks : List (CmdAct S)} {α : Type}
    (assign : α → SetOp) (set : α → Command S)
    (hset : ∀ a cs s, commands ops (set a :: cs) s = commands ops cs (ops.assign (assign a) s))
    (hbody : List.Forall₂ (Deferred I) (readAll ops body) ks) (hks : ∀ k ∈ ks, Keeps I k)
    (list : List α) (hassign : ∀ a ∈ list, ∀ s, I s → I (ops.assign (assign a) s)) {s : S}
    (hs : I s) :
    parserForeach ops (ks.map some) (list.map assign) s =
      commands ops ((list.map set).flatMap fun set => set :: body) s := by
  induction list generalizing s with
  | nil => rfl
  | cons a list ih =>
    have hs₁ := hassign a (.head _) s hs
    rw [List.map_cons, List.map_cons, List.flatMap_cons, List.cons_append, hset, commands_append,
      commands, runAll_deferred hbody hks hs₁, parserForeach]
    cases hcall : callAll Halt.crash (ks.map some) (ops.assign (assign a) s) with
    | error e => rfl
    | ok s' =>
      have hs' := callAll_keeps hks _ s' hs₁ hcall
      exact ih (fun a ha => hassign a (.tail _ ha)) hs'

/-- A `foreach` does what its body does after each of its set commands, where reading the commands
of the body would at no time do or prepare anything else than at the first. -/
theorem foreach_unrolled (ops : ShellOps S) {tgt1 : CString} {list : ValueList}
    {body : List (Command S)} {ks : List (CmdAct S)}
    (hbody : List.Forall₂ (Deferred I) (readAll ops body) ks) (hks : ∀ k ∈ ks, Keeps I k)
    (hassign : ∀ op ∈ list.assigns tgt1, ∀ s, I s → I (ops.assign op s)) {s : S} (hs : I s) :
    commands ops [.foreach tgt1 list body] s = commands ops (unrolled tgt1 list body) s := by
  rw [commands_single, (deferred_foreach tgt1 list hbody).run hs]
  cases list with
  | integers list =>
    refine parserForeach_eq (.integer tgt1) (fun n => .setInteger tgt1 (.int n) [])
      (commands_setInteger tgt1) hbody hks list ?_ hs
    intro n hn
    exact hassign _ (List.mem_map_of_mem hn)
  | strings list =>
    refine parserForeach_eq (.string tgt1) (.setString tgt1)
      (commands_setString tgt1) hbody hks list ?_ hs
    intro str hstr
    exact hassign _ (List.mem_map_of_mem hstr)

/-- The commands for which the grammar sets no function. -/
def Command.Null : Command S → Prop
  | .setBoolean _ _ | .setString _ _ | .setMode _ | .setNousestats | .debug _ | .load _ => True
  | .setInteger _ (.int _) [(_, .int _)] => True
  | _ => False

/-- An operator between two integers leaves no function. -/
theorem read_setIntOpInt (tgt1 : CString) (n m : FbInt) (op : FskOp) (s : S) :
    (Command.setInteger tgt1 (.int n) [(op, .int m)]).read ops s =
      (setIntOpInt ops ⟨.parserSetInteger, tgt1, none, none, n, none⟩ op m s).map (none, ·) := by
  rw [Command.read]
  simp only [setFirst, setRest, setBinaryOp, if_true]
  cases setIntOpInt ops ⟨.parserSetInteger, tgt1, none, none, n, none⟩ op m s with
  | error e => rfl
  | ok s' => rfl

theorem Command.Null.read {c : Command S} (h : c.Null) {s s' : S} {k : Option (CmdAct S)}
    (hread : c.read ops s = .ok (k, s')) : k = none := by
  unfold Command.Null at h
  split at h
  case h_6 name =>
    rw [Command.read] at hread
    change (ops.load name s >>= fun s => .ok (none, s)) = _ at hread
    cases hload : ops.load name s with
    | error e =>
      rw [hload] at hread
      cases hread
    | ok s₁ =>
      rw [hload] at hread
      cases hread
      rfl
  case h_7 tgt1 n op m =>
    rw [read_setIntOpInt] at hread
    cases hset : setIntOpInt ops ⟨.parserSetInteger, tgt1, none, none, n, none⟩ op m s with
    | error e =>
      rw [hset] at hread
      cases hread
    | ok s₁ =>
      rw [hset] at hread
      cases hread
      rfl
  case h_8 => cases h
  all_goals
    rw [Command.read] at hread
    cases hread
    rfl

theorem mem_readAll {c : Command S} {cs : List (Command S)} (h : c ∈ cs) :
    c.read ops ∈ readAll ops cs := by
  induction cs with
  | nil => cases h
  | cons c' cs ih =>
    rw [readAll]
    cases h with
    | head => exact .head _
    | tail _ h => exact .tail _ (ih h)

theorem run_foreach (tgt1 : CString) (list : ValueList) (body : List (Command S)) (s : S) :
    commands ops [.foreach tgt1 list body] s =
      (prepareAll (readAll ops body) s >>= fun x =>
        parserForeach ops x.1 (list.assigns tgt1) x.2) := by
  rw [commands_single, Phrase.run, Command.read]
  cases hprep : prepareAll (readAll ops body) s with
  | error e =>
    simp only [hprep]
    rfl
  | ok x =>
    simp only [hprep]
    rfl

/-- A `foreach` with such a command in its body never comes to its end. -/
theorem foreach_null {c : Command S} {body : List (Command S)} (hc : c ∈ body) (hnull : c.Null)
    {tgt1 : CString} {list : ValueList} (hlist : list.assigns tgt1 ≠ []) (s s' : S) :
    commands ops [.foreach tgt1 list body] s ≠ .ok s' := by
  rw [run_foreach]
  cases hprep : prepareAll (readAll ops body) s with
  | error e => nofun
  | ok x =>
    have hmem : none ∈ x.1 := prepareAll_null (mem_readAll hc) (fun _ _ _ => hnull.read) hprep
    change parserForeach ops x.1 (list.assigns tgt1) x.2 ≠ .ok s'
    cases hassigns : list.assigns tgt1 with
    | nil => exact absurd hassigns hlist
    | cons op list =>
      rw [parserForeach]
      cases hcall : callAll Halt.crash x.1 (ops.assign op x.2) with
      | error e => nofun
      | ok s₂ => exact absurd hcall (callAll_null hmem _ _)

end

/-! ## The variables and the modes -/

/-- The part of the program's state that the grammar writes itself. -/
structure Shell (D : Type) where
  shm : VarShm D
  rmode : RMode
  nousestats : Bool
  debugLevel : FbInt

/-- Loaded files are left to the lexer. -/
def shellOps (D : Type) : ShellOps (Shell D) where
  assign op s := { s with shm := (op.apply s.shm).2 }
  setMode rmode s := { s with rmode := rmode }
  setNousestats s := { s with nousestats := true }
  setDebugLevel level s := { s with debugLevel := level }
  load _ s := .ok s

def noShell : Shell ℚ := ⟨noVars, .timeout, false, 0⟩

/-- `foreach $v in 1,2 { set $a = 5 + $v }` -/
theorem foreach_unrolled_sum :
    commands (shellOps ℚ) [.foreach ['v'] (.integers [1, 2])
      [.setInteger ['a'] (.int 5) [(.plus, .var ['v'])]]] noShell =
    commands (shellOps ℚ) (unrolled ['v'] (.integers [1, 2])
      [.setInteger ['a'] (.int 5) [(.plus, .var ['v'])]]) noShell := by
  refine foreach_unrolled (I := fun _ => True) (shellOps ℚ)
    (.cons (deferred_setIntOpVar ['a'] 5 .plus ['v']) .nil) ?_ ?_ trivial
  · intro k _ s s' _ _
    trivial
  · intro op _ s _
    trivial

/-- `foreach $v in 1 { set $b = true }` calls a null pointer, and the unrolled commands make `$b`
a boolean. -/
theorem foreach_setBoolean : ∃ s s' p,
    commands (shellOps ℚ) [.foreach ['v'] (.integers [1]) [.setBoolean ['b'] true]] noShell =
      .error (.crash s) ∧
    commands (shellOps ℚ) (unrolled ['v'] (.integers [1]) [.setBoolean ['b'] true]) noShell =
      .ok s' ∧
    varFind s'.shm ['b'] = some p ∧ varHasBoolean (s'.shm.var p) :=
  ⟨_, _, 2, rfl, rfl, rfl, rfl⟩

end Filebench
