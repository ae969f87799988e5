import Bklib.Model.OptArgv

/-!
# `Bklib.Proofs.OptGetArgv`: calls of `opt_get_argv`, one after the other

A call does what it is for (`OptCallOk`) in all but three cases (`OptFits`): the argument is empty, the
option is not in the table, or a number is missing where the type asks for one. `strchr` finds the
terminator of `"-"` too, so that an empty argument is taken for an option, an unknown option is not
passed by, and the error of a bad number is overwritten. `optCallOk_iff` is about one call, and
`optGetArgv_run_iff` about all of them, from the first argument on.
-/

set_option autoImplicit false

namespace Bklib

open Lib

variable {δ : Type}

/-! ### Arguments -/

/-- The name in an argument that starts with a `-`, behind one or two of them. -/
def optArgName (arg : List UInt8) : List UInt8 :=
  if arg[1]? = some 45 then arg.drop 2 else arg.drop 1

/-- An argument that names an option: it starts with a `-`, and is not `--`. -/
def OptNames (arg : List UInt8) : Prop := arg.head? = some 45 ∧ arg ≠ bytes "--"

/-- The option of a table that an argument names. -/
def optNamedBy (opts : List OptSetT) (arg : List UInt8) : Option OptSetT :=
  opts.find? fun o => strcmp (optArgName arg) o.name = 0

/-- A value that is no number, for a type that asks for one. -/
def OptType.NoNumber (strtod : List UInt8 → δ × Nat) : OptType → List UInt8 → Prop
  | .int,   v => (strtol v).2 = 0
  | .uint,  v => (strtoul v).2 = 0
  | .real,  v => (strtod v).2 = 0
  | .flag,  _ => False
  | .str,   _ => False
  | .other, _ => False

section Calls

variable (strtod : List UInt8 → δ × Nat) (opts : List OptSetT) (argv : List (List UInt8))

/-- A call does what it is for. -/
structure OptCallOk (opt : OptIter δ) : Prop where
  /-- It goes on in the vector, or says that it is at the end. -/
  moves : opt.argi < (optGetArgv strtod opts argv opt).opt.argi ∨
    (optGetArgv strtod opts argv opt).ret = OptError.atEnd.code
  /-- A number is asked for, and there is none. -/
  bad : ∀ arg o v, argv[opt.argi]? = some arg → OptNames (cstr arg) →
    optNamedBy opts (cstr arg) = some o → argv[opt.argi + 1]? = some v →
    o.type.NoNumber strtod (cstr v) →
    (optGetArgv strtod opts argv opt).ret = OptError.bad.code
  /-- An argument that is no option ends them. -/
  ends : ∀ arg, argv[opt.argi]? = some arg → (cstr arg).head? ≠ some 45 →
    (optGetArgv strtod opts argv opt).ret = OptError.atEnd.code
  inside : (optGetArgv strtod opts argv opt).beyond = false

/-- The argument is one that a call is up to: it is not empty, and where it names an option, the table
has that option and its value is a number if it is to be one. An option whose `id` is the error for bad
numbers needs none. -/
def OptFits (opt : OptIter δ) : Prop :=
  ∀ arg, argv[opt.argi]? = some arg → cstr arg ≠ [] ∧
    (OptNames (cstr arg) → ∃ o, optNamedBy opts (cstr arg) = some o ∧
      ∀ v, argv[opt.argi + 1]? = some v → o.type.NoNumber strtod (cstr v) → o.id = OptError.bad.code)

end Calls

/-! ### One call -/

section OneCall

variable {strtod : List UInt8 → δ × Nat} {opts : List OptSetT} {argv : List (List UInt8)}
  {opt : OptIter δ} {arg : List UInt8}

theorem optTakeVal_beyond (o : OptSetT) (opt : OptIter δ) (beyond : Bool) :
    (optTakeVal strtod argv o opt beyond).beyond = beyond := by
  unfold optTakeVal
  dsimp only
  split_ifs <;> rfl

theorem optGetArgv_end (h : argv.length ≤ opt.argi) :
    optGetArgv strtod opts argv opt =
      ⟨{ opt with error := .atEnd, id := 0 }, OptError.atEnd.code, false⟩ := if_pos h

section Arg

variable (hget : argv[opt.argi]? = some arg)
include hget

theorem argi_lt : ¬argv.length ≤ opt.argi := by
  obtain ⟨hlt, -⟩ := List.getElem?_eq_some_iff.mp hget
  exact Nat.not_le.mpr hlt

theorem argv_getD : argv.getD opt.argi [] = arg := by
  rw [List.getD_eq_getElem?_getD, hget, Option.getD_some]

/-- An argument that starts with another character. -/
theorem optGetArgv_plain (hne : cstr arg ≠ []) (hhead : (cstr arg).head? ≠ some 45) :
    optGetArgv strtod opts argv opt =
      ⟨{ opt with error := .atEnd, id := 0, arg := some arg }, OptError.atEnd.code, false⟩ := by
  have hfirst : arg.getD 0 0 ≠ 45 ∧ arg.getD 0 0 ≠ 0 := by
    rw [cstr_first]
    obtain ⟨ch, r, hcons⟩ := List.exists_cons_of_ne_nil hne
    rw [hcons] at hhead ⊢
    have hmem : ch ∈ cstr arg := by
      rw [hcons]
      exact List.mem_cons_self ..
    have hch : ch ≠ 0 := mem_cstr_ne hmem
    exact ⟨fun h => hhead (congrArg some h), hch⟩
  unfold optGetArgv
  simp only [if_neg (argi_lt hget), argv_getD hget, if_pos hfirst]
  rfl

/-- `--`. -/
theorem optGetArgv_dashes (hdashes : cstr arg = bytes "--") :
    optGetArgv strtod opts argv opt =
      ⟨{ opt with error := .atEnd, id := 0, arg := some arg, argi := opt.argi + 1 },
        OptError.atEnd.code, false⟩ := by
  have hfirst : ¬(arg.getD 0 0 ≠ 45 ∧ arg.getD 0 0 ≠ 0) := by
    rw [cstr_first, hdashes]
    decide
  unfold optGetArgv
  simp only [if_neg (argi_lt hget), argv_getD hget, if_neg hfirst, if_pos (strcmp_eq_zero_iff.mpr hdashes)]
  rfl

/-- An empty argument is taken for an option. -/
theorem optGetArgv_empty (hempty : cstr arg = []) :
    (optGetArgv strtod opts argv opt).beyond = true := by
  have hfirst : ¬(arg.getD 0 0 ≠ 45 ∧ arg.getD 0 0 ≠ 0) := by
    rw [cstr_first, hempty]
    decide
  have hdashes : ¬strcmp (cstr arg) (bytes "--") = 0 := by
    rw [hempty]
    decide
  have hp (q : Prop) [Decidable q] : decide ((cstr arg).length < if q then 2 else 1) = true := by
    rw [hempty]
    split <;> rfl
  unfold optGetArgv
  simp only [if_neg (argi_lt hget), argv_getD hget, if_neg hfirst, if_neg hdashes, hp]
  split
  · rfl
  · exact optTakeVal_beyond ..

/-- What the call looks for, of an argument that names an option, and where it goes on. -/
theorem optGetArgv_names (hnames : OptNames (cstr arg)) :
    optGetArgv strtod opts argv opt =
      ((optNamedBy opts (cstr arg)).elim
        (OptIter.answer { opt with error := .unknown, id := 0, arg := some arg } false)
        fun o =>
          optTakeVal strtod argv o { opt with error := .atEnd, id := 0, arg := some arg } false) := by
  obtain ⟨hhead, hdashes⟩ := hnames
  have hlen : 1 ≤ (cstr arg).length := by
    cases hcstr : cstr arg with
    | nil      => rw [hcstr] at hhead; exact absurd hhead (by simp)
    | cons _ _ => simp
  have hfirst : ¬(arg.getD 0 0 ≠ 45 ∧ arg.getD 0 0 ≠ 0) := by
    rw [cstr_first, List.headD_eq_head?_getD, hhead]
    decide
  have hsecond : arg.getD 1 0 = 45 ↔ (cstr arg)[1]? = some 45 := by
    rw [cstr_getD arg hlen, List.getD_eq_getElem?_getD]
    cases (cstr arg)[1]? with
    | none    => decide
    | some ch => simp
  -- the dashes are part of the argument, so that its name starts inside of it
  have hp : (if arg.getD 1 0 = 45 then 2 else 1) ≤ (cstr arg).length := by
    split
    next h =>
      obtain ⟨hlt, -⟩ := List.getElem?_eq_some_iff.mp (hsecond.mp h)
      exact hlt
    next => exact hlen
  have hname : cstr (arg.drop (if arg.getD 1 0 = 45 then 2 else 1)) = optArgName (cstr arg) := by
    rw [cstr_drop arg hp, optArgName]
    by_cases h : arg.getD 1 0 = 45
    · rw [if_pos h, if_pos (hsecond.mp h)]
    · rw [if_neg h, if_neg (fun h' => h (hsecond.mpr h'))]
  unfold optGetArgv optNamedBy
  simp only [if_neg (argi_lt hget), argv_getD hget, if_neg hfirst,
    if_neg (fun h => hdashes (strcmp_eq_zero_iff.mp h)), hname, decide_eq_false (Nat.not_lt.mpr hp)]
  cases List.find? (fun o => decide (strcmp (optArgName (cstr arg)) o.name = 0)) opts <;> rfl

end Arg

/-! ### The value of an option -/

/-- Taking a value goes forward. -/
theorem optTakeVal_argi (o : OptSetT) (it : OptIter δ) (beyond : Bool) :
    it.argi < (optTakeVal strtod argv o it beyond).opt.argi := by
  unfold optTakeVal
  dsimp only
  split_ifs
  · exact Nat.lt_succ_self it.argi
  · exact Nat.lt_succ_self it.argi
  · exact Nat.lt_add_of_pos_right Nat.two_pos
  · exact Nat.lt_add_of_pos_right Nat.two_pos

/-- A value that is there is taken, number or not. -/
theorem optTakeVal_ret {o : OptSetT} (hflag : o.type ≠ .flag) {it : OptIter δ} {beyond : Bool}
    (hval : it.argi + 1 < argv.length) : (optTakeVal strtod argv o it beyond).ret = o.id := by
  unfold optTakeVal
  dsimp only
  rw [if_neg hflag, if_neg (Nat.not_le.mpr hval)]
  split_ifs <;> rfl

theorem OptType.NoNumber.ne_flag {type : OptType} {v : List UInt8} (h : type.NoNumber strtod v) :
    type ≠ .flag := by
  rintro rfl
  exact h

/-! ### When a call does what it is for -/

/-- A call that says that it is at the end, of an argument that names no option. -/
theorem OptCallOk.of_atEnd (hret : (optGetArgv strtod opts argv opt).ret = OptError.atEnd.code)
    (hinside : (optGetArgv strtod opts argv opt).beyond = false)
    (hnames : ∀ arg, argv[opt.argi]? = some arg → ¬OptNames (cstr arg)) :
    OptCallOk strtod opts argv opt where
  moves  := Or.inr hret
  bad    := fun arg _ _ hget h => absurd h (hnames arg hget)
  ends   := fun _ _ _ => hret
  inside := hinside

/-- A call that finds its option. -/
theorem OptCallOk.of_known {o : OptSetT} (hget : argv[opt.argi]? = some arg)
    (hnames : OptNames (cstr arg)) (ho : optNamedBy opts (cstr arg) = some o)
    (hnumber : ∀ v, argv[opt.argi + 1]? = some v → o.type.NoNumber strtod (cstr v) →
      o.id = OptError.bad.code) :
    OptCallOk strtod opts argv opt := by
  have hcall : optGetArgv strtod opts argv opt = _ := optGetArgv_names hget hnames
  rw [ho, Option.elim_some] at hcall
  have hsame {arg' : List UInt8} (hget' : argv[opt.argi]? = some arg') : arg' = arg :=
    Option.some.inj (hget'.symm.trans hget)
  refine ⟨Or.inl ?_, fun arg' o' v hget' _ ho' hv hno => ?_, fun arg' hget' hhead => ?_, ?_⟩
  · rw [hcall]
    exact optTakeVal_argi o { opt with error := .atEnd, id := 0, arg := some arg } false
  · rw [hsame hget', ho] at ho'
    obtain rfl : o = o' := Option.some.inj ho'
    obtain ⟨hval, -⟩ := List.getElem?_eq_some_iff.mp hv
    rw [hcall, ← hnumber v hv hno]
    exact optTakeVal_ret hno.ne_flag hval
  · rw [hsame hget'] at hhead
    exact absurd hnames.1 hhead
  · rw [hcall]
    exact optTakeVal_beyond ..

/-- A call does what it is for if and only if the argument is one that it is up to. -/
theorem optCallOk_iff : OptCallOk strtod opts argv opt ↔ OptFits strtod opts argv opt := by
  constructor
  · intro h arg hget
    refine ⟨fun hempty => ?_, fun hnames => ?_⟩
    · exact Bool.false_ne_true (h.inside.symm.trans (optGetArgv_empty hget hempty))
    · have hcall : optGetArgv strtod opts argv opt = _ := optGetArgv_names hget hnames
      cases ho : optNamedBy opts (cstr arg) with
      | none =>
          -- neither does the position move, nor is it the end
          rw [ho, Option.elim_none] at hcall
          have hmoves := h.moves
          rw [hcall] at hmoves
          exact absurd hmoves (by simp [OptIter.answer, OptError.code])
      | some o =>
          rw [ho, Option.elim_some] at hcall
          refine ⟨o, rfl, fun v hv hno => ?_⟩
          obtain ⟨hval, -⟩ := List.getElem?_eq_some_iff.mp hv
          rw [← h.bad arg o v hget hnames ho hv hno, hcall]
          refine (optTakeVal_ret hno.ne_flag ?_).symm
          exact hval
  · intro h
    cases hget : argv[opt.argi]? with
    | none =>
        have hend : argv.length ≤ opt.argi := List.getElem?_eq_none_iff.mp hget
        have hcall : optGetArgv strtod opts argv opt = _ := optGetArgv_end hend
        exact .of_atEnd (by rw [hcall]) (by rw [hcall])
          fun arg harg => absurd (hget.symm.trans harg) (by simp)
    | some arg =>
        obtain ⟨hne, hknown⟩ := h arg hget
        have hsame {arg' : List UInt8} (hget' : argv[opt.argi]? = some arg') : arg' = arg :=
          Option.some.inj (hget'.symm.trans hget)
        by_cases hhead : (cstr arg).head? = some 45
        · by_cases hdashes : cstr arg = bytes "--"
          · have hcall : optGetArgv strtod opts argv opt = _ := optGetArgv_dashes hget hdashes
            exact .of_atEnd (by rw [hcall]) (by rw [hcall])
              fun arg' harg' hnames => hnames.2 (by rw [hsame harg', hdashes])
          · obtain ⟨o, ho, hnumber⟩ := hknown ⟨hhead, hdashes⟩
            exact .of_known hget ⟨hhead, hdashes⟩ ho hnumber
        · have hcall : optGetArgv strtod opts argv opt = _ := optGetArgv_plain hget hne hhead
          exact .of_atEnd (by rw [hcall]) (by rw [hcall])
            fun arg' harg' hnames => hhead (by rw [← hsame harg']; exact hnames.1)

end OneCall

/-! ### All calls -/

section Calls

variable (strtod : List UInt8 → δ × Nat) (opts : List OptSetT) (argv : List (List UInt8))

/-- The next call. -/
def optCallNext (c : OptCall δ) : OptCall δ := optGetArgv strtod opts argv c.opt

/-- No call is made after the end. -/
def optCallStopped (c : OptCall δ) : Bool := c.ret == OptError.atEnd.code

/-- The first `n` calls, none after the end. Nothing is returned before the first one. -/
def optCalls (opt : OptIter δ) (n : Nat) : OptCall δ :=
  scan (optCallNext strtod opts argv) optCallStopped n ⟨opt, 0, false⟩

/-- The calls from `opt` on do what they are for, and at most `argc + 1` of them are made. -/
structure OptRunOk (opt : OptIter δ) : Prop where
  calls : ∀ n, optCallStopped (optCalls strtod opts argv opt n) = false →
    OptCallOk strtod opts argv (optCalls strtod opts argv opt n).opt
  ends : optCallStopped (optCalls strtod opts argv opt (argv.length + 1)) = true

variable {strtod opts argv}

/-- One more call while they have not stopped. -/
theorem optCalls_succ {opt : OptIter δ} {n : Nat}
    (h : optCallStopped (optCalls strtod opts argv opt n) = false) :
    optCalls strtod opts argv opt (n + 1) =
      optGetArgv strtod opts argv (optCalls strtod opts argv opt n).opt := by
  rw [optCalls, scan_add]
  exact scan_succ 0 h

/-- Each call but the last one goes on by an argument at least. -/
theorem optCalls_argi {opt : OptIter δ}
    (h : ∀ n, optCallStopped (optCalls strtod opts argv opt n) = false →
      OptCallOk strtod opts argv (optCalls strtod opts argv opt n).opt) (n : Nat) :
    optCallStopped (optCalls strtod opts argv opt n) = false →
      n ≤ (optCalls strtod opts argv opt n).opt.argi := by
  induction n with
  | zero => exact fun _ => Nat.zero_le _
  | succ n ih =>
      intro hrun
      cases hstop : optCallStopped (optCalls strtod opts argv opt n) with
      | true =>
          -- the calls have ended before
          have hsame := scan_of_le hstop (Nat.le_succ n)
          rw [optCalls, hsame] at hrun
          exact absurd (hstop.symm.trans hrun) (by decide)
      | false =>
          have hle := ih hstop
          rw [optCalls_succ hstop] at hrun ⊢
          rcases (h n hstop).moves with hlt | hend
          · omega
          · rw [optCallStopped, hend] at hrun
            exact absurd hrun (by decide)

/-- From the first argument on, the calls do what they are for and end in time, if and only if each of
them comes to an argument that it is up to. -/
theorem optGetArgv_run_iff (strtod : List UInt8 → δ × Nat) (opts : List OptSetT)
    (argv : List (List UInt8)) (opt : OptIter δ) :
    OptRunOk strtod opts argv { opt with argi := 0 } ↔
      ∀ n, optCallStopped (optCalls strtod opts argv { opt with argi := 0 } n) = false →
        OptFits strtod opts argv (optCalls strtod opts argv { opt with argi := 0 } n).opt := by
  constructor
  · exact fun h n hrun => optCallOk_iff.mp (h.calls n hrun)
  · intro h
    have hcalls (n : Nat)
        (hrun : optCallStopped (optCalls strtod opts argv { opt with argi := 0 } n) = false) :
        OptCallOk strtod opts argv (optCalls strtod opts argv { opt with argi := 0 } n).opt :=
      optCallOk_iff.mpr (h n hrun)
    refine ⟨hcalls, ?_⟩
    cases hstop : optCallStopped (optCalls strtod opts argv { opt with argi := 0 } argv.length) with
    | true =>
        have hsame := scan_of_le hstop (Nat.le_succ argv.length)
        rw [optCalls, hsame]
        exact hstop
    | false =>
        -- by then all arguments are taken
        have hall := optCalls_argi hcalls argv.length hstop
        rw [optCalls_succ hstop, optGetArgv_end hall]
        rfl

/-- A bad number is taken for a good one, an unknown option is never passed by, and an empty argument
is read behind its end. -/
theorem optGetArgv_run_bad :
    ¬OptRunOk (fun _ => ((0 : Int), 0)) [⟨1, bytes "n", .int⟩] [bytes "-n", bytes "x"] {} ∧
    ¬OptRunOk (fun _ => ((0 : Int), 0)) [⟨1, bytes "n", .int⟩] [bytes "-v"] {} ∧
    ¬OptRunOk (fun _ => ((0 : Int), 0)) [⟨1, bytes "n", .int⟩] [bytes "" ++ [0]] {} := by
  refine ⟨fun h => ?_, fun h => ?_, fun h => ?_⟩
  · have hbad := (h.calls 0 rfl).bad (bytes "-n") ⟨1, bytes "n", .int⟩ (bytes "x") rfl
      ⟨by decide, by decide⟩ (by decide) rfl (show (strtol (cstr (bytes "x"))).2 = 0 by decide)
    exact absurd hbad (by decide)
  · exact absurd h.ends (by decide)
  · exact absurd (h.calls 0 rfl).inside (by decide)

end Calls

end Bklib
