import Bklib.Lib.Scan
import Bklib.Model.CInt
import Bklib.Model.Opt

/-!
# `Bklib.Model.OptArgv`: option tables and argument vectors

`optArgv2optv` fills a table of options from an argument vector, named options first and then the
required ones that are left. `optGetArgv` takes one option from an argument vector, at the position
that it keeps. A table is the list of its entries in front of the one without a name, and `argc` is the
length of `argv`.

`strtod` is a parameter: the number that a string starts with, and how far it goes, which is 0 when
there is none.
-/

set_option autoImplicit false

namespace Bklib

variable {δ : Type}

/-! ## Words -/

/-- `OPT_WORD_MAX`. -/
def optWordMax : Nat := 127

/-- The loop of `opt_verify_word`, with `i` characters to go. -/
def optVerifyWordLoop : Nat → List UInt8 → Bool
  | _, []      => true
  | i, ch :: p =>
      if i = 0 || !(isalnum ch || ch ∈ bytes "@-_.,;") then false else optVerifyWordLoop (i - 1) p

/-- `opt_verify_word`. -/
def optVerifyWord (buf : List UInt8) : Bool := optVerifyWordLoop optWordMax buf

/-! ## A table of `OptSet` -/

/-- The union of the values. -/
inductive OptVal (δ : Type)
  | none
  | f (x : δ)
  | i (n : Int)
  | s (t : List UInt8)

/-- `OptSet`. -/
structure OptSet (δ : Type) where
  names    : List UInt8
  argtype  : UInt8 := 0
  required : Bool := false
  err      : Int := 0
  defval   : Option (List UInt8) := none
  argidx   : Nat := 0
  argval   : Option (List UInt8) := none
  val      : OptVal δ := .none

/-- `OPT_ERR_OPT`. -/
def optErrOpt : Int := -1

/-- `OPT_ERR_ARGREQ`. -/
def optErrArgreq : Int := -2

/-- `OPT_ERR_ARG`. -/
def optErrArg : Int := -3

/-- `OPT_ERR_TYPE`. -/
def optErrType : Int := -4

/-- `OPT_ERR_OPTREQ`. -/
def optErrOptreq : Int := -5

/-- `strstr`: the first place of a string that starts with another one. -/
def strstr (s t : List UInt8) : Option (List UInt8) := s.tails.find? (t.isPrefixOf ·)

/-- What `opt_namev2optv` makes of a name. -/
def optName2opt (p : List UInt8) : OptSet δ :=
  let required := p.head? == some 33
  let p := if required then p.drop 1 else p
  -- the type is the character in front of a `=`
  let typed := (p.drop 1).head? == some 61
  let argtype := if typed then p.headD 0 else 0
  let p := if typed then p.drop 2 else p
  { names := p, argtype, required, defval := (strstr p (bytes "default:")).map (·.drop 8) }

/-- `opt_namev2optv`, with room for `optn` options. -/
def optNamev2optv (namev : List (List UInt8)) (optn : Nat) : List (OptSet δ) :=
  (namev.take optn).map optName2opt

/-- The loop of `opt_get` over the aliases of an option. Every round takes a character of `p`. -/
def optHasName (name : List UInt8) : Nat → List UInt8 → Bool
  | 0,     _ => false
  | n + 1, p =>
      let word := p.takeWhile fun ch => !(ch == 124 || decide (ch ∈ optWhitespace))
      if word = [] then false
      else if word = name then true
      else
        -- only a `|` with a name behind it leads to the next alias
        let p := p.drop word.length
        if p.head? ≠ some 124 || p.drop 1 = [] then false else optHasName name n (p.drop 1)

/-- `opt_get`: the index of the option. -/
def optGet (optv : List (OptSet δ)) (name : List UInt8) : Option Nat :=
  optv.findIdx? fun opt => optHasName name opt.names.length opt.names

/-- What `opt_setval` leaves: the option, `*argidx`, and the result is `opt.err`. -/
structure OptSetval (δ : Type) where
  opt    : OptSet δ
  argidx : Nat

section Setval

variable (strtod : List UInt8 → δ × Nat)

/-- The switch of `opt_setval` over `argtype`: the value of `argval`, and the error. -/
def optConvert (argtype : UInt8) (argval : List UInt8) (val : OptVal δ) : OptVal δ × Int :=
  if argtype = 102 then (.f (strtod argval).1, if (strtod argval).2 = 0 then optErrArg else 0)
  else if argtype = 105 then
    (.i (Int.bmod (strtoul argval).1 (2 ^ 64)), if (strtoul argval).2 = 0 then optErrArg else 0)
  else if argtype = 115 then (.s argval, 0)
  else if argtype = 119 then
    if optVerifyWord argval then (.s argval, 0) else (val, optErrArg)
  else (val, optErrType)

/-- `opt_setval`. -/
def optSetval (argv : List (List UInt8)) (opt : OptSet δ) (argidx : Nat) : OptSetval δ :=
  if argv.length ≤ argidx then ⟨{ opt with err := optErrOptreq }, argidx⟩
  else
    let opt := { opt with argidx, argval := some (argv.getD argidx []) }
    -- a flag is set without a further argument
    if opt.argtype = 0 then ⟨{ opt with val := .i 1, err := 0 }, argidx⟩
    else
      -- the option itself stands there, unless the argument does
      let argidx := if (argv.getD argidx []).head? = some 45 then argidx + 1 else argidx
      if argv.length ≤ argidx then ⟨{ opt with err := optErrArgreq }, argidx⟩
      else
        let argval := argv.getD argidx []
        let r := optConvert strtod opt.argtype argval opt.val
        ⟨{ opt with argval := some argval, val := r.1, err := r.2 }, argidx⟩

/-- `opt_argv2optv` in its first loop. -/
structure OptNamed (δ : Type) where
  optv   : List (OptSet δ)
  optind : Nat
  err    : Int
  done   : Bool

/-- A round of the first loop. -/
def optNamedRound (argv : List (List UInt8)) (s : OptNamed δ) : OptNamed δ :=
  let parg := argv.getD s.optind []
  if strcmp parg (bytes "--") = 0 then { s with optind := s.optind + 1, done := true }
  else if parg.head? ≠ some 45 then { s with done := true }
  else
    match optGet s.optv (parg.dropWhile (· = 45)) with
    | none   => { s with err := optErrOpt, done := true }
    | some k =>
        match s.optv[k]? with
        | none     => s
        | some opt =>
            let r := optSetval strtod argv opt s.optind
            let s := { s with optv := s.optv.set k r.opt, optind := r.argidx, err := r.opt.err }
            if r.opt.err = 0 then { s with optind := s.optind + 1 } else { s with done := true }

/-- Where the first loop ends. -/
def optNamedStopped (argc : Nat) (s : OptNamed δ) : Bool := s.done || decide (argc ≤ s.optind)

/-- The second loop: the entries, `optind`, and the places of the arguments that were taken. The loop
ends at an error. -/
def optRequired (argv : List (List UInt8)) :
    List (OptSet δ) → Nat → List (OptSet δ) × Nat × List Nat
  | [],          optind => ([], optind, [])
  | opt :: optv, optind =>
      if !opt.required || opt.argval.isSome then
        let r := optRequired argv optv optind
        (opt :: r.1, r.2)
      else
        let s := optSetval strtod argv opt optind
        if s.opt.err = 0 then
          let r := optRequired argv optv s.argidx
          (s.opt :: r.1, r.2.1, s.argidx :: r.2.2)
        else (s.opt :: optv, s.argidx, [])

/-- What `opt_argv2optv` leaves: the table, the result, and the places that were taken for required
options that are not named. -/
structure OptArgs (δ : Type) where
  optv : List (OptSet δ)
  ret  : Int
  took : List Nat

/-- `opt_argv2optv`. The error of the second loop is not kept. -/
def optArgv2optv (optv : List (OptSet δ)) (argv : List (List UInt8)) : OptArgs δ :=
  let s := Lib.scan (optNamedRound strtod argv) (optNamedStopped argv.length) argv.length
    ⟨optv, 0, 0, false⟩
  if s.err = 0 then
    let r := optRequired strtod argv s.optv s.optind
    ⟨r.1, r.2.1, r.2.2⟩
  else ⟨s.optv, -(s.optind + 1 : Nat), []⟩

end Setval

/-! ## A table of `opt_set_t` -/

/-- `opt_error_t`. -/
inductive OptError where
  | noError
  | atEnd
  | unknown
  | missing
  | bad
  deriving DecidableEq, Repr

/-- The numbers of the enumeration. -/
def OptError.code : OptError → Int
  | noError => 0
  | atEnd   => -1
  | unknown => -2
  | missing => -3
  | bad     => -4

/-- `opt_type_t`, and any other number. -/
inductive OptType where
  | flag
  | int
  | uint
  | real
  | str
  | other
  deriving DecidableEq, Repr

/-- `opt_set_t`. -/
structure OptSetT where
  id   : Int
  name : List UInt8
  type : OptType
  deriving DecidableEq

/-- The union of the values of `opt_iter_t`. -/
inductive OptIterVal (δ : Type)
  | none
  | i (n : Int)
  | u (n : Nat)
  | s (t : List UInt8)
  | d (x : δ)

/-- `opt_iter_t`. -/
structure OptIter (δ : Type) where
  id    : Int := 0
  name  : Option (List UInt8) := none
  type  : OptType := .other
  argi  : Nat := 0
  error : OptError := .noError
  arg   : Option (List UInt8) := none
  val   : OptIterVal δ := .none

/-- What a call of `opt_get_argv` leaves. -/
structure OptCall (δ : Type) where
  opt    : OptIter δ
  ret    : Int
  /-- A byte behind the terminator of an argument was read. -/
  beyond : Bool

/-- The result of `opt_get_argv`. -/
def OptIter.answer (opt : OptIter δ) (beyond : Bool) : OptCall δ :=
  ⟨opt, if opt.error = .noError then opt.id else opt.error.code, beyond⟩

section Get

variable (strtod : List UInt8 → δ × Nat)

/-- The switch of `opt_get_argv` over the type: the value of `arg`, and `p - arg`. -/
def OptType.convert (type : OptType) (arg : List UInt8) (val : OptIterVal δ) : OptIterVal δ × Nat :=
  match type with
  | .str   => (.s arg, 1)
  | .int   => (.i (toInt32 (strtol arg).1), (strtol arg).2)
  | .uint  => (.u ((strtoul arg).1 % 2 ^ 32), (strtoul arg).2)
  | .real  => (.d (strtod arg).1, (strtod arg).2)
  | .flag  => (val, 0)
  | .other => (val, 0)

/-- `opt_get_argv` once the option is found. -/
def optTakeVal (argv : List (List UInt8)) (o : OptSetT) (opt : OptIter δ) (beyond : Bool) :
    OptCall δ :=
  let opt := { opt with argi := opt.argi + 1, name := some o.name, id := o.id, type := o.type }
  if o.type = .flag then { opt with val := .i 1, error := .noError }.answer beyond
  else if argv.length ≤ opt.argi then { opt with error := .missing }.answer beyond
  else
    let arg := cstr (argv.getD opt.argi [])
    let r := o.type.convert strtod arg opt.val
    let opt := { opt with argi := opt.argi + 1, val := r.1 }
    let opt := if r.2 = 0 then { opt with error := .bad, val := .s arg } else opt
    -- the error of a bad value is overwritten
    { opt with error := .noError }.answer beyond

/-- `opt_get_argv`. An argument is the memory from its pointer on. -/
def optGetArgv (opts : List OptSetT) (argv : List (List UInt8)) (opt : OptIter δ) : OptCall δ :=
  let opt := { opt with error := .atEnd, id := 0 }
  if argv.length ≤ opt.argi then opt.answer false
  else
    let arg := argv.getD opt.argi []
    let opt := { opt with arg := some arg }
    -- `strchr` finds the terminator, too
    if arg.getD 0 0 ≠ 45 ∧ arg.getD 0 0 ≠ 0 then opt.answer false
    else if strcmp (cstr arg) (bytes "--") = 0 then { opt with argi := opt.argi + 1 }.answer false
    else
      -- `--arg` names what `-arg` does
      let p := if arg.getD 1 0 = 45 then 2 else 1
      let beyond := decide ((cstr arg).length < p)
      match opts.find? fun o => strcmp (cstr (arg.drop p)) o.name = 0 with
      | none   => { opt with error := .unknown }.answer beyond
      | some o => optTakeVal strtod argv o opt beyond

end Get

end Bklib
