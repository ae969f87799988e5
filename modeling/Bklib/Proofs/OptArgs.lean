import Mathlib.Data.List.Nodup
import Bklib.Lib.Scan
import Bklib.Model.OptArgv

/-!
# `Bklib.Proofs.OptArgs`: required options

`opt_argv2optv` reads named options first. `OptSwitches` is that part of an argument vector as a
grammar, which reads a vector in one way (`OptSwitches.unique`). The required options that are left take
positional arguments. `opt_setval` leaves the index at the argument it took, so that the next option
takes the same one, unless the index is moved on by a `-`, and the error of the second loop is lost.
`OptPositional` says when this does no harm.

* `optSetval_takes_iff`: when `opt_setval` takes a value.
* `optNamedLoop_cases`: the first loop reads the grammar.
* `optRequired_iff`: the second loop.
* `optArgv2optv_required_iff`: both.
-/

set_option autoImplicit false

namespace Bklib

open Lib

variable {δ : Type}

/-! ### Values -/

/-- `val` is the value that an argument has for a type. -/
inductive OptHas (strtod : List UInt8 → δ × Nat) : UInt8 → List UInt8 → OptVal δ → Prop
  | flag (v : List UInt8) : OptHas strtod 0 v (.i 1)
  | real {v : List UInt8} : (strtod v).2 ≠ 0 → OptHas strtod 102 v (.f (strtod v).1)
  | int {v : List UInt8} :
      (strtoul v).2 ≠ 0 → OptHas strtod 105 v (.i (Int.bmod (strtoul v).1 (2 ^ 64)))
  | str (v : List UInt8) : OptHas strtod 115 v (.s v)
  | word {v : List UInt8} : optVerifyWord v = true → OptHas strtod 119 v (.s v)

/-- The option has a value of its type. -/
def OptSet.Holds (strtod : List UInt8 → δ × Nat) (opt : OptSet δ) : Prop :=
  opt.err = 0 ∧ ∃ v, opt.argval = some v ∧ OptHas strtod opt.argtype v opt.val

/-- An option takes a value from the arguments: what is left begins with the value. -/
inductive OptTakes (strtod : List UInt8 → δ × Nat) (argtype : UInt8) :
    List (List UInt8) → List (List UInt8) → Prop
  | flag {a : List UInt8} {r : List (List UInt8)} :
      argtype = 0 → OptTakes strtod argtype (a :: r) (a :: r)
  | here {v : List UInt8} {r : List (List UInt8)} {val : OptVal δ} :
      argtype ≠ 0 → v.head? ≠ some 45 → OptHas strtod argtype v val →
      OptTakes strtod argtype (v :: r) (v :: r)
  | behind {a v : List UInt8} {r : List (List UInt8)} {val : OptVal δ} :
      argtype ≠ 0 → a.head? = some 45 → OptHas strtod argtype v val →
      OptTakes strtod argtype (a :: v :: r) (v :: r)

section Setval

variable {strtod : List UInt8 → δ × Nat} {argv : List (List UInt8)} {opt : OptSet δ} {argtype : UInt8}

/-- A value of the type is converted. -/
theorem OptHas.convert {v : List UInt8} {val : OptVal δ} (h : OptHas strtod argtype v val)
    (htype : argtype ≠ 0) (old : OptVal δ) : optConvert strtod argtype v old = (val, 0) := by
  cases h with
  | flag      => exact absurd rfl htype
  | real hval => exact congrArg (Prod.mk _) (if_neg hval)
  | int hval  => exact congrArg (Prod.mk _) (if_neg hval)
  | str       => rfl
  | word hval => exact if_pos hval

/-- What is converted without an error is a value of the type. -/
theorem optConvert_has {v : List UInt8} {old : OptVal δ}
    (h : (optConvert strtod argtype v old).2 = 0) :
    OptHas strtod argtype v (optConvert strtod argtype v old).1 := by
  unfold optConvert at h ⊢
  by_cases hreal : argtype = 102
  · subst hreal
    refine .real fun hval => ?_
    simp only [if_true, if_pos hval] at h
    exact absurd h (by decide)
  by_cases hint : argtype = 105
  · subst hint
    refine .int fun hval => ?_
    simp only [hreal, if_true, if_false, if_pos hval] at h
    exact absurd h (by decide)
  by_cases hstr : argtype = 115
  · subst hstr
    exact .str v
  by_cases hword : argtype = 119
  · subst hword
    by_cases hval : optVerifyWord v = true
    · simp only [hreal, hint, hstr, hval, if_true, if_false]
      exact .word hval
    · simp only [hreal, hint, hstr, if_neg hval, if_true, if_false] at h
      exact absurd h (by decide)
  · -- any other type is an error
    simp only [hreal, hint, hstr, hword, if_false] at h
    exact absurd h (by decide)

/-- What stays of an option when it takes a value. -/
def OptSet.decl (opt : OptSet δ) : List UInt8 × UInt8 × Bool := (opt.names, opt.argtype, opt.required)

theorem optSetval_decl (i : Nat) : (optSetval strtod argv opt i).opt.decl = opt.decl := by
  unfold optSetval
  dsimp only
  split_ifs <;> rfl

/-- Setting a value takes arguments forward only. -/
theorem optSetval_le (i : Nat) : i ≤ (optSetval strtod argv opt i).argidx := by
  unfold optSetval
  dsimp only
  split_ifs
  · exact Nat.le_refl i
  · exact Nat.le_refl i
  · exact Nat.le_succ i
  · exact Nat.le_succ i
  · exact Nat.le_refl i

variable {i : Nat} {args rest rest' : List (List UInt8)}

/-- The argument at an index. -/
theorem drop_eq_cons {a : List UInt8} {r : List (List UInt8)} (h : argv.drop i = a :: r) :
    i < argv.length ∧ argv.getD i [] = a ∧ argv.drop (i + 1) = r := by
  have hlt : i < argv.length := by
    by_contra hle
    rw [List.drop_of_length_le (Nat.not_lt.mp hle)] at h
    exact absurd h (by simp)
  rw [List.drop_eq_getElem_cons hlt, List.cons.injEq] at h
  refine ⟨hlt, ?_, h.2⟩
  rw [List.getD_eq_getElem?_getD, List.getElem?_eq_getElem hlt, Option.getD_some, h.1]

/-- Where an option takes a value, `opt_setval` stores it, and the index is where it stands. -/
theorem optSetval_of_takes (h : OptTakes strtod opt.argtype (argv.drop i) rest) :
    (optSetval strtod argv opt i).opt.Holds strtod ∧
      argv.drop (optSetval strtod argv opt i).argidx = rest := by
  generalize hargs : argv.drop i = args at h
  cases h with
  | @flag a r htype =>
      obtain ⟨hlt, hget, hnext⟩ := drop_eq_cons hargs
      unfold optSetval
      simp only [if_neg (Nat.not_le.mpr hlt), htype, if_true]
      exact ⟨⟨rfl, a, congrArg some hget, .flag a⟩, hargs⟩
  | @here v r val htype hhead hval =>
      obtain ⟨hlt, hget, hnext⟩ := drop_eq_cons hargs
      unfold optSetval
      simp only [if_neg (Nat.not_le.mpr hlt), hget, if_neg htype, if_neg hhead, hval.convert htype]
      exact ⟨⟨rfl, v, rfl, hval⟩, hargs⟩
  | @behind a v r val htype hhead hval =>
      obtain ⟨hlt, hget, hnext⟩ := drop_eq_cons hargs
      obtain ⟨hlt', hget', -⟩ := drop_eq_cons hnext
      unfold optSetval
      simp only [if_neg (Nat.not_le.mpr hlt), hget, if_neg htype, if_pos hhead,
        if_neg (Nat.not_le.mpr hlt'), hget', hval.convert htype]
      exact ⟨⟨rfl, v, rfl, hval⟩, hnext⟩

/-- Without an error, `opt_setval` took a value. -/
theorem optTakes_of_setval (h : (optSetval strtod argv opt i).opt.err = 0) :
    ∃ rest, OptTakes strtod opt.argtype (argv.drop i) rest := by
  unfold optSetval at h
  cases hargs : argv.drop i with
  | nil =>
      rw [if_pos (List.drop_eq_nil_iff.mp hargs)] at h
      exact absurd h (show optErrOptreq ≠ 0 by decide)
  | cons a r =>
      obtain ⟨hlt, hget, hnext⟩ := drop_eq_cons hargs
      simp only [if_neg (Nat.not_le.mpr hlt), hget] at h
      by_cases htype : opt.argtype = 0
      · exact ⟨_, .flag htype⟩
      by_cases hhead : a.head? = some 45
      · simp only [if_neg htype, if_pos hhead] at h
        cases r with
        | nil =>
            -- the value is missing behind the `-`
            rw [if_pos (List.drop_eq_nil_iff.mp hnext)] at h
            exact absurd h (show optErrArgreq ≠ 0 by decide)
        | cons v r =>
            obtain ⟨hlt', hget', -⟩ := drop_eq_cons hnext
            simp only [if_neg (Nat.not_le.mpr hlt'), hget'] at h
            exact ⟨_, .behind htype hhead (optConvert_has h)⟩
      · simp only [if_neg htype, if_neg hhead, if_neg (Nat.not_le.mpr hlt), hget] at h
        exact ⟨_, .here htype hhead (optConvert_has h)⟩

/-- What is left begins with the value. -/
theorem OptTakes.rest_cons (h : OptTakes strtod argtype args rest) : ∃ v r, rest = v :: r := by
  cases h with
  | flag   => exact ⟨_, _, rfl⟩
  | here   => exact ⟨_, _, rfl⟩
  | behind => exact ⟨_, _, rfl⟩

/-- What an option takes of its arguments is one thing only. -/
theorem OptTakes.unique (h : OptTakes strtod argtype args rest)
    (h' : OptTakes strtod argtype args rest') : rest = rest' := by
  cases h with
  | flag htype =>
      cases h' with
      | flag              => rfl
      | here              => rfl
      | behind htype' _ _ => exact absurd htype htype'
  | here htype hhead _ =>
      cases h' with
      | flag             => rfl
      | here             => rfl
      | behind _ hhead' _ => exact absurd hhead' hhead
  | behind htype hhead _ =>
      cases h' with
      | flag htype'      => exact absurd htype' htype
      | here _ hhead' _  => exact absurd hhead hhead'
      | behind           => rfl

end Setval

/-! ### Named options -/

section Named

variable (strtod : List UInt8 → δ × Nat) (optv : List (OptSet δ))

/-- The options that are named at the start of the arguments: what is behind them, and which entries of
the table they are. -/
inductive OptSwitches : List (List UInt8) → List (List UInt8) → List Nat → Prop
  | nil : OptSwitches [] [] []
  | dashes {r : List (List UInt8)} : OptSwitches (bytes "--" :: r) r []
  | other {a : List UInt8} {r : List (List UInt8)} :
      a.head? ≠ some 45 → OptSwitches (a :: r) (a :: r) []
  | named {a v : List UInt8} {r r' rest : List (List UInt8)} {k : Nat} {opt : OptSet δ} {ks : List Nat} :
      a.head? = some 45 → a ≠ bytes "--" → optGet optv (a.dropWhile (· = 45)) = some k →
      optv[k]? = some opt → OptTakes strtod opt.argtype (a :: r) (v :: r') →
      OptSwitches r' rest ks → OptSwitches (a :: r) rest (k :: ks)

variable {strtod optv}

/-- An argument that names an option is read as that option. -/
theorem OptSwitches.of_named {a : List UInt8} {r rest : List (List UInt8)} {ks : List Nat}
    (h : OptSwitches strtod optv (a :: r) rest ks) (hhead : a.head? = some 45)
    (hne : a ≠ bytes "--") :
    ∃ k opt v r' ks', ks = k :: ks' ∧ optGet optv (a.dropWhile (· = 45)) = some k ∧
      optv[k]? = some opt ∧ OptTakes strtod opt.argtype (a :: r) (v :: r') ∧
      OptSwitches strtod optv r' rest ks' := by
  cases h with
  | dashes                              => exact absurd rfl hne
  | other hhead'                        => exact absurd hhead hhead'
  | named _ _ hget hopt htakes hrest => exact ⟨_, _, _, _, _, rfl, hget, hopt, htakes, hrest⟩

/-- The arguments are read in one way. -/
theorem OptSwitches.unique {args rest rest' : List (List UInt8)} {ks ks' : List Nat}
    (h : OptSwitches strtod optv args rest ks) (h' : OptSwitches strtod optv args rest' ks') :
    rest = rest' ∧ ks = ks' := by
  induction h generalizing rest' ks' with
  | nil => cases h'; exact ⟨rfl, rfl⟩
  | dashes =>
      cases h' with
      | dashes               => exact ⟨rfl, rfl⟩
      | other hhead          => exact absurd rfl hhead
      | named _ hne _ _ _ _ => exact absurd rfl hne
  | other hhead =>
      cases h' with
      | dashes                  => exact absurd rfl hhead
      | other                   => exact ⟨rfl, rfl⟩
      | named hhead' _ _ _ _ _ => exact absurd hhead' hhead
  | named hhead hne hget hopt htakes _ ih =>
      -- the name leads to one option, and that takes one value
      obtain ⟨k', opt', v', r'', ks'', rfl, hget', hopt', htakes', hrest⟩ := h'.of_named hhead hne
      obtain rfl := Option.some.inj (hget.symm.trans hget')
      obtain rfl := Option.some.inj (hopt.symm.trans hopt')
      have hsame := htakes.unique htakes'
      rw [List.cons.injEq] at hsame
      obtain rfl := hsame.2
      obtain ⟨hrest, hks⟩ := ih hrest
      exact ⟨hrest, congrArg _ hks⟩

variable {argv : List (List UInt8)}

variable (strtod optv) in
/-- The table when the options of `ks` have been read: those have values, and the others are as they
were. -/
structure OptRead (ks : List Nat) (optv' : List (OptSet δ)) : Prop where
  decl  : optv'.map OptSet.decl = optv.map OptSet.decl
  holds : ∀ k ∈ ks, ∀ opt, optv'[k]? = some opt → opt.Holds strtod
  same  : ∀ k, k ∉ ks → optv'[k]? = optv[k]?

/-- `opt_get` looks at the names only. -/
theorem optGet_congr {optv' : List (OptSet δ)} (h : optv'.map OptSet.decl = optv.map OptSet.decl)
    (name : List UInt8) : optGet optv' name = optGet optv name := by
  have hnames (l : List (OptSet δ)) :
      optGet l name = (l.map OptSet.decl).findIdx? fun d => optHasName name d.1.length d.1 := by
    rw [List.findIdx?_map]
    rfl
  rw [hnames, hnames, h]

/-- An option that takes a value is stored. -/
theorem OptRead.set {ks : List Nat} {optv' : List (OptSet δ)} (h : OptRead strtod optv ks optv')
    {k : Nat} {opt opt' : OptSet δ} (hopt : optv'[k]? = some opt) (hdecl : opt'.decl = opt.decl)
    (hholds : opt'.Holds strtod) : OptRead strtod optv (k :: ks) (optv'.set k opt') := by
  obtain ⟨hlt, hk⟩ := List.getElem?_eq_some_iff.mp hopt
  refine ⟨?_, fun j hj o ho => ?_, fun j hj => ?_⟩
  · rw [← h.decl, List.map_set, hdecl, ← List.map_set, ← hk, List.set_getElem_self]
  · by_cases hjk : k = j
    · subst hjk
      rw [List.getElem?_set_self hlt] at ho
      rw [← Option.some.inj ho]
      exact hholds
    · rw [List.getElem?_set_ne hjk] at ho
      exact h.holds j ((List.mem_cons.mp hj).resolve_left (Ne.symm hjk)) o ho
  · rw [List.mem_cons, not_or] at hj
    rw [List.getElem?_set_ne (Ne.symm hj.1), h.same j hj.2]

/-- An entry is declared in the table as it was. -/
theorem OptRead.entry {ks : List Nat} {optv' : List (OptSet δ)} (h : OptRead strtod optv ks optv')
    {k : Nat} {opt : OptSet δ} (hopt : optv[k]? = some opt) :
    ∃ opt', optv'[k]? = some opt' ∧ opt'.decl = opt.decl := by
  have hdecl : (optv'.map OptSet.decl)[k]? = some opt.decl := by
    rw [h.decl, List.getElem?_map, hopt]
    rfl
  rw [List.getElem?_map, Option.map_eq_some_iff] at hdecl
  exact hdecl

theorem OptRead.congr {ks ks' : List Nat} {optv' : List (OptSet δ)} (h : OptRead strtod optv ks optv')
    (hks : ∀ k, k ∈ ks ↔ k ∈ ks') : OptRead strtod optv ks' optv' where
  decl  := h.decl
  holds := fun k hk => h.holds k ((hks k).mpr hk)
  same  := fun k hk => h.same k fun hk' => hk ((hks k).mp hk')

/-- `opt_get` finds an entry of the table. -/
theorem optGet_some {name : List UInt8} {k : Nat} (h : optGet optv name = some k) :
    ∃ opt, optv[k]? = some opt := by
  obtain ⟨hlt, -⟩ := List.findIdx?_eq_some_iff_getElem.mp h
  exact ⟨_, List.getElem?_eq_getElem hlt⟩

variable (strtod optv argv) in
/-- The first loop has ended, from where it had `args` to read and had read the options of `ks`: it read
the named options, or there is one that cannot be read. -/
def OptNamedEnds (args : List (List UInt8)) (ks : List Nat) (t : OptNamed δ) : Prop :=
  (t.err = 0 ∧ ∃ ks', OptSwitches strtod optv args (argv.drop t.optind) ks' ∧
    OptRead strtod optv (ks' ++ ks) t.optv) ∨
  (t.err ≠ 0 ∧ ∀ rest ks', ¬OptSwitches strtod optv args rest ks')

section Round

variable {s : OptNamed δ} {a : List UInt8} {r : List (List UInt8)} {ks : List Nat} {k : Nat}
  {opt : OptSet δ}

theorem optNamedRound_dashes (hget : argv.getD s.optind [] = bytes "--") :
    optNamedRound strtod argv s = { s with optind := s.optind + 1, done := true } := by
  unfold optNamedRound
  simp only [hget]
  exact if_pos (by decide)

/-- The first loop ends at an argument that is no option. -/
theorem optNamedRound_other (hget : argv.getD s.optind [] = a) (hhead : a.head? ≠ some 45) :
    optNamedRound strtod argv s = { s with done := true } := by
  have hne : ¬strcmp a (bytes "--") = 0 := by
    rw [strcmp_eq_zero_iff]
    rintro rfl
    exact hhead rfl
  unfold optNamedRound
  simp only [hget, if_neg hne, if_pos hhead]

/-- What a round does with an argument that names an option. -/
theorem optNamedRound_named (hget : argv.getD s.optind [] = a) (hhead : a.head? = some 45)
    (hne : a ≠ bytes "--") :
    optNamedRound strtod argv s =
      (optGet s.optv (a.dropWhile (· = 45))).elim { s with err := optErrOpt, done := true } fun k =>
        (s.optv[k]?).elim s fun opt =>
          { optv := s.optv.set k (optSetval strtod argv opt s.optind).opt
            optind := (optSetval strtod argv opt s.optind).argidx +
              if (optSetval strtod argv opt s.optind).opt.err = 0 then 1 else 0
            err := (optSetval strtod argv opt s.optind).opt.err
            done := s.done || !decide ((optSetval strtod argv opt s.optind).opt.err = 0) } := by
  unfold optNamedRound
  simp only [hget, if_neg (fun h => hne (strcmp_eq_zero_iff.mp h)), if_neg (not_not.mpr hhead)]
  cases optGet s.optv (a.dropWhile (· = 45)) with
  | none   => rfl
  | some k =>
      dsimp only [Option.elim_some]
      cases s.optv[k]? with
      | none     => rfl
      | some opt =>
          dsimp only [Option.elim_some]
          by_cases herr : (optSetval strtod argv opt s.optind).opt.err = 0
          · simp [herr]
          · simp [herr]

end Round

/-- An option is read in front of what the loop reads from there. -/
theorem OptNamedEnds.named {a v : List UInt8} {r r' : List (List UInt8)} {k : Nat} {opt : OptSet δ}
    {ks : List Nat} {t : OptNamed δ} (h : OptNamedEnds strtod optv argv r' (k :: ks) t)
    (hhead : a.head? = some 45) (hne : a ≠ bytes "--")
    (hget : optGet optv (a.dropWhile (· = 45)) = some k) (hopt : optv[k]? = some opt)
    (htakes : OptTakes strtod opt.argtype (a :: r) (v :: r')) :
    OptNamedEnds strtod optv argv (a :: r) ks t := by
  rcases h with ⟨herr, ks', hswitches, hread⟩ | ⟨herr, hnone⟩
  · refine Or.inl ⟨herr, k :: ks', .named hhead hne hget hopt htakes hswitches, hread.congr ?_⟩
    intro j
    simp only [List.mem_append, List.mem_cons]
    tauto
  · refine Or.inr ⟨herr, fun rest ks' h => ?_⟩
    obtain ⟨k', opt', v', r'', ks'', -, hget', hopt', htakes', hrest⟩ := h.of_named hhead hne
    obtain rfl := Option.some.inj (hget.symm.trans hget')
    obtain rfl := Option.some.inj (hopt.symm.trans hopt')
    have hsame := htakes.unique htakes'
    rw [List.cons.injEq] at hsame
    rw [← hsame.2] at hrest
    exact hnone _ _ hrest

/-- The first loop, from any state in which it goes on. -/
theorem optNamedLoop_ends (n : Nat) :
    ∀ {s : OptNamed δ} {ks : List Nat}, OptRead strtod optv ks s.optv → s.err = 0 → s.done = false →
      argv.length - s.optind ≤ n →
      OptNamedEnds strtod optv argv (argv.drop s.optind) ks
        (scan (optNamedRound strtod argv) (optNamedStopped argv.length) n s) := by
  induction n with
  | zero =>
      intro s ks hread herr _ hn
      have hargs : argv.drop s.optind = [] := List.drop_eq_nil_iff.mpr (by omega)
      rw [scan_zero]
      refine Or.inl ⟨herr, [], ?_, hread⟩
      rw [hargs]
      exact .nil
  | succ n ih =>
      intro s ks hread herr hdone hn
      cases hargs : argv.drop s.optind with
      | nil =>
          have hstop : optNamedStopped argv.length s = true := by
            simp [optNamedStopped, List.drop_eq_nil_iff.mp hargs]
          rw [scan_of_stopped hstop]
          refine Or.inl ⟨herr, [], ?_, hread⟩
          rw [hargs]
          exact .nil
      | cons a r =>
          obtain ⟨hlt, hget, hnext⟩ := drop_eq_cons hargs
          have hgo : optNamedStopped argv.length s = false := by simp [optNamedStopped, hdone, hlt]
          have hends (t : OptNamed δ) (ht : t.done = true) :
              optNamedStopped argv.length t = true := by simp [optNamedStopped, ht]
          rw [scan_succ n hgo]
          by_cases hdashes : a = bytes "--"
          · subst hdashes
            rw [optNamedRound_dashes hget, scan_of_stopped (hends _ rfl)]
            refine Or.inl ⟨herr, [], ?_, hread⟩
            show OptSwitches strtod optv (bytes "--" :: r) (argv.drop (s.optind + 1)) []
            rw [hnext]
            exact .dashes
          by_cases hhead : a.head? = some 45
          · rw [optNamedRound_named hget hhead hdashes, optGet_congr hread.decl]
            cases hname : optGet optv (a.dropWhile (· = 45)) with
            | none =>
                -- the option is not in the table
                rw [Option.elim_none, scan_of_stopped (hends _ rfl)]
                refine Or.inr ⟨show optErrOpt ≠ 0 by decide, fun rest ks' h => ?_⟩
                obtain ⟨k, -, -, -, -, -, hk, -⟩ := h.of_named hhead hdashes
                exact absurd (hname.symm.trans hk) (by simp)
            | some k =>
                obtain ⟨opt₀, hopt₀⟩ := optGet_some hname
                obtain ⟨opt, hopt, hdecl⟩ := hread.entry hopt₀
                have htype : opt.argtype = opt₀.argtype := congrArg (fun d => d.2.1) hdecl
                rw [Option.elim_some, hopt, Option.elim_some]
                by_cases hok : (optSetval strtod argv opt s.optind).opt.err = 0
                · -- its value is taken, and the loop goes on behind it
                  obtain ⟨rest, htakes⟩ := optTakes_of_setval hok
                  obtain ⟨hholds, hrest⟩ := optSetval_of_takes htakes
                  obtain ⟨v, r', rfl⟩ := htakes.rest_cons
                  obtain ⟨hlt', -, hnext'⟩ := drop_eq_cons hrest
                  have hle : s.optind ≤ (optSetval strtod argv opt s.optind).argidx :=
                    optSetval_le s.optind
                  have hset : OptRead strtod optv (k :: ks) _ := hread.set hopt (optSetval_decl _) hholds
                  have hrun := ih (s := ⟨_, _, _, _⟩) hset hok
                    (show (s.done || !decide ((optSetval strtod argv opt s.optind).opt.err = 0)) = false
                      by simp [hdone, hok])
                    (show argv.length - ((optSetval strtod argv opt s.optind).argidx +
                      if (optSetval strtod argv opt s.optind).opt.err = 0 then 1 else 0) ≤ n
                      by rw [if_pos hok]; omega)
                  rw [hargs, htype] at htakes
                  simp only [if_pos hok, hnext'] at hrun ⊢
                  exact hrun.named hhead hdashes hname hopt₀ htakes
                · -- and otherwise it ends
                  rw [scan_of_stopped (hends _ (by simp [hok]))]
                  refine Or.inr ⟨hok, fun rest ks' h => ?_⟩
                  obtain ⟨k', opt', v, r', ks'', -, hk, hopt', htakes, -⟩ :=
                    h.of_named hhead hdashes
                  obtain rfl := Option.some.inj (hname.symm.trans hk)
                  obtain rfl := Option.some.inj (hopt₀.symm.trans hopt')
                  rw [← htype, ← hargs] at htakes
                  exact hok (optSetval_of_takes htakes).1.1
          · rw [optNamedRound_other hget hhead, scan_of_stopped (hends _ rfl)]
            refine Or.inl ⟨herr, [], ?_, hread⟩
            show OptSwitches strtod optv (a :: r) (argv.drop s.optind) []
            rw [hargs]
            exact .other hhead

end Named

/-! ### Positional arguments -/

section Positional

variable (strtod : List UInt8 → δ × Nat)

/-- Options that take a value each, and each behind the one that was taken last: a `-` in front of the
value moves the index on. -/
inductive OptApart : List UInt8 → List (List UInt8) → Prop
  | nil {args : List (List UInt8)} : OptApart [] args
  | cons {argtype : UInt8} {types : List UInt8} {a v : List UInt8} {r : List (List UInt8)}
      {val : OptVal δ} :
      argtype ≠ 0 → a.head? = some 45 → OptHas strtod argtype v val → OptApart types (v :: r) →
      OptApart (argtype :: types) (a :: v :: r)

/-- Options of these types take one argument each. The first one need not move the index. -/
inductive OptPositional : List UInt8 → List (List UInt8) → Prop
  | nil {args : List (List UInt8)} : OptPositional [] args
  | cons {argtype : UInt8} {types : List UInt8} {args rest : List (List UInt8)} :
      OptTakes strtod argtype args rest → OptApart strtod types rest →
      OptPositional (argtype :: types) args

/-- The type of an option that is required and has no value. -/
def optToFill (opt : OptSet δ) : Option UInt8 :=
  if opt.required && opt.argval.isNone then some opt.argtype else none

/-- All required options have values. -/
def OptFilled (optv : List (OptSet δ)) : Prop :=
  ∀ opt ∈ optv, opt.required = true → opt.Holds strtod

/-- Where a required option has a value, it is one of its type. -/
def OptStored (optv : List (OptSet δ)) : Prop :=
  ∀ opt ∈ optv, opt.required = true → opt.argval.isSome = true → opt.Holds strtod

variable {strtod} {argv : List (List UInt8)} {opt : OptSet δ} {optv : List (OptSet δ)}

/-- An option that the second loop passes by. -/
theorem optRequired_skip (h : (!opt.required || opt.argval.isSome) = true) (i : Nat) :
    optRequired strtod argv (opt :: optv) i =
      (opt :: (optRequired strtod argv optv i).1, (optRequired strtod argv optv i).2) := by
  rw [optRequired, if_pos h]

/-- An option that takes a value. -/
theorem optRequired_take (h : (!opt.required || opt.argval.isSome) = false) {i : Nat}
    (hok : (optSetval strtod argv opt i).opt.err = 0) :
    optRequired strtod argv (opt :: optv) i =
      ((optSetval strtod argv opt i).opt ::
          (optRequired strtod argv optv (optSetval strtod argv opt i).argidx).1,
        (optRequired strtod argv optv (optSetval strtod argv opt i).argidx).2.1,
        (optSetval strtod argv opt i).argidx ::
          (optRequired strtod argv optv (optSetval strtod argv opt i).argidx).2.2) := by
  rw [optRequired, h]
  simp only [Bool.false_eq_true, if_false, if_pos hok]

/-- An option that takes none. -/
theorem optRequired_fail (h : (!opt.required || opt.argval.isSome) = false) {i : Nat}
    (hbad : (optSetval strtod argv opt i).opt.err ≠ 0) :
    optRequired strtod argv (opt :: optv) i =
      ((optSetval strtod argv opt i).opt :: optv, (optSetval strtod argv opt i).argidx, []) := by
  rw [optRequired, h]
  simp only [Bool.false_eq_true, if_false, if_neg hbad]

/-- The places that are taken do not go back. -/
theorem optRequired_ge (i : Nat) : ∀ q ∈ (optRequired strtod argv optv i).2.2, i ≤ q := by
  induction optv generalizing i with
  | nil => exact fun q hq => absurd hq List.not_mem_nil
  | cons opt optv ih =>
      cases h : !opt.required || opt.argval.isSome with
      | true =>
          rw [optRequired_skip h]
          exact ih i
      | false =>
          by_cases hok : (optSetval strtod argv opt i).opt.err = 0
          · rw [optRequired_take h hok]
            intro q hq
            have hle : i ≤ (optSetval strtod argv opt i).argidx := optSetval_le i
            rcases List.mem_cons.mp hq with rfl | hq
            · exact hle
            · exact Nat.le_trans hle (ih _ q hq)
          · rw [optRequired_fail h hok]
            exact fun q hq => absurd hq List.not_mem_nil

/-- Where a place is not taken again, all places are behind it. -/
theorem optRequired_gt {i : Nat} (h : i ∉ (optRequired strtod argv optv i).2.2) :
    ∀ q ∈ (optRequired strtod argv optv i).2.2, i < q := by
  intro q hq
  refine Nat.lt_of_le_of_ne (optRequired_ge i q hq) ?_
  rintro rfl
  exact h hq

/-- An option that is passed by has a value, or none is required. -/
theorem optFilled_skip {l : List (OptSet δ)} (h : (!opt.required || opt.argval.isSome) = true) :
    OptFilled strtod (opt :: l) ↔
      (opt.required = true → opt.argval.isSome = true → opt.Holds strtod) ∧ OptFilled strtod l := by
  unfold OptFilled
  rw [List.forall_mem_cons]
  refine and_congr_left fun _ => ⟨fun hreq h' _ => hreq h', fun hstored h' => hstored h' ?_⟩
  simpa [h'] using h

theorem optStored_cons :
    OptStored strtod (opt :: optv) ↔
      (opt.required = true → opt.argval.isSome = true → opt.Holds strtod) ∧ OptStored strtod optv :=
  List.forall_mem_cons

theorem optToFill_skip (h : (!opt.required || opt.argval.isSome) = true) : optToFill opt = none := by
  rw [optToFill, if_neg]
  cases hval : opt.argval <;> simp_all

section Left

variable (h : (!opt.required || opt.argval.isSome) = false)
include h

theorem optToFill_take : optToFill opt = some opt.argtype := by
  rw [optToFill, if_pos]
  simpa using h

theorem required_of_left : opt.required = true := by
  simp only [Bool.or_eq_false_iff, Bool.not_eq_false'] at h
  exact h.1

theorem optStored_left : OptStored strtod (opt :: optv) ↔ OptStored strtod optv := by
  rw [optStored_cons]
  refine and_iff_right fun _ hsome => ?_
  rw [hsome, Bool.or_true] at h
  exact absurd h (by decide)

/-- An option without a value is not filled by an error. -/
theorem not_optFilled_fail {i : Nat} (hbad : (optSetval strtod argv opt i).opt.err ≠ 0) :
    ¬OptFilled strtod (optRequired strtod argv (opt :: optv) i).1 := by
  rw [optRequired_fail h hbad]
  intro hfilled
  have hreq : (optSetval strtod argv opt i).opt.required = opt.required :=
    congrArg (fun d => d.2.2) (optSetval_decl i)
  exact hbad (hfilled _ (List.mem_cons_self ..) (hreq.trans (required_of_left h))).1

/-- Where the table is filled, the option has taken a value. -/
theorem optTakes_of_filled {i : Nat}
    (hfilled : OptFilled strtod (optRequired strtod argv (opt :: optv) i).1) :
    (optSetval strtod argv opt i).opt.err = 0 ∧
      OptTakes strtod opt.argtype (argv.drop i)
        (argv.drop (optSetval strtod argv opt i).argidx) := by
  have hok : (optSetval strtod argv opt i).opt.err = 0 := by
    by_contra hbad
    exact not_optFilled_fail h hbad hfilled
  obtain ⟨rest, htakes⟩ := optTakes_of_setval hok
  rw [(optSetval_of_takes htakes).2]
  exact ⟨hok, htakes⟩

/-- Where the option takes a value, the table is filled if the rest is. -/
theorem optFilled_take {i : Nat} {rest : List (List UInt8)}
    (htakes : OptTakes strtod opt.argtype (argv.drop i) rest) :
    OptFilled strtod (optRequired strtod argv (opt :: optv) i).1 ↔
      OptFilled strtod (optRequired strtod argv optv (optSetval strtod argv opt i).argidx).1 := by
  have hholds := (optSetval_of_takes htakes).1
  rw [optRequired_take h hholds.1]
  exact List.forall_mem_cons.trans (and_iff_right fun _ => hholds)

end Left

/-- A value behind a `-`: the index was moved on. -/
theorem OptTakes.moved {argtype : UInt8} {i p : Nat}
    (h : OptTakes strtod argtype (argv.drop i) (argv.drop p)) (hip : i < p) :
    ∃ a v r val, argv.drop i = a :: v :: r ∧ argv.drop p = v :: r ∧ argtype ≠ 0 ∧
      a.head? = some 45 ∧ OptHas strtod argtype v val := by
  have hne : argv.drop p ≠ argv.drop i := by
    intro hsame
    obtain ⟨v, r, hrest⟩ := h.rest_cons
    obtain ⟨hlt, -⟩ := drop_eq_cons (hsame.symm.trans hrest)
    have hlen := congrArg List.length hsame
    simp only [List.length_drop] at hlen
    omega
  generalize argv.drop i = args at h hne
  generalize argv.drop p = rest at h hne
  cases h with
  | flag                      => exact absurd rfl hne
  | here                      => exact absurd rfl hne
  | behind htype hhead hval => exact ⟨_, _, _, _, rfl, rfl, htype, hhead, hval⟩

/-- The second loop behind a value that was taken: it fills the table from other arguments if and only
if the options that are left are apart. -/
theorem optRequired_apart_iff (i : Nat) :
    OptFilled strtod (optRequired strtod argv optv i).1 ∧
        (∀ q ∈ (optRequired strtod argv optv i).2.2, i < q) ∧
        (optRequired strtod argv optv i).2.2.Nodup ↔
      OptStored strtod optv ∧ OptApart strtod (optv.filterMap optToFill) (argv.drop i) := by
  induction optv generalizing i with
  | nil =>
      refine iff_of_true ⟨?_, ?_, List.nodup_nil⟩ ⟨?_, .nil⟩
      · exact fun o ho => absurd ho List.not_mem_nil
      · exact fun q hq => absurd hq List.not_mem_nil
      · exact fun o ho => absurd ho List.not_mem_nil
  | cons opt optv ih =>
      cases h : !opt.required || opt.argval.isSome with
      | true =>
          rw [optRequired_skip h, optFilled_skip h, optStored_cons,
            List.filterMap_cons_none (optToFill_skip h), and_assoc, and_assoc, ih i]
      | false =>
          rw [optStored_left h, List.filterMap_cons_some (optToFill_take h)]
          constructor
          · rintro ⟨hfilled, hplaces, hnodup⟩
            obtain ⟨hok, htakes⟩ := optTakes_of_filled h hfilled
            rw [optFilled_take h htakes] at hfilled
            rw [optRequired_take h hok, List.forall_mem_cons] at hplaces
            rw [optRequired_take h hok, List.nodup_cons] at hnodup
            obtain ⟨hstored, hapart⟩ := (ih _).mp ⟨hfilled, optRequired_gt hnodup.1, hnodup.2⟩
            -- the place is a new one, so the index was moved on by a `-`
            obtain ⟨a, v, r, val, hargs, hrest', htype, hhead, hval⟩ := htakes.moved hplaces.1
            rw [hrest'] at hapart
            rw [hargs]
            exact ⟨hstored, .cons htype hhead hval hapart⟩
          · rintro ⟨hstored, hapart⟩
            generalize hargs : argv.drop i = args at hapart
            cases hapart with
            | @cons _ _ a v r val htype hhead hval hapart =>
                have htakes : OptTakes strtod opt.argtype (argv.drop i) (v :: r) := by
                  rw [hargs]
                  exact .behind htype hhead hval
                obtain ⟨hholds, hrest⟩ := optSetval_of_takes htakes
                rw [← hrest] at hapart
                obtain ⟨hfilled, hplaces, hnodup⟩ := (ih _).mpr ⟨hstored, hapart⟩
                -- at the same place, `v :: r` would be as long as `a :: v :: r`
                have hlt : i < (optSetval strtod argv opt i).argidx := by
                  refine Nat.lt_of_le_of_ne (optSetval_le i) fun hsame => ?_
                  rw [← hsame, hargs] at hrest
                  exact absurd (congrArg List.length hrest) (by simp)
                refine ⟨(optFilled_take h htakes).mpr hfilled, ?_, ?_⟩
                · rw [optRequired_take h hholds.1, List.forall_mem_cons]
                  exact ⟨hlt, fun q hq => Nat.lt_trans hlt (hplaces q hq)⟩
                · rw [optRequired_take h hholds.1, List.nodup_cons]
                  exact ⟨fun hmem => Nat.lt_irrefl _ (hplaces _ hmem), hnodup⟩

/-- The second loop: it fills the table, from distinct arguments, if and only if the options that are
left take values, each but the first one behind the one before. -/
theorem optRequired_iff (i : Nat) :
    OptFilled strtod (optRequired strtod argv optv i).1 ∧
        (optRequired strtod argv optv i).2.2.Nodup ↔
      OptStored strtod optv ∧ OptPositional strtod (optv.filterMap optToFill) (argv.drop i) := by
  induction optv with
  | nil =>
      refine iff_of_true ⟨?_, List.nodup_nil⟩ ⟨?_, .nil⟩
      · exact fun o ho => absurd ho List.not_mem_nil
      · exact fun o ho => absurd ho List.not_mem_nil
  | cons opt optv ih =>
      cases h : !opt.required || opt.argval.isSome with
      | true =>
          rw [optRequired_skip h, optFilled_skip h, optStored_cons,
            List.filterMap_cons_none (optToFill_skip h), and_assoc, and_assoc, ih]
      | false =>
          rw [optStored_left h, List.filterMap_cons_some (optToFill_take h)]
          constructor
          · rintro ⟨hfilled, hnodup⟩
            obtain ⟨hok, htakes⟩ := optTakes_of_filled h hfilled
            rw [optFilled_take h htakes] at hfilled
            rw [optRequired_take h hok, List.nodup_cons] at hnodup
            -- the first option may take the argument at the index; the others are behind it
            obtain ⟨hstored, hapart⟩ :=
              (optRequired_apart_iff _).mp ⟨hfilled, optRequired_gt hnodup.1, hnodup.2⟩
            exact ⟨hstored, .cons htakes hapart⟩
          · rintro ⟨hstored, hpos⟩
            cases hpos with
            | cons htakes hapart =>
                obtain ⟨hholds, hrest⟩ := optSetval_of_takes htakes
                rw [← hrest] at hapart
                obtain ⟨hfilled, hplaces, hnodup⟩ := (optRequired_apart_iff _).mpr ⟨hstored, hapart⟩
                refine ⟨(optFilled_take h htakes).mpr hfilled, ?_⟩
                rw [optRequired_take h hholds.1, List.nodup_cons]
                exact ⟨fun hmem => Nat.lt_irrefl _ (hplaces _ hmem), hnodup⟩

end Positional

/-! ### Both loops -/

/-- Every entry of a list, found at its index. -/
theorem filterMap_range {α β : Type} (f : α → Option β) (l : List α) :
    (List.range l.length).filterMap (fun k => l[k]?.bind f) = l.filterMap f := by
  induction l with
  | nil => rfl
  | cons x l ih =>
      rw [List.length_cons, List.range_succ_eq_map, List.filterMap_cons, List.filterMap_map]
      simp only [List.getElem?_cons_zero, Option.bind_some, List.filterMap_cons]
      have hrest : (List.range l.length).filterMap ((fun k => (x :: l)[k]?.bind f) ∘ Nat.succ) =
          l.filterMap f := by
        rw [← ih]
        rfl
      rw [hrest]

section Argv

variable (strtod : List UInt8 → δ × Nat) (optv : List (OptSet δ)) (argv : List (List UInt8))

/-- The types of the required options that are neither named nor have a value before. -/
def optMissing (named : List Nat) : List UInt8 :=
  (List.range optv.length).filterMap fun k => if k ∈ named then none else optv[k]?.bind optToFill

/-- A required option that is not named has no value before, or one of its type. -/
def OptBefore (named : List Nat) : Prop :=
  ∀ k opt, optv[k]? = some opt → k ∉ named → opt.required = true → opt.argval.isSome = true →
    opt.Holds strtod

/-- A result that is no error: all required options have values of their types, and those that are not
named have taken distinct arguments. -/
def OptRequiredOk (r : OptArgs δ) : Prop :=
  0 ≤ r.ret → OptFilled strtod r.optv ∧ r.took.Nodup

variable {strtod optv argv}

/-- Behind the first loop the options to fill are the missing ones. -/
theorem OptRead.missing {named : List Nat} {optv' : List (OptSet δ)}
    (h : OptRead strtod optv named optv') : optv'.filterMap optToFill = optMissing optv named := by
  have hlen : optv'.length = optv.length := by
    have hdecl := congrArg List.length h.decl
    rwa [List.length_map, List.length_map] at hdecl
  rw [← filterMap_range, optMissing, hlen]
  refine List.filterMap_congr fun k hk => ?_
  by_cases hnamed : k ∈ named
  · rw [if_pos hnamed]
    have hlt : k < optv'.length := by rw [hlen]; exact List.mem_range.mp hk
    have hopt := List.getElem?_eq_getElem hlt
    obtain ⟨-, v, hval, -⟩ := h.holds k hnamed _ hopt
    rw [hopt, Option.bind_some, optToFill, hval]
    simp
  · rw [if_neg hnamed, h.same k hnamed]

/-- The first loop stores values of their types, so what matters is what stood there before. -/
theorem OptRead.stored_iff {named : List Nat} {optv' : List (OptSet δ)}
    (h : OptRead strtod optv named optv') : OptStored strtod optv' ↔ OptBefore strtod optv named := by
  constructor
  · intro hstored k opt hopt hnamed
    rw [← h.same k hnamed] at hopt
    exact hstored opt (List.mem_of_getElem? hopt)
  · intro hbefore opt hmem
    obtain ⟨k, hopt⟩ := List.mem_iff_getElem?.mp hmem
    by_cases hnamed : k ∈ named
    · exact fun _ _ => h.holds k hnamed opt hopt
    · rw [h.same k hnamed] at hopt
      exact hbefore k opt hopt hnamed

/-- The required options are present, whenever `opt_argv2optv` returns an index, if and only if those
that are not named take values of their types from the arguments behind the named ones, each but the
first one behind the one before. -/
theorem optArgv2optv_required_iff (strtod : List UInt8 → δ × Nat) (optv : List (OptSet δ))
    (argv : List (List UInt8)) :
    OptRequiredOk strtod (optArgv2optv strtod optv argv) ↔
      ∀ rest named, OptSwitches strtod optv argv rest named →
        OptBefore strtod optv named ∧ OptPositional strtod (optMissing optv named) rest := by
  have hstart : OptRead strtod optv [] optv :=
    ⟨rfl, fun k hk => absurd hk List.not_mem_nil, fun _ _ => rfl⟩
  have hends := optNamedLoop_ends (s := ⟨optv, 0, 0, false⟩) argv.length hstart rfl rfl
    (Nat.le_of_eq (Nat.sub_zero _))
  rw [List.drop_zero] at hends
  unfold OptRequiredOk optArgv2optv
  generalize scan (optNamedRound strtod argv) (optNamedStopped argv.length) argv.length
    ⟨optv, 0, 0, false⟩ = t at hends
  rcases hends with ⟨herr, named, hswitches, hread⟩ | ⟨herr, hnone⟩
  · rw [List.append_nil] at hread
    simp only [if_pos herr]
    rw [forall_prop_of_true (Int.natCast_nonneg _), optRequired_iff, hread.stored_iff, hread.missing]
    constructor
    · rintro hboth rest named' hswitches'
      obtain ⟨rfl, rfl⟩ := hswitches.unique hswitches'
      exact hboth
    · exact fun hall => hall _ _ hswitches
  · -- an error of the first loop is returned
    simp only [if_neg herr]
    refine iff_of_true (fun hret => absurd hret (by omega)) fun rest named h => ?_
    exact absurd h (hnone rest named)

/-- Two required options take one argument, and where an option has none the error is lost. -/
theorem optArgv2optv_required_lost :
    ¬OptRequiredOk (fun _ => ((0 : Int), 0)) (optArgv2optv (fun _ => ((0 : Int), 0))
      (optNamev2optv [bytes "!s=from", bytes "!s=to"] 3) [bytes "a", bytes "b"]) ∧
    ¬OptRequiredOk (fun _ => ((0 : Int), 0)) (optArgv2optv (fun _ => ((0 : Int), 0))
      (optNamev2optv [bytes "!s=from"] 2) []) := by
  refine ⟨fun h => ?_, fun h => ?_⟩
  · have hnodup := (h (by decide)).2
    exact absurd hnodup (by decide)
  · have hfilled := (h (by decide)).1
    exact absurd (hfilled _ (List.mem_cons_self ..) rfl).1 (by decide)

end Argv

/-- A table that is made from names has no values before. -/
theorem optNamev2optv_before (strtod : List UInt8 → δ × Nat) (namev : List (List UInt8)) (optn : Nat)
    (named : List Nat) : OptBefore strtod (optNamev2optv namev optn) named := by
  intro k opt hopt _ _ hval
  obtain ⟨name, -, rfl⟩ := List.mem_map.mp (List.mem_of_getElem? hopt)
  exact absurd hval Bool.false_ne_true

end Bklib
