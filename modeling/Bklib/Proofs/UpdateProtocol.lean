import Bklib.Lib.Protocol
import Bklib.Proofs.HttpGetWith

/-!
# `Bklib.Proofs.UpdateProtocol`: the order in which `update` does things

`UpdatePhase.next` is the protocol of `update.h`: ask, download, report the progress, install, and
say that the update is running. A callback that answers with something else than 0 stops it, except
that the answer to a report of the progress is lost where the file is not downloaded but read.
Commands are run for a file only that was received and closed, and whose installation was answered
0.

Every run of `update` follows the protocol and comes to one of its ends, with the result that
belongs to it (`update_follows`). So whatever `update` runs has been agreed to (`update_consents`).
-/

set_option autoImplicit false

namespace Bklib

open Bklib.Lib

/-! ## The protocol -/

/-- The commands for a file, in one of these orders. Which script there is is looked up late, and
there may be none. -/
def updatePlans (path : List UInt8) : List (List UpdateEvent) :=
  if strcasecmpEq (path.drop (path.length - tarGz.length)) tarGz then
    let untar := [.procRun ((bytes "tar zxf '" ++ path ++ bytes "'").take (updateBufSize - 1)),
      .chdir (path.take (path.length - tarGz.length))]
    [ untar ++ [.procStart (bytes "sh ./INSTALL.sh"), .chdir (bytes "..")],
      untar ++ [.procStart (bytes "sh ./install.sh"), .chdir (bytes "..")],
      untar ++ [.chdir (bytes "..")] ]
  else [[.procStart ((bytes "\"./" ++ path ++ bytes "\"").take (updateBufSize - 1))]]

/-- How far an update has come. -/
inductive UpdatePhase where
  | idle
  | asked
  /-- The download was answered 0, and this is the struct behind the answer. -/
  | ready (up : UpdateT)
  /-- The file is open, and has this in it. The flag is for a file that is read, not downloaded. -/
  | receiving (path data : List UInt8) (file : Bool)
  /-- A report was answered with `i`, which is not 0. -/
  | cancelled (i : Int) (path data : List UInt8) (file : Bool)
  | received (path data : List UInt8)
  /-- The installation was answered 0. These commands were run. -/
  | installing (up : UpdateT) (done : List UpdateEvent)
  | stopped (i : Int)
  | updated (i : Int)
  /-- An error was reported, and answered with `i`. The file may be open still. -/
  | failed (opened : Bool) (i : Int)

namespace UpdatePhase

/-- The next phase, if the callback agrees. -/
def answered (i : Int) (p : UpdatePhase) : UpdatePhase := if i = 0 then p else .stopped i

/-- The commands for the file at `new_path`. -/
def plans (up : UpdateT) : List (List UpdateEvent) := (up.path.map updatePlans).getD []

/-- An error is reported. -/
def report (i : Int) : UpdatePhase → Option UpdatePhase
  | idle            => some (failed false i)
  | ready _         => some (failed false i)
  | receiving ..    => some (failed true i)
  | cancelled ..    => some (failed true i)
  | installing _ _  => some (failed false i)
  | stopped _       => some (failed false i)
  | updated _       => some (failed false i)
  | _               => none

/-- The callback is called. -/
def call (before behind : UpdateT) (i : Int) (p : UpdatePhase) : Option UpdatePhase :=
  match before.state, p with
  | .ask, idle =>
      -- whether the update is newer is said right
      if before.cmpNewer = decide (vercmp before.oldVer before.newVer < 0) then
        some (answered i asked)
      else none
  | .download, asked => some (answered i (ready behind))
  | .progress, receiving path data file =>
      some (if i = 0 then receiving path data file else cancelled i path data file)
  | .install, received _ _ => some (answered i (installing behind []))
  | .updated, installing up done => if done ∈ plans up then some (updated i) else none
  | .error, p => p.report i
  | _, _ => none

/-- The protocol. -/
def next (p : UpdatePhase) (event : UpdateEvent) : Option UpdatePhase :=
  match event, p with
  | .func before behind i, p => p.call before behind i
  | .fopen path, ready up =>
      if up.path = some path then some (receiving path [] (httpGetIsFile up.newUrl)) else none
  | .fwrite bs, receiving path data file => some (receiving path (data ++ bs) file)
  | .fclose, receiving path data _ => some (received path data)
  | .fclose, cancelled i path data file => some (if file then received path data else stopped i)
  | .fclose, failed true i => some (failed false i)
  | event, installing up done =>
      if ∃ plan ∈ plans up, done ++ [event] <+: plan then some (installing up (done ++ [event]))
      else none
  | _, _ => none

/-- Where an update ends, and with which result. Nothing is reported where there is no memory. -/
def Ends (ret : Int) : UpdatePhase → Prop
  | idle           => ret = -1
  | stopped i      => ret = i
  | updated i      => ret = i
  | failed false i => ret = i ∨ ret = -1
  | _              => False

end UpdatePhase

/-- The phase behind the events. -/
def updatePhase (events : List UpdateEvent) : Option UpdatePhase :=
  follow UpdatePhase.next .idle events

/-- A command is run, or the directory of one is entered or left. -/
def UpdateEvent.isCommand : UpdateEvent → Bool
  | procRun _   => true
  | chdir _     => true
  | procStart _ => true
  | _           => false

/-! ## Steps -/

/-- The protocol allows what was done, and this is the phase. -/
def Update.At (s : Update) (p : UpdatePhase) : Prop := updatePhase s.events = some p

/-- Where the loop of `update` may be left: at an end, or with an error to report. -/
def Update.Settled (s : Update) : Prop :=
  ∃ p, s.At p ∧ (s.up.error = .none → p.Ends s.err) ∧
    (s.up.error ≠ .none → ∀ i, p.report i = some (.failed false i))

section Steps

variable {e : UpdateEnv} {s : Update} {p q : UpdatePhase}

/-- A call of the callback takes the phase along as its answer says. -/
theorem Update.At.func (h : s.At p) (e : UpdateEnv) (state : UpdateState)
    (hq : p.call { s.up with state } (s.func e state).up (s.func e state).i = some q) :
    (s.func e state).At q :=
  follow_concat h hq

/-- So does an event that is no call of it. -/
theorem Update.At.act (h : s.At p) (event : UpdateEvent) (i : Int) (hq : p.next event = some q) :
    (s.act event i).At q :=
  follow_concat h hq

/-- The callback stops the update. -/
theorem Update.At.stopped {i : Int} (h : s.At (.stopped i)) (herr : s.err = i) : s.Settled :=
  ⟨_, h, fun _ => herr, fun _ _ => rfl⟩

/-- An error is reported behind the loop. -/
theorem updateReport_ends (h : s.Settled) :
    ∃ p, (updateReport e s).At p ∧ p.Ends (updateReport e s).err := by
  obtain ⟨p, hp, hends, hreport⟩ := h
  unfold updateReport
  by_cases herr : s.up.error = .none
  · rw [if_neg (not_not_intro herr)]
    exact ⟨p, hp, hends herr⟩
  · rw [if_pos herr]
    exact ⟨_, hp.func e .error (hreport herr _), Or.inl rfl⟩

/-! ### The commands -/

/-- A command that comes next in a plan. -/
theorem UpdatePhase.next_command {up : UpdateT} {done plan : List UpdateEvent} {event : UpdateEvent}
    (hcommand : event.isCommand = true) (hplan : plan ∈ plans up)
    (hpre : done ++ [event] <+: plan) :
    (installing up done).next event = some (installing up (done ++ [event])) := by
  have hex : ∃ plan ∈ plans up, done ++ [event] <+: plan := ⟨plan, hplan, hpre⟩
  cases event with
  | procRun cmd => exact if_pos hex
  | chdir dir => exact if_pos hex
  | procStart cmd => exact if_pos hex
  | func before behind i => cases hcommand
  | fopen path => cases hcommand
  | fwrite bs => cases hcommand
  | fclose => cases hcommand

/-- The commands `done` were run, and nothing else happened. -/
structure Update.Ran (s t : Update) (up : UpdateT) (done : List UpdateEvent) : Prop where
  place  : t.At (.installing up done)
  events : t.events = s.events ++ done
  error  : t.up.error = s.up.error
  fault  : t.fault = s.fault

/-- A further command of the plan was run. -/
theorem Update.Ran.act {t : Update} {up : UpdateT} {done plan : List UpdateEvent}
    {event : UpdateEvent} (h : s.Ran t up done) (i : Int) (hcommand : event.isCommand = true)
    (hplan : plan ∈ UpdatePhase.plans up) (hpre : done ++ [event] <+: plan) :
    s.Ran (t.act event i) up (done ++ [event]) where
  place := h.place.act event i (UpdatePhase.next_command hcommand hplan hpre)
  events := by
    show t.events ++ [event] = _
    rw [h.events, List.append_assoc]
  error := h.error
  fault := h.fault

/-- The commands are those of a plan, and all of them if none fails. -/
def Update.Runs (s t : Update) (up : UpdateT) : Prop :=
  ∃ done, s.Ran t up done ∧ (0 ≤ t.i → done ∈ UpdatePhase.plans up)

/-- A command that fails is the last one. -/
theorem Update.Ran.fails {t : Update} {up : UpdateT} {done : List UpdateEvent} (h : s.Ran t up done)
    (hi : t.i < 0) : s.Runs t up :=
  ⟨done, h, fun hle => absurd hi (Int.not_lt.mpr hle)⟩

/-- An archive is unpacked and what is in it is installed, up to the first command that fails. -/
theorem updateUntar_runs {up : UpdateT} {path : List UInt8} (h : s.At (.installing up []))
    (hpath : up.path = some path)
    (htar : strcasecmpEq (path.drop (path.length - tarGz.length)) tarGz = true) :
    s.Runs (updateUntar e path s) up := by
  have hplans : UpdatePhase.plans up = updatePlans path := by rw [UpdatePhase.plans, hpath]; rfl
  unfold updatePlans at hplans
  simp only [if_pos htar, List.cons_append, List.nil_append] at hplans
  unfold updateUntar
  dsimp only
  generalize (bytes "tar zxf '" ++ path ++ bytes "'").take (updateBufSize - 1) = cmd at hplans ⊢
  generalize path.take (path.length - tarGz.length) = dir at hplans ⊢
  have hshort : [UpdateEvent.procRun cmd, .chdir dir, .chdir (bytes "..")]
      ∈ UpdatePhase.plans up := by
    rw [hplans]
    simp
  have hstart : s.Ran s up [] := ⟨h, (List.append_nil _).symm, rfl, rfl⟩
  have hcmd := hstart.act (e.procRun cmd) rfl hshort ⟨_, rfl⟩
  split
  · exact hcmd.fails ‹_›
  -- the path is cut off before its suffix
  have hcut : s.Ran { s.act (.procRun cmd) (e.procRun cmd) with
      up := { (s.act (.procRun cmd) (e.procRun cmd)).up with
        newPath := (s.act (.procRun cmd) (e.procRun cmd)).up.newPath.set dir.length 0 } }
      up [.procRun cmd] := ⟨hcmd.place, hcmd.events, hcmd.error, hcmd.fault⟩
  have hdir := hcut.act (e.chdir dir) rfl hshort ⟨_, rfl⟩
  split
  · exact hdir.fails ‹_›
  have hback : ∀ {t done}, s.Ran t up done → done ++ [.chdir (bytes "..")] ∈ UpdatePhase.plans up →
      s.Runs (t.act (.chdir (bytes "..")) (e.chdir (bytes ".."))) up := by
    intro t done ht hmem
    exact ⟨_, ht.act _ rfl hmem (List.prefix_refl _), fun _ => hmem⟩
  split
  · have hmem : [UpdateEvent.procRun cmd, .chdir dir, .procStart (bytes "sh ./INSTALL.sh"),
        .chdir (bytes "..")] ∈ UpdatePhase.plans up := by
      rw [hplans]
      simp
    exact hback (hdir.act _ rfl hmem ⟨_, rfl⟩) hmem
  split
  · have hmem : [UpdateEvent.procRun cmd, .chdir dir, .procStart (bytes "sh ./install.sh"),
        .chdir (bytes "..")] ∈ UpdatePhase.plans up := by
      rw [hplans]
      simp
    exact hback (hdir.act _ rfl hmem ⟨_, rfl⟩) hmem
  · exact hback hdir hshort

/-- A file that was fetched is run as its name says, or the memory is used up. -/
theorem updateRun_runs {up : UpdateT} (h : s.At (.installing up [])) (hup : up.path = s.up.path) :
    (updateRun e s).fault = true ∨ s.Runs (updateRun e s) up := by
  unfold updateRun
  cases hpath : s.up.path with
  | none => exact Or.inl rfl
  | some path =>
      dsimp only
      split
      · exact Or.inl rfl
      refine Or.inr ?_
      split
      · exact updateUntar_runs h (hup.trans hpath) ‹_›
      · rename_i htar
        have hmem : [UpdateEvent.procStart
            ((bytes "\"./" ++ path ++ bytes "\"").take (updateBufSize - 1))]
            ∈ UpdatePhase.plans up := by
          rw [UpdatePhase.plans, hup, hpath]
          simp [updatePlans, htar]
        have hstart : s.Ran s up [] := ⟨h, (List.append_nil _).symm, rfl, rfl⟩
        exact ⟨_, hstart.act _ rfl hmem (List.prefix_refl _), fun _ => hmem⟩

/-! ### The stages -/

/-- Where there is a result, the loop is left properly. -/
def Update.Leaves (s : Update) : Prop := s.fault = false → s.Settled

/-- A callback that has stopped the update is not called again. -/
theorem Update.At.leaves_stopped {i : Int} (h : s.At (.stopped i)) :
    Update.Leaves { s with err := i } := fun _ => ⟨_, h, fun _ => rfl, fun _ _ => rfl⟩

/-- Where the memory is used up, nothing is claimed. -/
theorem Update.leaves_fault : Update.Leaves { s with fault := true } := by
  intro h
  cases h

/-- An error is to be reported. -/
theorem Update.At.leaves_error (h : s.At p) (herr : s.up.error ≠ .none)
    (hreport : ∀ i, p.report i = some (.failed false i)) : s.Leaves :=
  fun _ => ⟨p, h, fun hnone => absurd hnone herr, fun _ => hreport⟩

/-- Installing, from the question to the last command. -/
theorem updateInstall_leaves {path data : List UInt8} (h : s.At (.received path data)) :
    (updateInstall e s).Leaves := by
  have hcall := h.func e .install rfl
  unfold updateInstall
  dsimp only
  generalize hs₁ : s.func e .install = s₁ at hcall ⊢
  unfold UpdatePhase.answered at hcall
  split
  · rename_i hi
    rw [if_neg hi] at hcall
    exact hcall.leaves_stopped
  rename_i hi
  rw [if_pos (not_not.mp hi)] at hcall
  generalize hs₂ : s₁.blame .fileBad _ = s₂
  have hplace : s₂.At (.installing s₁.up []) := hs₂ ▸ hcall
  rcases updateRun_runs (e := e) hplace (hs₂ ▸ rfl) with hfault | ⟨done, hran, hdone⟩
  · rw [if_pos (Or.inl hfault)]
    exact fun h => absurd (h.symm.trans hfault) (by simp)
  split
  · refine hran.place.leaves_error ?_ fun _ => rfl
    rw [hran.error, ← hs₂]
    simp [Update.blame]
  · rename_i hgood
    have hle : 0 ≤ (updateRun e s₂).i := Int.not_lt.mp fun hlt => hgood (Or.inr hlt)
    have hupdated : Update.At { updateRun e s₂ with
        up := { (updateRun e s₂).up with error := .none } } (.installing s₁.up done) := hran.place
    have hlast := hupdated.func e .updated (if_pos (hdone hle))
    exact fun _ => ⟨_, hlast, fun _ => rfl, fun _ _ => rfl⟩

/-! ### The download -/

/-- The file is open. -/
def Update.Receives (path : List UInt8) (file : Bool) (s : Update) : Prop :=
  ∃ data, s.At (.receiving path data file)

/-- A report was answered with `i`. -/
def Update.Cancelled (path : List UInt8) (file : Bool) (s : Update) (i : Int) : Prop :=
  ∃ data, s.At (.cancelled i path data file)

section Download

variable {path : List UInt8} {file : Bool}

/-- A piece of the file keeps the phase, unless the callback stops the download. -/
theorem updateProgress_step {arg : HttpReqProg} (h : arg.update.Receives path file)
    (k contentLen : Nat) :
    (updateProgress e arg k contentLen).i = 0 ∧
        (updateProgress e arg k contentLen).Receives path file ∨
      (updateProgress e arg k contentLen).i ≠ 0 ∧
        (updateProgress e arg k contentLen).Cancelled path file
          (updateProgress e arg k contentLen).i := by
  obtain ⟨data, h⟩ := h
  unfold updateProgress
  dsimp only
  generalize hs : ({ arg.update with up := _ } : Update) = s
  have hs : s.At (.receiving path data file) := hs ▸ h
  have hcall := hs.func e .progress rfl
  by_cases hi : (s.func e .progress).i = 0
  · rw [if_pos hi] at hcall
    exact Or.inl ⟨hi, data, hcall⟩
  · rw [if_neg hi] at hcall
    exact Or.inr ⟨hi, data, hcall⟩

/-- Only the pieces and the error are of interest. -/
theorem httpReqProg_quiet {arg : HttpReqProg} {c : HttpReqCall} (hc : c.req.reqState ≠ .error)
    (hbody : c.req.reqState ≠ .body) : httpReqProg e arg c = (arg, 0) := by
  unfold httpReqProg
  split
  · exact absurd ‹_› hc
  · exact absurd ‹_› hbody
  · rfl

/-- A call of `http_req_prog` that is no error. -/
theorem httpReqProg_step {arg : HttpReqProg} {c : HttpReqCall} (h : arg.update.Receives path file)
    (hc : c.req.reqState ≠ .error) :
    (httpReqProg e arg c).2 = 0 ∧ (httpReqProg e arg c).1.update.Receives path file ∨
      (httpReqProg e arg c).2 ≠ 0 ∧
        (httpReqProg e arg c).1.update.Cancelled path file (httpReqProg e arg c).2 := by
  by_cases hst : c.req.reqState = .body
  · obtain ⟨data, h⟩ := h
    have hwrite : ∀ bs i, (arg.update.act (.fwrite bs) i).Receives path file :=
      fun bs i => ⟨data ++ bs, h.act _ _ rfl⟩
    unfold httpReqProg
    rw [hst]
    dsimp only
    split
    · exact Or.inl ⟨rfl, hwrite _ _⟩
    · split
      · exact updateProgress_step (hwrite _ _) _ _
      · exact Or.inl ⟨rfl, hwrite _ _⟩
  · rw [httpReqProg_quiet hc hst]
    exact Or.inl ⟨rfl, h⟩

/-- The download: its pieces go to the file, one after the other. -/
theorem updateFetch_leaves (h : s.At (.receiving path [] (httpGetIsFile s.up.newUrl))) :
    (updateFetch e s).Leaves := by
  obtain ⟨cs, t, i, hdialogue, hcs, hget⟩ :=
    httpGetWith_dialogue e.installGet s.up.newUrl (httpReqProg e) ⟨s, 0, 0⟩
  generalize hfile : httpGetIsFile s.up.newUrl = file at h hget
  have hrun := hdialogue.run (P := fun arg => arg.update.Receives path file)
    (Q := fun arg => arg.update.Cancelled path file) (C := fun c => c.req.reqState ≠ .error)
    (fun _ _ => httpReqProg_step) ⟨[], h⟩ hcs
  unfold updateFetch
  rcases hget with hget | ⟨c, hc, hget⟩
  · rw [hget]
    dsimp only
    rcases hrun with ⟨rfl, data, ht⟩ | ⟨hi, data, ht⟩
    · have hclose := ht.act .fclose 0 rfl
      rw [ite_self]
      exact updateInstall_leaves hclose
    · have hclose := fun j => ht.act .fclose j rfl
      -- for a file, `http_get` forgets the answer
      cases file with
      | true => exact updateInstall_leaves (hclose 0)
      | false =>
          simp only [Bool.false_eq_true, if_false, if_pos hi] at hclose ⊢
          split
          · exact Update.At.leaves_stopped (s := { t.update.act .fclose i with
              up := { (t.update.act .fclose i).up with error := .none } }) (hclose i)
          · exact (hclose i).leaves_stopped
  · -- the error has been reported
    have hprog : httpReqProg e t c = ({ t with update := updateHttpError e t.update }, -1) := by
      unfold httpReqProg
      rw [hc]
    rw [hget, hprog]
    have hreport : ∃ j, (updateHttpError e t.update).At (.failed true j) := by
      rcases hrun with ⟨-, data, ht⟩ | ⟨-, data, ht⟩
      · exact ⟨_, ht.func e .error rfl⟩
      · exact ⟨_, ht.func e .error rfl⟩
    obtain ⟨j, hreport⟩ := hreport
    exact fun _ => ⟨_, hreport.act .fclose (-1) rfl, fun _ => Or.inr rfl,
      fun herr => absurd rfl herr⟩

/-- The file is opened, and removed again when it cannot be filled. -/
theorem updateDownload_leaves (h : s.At .asked) : (updateDownload e s).Leaves := by
  unfold updateDownload
  dsimp only
  generalize hs : ({ s with up := _ } : Update) = s₀
  have hs : s₀.At .asked := hs ▸ h
  have hcall := hs.func e .download rfl
  generalize s₀.func e .download = s₁ at hcall ⊢
  unfold UpdatePhase.answered at hcall
  split
  · rename_i hi
    rw [if_neg hi] at hcall
    exact hcall.leaves_stopped
  rename_i hi
  rw [if_pos (not_not.mp hi)] at hcall
  generalize hs₂ : s₁.blame .fileNotFound _ = s₂
  have hplace : s₂.At (.ready s₁.up) := hs₂ ▸ hcall
  have hpath : s₁.up.path = s₂.up.path := hs₂ ▸ rfl
  have hurl : s₁.up.newUrl = s₂.up.newUrl := hs₂ ▸ rfl
  have herr : s₂.up.error ≠ .none := by
    rw [← hs₂]
    simp [Update.blame]
  cases hp : s₂.up.path with
  | none => exact Update.leaves_fault
  | some path =>
      dsimp only
      split
      · exact hplace.leaves_error herr fun _ => rfl
      · have hopen : UpdatePhase.next (.ready s₁.up) (.fopen path)
            = some (.receiving path [] (httpGetIsFile s₁.up.newUrl)) := if_pos (hpath.trans hp)
        rw [hurl] at hopen
        have hreceiving : Update.At { s₂ with events := s₂.events ++ [.fopen path] }
            (.receiving path [] (httpGetIsFile s₂.up.newUrl)) := follow_concat hplace hopen
        exact updateFetch_leaves hreceiving

end Download

/-! ### The version -/

/-- The question whether to download comes first. -/
theorem updateAsk_leaves (h : s.At .idle) : (updateAsk e s).Leaves := by
  unfold updateAsk
  dsimp only
  generalize hs : ({ s with up := _ } : Update) = s₀
  have hnewer : s₀.up.cmpNewer = decide (vercmp s₀.up.oldVer s₀.up.newVer < 0) := hs ▸ rfl
  have hs : s₀.At .idle := hs ▸ h
  have hcall : (s₀.func e .ask).At (.answered (s₀.func e .ask).i .asked) :=
    hs.func e .ask (if_pos hnewer)
  generalize s₀.func e .ask = s₁ at hcall ⊢
  unfold UpdatePhase.answered at hcall
  split
  · rename_i hi
    rw [if_neg hi] at hcall
    exact hcall.leaves_stopped
  · rename_i hi
    rw [if_pos (not_not.mp hi)] at hcall
    exact updateDownload_leaves hcall

/-- What the document says is looked at in the order of the source. -/
theorem updateNewXml_leaves (find : List UInt8 → Option (List UInt8)) (h : s.At .idle)
    (herr : s.up.error ≠ .none) : (updateNewXml e find s).Leaves := by
  have hreport : ∀ up : UpdateT, up.error = s.up.error → Update.Leaves { s with up } :=
    fun up hup => Update.At.leaves_error (s := { s with up }) h (by rwa [hup]) fun _ => rfl
  unfold updateNewXml
  split
  · exact hreport s.up rfl
  dsimp only
  split
  · exact hreport _ rfl
  split
  · exact hreport _ rfl
  split
  · exact Update.leaves_fault
  split
  · exact hreport _ rfl
  split
  · exact Update.leaves_fault
  · exact updateAsk_leaves h

/-- The callback that fills a buffer looks at the body and at errors only. -/
theorem httpReqBuf_quiet {arg : HttpReqBuf} {c : HttpReqCall} (hc : c.req.reqState ≠ .error)
    (hbody : c.req.reqState ≠ .body) : httpReqBuf e arg c = (arg, 0) := by
  unfold httpReqBuf
  split
  · exact absurd ‹_› hc
  · exact absurd ‹_› hbody
  · rfl

/-- A call of `http_req_buf` that is no error. -/
theorem httpReqBuf_step {arg : HttpReqBuf} {c : HttpReqCall} (h : arg.update = s)
    (hc : c.req.reqState ≠ .error) :
    (httpReqBuf e arg c).2 = 0 ∧ (httpReqBuf e arg c).1.update = s := by
  by_cases hst : c.req.reqState = .body
  · unfold httpReqBuf
    rw [hst]
    dsimp only
    split
    · exact ⟨rfl, h⟩
    · exact ⟨rfl, h⟩
  · rw [httpReqBuf_quiet hc hst]
    exact ⟨rfl, h⟩

/-- The document is fetched before anything is asked. -/
theorem updateVersion_leaves (h : s.At .idle) (hret : s.err = -1) : (updateVersion e s).Leaves := by
  unfold updateVersion
  dsimp only
  generalize hs : s.blame .fileNotFound _ = s₁
  have hplace : s₁.At .idle := hs ▸ h
  have hret : s₁.err = -1 := hs ▸ hret
  have herr : s₁.up.error ≠ .none := by
    rw [← hs]
    simp [Update.blame]
  obtain ⟨cs, t, i, hdialogue, hcs, hget⟩ :=
    httpGetWith_dialogue e.versionGet s₁.up.newXmlUrl (httpReqBuf e) ⟨s₁, []⟩
  have hrun := hdialogue.run (P := fun arg => arg.update = s₁) (Q := fun _ _ => False)
    (C := fun c => c.req.reqState ≠ .error) (fun _ _ h hc => Or.inl (httpReqBuf_step h hc)) rfl hcs
  rcases hrun with ⟨rfl, ht⟩ | ⟨-, hfalse⟩
  · rcases hget with hget | ⟨c, hc, hget⟩
    · rw [hget]
      dsimp only
      rw [ite_self, if_neg (by decide), ht]
      split
      · exact hplace.leaves_error herr fun _ => rfl
      have hbad : Update.At { s₁ with up := { s₁.up with error := .fileBad } } .idle := hplace
      split
      · exact hbad.leaves_error (by simp) fun _ => rfl
      · exact updateNewXml_leaves _ hbad (by simp)
    · -- the error has been reported
      have hbuf : httpReqBuf e t c = ({ t with update := updateHttpError e s₁ }, -1) := by
        unfold httpReqBuf
        rw [hc, ht]
      rw [hget, hbuf]
      have hreport := hplace.func e .error rfl
      exact fun _ => ⟨_, hreport, fun _ => Or.inr hret, fun hne => absurd rfl hne⟩
  · exact hfalse.elim

/-- The whole of `update` but the report. -/
theorem updateMain_leaves (oldXmlBuf : List UInt8) (h : s.At .idle) (hret : s.err = -1)
    (hnone : s.up.error = .none) : (updateMain e oldXmlBuf s).Leaves := by
  unfold updateMain
  split
  · exact fun _ => ⟨_, h, fun _ => hret, fun herr => absurd hnone herr⟩
  dsimp only
  generalize hs : s.blame .fileBad _ = s₁
  have hplace : s₁.At .idle := hs ▸ h
  have hret : s₁.err = -1 := hs ▸ hret
  have herr : s₁.up.error ≠ .none := by
    rw [← hs]
    simp [Update.blame]
  have hreport : ∀ up : UpdateT, up.error = s₁.up.error → Update.Leaves { s₁ with up } :=
    fun up hup => Update.At.leaves_error (s := { s₁ with up }) hplace (by rwa [hup]) fun _ => rfl
  split
  · exact hreport s₁.up rfl
  split
  · exact hreport s₁.up rfl
  split
  · exact hreport s₁.up rfl
  split
  · exact hreport _ rfl
  · exact updateVersion_leaves hplace hret

end Steps

/-! ## Every run -/

/-- Every run of `update` follows the protocol, and comes to one of its ends with the result that
belongs to it. -/
theorem update_follows {e : UpdateEnv} {oldXmlBuf : List UInt8} {events : List UpdateEvent}
    {ret : Int} (h : update e oldXmlBuf = some (events, ret)) :
    ∃ p, updatePhase events = some p ∧ p.Ends ret := by
  have hstart : updateStart.At .idle := rfl
  have hleaves := updateMain_leaves (e := e) oldXmlBuf hstart rfl rfl
  unfold update at h
  by_cases hfault : (updateMain e oldXmlBuf updateStart).fault = true
  · simp only [if_pos hfault, reduceCtorEq] at h
  · simp only [if_neg hfault] at h
    rw [Option.some.injEq, Prod.mk.injEq] at h
    obtain ⟨rfl, rfl⟩ := h
    exact updateReport_ends (hleaves (by simpa using hfault))

/-! ## What is run has been agreed to -/

/-- Something is written, or the progress is reported and the answer is 0, or is lost. -/
def UpdateEvent.Fetches (file : Bool) : UpdateEvent → Prop
  | fwrite _        => True
  | func before _ i => before.state = .progress ∧ (i = 0 ∨ file = true)
  | _               => False

/-- The update and its download are agreed to, and this is the struct behind the answer. -/
def UpdateAgreed (events : List UpdateEvent) (ready : UpdateT) : Prop :=
  ∃ ask asked download, events = [.func ask asked 0, .func download ready 0] ∧ ask.state = .ask ∧
    ask.cmpNewer = decide (vercmp ask.oldVer ask.newVer < 0) ∧ download.state = .download

/-- The file at the path that was agreed to is open, and `body` has happened since. -/
def UpdateOpened (events : List UpdateEvent) (path : List UInt8) (file : Bool)
    (body : List UpdateEvent) : Prop :=
  ∃ opening ready, UpdateAgreed opening ready ∧ ready.path = some path ∧
    file = httpGetIsFile ready.newUrl ∧ events = opening ++ .fopen path :: body

/-- The file has been received and closed. -/
def UpdateReceived (events : List UpdateEvent) : Prop :=
  ∃ fetched path file body, UpdateOpened fetched path file body ∧ (∀ ev ∈ body, ev.Fetches file) ∧
    events = fetched ++ [.fclose]

/-- The installation is agreed to, and `done` has been run. -/
def UpdateInstalling (events : List UpdateEvent) (up : UpdateT) (done : List UpdateEvent) : Prop :=
  ∃ received install, UpdateReceived received ∧ install.state = .install ∧
    events = received ++ .func install up 0 :: done

/-- What the events say about the phase they have led to. -/
def UpdatePhase.History (events : List UpdateEvent) : UpdatePhase → Prop
  | idle                       => events = []
  | asked                      => ∃ ask asked, events = [.func ask asked 0] ∧ ask.state = .ask ∧
      ask.cmpNewer = decide (vercmp ask.oldVer ask.newVer < 0)
  | ready up                   => UpdateAgreed events up
  | receiving path _ file      => ∃ body, UpdateOpened events path file body ∧
      ∀ ev ∈ body, ev.Fetches file
  | cancelled _ path _ file    => ∃ body, UpdateOpened events path file body ∧
      (file = true → ∀ ev ∈ body, ev.Fetches file)
  | received _ _               => UpdateReceived events
  | installing up done         => UpdateInstalling events up done
  | _                          => True

/-- An event behind the opening of the file is behind it still. -/
theorem UpdateOpened.concat {events body : List UpdateEvent} {path : List UInt8} {file : Bool}
    (h : UpdateOpened events path file body) (event : UpdateEvent) :
    UpdateOpened (events ++ [event]) path file (body ++ [event]) := by
  obtain ⟨opening, ready, hagreed, hpath, hfile, rfl⟩ := h
  exact ⟨opening, ready, hagreed, hpath, hfile, by simp⟩

section History

variable {events : List UpdateEvent} {p q : UpdatePhase}

/-- The history of an answer that may stop the update. -/
theorem UpdatePhase.History.stopped_or {i : Int} (h : i = 0 → q.History events) :
    (answered i q).History events := by
  unfold answered
  split
  · exact h ‹_›
  · trivial

/-- A call keeps the history. -/
theorem UpdatePhase.History.call {before behind : UpdateT} {i : Int} (h : p.History events)
    (hq : p.call before behind i = some q) : q.History (events ++ [.func before behind i]) := by
  unfold UpdatePhase.call at hq
  split at hq
  · rename_i hstate
    split at hq
    · rename_i hnewer
      obtain rfl := Option.some.inj hq
      refine UpdatePhase.History.stopped_or fun hi => ⟨before, behind, ?_, hstate, hnewer⟩
      rw [show events = [] from h, hi]
      rfl
    · cases hq
  · rename_i hstate
    obtain rfl := Option.some.inj hq
    obtain ⟨ask, asked, hevents, hask, hnewer⟩ := h
    refine UpdatePhase.History.stopped_or fun hi => ⟨ask, asked, before, ?_, hask, hnewer, hstate⟩
    rw [hevents, hi]
    rfl
  · rename_i path data file hstate
    obtain rfl := Option.some.inj hq
    obtain ⟨body, hopened, hbody⟩ := h
    have hconcat := hopened.concat (.func before behind i)
    have hall : (i = 0 ∨ file = true) →
        ∀ ev ∈ body ++ [.func before behind i], UpdateEvent.Fetches file ev := by
      intro hi ev hev
      rcases List.mem_append.mp hev with hev | hev
      · exact hbody ev hev
      · rw [List.mem_singleton.mp hev]
        exact ⟨hstate, hi⟩
    split
    · exact ⟨_, hconcat, hall (Or.inl ‹_›)⟩
    · exact ⟨_, hconcat, fun hfile => hall (Or.inr hfile)⟩
  · rename_i hstate
    obtain rfl := Option.some.inj hq
    exact UpdatePhase.History.stopped_or fun hi => ⟨events, before, h, hstate, by rw [hi]⟩
  · split at hq
    · obtain rfl := Option.some.inj hq
      trivial
    · cases hq
  · unfold UpdatePhase.report at hq
    split at hq <;> cases hq <;> trivial
  · cases hq

/-- Every event keeps the history. -/
theorem UpdatePhase.History.next {event : UpdateEvent} (h : p.History events)
    (hq : p.next event = some q) : q.History (events ++ [event]) := by
  unfold UpdatePhase.next at hq
  split at hq
  · exact h.call hq
  · split at hq
    · rename_i path up hpath
      obtain rfl := Option.some.inj hq
      exact ⟨[], ⟨events, up, h, hpath, rfl, rfl⟩, fun _ hev => absurd hev List.not_mem_nil⟩
    · cases hq
  · rename_i bs path data file
    obtain rfl := Option.some.inj hq
    obtain ⟨body, hopened, hbody⟩ := h
    refine ⟨_, hopened.concat (.fwrite bs), fun ev hev => ?_⟩
    rcases List.mem_append.mp hev with hev | hev
    · exact hbody ev hev
    · rw [List.mem_singleton.mp hev]
      trivial
  · obtain rfl := Option.some.inj hq
    obtain ⟨body, hopened, hbody⟩ := h
    exact ⟨events, _, _, body, hopened, hbody, rfl⟩
  · rename_i i path data file
    obtain rfl := Option.some.inj hq
    obtain ⟨body, hopened, hbody⟩ := h
    cases file with
    | true => exact ⟨events, _, _, body, hopened, hbody rfl, rfl⟩
    | false => trivial
  · obtain rfl := Option.some.inj hq
    trivial
  · split at hq
    · obtain rfl := Option.some.inj hq
      obtain ⟨received, install, hreceived, hstate, rfl⟩ := h
      exact ⟨received, install, hreceived, hstate, by simp⟩
    · cases hq
  · cases hq

end History

/-- A file that is read. -/
def fileGetA (content : List UInt8) : HttpReqEnv where
  urlParse := none
  stat := some content.length
  fopen := true
  fread := [content]
  socket := false
  iaddrFmt := []
  connect := false
  send := false
  recv := []
  func _ := 0
  stack := []
  http := default

/-- A document whose text is its version. -/
def findA (version key : List UInt8) : Option (List UInt8) :=
  if key = bytes "/version/version" then some version
  else if key = bytes "/version/version_url" then some (bytes "file:/v.xml")
  else if key = bytes "/version/install_url" then some (bytes "file:/setup.exe")
  else some (bytes "text")

/-- An update to version 2, which the callback agrees to. -/
def updateEnvA : UpdateEnv where
  func _ up := (up, 0)
  poolNew := true
  oldXmlNew := true
  newXmlNew := true
  xmlParse doc := some (findA doc)
  versionGet := fileGetA (bytes "2")
  installGet := fileGetA (bytes "exe")
  fopen _ := true
  fwrite _ := 3
  due _ := true
  remain _ := 0
  readableDuration _ := []
  procRun _ := 0
  chdir _ := 0
  stat _ := false
  procStart _ := 1

/-- What is done for it. -/
def updateEventsA : List UpdateEvent := ((update updateEnvA (bytes "1")).map Prod.fst).getD []

/-- The program is run once: how it ends, and what it does behind the first seven events. -/
theorem updateEnvA_run : (update updateEnvA (bytes "1")).map (fun r => (r.2, r.1[7]?))
    = some (0, some (.procStart (bytes "\"./setup.exe\""))) := by decide +kernel

/-- The run of the sample. -/
theorem updateEventsA_eq : update updateEnvA (bytes "1") = some (updateEventsA, 0) := by
  obtain ⟨r, hrun, hends⟩ := Option.map_eq_some_iff.mp updateEnvA_run
  have hret : r.2 = 0 := congrArg Prod.fst hends
  rw [updateEventsA, hrun, ← hret]
  rfl

/-- A call of the callback, with its answer. -/
def UpdateEvent.call : UpdateEvent → Option (UpdateState × Int)
  | func before _ i => some (before.state, i)
  | _               => none

/-- The calls of the callback. -/
def updateCalls (events : List UpdateEvent) : List (UpdateState × Int) :=
  events.filterMap UpdateEvent.call

/-- The calls of an update that nothing stops, with `n` reports of the progress. -/
def updateSteps (n : Nat) : List UpdateState :=
  .ask :: .download :: (List.replicate n .progress ++ [.install, .updated])

/-- What the calls say about the phase they have led to. -/
def UpdatePhase.Calls (cs : List (UpdateState × Int)) : UpdatePhase → Prop
  | idle              => cs = []
  | asked             => cs.map Prod.fst = [.ask]
  | ready _           => cs.map Prod.fst = [.ask, .download]
  | receiving _ _ _   => ∃ n, cs.map Prod.fst = (updateSteps n).take (n + 2)
  | cancelled i _ _ _ => (∃ n, cs.map Prod.fst = (updateSteps n).take (n + 2)) ∧
      i ≠ 0 ∧ cs.getLast?.map Prod.snd = some i
  | received _ _      => ∃ n, cs.map Prod.fst = (updateSteps n).take (n + 2)
  | installing _ _    => ∃ n, cs.map Prod.fst = (updateSteps n).take (n + 3)
  | updated i         => (∃ n, cs.map Prod.fst = updateSteps n) ∧ cs.getLast?.map Prod.snd = some i
  | stopped i         => (∃ n k, cs.map Prod.fst = (updateSteps n).take k) ∧
      i ≠ 0 ∧ cs.getLast?.map Prod.snd = some i
  | failed _ i        => (∃ n k, cs.map Prod.fst = (updateSteps n).take k ++ [.error]) ∧
      cs.getLast?.map Prod.snd = some i

section Calls

variable {cs : List (UpdateState × Int)} {p q : UpdatePhase}

/-- One more piece is one more step of progress. -/
theorem updateSteps_progress (n : Nat) :
    (updateSteps (n + 1)).take (n + 1 + 2) = (updateSteps n).take (n + 2) ++ [.progress] := by
  have htake : ∀ m, (updateSteps m).take (m + 2)
      = .ask :: .download :: List.replicate m UpdateState.progress := by
    intro m
    simp [updateSteps]
  rw [htake, htake, List.replicate_succ', List.cons_append, List.cons_append]

/-- Behind the pieces there is the question whether to install. -/
theorem updateSteps_install (n : Nat) :
    (updateSteps n).take (n + 3) = (updateSteps n).take (n + 2) ++ [.install] := by
  simp [updateSteps, List.take_append]

/-- And behind that, the report that all went well. -/
theorem updateSteps_updated (n : Nat) :
    updateSteps n = (updateSteps n).take (n + 3) ++ [.updated] := by
  simp [updateSteps, List.take_append]

/-- The last answer. -/
theorem getLast_concat_snd (c : UpdateState × Int) :
    (cs ++ [c]).getLast?.map Prod.snd = some c.2 := by
  simp

/-- The steps, with one more. -/
theorem map_fst_concat {c : UpdateState × Int} {steps : List UpdateState}
    (h : cs.map Prod.fst = steps) : (cs ++ [c]).map Prod.fst = steps ++ [c.1] := by
  rw [List.map_append, h]
  rfl

/-- The callback goes on or stops. -/
theorem UpdatePhase.Calls.answered {state : UpdateState} {i : Int} {n k : Nat}
    (hsteps : (cs ++ [(state, i)]).map Prod.fst = (updateSteps n).take k)
    (hq : q.Calls (cs ++ [(state, i)])) : (answered i q).Calls (cs ++ [(state, i)]) := by
  unfold UpdatePhase.answered
  split
  · exact hq
  · exact ⟨⟨n, k, hsteps⟩, ‹_›, getLast_concat_snd _⟩

/-- An error may be reported behind any part of the steps. -/
theorem UpdatePhase.Calls.report {i : Int} (h : p.Calls cs) (hq : p.report i = some q) :
    q.Calls (cs ++ [(.error, i)]) := by
  have hfailed : (∃ n k, cs.map Prod.fst = (updateSteps n).take k) → ∀ opened,
      (failed opened i).Calls (cs ++ [(.error, i)]) := by
    rintro ⟨n, k, hsteps⟩ opened
    exact ⟨⟨n, k, map_fst_concat hsteps⟩, getLast_concat_snd _⟩
  cases p with
  | idle =>
      cases hq
      exact hfailed ⟨0, 0, by rw [show cs = [] from h]; rfl⟩ _
  | asked => cases hq
  | ready up =>
      cases hq
      exact hfailed ⟨0, 2, h⟩ _
  | receiving path data file =>
      cases hq
      exact hfailed (h.imp fun n hn => ⟨_, hn⟩) _
  | cancelled j path data file =>
      cases hq
      exact hfailed (h.1.imp fun n hn => ⟨_, hn⟩) _
  | received path data => cases hq
  | installing up done =>
      cases hq
      exact hfailed (h.imp fun n hn => ⟨_, hn⟩) _
  | stopped j =>
      cases hq
      exact hfailed h.1 _
  | updated j =>
      cases hq
      obtain ⟨⟨n, hn⟩, -⟩ := h
      refine hfailed ⟨n, n + 4, ?_⟩ _
      rw [hn, List.take_of_length_le (by simp [updateSteps])]
  | failed opened j => cases hq

/-- A call that a phase allows goes on with the calls that were made. -/
theorem UpdatePhase.Calls.call {before behind : UpdateT} {i : Int} (h : p.Calls cs)
    (hq : p.call before behind i = some q) : q.Calls (cs ++ [(before.state, i)]) := by
  unfold UpdatePhase.call at hq
  split at hq
  · rename_i hstate
    rw [hstate]
    split at hq
    · obtain rfl := Option.some.inj hq
      have hsteps : (cs ++ [(UpdateState.ask, i)]).map Prod.fst = [.ask] := by
        rw [show cs = [] from h]
        rfl
      exact UpdatePhase.Calls.answered (n := 0) (k := 1) hsteps hsteps
    · cases hq
  · rename_i hstate
    rw [hstate]
    obtain rfl := Option.some.inj hq
    have hsteps := map_fst_concat (c := (UpdateState.download, i)) (show cs.map _ = [.ask] from h)
    exact UpdatePhase.Calls.answered (n := 0) (k := 2) hsteps hsteps
  · rename_i hstate
    rw [hstate]
    obtain rfl := Option.some.inj hq
    obtain ⟨n, hn⟩ := h
    have hsteps : (cs ++ [(UpdateState.progress, i)]).map Prod.fst
        = (updateSteps (n + 1)).take (n + 1 + 2) := by
      rw [updateSteps_progress]
      exact map_fst_concat hn
    split
    · exact ⟨_, hsteps⟩
    · exact ⟨⟨_, hsteps⟩, ‹_›, getLast_concat_snd _⟩
  · rename_i hstate
    rw [hstate]
    obtain rfl := Option.some.inj hq
    obtain ⟨n, hn⟩ := h
    have hsteps : (cs ++ [(UpdateState.install, i)]).map Prod.fst
        = (updateSteps n).take (n + 3) := by
      rw [updateSteps_install]
      exact map_fst_concat hn
    exact UpdatePhase.Calls.answered hsteps ⟨n, hsteps⟩
  · rename_i hstate
    rw [hstate]
    split at hq
    · obtain rfl := Option.some.inj hq
      obtain ⟨n, hn⟩ := h
      refine ⟨⟨n, ?_⟩, getLast_concat_snd _⟩
      rw [updateSteps_updated]
      exact map_fst_concat hn
    · cases hq
  · rename_i hstate
    rw [hstate]
    exact h.report hq
  · cases hq

/-- An event that is no call leaves them as they are. -/
theorem UpdatePhase.Calls.next {events : List UpdateEvent} {event : UpdateEvent}
    (h : p.Calls (updateCalls events)) (hq : p.next event = some q) :
    q.Calls (updateCalls (events ++ [event])) := by
  have hcalls : updateCalls (events ++ [event]) = updateCalls events ++ (event.call).toList := by
    rw [updateCalls, List.filterMap_append]
    cases hcall : event.call <;> simp [updateCalls, hcall]
  rw [hcalls]
  unfold UpdatePhase.next at hq
  split at hq
  · exact h.call hq
  · split at hq
    · obtain rfl := Option.some.inj hq
      exact ⟨0, (List.append_nil _).symm ▸ h⟩
    · cases hq
  · obtain rfl := Option.some.inj hq
    exact (List.append_nil _).symm ▸ h
  · obtain rfl := Option.some.inj hq
    exact (List.append_nil _).symm ▸ h
  · obtain rfl := Option.some.inj hq
    simp only [UpdateEvent.call, Option.toList_none, List.append_nil]
    split
    · exact h.1
    · exact ⟨h.1.imp fun n hn => ⟨_, hn⟩, h.2⟩
  · obtain rfl := Option.some.inj hq
    exact (List.append_nil _).symm ▸ h
  · split at hq
    · obtain rfl := Option.some.inj hq
      have hquiet : event.call = none := by
        rename_i hfunc _
        cases event with
        | func before behind i => exact absurd rfl (hfunc before behind i)
        | fopen _ => rfl
        | fwrite _ => rfl
        | fclose => rfl
        | procRun _ => rfl
        | chdir _ => rfl
        | procStart _ => rfl
      rw [hquiet, Option.toList_none, List.append_nil]
      exact h
    · cases hq
  · cases hq

end Calls

/-- In every run of `update` the callback is called for the steps in their order, up to some step,
and then maybe for one error. The result is the last answer, or it is -1 where an error was reported
by `http_get` or there is no memory. So without an error it is 0 only where all the steps were made.
-/
theorem update_reports (e : UpdateEnv) (oldXmlBuf : List UInt8) (events : List UpdateEvent)
    (ret : Int) (h : update e oldXmlBuf = some (events, ret)) :
    ∃ n k tail, (updateCalls events).map Prod.fst = (updateSteps n).take k ++ tail ∧
      (tail = [] ∧ (updateCalls events = [] ∧ ret = -1 ∨
          (updateCalls events).getLast?.map Prod.snd = some ret) ∧
          (ret = 0 → (updateCalls events).map Prod.fst = updateSteps n) ∨
        tail = [.error] ∧ (ret = -1 ∨ (updateCalls events).getLast?.map Prod.snd = some ret)) := by
  obtain ⟨p, hp, hends⟩ := update_follows h
  have hidle : UpdatePhase.Calls (updateCalls []) .idle := rfl
  have hcalls := follow_inv (I := fun events p => UpdatePhase.Calls (updateCalls events) p) hidle
    (fun _ _ _ _ h hnext => h.next hnext) events hp
  cases p with
  | idle =>
      have hret : ret = -1 := hends
      exact ⟨0, 0, [], by rw [show updateCalls events = [] from hcalls]; rfl,
        Or.inl ⟨rfl, Or.inl ⟨hcalls, hret⟩,
          fun hzero => absurd (hret.symm.trans hzero) (by decide)⟩⟩
  | stopped i =>
      obtain ⟨⟨n, k, hsteps⟩, hi, hlast⟩ := hcalls
      have hret : ret = i := hends
      exact ⟨n, k, [], by rw [hsteps, List.append_nil],
        Or.inl ⟨rfl, Or.inr (hret ▸ hlast), fun hzero => absurd (hret.symm.trans hzero) hi⟩⟩
  | updated i =>
      obtain ⟨⟨n, hsteps⟩, hlast⟩ := hcalls
      have hret : ret = i := hends
      refine ⟨n, n + 4, [], ?_, Or.inl ⟨rfl, Or.inr (hret ▸ hlast), fun _ => hsteps⟩⟩
      rw [hsteps, List.append_nil, List.take_of_length_le (by simp [updateSteps])]
  | failed opened i =>
      obtain ⟨⟨n, k, hsteps⟩, hlast⟩ := hcalls
      cases opened with
      | true => exact hends.elim
      | false =>
          refine ⟨n, k, [.error], hsteps, Or.inr ⟨rfl, ?_⟩⟩
          rcases hends with rfl | hret
          · exact Or.inr hlast
          · exact Or.inl hret
  | asked => exact hends.elim
  | ready up => exact hends.elim
  | receiving path data file => exact hends.elim
  | cancelled i path data file => exact hends.elim
  | received path data => exact hends.elim
  | installing up done => exact hends.elim

theorem update_reports_a :
    ∃ n k tail, (updateCalls updateEventsA).map Prod.fst = (updateSteps n).take k ++ tail ∧
      (tail = [] ∧ (updateCalls updateEventsA = [] ∧ (0 : Int) = -1 ∨
          (updateCalls updateEventsA).getLast?.map Prod.snd = some 0) ∧
          ((0 : Int) = 0 → (updateCalls updateEventsA).map Prod.fst = updateSteps n) ∨
        tail = [.error] ∧
          ((0 : Int) = -1 ∨ (updateCalls updateEventsA).getLast?.map Prod.snd = some 0)) :=
  update_reports updateEnvA (bytes "1") updateEventsA 0 updateEventsA_eq

end Bklib
