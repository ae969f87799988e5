import Bklib.Proofs.HttpServes
import Bklib.Proofs.UpdateProtocol

/-!
# `Bklib.Proofs.UpdateDelivers`: an update from its hosts to its commands

An `UpdateOffer` is a new version that can be had: the documents can be read, both hosts serve what
their urls name, the file can be written, and the commands work. When the callback agrees, `update`
downloads the file, byte for byte and whatever way it is cut on its way, closes it, and runs the
commands of a plan for it (`update_delivers`).
-/

set_option autoImplicit false

namespace Bklib

open Bklib.Lib

/-! ## Statement -/

/-- The callback agrees to everything, and does not touch what `update` goes by. -/
structure UpdateEnv.Agrees (e : UpdateEnv) : Prop where
  answer : ∀ k up, (e.func k up).2 = 0
  error  : ∀ k up, (e.func k up).1.error = up.error
  url    : ∀ k up, (e.func k up).1.newUrl = up.newUrl
  path   : ∀ k up, (e.func k up).1.newPath = up.newPath

/-- A new version that can be had. -/
structure UpdateOffer (e : UpdateEnv) (oldXmlBuf : List UInt8) where
  findOld : List UInt8 → Option (List UInt8)
  findNew : List UInt8 → Option (List UInt8)
  oldVer : List UInt8
  versionUrl : List UInt8
  /-- The new document. -/
  doc : List UInt8
  newVer : List UInt8
  newProduct : List UInt8
  newDetails : List UInt8
  newUrl : List UInt8
  urlPath : List UInt8
  /-- The name of the file. -/
  name : List UInt8
  file : List UInt8
  memory : e.poolNew = true ∧ e.oldXmlNew = true ∧ e.newXmlNew = true
  old_doc : e.xmlParse oldXmlBuf = some findOld
  old_version : findOld (bytes "/version/version") = some oldVer
  old_url : findOld (bytes "/version/version_url") = some versionUrl
  served : HttpServes e.versionGet versionUrl doc
  doc_fits : doc.length < updateBufSize
  new_doc : e.xmlParse doc = some findNew
  new_version : findNew (bytes "/version/version") = some newVer
  new_product : findNew (bytes "/version/product") = some newProduct
  new_details : findNew (bytes "/version/update_details") = some newDetails
  new_url : findNew (bytes "/version/install_url") = some newUrl
  new_path : (urlParse (newUrl ++ [0])).1.path = some urlPath
  /-- The name fits into the array, and is not shorter than a suffix. -/
  named : 0 ∈ dirBasename urlPath 2048 ∧ name = cstr (dirBasename urlPath 2048)
  name_long : tarGz.length ≤ name.length
  file_served : HttpServes e.installGet newUrl file
  opened : e.fopen name = true
  written : ∀ k, file.length ≤ e.fwrite k
  commands : (∀ cmd, 0 ≤ e.procRun cmd) ∧ (∀ dir, 0 ≤ e.chdir dir) ∧ ∀ cmd, 0 ≤ e.procStart cmd

/-- The file was received as a whole and closed, the installation was answered 0, the commands of a
plan for the file were run, and then the callback was told. -/
def UpdateDelivered (events : List UpdateEvent) (name file : List UInt8) : Prop :=
  ∃ pre install up commands updated behind,
    events = pre ++ .func install up 0 :: (commands ++ [.func updated behind 0]) ∧
      updatePhase pre = some (.received name file) ∧ install.state = .install ∧
      commands ∈ updatePlans name ∧ updated.state = .updated

/-! ## The pieces -/

section Pieces

variable {e : UpdateEnv} {body : List UInt8}

theorem bodyBytes_call (c : HttpReqCall) :
    bodyBytes [c.event] = if c.req.reqState = .body then c.data else [] := by
  rw [bodyBytes_cons, bodyBytes_nil, List.append_nil]
  rfl

theorem HttpReqCall.Sized.length_data {c : HttpReqCall} (h : c.Sized)
    (hst : c.req.reqState = .body) :
    c.data.length = c.len := by
  rw [HttpReqCall.data, List.length_take, Nat.min_eq_left (h hst)]

/-- A piece of a document that fits into the buffer. -/
theorem httpReqBuf_serves {s : Update} (hbody : body.length < updateBufSize) (arg : HttpReqBuf)
    (data : List UInt8) (c : HttpReqCall) (harg : arg = ⟨s, data⟩) (hc : c.req.reqState ≠ .error)
    (hsized : c.Sized) (hpre : data ++ bodyBytes [c.event] <+: body) :
    (httpReqBuf e arg c).2 = 0 ∧ (httpReqBuf e arg c).1 = ⟨s, data ++ bodyBytes [c.event]⟩ := by
  obtain rfl := harg
  rw [bodyBytes_call] at hpre ⊢
  by_cases hst : c.req.reqState = .body
  · rw [if_pos hst] at hpre
    have hlen := hpre.length_le
    rw [List.length_append, hsized.length_data hst] at hlen
    unfold httpReqBuf
    rw [hst]
    dsimp only
    rw [if_pos (by omega)]
    exact ⟨rfl, rfl⟩
  · rw [httpReqBuf_quiet hc hst, if_neg hst, List.append_nil]
    exact ⟨rfl, rfl⟩

/-- What every piece keeps: the file is open and holds the bytes so far. -/
structure HttpReqProg.Holds (name path : List UInt8) (arg : HttpReqProg) (data : List UInt8) :
    Prop where
  place : arg.update.At (.receiving name data false)
  path  : arg.update.up.newPath = path
  fault : arg.update.fault = false

/-- A piece is written, and the callback goes on: the state holds more of the file. -/
theorem updateProgress_holds (hagrees : e.Agrees) {name path data : List UInt8} {arg : HttpReqProg}
    (h : arg.Holds name path data) (k contentLen : Nat) :
    (updateProgress e arg k contentLen).i = 0 ∧
      HttpReqProg.Holds name path { arg with
        update := updateProgress e arg k contentLen } data := by
  obtain ⟨up, hprogress, hup⟩ : ∃ up,
      updateProgress e arg k contentLen = ({ arg.update with up } : Update).func e .progress ∧
        up.newPath = arg.update.up.newPath := by
    refine ⟨_, rfl, ?_⟩
    split <;> split <;> rfl
  obtain ⟨s, hs⟩ : ∃ s : Update, s = { arg.update with up } := ⟨_, rfl⟩
  have hplace : s.At (.receiving name data false) := hs ▸ h.place
  have hcall := hplace.func e .progress rfl
  have hzero : (s.func e .progress).i = 0 := hagrees.answer _ _
  rw [if_pos hzero] at hcall
  rw [hprogress, ← hs]
  refine ⟨hzero, hcall, (hagrees.path _ _).trans ?_, ?_⟩
  · rw [hs]
    exact hup.trans h.path
  · rw [hs]
    exact h.fault

/-- A piece of a file that can be written. -/
theorem httpReqProg_serves (hagrees : e.Agrees) (hwrite : ∀ k, body.length ≤ e.fwrite k)
    {name path : List UInt8} (arg : HttpReqProg) (data : List UInt8) (c : HttpReqCall)
    (harg : arg.Holds name path data) (hc : c.req.reqState ≠ .error) (hsized : c.Sized)
    (hpre : data ++ bodyBytes [c.event] <+: body) :
    (httpReqProg e arg c).2 = 0 ∧
      (httpReqProg e arg c).1.Holds name path (data ++ bodyBytes [c.event]) := by
  rw [bodyBytes_call] at hpre ⊢
  by_cases hst : c.req.reqState = .body
  · rw [if_pos hst] at hpre ⊢
    have hdata := hsized.length_data hst
    have hlen := hpre.length_le
    rw [List.length_append, hdata] at hlen
    have hwhole : min (e.fwrite arg.pieces) c.len = c.len :=
      Nat.min_eq_right (Nat.le_trans (by omega) (hwrite arg.pieces))
    have hbytes : c.data.take c.len = c.data := List.take_of_length_le (Nat.le_of_eq hdata)
    have hwritten : HttpReqProg.Holds name path { arg with
        update := arg.update.act (.fwrite c.data) c.len
        len := arg.len + c.len, pieces := arg.pieces + 1 } (data ++ c.data) :=
      ⟨harg.place.act _ _ rfl, harg.path, harg.fault⟩
    unfold httpReqProg
    rw [hst]
    dsimp only
    rw [hwhole, hbytes, if_neg (not_not_intro rfl)]
    split
    · exact updateProgress_holds hagrees hwritten _ _
    · exact ⟨rfl, hwritten⟩
  · rw [httpReqProg_quiet hc hst, if_neg hst, List.append_nil]
    exact ⟨rfl, harg⟩

end Pieces

/-! ## The stages -/

section Stages

variable {e : UpdateEnv} {oldXmlBuf : List UInt8} {s : Update}

/-- The update is complete. -/
structure Update.Complete (s : Update) (name file : List UInt8) : Prop where
  delivered : UpdateDelivered s.events name file
  err       : s.err = 0
  fault     : s.fault = false
  error     : s.up.error = .none

/-- No command fails. -/
theorem updateRun_works (o : UpdateOffer e oldXmlBuf) (hpath : s.up.path = some o.name) :
    (updateRun e s).fault = s.fault ∧ 0 ≤ (updateRun e s).i := by
  obtain ⟨hproc, hdir, hstart⟩ := o.commands
  unfold updateRun
  rw [hpath]
  dsimp only
  rw [if_neg (Nat.not_lt.mpr o.name_long)]
  split
  · have hscript : ∀ t : Update,
        (t.act (.chdir (bytes "..")) (e.chdir (bytes ".."))).fault = t.fault ∧
          0 ≤ (t.act (.chdir (bytes "..")) (e.chdir (bytes ".."))).i := fun t => ⟨rfl, hdir _⟩
    unfold updateUntar
    dsimp only
    split
    · rename_i hlt
      exact absurd hlt (Int.not_lt.mpr (hproc _))
    split
    · rename_i hlt
      exact absurd hlt (Int.not_lt.mpr (hdir _))
    split
    · exact hscript _
    · split
      · exact hscript _
      · exact hscript _
  · exact ⟨rfl, hstart _⟩

/-- Behind the download the file is complete and the commands are run. -/
theorem updateInstall_delivers (o : UpdateOffer e oldXmlBuf) (hagrees : e.Agrees)
    (h : s.At (.received o.name o.file)) (hpath : s.up.path = some o.name)
    (hfault : s.fault = false) :
    (updateInstall e s).Complete o.name o.file := by
  have hcall := h.func e .install rfl
  have hzero : (s.func e .install).i = 0 := hagrees.answer _ _
  have hname : (s.func e .install).up.path = some o.name := by
    rw [← hpath, UpdateT.path, UpdateT.path]
    exact congrArg (fun path => if 0 ∈ path then some (cstr path) else none) (hagrees.path _ _)
  have hfaulted : (s.func e .install).fault = false := hfault
  obtain ⟨install, hevents, hstate⟩ : ∃ install : UpdateT, (s.func e .install).events
      = s.events ++ [.func install (s.func e .install).up 0] ∧ install.state = .install :=
    ⟨{ s.up with state := .install }, by rw [← hzero]; rfl, rfl⟩
  rw [hzero] at hcall
  unfold updateInstall
  dsimp only
  generalize s.func e .install = s₁ at hcall hzero hname hfaulted hevents ⊢
  rw [if_neg (not_not_intro hzero)]
  generalize hs₂ : s₁.blame .fileBad _ = s₂
  have hplace : s₂.At (.installing s₁.up []) := hs₂ ▸ hcall
  have hpath₂ : s₁.up.path = s₂.up.path := hs₂ ▸ rfl
  have hevents₂ : s₂.events = s₁.events := hs₂ ▸ rfl
  have hfault₂ : s₂.fault = false := hs₂ ▸ hfaulted
  obtain ⟨hworks, hpos⟩ := updateRun_works o (hpath₂.symm.trans hname)
  obtain ⟨commands, hran, hdone⟩ := (updateRun_runs (e := e) hplace hpath₂).resolve_left
    (by rw [hworks, hfault₂]; simp)
  rw [if_neg (by rw [hworks, hfault₂]; simp [Int.not_lt.mpr hpos])]
  obtain ⟨t, ht⟩ : ∃ t : Update,
      t = { updateRun e s₂ with up := { (updateRun e s₂).up with error := .none } } := ⟨_, rfl⟩
  have hans : (t.func e .updated).i = 0 := hagrees.answer _ _
  have hplan : commands ∈ updatePlans o.name := by
    have hmem := hdone hpos
    rwa [UpdatePhase.plans, hname] at hmem
  rw [← ht]
  constructor
  case delivered =>
    refine ⟨s.events, install, s₁.up, commands, { t.up with state := .updated },
      (t.func e .updated).up, ?_, h, hstate, hplan, rfl⟩
    have hlast : (t.func e .updated).events
        = t.events ++ [.func { t.up with state := .updated } (t.func e .updated).up 0] := by
      rw [← hans]
      rfl
    have hbefore : t.events = (updateRun e s₂).events := by rw [ht]
    show (t.func e .updated).events = _
    rw [hlast, hbefore, hran.events, hevents₂, hevents]
    simp
  case err => exact hans
  case fault =>
    show t.fault = false
    rw [ht]
    exact hworks.trans hfault₂
  case error => exact (hagrees.error _ _).trans (by rw [ht])

/-- A host that serves something is not a file. -/
theorem HttpServes.not_file {e : HttpReqEnv} {urlstr body : List UInt8}
    (h : HttpServes e urlstr body) :
    httpGetIsFile urlstr = false := by
  obtain ⟨url, hurl, hproto⟩ := h.url
  have hhttp : HttpReqEnv.Http { e with urlParse := some url } url := ⟨rfl, hproto⟩
  rw [httpGetIsFile, hurl]
  exact not_file_of_http hhttp

/-- The download, from a server that serves the file. -/
theorem updateFetch_delivers (o : UpdateOffer e oldXmlBuf) (hagrees : e.Agrees)
    (h : s.At (.receiving o.name [] false)) (hurl : s.up.newUrl = o.newUrl)
    (hpath : s.up.path = some o.name) (hfault : s.fault = false) :
    (updateFetch e s).Complete o.name o.file := by
  obtain ⟨t, hget, hholds⟩ := httpGetWith_serves
    (P := fun arg data => arg.Holds o.name s.up.newPath data) o.file_served (httpReqProg e)
    ⟨s, 0, 0⟩ ⟨h, rfl, hfault⟩ (httpReqProg_serves hagrees o.written)
  unfold updateFetch
  rw [hurl, hget]
  dsimp only
  rw [if_neg (not_not_intro rfl)]
  refine updateInstall_delivers o hagrees (hholds.place.act .fclose 0 rfl) ?_ hholds.fault
  rw [← hpath, UpdateT.path, UpdateT.path]
  exact congrArg (fun path => if 0 ∈ path then some (cstr path) else none) hholds.path

/-- The file is opened and filled. -/
theorem updateDownload_delivers (o : UpdateOffer e oldXmlBuf) (hagrees : e.Agrees) (h : s.At .asked)
    (hurl : s.up.newUrl = o.newUrl) (hpath : s.up.path = some o.name) (hfault : s.fault = false) :
    (updateDownload e s).Complete o.name o.file := by
  unfold updateDownload
  dsimp only
  generalize hs : ({ s with up := _ } : Update) = s₀
  have hs₀ : s₀.At .asked := hs ▸ h
  have hcall := hs₀.func e .download rfl
  have hzero : (s₀.func e .download).i = 0 := hagrees.answer _ _
  have hurl₁ : (s₀.func e .download).up.newUrl = o.newUrl :=
    (hagrees.url _ _).trans (by rw [← hs]; exact hurl)
  have hpath₁ : (s₀.func e .download).up.newPath = s.up.newPath :=
    (hagrees.path _ _).trans (by rw [← hs])
  have hfault₁ : (s₀.func e .download).fault = false := hs ▸ hfault
  generalize s₀.func e .download = s₁ at hcall hzero hurl₁ hpath₁ hfault₁ ⊢
  rw [hzero] at hcall
  rw [if_neg (not_not_intro hzero)]
  generalize hs₂ : s₁.blame .fileNotFound _ = s₂
  have hplace : s₂.At (.ready s₁.up) := hs₂ ▸ hcall
  have hname : s₁.up.path = some o.name := by
    rw [← hpath, UpdateT.path, UpdateT.path]
    exact congrArg (fun path => if 0 ∈ path then some (cstr path) else none) hpath₁
  have hname₂ : s₂.up.path = some o.name := hs₂ ▸ hname
  have hurl₂ : s₂.up.newUrl = o.newUrl := hs₂ ▸ hurl₁
  have hfault₂ : s₂.fault = false := hs₂ ▸ hfault₁
  rw [hname₂]
  dsimp only
  rw [o.opened, if_neg (by simp)]
  have hopen : UpdatePhase.next (.ready s₁.up) (.fopen o.name)
      = some (.receiving o.name [] (httpGetIsFile s₁.up.newUrl)) := if_pos hname
  rw [hurl₁, o.file_served.not_file] at hopen
  have hreceiving : Update.At { s₂ with events := s₂.events ++ [.fopen o.name] }
      (.receiving o.name [] false) := follow_concat hplace hopen
  exact updateFetch_delivers o hagrees hreceiving hurl₂ hname₂ hfault₂

/-- The callback agrees to the download. -/
theorem updateAsk_delivers (o : UpdateOffer e oldXmlBuf) (hagrees : e.Agrees) (h : s.At .idle)
    (hurl : s.up.newUrl = o.newUrl) (hpath : s.up.newPath = dirBasename o.urlPath 2048)
    (hfault : s.fault = false) : (updateAsk e s).Complete o.name o.file := by
  unfold updateAsk
  dsimp only
  generalize hs : ({ s with up := _ } : Update) = s₀
  have hnewer : s₀.up.cmpNewer = decide (vercmp s₀.up.oldVer s₀.up.newVer < 0) := hs ▸ rfl
  have hs₀ : s₀.At .idle := hs ▸ h
  have hcall : (s₀.func e .ask).At (.answered (s₀.func e .ask).i .asked) :=
    hs₀.func e .ask (if_pos hnewer)
  have hzero : (s₀.func e .ask).i = 0 := hagrees.answer _ _
  have hurl₁ : (s₀.func e .ask).up.newUrl = o.newUrl :=
    (hagrees.url _ _).trans (by rw [← hs]; exact hurl)
  have hpath₁ : (s₀.func e .ask).up.newPath = dirBasename o.urlPath 2048 :=
    (hagrees.path _ _).trans (by rw [← hs]; exact hpath)
  have hfault₁ : (s₀.func e .ask).fault = false := hs ▸ hfault
  generalize s₀.func e .ask = s₁ at hcall hzero hurl₁ hpath₁ hfault₁ ⊢
  rw [hzero] at hcall
  rw [if_neg (not_not_intro hzero)]
  refine updateDownload_delivers o hagrees hcall hurl₁ ?_ hfault₁
  rw [UpdateT.path, hpath₁, if_pos o.named.1, o.named.2]

/-- The document names a newer version, so the callback is asked. -/
theorem updateNewXml_delivers (o : UpdateOffer e oldXmlBuf) (hagrees : e.Agrees) (h : s.At .idle)
    (hfault : s.fault = false) : (updateNewXml e o.findNew s).Complete o.name o.file := by
  obtain ⟨url, hurl, -⟩ := o.file_served.url
  have hparse : (urlParse (o.newUrl ++ [0])).2 = 0 := by
    by_contra hne
    unfold httpGetUrl at hurl
    simp only [ne_eq, hne, not_false_eq_true, if_true, reduceCtorEq] at hurl
  unfold updateNewXml
  simp only [o.new_version, o.new_product, o.new_details, o.new_url, hparse, o.new_path,
    Int.lt_irrefl, if_false]
  exact updateAsk_delivers o hagrees h rfl rfl hfault

/-- The document is fetched first. -/
theorem updateVersion_delivers (o : UpdateOffer e oldXmlBuf) (hagrees : e.Agrees) (h : s.At .idle)
    (hurl : s.up.newXmlUrl = o.versionUrl) (hfault : s.fault = false) :
    (updateVersion e s).Complete o.name o.file := by
  unfold updateVersion
  dsimp only
  generalize hs : s.blame .fileNotFound _ = s₁
  have hplace : s₁.At .idle := hs ▸ h
  have hurl₁ : s₁.up.newXmlUrl = o.versionUrl := hs ▸ hurl
  have hfault₁ : s₁.fault = false := hs ▸ hfault
  obtain ⟨t, hget, rfl⟩ := httpGetWith_serves (P := fun arg data => arg = ⟨s₁, data⟩) o.served
    (httpReqBuf e) ⟨s₁, []⟩ rfl (httpReqBuf_serves o.doc_fits)
  obtain ⟨-, -, hnew⟩ := o.memory
  rw [hurl₁, hget]
  simp only [Int.lt_irrefl, if_false, hnew, Bool.not_true, Bool.false_eq_true, o.new_doc]
  exact updateNewXml_delivers o hagrees hplace hfault₁

/-- The main part of an update delivers the file of the offer. -/
theorem updateMain_delivers (o : UpdateOffer e oldXmlBuf) (hagrees : e.Agrees) (h : s.At .idle)
    (hfault : s.fault = false) : (updateMain e oldXmlBuf s).Complete o.name o.file := by
  obtain ⟨hpool, hold, -⟩ := o.memory
  unfold updateMain
  simp only [hpool, hold, Bool.not_true, Bool.false_eq_true, if_false, o.old_doc, o.old_version,
    o.old_url]
  exact updateVersion_delivers o hagrees h rfl hfault

end Stages

/-- A new version that can be had, and that the callback agrees to, is installed: the file is what
its host serves, its name is the last component of its path, and the commands of a plan for it are
run. -/
theorem update_delivers (e : UpdateEnv) (oldXmlBuf : List UInt8) (hagrees : e.Agrees)
    (o : UpdateOffer e oldXmlBuf) :
    ∃ events, update e oldXmlBuf = some (events, 0) ∧ UpdateDelivered events o.name o.file := by
  obtain ⟨hdelivered, herr, hfault, herror⟩ :=
    updateMain_delivers o hagrees (s := updateStart) rfl rfl
  refine ⟨_, ?_, hdelivered⟩
  unfold update updateReport
  simp only [hfault, Bool.false_eq_true, if_false, herror, ne_eq, not_true_eq_false, herr]

/-! ### An update -/

/-- A host that serves a body in one piece. -/
def httpGetB (body : List UInt8) : HttpReqEnv where
  urlParse := none
  stat := none
  fopen := false
  fread := []
  socket := true
  iaddrFmt := []
  connect := true
  send := true
  recv := [.bytes (httpServerHead body.length ++ body)]
  func _ := 0
  stack := []
  http := default

/-- A server that answers with a header and a short body. -/
theorem httpServes_b {urlstr body : List UInt8} (url : Url) (hurl : httpGetUrl urlstr = some url)
    (hproto : strcasecmpEq url.proto (bytes "http") = true) (hbody : body.length < 1000) :
    HttpServes (httpGetB body) urlstr body where
  url := ⟨url, hurl, hproto⟩
  socket := rfl
  connect := rfl
  send := rfl
  stream := by
    have hhead : (httpServerHead body.length).length < 150 := httpServerHead_length (by omega)
    have htext := httpServerHead_text (show body.length < 2 ^ 63 by omega)
    refine ⟨httpServerHead body.length, [httpServerHead body.length ++ body], htext,
      Nat.lt_trans hhead (by decide), ?_, rfl⟩
    constructor
    case flatten => simp
    case ne =>
      intro c hc
      rw [List.mem_singleton.mp hc]
      exact List.append_ne_nil_of_left_ne_nil (List.ne_nil_of_length_pos htext.pos) _
    case fits =>
      refine ⟨?_, trivial⟩
      rw [if_pos htext.pos, List.length_append, httpBufSize]
      omega

/-- A document that names its files on a host. -/
def findB (version key : List UInt8) : Option (List UInt8) :=
  if key = bytes "/version/version" then some version
  else if key = bytes "/version/version_url" then some (bytes "http://h/v.xml")
  else if key = bytes "/version/install_url" then some (bytes "http://h/setup.exe")
  else some (bytes "text")

def updateEnvB : UpdateEnv :=
  { updateEnvA with
    xmlParse := fun doc => some (findB doc)
    versionGet := httpGetB (bytes "2")
    installGet := httpGetB (bytes "exe") }

theorem updateEnvB_agrees : updateEnvB.Agrees where
  answer _ _ := rfl
  error _ _ := rfl
  url _ _ := rfl
  path _ _ := rfl

def updateOfferB : UpdateOffer updateEnvB (bytes "1") where
  findOld := findB (bytes "1")
  findNew := findB (bytes "2")
  oldVer := bytes "1"
  versionUrl := bytes "http://h/v.xml"
  doc := bytes "2"
  newVer := bytes "2"
  newProduct := bytes "text"
  newDetails := bytes "text"
  newUrl := bytes "http://h/setup.exe"
  urlPath := bytes "/setup.exe"
  name := bytes "setup.exe"
  file := bytes "exe"
  memory := ⟨rfl, rfl, rfl⟩
  old_doc := rfl
  old_version := by decide +kernel
  old_url := by decide +kernel
  served := httpServes_b ⟨bytes "http", bytes "h", bytes "/v.xml", bytes "/v.xml"⟩
    (by decide +kernel) (by decide +kernel) (by decide)
  doc_fits := by decide
  new_doc := rfl
  new_version := by decide +kernel
  new_product := by decide +kernel
  new_details := by decide +kernel
  new_url := by decide +kernel
  new_path := by decide +kernel
  named := by decide +kernel
  name_long := by decide
  file_served := httpServes_b
    ⟨bytes "http", bytes "h", bytes "/setup.exe", bytes "/setup.exe"⟩
    (by decide +kernel) (by decide +kernel) (by decide)
  opened := rfl
  written _ := show (bytes "exe").length ≤ 3 by decide
  commands := ⟨fun _ => Int.le_refl 0, fun _ => Int.le_refl 0, fun _ => Int.zero_le_ofNat 1⟩

theorem update_delivers_b :
    ∃ events, update updateEnvB (bytes "1") = some (events, 0) ∧
      UpdateDelivered events (bytes "setup.exe") (bytes "exe") :=
  update_delivers updateEnvB (bytes "1") updateEnvB_agrees updateOfferB

end Bklib
