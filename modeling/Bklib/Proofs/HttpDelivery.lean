import Bklib.Proofs.HttpReq

/-!
# `Bklib.Proofs.HttpDelivery`: the body of a reply, however it arrives

A reply is a stream of bytes, cut into chunks by `recv` (`HttpCut`). No chunk is larger than the room
that `recv` was given: the rest of the buffer up to the end of the header, and all of it behind.
`HttpHeaderText.seen` follows the chunks to the end of the header, by induction on them with the bytes
received so far in the buffer, and `HttpHeaderText.outcome` says what the callback is given. So it sees
the header and then the body (`httpGet_delivers`).
-/

set_option autoImplicit false

namespace Bklib

open Bklib.Lib

/-! ## Statement -/

/-- No chunk is larger than the room for it, from byte `o` of a stream with a header of `n` bytes
on. -/
def HttpFits (n : Nat) : Nat → List (List UInt8) → Prop
  | _, []      => True
  | o, c :: cs =>
      c.length ≤ (if o < n then httpBufSize - o else httpBufSize) ∧ HttpFits n (o + c.length) cs

/-- A way of cutting a stream with a header of `n` bytes into chunks that `recv` returns. -/
structure HttpCut (n : Nat) (stream : List UInt8) (chunks : List (List UInt8)) : Prop where
  flatten : chunks.flatten = stream
  ne : ∀ c ∈ chunks, c ≠ []
  fits : HttpFits n 0 chunks

/-- What the callback sees of a run of `http_get`, and what it returns. -/
def httpGetSeen (e : HttpReqEnv) : Option (List HttpEvent × Int) :=
  (httpGet e).map fun r => (r.1.map HttpReqCall.event, r.2)

/-- The events of a reply that is received to its end. -/
def deliveryScript (header : List UInt8) (bodies : List (List UInt8)) : List HttpEvent :=
  (.head, header) :: (bodies.map (.body, ·) ++ [(.eof, [])])

/-- The callback sees the header and the body, in pieces, and then end-of-file. The first call that
it answers nonzero is the last one, and the answer is the result. -/
def HttpDelivers (e : HttpReqEnv) (header body : List UInt8) : Prop :=
  ∃ (opening : List HttpEvent) (bodies : List (List UInt8)),
    opening.map Prod.fst = [.resolve, .connect, .send] ∧ bodies.flatten = body ∧
      ((∀ k, k < (opening ++ deliveryScript header bodies).length → e.func k = 0) →
        httpGetSeen e = some (opening ++ deliveryScript header bodies, 0)) ∧
      ∀ k, k < (opening ++ deliveryScript header bodies).length → (∀ j, j < k → e.func j = 0) →
        e.func k ≠ 0 →
        httpGetSeen e = some ((opening ++ deliveryScript header bodies).take (k + 1), e.func k)

/-! ## Chunks -/

/-- Chunks received one after the other are the pieces, and the end follows. -/
theorem recvPieces_of_bytes {chunks : List (List UInt8)} (hne : ∀ c ∈ chunks, c ≠ []) :
    recvPieces (chunks.map .bytes) = chunks ∧ recvEof (chunks.map .bytes) = true := by
  induction chunks with
  | nil => exact ⟨rfl, rfl⟩
  | cons c cs ih =>
      obtain ⟨b, bs, rfl⟩ := List.exists_cons_of_ne_nil (hne c (by simp))
      obtain ⟨hpieces, heof⟩ := ih fun c hc => hne c (List.mem_cons_of_mem _ hc)
      exact ⟨congrArg ((b :: bs) :: ·) hpieces, heof⟩

/-- Behind the header, a chunk is as large as the buffer at most. -/
theorem HttpFits.behind {n o : Nat} {chunks : List (List UInt8)} (hno : n ≤ o)
    (h : HttpFits n o chunks) : ∀ c ∈ chunks, c.length ≤ httpBufSize := by
  induction chunks generalizing o with
  | nil => simp
  | cons c cs ih =>
      intro d hd
      rcases List.mem_cons.mp hd with rfl | hd
      · have hfirst := h.1
        rwa [if_neg (by omega)] at hfirst
      · exact ih (by omega) h.2 d hd

/-- What is in the buffer after a chunk that fits. -/
theorem take_recvBuf {buf bs : List UInt8} {len : Nat} (hlen : len ≤ buf.length)
    (hbs : bs.length ≤ httpBufSize - len) :
    recvLen len bs = len + bs.length ∧
      (recvBuf buf len bs).take (len + bs.length) = buf.take len ++ bs := by
  have htake : bs.take (httpBufSize - len) = bs := List.take_of_length_le hbs
  refine ⟨by rw [recvLen, htake], ?_⟩
  rw [recvBuf, htake, put, pad_of_le hlen]
  refine List.take_left' ?_
  rw [List.length_append, List.length_take, Nat.min_eq_left hlen]

section Stream

variable {head : List UInt8} {code : Int}

/-- Chunks of a stream complete its header. The induction is on the chunks: `len` bytes of the stream
are in the buffer, and the chunks are the rest of it. -/
theorem HttpHeaderText.seen (ht : HttpHeaderText head code) (hhead : head.length < httpBufSize)
    (body : List UInt8) (chunks : List (List UInt8)) :
    ∀ (buf : List UInt8) {len : Nat}, len < head.length → len ≤ buf.length →
      buf.take len = (head ++ body).take len →
      chunks.flatten = (head ++ body).drop len → HttpFits head.length len chunks →
      ∃ h data rest, HttpHeaderSeen h data rest buf len chunks ∧
        h.headerLen = head.length ∧ h.responseCode = code ∧ head.length ≤ data.length ∧
        data ++ rest.flatten = head ++ body ∧ ∀ c ∈ rest, c.length ≤ httpBufSize := by
  induction chunks with
  | nil =>
      intro buf len hlen _ _ hrest _
      have hlength := congrArg List.length hrest
      rw [List.length_drop, List.length_append, List.flatten_nil, List.length_nil] at hlength
      omega
  | cons c cs ih =>
      intro buf len hlen hbuf htake hrest hfits
      have hroom := hfits.1
      rw [if_pos hlen] at hroom
      obtain ⟨hlen', htake'⟩ := take_recvBuf hbuf hroom
      have hsplit : (head ++ body).drop len = c ++ cs.flatten := by
        rw [← hrest, List.flatten_cons]
      -- the bytes of the stream up to the end of this chunk are in the buffer now
      have hstream : (recvBuf buf len c).take (len + c.length)
          = (head ++ body).take (len + c.length) := by
        rw [htake', htake, List.take_add, hsplit, List.take_left]
      have hmem : recvBuf buf len c
          = (head ++ body).take (len + c.length) ++ (recvBuf buf len c).drop (len + c.length) := by
        rw [← hstream, List.take_append_drop]
      have hdrop : cs.flatten = (head ++ body).drop (len + c.length) := by
        rw [← List.drop_drop, hsplit, List.drop_left]
      by_cases hend : len + c.length < head.length
      · have hverdict : recvVerdict buf len c = some (httpHeaderClear default, 0) := by
          rw [recvVerdict, hlen', hmem, List.take_append_of_le_length (Nat.le_of_lt hend)]
          exact ht.part _ hend _
        have hbuf' : len + c.length ≤ (recvBuf buf len c).length := by
          rw [← hlen']
          exact recvLen_le_length buf len c
        obtain ⟨h, data, rest, hseen, hspec⟩ := ih _ hend hbuf' hstream hdrop hfits.2
        exact ⟨h, data, rest, .more (by omega) hverdict (hlen' ▸ hseen), hspec⟩
      · have hwhole : (head ++ body).take (len + c.length)
            = head ++ body.take (len + c.length - head.length) := by
          rw [List.take_append, List.take_of_length_le (by omega)]
        obtain ⟨h, hparse, hhlen, hcode⟩ := ht.whole (len + c.length) (by omega)
          (Nat.lt_of_le_of_lt (by omega : len + c.length ≤ httpBufSize) (by decide))
          (body.take (len + c.length - head.length) ++ (recvBuf buf len c).drop (len + c.length))
        have hverdict : recvVerdict buf len c = some (h, 1) := by
          rw [recvVerdict, hlen', hmem, hwhole, List.append_assoc]
          exact hparse
        refine ⟨h, _, cs, .here (by omega) hverdict Int.one_pos rfl, hhlen, hcode, ?_, ?_,
          hfits.2.behind (by omega)⟩
        · rw [hlen', hstream, hwhole, List.length_append]
          omega
        · rw [hlen', hstream, hdrop, List.take_append_drop]

/-- What `http_get` makes of a stream that was cut in any way: its script is the header and the pieces
of the body, with this status. -/
theorem HttpHeaderText.outcome (ht : HttpHeaderText head code) (hhead : head.length < httpBufSize)
    {body : List UInt8} {chunks : List (List UInt8)}
    (hcut : HttpCut head.length (head ++ body) chunks) {e : HttpReqEnv} (url : Url)
    (hrecv : e.recv = chunks.map .bytes) :
    ∃ h data rest bodies,
      HttpHeaderSeen h data rest (httpGetMem e url) 0 (recvPieces e.recv) ∧ h.responseCode = code ∧
        bodies.flatten = body ∧
        replyScript h data (bodyScript rest (recvEof e.recv)) = deliveryScript head bodies := by
  obtain ⟨hpieces, heof⟩ := recvPieces_of_bytes hcut.ne
  rw [← hrecv] at hpieces heof
  obtain ⟨h, data, rest, hseen, hhlen, hcode, hdata, hstream, hsizes⟩ :=
    ht.seen hhead body chunks (httpGetMem e url) ht.pos (Nat.zero_le _) rfl hcut.flatten hcut.fits
  have hfront : data.take head.length = head := by
    have htake := congrArg (List.take head.length) hstream
    rwa [List.take_append_of_le_length hdata, List.take_left] at htake
  have hbody : (data.drop head.length :: rest).flatten = body := by
    have hdrop := congrArg (List.drop head.length) hstream
    rwa [List.drop_append_of_le_length hdata, List.drop_left] at hdrop
  have hrest : rest.map (fun bs => ((.body, bs.take httpBufSize) : HttpEvent))
      = rest.map (.body, ·) :=
    List.map_congr_left fun c hc => by rw [List.take_of_length_le (hsizes c hc)]
  refine ⟨h, data, rest, data.drop head.length :: rest, hpieces.symm ▸ hseen, hcode, hbody, ?_⟩
  rw [replyScript, bodyScript, hhlen, hfront, hrest, heof]
  rfl

end Stream

/-- A header seen is pending no more. -/
theorem HttpHeaderSeen.not_pending {h : HttpHeader} {data buf : List UInt8} {len : Nat}
    {rest ps : List (List UInt8)} (hseen : HttpHeaderSeen h data rest buf len ps) :
    ¬ HttpHeaderPending buf len ps := by
  induction hseen with
  | here _ hverdict hi =>
      intro hpending
      obtain ⟨_, hverdict'⟩ := hpending.verdict
      rw [hverdict, Option.some.injEq, Prod.mk.injEq] at hverdict'
      omega
  | more _ _ _ ih =>
      intro hpending
      cases hpending with
      | more _ _ hmore => exact ih hmore

/-- Where a header is seen, it decides the script. -/
theorem HttpOutcome.of_seen {h : HttpHeader} {data buf : List UInt8} {len : Nat}
    {rest : List (List UInt8)} {rs : List RecvResult} {o : Option HttpHeader}
    {script : List HttpEvent} (hout : HttpOutcome buf len rs o script)
    (hseen : HttpHeaderSeen h data rest buf len (recvPieces rs)) :
    o = some h ∧ script = replyScript h data (bodyScript rest (recvEof rs)) := by
  cases hout with
  | seen hseen' =>
      obtain ⟨rfl, rfl, rfl⟩ := hseen.unique hseen'
      exact ⟨rfl, rfl⟩
  | eof hpending => exact absurd hpending hseen.not_pending
  | silent hnone => exact absurd hseen (hnone _ _ _)

/-! ## Delivery -/

section Delivery

variable {e : HttpReqEnv} {url : Url}

theorem openingScript_of_sends (url : Url) (hsends : e.Sends) :
    openingScript e url = [resolveEvent e url, connectEvent e url, sendEvent e url] := by
  rw [openingScript, hsends.socket, hsends.connect]
  rfl

/-- A reply whose header is seen with status 200: the result of the script. -/
theorem httpGetSeen_of_headerSeen {h : HttpHeader} {data : List UInt8} {rest : List (List UInt8)}
    (hhttp : e.Http url) (hsends : e.Sends)
    (hseen : HttpHeaderSeen h data rest (httpGetMem e url) 0 (recvPieces e.recv))
    (hcode : h.responseCode = 200) :
    httpGetSeen e
      = some (openingScript e url
            ++ play (e.stops 3) (replyScript h data (bodyScript rest (recvEof e.recv))),
          e.func ((openingScript e url
            ++ play (e.stops 3) (replyScript h data (bodyScript rest (recvEof e.recv)))).length
              - 1)) := by
  obtain ⟨o, script, calls, report, hout, hget, hevents⟩ := httpGet_sent hhttp hsends
  obtain ⟨rfl, rfl⟩ := hout.of_seen hseen
  rw [if_neg (by rintro ⟨h', heq, hne⟩; exact hne (Option.some.inj heq ▸ hcode)),
    List.append_nil] at hevents
  rw [httpGetSeen, hget, ← hevents, List.length_map]
  rfl

/-- A script behind the opening, cut after the first call answered nonzero. -/
theorem delivers_of_script (url : Url) {header body : List UInt8} {bodies : List (List UInt8)}
    (hsends : e.Sends) (hbody : bodies.flatten = body)
    (hseen : httpGetSeen e
      = some (openingScript e url
            ++ play (e.stops 3) (deliveryScript header bodies),
          e.func ((openingScript e url
            ++ play (e.stops 3) (deliveryScript header bodies)).length - 1))) :
    HttpDelivers e header body := by
  have hopening := openingScript_of_sends url hsends
  have hlen3 : (openingScript e url).length = 3 := by rw [hopening]; rfl
  refine ⟨openingScript e url, bodies, by rw [hopening]; rfl, hbody, ?_⟩
  rw [hseen]
  generalize deliveryScript header bodies = script
  constructor
  · intro hzero
    have hplay : play (e.stops 3) script = script :=
      play_eq_self fun i hi => HttpReqEnv.stops_eq_false.mpr
        (hzero _ (by rw [List.length_append, hlen3]; omega))
    rw [hplay, hzero _ (by rw [List.length_append, hlen3]; omega)]
  · intro k hk hrun hans
    -- the calls of the opening are answered 0
    have h3 : 3 ≤ k := by
      by_contra hlt
      exact hans (hsends.zero k (by omega))
    obtain ⟨i, rfl⟩ := Nat.exists_eq_add_of_le h3
    rw [List.length_append, hlen3] at hk
    have hplay : play (e.stops 3) script = script.take (i + 1) :=
      play_eq_take (fun j hj => HttpReqEnv.stops_eq_false.mpr (hrun _ (by omega)))
        (HttpReqEnv.stops_eq_true.mpr hans) (by omega)
    have hcount : (openingScript e url ++ script.take (i + 1)).length - 1 = 3 + i := by
      rw [List.length_append, hlen3, List.length_take]
      omega
    have htake : (openingScript e url ++ script).take (3 + i + 1)
        = openingScript e url ++ script.take (i + 1) := by
      rw [Nat.add_assoc, ← hlen3, List.take_length_add_append]
    rw [hplay, hcount, htake]

end Delivery

/-- The bytes of a reply come to the callback, whatever way they were cut. -/
theorem httpGet_delivers (m : HttpReply) (hm : m.render.length < httpBufSize) (body : List UInt8)
    (chunks : List (List UInt8)) (hcut : HttpCut m.render.length (m.render ++ body) chunks)
    (e : HttpReqEnv) (url : Url) (hhttp : e.Http url) (hsends : e.Sends)
    (hrecv : e.recv = chunks.map .bytes) :
    HttpDelivers e m.render body := by
  obtain ⟨h, data, rest, bodies, hseen, hcode, hbody, hscript⟩ :=
    (m.headerText (Nat.lt_trans hm (by decide))).outcome hm hcut url hrecv
  refine delivers_of_script url hsends hbody ?_
  rw [← hscript]
  exact httpGetSeen_of_headerSeen hhttp hsends hseen hcode

/-- `HTTP/1.0 200 OK`, without lines. -/
def okReply : HttpReply where
  minor := bytes "0"
  minor_ok := by decide +kernel
  reason := bytes "OK"
  reason_ok := by decide +kernel
  lines := []

/-- A host that answers with `chunks`, and a callback that returns 0. -/
def replyEnv (chunks : List (List UInt8)) : HttpReqEnv where
  urlParse := some ⟨bytes "http", bytes "h", bytes "/", bytes "/"⟩
  stat := none
  fopen := false
  fread := []
  socket := true
  iaddrFmt := bytes "10.0.0.1:80"
  connect := true
  send := true
  recv := chunks.map .bytes
  func _ := 0
  stack := []
  http := default

/-- A reply that is cut in the middle of its header and again in its body. -/
theorem httpGet_delivers_cut :
    HttpDelivers (replyEnv [bytes "HTTP/1.0 2", bytes "00 OK\r\n\r\nb", bytes "ody"])
      okReply.render (bytes "body") :=
  httpGet_delivers okReply (by decide) (bytes "body")
    [bytes "HTTP/1.0 2", bytes "00 OK\r\n\r\nb", bytes "ody"]
    ⟨by decide, by decide,
      ⟨by decide, by decide, by decide, trivial⟩⟩
    (replyEnv [bytes "HTTP/1.0 2", bytes "00 OK\r\n\r\nb", bytes "ody"])
    ⟨bytes "http", bytes "h", bytes "/", bytes "/"⟩ ⟨rfl, by decide⟩
    ⟨rfl, rfl, rfl, rfl, rfl, rfl⟩ rfl

end Bklib
