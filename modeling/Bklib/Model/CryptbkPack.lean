import Bklib.Model.CInt
import Bklib.Model.Libc
import Bklib.Model.Word

/-!
# `Bklib.Model.CryptbkPack`: `cryptbk_pack` and `cryptbk_copy`

Here a record carries the bytes at `seskey`. The certificate, the request and the private key stay
handles of OpenSSL, and what its readers and writers return is a parameter (`PackSsl`). A BIO is the
text still to be read, or the text written so far.

A part of `cryptbk_pack` gives the state it leaves and whether it came to its end, which it does not
when an `assertb` in it fails. What was freed or stored by then stays so.
-/

set_option autoImplicit false

namespace Bklib

open Lib (readAt writeAt)

/-- The bits of `mode` that `cryptbk_pack` looks at. -/
structure PackMode where
  enc     : Bool := false
  dec     : Bool := false
  text    : Bool := false
  binary  : Bool := false
  pubkey  : Bool := false
  req     : Bool := false
  privkey : Bool := false
  seskey  : Bool := false
  deriving DecidableEq

/-- `cryptbk_s`, without the fields that packing leaves alone. -/
structure CryptbkRec where
  cert      : Option Nat := none
  req       : Option Nat := none
  pkey      : Option Nat := none
  /-- The block at `seskey`. -/
  seskey    : Option (List UInt8) := none
  seskeyLen : Int := 0
  deriving DecidableEq

/-- The fields that hold an object of OpenSSL. -/
inductive KeyField
  | cert
  | req
  | pkey

namespace CryptbkRec

/-- The object in a field. -/
def obj (cert : CryptbkRec) : KeyField → Option Nat
  | .cert => cert.cert
  | .req  => cert.req
  | .pkey => cert.pkey

/-- The record with another object in a field. -/
def setObj (cert : CryptbkRec) (x : Option Nat) : KeyField → CryptbkRec
  | .cert => { cert with cert := x }
  | .req  => { cert with req := x }
  | .pkey => { cert with pkey := x }

end CryptbkRec

/-- The calls for one kind of object. -/
structure PackCalls where
  /-- `PEM_read_bio_..`: the object, and the text behind it -/
  pemRead  : List UInt8 → Option Nat × List UInt8
  /-- `d2i_..`: the object, and how far it moves the pointer -/
  d2i      : List UInt8 → Option Nat × Int
  /-- `PEM_write_bio_..`: the result, and the text written -/
  pemWrite : Nat → Int × List UInt8
  /-- `i2d_..`: the length, and the bytes written -/
  i2d      : Nat → Int × List UInt8

/-- What `PEM_read_bio` finds. -/
structure PemBlock where
  name : List UInt8
  data : List UInt8
  deriving DecidableEq

/-- OpenSSL, as far as `cryptbk_pack` calls it. -/
structure PackSsl where
  x509        : PackCalls
  x509Req     : PackCalls
  /-- the calls for a private key, with the password they are given -/
  privateKey  : Option (List UInt8) → PackCalls
  /-- `PEM_read_bio`: a block, if there is one, and the text behind it -/
  pemReadBio  : List UInt8 → Option PemBlock × List UInt8
  /-- `PEM_write_bio` with an empty header: the result, and the text written -/
  pemWriteBio : List UInt8 → List UInt8 → Int × List UInt8
  /-- `BIO_tell`, for a text and what is left of it -/
  bioTell     : List UInt8 → List UInt8 → Int

/-- The memory from `buf` on. A string that starts there ends within `room` bytes. -/
structure PemBuf where
  mem  : Int → UInt8
  room : Nat

/-- `strlen (buf)`. -/
def PemBuf.strlen (buf : PemBuf) : Nat := (cstr (readAt buf.mem 0 buf.room)).length

/-- The local state of `cryptbk_pack`. `buf` counts from the start of the buffer. -/
structure PackSt where
  cert : CryptbkRec
  mem  : Int → UInt8
  buf  : Int
  len  : Int
  bio  : List UInt8

/-- `buf += i` and `len -= i`. -/
def PackSt.advance (st : PackSt) (i : Int) : PackSt :=
  { st with buf := st.buf + i, len := st.len - i }

/-- One part after another, as long as no `assertb` fails. -/
def packThen (r : PackSt × Bool) (part : PackSt → PackSt × Bool) : PackSt × Bool :=
  if r.2 then part r.1 else r

/-! ## Certificate, request and private key -/

/-- An object is read. -/
def packDecObj (calls : PackCalls) (f : KeyField) (mode : PackMode) (st : PackSt) :
    PackSt × Bool :=
  let st := { st with cert := st.cert.setObj none f }
  if mode.text then
    let r := calls.pemRead st.bio
    ({ st with cert := st.cert.setObj r.1 f, bio := r.2 }, r.1.isSome)
  else if mode.binary then
    if 0 < st.len then
      let r := calls.d2i (readAt st.mem st.buf st.len.toNat)
      let st := { st with cert := st.cert.setObj r.1 f }
      if r.1.isSome then (st.advance r.2, true) else (st, false)
    else (st, false)
  else (st, true)

/-- A request is read. Here the object is asserted after the two branches, so that it has to be
there in a mode that is neither text nor binary, too. -/
def packDecReq (calls : PackCalls) (mode : PackMode) (st : PackSt) : PackSt × Bool :=
  let st := { st with cert := st.cert.setObj none .req }
  if mode.text then
    let r := calls.pemRead st.bio
    ({ st with cert := st.cert.setObj r.1 .req, bio := r.2 }, r.1.isSome)
  else if mode.binary then
    if 0 < st.len then
      let r := calls.d2i (readAt st.mem st.buf st.len.toNat)
      ({ st with cert := st.cert.setObj r.1 .req }.advance r.2, r.1.isSome)
    else (st, false)
  else (st, false)

/-- An object is written. One that does not fit is only counted. -/
def packEncObj (calls : PackCalls) (f : KeyField) (mode : PackMode) (st : PackSt) :
    PackSt × Bool :=
  match st.cert.obj f with
  | none   => (st, false)
  | some x =>
      if mode.text then
        let r := calls.pemWrite x
        ({ st with bio := st.bio ++ r.2 }, 0 < r.1)
      else if mode.binary then
        let r := calls.i2d x
        if r.1 ≤ 0 then (st, false)
        else if r.1 ≤ st.len then
          let st := { st with mem := writeAt st.mem st.buf r.2 }
          if r.1 < st.len then (st.advance r.1, true) else (st, false)
        else (st.advance r.1, true)
      else (st, true)

/-- `mode & CRYPTBK_MODE_PUBKEY`. -/
def packPubkey (ssl : PackSsl) (mode : PackMode) (st : PackSt) : PackSt × Bool :=
  if mode.pubkey = false then (st, true)
  else if mode.dec then packDecObj ssl.x509 .cert mode st
  else packEncObj ssl.x509 .cert mode st

/-- `mode & CRYPTBK_MODE_REQ`. -/
def packReq (ssl : PackSsl) (mode : PackMode) (st : PackSt) : PackSt × Bool :=
  if mode.req = false then (st, true)
  else if mode.dec then packDecReq ssl.x509Req mode st
  else packEncObj ssl.x509Req .req mode st

/-- `mode & CRYPTBK_MODE_PRIVKEY`. -/
def packPrivkey (ssl : PackSsl) (pass : Option (List UInt8)) (mode : PackMode) (st : PackSt) :
    PackSt × Bool :=
  if mode.privkey = false then (st, true)
  else if mode.dec then packDecObj (ssl.privateKey pass) .pkey mode st
  else packEncObj (ssl.privateKey pass) .pkey mode st

/-! ## Session key -/

/-- `CRYPTBK_SESKEY_PEM_NAME`. -/
def seskeyPemName : List UInt8 := bytes "CRYTPTBK_SESKEY"

/-- A session key is read. -/
def packDecSeskey (ssl : PackSsl) (mode : PackMode) (st : PackSt) : PackSt × Bool :=
  let st := { st with cert := { st.cert with seskey := none } }
  if mode.text then
    let r := ssl.pemReadBio st.bio
    let st := { st with bio := r.2 }
    match r.1 with
    | none     => (st, false)
    | some pem =>
        if strcasecmpEq pem.name seskeyPemName then
          ({ st with cert := { st.cert with
              seskey := some pem.data, seskeyLen := natToInt32 pem.data.length } }, true)
        else (st, false)
  else if mode.binary then
    -- the comparison is one of `size_t`, which a negative `len` passes
    if st.len < 0 ∨ 2 ≤ st.len then
      let i := htons (get16 st.mem st.buf)
      let st := st.advance 2
      if 0 < i ∧ (i : Int) ≤ st.len then
        let data := readAt st.mem st.buf i
        -- `seskey_len` is not stored
        ({ st with cert := { st.cert with seskey := some data } }.advance i, true)
      else (st, false)
    else (st, false)
  else (st, true)

/-- A session key is written. -/
def packEncSeskey (ssl : PackSsl) (mode : PackMode) (st : PackSt) : PackSt × Bool :=
  match st.cert.seskey with
  | none       => (st, false)
  | some block =>
      let data := block.take st.cert.seskeyLen.toNat
      if mode.text then
        let r := ssl.pemWriteBio seskeyPemName data
        ({ st with bio := st.bio ++ r.2 }, 0 < r.1)
      else if mode.binary then
        if 2 + st.cert.seskeyLen ≤ st.len then
          let mem := put16 st.mem st.buf (htons (st.cert.seskeyLen % 65536).toNat)
          let st := { st with mem }.advance 2
          ({ st with mem := writeAt st.mem st.buf data }.advance st.cert.seskeyLen, true)
        else (st, false)
      else (st, true)

/-- `mode & CRYPTBK_MODE_SESKEY`. -/
def packSeskey (ssl : PackSsl) (mode : PackMode) (st : PackSt) : PackSt × Bool :=
  if mode.seskey = false then (st, true)
  else if mode.dec then packDecSeskey ssl mode st
  else packEncSeskey ssl mode st

/-! ## `cryptbk_pack` -/

/-- What `mode & CRYPTBK_MODE_TEXT` does in the end. `text` is what the BIO held at first. -/
def packText (ssl : PackSsl) (text : List UInt8) (mode : PackMode) (st : PackSt) : PackSt × Bool :=
  if mode.text = false then (st, true)
  else if mode.dec then
    let i := ssl.bioTell text st.bio
    (st.advance (if i = 0 then st.len else i), true)
  else
    let i := (st.bio.length : Int)
    if i ≤ st.len then
      let st := { st with mem := writeAt st.mem st.buf st.bio }.advance i
      (if 0 < st.len then { st with mem := writeAt st.mem st.buf [0] } else st, true)
    else (st, false)

/-- The NUL behind a string, at `buf[err]` with `buf` moved on by then. -/
def packNul (mode : PackMode) (st : PackSt) : Int → UInt8 :=
  if (mode.dec ∨ mode.text) ∧ 0 < st.buf ∧ st.buf < st.len then
    writeAt st.mem (st.buf + st.buf) [0]
  else st.mem

/-- What `cryptbk_pack` leaves. -/
structure PackOut where
  cert : CryptbkRec
  buf  : PemBuf
  err  : Int

/-- The length that `cryptbk_pack` works with. -/
def pemLen (buf : PemBuf) (len : Int) : Int := if len ≤ 0 then buf.strlen else len

/-- The parts of `cryptbk_pack`, one after another. -/
def packParts (ssl : PackSsl) (pass : Option (List UInt8)) (mode : PackMode) (st : PackSt) :
    PackSt × Bool :=
  let text := st.bio
  let r := packPubkey ssl mode st
  let r := packThen r (packReq ssl mode)
  let r := packThen r (packPrivkey ssl pass mode)
  let r := packThen r (packSeskey ssl mode)
  packThen r (packText ssl text mode)

/-- `cryptbk_pack`. -/
def cryptbkPack (ssl : PackSsl) (cert : CryptbkRec) (buf : PemBuf) (len : Int)
    (pass : Option (List UInt8)) (mode : PackMode) : PackOut :=
  if mode.dec = false ∧ mode.enc = false then ⟨cert, buf, -1⟩
  else
    let len := pemLen buf len
    let bio := if mode.dec then readAt buf.mem 0 len.toNat else []
    let r := packParts ssl pass mode ⟨cert, buf.mem, 0, len, bio⟩
    if r.2 then ⟨r.1.cert, { buf with mem := packNul mode r.1 }, r.1.buf⟩
    else ⟨r.1.cert, { buf with mem := r.1.mem }, -1⟩

/-- `cryptbk_copy`: the destination and the result. `junk` is what its array holds at first. -/
def cryptbkCopy (ssl : PackSsl) (junk : Int → UInt8) (dst src : CryptbkRec) (mode : PackMode) :
    CryptbkRec × Int :=
  let mode := { mode with enc := true, binary := true }
  let out := cryptbkPack ssl src ⟨junk, 8192⟩ 8192 none mode
  -- `i < sizeof (buf)` is a comparison of `size_t`
  if 0 ≤ out.err ∧ out.err < 8192 then
    let res := cryptbkPack ssl dst out.buf out.err none { mode with dec := true }
    (res.cert, if 0 ≤ res.err ∧ res.err < 8192 then 0 else -1)
  else (dst, -1)

end Bklib
