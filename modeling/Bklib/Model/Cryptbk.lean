import Bklib.Lib.Mem
import Bklib.Model.Libc

/-!
# `Bklib.Model.Cryptbk`: `cryptbk_crypt`

OpenSSL is a parameter: `OpenSsl` gives the result of each call that `cryptbk_crypt` makes, and the
bytes the call writes. Its objects (a certificate, a key) are handles.

A session key is the address of its bytes, since the private and public modes put the address of
an array on their own stack into the certificate for a while (`CryptEnv.key`). `dst` is a memory
with position 0 at the destination; `src` is the memory from the source on. The functions for one
kind of mode give back the destination and the result, with `none` where an `assertb` ends the
function between the two assignments of the session key.
-/

set_option autoImplicit false

namespace Bklib

open Lib (readAt writeAt)

/-- The bits of `mode` that `cryptbk_crypt` looks at. -/
structure CryptMode where
  enc     : Bool := false
  dec     : Bool := false
  text    : Bool := false
  md5     : Bool := false
  base64  : Bool := false
  pubkey  : Bool := false
  seskey  : Bool := false
  privkey : Bool := false
  aes     : Bool := false
  deriving DecidableEq

/-- A certificate record, as far as `cryptbk_crypt` uses it; `seskey` is an address. -/
structure Cryptbk where
  cert      : Option Nat
  pkey      : Option Nat
  seskey    : Nat
  seskeyLen : Int
  deriving DecidableEq

/-- The RSA functions. -/
inductive RsaOp
  | publicEncrypt
  | privateEncrypt
  | publicDecrypt
  | privateDecrypt

/-- The ciphers, by the number of key bytes they take. -/
inductive AesCipher
  | aes128
  | aes192
  | aes256
  deriving DecidableEq

/-- `EVP_CIPHER_CTX`, initialised. -/
structure AesCtx where
  cipher  : AesCipher
  key     : List UInt8
  iv      : List UInt8
  encrypt : Bool

/-- A block of data from `MD5_Final`. -/
abbrev Md5Digest := { d : List UInt8 // d.length = 16 }

/-- The calls of OpenSSL. An `Int` is the result (or the length stored), a list what is written. -/
structure OpenSsl where
  /-- `X509_get_pubkey` -/
  x509GetPubkey : Nat → Option Nat
  /-- `pkey->pkey.rsa` -/
  pkeyRsa       : Nat → Option Nat
  /-- `RSA_size` -/
  rsaSize       : Nat → Int
  rsaCrypt      : RsaOp → Nat → List UInt8 → Int × List UInt8
  /-- `EVP_CipherInit_ex` with the cipher -/
  cipherInit    : AesCipher → Bool → Bool
  /-- `EVP_CIPHER_CTX_set_key_length` -/
  setKeyLength  : AesCipher → Int → Bool
  /-- `EVP_CipherInit_ex` with the key and the initial vector -/
  cipherKey     : AesCtx → Bool
  /-- `EVP_EncryptUpdate`: whether it succeeds, `outlen`, and the output -/
  cipherUpdate  : AesCtx → List UInt8 → Bool × Int × List UInt8
  /-- `EVP_CipherFinal` after this data, with the `i` it is given: the `i` it leaves -/
  cipherFinal   : AesCtx → List UInt8 → Int → Int × List UInt8
  /-- `MD5_Init`, `MD5_Update` and `MD5_Final` -/
  md5           : List UInt8 → Md5Digest
  /-- `BIO_write` to a base64 filter -/
  bioWrite      : List UInt8 → Int
  /-- `BIO_get_mem_ptr` after it -/
  bioMem        : List UInt8 → Option (List UInt8)
  /-- the `n`-th `BIO_read` through a base64 filter -/
  bioRead       : List UInt8 → Nat → Int × List UInt8

/-- What a call of `cryptbk_crypt` runs on besides its arguments. -/
structure CryptEnv where
  ssl  : OpenSsl
  /-- The bytes at an address that a certificate may hold. -/
  mem  : Nat → List UInt8
  /-- Where the local array `key` is, and what is in it at first. -/
  key  : Nat
  junk : Int → UInt8

/-- A destination and the result. -/
structure CryptOut where
  dst : Int → UInt8
  err : Int

/-! ## Digests -/

/-- `hex_char`. -/
def hexChar (i : Nat) : UInt8 := (bytes "0123456789abcdef").getD (i % 16) 0

/-- The loop of `hex_string`, from byte `n - 1` down. -/
def hexLoop : Nat → (Int → UInt8) → (Int → UInt8)
  | 0,     dst => dst
  | i + 1, dst =>
      let dst := writeAt dst (2 * i + 1) [hexChar ((dst i).toNat % 16)]
      hexLoop i (writeAt dst (2 * i) [hexChar ((dst i).toNat / 16)])

/-- `hex_string`. -/
def hexString (dst : Int → UInt8) (dstlen : Int) (srclen : Nat) : CryptOut :=
  if dstlen < 2 * srclen + 1 then ⟨dst, -1⟩
  else ⟨hexLoop srclen (writeAt dst (2 * srclen) [0]), 2 * srclen + 1⟩

/-- The memory from position `pos` on. -/
def memFrom (m : Int → UInt8) (pos : Int) : Int → UInt8 := fun a => m (pos + a)

/-- `m` with the memory from position `pos` on replaced. -/
def memSet (m : Int → UInt8) (pos : Int) (m' : Int → UInt8) : Int → UInt8 := fun a =>
  if pos ≤ a then m' (a - pos) else m a

/-- `CRYPTBK_MODE_MD5`. -/
def cryptbkMd5 (env : CryptEnv) (src : List UInt8) (srclen : Int) (dst : Int → UInt8)
    (dstlen : Int) (mode : CryptMode) : CryptOut :=
  let digest := (env.ssl.md5 (src.take srclen.toNat)).val
  if dstlen < 16 then ⟨dst, -1⟩
  else if mode.enc then
    let dst := writeAt dst 0 digest
    if mode.text then hexString dst dstlen 16 else ⟨dst, 16⟩
  else if mode.dec then
    -- the digest is compared with the one in the destination
    let same :=
      if mode.text then
        strcasecmpEq (readAt (hexLoop 16 (writeAt env.junk 0 digest)) 0 32) (cstr (readAt dst 0 33))
      else memcmp digest (readAt dst 0 16) == 0
    ⟨dst, if same then 0 else -1⟩
  else ⟨dst, -1⟩

/-! ## The session key -/

/-- The number of key bytes. -/
def AesCipher.keylen : AesCipher → Nat
  | .aes128 => 16
  | .aes192 => 24
  | .aes256 => 32

/-- The cipher for a session key. -/
def cryptbkCipher (keylen : Int) : Option AesCipher :=
  if 256 ≤ keylen * 8 then some .aes256
  else if 192 ≤ keylen * 8 then some .aes192
  else if 128 ≤ keylen * 8 then some .aes128
  else none

/-- `CRYPTBK_MODE_AES` and `CRYPTBK_MODE_SESKEY`. Both directions call `EVP_EncryptUpdate`. -/
def cryptbkAes (env : CryptEnv) (cert : Cryptbk) (src : List UInt8) (srclen : Int)
    (dst : Int → UInt8) (dstlen : Int) (mode : CryptMode) : CryptOut :=
  match cryptbkCipher cert.seskeyLen with
  | none        => ⟨dst, -1⟩
  | some cipher =>
      let ctx : AesCtx :=
        ⟨cipher, (env.mem cert.seskey).take cipher.keylen, List.replicate 16 220, mode.enc⟩
      let src := src.take srclen.toNat
      if !env.ssl.cipherInit cipher mode.enc then ⟨dst, -1⟩
      else if !env.ssl.setKeyLength cipher cipher.keylen then ⟨dst, -1⟩
      else if !env.ssl.cipherKey ctx then ⟨dst, -1⟩
      else
        let r := env.ssl.cipherUpdate ctx src
        let outlen := r.2.1
        let dst := writeAt dst 0 r.2.2
        if !r.1 then ⟨dst, -1⟩
        else if outlen ≤ 0 || decide (dstlen < outlen) then ⟨dst, -1⟩
        else
          let f := env.ssl.cipherFinal ctx src (dstlen - outlen)
          ⟨writeAt dst outlen f.2, outlen + f.1⟩

/-! ## Base 64 -/

/-- The loop of `CRYPTBK_MODE_BASE64`: the offset and the destination. -/
def cryptbkBioReads (ssl : OpenSsl) (src : List UInt8) (dstlen : Int) :
    Nat → Nat → Int → (Int → UInt8) → Int × (Int → UInt8)
  | 0,        _, off, dst => (off, dst)
  | fuel + 1, n, off, dst =>
      if off < dstlen then
        let r := ssl.bioRead src n
        let dst := writeAt dst off r.2
        if r.1 < 0 then (-1, dst)
        else if r.1 = 0 then (off, dst)
        else cryptbkBioReads ssl src dstlen fuel (n + 1) (off + r.1) dst
      else (off, dst)

/-- `CRYPTBK_MODE_BASE64`. Each read that goes on brings at least one byte. -/
def cryptbkBase64 (env : CryptEnv) (src : List UInt8) (srclen : Int) (dst : Int → UInt8)
    (dstlen : Int) (mode : CryptMode) : CryptOut :=
  let src := src.take srclen.toNat
  if mode.enc then
    if env.ssl.bioWrite src ≠ srclen then ⟨dst, -1⟩
    else
      match env.ssl.bioMem src with
      | none      => ⟨dst, -1⟩
      | some data =>
          if (data.length : Int) + 1 < dstlen then ⟨writeAt dst 0 data, data.length⟩
          else ⟨dst, -1⟩
  else if mode.dec then
    let r := cryptbkBioReads env.ssl src dstlen dstlen.toNat 0 0 dst
    ⟨r.2, r.1⟩
  else ⟨dst, -1⟩

/-! ## `cryptbk_crypt` -/

/-- A source length of 0 or less asks for the length of a string. -/
def cryptbkSrclen (src : List UInt8) (srclen : Int) : Int :=
  if srclen ≤ 0 then (cstr src).length else srclen

/-- The end of `cryptbk_crypt`: a NUL behind the output if there is room. -/
def cryptbkEnd (dstlen : Int) (r : CryptOut) : CryptOut :=
  if 0 < r.err ∧ r.err < dstlen then { r with dst := writeAt r.dst r.err [0] } else r

/-- `cryptbk_crypt` without `CRYPTBK_MODE_PUBKEY` and `CRYPTBK_MODE_PRIVKEY`, which is how the code
of these modes calls it again. It does not change the certificate. -/
def cryptbkPlain (env : CryptEnv) (cert : Cryptbk) (src : List UInt8) (srclen : Int)
    (dst : Int → UInt8) (dstlen : Int) (mode : CryptMode) : CryptOut :=
  let srclen := cryptbkSrclen src srclen
  cryptbkEnd dstlen
    (if mode.aes || mode.seskey then cryptbkAes env cert src srclen dst dstlen mode
    else if mode.md5 then cryptbkMd5 env src srclen dst dstlen mode
    else if mode.base64 then cryptbkBase64 env src srclen dst dstlen mode
    else ⟨dst, -1⟩)

/-- `RSA_KEYLEN`. -/
def rsaKeylen : Int := 32

/-- The two digests that make the key: of the block, and of the first digest. -/
def cryptbkKey (env : CryptEnv) (cert : Cryptbk) (block : List UInt8) (len : Int) :
    Option (Int → UInt8) :=
  let mode : CryptMode := { enc := true, md5 := true }
  let r := cryptbkPlain env cert block len env.junk rsaKeylen mode
  if r.err ≠ 16 then none
  else
    let r' := cryptbkPlain env cert (readAt r.dst 0 16) r.err (memFrom r.dst 16) (rsaKeylen - 16) mode
    if r'.err ≠ 16 then none else some (memSet r.dst 16 r'.dst)

/-- What lies behind the RSA block, with the key made from `block`; `off` bytes are in the
destination. -/
def cryptbkRest (env : CryptEnv) (cert : Cryptbk) (block : List UInt8) (len : Int)
    (src : List UInt8) (srclen : Int) (dst : Int → UInt8) (off dstlen : Int) (mode : CryptMode) :
    (Int → UInt8) × Option Int :=
  match cryptbkKey env cert block len with
  | none     => (dst, none)
  | some key =>
      let env := { env with mem := Function.update env.mem env.key (readAt key 0 32) }
      let r := cryptbkPlain env cert src srclen (memFrom dst off) (dstlen - off) mode
      (memSet dst off r.dst, if r.err ≤ 0 then none else some (off + r.err))

/-- `CRYPTBK_MODE_ENC` with an RSA key. -/
def cryptbkRsaEnc (env : CryptEnv) (cert : Cryptbk) (rsa : Nat) (rsalen : Int) (src : List UInt8)
    (srclen : Int) (dst : Int → UInt8) (dstlen : Int) (mode : CryptMode) :
    (Int → UInt8) × Option Int :=
  let i := min rsalen srclen
  let r := env.ssl.rsaCrypt (if mode.pubkey then .publicEncrypt else .privateEncrypt) rsa
    (src.take i.toNat)
  let dst := writeAt dst 0 r.2
  if r.1 ≤ 0 then (dst, none)
  else if i < srclen then
    cryptbkRest env cert src i (src.drop i.toNat) (srclen - i) dst r.1 dstlen
      { enc := true, seskey := true }
  else (dst, some r.1)

/-- `CRYPTBK_MODE_DEC` with an RSA key. -/
def cryptbkRsaDec (env : CryptEnv) (cert : Cryptbk) (rsa : Nat) (rsalen : Int) (src : List UInt8)
    (srclen : Int) (dst : Int → UInt8) (dstlen : Int) (mode : CryptMode) :
    (Int → UInt8) × Option Int :=
  if dstlen < rsalen then (dst, none)
  else
    let r := env.ssl.rsaCrypt (if mode.pubkey then .publicDecrypt else .privateDecrypt) rsa
      (src.take rsalen.toNat)
    let dst := writeAt dst 0 r.2
    if r.1 ≤ 0 then (dst, none)
    else if rsalen < srclen then
      cryptbkRest env cert (readAt dst 0 r.1.toNat) r.1 (src.drop rsalen.toNat) (srclen - rsalen) dst
        r.1 dstlen { dec := true, seskey := true }
    else (dst, some r.1)

/-- The RSA key of a mode. -/
def cryptbkRsa (env : CryptEnv) (cert : Cryptbk) (mode : CryptMode) : Option Nat :=
  if mode.pubkey then (cert.cert.bind env.ssl.x509GetPubkey).bind env.ssl.pkeyRsa
  else cert.pkey.bind env.ssl.pkeyRsa

/-- The length of the RSA block. -/
def cryptbkRsalen (env : CryptEnv) (rsa : Nat) (mode : CryptMode) : Int :=
  if mode.enc then env.ssl.rsaSize rsa - 11 - 1
  else if mode.dec then env.ssl.rsaSize rsa
  else 0

/-- `CRYPTBK_MODE_PUBKEY` and `CRYPTBK_MODE_PRIVKEY`: the local key is the session key of the record
while the function is at work. -/
def cryptbkHybrid (env : CryptEnv) (cert : Cryptbk) (src : List UInt8) (srclen : Int)
    (dst : Int → UInt8) (dstlen : Int) (mode : CryptMode) : Cryptbk × CryptOut :=
  match cryptbkRsa env cert mode with
  | none     => (cert, ⟨dst, -1⟩)
  | some rsa =>
      let rsalen := cryptbkRsalen env rsa mode
      if rsalen < rsaKeylen then (cert, ⟨dst, -1⟩)
      else
        let inst := { cert with seskey := env.key, seskeyLen := rsaKeylen }
        let r :=
          if mode.enc then cryptbkRsaEnc env inst rsa rsalen src srclen dst dstlen mode
          else if mode.dec then cryptbkRsaDec env inst rsa rsalen src srclen dst dstlen mode
          else (dst, some (-1))
        match r.2 with
        | none     => (inst, ⟨r.1, -1⟩)
        | some err =>
            ({ inst with seskey := cert.seskey, seskeyLen := cert.seskeyLen }, ⟨r.1, err⟩)

/-- `cryptbk_crypt`: the certificate, the destination and the result. -/
def cryptbkCrypt (env : CryptEnv) (cert : Cryptbk) (src : List UInt8) (srclen : Int)
    (dst : Int → UInt8) (dstlen : Int) (mode : CryptMode) : Cryptbk × CryptOut :=
  if mode.pubkey || mode.privkey then
    let r := cryptbkHybrid env cert src (cryptbkSrclen src srclen) dst dstlen mode
    (r.1, cryptbkEnd dstlen r.2)
  else (cert, cryptbkPlain env cert src srclen dst dstlen mode)

end Bklib
