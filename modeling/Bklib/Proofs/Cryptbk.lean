import Bklib.Model.Cryptbk

/-!
# `Bklib.Proofs.Cryptbk`: the session key of a certificate, and the hybrid round trip

With an RSA key, `cryptbk_crypt` derives a key from the plain first block (`cryptbkKey_eq`) and hands
the rest to AES (`cryptbkRest_of_works`, `cryptbkRest_of_not_works`). `AesWorks` says that no call of
OpenSSL fails there, `HybridWorks` that none does after the local key is in the certificate.

* `cryptbkCrypt_seskey_iff`: the session key of the caller comes back exactly when `HybridWorks`.
* `cryptbkCrypt_roundTrip`: decryption undoes encryption.
-/

set_option autoImplicit false

namespace Bklib

open Lib

/-! ## The key -/

/-- The session key made from a block. -/
def derivedKey (ssl : OpenSsl) (block : List UInt8) : List UInt8 :=
  (ssl.md5 block).val ++ (ssl.md5 (ssl.md5 block).val).val

theorem length_derivedKey (ssl : OpenSsl) (block : List UInt8) :
    (derivedKey ssl block).length = 32 := by
  rw [derivedKey, List.length_append, (ssl.md5 _).property, (ssl.md5 _).property]

/-- What a memory holds whose tail was replaced. -/
theorem readAt_memSet (m m' : Int → UInt8) (n k : Nat) :
    readAt (memSet m n m') 0 (n + k) = readAt m 0 n ++ readAt m' 0 k := by
  have hhead : readAt (memSet m n m') 0 n = readAt m 0 n :=
    readAt_congr fun i hi => if_neg (by omega)
  have htail : readAt (memSet m n m') (0 + n) k = readAt m' 0 k := by
    refine readAt_congr fun i _ => (if_pos (by omega)).trans (congrArg m' (by omega))
  rw [readAt_add, hhead, htail]

section Key

variable (env : CryptEnv) (cert : Cryptbk)

/-- A digest, with a NUL behind it where there is room. -/
theorem cryptbkPlain_md5 (src : List UInt8) {srclen : Int} (hpos : 0 < srclen) (dst : Int → UInt8)
    {dstlen : Int} (hroom : 16 ≤ dstlen) :
    (cryptbkPlain env cert src srclen dst dstlen { enc := true, md5 := true }).err = 16 ∧
      readAt (cryptbkPlain env cert src srclen dst dstlen { enc := true, md5 := true }).dst 0 16
        = (env.ssl.md5 (src.take srclen.toNat)).val := by
  have hlen := (env.ssl.md5 (src.take srclen.toNat)).property
  have hread : readAt (writeAt dst 0 (env.ssl.md5 (src.take srclen.toNat)).val) 0 16
      = (env.ssl.md5 (src.take srclen.toNat)).val := by
    have h := readAt_writeAt dst 0 (env.ssl.md5 (src.take srclen.toNat)).val
    rwa [hlen] at h
  have hsrc : cryptbkSrclen src srclen = srclen := if_neg (by omega)
  have hnot : ¬dstlen < 16 := by omega
  simp only [cryptbkPlain, hsrc, Bool.or_self, Bool.false_eq_true, if_false, if_true, cryptbkMd5,
    if_neg hnot, cryptbkEnd]
  split
  · refine ⟨rfl, ?_⟩
    rw [readAt_writeAt_disjoint _ _ (Or.inl (by decide)), hread]
  · exact ⟨rfl, hread⟩

/-- The key array holds two digests. -/
theorem cryptbkKey_eq (block : List UInt8) {len : Int} (hpos : 0 < len) :
    ∃ key, cryptbkKey env cert block len = some key ∧
      readAt key 0 32 = derivedKey env.ssl (block.take len.toNat) := by
  obtain ⟨herr, hread⟩ :=
    cryptbkPlain_md5 env cert block hpos env.junk (show 16 ≤ rsaKeylen by decide)
  generalize hr : cryptbkPlain env cert block len env.junk rsaKeylen { enc := true, md5 := true } = r
    at herr hread
  obtain ⟨herr', hread'⟩ :=
    cryptbkPlain_md5 env cert (env.ssl.md5 (block.take len.toNat)).val (show (0 : Int) < 16 by decide)
      (memFrom r.dst 16) (show 16 ≤ rsaKeylen - 16 by decide)
  generalize hr' : cryptbkPlain env cert (env.ssl.md5 (block.take len.toNat)).val 16
    (memFrom r.dst 16) (rsaKeylen - 16) { enc := true, md5 := true } = r' at herr' hread'
  refine ⟨memSet r.dst 16 r'.dst, ?_, ?_⟩
  · simp only [cryptbkKey, hr, herr, hread, hr', herr', ne_eq, not_true_eq_false, if_false]
  · have hall := List.take_of_length_le (i := 16)
      (Nat.le_of_eq (env.ssl.md5 (block.take len.toNat)).property)
    have hsplit : readAt (memSet r.dst 16 r'.dst) 0 32 = readAt r.dst 0 16 ++ readAt r'.dst 0 16 :=
      readAt_memSet r.dst r'.dst 16 16
    rw [hsplit, hread, hread', derivedKey]
    exact congrArg (fun d => _ ++ (env.ssl.md5 d).val) hall

end Key

/-! ## The part behind the RSA block -/

/-- The cipher context for the part behind a block. -/
def derivedCtx (ssl : OpenSsl) (block : List UInt8) (encrypt : Bool) : AesCtx :=
  ⟨.aes256, derivedKey ssl block, List.replicate 16 220, encrypt⟩

/-- No call of OpenSSL fails on `src`, with room for `room` bytes of output. -/
structure AesWorks (ssl : OpenSsl) (ctx : AesCtx) (src : List UInt8) (room : Int) : Prop where
  init   : ssl.cipherInit ctx.cipher ctx.encrypt = true
  keylen : ssl.setKeyLength ctx.cipher ctx.cipher.keylen = true
  key    : ssl.cipherKey ctx = true
  update : (ssl.cipherUpdate ctx src).1 = true
  pos    : 0 < (ssl.cipherUpdate ctx src).2.1
  fits   : (ssl.cipherUpdate ctx src).2.1 ≤ room
  final  : 0 < (ssl.cipherUpdate ctx src).2.1
    + (ssl.cipherFinal ctx src (room - (ssl.cipherUpdate ctx src).2.1)).1

/-- The result of the AES branch: positive exactly when no call fails. -/
theorem cryptbkAes_err_pos (env : CryptEnv) {cert : Cryptbk} (hlen : cert.seskeyLen = rsaKeylen)
    (hkey : (env.mem cert.seskey).length = 32) (src : List UInt8) (srclen : Int)
    (dst : Int → UInt8) (dstlen : Int) (mode : CryptMode) :
    0 < (cryptbkAes env cert src srclen dst dstlen mode).err ↔
      AesWorks env.ssl ⟨.aes256, env.mem cert.seskey, List.replicate 16 220, mode.enc⟩
        (src.take srclen.toNat) dstlen := by
  have hcipher : cryptbkCipher cert.seskeyLen = some .aes256 := by rw [hlen]; decide
  have htake : (env.mem cert.seskey).take AesCipher.aes256.keylen = env.mem cert.seskey :=
    List.take_of_length_le (by rw [hkey]; decide)
  simp only [cryptbkAes, hcipher, htake]
  constructor
  · intro hpos
    split_ifs at hpos with hinit hlen' hkey' hupdate hout
    -- every failing call leaves the result -1
    all_goals try exact absurd hpos (show ¬(0 : Int) < -1 by decide)
    simp only [Bool.or_eq_true, decide_eq_true_eq, not_or] at hout
    exact ⟨by simpa using hinit, by simpa using hlen', by simpa using hkey', by simpa using hupdate,
      by omega, by omega, hpos⟩
  · intro h
    have hpos := h.pos
    have hfits := h.fits
    have hout : ¬((decide ((env.ssl.cipherUpdate ⟨.aes256, env.mem cert.seskey,
        List.replicate 16 220, mode.enc⟩ (src.take srclen.toNat)).2.1 ≤ 0) ||
        decide (dstlen < (env.ssl.cipherUpdate ⟨.aes256, env.mem cert.seskey,
        List.replicate 16 220, mode.enc⟩ (src.take srclen.toNat)).2.1)) = true) := by
      simp only [Bool.or_eq_true, decide_eq_true_eq, not_or]
      omega
    rw [if_neg (by simpa using h.init), if_neg (by simpa using h.keylen),
      if_neg (by simpa using h.key), if_neg (by simpa using h.update), if_neg hout]
    exact h.final

@[simp] theorem cryptbkEnd_err (dstlen : Int) (r : CryptOut) : (cryptbkEnd dstlen r).err = r.err := by
  unfold cryptbkEnd
  split <;> rfl

/-- The local key is the session key of the record. -/
def Installed (env : CryptEnv) (cert : Cryptbk) : Prop :=
  cert.seskey = env.key ∧ cert.seskeyLen = rsaKeylen

section Rest

variable {env : CryptEnv} {cert : Cryptbk} (hinst : Installed env cert) (block : List UInt8)
  (len : Int) (hlen : 0 < len) (src : List UInt8) (srclen : Int) (hsrclen : 0 < srclen)
  (dst : Int → UInt8) (off dstlen : Int) (mode : CryptMode) (hmode : mode.seskey = true)

include hinst hlen hsrclen hmode

/-- The rest goes through the AES branch with the key made from the block. -/
theorem cryptbkRest_eq :
    ∃ env', env'.ssl = env.ssl ∧
      env'.mem cert.seskey = derivedKey env.ssl (block.take len.toNat) ∧
      cryptbkRest env cert block len src srclen dst off dstlen mode =
        (memSet dst off (cryptbkEnd (dstlen - off)
            (cryptbkAes env' cert src srclen (memFrom dst off) (dstlen - off) mode)).dst,
          if (cryptbkAes env' cert src srclen (memFrom dst off) (dstlen - off) mode).err ≤ 0 then none
          else some
            (off + (cryptbkAes env' cert src srclen (memFrom dst off) (dstlen - off) mode).err)) := by
  obtain ⟨key, hkey, hread⟩ := cryptbkKey_eq env cert block hlen
  refine ⟨{ env with mem := Function.update env.mem env.key (readAt key 0 32) }, rfl, ?_, ?_⟩
  · rw [hinst.1]
    exact (Function.update_self _ _ _).trans hread
  · have hsrc : cryptbkSrclen src srclen = srclen := if_neg (by omega)
    simp only [cryptbkRest, hkey, cryptbkPlain, hsrc, hmode, Bool.or_true, if_true, cryptbkEnd_err]

/-- The rest has a result exactly when no call fails. -/
theorem cryptbkRest_isSome_iff :
    (cryptbkRest env cert block len src srclen dst off dstlen mode).2.isSome = true ↔
      AesWorks env.ssl (derivedCtx env.ssl (block.take len.toNat) mode.enc) (src.take srclen.toNat)
        (dstlen - off) := by
  obtain ⟨env', hssl, hkey, hrest⟩ :=
    cryptbkRest_eq hinst block len hlen src srclen hsrclen dst off dstlen mode hmode
  have hpos := cryptbkAes_err_pos env' hinst.2 (by rw [hkey, length_derivedKey]) src srclen
    (memFrom dst off) (dstlen - off) mode
  rw [hssl, hkey] at hpos
  rw [derivedCtx, ← hpos, hrest]
  split
  · next h => simp only [Option.isSome_none, Bool.false_eq_true, false_iff]; omega
  · next h => simp only [Option.isSome_some, true_iff]; omega

end Rest

/-! ## The session key of the caller -/

/-- No call that `cryptbk_crypt` makes to encrypt with the RSA key fails. -/
def EncWorks (ssl : OpenSsl) (rsa : Nat) (src : List UInt8) (srclen dstlen : Int)
    (mode : CryptMode) : Prop :=
  let i := min (ssl.rsaSize rsa - 12) srclen
  let off := (ssl.rsaCrypt (if mode.pubkey then .publicEncrypt else .privateEncrypt) rsa
    (src.take i.toNat)).1
  0 < off ∧ (i < srclen → AesWorks ssl (derivedCtx ssl (src.take i.toNat) true)
    ((src.drop i.toNat).take (srclen - i).toNat) (dstlen - off))

/-- No call that `cryptbk_crypt` makes to decrypt with the RSA key fails, and the destination has
room for the first block. -/
def DecWorks (ssl : OpenSsl) (rsa : Nat) (src : List UInt8) (srclen : Int) (dst : Int → UInt8)
    (dstlen : Int) (mode : CryptMode) : Prop :=
  let n := ssl.rsaSize rsa
  let r := ssl.rsaCrypt (if mode.pubkey then .publicDecrypt else .privateDecrypt) rsa
    (src.take n.toNat)
  n ≤ dstlen ∧ 0 < r.1 ∧
    (n < srclen → AesWorks ssl (derivedCtx ssl (readAt (writeAt dst 0 r.2) 0 r.1.toNat) false)
      ((src.drop n.toNat).take (srclen - n).toNat) (dstlen - r.1))

/-- Where the local key gets into the record, no call fails after that. -/
def HybridWorks (env : CryptEnv) (cert : Cryptbk) (src : List UInt8) (srclen : Int)
    (dst : Int → UInt8) (dstlen : Int) (mode : CryptMode) : Prop :=
  (mode.pubkey = true ∨ mode.privkey = true) → ∀ rsa, cryptbkRsa env cert mode = some rsa →
    rsaKeylen ≤ cryptbkRsalen env rsa mode →
    (mode.enc = true → EncWorks env.ssl rsa src (cryptbkSrclen src srclen) dstlen mode) ∧
    (mode.enc = false → DecWorks env.ssl rsa src (cryptbkSrclen src srclen) dst dstlen mode)

section Hybrid

variable {env : CryptEnv} {cert : Cryptbk} (hinst : Installed env cert) (rsa : Nat)
  (src : List UInt8) (srclen : Int) (dst : Int → UInt8) (dstlen : Int) (mode : CryptMode)

include hinst

/-- An encryption comes to its end exactly when every block of it works. -/
theorem cryptbkRsaEnc_isSome_iff (hlen : rsaKeylen ≤ env.ssl.rsaSize rsa - 12) :
    (cryptbkRsaEnc env cert rsa (env.ssl.rsaSize rsa - 12) src srclen dst dstlen mode).2.isSome
      = true ↔ EncWorks env.ssl rsa src srclen dstlen mode := by
  rw [rsaKeylen] at hlen
  simp only [cryptbkRsaEnc, EncWorks]
  generalize hi : min (env.ssl.rsaSize rsa - 12) srclen = i
  generalize env.ssl.rsaCrypt (if mode.pubkey = true then .publicEncrypt else .privateEncrypt) rsa
    (src.take i.toNat) = r
  by_cases hoff : r.1 ≤ 0
  · rw [if_pos hoff]
    simp only [Option.isSome_none, Bool.false_eq_true, false_iff, not_and]
    omega
  · rw [if_neg hoff]
    by_cases hrest : i < srclen
    · have hworks := cryptbkRest_isSome_iff hinst src i (by omega) (src.drop i.toNat) (srclen - i)
        (by omega) (writeAt dst 0 r.2) r.1 dstlen { enc := true, seskey := true } rfl
      rw [if_pos hrest, hworks]
      exact ⟨fun h => ⟨by omega, fun _ => h⟩, fun h => h.2 hrest⟩
    · rw [if_neg hrest]
      simp only [Option.isSome_some, true_iff]
      exact ⟨by omega, fun h => absurd h hrest⟩

/-- A decryption comes to its end exactly when every block of it works. -/
theorem cryptbkRsaDec_isSome_iff :
    (cryptbkRsaDec env cert rsa (env.ssl.rsaSize rsa) src srclen dst dstlen mode).2.isSome
      = true ↔ DecWorks env.ssl rsa src srclen dst dstlen mode := by
  simp only [cryptbkRsaDec, DecWorks]
  generalize env.ssl.rsaSize rsa = n
  generalize env.ssl.rsaCrypt (if mode.pubkey = true then .publicDecrypt else .privateDecrypt) rsa
    (src.take n.toNat) = r
  by_cases hroom : dstlen < n
  · rw [if_pos hroom]
    simp only [Option.isSome_none, Bool.false_eq_true, false_iff, not_and]
    omega
  · rw [if_neg hroom]
    by_cases hoff : r.1 ≤ 0
    · rw [if_pos hoff]
      simp only [Option.isSome_none, Bool.false_eq_true, false_iff, not_and]
      omega
    · rw [if_neg hoff]
      by_cases hrest : n < srclen
      · have hworks := cryptbkRest_isSome_iff hinst (readAt (writeAt dst 0 r.2) 0 r.1.toNat) r.1
          (by omega) (src.drop n.toNat) (srclen - n) (by omega) (writeAt dst 0 r.2) r.1 dstlen
          { dec := true, seskey := true } rfl
        rw [List.take_of_length_le (by simp)] at hworks
        rw [if_pos hrest, hworks]
        exact ⟨fun h => ⟨by omega, by omega, fun _ => h⟩, fun h => h.2.2 hrest⟩
      · rw [if_neg hrest]
        simp only [Option.isSome_some, true_iff]
        exact ⟨by omega, by omega, fun h => absurd h hrest⟩

end Hybrid

/-- The branch of the mode, for a block that has room for a key. -/
def cryptbkBranch (env : CryptEnv) (cert : Cryptbk) (rsa : Nat) (src : List UInt8) (srclen : Int)
    (dst : Int → UInt8) (dstlen : Int) (mode : CryptMode) : (Int → UInt8) × Option Int :=
  if mode.enc then cryptbkRsaEnc env cert rsa (cryptbkRsalen env rsa mode) src srclen dst dstlen mode
  else if mode.dec then
    cryptbkRsaDec env cert rsa (cryptbkRsalen env rsa mode) src srclen dst dstlen mode
  else (dst, some (-1))

theorem cryptbkRsalen_enc (env : CryptEnv) (rsa : Nat) {mode : CryptMode} (henc : mode.enc = true) :
    cryptbkRsalen env rsa mode = env.ssl.rsaSize rsa - 12 := by
  rw [cryptbkRsalen, henc, if_pos rfl]
  omega

theorem cryptbkRsalen_dec (env : CryptEnv) (rsa : Nat) {mode : CryptMode} (henc : mode.enc = false)
    (hdec : mode.dec = true) : cryptbkRsalen env rsa mode = env.ssl.rsaSize rsa := by
  rw [cryptbkRsalen, henc, if_neg (by simp), hdec, if_pos rfl]

/-- The branch has a result exactly when no call fails in it. -/
theorem cryptbkBranch_isSome_iff {env : CryptEnv} {cert : Cryptbk} (hinst : Installed env cert)
    {rsa : Nat} (src : List UInt8) (srclen : Int) (dst : Int → UInt8) (dstlen : Int)
    {mode : CryptMode} (hlen : rsaKeylen ≤ cryptbkRsalen env rsa mode) :
    (cryptbkBranch env cert rsa src srclen dst dstlen mode).2.isSome = true ↔
      (mode.enc = true → EncWorks env.ssl rsa src srclen dstlen mode) ∧
      (mode.enc = false → DecWorks env.ssl rsa src srclen dst dstlen mode) := by
  unfold cryptbkBranch
  cases henc : mode.enc with
  | true =>
      rw [cryptbkRsalen_enc env rsa henc] at hlen ⊢
      rw [if_pos rfl, cryptbkRsaEnc_isSome_iff hinst rsa src srclen dst dstlen mode hlen]
      simp
  | false =>
      cases hdec : mode.dec with
      | true =>
          rw [cryptbkRsalen_dec env rsa henc hdec, if_neg (by simp), if_pos rfl,
            cryptbkRsaDec_isSome_iff hinst rsa src srclen dst dstlen mode]
          simp
      | false =>
          -- without a direction the block has no length, and the function ends before the key
          rw [cryptbkRsalen, henc, hdec] at hlen
          exact absurd (show rsaKeylen ≤ 0 from hlen) (by decide)

/-- When the session key of the record is the caller's again. -/
theorem cryptbkHybrid_seskey_iff (env : CryptEnv) (cert : Cryptbk) (src : List UInt8) (srclen : Int)
    (dst : Int → UInt8) (dstlen : Int) (mode : CryptMode) :
    let r := (cryptbkHybrid env cert src srclen dst dstlen mode).1
    (r.seskey = cert.seskey ∧ r.seskeyLen = cert.seskeyLen) ↔
      (∀ rsa, cryptbkRsa env cert mode = some rsa → rsaKeylen ≤ cryptbkRsalen env rsa mode →
        (mode.enc = true → EncWorks env.ssl rsa src srclen dstlen mode) ∧
        (mode.enc = false → DecWorks env.ssl rsa src srclen dst dstlen mode)) ∨
      Installed env cert := by
  simp only [cryptbkHybrid]
  cases hrsa : cryptbkRsa env cert mode with
  | none => simp
  | some rsa =>
      simp only [Option.some.injEq, forall_eq']
      by_cases hlen : cryptbkRsalen env rsa mode < rsaKeylen
      · rw [if_pos hlen]
        simp only [and_self, true_iff]
        exact Or.inl fun h => absurd h (by omega)
      · rw [if_neg hlen]
        have hle : rsaKeylen ≤ cryptbkRsalen env rsa mode := by omega
        have hinst : Installed env { cert with seskey := env.key, seskeyLen := rsaKeylen } :=
          ⟨rfl, rfl⟩
        have hworks := cryptbkBranch_isSome_iff hinst src srclen dst dstlen hle
        unfold cryptbkBranch at hworks
        rw [← hworks]
        split
        · next hnone =>
            rw [hnone]
            simp only [hle, true_implies, Option.isSome_none, Bool.false_eq_true, false_or]
            exact ⟨fun h => ⟨h.1.symm, h.2.symm⟩, fun h => ⟨h.1.symm, h.2.symm⟩⟩
        · next hsome =>
            rw [hsome]
            simp

/-- `cryptbk_crypt` gives the session key back exactly when no call fails after the local key is in
the record, or the record already holds the address of that key. -/
theorem cryptbkCrypt_seskey_iff (env : CryptEnv) (cert : Cryptbk) (src : List UInt8) (srclen : Int)
    (dst : Int → UInt8) (dstlen : Int) (mode : CryptMode) :
    let r := (cryptbkCrypt env cert src srclen dst dstlen mode).1
    (r.seskey = cert.seskey ∧ r.seskeyLen = cert.seskeyLen) ↔
      HybridWorks env cert src srclen dst dstlen mode ∨ Installed env cert := by
  simp only [cryptbkCrypt, HybridWorks]
  by_cases hmode : (mode.pubkey || mode.privkey) = true
  · rw [if_pos hmode]
    have hkey := cryptbkHybrid_seskey_iff env cert src (cryptbkSrclen src srclen) dst dstlen mode
    rw [Bool.or_eq_true] at hmode
    simpa only [hmode, true_implies] using hkey
  · rw [if_neg hmode]
    rw [Bool.or_eq_true] at hmode
    exact iff_of_true ⟨rfl, rfl⟩ (Or.inl fun h => absurd h hmode)

/-! ## The round trip -/

/-- A public and a private key that belong together, as PKCS1 padding uses them. -/
structure RsaPair (ssl : OpenSsl) (pub priv : Nat) : Prop where
  size  : ssl.rsaSize priv = ssl.rsaSize pub
  large : 44 ≤ ssl.rsaSize pub
  /-- What the public key encrypts, the private one decrypts. -/
  sealed : ∀ m : List UInt8, 0 < m.length → m.length + 11 ≤ ssl.rsaSize pub →
    ∃ c : List UInt8, c.length = ssl.rsaSize pub ∧
      ssl.rsaCrypt .publicEncrypt pub m = ((c.length : Int), c) ∧
      ssl.rsaCrypt .privateDecrypt priv c = ((m.length : Int), m)
  /-- What the private key encrypts, the public one decrypts. -/
  signed : ∀ m : List UInt8, 0 < m.length → m.length + 11 ≤ ssl.rsaSize pub →
    ∃ c : List UInt8, c.length = ssl.rsaSize pub ∧
      ssl.rsaCrypt .privateEncrypt priv m = ((c.length : Int), c) ∧
      ssl.rsaCrypt .publicDecrypt pub c = ((m.length : Int), m)

/-- The stream cipher: decryption inverts encryption, and a length stays what it is. -/
structure AesInverse (ssl : OpenSsl) : Prop where
  init   : ∀ cipher e, ssl.cipherInit cipher e = true
  keylen : ∀ cipher, ssl.setKeyLength cipher cipher.keylen = true
  key    : ∀ ctx, ssl.cipherKey ctx = true
  update : ∀ cipher key iv m, 0 < m.length → ∃ c : List UInt8, c.length = m.length ∧
    ssl.cipherUpdate ⟨cipher, key, iv, true⟩ m = (true, (c.length : Int), c) ∧
    ssl.cipherUpdate ⟨cipher, key, iv, false⟩ c = (true, (m.length : Int), m)
  final  : ∀ ctx m i, ssl.cipherFinal ctx m i = (0, [])

@[simp] theorem writeAt_nil (m : Int → UInt8) (a : Int) : writeAt m a [] = m := by
  funext i
  exact if_neg (by simp)

/-- The end of `cryptbk_crypt` does not touch the output. -/
theorem readAt_cryptbkEnd (dst : Int → UInt8) (dstlen : Int) (n : Nat) :
    readAt (cryptbkEnd dstlen ⟨dst, n⟩).dst 0 n = readAt dst 0 n := by
  unfold cryptbkEnd
  split
  · exact readAt_writeAt_disjoint _ _ (Or.inl (by simp))
  · rfl

section Output

variable {env : CryptEnv} {cert : Cryptbk} (haes : AesInverse env.ssl)
include haes

/-- What the AES branch puts into the destination. -/
theorem cryptbkAes_eq (hlen : cert.seskeyLen = rsaKeylen) {key : List UInt8}
    (hkey : env.mem cert.seskey = key) (hkeylen : key.length = 32) (src : List UInt8)
    {srclen dstlen : Int} {mode : CryptMode} {out : List UInt8} (hpos : 0 < out.length)
    (hroom : out.length ≤ dstlen) (dst : Int → UInt8)
    (hout : env.ssl.cipherUpdate ⟨.aes256, key, List.replicate 16 220, mode.enc⟩
      (src.take srclen.toNat) = (true, (out.length : Int), out)) :
    cryptbkAes env cert src srclen dst dstlen mode = ⟨writeAt dst 0 out, out.length⟩ := by
  have hcipher : cryptbkCipher cert.seskeyLen = some .aes256 := by rw [hlen]; decide
  have htake : key.take AesCipher.aes256.keylen = key :=
    List.take_of_length_le (by rw [hkeylen]; decide)
  have hfits : ¬(decide ((out.length : Int) ≤ 0) || decide (dstlen < (out.length : Int))) = true := by
    simp only [Bool.or_eq_true, decide_eq_true_eq, not_or]
    omega
  simp only [cryptbkAes, hcipher, hkey, htake, haes.init, haes.keylen, haes.key, hout, haes.final,
    Bool.not_true, Bool.false_eq_true, if_false, if_neg hfits, writeAt_nil, Int.add_zero]

/-- What follows the RSA block in the destination. -/
theorem cryptbkRest_out (hinst : Installed env cert) (block : List UInt8) {len : Int} (hlen : 0 < len)
    (src : List UInt8) {srclen : Int} (hsrclen : 0 < srclen) (dst : Int → UInt8) (off : Nat)
    {dstlen : Int} (mode : CryptMode) (hmode : mode.seskey = true) {out : List UInt8}
    (hpos : 0 < out.length) (hroom : off + out.length ≤ dstlen)
    (hout : env.ssl.cipherUpdate (derivedCtx env.ssl (block.take len.toNat) mode.enc)
      (src.take srclen.toNat) = (true, (out.length : Int), out)) :
    (cryptbkRest env cert block len src srclen dst off dstlen mode).2
        = some ((off : Int) + out.length) ∧
      readAt (cryptbkRest env cert block len src srclen dst off dstlen mode).1 0 (off + out.length)
        = readAt dst 0 off ++ out := by
  obtain ⟨env', hssl, hkey, hrest⟩ :=
    cryptbkRest_eq hinst block len hlen src srclen hsrclen dst off dstlen mode hmode
  rw [hrest, cryptbkAes_eq (hssl ▸ haes) hinst.2 hkey (length_derivedKey _ _) src hpos (by omega)
    (memFrom dst off) (hssl ▸ hout)]
  constructor
  · exact if_neg (by simp only; omega)
  · rw [readAt_memSet, readAt_cryptbkEnd, readAt_writeAt]

section Blocks

variable (hinst : Installed env cert) (rsa : Nat) {a a' b b' : List UInt8} (behind : List UInt8)
  (hpos' : 0 < a'.length) (hlen : b.length = b'.length) (dst : Int → UInt8)
  {dstlen : Int} (hroom : a'.length + b'.length ≤ dstlen) {mode : CryptMode}

include hinst hpos' hlen hroom

/-- Encryption of `a`, the RSA block, and of the rest `b`. -/
theorem cryptbkRsaEnc_out {rsalen : Int} (hpos : 0 < a.length)
    (ha : (a.length : Int) = min rsalen (a.length + b.length))
    (hrsa : env.ssl.rsaCrypt (if mode.pubkey then .publicEncrypt else .privateEncrypt) rsa a
      = ((a'.length : Int), a'))
    (hupdate : 0 < b.length → env.ssl.cipherUpdate (derivedCtx env.ssl a true) b
      = (true, (b'.length : Int), b')) :
    let r := cryptbkRsaEnc env cert rsa rsalen (a ++ (b ++ behind)) (a.length + b.length) dst dstlen
      mode
    r.2 = some ((a'.length : Int) + b'.length) ∧
      readAt r.1 0 (a'.length + b'.length) = a' ++ b' := by
  have htake : (a ++ (b ++ behind)).take a.length = a := List.take_left
  have hread := readAt_writeAt dst 0 a'
  simp only [cryptbkRsaEnc, ← ha, Int.toNat_natCast, htake, List.drop_left, hrsa]
  rw [if_neg (by omega)]
  by_cases hb : 0 < b.length
  · rw [if_pos (by omega)]
    have hbtake : (b ++ behind).take (a.length + b.length - a.length : Int).toNat = b := by
      rw [show ((a.length : Int) + b.length - a.length).toNat = b.length by omega, List.take_left]
    have hout := cryptbkRest_out haes hinst (a ++ (b ++ behind)) (Int.natCast_pos.mpr hpos)
      (b ++ behind) (show (0 : Int) < a.length + b.length - a.length by omega) (writeAt dst 0 a')
      a'.length { enc := true, seskey := true } rfl (hlen ▸ hb) hroom
      (by rw [Int.toNat_natCast, htake, hbtake]; exact hupdate hb)
    rwa [hread] at hout
  · have hb' : b' = [] := List.length_eq_zero_iff.mp (by omega)
    subst hb'
    rw [if_neg (by omega)]
    simp [hread]

/-- Decryption of the block `a`, and of the rest `b`. -/
theorem cryptbkRsaDec_out (hdst : (a.length : Int) ≤ dstlen)
    (hrsa : env.ssl.rsaCrypt (if mode.pubkey then .publicDecrypt else .privateDecrypt) rsa a
      = ((a'.length : Int), a'))
    (hupdate : 0 < b.length → env.ssl.cipherUpdate (derivedCtx env.ssl a' false) b
      = (true, (b'.length : Int), b')) :
    let r := cryptbkRsaDec env cert rsa a.length (a ++ (b ++ behind)) (a.length + b.length) dst dstlen
      mode
    r.2 = some ((a'.length : Int) + b'.length) ∧
      readAt r.1 0 (a'.length + b'.length) = a' ++ b' := by
  have htake : (a ++ (b ++ behind)).take a.length = a := List.take_left
  have hread := readAt_writeAt dst 0 a'
  simp only [cryptbkRsaDec, Int.toNat_natCast, htake, List.drop_left, hrsa, hread]
  rw [if_neg (by omega), if_neg (by omega)]
  by_cases hb : 0 < b.length
  · rw [if_pos (by omega)]
    have hbtake : (b ++ behind).take (a.length + b.length - a.length : Int).toNat = b := by
      rw [show ((a.length : Int) + b.length - a.length).toNat = b.length by omega, List.take_left]
    have hout := cryptbkRest_out haes hinst a' (Int.natCast_pos.mpr hpos') (b ++ behind)
      (show (0 : Int) < a.length + b.length - a.length by omega) (writeAt dst 0 a') a'.length
      { dec := true, seskey := true } rfl (hlen ▸ hb) hroom
      (by rw [Int.toNat_natCast, List.take_length, hbtake]; exact hupdate hb)
    rwa [hread] at hout
  · have hb' : b' = [] := List.length_eq_zero_iff.mp (by omega)
    subst hb'
    rw [if_neg (by omega)]
    simp [hread]

end Blocks

end Output

/-- What `cryptbk_crypt` returns when the branch of the mode has a result. -/
theorem cryptbkCrypt_of_branch {env : CryptEnv} {cert : Cryptbk} {mode : CryptMode}
    (hmode : (mode.pubkey || mode.privkey) = true) {rsa : Nat}
    (hrsa : cryptbkRsa env cert mode = some rsa) (hlen : rsaKeylen ≤ cryptbkRsalen env rsa mode)
    {src : List UInt8} {srclen : Int} (hsrclen : 0 < srclen) {dst : Int → UInt8} {dstlen : Int}
    {out : List UInt8} (hbranch : ∀ inst, Installed env inst →
      (cryptbkBranch env inst rsa src srclen dst dstlen mode).2 = some (out.length : Int) ∧
        readAt (cryptbkBranch env inst rsa src srclen dst dstlen mode).1 0 out.length = out) :
    (cryptbkCrypt env cert src srclen dst dstlen mode).2.err = out.length ∧
      readAt (cryptbkCrypt env cert src srclen dst dstlen mode).2.dst 0 out.length = out := by
  have hsrc : cryptbkSrclen src srclen = srclen := if_neg (by omega)
  have hnot : ¬cryptbkRsalen env rsa mode < rsaKeylen := by omega
  obtain ⟨herr, hread⟩ := hbranch { cert with seskey := env.key, seskeyLen := rsaKeylen } ⟨rfl, rfl⟩
  unfold cryptbkBranch at herr hread
  simp only [cryptbkCrypt, hmode, if_true, cryptbkHybrid, hrsa, hsrc, if_neg hnot, herr,
    cryptbkEnd_err, readAt_cryptbkEnd, hread, and_self]

section Directions

variable {env : CryptEnv} {cert : Cryptbk} (haes : AesInverse env.ssl) {mode : CryptMode}
  (hmode : (mode.pubkey || mode.privkey) = true) {rsa : Nat}
  (hrsa : cryptbkRsa env cert mode = some rsa) {a a' b b' : List UInt8} (behind : List UInt8)
  (ha' : 0 < a'.length) (hb : b.length = b'.length) (dst : Int → UInt8) {dstlen : Int}
  (hroom : a'.length + b'.length ≤ dstlen)

include haes hmode hrsa ha' hb hroom

/-- Encryption of a message that the RSA block cuts into `a` and `b`. -/
theorem cryptbkCrypt_enc (henc : mode.enc = true) {n : Nat} (hn : 44 ≤ n)
    (hsize : env.ssl.rsaSize rsa = n) (ha : 0 < a.length)
    (hcut : a.length = min (n - 12) (a.length + b.length))
    (hblock : env.ssl.rsaCrypt (if mode.pubkey then .publicEncrypt else .privateEncrypt) rsa a
      = ((a'.length : Int), a'))
    (hupdate : 0 < b.length → env.ssl.cipherUpdate (derivedCtx env.ssl a true) b
      = (true, (b'.length : Int), b')) :
    let r := (cryptbkCrypt env cert (a ++ (b ++ behind)) (a.length + b.length) dst dstlen mode).2
    r.err = (a' ++ b').length ∧ readAt r.dst 0 (a' ++ b').length = a' ++ b' := by
  have hlen : cryptbkRsalen env rsa mode = (n : Int) - 12 := by
    rw [cryptbkRsalen_enc env rsa henc, hsize]
  refine cryptbkCrypt_of_branch hmode hrsa (by rw [hlen, rsaKeylen]; omega) (by omega) ?_
  intro inst hinst
  rw [cryptbkBranch, henc, if_pos rfl, hlen, List.length_append]
  exact cryptbkRsaEnc_out haes hinst rsa behind ha' hb dst hroom ha (by omega) hblock hupdate

/-- Decryption of the RSA block `a` and of `b` behind it. -/
theorem cryptbkCrypt_dec (henc : mode.enc = false) (hdec : mode.dec = true)
    (hsize : env.ssl.rsaSize rsa = a.length) (hn : 44 ≤ a.length) (hdst : (a.length : Int) ≤ dstlen)
    (hblock : env.ssl.rsaCrypt (if mode.pubkey then .publicDecrypt else .privateDecrypt) rsa a
      = ((a'.length : Int), a'))
    (hupdate : 0 < b.length → env.ssl.cipherUpdate (derivedCtx env.ssl a' false) b
      = (true, (b'.length : Int), b')) :
    let r := (cryptbkCrypt env cert (a ++ (b ++ behind)) (a.length + b.length) dst dstlen mode).2
    r.err = (a' ++ b').length ∧ readAt r.dst 0 (a' ++ b').length = a' ++ b' := by
  have hlen : cryptbkRsalen env rsa mode = a.length := by
    rw [cryptbkRsalen_dec env rsa henc hdec, hsize]
  refine cryptbkCrypt_of_branch hmode hrsa (by rw [hlen, rsaKeylen]; omega) (by omega) ?_
  intro inst hinst
  rw [cryptbkBranch, henc, if_neg (by simp), hdec, if_pos rfl, hlen, List.length_append]
  exact cryptbkRsaDec_out haes hinst rsa behind ha' hb dst hroom hdst hblock hupdate

end Directions

/-- The mode with a direction and a kind of key. -/
def cryptMode (enc pub : Bool) : CryptMode := { enc := enc, dec := !enc, pubkey := pub, privkey := !pub }

/-- Encryption with one key and decryption with the other, into destinations with room. -/
def RoundTrips (env env' : CryptEnv) (cert cert' : Cryptbk) (mode mode' : CryptMode) (n : Int)
    (msg : List UInt8) : Prop :=
  ∀ (behind behind' : List UInt8) (dst dst' : Int → UInt8) (dstlen dstlen' : Int),
    n + max 0 (msg.length - (n - 12)) ≤ dstlen → max n msg.length ≤ dstlen' →
    let e := (cryptbkCrypt env cert (msg ++ behind) msg.length dst dstlen mode).2
    let d := (cryptbkCrypt env' cert' (readAt e.dst 0 e.err.toNat ++ behind') e.err dst' dstlen'
      mode').2
    d.err = msg.length ∧ readAt d.dst 0 msg.length = msg

section RoundTrip

variable {ssl : OpenSsl} {pub priv : Nat} (hpair : RsaPair ssl pub priv) (haes : AesInverse ssl)
  {env env' : CryptEnv} (henv : env.ssl = ssl) (henv' : env'.ssl = ssl)

include haes henv henv' in
/-- One direction, by what its RSA functions do to the first block. -/
theorem roundTrips_of_block {cert cert' : Cryptbk} {b : Bool} {k k' : Nat} {n : Nat} (hn : 44 ≤ n)
    (hk : cryptbkRsa env cert (cryptMode true b) = some k)
    (hk' : cryptbkRsa env' cert' (cryptMode false !b) = some k')
    (hsize : ssl.rsaSize k = n) (hsize' : ssl.rsaSize k' = n) {msg : List UInt8}
    (hmsg : 0 < msg.length) {c : List UInt8} (hc : c.length = n)
    (henc : ssl.rsaCrypt (if b then .publicEncrypt else .privateEncrypt) k (msg.take (n - 12))
      = ((c.length : Int), c))
    (hdec : ssl.rsaCrypt (if !b then .publicDecrypt else .privateDecrypt) k' c
      = (((msg.take (n - 12)).length : Int), msg.take (n - 12))) :
    RoundTrips env env' cert cert' (cryptMode true b) (cryptMode false !b) n msg := by
  intro behind behind' dst dst' dstlen dstlen' hroom hroom'
  subst henv
  have hsplit := List.take_append_drop (n - 12) msg
  have hblock : (msg.take (n - 12)).length = min (n - 12) msg.length := List.length_take
  have hrest : (msg.drop (n - 12)).length = msg.length - (n - 12) := List.length_drop
  have hlen : ((msg.take (n - 12)).length : Int) + (msg.drop (n - 12)).length = msg.length := by omega
  have hsrc : msg ++ behind = msg.take (n - 12) ++ (msg.drop (n - 12) ++ behind) := by
    rw [← List.append_assoc, hsplit]
  -- what does not fit the block goes through the cipher, if anything is left
  obtain ⟨out, hout, hup, hup'⟩ : ∃ out : List UInt8, (msg.drop (n - 12)).length = out.length ∧
      (0 < (msg.drop (n - 12)).length → env.ssl.cipherUpdate
        (derivedCtx env.ssl (msg.take (n - 12)) true) (msg.drop (n - 12))
          = (true, (out.length : Int), out)) ∧
      (0 < out.length → env.ssl.cipherUpdate (derivedCtx env.ssl (msg.take (n - 12)) false) out
          = (true, ((msg.drop (n - 12)).length : Int), msg.drop (n - 12))) := by
    by_cases hpos : 0 < (msg.drop (n - 12)).length
    · obtain ⟨out, hout, hup, hup'⟩ := haes.update .aes256
        (derivedKey env.ssl (msg.take (n - 12))) (List.replicate 16 220) _ hpos
      exact ⟨out, hout.symm, fun _ => hup, fun _ => hup'⟩
    · have hnone : (msg.drop (n - 12)).length = ([] : List UInt8).length := by
        rw [List.length_nil]
        omega
      exact ⟨[], hnone, fun h => absurd h hpos, fun h => absurd h (by simp)⟩
  have hc0 : 0 < c.length := by omega
  have hblock0 : 0 < (msg.take (n - 12)).length := by omega
  obtain ⟨herr, hread⟩ := cryptbkCrypt_enc haes (by cases b <;> rfl) hk behind hc0 hout dst
    (show ((c.length : Int) + out.length) ≤ dstlen by omega) rfl hn hsize hblock0 (by omega) henc hup
  -- the receiver derives the key from the block it has decrypted
  obtain ⟨herr', hread'⟩ := cryptbkCrypt_dec (henv' ▸ haes) (by cases b <;> rfl) hk' behind' hblock0
    hout.symm dst'
      (show (((msg.take (n - 12)).length : Int) + (msg.drop (n - 12)).length) ≤ dstlen' by omega)
    rfl rfl (by rw [henv', hsize', hc]) (by omega) (by omega) (henv' ▸ hdec) (henv' ▸ hup')
  rw [← hsrc, hlen] at herr hread
  rw [hsplit] at herr' hread'
  simp only [herr, Int.toNat_natCast, hread]
  rw [List.append_assoc, List.length_append, Int.natCast_add]
  exact ⟨herr', hread'⟩

end RoundTrip

/-- Decryption undoes encryption, with the keys of a pair either way around. -/
theorem cryptbkCrypt_roundTrip {env env' : CryptEnv} (henv : env'.ssl = env.ssl) {pub priv : Nat}
    (hpair : RsaPair env.ssl pub priv) (haes : AesInverse env.ssl) {cert cert' : Cryptbk}
    (hpub : (cert.cert.bind env.ssl.x509GetPubkey).bind env.ssl.pkeyRsa = some pub)
    (hpriv : cert'.pkey.bind env.ssl.pkeyRsa = some priv) {msg : List UInt8} (hmsg : 0 < msg.length) :
    RoundTrips env env' cert cert' (cryptMode true true) (cryptMode false false)
      (env.ssl.rsaSize pub) msg ∧
    RoundTrips env' env cert' cert (cryptMode true false) (cryptMode false true)
      (env.ssl.rsaSize pub) msg := by
  have hsize := hpair.size
  have hlarge := hpair.large
  obtain ⟨n, hn⟩ := Int.eq_ofNat_of_zero_le (show 0 ≤ env.ssl.rsaSize pub by omega)
  have hblock : (msg.take (n - 12)).length = min (n - 12) msg.length := List.length_take
  obtain ⟨c, hc, henc, hdec⟩ := hpair.sealed (msg.take (n - 12)) (by omega) (by omega)
  obtain ⟨d, hd, henc', hdec'⟩ := hpair.signed (msg.take (n - 12)) (by omega) (by omega)
  rw [hn] at hc hd hsize hlarge ⊢
  constructor
  · exact roundTrips_of_block haes rfl henv (b := true) (by omega) hpub
      (by rw [cryptbkRsa, henv]; exact hpriv) hn hsize hmsg (by omega) henc hdec
  · exact roundTrips_of_block haes henv rfl (b := false) (by omega)
      (by rw [cryptbkRsa, henv]; exact hpriv) hpub hsize hn hmsg (by omega) henc' hdec'

/-! ## A sample of OpenSSL -/

/-- A key pair with blocks of 48 bytes: an encrypted block is the length, the message and zeros.
The cipher xors each byte with the first one of the key, and the digest repeats the sum of the bytes. -/
def sampleSsl : OpenSsl where
  x509GetPubkey := some
  pkeyRsa := some
  rsaSize _ := 48
  rsaCrypt op _ m :=
    match op with
    | .publicEncrypt | .privateEncrypt =>
        (48, m.length.toUInt8 :: (m ++ List.replicate (47 - m.length) 0))
    | .publicDecrypt | .privateDecrypt =>
        if (m.headD 255).toNat ≤ 37 then
          ((m.headD 0).toNat, m.tail.take (m.headD 0).toNat) else (-1, [])
  cipherInit _ _ := true
  setKeyLength _ _ := true
  cipherKey _ := true
  cipherUpdate ctx m := (true, m.length, m.map (· ^^^ ctx.key.headD 0))
  cipherFinal _ _ _ := (0, [])
  md5 m := ⟨List.replicate 16 (m.foldl (· + ·) 0), List.length_replicate⟩
  bioWrite m := m.length
  bioMem := some
  bioRead m n := if n = 0 then (m.length, m) else (0, [])

/-- A block of at most 37 bytes is encrypted and decrypted again, either way round. -/
theorem sampleSsl_block {m : List UInt8} (h : (m.length : Int) + 11 ≤ 48) :
    ∃ c : List UInt8, c.length = (48 : Int) ∧
      sampleSsl.rsaCrypt .publicEncrypt 1 m = ((c.length : Int), c) ∧
      sampleSsl.rsaCrypt .privateEncrypt 1 m = ((c.length : Int), c) ∧
      sampleSsl.rsaCrypt .publicDecrypt 1 c = ((m.length : Int), m) ∧
      sampleSsl.rsaCrypt .privateDecrypt 1 c = ((m.length : Int), m) := by
  have hlen : (m.length.toUInt8 :: (m ++ List.replicate (47 - m.length) 0)).length = 48 := by
    simp only [List.length_cons, List.length_append, List.length_replicate]
    omega
  have hhead : m.length.toUInt8.toNat = m.length := by
    rw [Nat.toUInt8_eq, UInt8.toNat_ofNat', Nat.mod_eq_of_lt (by omega)]
  have hdec : (if m.length.toUInt8.toNat ≤ 37 then ((m.length.toUInt8.toNat : Int),
      (m ++ List.replicate (47 - m.length) 0).take m.length.toUInt8.toNat) else (-1, []))
      = ((m.length : Int), m) := by
    rw [hhead, List.take_left, if_pos (by omega)]
  exact ⟨m.length.toUInt8 :: (m ++ List.replicate (47 - m.length) 0), by rw [hlen]; rfl,
    by rw [hlen]; rfl, by rw [hlen]; rfl, hdec, hdec⟩

/-- The sample's two keys are a pair. -/
theorem sampleSsl_pair : RsaPair sampleSsl 1 1 where
  size := rfl
  large := by decide
  sealed m _ h := by
    obtain ⟨c, hlen, henc, -, -, hdec⟩ := sampleSsl_block h
    exact ⟨c, hlen, henc, hdec⟩
  signed m _ h := by
    obtain ⟨c, hlen, -, henc, hdec, -⟩ := sampleSsl_block h
    exact ⟨c, hlen, henc, hdec⟩

/-- The sample's AES decrypts what it encrypts. -/
theorem sampleSsl_aes : AesInverse sampleSsl where
  init _ _ := rfl
  keylen _ := rfl
  key _ := rfl
  update cipher key iv m _ := by
    have hxor : (m.map (· ^^^ key.headD 0)).map (· ^^^ key.headD 0) = m := by
      rw [List.map_map]
      refine List.map_id'' (fun ch => ?_) m
      rw [Function.comp_apply, UInt8.xor_assoc, UInt8.xor_self, UInt8.xor_zero]
    refine ⟨m.map (· ^^^ key.headD 0), List.length_map _, ?_, ?_⟩
    · show (true, (m.length : Int), _) = _
      rw [List.length_map]
    · show (true, ((m.map (· ^^^ key.headD 0)).length : Int), _) = _
      rw [List.length_map, hxor]
  final _ _ _ := rfl

/-- A message of 40 bytes: 36 go into the RSA block. -/
theorem cryptbkCrypt_roundTrip_long :
    RoundTrips ⟨sampleSsl, fun _ => [], 7, fun _ => 0⟩ ⟨sampleSsl, fun _ => [], 8, fun _ => 0⟩
      ⟨some 1, none, 0, 0⟩ ⟨none, some 1, 0, 0⟩ (cryptMode true true) (cryptMode false false)
      (sampleSsl.rsaSize 1) (List.replicate 40 65) ∧
    RoundTrips ⟨sampleSsl, fun _ => [], 8, fun _ => 0⟩ ⟨sampleSsl, fun _ => [], 7, fun _ => 0⟩
      ⟨none, some 1, 0, 0⟩ ⟨some 1, none, 0, 0⟩ (cryptMode true false) (cryptMode false true)
      (sampleSsl.rsaSize 1) (List.replicate 40 65) :=
  cryptbkCrypt_roundTrip (by rfl) sampleSsl_pair sampleSsl_aes (by rfl) (by rfl)
    (show 0 < (List.replicate 40 (65 : UInt8)).length by decide)

/-- A block that is no ciphertext leaves the address of the local key in the record. -/
theorem cryptbkCrypt_seskey_lost :
    ¬∀ (env : CryptEnv) (cert : Cryptbk) (src : List UInt8) (srclen : Int) (dst : Int → UInt8)
      (dstlen : Int) (mode : CryptMode),
      (cryptbkCrypt env cert src srclen dst dstlen mode).1.seskey = cert.seskey ∧
      (cryptbkCrypt env cert src srclen dst dstlen mode).1.seskeyLen = cert.seskeyLen := by
  intro h
  have hlost := (h ⟨sampleSsl, fun _ => [], 7, fun _ => 0⟩ ⟨none, some 1, 0, 0⟩
    (List.replicate 48 255) 48 (fun _ => 0) 100 { dec := true, privkey := true }).1
  exact absurd hlost (by decide)

end Bklib
