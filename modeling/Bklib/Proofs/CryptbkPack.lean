import Bklib.Model.CryptbkPack

/-!
# `Bklib.Proofs.CryptbkPack`: session keys through `cryptbk_pack` and `cryptbk_copy`

A session key goes from one record to another as text, in binary, or by a copy (`SeskeyWay`). Both
encoders are undone by their decoders as far as the bytes go. The length is restored from text alone:
the binary decoder allocates and fills a new `seskey` and leaves `seskey_len` as it was.

* `seskeyWay_holds_iff`: when the destination holds the key of the source.
* `seskeyWay_holds_newRecord`: a new record is left without a length, by both the forms in binary.
-/

set_option autoImplicit false

namespace Bklib

open Lib

/-! ### Records and keys -/

/-- `key` is what a record has as its session key: `seskey_len` bytes at `seskey`. -/
def CryptbkRec.HoldsKey (cert : CryptbkRec) (key : List UInt8) : Prop :=
  cert.seskeyLen = key.length ∧ cert.seskey.map (·.take key.length) = some key

instance (cert : CryptbkRec) (key : List UInt8) : Decidable (cert.HoldsKey key) :=
  inferInstanceAs (Decidable (_ ∧ _))

/-- A certificate that holds a key has a block that starts with it. -/
theorem CryptbkRec.HoldsKey.block {cert : CryptbkRec} {key : List UInt8} (h : cert.HoldsKey key) :
    ∃ block, cert.seskey = some block ∧ block.take cert.seskeyLen.toNat = key := by
  obtain ⟨block, hblock, htake⟩ := Option.map_eq_some_iff.mp h.2
  refine ⟨block, hblock, ?_⟩
  rw [h.1, Int.toNat_natCast]
  exact htake

/-- A block of the right length is the key if and only if `seskey_len` says so. -/
theorem holdsKey_iff_of_block {cert : CryptbkRec} {key : List UInt8}
    (hblock : cert.seskey = some key) : cert.HoldsKey key ↔ cert.seskeyLen = key.length := by
  unfold CryptbkRec.HoldsKey
  rw [hblock, Option.map_some, List.take_length]
  exact and_iff_left rfl

/-! ### Packing nothing but the session key -/

/-- The mode asks for the session key alone. -/
structure SeskeyOnly (mode : PackMode) : Prop where
  pubkey  : mode.pubkey = false
  req     : mode.req = false
  privkey : mode.privkey = false
  seskey  : mode.seskey = true

@[simp] theorem packThen_true (st : PackSt) (part : PackSt → PackSt × Bool) :
    packThen (st, true) part = part st := rfl

section Parts

variable {ssl : PackSsl} {pass : Option (List UInt8)} {mode : PackMode}

theorem packParts_seskey (hmode : SeskeyOnly mode) (st : PackSt) :
    packParts ssl pass mode st =
      packThen (packSeskey ssl mode st) (packText ssl st.bio mode) := by
  simp only [packParts, packPubkey, packReq, packPrivkey, hmode.pubkey, hmode.req, hmode.privkey,
    if_true, packThen_true]

theorem packSeskey_enc (hmode : SeskeyOnly mode) (hdec : mode.dec = false) (st : PackSt) :
    packSeskey ssl mode st = packEncSeskey ssl mode st := by
  simp [packSeskey, hmode.seskey, hdec]

theorem packSeskey_dec (hmode : SeskeyOnly mode) (hdec : mode.dec = true) (st : PackSt) :
    packSeskey ssl mode st = packDecSeskey ssl mode st := by
  simp [packSeskey, hmode.seskey, hdec]

/-- An encoder whose parts all come to their end. -/
theorem cryptbkPack_enc {cert : CryptbkRec} {buf : PemBuf} {len : Int} {st : PackSt}
    (henc : mode.enc = true) (hdec : mode.dec = false)
    (hparts : packParts ssl pass mode ⟨cert, buf.mem, 0, pemLen buf len, []⟩ = (st, true)) :
    cryptbkPack ssl cert buf len pass mode =
      ⟨st.cert, { buf with mem := packNul mode st }, st.buf⟩ := by
  have hbio : (if mode.dec then readAt buf.mem 0 (pemLen buf len).toNat else []) = [] := by
    rw [hdec]
    rfl
  have hmode : ¬(mode.dec = false ∧ mode.enc = false) := by
    rw [henc]
    simp
  rw [cryptbkPack, if_neg hmode]
  simp only [hbio, hparts, if_true]

/-- The record that a decoder leaves. -/
theorem cryptbkPack_dec_cert {cert : CryptbkRec} {buf : PemBuf} {len : Int} (hdec : mode.dec = true) :
    (cryptbkPack ssl cert buf len pass mode).cert =
      (packParts ssl pass mode ⟨cert, buf.mem, 0, pemLen buf len,
        readAt buf.mem 0 (pemLen buf len).toNat⟩).1.cert := by
  have hmode : ¬(mode.dec = false ∧ mode.enc = false) := by
    rw [hdec]
    simp
  rw [cryptbkPack, if_neg hmode]
  simp only [hdec, if_true]
  exact apply_ite PackOut.cert _ _ _ |>.trans (ite_self _)

end Parts

/-! ### Binary -/

section Binary

variable {ssl : PackSsl} {pass : Option (List UInt8)} {mode : PackMode} {key : List UInt8}

/-- The memory after a key was packed in binary. -/
def seskeyMem (mem : Int → UInt8) (key : List UInt8) : Int → UInt8 :=
  writeAt (put16 mem 0 (htons key.length)) 2 key

/-- The length in front of a session key packed. -/
theorem get16_seskeyMem (mem : Int → UInt8) (key : List UInt8) :
    get16 (seskeyMem mem key) 0 = htons key.length := by
  have h0 : seskeyMem mem key 0 = put16 mem 0 (htons key.length) 0 :=
    writeAt_of_lt _ _ (by decide)
  have h1 : seskeyMem mem key (0 + 1) = put16 mem 0 (htons key.length) (0 + 1) :=
    writeAt_of_lt _ _ (by decide)
  rw [get16, h0, h1]
  exact get16_put16 mem 0 (htons_lt _)

/-- The mode asks for binary. -/
structure BinaryMode (mode : PackMode) : Prop where
  text   : mode.text = false
  binary : mode.binary = true

/-- In the binary way a session key is packed as its length and its bytes. -/
theorem packEncSeskey_binary {st : PackSt} (hbin : BinaryMode mode) (hkey : st.cert.HoldsKey key)
    (hlen : key.length < 65536) (hfits : 2 + key.length ≤ st.len) (hbuf : st.buf = 0) :
    packEncSeskey ssl mode st =
      ({ st with mem := seskeyMem st.mem key, buf := 2 + key.length,
                 len := st.len - 2 - key.length }, true) := by
  obtain ⟨block, hblock, htake⟩ := hkey.block
  have hmod : ((key.length : Int) % 65536).toNat = key.length := by omega
  rw [hkey.1] at htake
  unfold packEncSeskey
  rw [hblock]
  simp only [hbin.text, hbin.binary, hkey.1, htake, hmod, hbuf, hfits, if_true, PackSt.advance,
    seskeyMem, Bool.false_eq_true, if_false, Int.zero_add]

/-- The binary encoder: two bytes of length, and the key. -/
theorem cryptbkPack_encBinary {cert : CryptbkRec} {buf : PemBuf} {len : Int}
    (hmode : SeskeyOnly mode) (henc : mode.enc = true) (hdec : mode.dec = false)
    (hbin : BinaryMode mode) (hkey : cert.HoldsKey key) (hlen : key.length < 65536)
    (hfits : 2 + key.length ≤ pemLen buf len) :
    cryptbkPack ssl cert buf len pass mode =
      ⟨cert, { buf with mem := seskeyMem buf.mem key }, 2 + key.length⟩ := by
  have hparts : packParts ssl pass mode ⟨cert, buf.mem, 0, pemLen buf len, []⟩ =
      (⟨cert, seskeyMem buf.mem key, 2 + key.length, pemLen buf len - 2 - key.length, []⟩,
        true) := by
    rw [packParts_seskey hmode, packSeskey_enc hmode hdec,
      packEncSeskey_binary hbin hkey hlen hfits rfl, packThen_true, packText, if_pos hbin.text]
  rw [cryptbkPack_enc henc hdec hparts]
  simp [packNul, hdec, hbin.text]

/-- The binary decoder allocates the key, and leaves `seskey_len` alone. -/
theorem cryptbkPack_decBinary {cert : CryptbkRec} {buf : PemBuf} {len : Int} {mem : Int → UInt8}
    (hmode : SeskeyOnly mode) (hdec : mode.dec = true) (hbin : BinaryMode mode)
    (hmem : buf.mem = seskeyMem mem key) (hlen : 1 ≤ key.length ∧ key.length < 65536)
    (hcover : 2 + key.length ≤ pemLen buf len) :
    (cryptbkPack ssl cert buf len pass mode).cert = { cert with seskey := some key } := by
  have hsize : htons (get16 buf.mem 0) = key.length := by
    rw [hmem, get16_seskeyMem, htons_htons hlen.2]
  have hdata : readAt buf.mem 2 key.length = key := by
    rw [hmem]
    exact readAt_writeAt _ 2 key
  have hpos : pemLen buf len < 0 ∨ 2 ≤ pemLen buf len := Or.inr (by omega)
  have hroom : 0 < key.length ∧ (key.length : Int) ≤ pemLen buf len - 2 := ⟨hlen.1, by omega⟩
  rw [cryptbkPack_dec_cert hdec, packParts_seskey hmode, packSeskey_dec hmode hdec]
  simp only [packDecSeskey, hbin.text, hbin.binary, PackSt.advance, hsize, Int.zero_add, hdata,
    if_pos hpos, if_pos hroom, Bool.false_eq_true, if_false, if_true, packThen_true, packText]

end Binary

/-! ### Text -/

/-- The text of a session key. -/
def seskeyText (ssl : PackSsl) (key : List UInt8) : List UInt8 :=
  (ssl.pemWriteBio seskeyPemName key).2

/-- `PEM_read_bio` inverts `PEM_write_bio` on a session key. It reads the block that was written,
whatever stands behind the block. -/
structure PemInverse (ssl : PackSsl) (key : List UInt8) : Prop where
  write : 0 < (ssl.pemWriteBio seskeyPemName key).1
  read  : ∀ rest, (ssl.pemReadBio (seskeyText ssl key ++ rest)).1 = some ⟨seskeyPemName, key⟩

section Text

variable {ssl : PackSsl} {pass : Option (List UInt8)} {mode : PackMode} {key : List UInt8}

/-- In the text way a session key is packed as its text. -/
theorem packEncSeskey_text {st : PackSt} (htext : mode.text = true) (hpem : PemInverse ssl key)
    (hkey : st.cert.HoldsKey key) :
    packEncSeskey ssl mode st = ({ st with bio := st.bio ++ seskeyText ssl key }, true) := by
  obtain ⟨block, hblock, htake⟩ := hkey.block
  have hwrite := hpem.write
  unfold packEncSeskey
  rw [hblock]
  simp only [htext, htake, hwrite, if_true, decide_true, seskeyText]

/-- The text goes to the start of the buffer, and the NULs go behind it. -/
theorem packText_enc (ssl : PackSsl) {st : PackSt} (htext : mode.text = true) (hdec : mode.dec = false)
    (hbuf : st.buf = 0) (hfits : (st.bio.length : Int) ≤ st.len) (text : List UInt8) :
    ∃ st', packText ssl text mode st = (st', true) ∧ st'.cert = st.cert ∧
      st'.buf = st.bio.length ∧ readAt (packNul mode st') 0 st.bio.length = st.bio := by
  have hread : ∀ (mem : Int → UInt8) (a : Int), (st.bio.length : Int) ≤ a →
      readAt (writeAt mem a [0]) 0 st.bio.length = readAt mem 0 st.bio.length :=
    fun mem a ha => readAt_writeAt_disjoint mem [0] (Or.inl (by omega))
  have hwrite : readAt (writeAt st.mem 0 st.bio) 0 st.bio.length = st.bio := readAt_writeAt _ 0 _
  unfold packText
  simp only [htext, hdec, hbuf, hfits, if_true, Bool.true_eq_false, Bool.false_eq_true, if_false,
    PackSt.advance, Int.zero_add]
  refine ⟨_, rfl, ?_, ?_, ?_⟩
  · split <;> rfl
  · split <;> rfl
  · unfold packNul
    split <;> split
    · rw [hread _ _ (by dsimp only; omega), hread _ _ (by omega), hwrite]
    · rw [hread _ _ (by omega), hwrite]
    · rw [hread _ _ (by dsimp only; omega), hwrite]
    · exact hwrite

/-- The text encoder: the text is at the start of the buffer, and the result is its length. -/
theorem cryptbkPack_encText (pass : Option (List UInt8)) {cert : CryptbkRec} {buf : PemBuf} {len : Int}
    (hmode : SeskeyOnly mode) (henc : mode.enc = true) (hdec : mode.dec = false)
    (htext : mode.text = true) (hkey : cert.HoldsKey key) (hpem : PemInverse ssl key)
    (hfits : ((seskeyText ssl key).length : Int) ≤ pemLen buf len) :
    (cryptbkPack ssl cert buf len pass mode).err = (seskeyText ssl key).length ∧
    readAt (cryptbkPack ssl cert buf len pass mode).buf.mem 0 (seskeyText ssl key).length =
      seskeyText ssl key := by
  obtain ⟨st', htail, -, hbuf, hread⟩ :=
    @packText_enc mode ssl ⟨cert, buf.mem, 0, pemLen buf len, seskeyText ssl key⟩ htext hdec rfl hfits
      []
  have hparts : packParts ssl pass mode ⟨cert, buf.mem, 0, pemLen buf len, []⟩ = (st', true) := by
    rw [packParts_seskey hmode, packSeskey_enc hmode hdec, packEncSeskey_text htext hpem hkey,
      packThen_true, List.nil_append, htail]
  rw [cryptbkPack_enc henc hdec hparts]
  exact ⟨hbuf, hread⟩

/-- The text decoder restores the bytes and the length. -/
theorem cryptbkPack_decText {cert : CryptbkRec} {buf : PemBuf} {len : Int}
    (hmode : SeskeyOnly mode) (hdec : mode.dec = true) (htext : mode.text = true)
    (hpem : PemInverse ssl key) (hlen : key.length < 2 ^ 31)
    (hmem : readAt buf.mem 0 (seskeyText ssl key).length = seskeyText ssl key)
    (hcover : ((seskeyText ssl key).length : Int) ≤ pemLen buf len) :
    (cryptbkPack ssl cert buf len pass mode).cert =
      { cert with seskey := some key, seskeyLen := key.length } := by
  obtain ⟨extra, hextra⟩ := Nat.exists_eq_add_of_le
    (show (seskeyText ssl key).length ≤ (pemLen buf len).toNat by omega)
  have hbio := hpem.read (readAt buf.mem (0 + (seskeyText ssl key).length) extra)
  have hname : strcasecmpEq seskeyPemName seskeyPemName = true := decide_eq_true rfl
  rw [cryptbkPack_dec_cert hdec, packParts_seskey hmode, packSeskey_dec hmode hdec, hextra,
    readAt_add, hmem]
  simp only [packDecSeskey, htext, if_true, hbio, hname, packThen_true, packText, hdec,
    Bool.true_eq_false, if_false, PackSt.advance, natToInt32_eq_self hlen]

end Text

/-! ### From record to record -/

/-- A buffer, and what `cryptbk_pack` is given with it as encoder (`size`, `pass`) and as decoder
(`len`, `decPass`). -/
structure SeskeyBuf where
  buf     : PemBuf
  size    : Int
  pass    : Option (List UInt8)
  len     : Int
  decPass : Option (List UInt8)

/-- The ways a session key goes from one record to another. -/
inductive SeskeyWay
  /-- `cryptbk_pack` twice, with `CRYPTBK_MODE_TEXT` or `CRYPTBK_MODE_BINARY` -/
  | pack (text : Bool) (b : SeskeyBuf)
  /-- `cryptbk_copy` -/
  | copy (junk : Int → UInt8)

/-- The mode of the encoder. -/
def seskeyEnc (text : Bool) : PackMode := { enc := true, seskey := true, text, binary := !text }

/-- The mode of the decoder. -/
def seskeyDec (text : Bool) : PackMode := { dec := true, seskey := true, text, binary := !text }

/-- A session key, packed. -/
def seskeyPacked (ssl : PackSsl) (src : CryptbkRec) (text : Bool) (b : SeskeyBuf) : PackOut :=
  cryptbkPack ssl src b.buf b.size b.pass (seskeyEnc text)

namespace SeskeyWay

/-- The destination at the end of the way. -/
def run (ssl : PackSsl) (dst src : CryptbkRec) : SeskeyWay → CryptbkRec
  | pack text b =>
      (cryptbkPack ssl dst (seskeyPacked ssl src text b).buf b.len b.decPass (seskeyDec text)).cert
  | copy junk   => (cryptbkCopy ssl junk dst src { seskey := true }).1

/-- There is room for the packed key, and the decoder is given all of it. -/
def Fits (ssl : PackSsl) (src : CryptbkRec) (key : List UInt8) : SeskeyWay → Prop
  | pack text b =>
      (if text then ((seskeyText ssl key).length : Int) else 2 + key.length) ≤
        pemLen b.buf b.size ∧
      (seskeyPacked ssl src text b).err ≤ pemLen (seskeyPacked ssl src text b).buf b.len
  | copy _      => 2 + key.length ≤ 8192

/-- What the destination has to hold before: a text brings its own length, the other forms leave the
length to the destination. A copy whose buffer is filled to the last byte is refused. -/
def Restores (dst : CryptbkRec) (key : List UInt8) : SeskeyWay → Prop
  | pack text _ => text = true ∨ dst.seskeyLen = key.length
  | copy _      => if 2 + key.length < 8192 then dst.seskeyLen = key.length else dst.HoldsKey key

end SeskeyWay

section Ways

variable {ssl : PackSsl} {dst src : CryptbkRec} {key : List UInt8}

theorem seskeyEnc_only (text : Bool) : SeskeyOnly (seskeyEnc text) := ⟨rfl, rfl, rfl, rfl⟩

theorem seskeyDec_only (text : Bool) : SeskeyOnly (seskeyDec text) := ⟨rfl, rfl, rfl, rfl⟩

/-- As text, bytes and length arrive. -/
theorem run_packText {b : SeskeyBuf} (hkey : src.HoldsKey key) (hlen : key.length ≤ 32767)
    (hpem : PemInverse ssl key) (hfits : (SeskeyWay.pack true b).Fits ssl src key) :
    (SeskeyWay.pack true b).run ssl dst src =
      { dst with seskey := some key, seskeyLen := key.length } := by
  obtain ⟨hroom, hcover⟩ := hfits
  obtain ⟨herr, hread⟩ := cryptbkPack_encText b.pass (seskeyEnc_only true) rfl rfl rfl hkey hpem
    hroom
  have hcover' : ((seskeyText ssl key).length : Int) ≤
      pemLen (seskeyPacked ssl src true b).buf b.len := herr ▸ hcover
  exact cryptbkPack_decText (seskeyDec_only true) rfl rfl hpem (by omega) hread hcover'

/-- In binary, the bytes arrive. -/
theorem run_packBinary {b : SeskeyBuf} (hkey : src.HoldsKey key)
    (hlen : 1 ≤ key.length ∧ key.length ≤ 32767)
    (hfits : (SeskeyWay.pack false b).Fits ssl src key) :
    (SeskeyWay.pack false b).run ssl dst src = { dst with seskey := some key } := by
  obtain ⟨hroom, hcover⟩ := hfits
  have henc : seskeyPacked ssl src false b =
      ⟨src, { b.buf with mem := seskeyMem b.buf.mem key }, 2 + key.length⟩ :=
    cryptbkPack_encBinary (seskeyEnc_only false) rfl rfl ⟨rfl, rfl⟩ hkey (by omega) hroom
  rw [henc] at hcover
  unfold SeskeyWay.run
  simp only [henc]
  exact cryptbkPack_decBinary (seskeyDec_only false) rfl ⟨rfl, rfl⟩ rfl ⟨hlen.1, by omega⟩ hcover

/-- The encoder's half of a copy. -/
theorem cryptbkCopy_packed {junk : Int → UInt8} (hkey : src.HoldsKey key)
    (hlen : 2 + key.length ≤ 8192) :
    cryptbkPack ssl src ⟨junk, 8192⟩ 8192 none { enc := true, binary := true, seskey := true } =
      ⟨src, ⟨seskeyMem junk key, 8192⟩, 2 + key.length⟩ := by
  have hpos : pemLen ⟨junk, 8192⟩ 8192 = 8192 := rfl
  exact cryptbkPack_encBinary ⟨rfl, rfl, rfl, rfl⟩ rfl rfl ⟨rfl, rfl⟩ hkey (by omega)
    (by rw [hpos]; omega)

/-- A copy that leaves room in the buffer. -/
theorem cryptbkCopy_seskey {junk : Int → UInt8} (hkey : src.HoldsKey key) (hpos : 1 ≤ key.length)
    (hlen : 2 + key.length < 8192) :
    (cryptbkCopy ssl junk dst src { seskey := true }).1 = { dst with seskey := some key } := by
  have hcover : 2 + (key.length : Int) ≤
      pemLen ⟨seskeyMem junk key, 8192⟩ (2 + (key.length : Int)) := by
    rw [pemLen, if_neg (by omega)]
  have herr : 0 ≤ 2 + (key.length : Int) ∧ 2 + (key.length : Int) < 8192 :=
    ⟨by omega, by omega⟩
  unfold cryptbkCopy
  simp only [cryptbkCopy_packed hkey (Nat.le_of_lt hlen), if_pos herr]
  exact cryptbkPack_decBinary ⟨rfl, rfl, rfl, rfl⟩ rfl ⟨rfl, rfl⟩ rfl ⟨hpos, by omega⟩ hcover

/-- A copy that fills the buffer is refused, and the destination stays as it was. -/
theorem cryptbkCopy_seskey_full {junk : Int → UInt8} (hkey : src.HoldsKey key)
    (hlen : 2 + key.length = 8192) :
    (cryptbkCopy ssl junk dst src { seskey := true }).1 = dst := by
  have herr : ¬(0 ≤ 2 + (key.length : Int) ∧ 2 + (key.length : Int) < 8192) := by omega
  unfold cryptbkCopy
  simp only [cryptbkCopy_packed hkey (Nat.le_of_eq hlen), if_neg herr]

end Ways

/-- The destination holds the key of the source if and only if the way restores the length, too. -/
theorem seskeyWay_holds_iff (ssl : PackSsl) (way : SeskeyWay) (dst src : CryptbkRec)
    (key : List UInt8) (hkey : src.HoldsKey key) (hlen : 1 ≤ key.length ∧ key.length ≤ 32767)
    (hpem : PemInverse ssl key) (hfits : way.Fits ssl src key) :
    (way.run ssl dst src).HoldsKey key ↔ way.Restores dst key := by
  cases way with
  | pack text b =>
      cases text with
      | true =>
          rw [run_packText hkey hlen.2 hpem hfits]
          exact iff_of_true ((holdsKey_iff_of_block rfl).mpr rfl) (Or.inl rfl)
      | false =>
          rw [run_packBinary hkey hlen hfits, holdsKey_iff_of_block rfl]
          exact (or_iff_right Bool.false_ne_true).symm
  | copy junk =>
      have hfull : 2 + key.length ≤ 8192 := hfits
      unfold SeskeyWay.run SeskeyWay.Restores
      by_cases hlt : 2 + key.length < 8192
      · simp only [cryptbkCopy_seskey hkey hlen.1 hlt, if_pos hlt]
        exact holdsKey_iff_of_block rfl
      · simp only [cryptbkCopy_seskey_full hkey (show 2 + key.length = 8192 by omega), if_neg hlt]

/-! ### A key of three bytes -/

/-- The key `abc`. -/
def abcKey : List UInt8 := [97, 98, 99]

/-- The text of `abcKey`. -/
def abcText : List UInt8 :=
  bytes "-----BEGIN CRYTPTBK_SESKEY-----\nYWJj\n-----END CRYTPTBK_SESKEY-----\n"

/-- No object can be read or written. -/
def noCalls : PackCalls :=
  { pemRead := fun text => (none, text), d2i := fun _ => (none, 0)
    pemWrite := fun _ => (0, []), i2d := fun _ => (0, []) }

/-- OpenSSL with the text of one key. `BIO_tell` gives 0 for a text in memory. -/
def abcSsl : PackSsl :=
  { x509 := noCalls, x509Req := noCalls, privateKey := fun _ => noCalls
    pemReadBio := fun text =>
      if text.take abcText.length = abcText then
        (some ⟨seskeyPemName, abcKey⟩, text.drop abcText.length)
      else (none, [])
    pemWriteBio := fun name data =>
      if name = seskeyPemName ∧ data = abcKey then (5, abcText) else (0, [])
    bioTell := fun _ _ => 0 }

/-- A record with `abcKey`. -/
def abcRec : CryptbkRec := { seskey := some abcKey, seskeyLen := 3 }

/-- 100 bytes for the encoder, and the first `len` of them for the decoder. -/
def abcBuf (len : Int) : SeskeyBuf :=
  { buf := ⟨fun _ => 0, 100⟩, size := 100, pass := none, len, decPass := none }

/-- The sample's text of a key is read as that key. -/
theorem abcSsl_pemInverse : PemInverse abcSsl abcKey where
  write := by decide
  read rest := by
    have htext : seskeyText abcSsl abcKey = abcText := by decide
    rw [htext]
    exact congrArg Prod.fst (if_pos (List.take_left' rfl))

/-- A record with a key of one byte. -/
def oldRec : CryptbkRec := { seskey := some [1], seskeyLen := 1 }

/-- As text, a key replaces one of another length. -/
theorem seskeyWay_holds_text :
    ((SeskeyWay.pack true (abcBuf 67)).run abcSsl oldRec abcRec).HoldsKey abcKey :=
  have hfits : (SeskeyWay.pack true (abcBuf 67)).Fits abcSsl abcRec abcKey :=
    ⟨by decide, by decide⟩
  (seskeyWay_holds_iff abcSsl (SeskeyWay.pack true (abcBuf 67)) oldRec abcRec abcKey (by decide)
    (by decide) abcSsl_pemInverse hfits).mpr (Or.inl rfl)

/-- A new record is left with the bytes of the key and a length of 0. -/
theorem seskeyWay_holds_newRecord :
    abcRec.HoldsKey abcKey ∧
    ((SeskeyWay.pack false (abcBuf 5)).Fits abcSsl abcRec abcKey ∧
      ¬((SeskeyWay.pack false (abcBuf 5)).run abcSsl {} abcRec).HoldsKey abcKey) ∧
    (SeskeyWay.copy fun _ => 0).Fits abcSsl abcRec abcKey ∧
    ¬((SeskeyWay.copy fun _ => 0).run abcSsl {} abcRec).HoldsKey abcKey := by
  refine ⟨by decide, ⟨⟨by decide, by decide⟩, by decide⟩, ?_, ?_⟩
  · exact show 2 + abcKey.length ≤ 8192 by decide
  · decide

end Bklib
