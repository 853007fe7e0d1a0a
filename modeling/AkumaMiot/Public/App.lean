import AkumaMiot.Client.Sign
import AkumaMiot.Lib.Utf16
import AkumaMiot.Public.Blake2b

/-!
# The page and the chain sign the same bytes

The page encodes a call, an extrinsic and a patron request by hand (`app.js`). Its texts are
UTF-16, its bit operations those of 32-bit integers, and accounts and hashes reach it in hex.
-/
namespace AkumaMiot.Public

open Scale

/-! ## The page's encoders -/

/-- A number in a `Uint8Array`. -/
def uint8 (x : BitVec 32) : UInt8 := UInt8.ofNat x.toNat

def compact (n : Nat) : List UInt8 :=
  let n32 := BitVec.ofNat 32 n
  if n < 64 then [uint8 (n32 <<< 2)]
  else if n < 16384 then [uint8 (((n32 <<< 2) ||| 1) &&& 0xff), uint8 ((n32 <<< 2) >>> 8)]
  else
    let v := (n32 <<< 2) ||| 2
    [uint8 (v &&& 0xff), uint8 ((v >>> 8) &&& 0xff), uint8 ((v >>> 16) &&& 0xff),
      uint8 ((v >>> 24) &&& 0xff)]

def scaleBytes (b : List UInt8) : List (List UInt8) := [compact b.length, b]

def concat (parts : List (List UInt8)) : List UInt8 := parts.flatten

def u32le (n : Nat) : List UInt8 :=
  let n32 := BitVec.ofNat 32 n
  [uint8 (n32 &&& 0xff), uint8 ((n32 >>> 8) &&& 0xff), uint8 ((n32 >>> 16) &&& 0xff),
    uint8 ((n32 >>> 24) &&& 0xff)]

/-- What a dot in a pattern does not match. -/
def isLineEnd (u : UInt16) : Bool := u = 0x0a || u = 0x0d || u = 0x2028 || u = 0x2029

/-- `s.match(/../g)`. -/
def pairs : List UInt16 → List (UInt16 × UInt16)
  | a :: b :: rest =>
    if isLineEnd a || isLineEnd b then pairs (b :: rest) else (a, b) :: pairs rest
  | _ => []

def hexDigit (u : UInt16) : Option Nat :=
  let n := u.toNat
  if 48 ≤ n ∧ n ≤ 57 then some (n - 48)
  else if 97 ≤ n ∧ n ≤ 102 then some (n - 87)
  else if 65 ≤ n ∧ n ≤ 70 then some (n - 55)
  else none

/-- `parseInt` of two digits, which stops at what is none, as a byte. -/
def parsePair (a b : UInt16) : UInt8 :=
  match hexDigit a, hexDigit b with
  | some x, some y => UInt8.ofNat (16 * x + y)
  | some x, none => UInt8.ofNat x
  | none, _ => 0

/-- A text without a pair matches nothing, and there is nothing to map. -/
def unhex (s : List UInt16) : Option (List UInt8) :=
  if pairs s = [] then none else some ((pairs s).map fun (a, b) => parsePair a b)

/-- What the API answers about the chain, for a request. -/
structure Genesis where
  requestContext : List UInt16
  requestDomain : List UInt16

def requestMessage (g : Genesis) (name note : List UInt16) : Option (List UInt8) := do
  let domain ← unhex g.requestDomain
  return concat (scaleBytes (Utf16.encode g.requestContext) ++ [domain] ++
    scaleBytes (Utf16.encode name) ++ scaleBytes (Utf16.encode note))

/-- The recipient. No text and the empty one are false. -/
def encodeTo : Option (List UInt16) → Option (List UInt8)
  | none => some [0]
  | some [] => some [0]
  | some (u :: us) => (unhex (u :: us)).map fun account => concat [[1], account]

def encodeSay (to_ : Option (List UInt16)) (body : List UInt16) (offRecord : Bool) :
    Option (List UInt8) := do
  let recipient ← encodeTo to_
  return concat ([[1, 6], recipient] ++ scaleBytes (Utf16.encode body) ++
    [[0], [if offRecord then 1 else 0]])

/-- What the API answers about the chain, for an extrinsic. -/
structure ChainMeta where
  genesisHash : List UInt16
  specVersion : Nat
  txVersion : Nat

/-- The key on this phone. -/
structure Key where
  account : List UInt16
  sign : List UInt8 → List UInt8

/-- `replace(/^0x/, '')`. -/
def dropZeroX (s : List UInt16) : List UInt16 := if s.take 2 = [48, 120] then s.drop 2 else s

def signExtrinsic (key : Key) (call : List UInt8) (nonce : Nat) (m : ChainMeta) :
    Option (List UInt8) := do
  let extra := concat [[0], compact nonce]
  let genesis ← unhex (dropZeroX m.genesisHash)
  let payload := concat [call, extra, genesis, u32le m.specVersion, u32le m.txVersion, genesis]
  let signedOver := if payload.length > 256 then blake2b payload 32 else payload
  let sig := key.sign signedOver
  let account ← unhex key.account
  let inner := concat [[0x84], account, [0], sig, extra, call]
  return concat [compact inner.length, inner]

/-! ## What reaches the page -/

/-- Bytes in hex. -/
def hexed (bytes : List UInt8) : List UInt16 :=
  Utf16.ofString (String.ofList (bytes.flatMap Keys.hexOf))

/-- `GET /genesis`. -/
def Genesis.ofRoster (roster : List (String × AccountId32)) : Genesis :=
  ⟨Utf16.ofString PATRON_REQUEST_CONTEXT, hexed (AkumaMiot.requestDomain roster)⟩

/-- `GET /meta`. -/
def ChainMeta.ofMeta (m : Client.Meta) : ChainMeta :=
  ⟨hexed m.genesisHash.toList, m.specVersion.toNat, m.txVersion.toNat⟩

def Key.ofIdentity (identity : Client.Identity) : Key :=
  ⟨hexed identity.account.toList, fun message => (identity.sign message).toList⟩

/-! ## Numbers -/

theorem uint8_low (x : BitVec 32) : uint8 (x &&& 0xff) = uint8 x := by
  have low : (x &&& 0xff).toNat = x.toNat % 256 := by
    rw [BitVec.toNat_and]
    exact Nat.and_two_pow_sub_one_eq_mod x.toNat 8
  rw [uint8, uint8, low, ← UInt8.toNat_inj, UInt8.toNat_ofNat', UInt8.toNat_ofNat', Nat.mod_mod]

theorem uint8_shift (x : BitVec 32) (k : Nat) :
    uint8 (x >>> k) = UInt8.ofNat (x.toNat / 2 ^ k) := by
  rw [uint8, BitVec.toNat_ushiftRight, Nat.shiftRight_eq_div_pow]

/-- The four bytes of a number, as the page takes them out of it. -/
theorem bytes4 (x : BitVec 32) :
    [uint8 (x &&& 0xff), uint8 ((x >>> 8) &&& 0xff), uint8 ((x >>> 16) &&& 0xff),
      uint8 ((x >>> 24) &&& 0xff)] = toBytes 4 x.toNat := by
  simp only [uint8_low, uint8_shift, toBytes, Nat.div_div_eq_div_mul]
  rfl

theorem u32le_eq {n : Nat} (small : n < 2 ^ 32) : u32le n = toBytes 4 n := by
  rw [u32le, bytes4, BitVec.toNat_ofNat, Nat.mod_eq_of_lt small]

/-- Two places to the left leave room for the two bits that tell the length. -/
theorem shifted {n low : Nat} (small : n < 2 ^ 30) (bits : low < 4) :
    ((BitVec.ofNat 32 n <<< 2) ||| BitVec.ofNat 32 low).toNat = 4 * n + low := by
  rw [BitVec.toNat_or, BitVec.toNat_shiftLeft, BitVec.toNat_ofNat, BitVec.toNat_ofNat,
    Nat.mod_eq_of_lt (by omega : n < 2 ^ 32), Nat.mod_eq_of_lt (by omega : low < 2 ^ 32),
    Nat.shiftLeft_eq, Nat.mod_eq_of_lt (by omega), ← Nat.shiftLeft_eq,
    ← Nat.shiftLeft_add_eq_or_of_lt bits, Nat.shiftLeft_eq]
  omega

theorem compact_eq {n : Nat} (small : n < 2 ^ 30) : compact n = Scale.compact.encode n := by
  have zero : (BitVec.ofNat 32 n <<< 2).toNat = 4 * n := by
    have none_ := shifted small (show 0 < 4 by decide)
    rwa [BitVec.or_zero] at none_
  have one : ((BitVec.ofNat 32 n <<< 2) ||| 1).toNat = 4 * n + 1 := shifted small (by decide)
  have two : ((BitVec.ofNat 32 n <<< 2) ||| 2).toNat = 4 * n + 2 := shifted small (by decide)
  -- The bounds are powers of two there.
  have six : n < 64 ↔ n < 2 ^ 6 := Iff.rfl
  have fourteen : n < 16384 ↔ n < 2 ^ 14 := Iff.rfl
  simp only [compact, Scale.compact, six, fourteen]
  by_cases single : n < 2 ^ 6
  · rw [if_pos single, if_pos single, uint8, zero]
    rfl
  · rw [if_neg single, if_neg single]
    by_cases double : n < 2 ^ 14
    · have high : (4 * n + 1) / 256 = 4 * n / 256 := by omega
      rw [if_pos double, if_pos double, uint8_low, uint8_shift, uint8, one, zero]
      simp only [toBytes, high]
      rfl
    · rw [if_neg double, if_neg double, if_pos small, bytes4, two]

/-! ## Hex -/

/-- The unit of a hex digit. -/
def hexUnit (d : Nat) : UInt16 := UInt16.ofNat d.digitChar.toNat

theorem hexUnit_spec {d : Nat} (digit : d < 16) :
    Utf16.units d.digitChar = [hexUnit d] ∧ isLineEnd (hexUnit d) = false ∧
      hexDigit (hexUnit d) = some d ∧ hexUnit d ≠ 120 := by
  revert d
  decide

theorem hexed_cons (b : UInt8) (bs : List UInt8) :
    hexed (b :: bs) = hexUnit (b.toNat / 16) :: hexUnit (b.toNat % 16) :: hexed bs := by
  have byte := b.toNat_lt
  simp [hexed, Utf16.ofString, Keys.hexOf_eq,
    (hexUnit_spec (show b.toNat / 16 < 16 by omega)).1,
    (hexUnit_spec (show b.toNat % 16 < 16 by omega)).1]

theorem pairs_hexed (bs : List UInt8) :
    (pairs (hexed bs)).map (fun (a, b) => parsePair a b) = bs := by
  induction bs with
  | nil => rfl
  | cons b bs ih =>
    have byte := b.toNat_lt
    obtain ⟨-, solid, value, -⟩ := hexUnit_spec (show b.toNat / 16 < 16 by omega)
    obtain ⟨-, solid', value', -⟩ := hexUnit_spec (show b.toNat % 16 < 16 by omega)
    have whole : 16 * (b.toNat / 16) + b.toNat % 16 = b.toNat := by omega
    rw [hexed_cons, pairs, solid, solid', if_neg (by decide), List.map_cons, ih]
    simp only [parsePair, value, value', whole, UInt8.ofNat_toNat]

/-- The page reads back the hex of some bytes. -/
theorem unhex_hexed {bs : List UInt8} (some_ : bs ≠ []) : unhex (hexed bs) = some bs := by
  have back := pairs_hexed bs
  have matched : pairs (hexed bs) ≠ [] := by
    intro none_
    rw [none_] at back
    exact some_ back.symm
  rw [unhex, if_neg matched, back]

theorem dropZeroX_hexed (bs : List UInt8) : dropZeroX (hexed bs) = hexed bs := by
  cases bs with
  | nil => rfl
  | cons b bs =>
    -- An `x` is no hex digit.
    have other := (hexUnit_spec (show b.toNat % 16 < 16 by omega)).2.2.2
    rw [hexed_cons, dropZeroX, if_neg]
    simp [other]

theorem vector_ne_nil (v : List.Vector UInt8 32) : v.toList ≠ [] := by
  intro empty
  have long := v.toList_length
  rw [empty] at long
  cases long

/-! ## The same bytes -/

/-- A text behind its length. -/
theorem scaleBytes_eq {s : String} (short : (Utf8.bytes s).length < 2 ^ 30) :
    (scaleBytes (Utf16.encode (Utf16.ofString s))).flatten = text.encode s := by
  rw [Utf16.encode_ofString, text_encode, scaleBytes, compact_eq short]
  simp

theorem encodeTo_eq (to_ : Option AccountId32) :
    encodeTo (to_.map fun a => hexed a.toList) = some (AccountId32.codec.option.encode to_) := by
  cases to_ with
  | none => rfl
  | some a =>
    have back := unhex_hexed (vector_ne_nil a)
    have written : AccountId32.codec.option.encode (some a) = 1 :: a.toList :=
      congrArg (1 :: ·) (AccountId32.codec_encode a)
    rw [written, Option.map_some]
    cases shape : hexed a.toList with
    | nil =>
      rw [shape] at back
      cases back
    | cons u us =>
      rw [shape] at back
      simp [encodeTo, back, concat]

theorem encodeSay_eq (to_ : Option AccountId32) {body : String} (offRecord : Bool)
    (short : (Utf8.bytes body).length < 2 ^ 30) :
    encodeSay (to_.map fun a => hexed a.toList) (Utf16.ofString body) offRecord =
      some (runtimeCall AccountId32.codec (.say to_ body false offRecord)) := by
  have flags : bool.encode false ++ bool.encode offRecord =
      [0, if offRecord then 1 else 0] := by
    cases offRecord <;> rfl
  have parts : concat ([[1, 6], AccountId32.codec.option.encode to_] ++
      scaleBytes (Utf16.encode (Utf16.ofString body)) ++ [[0], [if offRecord then 1 else 0]]) =
      1 :: 6 :: (AccountId32.codec.option.encode to_ ++ text.encode body ++
        [0, if offRecord then 1 else 0]) := by
    rw [← scaleBytes_eq short]
    simp [concat]
  rw [encodeSay, encodeTo_eq, Option.bind_eq_bind, Option.bind_some, parts, ← flags, runtimeCall,
    LitterCall.encode, List.append_assoc _ (bool.encode false)]
  rfl

/-- What the page signs is what the client signs, and so is the extrinsic it makes. -/
theorem signExtrinsic_eq (identity : Client.Identity) (call : LitterCall AccountId32)
    (nonce : UInt32) (m : Client.Meta) (small : nonce.toNat < 2 ^ 30)
    (short : (Client.sign identity call nonce m).inner.length < 2 ^ 30) :
    signExtrinsic (.ofIdentity identity) (runtimeCall AccountId32.codec call) nonce.toNat
      (.ofMeta m) = some (Client.sign identity call nonce m).encode := by
  -- Part by part, what the page puts together is what the client encodes.
  have genesis : unhex (dropZeroX (ChainMeta.ofMeta m).genesisHash) =
      some m.genesisHash.toList := by
    rw [ChainMeta.ofMeta, dropZeroX_hexed, unhex_hexed (vector_ne_nil _)]
  have account : unhex (Key.ofIdentity identity).account = some identity.account.toList :=
    unhex_hexed (vector_ne_nil _)
  have extra : concat [[0], compact nonce.toNat] = Client.signedExtra nonce := by
    rw [compact_eq small, Client.signedExtra]
    simp [concat]
  have payload : concat [runtimeCall AccountId32.codec call, Client.signedExtra nonce,
      m.genesisHash.toList, u32le m.specVersion.toNat, u32le m.txVersion.toNat,
      m.genesisHash.toList] =
      runtimeCall AccountId32.codec call ++ Client.signedExtra nonce ++ Client.implicit m := by
    rw [u32le_eq m.specVersion.toNat_lt, u32le_eq m.txVersion.toNat_lt, Client.implicit]
    simp [concat]
  -- A long payload is hashed before it is signed, on both sides.
  have signed : (if (runtimeCall AccountId32.codec call ++ Client.signedExtra nonce ++
        Client.implicit m).length > 256 then
      blake2b (runtimeCall AccountId32.codec call ++ Client.signedExtra nonce ++
        Client.implicit m) 32
      else runtimeCall AccountId32.codec call ++ Client.signedExtra nonce ++ Client.implicit m) =
      Client.usingEncoded call nonce m := by
    simp only [Client.usingEncoded, blake2b_eq _ (show 32 ≤ 64 by decide), gt_iff_lt]
  have inner : concat [[0x84], identity.account.toList, [0],
      (identity.sign (Client.usingEncoded call nonce m)).toList, Client.signedExtra nonce,
      runtimeCall AccountId32.codec call] = (Client.sign identity call nonce m).inner := by
    simp [concat, Client.sign, Client.UncheckedExtrinsic.inner]
  have specVersion : (ChainMeta.ofMeta m).specVersion = m.specVersion.toNat := rfl
  have txVersion : (ChainMeta.ofMeta m).txVersion = m.txVersion.toNat := rfl
  have signs : (Key.ofIdentity identity).sign = fun message => (identity.sign message).toList := rfl
  simp only [signExtrinsic, genesis, account, Option.bind_eq_bind, Option.bind_some, extra,
    specVersion, txVersion, payload, signs, signed, inner, compact_eq short]
  rw [Client.UncheckedExtrinsic.encode, concat, List.flatten_cons, List.flatten_singleton]
  rfl

theorem length_hash (message : List UInt8) : (Blake2b.hash 32 message).length = 32 := by
  simp [Blake2b.hash, Blake2b.length_compress]

theorem requestMessage_eq (r : RequestMessage AccountId32)
    (name : (Utf8.bytes r.name).length < 2 ^ 30) (note : (Utf8.bytes r.note).length < 2 ^ 30) :
    requestMessage (.ofRoster r.domain) (Utf16.ofString r.name) (Utf16.ofString r.note) =
      some r.encode := by
  have domain : unhex (Genesis.ofRoster r.domain).requestDomain =
      some (AkumaMiot.requestDomain r.domain) := by
    apply unhex_hexed
    intro empty
    have long : (AkumaMiot.requestDomain r.domain).length = 32 := length_hash _
    rw [empty] at long
    cases long
  have context : (scaleBytes (Utf16.encode (Genesis.ofRoster r.domain).requestContext)).flatten =
      byte.list.encode (Utf8.bytes PATRON_REQUEST_CONTEXT) := by
    have short : (Utf8.bytes PATRON_REQUEST_CONTEXT).length < 2 ^ 30 := by decide +kernel
    rw [Genesis.ofRoster, scaleBytes_eq short, text_encode, byte_list_encode]
  rw [requestMessage, domain, Option.bind_eq_bind, Option.bind_some, RequestMessage.encode,
    ← context, ← scaleBytes_eq name, ← scaleBytes_eq note, concat, List.flatten_append,
    List.flatten_append, List.flatten_append]
  simp

/-- The page and the chain agree on every byte that is signed: those of a `say`, of the extrinsic
that carries it, and of a patron request. -/
theorem page_agrees (identity : Client.Identity) (s : Storage AccountId32) :
    (∀ (to_ : Option AccountId32) (body : String) (offRecord : Bool),
      (Utf8.bytes body).length < 2 ^ 30 →
      encodeSay (to_.map fun a => hexed a.toList) (Utf16.ofString body) offRecord =
        some (runtimeCall AccountId32.codec (.say to_ body false offRecord))) ∧
    (∀ (to_ : Option AccountId32) (body : String) (offRecord : Bool) (nonce : UInt32)
      (m : Client.Meta), nonce.toNat < 2 ^ 30 →
      (Client.sign identity (.say to_ body false offRecord) nonce m).inner.length < 2 ^ 30 →
      (encodeSay (to_.map fun a => hexed a.toList) (Utf16.ofString body) offRecord).bind
          (fun call => signExtrinsic (.ofIdentity identity) call nonce.toNat (.ofMeta m)) =
        some (Client.sign identity (.say to_ body false offRecord) nonce m).encode) ∧
    (∀ name note : String, (Utf8.bytes name).length < 2 ^ 30 → (Utf8.bytes note).length < 2 ^ 30 →
      requestMessage (.ofRoster s.roster) (Utf16.ofString name) (Utf16.ofString note) =
        some (s.requestMessage name note).encode) := by
  refine ⟨fun to_ body offRecord short => encodeSay_eq to_ offRecord short, ?_, ?_⟩
  · intro to_ body offRecord nonce m small short
    have within : (Utf8.bytes body).length < 2 ^ 30 := by
      refine Nat.lt_of_le_of_lt ?_ short
      simp only [Client.sign, Client.UncheckedExtrinsic.inner, runtimeCall, LitterCall.encode,
        text_encode, List.length_append, List.length_cons]
      omega
    rw [encodeSay_eq to_ offRecord within, Option.bind_some]
    exact signExtrinsic_eq identity _ nonce m small short
  · exact fun name note short short' => requestMessage_eq (s.requestMessage name note) short short'

/-- A whisper off the record, at a nonce of two bytes, and a request of characters of many bytes. -/
theorem page_agrees_whisper :
    let identity : Client.Identity := ⟨.replicate 32 7, fun _ => .replicate 64 1⟩
    let m : Client.Meta := ⟨.replicate 32 0, 1, 1⟩
    let to_ : AccountId32 := .replicate 32 9
    let s : Storage AccountId32 := { roster := [("tea", to_)] }
    encodeSay (some (hexed to_.toList)) (Utf16.ofString "nya 🐈") true =
        some (runtimeCall AccountId32.codec (.say (some to_) "nya 🐈" false true)) ∧
      (encodeSay (some (hexed to_.toList)) (Utf16.ofString "nya 🐈") true).bind
          (fun call => signExtrinsic (.ofIdentity identity) call (UInt32.toNat 64) (.ofMeta m)) =
        some (Client.sign identity (.say (some to_) "nya 🐈" false true) 64 m).encode ∧
      requestMessage (.ofRoster s.roster) (Utf16.ofString "mia") (Utf16.ofString "héllo 🐈") =
        some (s.requestMessage "mia" "héllo 🐈").encode := by
  intro identity m to_ s
  exact ⟨(page_agrees identity s).1 (some to_) "nya 🐈" true (by decide +kernel),
    (page_agrees identity s).2.1 (some to_) "nya 🐈" true 64 m (by decide) (by decide +kernel),
    (page_agrees identity s).2.2 "mia" "héllo 🐈" (by decide +kernel) (by decide +kernel)⟩

end AkumaMiot.Public
