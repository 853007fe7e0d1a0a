import AkumaMiot.Keys
import AkumaMiot.Lib.Blake2b
import AkumaMiot.Lib.Utf8
import AkumaMiot.Litter.Pallet
import AkumaMiot.Node.Body

/-!
# What a signature is over

The bytes of a call, of the extrinsic that carries it and of what its signer signs, and those of a
patron request.
-/
namespace AkumaMiot

open Scale

/-! ## Calls -/

/-- `AccountId32`, its 32 bytes. -/
def AccountId32.codec : Codec AccountId32 :=
  accountId.as (fun a => a.toList) fun bytes =>
    if long : bytes.length = 32 then some ⟨bytes, long⟩ else none

section Calls

variable {A : Type} (account : Codec A)

def PlanItem.codec : Codec (PlanItem A) :=
  (account.pair (text.pair text)).as (fun item => (item.who, item.what, item.expect))
    fun (who, what, expect) => some ⟨who, what, expect⟩

/-- A call is its index and its arguments. -/
def LitterCall.encode : LitterCall A → List UInt8
  | .openParent said => 0 :: text.encode said
  | .plan parent assignments =>
    1 :: (TaskId.codec.encode parent ++ (PlanItem.codec account).list.encode assignments)
  | .update task act said =>
    2 :: (TaskId.codec.encode task ++ Act.codec.encode act ++ text.encode said)
  | .setLeader who => 3 :: account.encode who
  | .setRoot who => 4 :: account.encode who
  | .reassign task to_ => 5 :: (TaskId.codec.encode task ++ account.encode to_)
  | .say to_ body noAck offRecord =>
    6 :: (account.option.encode to_ ++ text.encode body ++ bool.encode noAck ++
      bool.encode offRecord)
  | .clearAll => [7]
  | .publishStandaloneArtifact said => 8 :: text.encode said
  | .requestCompaction => [9]
  | .reportStats turns toolCalls tokens ms =>
    10 :: (toBytes 4 turns ++ toBytes 4 toolCalls ++ toBytes 8 tokens ++ toBytes 8 ms)
  | .reportStats2 turns toolCalls messages tokens ms =>
    11 :: (toBytes 4 turns ++ toBytes 4 toolCalls ++ toBytes 4 messages ++ toBytes 8 tokens ++
      toBytes 8 ms)
  | .post id to_ body parent artifactId tags noAck offRecord =>
    12 :: (MessageId.codec.encode id ++ account.option.encode to_ ++ text.encode body ++
      MessageId.codec.option.encode parent ++ ArtifactId.codec.option.encode artifactId ++
      text.list.encode tags ++ bool.encode noAck ++ bool.encode offRecord)
  | .react target emoji => 13 :: (MessageId.codec.encode target ++ text.encode emoji)
  | .vote artifact up => 14 :: (ArtifactId.codec.encode artifact ++ bool.encode up)
  | .carryPatronRequest who name note sig =>
    15 :: (account.encode who ++ text.encode name ++ text.encode note ++ sig.toList)
  | .approvePatron who => 16 :: account.encode who
  | .rejectPatronRequest who => 17 :: account.encode who
  | .revokePatron who => 18 :: account.encode who

/-- `RuntimeCall::Litter`, the second pallet of the runtime. -/
def runtimeCall (call : LitterCall A) : List UInt8 := 1 :: call.encode account

end Calls

/-! ## Extrinsics -/

namespace Client

/-- An ed25519 key: its public half, and what it signs with the other. -/
structure Identity where
  account : AccountId32
  sign : List UInt8 → Signature

/-- What a signer needs of the chain. -/
structure Meta where
  genesisHash : List.Vector UInt8 32
  specVersion : UInt32
  txVersion : UInt32

/-- `SignedExtra`. Three of the five checks are empty; the era is immortal. -/
def signedExtra (nonce : UInt32) : List UInt8 := 0 :: compact.encode nonce.toNat

/-- The four values the checks bind a signature to. -/
def implicit (m : Meta) : List UInt8 :=
  m.genesisHash.toList ++ toBytes 4 m.specVersion.toNat ++ toBytes 4 m.txVersion.toNat ++
    m.genesisHash.toList

/-- `SignedPayload::using_encoded`. What is long is signed by its hash. -/
def usingEncoded (call : LitterCall AccountId32) (nonce : UInt32) (m : Meta) : List UInt8 :=
  let payload := runtimeCall AccountId32.codec call ++ signedExtra nonce ++ implicit m
  if 256 < payload.length then Blake2b.hash 32 payload else payload

structure UncheckedExtrinsic where
  signed : AccountId32
  signature : Signature
  nonce : UInt32
  function : LitterCall AccountId32

namespace UncheckedExtrinsic

/-- The extrinsic without its length: a version byte that says it is signed, who by, an
`Ed25519` signature, the extra and the call. -/
def inner (x : UncheckedExtrinsic) : List UInt8 :=
  0x84 :: (x.signed.toList ++ 0 :: x.signature.toList ++ signedExtra x.nonce ++
    runtimeCall AccountId32.codec x.function)

def encode (x : UncheckedExtrinsic) : List UInt8 := compact.encode x.inner.length ++ x.inner

end UncheckedExtrinsic

/-- `client::sign`. -/
def sign (identity : Identity) (call : LitterCall AccountId32) (nonce : UInt32) (m : Meta) :
    UncheckedExtrinsic :=
  ⟨identity.account, identity.sign (usingEncoded call nonce m), nonce, call⟩

end Client

/-! ## Patron requests -/

def PATRON_REQUEST_CONTEXT : String := "miot/patron-request/v1"

/-- A chain is named by the hash of its roster. -/
def requestDomain (roster : List (String × AccountId32)) : List UInt8 :=
  Blake2b.hash 32 ((text.pair AccountId32.codec).list.encode roster)

/-- The exact bytes a requester signs. -/
def RequestMessage.encode (r : RequestMessage AccountId32) : List UInt8 :=
  byte.list.encode (Utf8.bytes PATRON_REQUEST_CONTEXT) ++ requestDomain r.domain ++
    text.encode r.name ++ text.encode r.note

/-! ## As bytes -/

theorem encode_bytes (bs : List UInt8) : bs.flatMap byte.encode = bs := List.flatMap_singleton' bs

theorem AccountId32.codec_encode (a : AccountId32) : AccountId32.codec.encode a = a.toList :=
  encode_bytes a.toList

theorem byte_list_encode (bs : List UInt8) :
    byte.list.encode bs = compact.encode bs.length ++ bs :=
  congrArg (compact.encode bs.length ++ ·) (encode_bytes bs)

theorem text_encode (s : String) :
    text.encode s = compact.encode (Utf8.bytes s).length ++ Utf8.bytes s := by
  rw [Utf8.bytes_eq]
  exact byte_list_encode _

end AkumaMiot
