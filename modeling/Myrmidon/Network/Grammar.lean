import Myrmidon.Network.Connection

namespace Myrmidon.Network

open Data

inductive Frame where
  | user (pid : Pid) (payload : Bytes)
  | resolve (name : String)
  | ping
  deriving DecidableEq

namespace Frame

def encode : Frame → Bytes
  | .user pid payload =>
    MessageType.user.toByte :: (encodeBE 8 pid.toNat ++ encodeBE 4 payload.length ++ payload)
  | .resolve name => MessageType.resolve.toByte :: (encodeBE 4 (utf8Bytes name).length ++ utf8Bytes name)
  | .ping => [MessageType.ping.toByte]

def Valid (server : Server) : Frame → Prop
  | .user _ payload => payload.length ≤ server.maxPayload ∧ payload.length < 2^32
  | .resolve name => (utf8Bytes name).length ≤ server.maxNameLen ∧ (utf8Bytes name).length < 2^32
  | .ping => True

def effect (server : Server) (served : Nat) : Frame → Effect
  | .user pid payload => .send pid (.user payload)
  | .resolve name => .write (encodeBE 8 ((server.resolve served name).getD 0).toNat)
  | .ping => .write [3]

theorem encode_ne_nil (frame : Frame) : frame.encode ≠ [] := by
  cases frame <;> simp [encode]

end Frame

def encodeAll (frames : List Frame) : Bytes := frames.flatMap Frame.encode

def effects (server : Server) : Nat → List Frame → List Effect
  | _, [] => []
  | served, frame :: frames => frame.effect server served :: effects server (served + 1) frames

/-- The bytes begin with a frame that no continuation can make acceptable. -/
inductive Rejected (server : Server) : Bytes → IoError → Prop where
  | unknownType {byte : UInt8} {rest : Bytes} (unknown : MessageType.ofByte byte = none) :
      Rejected server (byte :: rest) (invalidData "unknown message type")
  | payloadTooLarge {metaBytes rest : Bytes} (width : metaBytes.length = 12)
      (large : server.maxPayload < decodeBE (metaBytes.drop 8)) :
      Rejected server (MessageType.user.toByte :: (metaBytes ++ rest)) (invalidData "payload too large")
  | nameTooLong {lenBuf rest : Bytes} (width : lenBuf.length = 4) (large : server.maxNameLen < decodeBE lenBuf) :
      Rejected server (MessageType.resolve.toByte :: (lenBuf ++ rest)) (invalidData "resolve name too long")
  | notUtf8 {lenBuf name rest : Bytes} (width : lenBuf.length = 4) (within : decodeBE lenBuf ≤ server.maxNameLen)
      (length : name.length = decodeBE lenBuf) (malformed : utf8Decode name = none) :
      Rejected server (MessageType.resolve.toByte :: (lenBuf ++ (name ++ rest)))
        (invalidData "invalid utf8 in resolve request")

inductive Truncated (server : Server) : Bytes → Prop where
  | userMeta {rest : Bytes} (short : rest.length < 12) : Truncated server (MessageType.user.toByte :: rest)
  | userPayload {metaBytes rest : Bytes} (width : metaBytes.length = 12)
      (within : decodeBE (metaBytes.drop 8) ≤ server.maxPayload)
      (short : rest.length < decodeBE (metaBytes.drop 8)) :
      Truncated server (MessageType.user.toByte :: (metaBytes ++ rest))
  | resolveLen {rest : Bytes} (short : rest.length < 4) : Truncated server (MessageType.resolve.toByte :: rest)
  | resolveName {lenBuf rest : Bytes} (width : lenBuf.length = 4) (within : decodeBE lenBuf ≤ server.maxNameLen)
      (short : rest.length < decodeBE lenBuf) : Truncated server (MessageType.resolve.toByte :: (lenBuf ++ rest))

theorem decodeBE_encodeBE_of_lt {width number : Nat} (bound : number < 256 ^ width) :
    decodeBE (encodeBE width number) = number := by
  rw [decodeBE_encodeBE, Nat.mod_eq_of_lt bound]

theorem readExact_width {r : Reader} {front back : Bytes} {len : Nat} (width : front.length = len)
    (split : r.bytes = front ++ back) : ∃ rest, r.readExactWithTimeout len = .ok (front, rest) ∧
      rest.bytes = back ∧ rest.ending = r.ending := by
  subst width
  exact r.readExact_append split

theorem turn_of_empty {server : Server} {r : Reader} (empty : r.bytes = []) (served : Nat) :
    turn server served r = .closed (.ok ()) := by
  have short : r.bytes.length < 1 := by simp [empty]
  rw [turn, r.readExact_short short]

theorem turn_header (server : Server) (served : Nat) {r : Reader} {byte : UInt8} {tail : Bytes}
    (split : r.bytes = byte :: tail) : ∃ rest, rest.bytes = tail ∧ rest.ending = r.ending ∧ turn server served r =
      match MessageType.ofByte byte with
      | none => .closed (.error (invalidData "unknown message type"))
      | some kind =>
        match readFrame server served kind rest with
        | .error error => .closed (.error error)
        | .ok (effect, reader) => .next effect reader := by
  have single : [byte].length = 1 := rfl
  obtain ⟨rest, done, left, ending⟩ := readExact_width single split
  exact ⟨rest, left, ending, by rw [turn, done]; rfl⟩

theorem turn_of_frame {server : Server} {frame : Frame} (valid : frame.Valid server) {r : Reader} {tail : Bytes}
    (split : r.bytes = frame.encode ++ tail) (served : Nat) :
    ∃ rest, turn server served r = .next (frame.effect server served) rest ∧
      rest.bytes = tail ∧ rest.ending = r.ending := by
  cases frame with
  | user pid payload =>
    have fields : (encodeBE 8 pid.toNat ++ encodeBE 4 payload.length).length = 12 := by
      simp [length_encodeBE]
    have shape : r.bytes = MessageType.user.toByte ::
        ((encodeBE 8 pid.toNat ++ encodeBE 4 payload.length) ++ (payload ++ tail)) := by
      rw [split]
      simp [Frame.encode]
    obtain ⟨body, left, ending, result⟩ := turn_header server served shape
    obtain ⟨afterMeta, done, left, middle⟩ := readExact_width fields left
    obtain ⟨rest, data, left, final⟩ := afterMeta.readExact_append left
    have number : decodeBE (encodeBE 8 pid.toNat) = pid.toNat := decodeBE_encodeBE_of_lt pid.isLt
    have length : decodeBE (encodeBE 4 payload.length) = payload.length := decodeBE_encodeBE_of_lt valid.2
    have inside : ¬ server.maxPayload < payload.length := Nat.not_lt.mpr valid.1
    have front : (encodeBE 8 pid.toNat ++ encodeBE 4 payload.length).take 8 = encodeBE 8 pid.toNat :=
      List.take_left' (length_encodeBE 8 pid.toNat)
    have back : (encodeBE 8 pid.toNat ++ encodeBE 4 payload.length).drop 8 = encodeBE 4 payload.length :=
      List.drop_left' (length_encodeBE 8 pid.toNat)
    refine ⟨rest, ?_, left, final.trans (middle.trans ending)⟩
    rw [result, MessageType.ofByte_toByte]
    simp only [readFrame, done, front, back, number, length, inside, if_false, data, Frame.effect,
      BitVec.ofNat_toNat, BitVec.setWidth_eq]
  | resolve name =>
    have shape : r.bytes = MessageType.resolve.toByte ::
        (encodeBE 4 (utf8Bytes name).length ++ (utf8Bytes name ++ tail)) := by
      rw [split]
      simp [Frame.encode]
    obtain ⟨body, left, ending, result⟩ := turn_header server served shape
    obtain ⟨afterLen, done, left, middle⟩ := readExact_width (length_encodeBE 4 _) left
    obtain ⟨rest, data, left, final⟩ := afterLen.readExact_append left
    have length : decodeBE (encodeBE 4 (utf8Bytes name).length) = (utf8Bytes name).length :=
      decodeBE_encodeBE_of_lt valid.2
    have inside : ¬ server.maxNameLen < (utf8Bytes name).length := Nat.not_lt.mpr valid.1
    refine ⟨rest, ?_, left, final.trans (middle.trans ending)⟩
    rw [result, MessageType.ofByte_toByte]
    simp only [readFrame, done, length, inside, if_false, data, utf8Decode_utf8Bytes, Frame.effect]
  | ping =>
    obtain ⟨rest, left, ending, result⟩ := turn_header server served split
    refine ⟨rest, ?_, left, ending⟩
    rw [result, MessageType.ofByte_toByte]
    simp only [readFrame, Frame.effect]

theorem turn_of_rejected {server : Server} {r : Reader} {error : IoError} (rejected : Rejected server r.bytes error)
    (served : Nat) : turn server served r = .closed (.error error) := by
  generalize split : r.bytes = bytes at rejected
  cases rejected with
  | unknownType unknown =>
    obtain ⟨rest, -, -, result⟩ := turn_header server served split
    rw [result, unknown]
  | payloadTooLarge width large =>
    obtain ⟨body, left, -, result⟩ := turn_header server served split
    obtain ⟨rest, done, -, -⟩ := readExact_width width left
    rw [result, MessageType.ofByte_toByte]
    simp only [readFrame, done, large, if_true]
  | nameTooLong width large =>
    obtain ⟨body, left, -, result⟩ := turn_header server served split
    obtain ⟨rest, done, -, -⟩ := readExact_width width left
    rw [result, MessageType.ofByte_toByte]
    simp only [readFrame, done, large, if_true]
  | notUtf8 width within length malformed =>
    obtain ⟨body, left, -, result⟩ := turn_header server served split
    obtain ⟨middle, done, left, -⟩ := readExact_width width left
    obtain ⟨rest, data, -, -⟩ := readExact_width length left
    have inside := Nat.not_lt.mpr within
    rw [result, MessageType.ofByte_toByte]
    simp only [readFrame, done, inside, if_false, data, malformed]

theorem turn_of_truncated {server : Server} {r : Reader} (truncated : Truncated server r.bytes) (served : Nat) :
    turn server served r = .closed (.error r.ending.error) := by
  generalize split : r.bytes = bytes at truncated
  cases truncated with
  | userMeta short =>
    obtain ⟨body, left, ending, result⟩ := turn_header server served split
    rw [result, MessageType.ofByte_toByte]
    simp only [readFrame, body.readExact_short (left ▸ short), ending]
  | userPayload width within short =>
    obtain ⟨body, left, ending, result⟩ := turn_header server served split
    obtain ⟨rest, done, left, same⟩ := readExact_width width left
    have inside := Nat.not_lt.mpr within
    rw [result, MessageType.ofByte_toByte]
    simp only [readFrame, done, inside, if_false, rest.readExact_short (left ▸ short), same, ending]
  | resolveLen short =>
    obtain ⟨body, left, ending, result⟩ := turn_header server served split
    rw [result, MessageType.ofByte_toByte]
    simp only [readFrame, body.readExact_short (left ▸ short), ending]
  | resolveName width within short =>
    obtain ⟨body, left, ending, result⟩ := turn_header server served split
    obtain ⟨rest, done, left, same⟩ := readExact_width width left
    have inside := Nat.not_lt.mpr within
    rw [result, MessageType.ofByte_toByte]
    simp only [readFrame, done, inside, if_false, rest.readExact_short (left ▸ short), same, ending]

end Myrmidon.Network
