import Myrmidon.Network.Parsing

namespace Myrmidon.Network

open Data

def asU32 (len : Nat) : Nat := len % 2^32

def userWire (pid : Pid) (data : Bytes) : Bytes :=
  MessageType.user.toByte :: (encodeBE 8 pid.toNat ++ encodeBE 4 (asU32 data.length) ++ data)

def sendFrame (maxPayload : Nat) (pid : Pid) (data : Bytes) : Except IoError Bytes :=
  if maxPayload < data.length then .error ⟨.invalidInput, "payload too large"⟩ else .ok (userWire pid data)

def resolveWire (name : String) : Bytes :=
  MessageType.resolve.toByte :: (encodeBE 4 (asU32 (utf8Bytes name).length) ++ utf8Bytes name)

/-- What `resolve_remote` writes before it waits for the reply. A name that is
    too long is noticed after the version and the header byte are out. -/
def resolveRequest (maxNameLen : Nat) (name : String) : Bytes × Except IoError Unit :=
  if maxNameLen < (utf8Bytes name).length then
    ([protocolVersion, MessageType.resolve.toByte], .error ⟨.invalidInput, "name too long"⟩)
  else (protocolVersion :: resolveWire name, .ok ())

theorem asU32_of_lt {len : Nat} (small : len < 2^32) : asU32 len = len := Nat.mod_eq_of_lt small

theorem asU32_lt (len : Nat) : asU32 len < 2^32 := Nat.mod_lt _ (by decide)

theorem asU32_le (len : Nat) : asU32 len ≤ len := Nat.mod_le _ _

/-- At the bytes `wire` the server takes the frame `frame` and stops right behind them. -/
def DecodesTo (server : Server) (wire : Bytes) (frame : Frame) : Prop :=
  ∀ (served : Nat) (r : Reader) (rest : Bytes), r.bytes = wire ++ rest →
    ∃ next, turn server served r = .next (frame.effect server served) next ∧
      next.bytes = rest ∧ next.ending = r.ending

theorem decodesTo_encode {server : Server} {frame : Frame} (valid : frame.Valid server) :
    DecodesTo server frame.encode frame :=
  fun served _ _ split => turn_of_frame valid split served

theorem not_decodesTo_longer {server : Server} {short : Frame} (valid : short.Valid server) (frame : Frame)
    {wire left : Bytes} (split : wire = short.encode ++ left) (nonempty : left ≠ []) :
    ¬ DecodesTo server wire frame := by
  intro decodes
  have whole : (Reader.ofBytes wire .closed).bytes = wire := Reader.bytes_ofBytes _ _
  obtain ⟨early, first, behind, -⟩ := turn_of_frame valid (whole.trans split) 0
  obtain ⟨late, second, empty, -⟩ := decodes 0 _ [] (whole.trans (List.append_nil _).symm)
  rw [first, Turn.next.injEq] at second
  rw [second.2] at behind
  exact nonempty (behind.symm.trans empty)

theorem not_decodesTo_rejected {server : Server} {wire : Bytes} {error : IoError}
    (rejected : Rejected server wire error) (frame : Frame) : ¬ DecodesTo server wire frame := by
  intro decodes
  have whole : (Reader.ofBytes wire .closed).bytes = wire := Reader.bytes_ofBytes _ _
  have first := turn_of_rejected (whole.symm ▸ rejected) 0
  obtain ⟨late, second, -, -⟩ := decodes 0 _ [] (whole.trans (List.append_nil _).symm)
  rw [first] at second
  cases second

theorem exists_prefix_of_large {data : Bytes} (large : 2^32 ≤ data.length) :
    ∃ front left : Bytes, data = front ++ left ∧ front.length = asU32 data.length ∧ left ≠ [] := by
  have cut : asU32 data.length < data.length := Nat.lt_of_lt_of_le (asU32_lt _) large
  obtain ⟨front, left, split, length⟩ := exists_split (Nat.le_of_lt cut)
  refine ⟨front, left, split, length, ?_⟩
  rintro rfl
  rw [List.append_nil] at split
  rw [split] at cut length
  omega

theorem userWire_decodes_iff {server : Server} {data : Bytes} (accepted : data.length ≤ server.maxPayload)
    (pid : Pid) : DecodesTo server (userWire pid data) (.user pid data) ↔ data.length < 2^32 := by
  by_cases small : data.length < 2^32
  · have valid : (Frame.user pid data).Valid server := ⟨accepted, small⟩
    have decodes := decodesTo_encode valid
    rw [Frame.encode, ← asU32_of_lt small] at decodes
    exact iff_of_true decodes small
  · obtain ⟨front, left, split, length, nonempty⟩ := exists_prefix_of_large (Nat.not_lt.mp small)
    have valid : (Frame.user pid front).Valid server := by
      rw [Frame.Valid, length]
      exact ⟨(asU32_le _).trans accepted, asU32_lt _⟩
    have shape : userWire pid data = (Frame.user pid front).encode ++ left := by
      rw [userWire, Frame.encode, length]
      simp only [List.cons_append, List.append_assoc, ← split]
    exact iff_of_false (not_decodesTo_longer valid _ shape nonempty) small

theorem resolveWire_decodes_iff {server : Server} {name : String}
    (accepted : (utf8Bytes name).length ≤ server.maxNameLen) :
    DecodesTo server (resolveWire name) (.resolve name) ↔ (utf8Bytes name).length < 2^32 := by
  by_cases small : (utf8Bytes name).length < 2^32
  · have valid : (Frame.resolve name).Valid server := ⟨accepted, small⟩
    have decodes := decodesTo_encode valid
    rw [Frame.encode, ← asU32_of_lt small] at decodes
    exact iff_of_true decodes small
  · obtain ⟨front, left, split, length, nonempty⟩ := exists_prefix_of_large (Nat.not_lt.mp small)
    have within : asU32 (utf8Bytes name).length ≤ server.maxNameLen := (asU32_le _).trans accepted
    refine iff_of_false ?_ small
    -- The prefix may end inside a character; then the name is rejected.
    cases decoded : utf8Decode front with
    | none =>
      have number : decodeBE (encodeBE 4 (asU32 (utf8Bytes name).length)) = asU32 (utf8Bytes name).length :=
        decodeBE_encodeBE_of_lt (asU32_lt _)
      have shape : resolveWire name = MessageType.resolve.toByte ::
          (encodeBE 4 (asU32 (utf8Bytes name).length) ++ (front ++ left)) := by
        rw [← split, resolveWire]
      have rejected : Rejected server (resolveWire name) (invalidData "invalid utf8 in resolve request") := by
        rw [shape]
        exact .notUtf8 (length_encodeBE 4 _) (by rwa [number]) (by rw [number, length]) decoded
      exact not_decodesTo_rejected rejected _
    | some text =>
      have valid : (Frame.resolve text).Valid server := by
        rw [Frame.Valid, utf8Bytes_of_decode decoded, length]
        exact ⟨within, asU32_lt _⟩
      have shape : resolveWire name = (Frame.resolve text).encode ++ left := by
        rw [resolveWire, Frame.encode, utf8Bytes_of_decode decoded, length]
        simp only [List.cons_append, List.append_assoc, ← split]
      exact not_decodesTo_longer valid _ shape nonempty

/-- With the same limits on both nodes, what the client accepts is decoded as it was meant exactly when
    its length fits the length field. -/
theorem length_field_faithful_iff (server : Server) :
    (∀ (pid : Pid) (data : Bytes), data.length ≤ server.maxPayload →
      ∃ wire, sendFrame server.maxPayload pid data = .ok wire ∧
        (DecodesTo server wire (.user pid data) ↔ data.length < 2^32)) ∧
    (∀ name : String, (utf8Bytes name).length ≤ server.maxNameLen →
      ∃ wire, resolveRequest server.maxNameLen name = (protocolVersion :: wire, .ok ()) ∧
        (DecodesTo server wire (.resolve name) ↔ (utf8Bytes name).length < 2^32)) := by
  constructor
  · intro pid data accepted
    exact ⟨userWire pid data, if_neg (Nat.not_lt.mpr accepted), userWire_decodes_iff accepted pid⟩
  · intro name accepted
    exact ⟨resolveWire name, if_neg (Nat.not_lt.mpr accepted), resolveWire_decodes_iff accepted⟩

/-- With a limit of 2^32, a payload of 2^32 zero bytes is announced as empty. -/
theorem large_payload_not_decoded :
    ¬ ∀ (server : Server) (pid : Pid) (data : Bytes), server.maxPayload < 2^64 →
      data.length ≤ server.maxPayload → ∃ wire, sendFrame server.maxPayload pid data = .ok wire ∧
        DecodesTo server wire (.user pid data) := by
  intro faithful
  have size : (List.replicate (2^32) (0 : UInt8)).length = 2^32 := List.length_replicate
  obtain ⟨wire, accepted, decodes⟩ := faithful ⟨2^32, 1024, fun _ _ => none⟩ 7 (List.replicate (2^32) 0) (by decide)
    (by rw [size])
  rw [sendFrame, if_neg (by rw [size]; decide)] at accepted
  cases accepted
  rw [userWire_decodes_iff (by rw [size]), size] at decodes
  exact absurd decodes (by decide)

end Myrmidon.Network
