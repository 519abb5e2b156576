import Myrmidon.Network.Grammar

namespace Myrmidon.Network

open Data

theorem encodeBE_decodeBE_of_length {bytes : Bytes} {width : Nat} (length : bytes.length = width) :
    encodeBE width (decodeBE bytes) = bytes := by
  rw [← length, encodeBE_decodeBE]

theorem exists_split {bytes : Bytes} {len : Nat} (fits : len ≤ bytes.length) :
    ∃ front back : Bytes, bytes = front ++ back ∧ front.length = len :=
  ⟨bytes.take len, bytes.drop len, (List.take_append_drop len bytes).symm, by rw [List.length_take]; omega⟩

/-- A stream begins with a valid frame, or with one that is rejected, or ends inside one. -/
def Classified (server : Server) (bytes : Bytes) : Prop :=
  (∃ (frame : Frame) (tail : Bytes), frame.Valid server ∧ bytes = frame.encode ++ tail) ∨
    (∃ error, Rejected server bytes error) ∨ Truncated server bytes

theorem classify_user (server : Server) (rest : Bytes) : Classified server (MessageType.user.toByte :: rest) := by
  by_cases short : rest.length < 12
  · exact .inr (.inr (.userMeta short))
  · obtain ⟨pidBytes, rest, rfl, pidWidth⟩ := exists_split (by omega : 8 ≤ rest.length)
    rw [List.length_append] at short
    obtain ⟨lenBytes, rest, rfl, lenWidth⟩ := exists_split (by omega : 4 ≤ rest.length)
    have width : (pidBytes ++ lenBytes).length = 12 := by rw [List.length_append]; omega
    have fields : (pidBytes ++ lenBytes).drop 8 = lenBytes := List.drop_left' pidWidth
    rw [← List.append_assoc]
    by_cases large : server.maxPayload < decodeBE lenBytes
    · have rejected : server.maxPayload < decodeBE ((pidBytes ++ lenBytes).drop 8) := by rwa [fields]
      exact .inr (.inl ⟨_, .payloadTooLarge width rejected⟩)
    · by_cases cut : rest.length < decodeBE lenBytes
      · have within : decodeBE ((pidBytes ++ lenBytes).drop 8) ≤ server.maxPayload := by
          rw [fields]
          exact Nat.not_lt.mp large
        have inside : rest.length < decodeBE ((pidBytes ++ lenBytes).drop 8) := by rwa [fields]
        exact .inr (.inr (.userPayload width within inside))
      · obtain ⟨payload, tail, rfl, length⟩ := exists_split (Nat.not_lt.mp cut)
        have pidBound : decodeBE pidBytes < 2^64 := by
          have bound := decodeBE_lt pidBytes
          rwa [pidWidth] at bound
        have lenBound : decodeBE lenBytes < 2^32 := by
          have bound := decodeBE_lt lenBytes
          rwa [lenWidth] at bound
        refine .inl ⟨.user (BitVec.ofNat 64 (decodeBE pidBytes)) payload, tail, ?_, ?_⟩
        · rw [Frame.Valid, length]
          exact ⟨Nat.not_lt.mp large, lenBound⟩
        · rw [Frame.encode, length, BitVec.toNat_ofNat, Nat.mod_eq_of_lt pidBound,
            encodeBE_decodeBE_of_length pidWidth, encodeBE_decodeBE_of_length lenWidth]
          simp only [List.cons_append, List.append_assoc]

theorem classify_resolve (server : Server) (rest : Bytes) :
    Classified server (MessageType.resolve.toByte :: rest) := by
  by_cases short : rest.length < 4
  · exact .inr (.inr (.resolveLen short))
  · obtain ⟨lenBuf, rest, rfl, width⟩ := exists_split (Nat.not_lt.mp short)
    by_cases large : server.maxNameLen < decodeBE lenBuf
    · exact .inr (.inl ⟨_, .nameTooLong width large⟩)
    · by_cases cut : rest.length < decodeBE lenBuf
      · exact .inr (.inr (.resolveName width (Nat.not_lt.mp large) cut))
      · obtain ⟨nameVec, tail, rfl, length⟩ := exists_split (Nat.not_lt.mp cut)
        cases decoded : utf8Decode nameVec with
        | none => exact .inr (.inl ⟨_, .notUtf8 width (Nat.not_lt.mp large) length decoded⟩)
        | some name =>
          have lenBound : decodeBE lenBuf < 2^32 := by
            have bound := decodeBE_lt lenBuf
            rwa [width] at bound
          refine .inl ⟨.resolve name, tail, ?_, ?_⟩
          · rw [Frame.Valid, utf8Bytes_of_decode decoded, length]
            exact ⟨Nat.not_lt.mp large, lenBound⟩
          · rw [Frame.encode, utf8Bytes_of_decode decoded, length, encodeBE_decodeBE_of_length width,
              List.cons_append, List.append_assoc]

theorem classify (server : Server) (byte : UInt8) (rest : Bytes) : Classified server (byte :: rest) := by
  cases known : MessageType.ofByte byte with
  | none => exact .inr (.inl ⟨_, .unknownType known⟩)
  | some kind =>
    rw [MessageType.eq_toByte_of_ofByte known]
    cases kind with
    | user => exact classify_user server rest
    | resolve => exact classify_resolve server rest
    | ping => exact .inl ⟨.ping, rest, trivial, rfl⟩

theorem Rejected.append {server : Server} {bytes : Bytes} {error : IoError} (rejected : Rejected server bytes error)
    (more : Bytes) : Rejected server (bytes ++ more) error := by
  cases rejected with
  | unknownType unknown => exact .unknownType unknown
  | payloadTooLarge width large =>
    rw [List.cons_append, List.append_assoc]
    exact .payloadTooLarge width large
  | nameTooLong width large =>
    rw [List.cons_append, List.append_assoc]
    exact .nameTooLong width large
  | notUtf8 width within length malformed =>
    rw [List.cons_append, List.append_assoc, List.append_assoc]
    exact .notUtf8 width within length malformed

inductive Ends (server : Server) (ending : StreamEnd) : Bytes → Except IoError Unit → Prop where
  | boundary : Ends server ending [] (.ok ())
  | rejected {bytes : Bytes} {error : IoError} : Rejected server bytes error → Ends server ending bytes (.error error)
  | truncated {bytes : Bytes} : Truncated server bytes → Ends server ending bytes (.error ending.error)

theorem turn_of_ends {server : Server} {r : Reader} {result : Except IoError Unit}
    (ends : Ends server r.ending r.bytes result) (served : Nat) : turn server served r = .closed result := by
  generalize split : r.bytes = bytes at ends
  cases ends with
  | boundary => exact turn_of_empty split served
  | rejected rejected => exact turn_of_rejected (split ▸ rejected) served
  | truncated truncated => exact turn_of_truncated (split ▸ truncated) served

def Reader.ofBytes (bytes : Bytes) (ending : StreamEnd) : Reader :=
  if filled : bytes = [] then ⟨[], ending⟩ else ⟨[⟨bytes, filled⟩], ending⟩

theorem Reader.bytes_ofBytes (bytes : Bytes) (ending : StreamEnd) : (Reader.ofBytes bytes ending).bytes = bytes := by
  unfold ofBytes
  split
  · rename_i empty
    rw [empty]
    rfl
  · simp [Reader.bytes]

theorem Reader.ending_ofBytes (bytes : Bytes) (ending : StreamEnd) :
    (Reader.ofBytes bytes ending).ending = ending := by
  unfold ofBytes
  split <;> rfl

theorem Ends.turn_ofBytes {server : Server} {ending : StreamEnd} {bytes : Bytes} {result : Except IoError Unit}
    (ends : Ends server ending bytes result) : turn server 0 (Reader.ofBytes bytes ending) = .closed result := by
  apply turn_of_ends
  rw [Reader.bytes_ofBytes, Reader.ending_ofBytes]
  exact ends

theorem Ends.unique {server : Server} {ending : StreamEnd} {bytes : Bytes} {first second : Except IoError Unit}
    (one : Ends server ending bytes first) (two : Ends server ending bytes second) : first = second := by
  have same := one.turn_ofBytes.symm.trans two.turn_ofBytes
  cases same
  rfl

theorem Ends.no_frame {server : Server} {ending : StreamEnd} {bytes : Bytes} {result : Except IoError Unit}
    (ends : Ends server ending bytes result) {frame : Frame} (valid : frame.Valid server) :
    ¬ frame.encode <+: bytes := by
  rintro ⟨tail, split⟩
  have shape : (Reader.ofBytes bytes ending).bytes = frame.encode ++ tail := by
    rw [Reader.bytes_ofBytes, split]
  obtain ⟨rest, next, -⟩ := turn_of_frame valid shape 0
  rw [ends.turn_ofBytes] at next
  cases next

theorem encodeAll_cons_append (frame : Frame) (frames : List Frame) (tail : Bytes) :
    encodeAll (frame :: frames) ++ tail = frame.encode ++ (encodeAll frames ++ tail) := by
  rw [encodeAll, encodeAll, List.flatMap_cons, List.append_assoc]

theorem serve_of_frames {server : Server} {frames : List Frame} (valid : ∀ frame ∈ frames, frame.Valid server)
    {r : Reader} {tail : Bytes} {result : Except IoError Unit} (split : r.bytes = encodeAll frames ++ tail)
    (ends : Ends server r.ending tail result) {turns : Nat} (enough : frames.length < turns) (served : Nat) :
    serve server turns served r = (effects server served frames, some result) := by
  induction frames generalizing r turns served with
  | nil =>
    obtain ⟨turns, rfl⟩ := Nat.exists_eq_succ_of_ne_zero (Nat.ne_zero_of_lt enough)
    have closed : turn server served r = .closed result := turn_of_ends (by rw [split]; exact ends) served
    simp only [serve, closed, effects]
  | cons frame frames ih =>
    obtain ⟨turns, rfl⟩ := Nat.exists_eq_succ_of_ne_zero (Nat.ne_zero_of_lt enough)
    have shape : r.bytes = frame.encode ++ (encodeAll frames ++ tail) := by
      rw [split, encodeAll_cons_append]
    obtain ⟨rest, next, left, ending⟩ := turn_of_frame (valid frame List.mem_cons_self) shape served
    have later := ih (fun other member => valid other (List.mem_cons_of_mem _ member)) left
      (by rw [ending]; exact ends) (by simpa using enough) (served + 1)
    simp only [serve, next, later, effects]

theorem parse_exists (server : Server) (ending : StreamEnd) (bytes : Bytes) :
    ∃ frames tail result, (∀ frame ∈ frames, frame.Valid server) ∧ bytes = encodeAll frames ++ tail ∧
      Ends server ending tail result := by
  -- Each frame has a header byte, so the bytes after it are fewer.
  generalize size : bytes.length = length
  induction length using Nat.strong_induction_on generalizing bytes with
  | _ length ih =>
    cases bytes with
    | nil => exact ⟨[], [], _, by simp, rfl, .boundary⟩
    | cons byte rest =>
      rcases classify server byte rest with ⟨frame, tail, valid, split⟩ | ⟨error, rejected⟩ | truncated
      · have shorter : tail.length < length := by
          have nonzero := List.length_pos_iff.mpr frame.encode_ne_nil
          rw [split, List.length_append] at size
          omega
        obtain ⟨frames, rest, result, allValid, later, ends⟩ := ih _ shorter tail rfl
        refine ⟨frame :: frames, rest, result, List.forall_mem_cons.mpr ⟨valid, allValid⟩, ?_, ends⟩
        rw [split, later, encodeAll_cons_append]
      · exact ⟨[], _, _, by simp, rfl, .rejected rejected⟩
      · exact ⟨[], _, _, by simp, rfl, .truncated truncated⟩

theorem length_le_encodeAll (frames : List Frame) : frames.length ≤ (encodeAll frames).length := by
  induction frames with
  | nil => exact Nat.le_refl _
  | cons frame frames ih =>
    have nonzero := List.length_pos_iff.mpr frame.encode_ne_nil
    rw [encodeAll, List.flatMap_cons, List.length_append, List.length_cons]
    rw [encodeAll] at ih
    omega

theorem handleConnection_of_frames {server : Server} {frames : List Frame}
    (valid : ∀ frame ∈ frames, frame.Valid server) {r : Reader} {tail : Bytes} {result : Except IoError Unit}
    (split : r.bytes = protocolVersion :: (encodeAll frames ++ tail)) (ends : Ends server r.ending tail result) :
    handleConnection server r = (effects server 0 frames, some result) := by
  have single : [protocolVersion].length = 1 := rfl
  obtain ⟨rest, done, left, ending⟩ := readExact_width single split
  have enough : frames.length < rest.bytes.length + 1 := by
    have bound := length_le_encodeAll frames
    have size : rest.bytes.length = (encodeAll frames).length + tail.length := by
      rw [left]
      exact List.length_append
    omega
  simp only [handleConnection, done, List.head?_cons, if_true]
  exact serve_of_frames valid left (by rw [ending]; exact ends) enough 0

def versionError (bytes : Bytes) (ending : StreamEnd) : IoError :=
  match bytes with
  | [] => ending.error
  | _ :: _ => invalidData "protocol version mismatch"

theorem handleConnection_of_version {server : Server} {r : Reader} (wrong : r.bytes.head? ≠ some protocolVersion) :
    handleConnection server r = ([], some (.error (versionError r.bytes r.ending))) := by
  cases shape : r.bytes with
  | nil =>
    have short : r.bytes.length < 1 := by simp [shape]
    rw [handleConnection, r.readExact_short short, versionError]
  | cons byte rest =>
    rw [shape] at wrong
    have single : [byte].length = 1 := rfl
    obtain ⟨rest, done, -, -⟩ := readExact_width single shape
    simp only [handleConnection, done]
    exact if_neg wrong

theorem encodeBE_cancel {width first second : Nat} {front back : Bytes} (one : first < 256 ^ width)
    (two : second < 256 ^ width) (same : encodeBE width first ++ front = encodeBE width second ++ back) :
    first = second ∧ front = back := by
  obtain ⟨digits, rest⟩ := List.append_inj same (by rw [length_encodeBE, length_encodeBE])
  refine ⟨?_, rest⟩
  rw [← decodeBE_encodeBE_of_lt one, digits, decodeBE_encodeBE_of_lt two]

/-- No valid frame is cut out of another: the first frame of a stream is determined by its bytes. -/
theorem Frame.encode_cancel {server : Server} {first second : Frame} (one : first.Valid server)
    (two : second.Valid server) {front back : Bytes} (same : first.encode ++ front = second.encode ++ back) :
    first = second ∧ front = back := by
  cases first with
  | user pid payload =>
    cases second with
    | user other data =>
      simp only [Frame.encode, List.cons_append, List.append_assoc, List.cons.injEq, true_and] at same
      obtain ⟨pids, same⟩ := encodeBE_cancel pid.isLt other.isLt same
      obtain ⟨lengths, same⟩ := encodeBE_cancel one.2 two.2 same
      obtain ⟨payloads, same⟩ := List.append_inj same lengths
      rw [BitVec.eq_of_toNat_eq pids, payloads]
      exact ⟨rfl, same⟩
    | resolve other => cases (List.cons.inj same).1
    | ping => cases (List.cons.inj same).1
  | resolve name =>
    cases second with
    | user other data => cases (List.cons.inj same).1
    | resolve other =>
      simp only [Frame.encode, List.cons_append, List.append_assoc, List.cons.injEq, true_and] at same
      obtain ⟨lengths, same⟩ := encodeBE_cancel one.2 two.2 same
      obtain ⟨names, same⟩ := List.append_inj same lengths
      have text : some name = some other := by rw [← utf8Decode_utf8Bytes, names, utf8Decode_utf8Bytes]
      exact ⟨congrArg Frame.resolve (Option.some.inj text), same⟩
    | ping => cases (List.cons.inj same).1
  | ping =>
    cases second with
    | user other data => cases (List.cons.inj same).1
    | resolve other => cases (List.cons.inj same).1
    | ping => exact ⟨rfl, (List.cons.inj same).2⟩

theorem longest_of_ends {server : Server} {ending : StreamEnd} {frames others : List Frame} {tail rest : Bytes}
    {result : Except IoError Unit} (ends : Ends server ending tail result)
    (valid : ∀ frame ∈ frames, frame.Valid server) (fits : ∀ frame ∈ others, frame.Valid server)
    (same : encodeAll others ++ rest = encodeAll frames ++ tail) : others <+: frames := by
  induction others generalizing frames with
  | nil => exact List.nil_prefix
  | cons other others ih =>
    have whole : other.encode ++ (encodeAll others ++ rest) = encodeAll frames ++ tail := by
      rw [← same, encodeAll_cons_append]
    cases frames with
    | nil => exact absurd ⟨_, whole⟩ (ends.no_frame (fits other List.mem_cons_self))
    | cons frame frames =>
      rw [encodeAll_cons_append] at whole
      obtain ⟨rfl, later⟩ := Frame.encode_cancel (fits other List.mem_cons_self) (valid frame List.mem_cons_self) whole
      apply List.prefix_cons_inj other |>.mpr
      exact ih (fun frame member => valid frame (List.mem_cons_of_mem _ member))
        (fun frame member => fits frame (List.mem_cons_of_mem _ member)) later

/-- `frames` is the longest prefix of complete valid frames after the version byte. -/
structure Parsed (server : Server) (bytes : Bytes) (frames : List Frame) (tail : Bytes) : Prop where
  split : bytes = protocolVersion :: (encodeAll frames ++ tail)
  valid : ∀ frame ∈ frames, frame.Valid server
  longest : ∀ (others : List Frame) (rest : Bytes), (∀ frame ∈ others, frame.Valid server) →
    bytes = protocolVersion :: (encodeAll others ++ rest) → others <+: frames

theorem parsed_exists (server : Server) (ending : StreamEnd) {bytes : Bytes}
    (version : bytes.head? = some protocolVersion) :
    ∃ frames tail result, Parsed server bytes frames tail ∧ Ends server ending tail result := by
  obtain ⟨rest, rfl⟩ := List.head?_eq_some_iff.mp version
  obtain ⟨frames, tail, result, valid, rfl, ends⟩ := parse_exists server ending rest
  refine ⟨frames, tail, result, ⟨rfl, valid, ?_⟩, ends⟩
  intro others rest fits split
  exact longest_of_ends ends valid fits (List.cons.inj split).2.symm

theorem Ends.transfer {server : Server} {ending : StreamEnd} {tail : Bytes} {result : Except IoError Unit}
    (ends : Ends server ending tail result) (other : StreamEnd) : ∃ last, Ends server other tail last := by
  cases ends with
  | boundary => exact ⟨_, .boundary⟩
  | rejected rejected => exact ⟨_, .rejected rejected⟩
  | truncated truncated => exact ⟨_, .truncated truncated⟩

theorem Ends.ok_iff {server : Server} {ending : StreamEnd} {tail : Bytes} {result : Except IoError Unit}
    (ends : Ends server ending tail result) : result = .ok () ↔ tail = [] := by
  constructor
  · rintro rfl
    cases ends
    rfl
  · rintro rfl
    exact ends.unique .boundary

theorem Ends.error_iff {server : Server} {ending : StreamEnd} {tail : Bytes} {result : Except IoError Unit}
    (ends : Ends server ending tail result) (error : IoError) :
    result = .error error ↔ Rejected server tail error ∨ Truncated server tail ∧ error = ending.error := by
  constructor
  · rintro rfl
    cases ends with
    | rejected rejected => exact .inl rejected
    | truncated truncated => exact .inr ⟨truncated, rfl⟩
  · rintro (rejected | ⟨truncated, rfl⟩)
    · exact ends.unique (.rejected rejected)
    · exact ends.unique (.truncated truncated)

theorem handleConnection_extends {server : Server} {frames : List Frame} (valid : ∀ frame ∈ frames, frame.Valid server)
    {r other : Reader} {tail more : Bytes} {error : IoError}
    (split : r.bytes = protocolVersion :: (encodeAll frames ++ tail)) (rejected : Rejected server tail error)
    (longer : other.bytes = r.bytes ++ more) : handleConnection server other = handleConnection server r := by
  have shape : other.bytes = protocolVersion :: (encodeAll frames ++ (tail ++ more)) := by
    rw [longer, split, List.cons_append, List.append_assoc]
  rw [handleConnection_of_frames valid split (.rejected rejected),
    handleConnection_of_frames valid shape (.rejected (rejected.append more))]

theorem handleConnection_chunking (server : Server) {r other : Reader} (same : other.bytes = r.bytes)
    (ending : other.ending = r.ending) : handleConnection server other = handleConnection server r := by
  by_cases version : r.bytes.head? = some protocolVersion
  · obtain ⟨frames, tail, result, parsed, ends⟩ := parsed_exists server r.ending version
    rw [handleConnection_of_frames parsed.valid parsed.split ends,
      handleConnection_of_frames parsed.valid (same.trans parsed.split) (by rw [ending]; exact ends)]
  · rw [handleConnection_of_version version, handleConnection_of_version (same ▸ version), same, ending]

/-- The connection accepts exactly its frame grammar, however its bytes arrive. -/
theorem handleConnection_parses_grammar (server : Server) (r : Reader) :
    (r.bytes.head? ≠ some protocolVersion →
      handleConnection server r = ([], some (.error (versionError r.bytes r.ending)))) ∧
    (r.bytes.head? = some protocolVersion → ∃ frames tail result, Parsed server r.bytes frames tail ∧
      handleConnection server r = (effects server 0 frames, some result) ∧
      (result = .ok () ↔ tail = []) ∧
      (∀ error, result = .error error ↔
        Rejected server tail error ∨ Truncated server tail ∧ error = r.ending.error) ∧
      -- Nothing after the first malformed frame has any effect.
      (∀ error, Rejected server tail error → ∀ (other : Reader) (more : Bytes), other.bytes = r.bytes ++ more →
        handleConnection server other = handleConnection server r)) ∧
    -- The chunks do not matter, only the bytes and how the stream ends.
    (∀ other : Reader, other.bytes = r.bytes → other.ending = r.ending →
      handleConnection server other = handleConnection server r) ∧
    (∀ other : Reader, other.bytes = r.bytes →
      (handleConnection server other).1 = (handleConnection server r).1 ∧
      ((handleConnection server other).2 = some (.ok ()) ↔ (handleConnection server r).2 = some (.ok ()))) := by
  refine ⟨handleConnection_of_version, ?_, fun other => handleConnection_chunking server, ?_⟩
  · intro version
    obtain ⟨frames, tail, result, parsed, ends⟩ := parsed_exists server r.ending version
    refine ⟨frames, tail, result, parsed, handleConnection_of_frames parsed.valid parsed.split ends, ends.ok_iff,
      ends.error_iff, ?_⟩
    intro error rejected other more longer
    exact handleConnection_extends parsed.valid parsed.split rejected longer
  · intro other same
    by_cases version : r.bytes.head? = some protocolVersion
    · obtain ⟨frames, tail, result, parsed, ends⟩ := parsed_exists server r.ending version
      obtain ⟨last, lastly⟩ := ends.transfer other.ending
      rw [handleConnection_of_frames parsed.valid parsed.split ends,
        handleConnection_of_frames parsed.valid (same.trans parsed.split) lastly]
      refine ⟨rfl, ?_⟩
      rw [Option.some.injEq, Option.some.injEq, ends.ok_iff, lastly.ok_iff]
    · rw [handleConnection_of_version version, handleConnection_of_version (same ▸ version)]
      simp

end Myrmidon.Network
