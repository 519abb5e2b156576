import Myrmidon.Network.Parsing

namespace Myrmidon.Network

open Data

/-- A piece of a stream, and for how long nothing had come before it. -/
structure Arrival where
  gapMs : Nat
  chunk : Chunk

/-- What comes to a socket in time. `closing` is the time from the last piece to
    the end of the stream; an end that never comes has none. -/
structure TimedStream where
  arrivals : List Arrival
  closing : Option Nat

namespace TimedStream

def bytes (s : TimedStream) : Bytes := (s.arrivals.map fun arrival => arrival.chunk.val).flatten

def hearFrom (ioTimeoutMs : Nat) (closing : Option Nat) : List Arrival → Reader
  | [] => ⟨[], if closing.any (· ≤ ioTimeoutMs) then .closed else .silent⟩
  | arrival :: arrivals =>
    if arrival.gapMs ≤ ioTimeoutMs then
      let later := hearFrom ioTimeoutMs closing arrivals
      { later with chunks := arrival.chunk :: later.chunks }
    else ⟨[], .silent⟩

/-- What the reads of a connection get before one of them times out. What has
    come is read before more comes, so a read waits from one piece to the next. -/
def hear (ioTimeoutMs : Nat) (s : TimedStream) : Reader := hearFrom ioTimeoutMs s.closing s.arrivals

/-- The stream never pauses for longer than a read waits. -/
def Steady (ioTimeoutMs : Nat) (s : TimedStream) : Prop := ∀ arrival ∈ s.arrivals, arrival.gapMs ≤ ioTimeoutMs

theorem hear_bytes (ioTimeoutMs : Nat) (s : TimedStream) : ∃ missed, s.bytes = (s.hear ioTimeoutMs).bytes ++ missed ∧
    (missed = [] ↔ s.Steady ioTimeoutMs) := by
  obtain ⟨arrivals, closing⟩ := s
  simp only [bytes, hear, Steady]
  induction arrivals with
  | nil => exact ⟨[], by simp [hearFrom, Reader.bytes], by simp⟩
  | cons arrival arrivals ih =>
    obtain ⟨missed, split, steady⟩ := ih
    unfold hearFrom
    by_cases prompt : arrival.gapMs ≤ ioTimeoutMs
    · refine ⟨missed, ?_, ?_⟩
      · rw [if_pos prompt, List.map_cons, List.flatten_cons, split]
        simp [Reader.bytes]
      · rw [List.forall_mem_cons, steady]
        simp [prompt]
    · rw [if_neg prompt]
      refine ⟨_, rfl, ?_⟩
      rw [List.forall_mem_cons]
      simp [prompt, arrival.chunk.property]

end TimedStream

/-- How many of the frames lie whole within that many bytes. -/
def wholeFrames : Nat → List Frame → Nat
  | _, [] => 0
  | room, frame :: frames =>
    if frame.encode.length ≤ room then wholeFrames (room - frame.encode.length) frames + 1 else 0

theorem wholeFrames_le (room : Nat) (frames : List Frame) : wholeFrames room frames ≤ frames.length := by
  induction frames generalizing room with
  | nil => exact Nat.le_refl _
  | cons frame frames ih =>
    unfold wholeFrames
    split
    · exact Nat.succ_le_succ (ih _)
    · exact Nat.zero_le _

theorem wholeFrames_eq_length_iff {frames : List Frame} {room : Nat} :
    wholeFrames room frames = frames.length ↔ (encodeAll frames).length ≤ room := by
  induction frames generalizing room with
  | nil => simp [wholeFrames, encodeAll]
  | cons frame frames ih =>
    have longer : (encodeAll (frame :: frames)).length = frame.encode.length + (encodeAll frames).length := by
      rw [encodeAll, encodeAll, List.flatMap_cons, List.length_append]
    unfold wholeFrames
    rw [longer, List.length_cons]
    by_cases fits : frame.encode.length ≤ room
    · rw [if_pos fits, Nat.add_right_cancel_iff, ih]
      omega
    · rw [if_neg fits]
      omega

/-- A frame that was cut off is no frame, and is not rejected either. -/
theorem ends_of_cut {server : Server} {frame : Frame} (valid : frame.Valid server) {tail rest : Bytes}
    (split : frame.encode = tail ++ rest) (cut : rest ≠ []) (ending : StreamEnd) :
    ∃ result, Ends server ending tail result := by
  obtain ⟨frames, left, result, others, parsed, ends⟩ := parse_exists server ending tail
  cases frames with
  | nil =>
    rw [encodeAll, List.flatMap_nil, List.nil_append] at parsed
    subst parsed
    exact ⟨result, ends⟩
  | cons first frames =>
    have same : first.encode ++ (encodeAll frames ++ left ++ rest) = frame.encode ++ [] := by
      rw [split, parsed, encodeAll_cons_append]
      simp
    have empty := (Frame.encode_cancel (others first List.mem_cons_self) valid same).2
    have gone := (List.append_eq_nil_iff.mp empty).2
    exact absurd gone cut

theorem take_frames {server : Server} {frames : List Frame} (valid : ∀ frame ∈ frames, frame.Valid server) (room : Nat)
    (ending : StreamEnd) :
    ∃ tail result, (encodeAll frames).take room = encodeAll (frames.take (wholeFrames room frames)) ++ tail ∧
      Ends server ending tail result := by
  induction frames generalizing room with
  | nil => exact ⟨[], .ok (), by simp [encodeAll], .boundary⟩
  | cons frame frames ih =>
    obtain ⟨mine, others⟩ := List.forall_mem_cons.mp valid
    have bytes : encodeAll (frame :: frames) = frame.encode ++ encodeAll frames := by
      rw [encodeAll, encodeAll, List.flatMap_cons]
    unfold wholeFrames
    by_cases fits : frame.encode.length ≤ room
    · obtain ⟨tail, result, split, ends⟩ := ih others (room - frame.encode.length)
      refine ⟨tail, result, ?_, ends⟩
      rw [if_pos fits, List.take_succ_cons, encodeAll_cons_append, ← split, bytes, List.take_append,
        List.take_of_length_le fits]
    · have short : room < frame.encode.length := Nat.not_le.mp fits
      have cut : frame.encode.drop room ≠ [] := by
        intro empty
        have bound := List.drop_eq_nil_iff.mp empty
        omega
      obtain ⟨result, ends⟩ := ends_of_cut mine (List.take_append_drop room frame.encode).symm cut ending
      refine ⟨frame.encode.take room, result, ?_, ends⟩
      rw [if_neg fits, List.take_zero, bytes, List.take_append_of_le_length (Nat.le_of_lt short)]
      rfl

theorem effects_length (server : Server) (served : Nat) (frames : List Frame) :
    (effects server served frames).length = frames.length := by
  induction frames generalizing served with
  | nil => rfl
  | cons frame frames ih => simp [effects, ih]

theorem wholeFrames_zero (frames : List Frame) : wholeFrames 0 frames = 0 := by
  cases frames with
  | nil => rfl
  | cons frame frames =>
    have nonzero := List.length_pos_iff.mpr frame.encode_ne_nil
    unfold wholeFrames
    rw [if_neg (by omega)]

/-- What the connection made of the frames of which it heard a part. -/
structure Heard (server : Server) (frames : List Frame) (r : Reader) : Prop where
  effects : (handleConnection server r).1 =
    effects server 0 (frames.take (wholeFrames (r.bytes.length - 1) frames))
  ok : (handleConnection server r).2 = some (.ok ()) ↔
    r.bytes = protocolVersion :: encodeAll (frames.take (wholeFrames (r.bytes.length - 1) frames))

theorem heard_of_prefix {server : Server} {frames : List Frame} (valid : ∀ frame ∈ frames, frame.Valid server)
    {r : Reader} {missed : Bytes} (split : protocolVersion :: encodeAll frames = r.bytes ++ missed) :
    Heard server frames r := by
  cases bytes : r.bytes with
  | nil =>
    have silent : handleConnection server r = ([], some (.error (versionError r.bytes r.ending))) :=
      handleConnection_of_version (by simp [bytes])
    constructor
    · rw [silent, bytes, List.length_nil, wholeFrames_zero]
      rfl
    · simp [silent, bytes]
  | cons version rest =>
    rw [bytes, List.cons_append, List.cons.injEq] at split
    obtain ⟨rfl, split⟩ := split
    have part : (encodeAll frames).take rest.length = rest := by rw [split, List.take_left]
    obtain ⟨tail, result, whole, ends⟩ := take_frames valid rest.length r.ending
    rw [part] at whole
    have room : r.bytes.length - 1 = rest.length := by rw [bytes, List.length_cons, Nat.add_sub_cancel]
    have some_valid : ∀ frame ∈ frames.take (wholeFrames rest.length frames), frame.Valid server :=
      fun frame member => valid frame (List.mem_of_mem_take member)
    have handled := handleConnection_of_frames some_valid (by rw [bytes, ← whole]) ends
    constructor
    · rw [handled, room]
    · rw [handled, room, bytes, Option.some.injEq, ends.ok_iff, List.cons.injEq]
      constructor
      · intro empty
        rw [empty, List.append_nil] at whole
        exact ⟨rfl, whole⟩
      · rintro ⟨-, same⟩
        have lengths := congrArg List.length (whole.symm.trans same)
        rw [List.length_append] at lengths
        exact List.eq_nil_of_length_eq_zero (by omega)

/-- Two messages with six seconds between them, over a connection that waits for five. -/
def twoMessages : TimedStream :=
  let first : Frame := .user 7 [1]
  let second : Frame := .user 7 [2]
  ⟨[⟨0, ⟨protocolVersion :: first.encode, by simp⟩⟩, ⟨6000, ⟨second.encode, second.encode_ne_nil⟩⟩], none⟩

end Myrmidon.Network
