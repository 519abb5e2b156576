import Myrmidon.Network.MonitorTrace
import Myrmidon.Network.Resolve

namespace Myrmidon.Network

open Data Slab

/-- What a heartbeat writes. -/
def probeWire : Bytes := [protocolVersion, MessageType.ping.toByte]

/-- A heartbeat whose last read meets `answer`. -/
def heartbeat (connected versionSent pingSent : Bool) (answer : Reader) : Probe :=
  ⟨connected, versionSent, pingSent,
    match answer.readExactWithTimeout 1 with
    | .error _ => none
    | .ok (pong, _) => pong.head?.map UInt8.toBitVec⟩

/-- The server heard a part of what the heartbeat wrote, and a part of what it wrote back came to the heartbeat. -/
structure Exchange (server : Server) (heard answer : Reader) : Prop where
  sent : heard.bytes <+: probeWire
  answered : answer.bytes <+: replies (handleConnection server heard).1

theorem heartbeat_reply {answer : Reader} (within : answer.bytes <+: [3]) (connected versionSent pingSent : Bool) :
    (heartbeat connected versionSent pingSent answer).reply = some 3 ↔ answer.bytes ≠ [] := by
  rcases List.prefix_cons_iff.mp within with empty | ⟨rest, filled, last⟩
  · have short : answer.bytes.length < 1 := by simp [empty]
    simp [heartbeat, Reader.readExact_short short, empty]
  · rw [List.prefix_nil.mp last] at filled
    have fits : 1 ≤ answer.bytes.length := by simp [filled]
    obtain ⟨left, done, -, -⟩ := Reader.readExact_ok fits
    simp [heartbeat, done, filled]

theorem replies_of_probe {server : Server} {heard : Reader} (whole : heard.bytes = probeWire) :
    replies (handleConnection server heard).1 = [3] := by
  have valid : ∀ frame ∈ [Frame.ping], frame.Valid server := by simp [Frame.Valid]
  have split : heard.bytes = protocolVersion :: (encodeAll [.ping] ++ []) := whole
  rw [handleConnection_of_frames valid split .boundary]
  rfl

theorem replies_of_cut {server : Server} {heard : Reader} (part : heard.bytes <+: probeWire)
    (cut : heard.bytes ≠ probeWire) : replies (handleConnection server heard).1 = [] := by
  rcases List.prefix_cons_iff.mp part with empty | ⟨rest, filled, last⟩
  · rw [handleConnection_of_version (by simp [empty])]
    rfl
  · rcases List.prefix_cons_iff.mp last with empty | ⟨more, byte, none⟩
    · have split : heard.bytes = protocolVersion :: (encodeAll [] ++ []) := by rw [filled, empty]; rfl
      have valid : ∀ frame ∈ ([] : List Frame), frame.Valid server := by simp
      rw [handleConnection_of_frames valid split .boundary]
      rfl
    · rw [List.prefix_nil.mp none] at byte
      rw [byte] at filled
      exact absurd filled cut

/-- A heartbeat to a node of this protocol succeeds just if the node heard both
    bytes and its pong came back. -/
theorem heartbeat_up_iff {server : Server} {heard answer : Reader} (exchange : Exchange server heard answer)
    (connected versionSent pingSent : Bool) :
    (heartbeat connected versionSent pingSent answer).isUp = true ↔
      connected = true ∧ versionSent = true ∧ pingSent = true ∧ heard.bytes = probeWire ∧ answer.bytes ≠ [] := by
  have reply : (heartbeat connected versionSent pingSent answer).reply = some 3 ↔
      heard.bytes = probeWire ∧ answer.bytes ≠ [] := by
    by_cases whole : heard.bytes = probeWire
    · have answered := exchange.answered
      rw [replies_of_probe whole] at answered
      rw [heartbeat_reply answered]
      simp [whole]
    · have answered := exchange.answered
      rw [replies_of_cut exchange.sent whole] at answered
      rw [heartbeat_reply (answered.trans (List.nil_prefix)), List.prefix_nil.mp answered]
      simp [whole]
  simp only [Probe.isUp, Bool.and_eq_true, beq_iff_eq, reply, and_assoc]
  rfl

/-- A heartbeat with what came of it at both ends. -/
structure Beat where
  connected : Bool
  versionSent : Bool
  pingSent : Bool
  server : Server
  heard : Reader
  answer : Reader
  exchange : Exchange server heard answer

namespace Beat

def probe (beat : Beat) : Probe := heartbeat beat.connected beat.versionSent beat.pingSent beat.answer

/-- The exchange was neither cut short nor too slow. -/
def Whole (beat : Beat) : Prop :=
  beat.connected = true ∧ beat.versionSent = true ∧ beat.pingSent = true ∧ beat.heard.bytes = probeWire ∧
    beat.answer.bytes ≠ []

instance (beat : Beat) : Decidable beat.Whole :=
  inferInstanceAs (Decidable (beat.connected = true ∧ beat.versionSent = true ∧ beat.pingSent = true ∧
    beat.heard.bytes = probeWire ∧ beat.answer.bytes ≠ []))

theorem probe_isUp (beat : Beat) : beat.probe.isUp = decide beat.Whole := by
  rw [Bool.eq_iff_iff, decide_eq_true_iff]
  exact heartbeat_up_iff beat.exchange _ _ _

end Beat

/-- One turn of a monitor, with the local runtime at the check and at a verdict. -/
structure BeatRound where
  checked : Runtime
  beat : Beat
  found : Runtime

def BeatRound.round (turn : BeatRound) : Round := ⟨turn.checked, turn.beat.probe, turn.found⟩

theorem upsOf_beats (turns : List BeatRound) :
    upsOf (turns.map BeatRound.round) = turns.map fun turn => decide turn.beat.Whole := by
  rw [upsOf, List.map_map]
  apply List.map_congr_left
  exact fun turn _ => turn.beat.probe_isUp

/-- A monitor of a valid pid comes to its verdict just in a run of failures of the length of its threshold. -/
theorem loop_down_iff {pid : Pid} (intervalMs : Nat) (factor maxBackoff : ℚ) (threshold : Nat) {rounds : List Round}
    (valid : ∀ round ∈ rounds, round.checked.slab.isValid pid = true) :
    (∃ found, (Monitor.new intervalMs factor maxBackoff threshold).loop pid rounds = .down found) ↔
      List.replicate (max threshold 1) false <:+: upsOf rounds := by
  have checked : ∀ i : Nat, ∀ round ∈ rounds[i]?, round.checked.slab.isValid pid = true :=
    fun i round present => valid round (List.mem_of_getElem? present)
  constructor
  · rintro ⟨found, down⟩
    by_contra unbroken
    have short : ∀ m < rounds.length, trailing (upsOf (rounds.take (m + 1))) < max threshold 1 := by
      intro m _
      by_contra long
      have suffix := (replicate_suffix_iff _ _).mpr (Nat.not_lt.mp long)
      have initial : upsOf (rounds.take (m + 1)) <+: upsOf rounds := (List.take_prefix _ _).map _
      exact unbroken (suffix.isInfix.trans initial.isInfix)
    obtain ⟨monitor, same, -, -⟩ := loop_drop (.new intervalMs factor maxBackoff threshold) rfl rounds.length
      (Nat.le_refl _) (fun i _ => checked i) short
    rw [same, List.drop_length, Monitor.loop] at down
    cases down
  · intro consecutive
    obtain ⟨n, run⟩ := exists_firstRun (by omega) consecutive
    obtain ⟨round, -, down⟩ := run.loop_down intervalMs factor maxBackoff fun i _ => checked i
    exact ⟨round.found, down⟩

/-- What a monitor does as long as its node is healthy: it keeps to its base interval. -/
structure Monitor.Calm (pid : Pid) (monitor : Monitor) (rounds : List Round) : Prop where
  spared : ∀ found, monitor.loop pid rounds ≠ .down found
  steady : ∀ event ∈ monitor.trace pid rounds, event = .slept monitor.base ∨ event = .probed true

theorem Monitor.calm_of_up (pid : Pid) {monitor : Monitor} (rested : monitor.curr = monitor.base) {rounds : List Round}
    (up : ∀ round ∈ rounds, round.probe.isUp = true) : monitor.Calm pid rounds := by
  induction rounds generalizing monitor with
  | nil => exact ⟨fun found => MonitorEnd.noConfusion, by simp [trace]⟩
  | cons round rest ih =>
    obtain ⟨mine, others⟩ := List.forall_mem_cons.mp up
    have after : monitor.recover.Calm pid rest := ih rfl others
    obtain ⟨spared, steady⟩ := after
    cases valid : round.checked.slab.isValid pid with
    | false => exact ⟨by simp [loop, valid], by simp [trace, valid]⟩
    | true =>
      constructor
      · simpa [loop, valid, mine] using spared
      · simp only [trace, valid, mine, Bool.not_true, Bool.false_eq_true, if_false, if_true, List.forall_mem_cons]
        exact ⟨.inl (congrArg _ rested), .inr trivial, steady⟩

def quietServer : Server := ⟨1024, 1024, fun _ _ => none⟩

/-- The server reads the two bytes one by one. -/
def splitProbe : Reader := ⟨[⟨[1], by simp⟩, ⟨[2], by simp⟩], .closed⟩

def pong : Reader := ⟨[⟨[3], by simp⟩], .closed⟩

theorem exchange_splitProbe (answer : Reader) (within : answer.bytes <+: [3]) :
    Exchange quietServer splitProbe answer := by
  have whole : splitProbe.bytes = probeWire := rfl
  exact ⟨whole ▸ List.prefix_rfl, by rwa [replies_of_probe whole]⟩

/-- Two heartbeats; the answer to the second does not come. -/
def secondUnanswered : List BeatRound :=
  let lost : Reader := ⟨[], .silent⟩
  [⟨stoppedLocally, ⟨true, true, true, quietServer, splitProbe, pong, exchange_splitProbe pong List.prefix_rfl⟩,
      stoppedLocally⟩,
    ⟨stoppedLocally, ⟨true, true, true, quietServer, splitProbe, lost, exchange_splitProbe lost List.nil_prefix⟩,
      stoppedLocally⟩]

end Myrmidon.Network
