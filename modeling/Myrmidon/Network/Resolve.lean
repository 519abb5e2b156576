import Myrmidon.Network.Client
import Myrmidon.Registry.Model

namespace Myrmidon.Network

open Data

/-- The part of a runtime that resolving names uses. -/
structure Node where
  maxPayload : Nat
  maxNameLen : Nat
  registry : NameRegistry

/-- The node as its connections see it, while its registry stays as it is. -/
def Node.server (node : Node) : Server := ⟨node.maxPayload, node.maxNameLen, fun _ => node.registry.resolve⟩

/-- What the server has written back, which is what the client can read. -/
def replies (effects : List Effect) : Bytes :=
  effects.flatMap fun
    | .write bytes => bytes
    | .send _ _ => []

/-- What `resolve_remote` writes, and its result when `reply` is what it can then read. -/
def resolveRemote (client : Node) (name : String) (reply : Reader) : Bytes × Except IoError Pid :=
  match resolveRequest client.maxNameLen name with
  | (written, .error error) => (written, .error error)
  | (written, .ok ()) =>
    match reply.readExactWithTimeout 8 with
    | .error error => (written, .error error)
    | .ok (pidBuf, _) => (written, .ok (BitVec.ofNat 64 (decodeBE pidBuf)))

/-- Pid 0 is the answer for a name that was not found. -/
def resolveRemoteAsync (client : Node) (name : String) (reply : Reader) : Option Pid :=
  match (resolveRemote client name reply).2 with
  | .ok pid => if pid = 0 then none else some pid
  | .error _ => none

theorem resolveRequest_of_le {maxNameLen : Nat} {name : String} (within : (utf8Bytes name).length ≤ maxNameLen) :
    resolveRequest maxNameLen name = (protocolVersion :: resolveWire name, .ok ()) :=
  if_neg (Nat.not_lt.mpr within)

theorem resolveWire_eq_encode {name : String} (small : (utf8Bytes name).length < 2^32) :
    resolveWire name = (Frame.resolve name).encode := by
  rw [resolveWire, asU32_of_lt small, Frame.encode]

/-- The server answers a request with the eight bytes of the pid, however the request arrives. -/
theorem replies_resolve {server : Node} {name : String} (small : (utf8Bytes name).length < 2^32)
    (within : (utf8Bytes name).length ≤ server.maxNameLen) {request : Reader}
    (sent : request.bytes = protocolVersion :: resolveWire name) :
    replies (handleConnection server.server request).1 =
      encodeBE 8 ((server.registry.resolve name).getD 0).toNat := by
  have valid : ∀ frame ∈ [Frame.resolve name], frame.Valid server.server := by
    rw [List.forall_mem_singleton]
    exact ⟨within, small⟩
  have split : request.bytes = protocolVersion :: (encodeAll [Frame.resolve name] ++ []) := by
    rw [sent, resolveWire_eq_encode small, encodeAll, List.flatMap_singleton, List.append_nil]
  rw [handleConnection_of_frames valid split .boundary]
  exact List.append_nil _

theorem resolveRemote_written {client : Node} {name : String} (within : (utf8Bytes name).length ≤ client.maxNameLen)
    (reply : Reader) : (resolveRemote client name reply).1 = protocolVersion :: resolveWire name := by
  rw [resolveRemote, resolveRequest_of_le within]
  dsimp only
  split <;> rfl

/-- The client gets back the pid that was encoded, however the reply arrives. -/
theorem resolveRemote_of_reply {client : Node} {name : String} (within : (utf8Bytes name).length ≤ client.maxNameLen)
    {reply : Reader} {pid : Pid} (replied : reply.bytes = encodeBE 8 pid.toNat) :
    (resolveRemote client name reply).2 = .ok pid := by
  have whole : reply.bytes = encodeBE 8 pid.toNat ++ [] := by rw [replied, List.append_nil]
  obtain ⟨rest, done, -, -⟩ := readExact_width (length_encodeBE 8 pid.toNat) whole
  have bound : pid.toNat < 256 ^ 8 := pid.isLt
  simp only [resolveRemote, resolveRequest_of_le within, done]
  rw [decodeBE_encodeBE_of_lt bound, BitVec.ofNat_toNat, BitVec.setWidth_eq]

/-- Resolving a name over the network gives what the server's registry gives, unless the name stands for
    pid 0 there. Each side reads what the other has written, cut in any way; what comes after the request
    is open, as the client keeps its side open until it has the reply. -/
theorem resolve_remote_agrees {client server : Node} {name : String} {request reply : Reader}
    (small : (utf8Bytes name).length < 2^32) (accepted : (utf8Bytes name).length ≤ client.maxNameLen)
    (within : (utf8Bytes name).length ≤ server.maxNameLen) (nonzero : server.registry.resolve name ≠ some 0)
    (sent : request.bytes = (resolveRemote client name reply).1)
    (replied : reply.bytes = replies (handleConnection server.server request).1) :
    resolveRemoteAsync client name reply = server.registry.resolve name := by
  rw [resolveRemote_written accepted] at sent
  rw [replies_resolve small within sent] at replied
  rw [resolveRemoteAsync, resolveRemote_of_reply accepted replied]
  cases found : server.registry.resolve name with
  | none => rfl
  | some pid =>
    have real : pid ≠ 0 := by
      rintro rfl
      exact nonzero found
    exact if_neg real

def directory : Node := ⟨1024, 1024, (NameRegistry.new.register "db" 3).register "db" 7⟩

theorem resolve_remote_agrees_cut :
    resolveRemoteAsync directory "db"
      ⟨[⟨[0, 0, 0], by decide⟩, ⟨[0, 0, 0, 0], by decide⟩, ⟨[7], by decide⟩], .silent⟩ = some 7 ∧
    resolveRemoteAsync directory "web" ⟨[⟨[0, 0, 0, 0, 0, 0, 0, 0], by decide⟩], .closed⟩ = none := by
  have known := @resolve_remote_agrees directory directory "db"
    ⟨[⟨[1], by decide⟩, ⟨[1, 0, 0], by decide⟩, ⟨[0, 2, 100, 98], by decide⟩], .silent⟩
    ⟨[⟨[0, 0, 0], by decide⟩, ⟨[0, 0, 0, 0], by decide⟩, ⟨[7], by decide⟩], .silent⟩
    (by decide) (by decide) (by decide) (by decide) (by decide) (by decide)
  have unknown := @resolve_remote_agrees directory directory "web"
    ⟨[⟨[1, 1, 0, 0, 0, 3], by decide⟩, ⟨[119, 101, 98], by decide⟩], .closed⟩
    ⟨[⟨[0, 0, 0, 0, 0, 0, 0, 0], by decide⟩], .closed⟩
    (by decide) (by decide) (by decide) (by decide) (by decide) (by decide)
  exact ⟨known, unknown⟩

end Myrmidon.Network
