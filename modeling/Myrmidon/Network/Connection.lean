import Myrmidon.Data.Encoding
import Myrmidon.Network.Reader

namespace Myrmidon.Network

open Data

def protocolVersion : UInt8 := 1

inductive MessageType where
  | user
  | resolve
  | ping
  deriving DecidableEq

namespace MessageType

def toByte : MessageType → UInt8
  | .user => 0
  | .resolve => 1
  | .ping => 2

def ofByte (byte : UInt8) : Option MessageType :=
  if byte = 0 then some .user else if byte = 1 then some .resolve else if byte = 2 then some .ping else none

theorem ofByte_toByte (kind : MessageType) : ofByte kind.toByte = some kind := by cases kind <;> rfl

theorem eq_toByte_of_ofByte {byte : UInt8} {kind : MessageType} (known : ofByte byte = some kind) :
    byte = kind.toByte := by
  unfold ofByte at known
  split at known
  · cases known; assumption
  · split at known
    · cases known; assumption
    · split at known
      · cases known; assumption
      · cases known

end MessageType

/-- The part of a runtime that a connection uses: its limits, and its registry
    as the frame with the given number finds it. -/
structure Server where
  maxPayload : Nat
  maxNameLen : Nat
  resolve : Nat → String → Option Pid

/-- What the connection does to the outside: `Runtime::send`, whose result it
    ignores, and bytes written back to the peer. -/
inductive Effect where
  | send (pid : Pid) (message : Message)
  | write (bytes : Bytes)
  deriving DecidableEq

def invalidData (message : String) : IoError := ⟨.invalidData, message⟩

def readFrame (server : Server) (served : Nat) (kind : MessageType) (reader : Reader) :
    Except IoError (Effect × Reader) :=
  match kind with
  | .user =>
    match reader.readExactWithTimeout 12 with
    | .error error => .error error
    | .ok (metaBytes, reader) =>
      let pid := BitVec.ofNat 64 (decodeBE (metaBytes.take 8))
      let len := decodeBE (metaBytes.drop 8)
      if server.maxPayload < len then .error (invalidData "payload too large")
      else
        match reader.readExactWithTimeout len with
        | .error error => .error error
        | .ok (data, reader) => .ok (.send pid (.user data), reader)
  | .resolve =>
    match reader.readExactWithTimeout 4 with
    | .error error => .error error
    | .ok (lenBuf, reader) =>
      let len := decodeBE lenBuf
      if server.maxNameLen < len then .error (invalidData "resolve name too long")
      else
        match reader.readExactWithTimeout len with
        | .error error => .error error
        | .ok (nameVec, reader) =>
          match utf8Decode nameVec with
          | none => .error (invalidData "invalid utf8 in resolve request")
          | some name => .ok (.write (encodeBE 8 ((server.resolve served name).getD 0).toNat), reader)
  | .ping => .ok (.write [3], reader)

inductive Turn where
  | next (effect : Effect) (reader : Reader)
  | closed (result : Except IoError Unit)

def turn (server : Server) (served : Nat) (reader : Reader) : Turn :=
  match reader.readExactWithTimeout 1 with
  | .error _ => .closed (.ok ())
  | .ok (header, reader) =>
    match header.head?.bind MessageType.ofByte with
    | none => .closed (.error (invalidData "unknown message type"))
    | some kind =>
      match readFrame server served kind reader with
      | .error error => .closed (.error error)
      | .ok (effect, reader) => .next effect reader

/-- The connection loop, for at most `turns` frames; `served` counts the frames so far. -/
def serve (server : Server) : Nat → Nat → Reader → List Effect × Option (Except IoError Unit)
  | 0, _, _ => ([], none)
  | turns + 1, served, reader =>
    match turn server served reader with
    | .closed result => ([], some result)
    | .next effect reader =>
      let (effects, result) := serve server turns (served + 1) reader
      (effect :: effects, result)

/-- Each turn reads at least its header byte, so the stream bounds the turns. -/
def handleConnection (server : Server) (reader : Reader) : List Effect × Option (Except IoError Unit) :=
  match reader.readExactWithTimeout 1 with
  | .error error => ([], some (.error error))
  | .ok (version, reader) =>
    if version.head? = some protocolVersion then serve server (reader.bytes.length + 1) 0 reader
    else ([], some (.error (invalidData "protocol version mismatch")))

end Myrmidon.Network
