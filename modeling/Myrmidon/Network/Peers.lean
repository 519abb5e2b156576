import Myrmidon.Network.Client
import Myrmidon.Transition.Interleaving

namespace Myrmidon.Network

open Data Transition

/-- A queued frame, labelled with the call that queued it. -/
structure Envelope where
  call : Nat
  frame : Bytes

/-- Where the writer task of a connection is. It owns the receiving end of the
    queue until it is finished. -/
inductive Writer where
  | receiving
  | writing (left : Bytes)
  | leaving
  | closing
  | finished
  deriving DecidableEq

/-- A connection of the pool; `accepted` keeps every frame its queue ever took. -/
structure Connection where
  addr : String
  writer : Writer
  queue : List Envelope
  senders : Nat
  written : Bytes
  accepted : List Envelope

structure Peers where
  pool : String → Option Nat
  connections : List Connection

namespace Peers

def empty : Peers := ⟨fun _ => none, []⟩

def modify (peers : Peers) (id : Nat) (change : Connection → Connection) : Peers :=
  { peers with connections := peers.connections.modify id change }

def cloneSender (peers : Peers) (id : Nat) : Peers :=
  peers.modify id fun connection => { connection with senders := connection.senders + 1 }

def dropSender (peers : Peers) (id : Nat) : Peers :=
  peers.modify id fun connection => { connection with senders := connection.senders - 1 }

def dropSenders (peers : Peers) (ids : List Nat) : Peers := ids.foldl dropSender peers

/-- Taking an entry out of the pool drops the sender in it. -/
def remove (peers : Peers) (addr : String) : Peers :=
  match peers.pool addr with
  | none => peers
  | some id => { peers.dropSender id with pool := Function.update peers.pool addr none }

def insert (peers : Peers) (addr : String) (id : Nat) : Peers :=
  let peers := (peers.remove addr).cloneSender id
  { peers with pool := Function.update peers.pool addr (some id) }

/-- A stream with the version byte written, and its queue with one sender. Its
    writer task starts a little later, but could do nothing before that: the
    queue is empty and not closed. -/
def connected (peers : Peers) (addr : String) : Peers :=
  { peers with connections := peers.connections ++ [⟨addr, .receiving, [], 1, [protocolVersion], []⟩] }

end Peers

structure Request where
  addr : String
  pid : Pid
  data : Bytes
  maxPayload : Nat

inductive Stage where
  | check
  | lookup
  | connect
  | version
  | insert (id : Nat)
  | send (id : Nat)
  | evict
  | returned (result : Except IoError Unit)

/-- A `send_remote` in progress; `held` are the senders it has to drop when it returns. -/
structure Call where
  request : Request
  retried : Bool
  held : List Nat
  stage : Stage

namespace Call

def isNew (call : Call) : Bool :=
  match call.retried, call.held, call.stage with
  | false, [], .check => true
  | _, _, _ => false

def frame (call : Call) : Bytes := userWire call.request.pid call.request.data

def finish (call : Call) (peers : Peers) (result : Except IoError Unit) : Peers × Call :=
  (peers.dropSenders call.held, { call with held := [], stage := .returned result })

end Call

def queueCapacity : Nat := 1024

inductive Io where
  | done
  | failed (error : IoError)

/-- One step of `send_remote`, with `get_or_connect_peer` inlined. -/
def Call.advance (self : Nat) (peers : Peers) (call : Call) (io : Io) : Option (Peers × Call) :=
  match call.stage with
  | .check =>
    match sendFrame call.request.maxPayload call.request.pid call.request.data with
    | .error error => some (call.finish peers (.error error))
    | .ok _ => some (peers, { call with stage := .lookup })
  | .lookup =>
    match peers.pool call.request.addr with
    | some id => some (peers.cloneSender id, { call with held := id :: call.held, stage := .send id })
    | none => some (peers, { call with stage := .connect })
  | .connect =>
    match io with
    | .done => some (peers, { call with stage := .version })
    | .failed error => some (call.finish peers (.error error))
  | .version =>
    match io with
    | .done =>
      let id := peers.connections.length
      some (peers.connected call.request.addr, { call with held := id :: call.held, stage := .insert id })
    | .failed error => some (call.finish peers (.error error))
  | .insert id => some (peers.insert call.request.addr id, { call with stage := .send id })
  | .send id =>
    match peers.connections[id]? with
    | none => none
    | some connection =>
      if connection.writer = .finished then
        if call.retried then
          some (call.finish peers (.error ⟨.connectionAborted, "remote node unavailable"⟩))
        else some (peers, { call with stage := .evict })
      else if connection.queue.length < queueCapacity then
        let envelope := ⟨self, call.frame⟩
        let peers := peers.modify id fun connection =>
          { connection with queue := connection.queue ++ [envelope], accepted := connection.accepted ++ [envelope] }
        some (call.finish peers (.ok ()))
      else none
  | .evict => some (peers.remove call.request.addr, { call with retried := true, stage := .lookup })
  | .returned _ => none

inductive WriteIo where
  | wrote (count : Nat)
  | failed

def Peers.write (peers : Peers) (id : Nat) (io : WriteIo) : Option Peers :=
  match peers.connections[id]? with
  | none => none
  | some connection =>
    match connection.writer with
    | .receiving =>
      match connection.queue with
      | envelope :: queue =>
        some (peers.modify id fun connection => { connection with writer := .writing envelope.frame, queue })
      | [] =>
        if connection.senders = 0 then
          some (peers.modify id fun connection => { connection with writer := .leaving })
        else none
    | .writing left =>
      match io with
      | .wrote count =>
        if 0 < count ∧ count ≤ left.length then
          some (peers.modify id fun connection =>
            { connection with
              written := connection.written ++ left.take count
              writer := if left.drop count = [] then .receiving else .writing (left.drop count) })
        else none
      | .failed => some (peers.modify id fun connection => { connection with writer := .leaving })
    | .leaving =>
      some ((peers.modify id fun connection => { connection with writer := .closing }).remove connection.addr)
    | .closing => some (peers.modify id fun connection => { connection with writer := .finished, queue := [] })
    | .finished => none

namespace Peers

def push (peers : Peers) (id : Nat) (envelope : Envelope) : Peers :=
  peers.modify id fun connection =>
    { connection with queue := connection.queue ++ [envelope], accepted := connection.accepted ++ [envelope] }

/-- Everything one step of a writer task can do. -/
inductive Writes (peers : Peers) (id : Nat) (connection : Connection) : Peers → Prop where
  | took {envelope : Envelope} {queue : List Envelope} (receiving : connection.writer = .receiving)
      (queued : connection.queue = envelope :: queue) :
      Writes peers id connection
        (peers.modify id fun connection => { connection with writer := .writing envelope.frame, queue })
  | drained (receiving : connection.writer = .receiving) (unused : connection.senders = 0) :
      Writes peers id connection (peers.modify id fun connection => { connection with writer := .leaving })
  | wrote {left : Bytes} {count : Nat} (writing : connection.writer = .writing left) :
      Writes peers id connection (peers.modify id fun connection =>
        { connection with
          written := connection.written ++ left.take count
          writer := if left.drop count = [] then .receiving else .writing (left.drop count) })
  | broke {left : Bytes} (writing : connection.writer = .writing left) :
      Writes peers id connection (peers.modify id fun connection => { connection with writer := .leaving })
  | removed (leaving : connection.writer = .leaving) :
      Writes peers id connection
        ((peers.modify id fun connection => { connection with writer := .closing }).remove connection.addr)
  | closed (closing : connection.writer = .closing) :
      Writes peers id connection
        (peers.modify id fun connection => { connection with writer := .finished, queue := [] })

theorem writes_of_write {peers later : Peers} {id : Nat} {io : WriteIo} (stepped : peers.write id io = some later) :
    ∃ connection, peers.connections[id]? = some connection ∧ Writes peers id connection later := by
  unfold write at stepped
  split at stepped
  · cases stepped
  rename_i connection found
  refine ⟨connection, found, ?_⟩
  split at stepped
  · rename_i receiving
    split at stepped
    · rename_i envelope queue queued
      cases stepped
      exact .took receiving queued
    · split at stepped
      · rename_i unused
        cases stepped
        exact .drained receiving unused
      · cases stepped
  · rename_i left writing
    split at stepped
    · split at stepped
      · cases stepped
        exact .wrote writing
      · cases stepped
    · cases stepped
      exact .broke writing
  · rename_i leaving
    cases stepped
    exact .removed leaving
  · rename_i closing
    cases stepped
    exact .closed closing
  · cases stepped

end Peers

namespace Call

theorem idle_of_isNew {call : Call} (new : call.isNew = true) : call.held = [] ∧ call.stage = .check := by
  obtain ⟨request, retried, held, stage⟩ := call
  unfold isNew at new
  split at new
  · rename_i free stage
    exact ⟨free, stage⟩
  · cases new

/-- Everything one step of `send_remote` can do. -/
inductive Advances (self : Nat) (peers : Peers) (call : Call) : Peers → Call → Prop where
  | accepted (checking : call.stage = .check) (within : call.request.data.length ≤ call.request.maxPayload) :
      Advances self peers call peers { call with stage := .lookup }
  | missed (looking : call.stage = .lookup) : Advances self peers call peers { call with stage := .connect }
  | dialled (dialling : call.stage = .connect) : Advances self peers call peers { call with stage := .version }
  | aborted {error : IoError}
      (early : call.stage = .check ∨ call.stage = .connect ∨ call.stage = .version ∨ ∃ id, call.stage = .send id) :
      Advances self peers call (peers.dropSenders call.held) { call with held := [], stage := .returned (.error error) }
  | queued {id : Nat} {connection : Connection} (sending : call.stage = .send id)
      (found : peers.connections[id]? = some connection) (alive : connection.writer ≠ .finished) :
      Advances self peers call ((peers.push id ⟨self, call.frame⟩).dropSenders call.held)
        { call with held := [], stage := .returned (.ok ()) }
  | found {id : Nat} (looking : call.stage = .lookup) (pooled : peers.pool call.request.addr = some id) :
      Advances self peers call (peers.cloneSender id) { call with held := id :: call.held, stage := .send id }
  | opened (ready : call.stage = .version) :
      Advances self peers call (peers.connected call.request.addr)
        { call with held := peers.connections.length :: call.held, stage := .insert peers.connections.length }
  | inserted {id : Nat} (inserting : call.stage = .insert id) :
      Advances self peers call (peers.insert call.request.addr id) { call with stage := .send id }
  | failed {id : Nat} {connection : Connection} (sending : call.stage = .send id) (first : call.retried = false)
      (found : peers.connections[id]? = some connection) (ended : connection.writer = .finished) :
      Advances self peers call peers { call with stage := .evict }
  | evicted (evicting : call.stage = .evict) :
      Advances self peers call (peers.remove call.request.addr) { call with retried := true, stage := .lookup }

theorem advances_of_advance {self : Nat} {peers later : Peers} {call next : Call} {io : Io}
    (stepped : call.advance self peers io = some (later, next)) : Advances self peers call later next := by
  obtain ⟨request, retried, held, stage⟩ := call
  unfold advance at stepped
  cases stage with
  | check =>
    dsimp only [sendFrame] at stepped
    split at stepped
    · cases stepped
      exact .aborted (.inl rfl)
    · rename_i accepted
      split at accepted
      · cases accepted
      · rename_i within
        cases stepped
        exact .accepted rfl (Nat.not_lt.mp within)
  | lookup =>
    dsimp only at stepped
    split at stepped
    · rename_i id pooled
      cases stepped
      exact .found rfl pooled
    · cases stepped
      exact .missed rfl
  | connect =>
    dsimp only at stepped
    split at stepped
    · cases stepped
      exact .dialled rfl
    · cases stepped
      exact .aborted (.inr (.inl rfl))
  | version =>
    dsimp only at stepped
    split at stepped
    · cases stepped
      exact .opened rfl
    · cases stepped
      exact .aborted (.inr (.inr (.inl rfl)))
  | insert id =>
    cases stepped
    exact .inserted rfl
  | send id =>
    dsimp only at stepped
    split at stepped
    · cases stepped
    · rename_i connection found
      split at stepped
      · rename_i ended
        split at stepped
        · cases stepped
          exact .aborted (.inr (.inr (.inr ⟨id, rfl⟩)))
        · rename_i first
          cases stepped
          exact .failed rfl (Bool.eq_false_of_not_eq_true first) found ended
      · rename_i alive
        split at stepped
        · cases stepped
          exact .queued rfl found alive
        · cases stepped
  | evict =>
    cases stepped
    exact .evicted rfl
  | returned result => cases stepped

end Call

/-- Any number of `send_remote` calls over one pool, with the writer tasks of
    the connections they make. -/
def sendRemote : Program Peers Call Io (Nat × WriteIo) where
  starts call := call.isNew
  step self peers call io := (call.advance self peers io).map fun (peers, call) => (peers, call, [])
  ambient peers operation := peers.write operation.1 operation.2

end Myrmidon.Network
