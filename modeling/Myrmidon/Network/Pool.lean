import Myrmidon.Network.Peers

namespace Myrmidon.Network

open Data Transition

/-- The task still reads its queue, or has not yet removed the address that it served. -/
def Writer.running : Writer → Bool
  | .receiving => true
  | .writing _ => true
  | .leaving => true
  | .closing => false
  | .finished => false

/-- A connection whose sender is only with the call that opened it. -/
def Connection.opened (addr : String) : Connection := ⟨addr, .receiving, [], 1, [protocolVersion], []⟩

namespace Call

def inserts (call : Call) : Bool :=
  match call.stage with
  | .insert _ => true
  | _ => false

end Call

namespace Peers

def status (peers : Peers) (id : Nat) : Option (String × Writer) :=
  peers.connections[id]?.map fun connection => (connection.addr, connection.writer)

theorem exists_of_status {peers : Peers} {id : Nat} {addr : String} {writer : Writer}
    (status : peers.status id = some (addr, writer)) :
    ∃ connection, peers.connections[id]? = some connection ∧ connection.addr = addr ∧ connection.writer = writer := by
  obtain ⟨connection, found, same⟩ := Option.map_eq_some_iff.mp status
  cases same
  exact ⟨connection, found, rfl, rfl⟩

theorem status_of_getElem? {peers : Peers} {id : Nat} {connection : Connection}
    (found : peers.connections[id]? = some connection) :
    peers.status id = some (connection.addr, connection.writer) := by
  rw [status, found]
  rfl

theorem status_length (peers : Peers) : peers.status peers.connections.length = none := by
  rw [status, List.getElem?_eq_none (Nat.le_refl _)]
  rfl

section

variable (peers : Peers)

theorem getElem?_modify_ne {id other : Nat} (different : other ≠ id) (change : Connection → Connection) :
    (peers.modify other change).connections[id]? = peers.connections[id]? :=
  List.getElem?_modify_ne change peers.connections different

theorem status_modify_ne {id other : Nat} (different : other ≠ id) (change : Connection → Connection) :
    (peers.modify other change).status id = peers.status id := by
  rw [status, status, getElem?_modify_ne peers different]

theorem status_modify_eq {id : Nat} {connection : Connection} (found : peers.connections[id]? = some connection)
    (change : Connection → Connection) :
    (peers.modify id change).status id = some ((change connection).addr, (change connection).writer) := by
  rw [status, modify, List.getElem?_modify_eq, found]
  rfl

theorem status_modify_same (id other : Nat) {change : Connection → Connection}
    (same : ∀ connection, (change connection).addr = connection.addr ∧
      (change connection).writer = connection.writer) : (peers.modify other change).status id = peers.status id := by
  by_cases own : other = id
  · subst own
    cases found : peers.connections[other]? with
    | none => simp [status, modify, List.getElem?_modify_eq, found]
    | some connection =>
      rw [status_modify_eq peers found, (same connection).1, (same connection).2, status_of_getElem? found]
  · exact status_modify_ne peers own change

theorem status_cloneSender (id other : Nat) : (peers.cloneSender other).status id = peers.status id :=
  peers.status_modify_same id other fun _ => ⟨rfl, rfl⟩

theorem status_dropSender (id other : Nat) : (peers.dropSender other).status id = peers.status id :=
  peers.status_modify_same id other fun _ => ⟨rfl, rfl⟩

theorem pool_dropSenders (ids : List Nat) : (peers.dropSenders ids).pool = peers.pool := by
  induction ids generalizing peers with
  | nil => rfl
  | cons first rest ih => exact ih (peers.dropSender first)

theorem status_dropSenders (id : Nat) (ids : List Nat) : (peers.dropSenders ids).status id = peers.status id := by
  induction ids generalizing peers with
  | nil => rfl
  | cons first rest ih => exact (ih (peers.dropSender first)).trans (peers.status_dropSender id first)

theorem getElem?_dropSenders {id : Nat} {ids : List Nat} (absent : id ∉ ids) :
    (peers.dropSenders ids).connections[id]? = peers.connections[id]? := by
  induction ids generalizing peers with
  | nil => rfl
  | cons first rest ih =>
    rw [List.mem_cons, not_or] at absent
    have dropped : (peers.dropSender first).connections[id]? = peers.connections[id]? :=
      peers.getElem?_modify_ne (Ne.symm absent.1) _
    exact (ih (peers.dropSender first) absent.2).trans dropped

theorem pool_remove (addr : String) : (peers.remove addr).pool = Function.update peers.pool addr none := by
  unfold remove
  split
  · rename_i absent
    rw [← absent, Function.update_eq_self]
  · rfl

theorem status_remove (id : Nat) (addr : String) : (peers.remove addr).status id = peers.status id := by
  unfold remove
  split
  · rfl
  · exact peers.status_dropSender id _

theorem getElem?_remove {id : Nat} {addr : String} (unpooled : peers.pool addr ≠ some id) :
    (peers.remove addr).connections[id]? = peers.connections[id]? := by
  unfold remove
  split
  · rfl
  · rename_i other pooled
    have different : other ≠ id := by
      rintro rfl
      exact unpooled pooled
    exact peers.getElem?_modify_ne different _

theorem pool_remove_some {addr other : String} {id : Nat} (kept : (peers.remove addr).pool other = some id) :
    peers.pool other = some id ∧ other ≠ addr := by
  rw [pool_remove, Function.update_apply] at kept
  split at kept
  · cases kept
  · rename_i different
    exact ⟨kept, different⟩

theorem pool_insert (addr : String) (id : Nat) :
    (peers.insert addr id).pool = Function.update peers.pool addr (some id) := by
  have removed : (peers.insert addr id).pool = Function.update (peers.remove addr).pool addr (some id) := rfl
  rw [removed, pool_remove, Function.update_idem]

theorem status_insert (addr : String) (id other : Nat) : (peers.insert addr other).status id = peers.status id :=
  ((peers.remove addr).status_cloneSender id other).trans (peers.status_remove id addr)

theorem getElem?_insert {addr : String} {id other : Nat} (unpooled : peers.pool addr ≠ some id)
    (different : other ≠ id) : (peers.insert addr other).connections[id]? = peers.connections[id]? :=
  ((peers.remove addr).getElem?_modify_ne different _).trans (peers.getElem?_remove unpooled)

theorem getElem?_connected {id : Nat} (known : (peers.status id).isSome = true) (addr : String) :
    (peers.connected addr).connections[id]? = peers.connections[id]? := by
  rw [status, Option.isSome_map, isSome_getElem?] at known
  exact List.getElem?_append_left known

theorem getElem?_connected_length (addr : String) :
    (peers.connected addr).connections[peers.connections.length]? = some (.opened addr) := by
  rw [connected, List.getElem?_append_right (Nat.le_refl _), Nat.sub_self]
  rfl

theorem status_connected {id : Nat} (known : (peers.status id).isSome = true) (addr : String) :
    (peers.connected addr).status id = peers.status id := by
  rw [status, getElem?_connected peers known addr, status]

end

/-- Connections stay, and so does the end of each. -/
structure Keeps (peers later : Peers) : Prop where
  known : ∀ id, (peers.status id).isSome = true → (later.status id).isSome = true
  ended : ∀ id addr, peers.status id = some (addr, .finished) → later.status id = some (addr, .finished)

theorem keeps_of_status {peers later : Peers} (same : ∀ id, later.status id = peers.status id) : Keeps peers later := by
  constructor
  · intro id known
    rw [same]
    exact known
  · intro id addr ended
    rw [same]
    exact ended

theorem keeps_connected (peers : Peers) (addr : String) : Keeps peers (peers.connected addr) := by
  constructor
  · intro id known
    rw [peers.status_connected known]
    exact known
  · intro id other ended
    have known : (peers.status id).isSome = true := by rw [ended]; rfl
    rw [peers.status_connected known]
    exact ended

/-- No entry comes in, and the running connections keep theirs. -/
structure Settles (peers later : Peers) : Prop extends Keeps peers later where
  pool : ∀ addr id, later.pool addr = some id → peers.pool addr = some id
  running : ∀ id addr writer, later.status id = some (addr, writer) → writer.running = true →
    ∃ former : Writer, peers.status id = some (addr, former) ∧ former.running = true ∧
      (peers.pool addr = some id → later.pool addr = some id)

theorem settles_of_same {peers later : Peers} (pool : later.pool = peers.pool)
    (same : ∀ id, later.status id = peers.status id) : Settles peers later := by
  refine ⟨keeps_of_status same, ?_, ?_⟩
  · rw [pool]
    exact fun _ _ pooled => pooled
  · intro id addr writer status running
    rw [same] at status
    exact ⟨writer, status, running, by rw [pool]; exact fun pooled => pooled⟩

theorem Settles.refl (peers : Peers) : Settles peers peers := settles_of_same rfl fun _ => rfl

theorem Settles.trans {first second third : Peers} (one : Settles first second) (two : Settles second third) :
    Settles first third := by
  refine ⟨⟨?_, ?_⟩, ?_, ?_⟩
  · exact fun id known => two.known id (one.known id known)
  · exact fun id addr ended => two.ended id addr (one.ended id addr ended)
  · exact fun addr id pooled => one.pool addr id (two.pool addr id pooled)
  · intro id addr writer status running
    obtain ⟨middle, status, running, later⟩ := two.running id addr writer status running
    obtain ⟨former, status, running, sooner⟩ := one.running id addr middle status running
    exact ⟨former, status, running, fun pooled => later (sooner pooled)⟩

/-- A removal takes nothing from the running connections if the entry is of one that ended. -/
theorem settles_remove {peers : Peers} {addr : String}
    (ended : ∀ id, peers.pool addr = some id →
      ∃ other writer, peers.status id = some (other, writer) ∧ writer.running = false) :
    Settles peers (peers.remove addr) := by
  refine ⟨keeps_of_status fun id => peers.status_remove id addr, ?_, ?_⟩
  · exact fun other id kept => (peers.pool_remove_some kept).1
  · intro id other writer status running
    rw [status_remove] at status
    refine ⟨writer, status, running, fun pooled => ?_⟩
    have different : other ≠ addr := by
      rintro rfl
      obtain ⟨_, former, ended, stopped⟩ := ended id pooled
      rw [ended] at status
      cases status
      rw [stopped] at running
      cases running
    rw [pool_remove, Function.update_of_ne different]
    exact pooled

theorem settles_modify {peers : Peers} {id : Nat} {connection : Connection}
    (found : peers.connections[id]? = some connection) {change : Connection → Connection}
    (addr : (change connection).addr = connection.addr) (alive : connection.writer ≠ .finished)
    (running : (change connection).writer.running = true → connection.writer.running = true) :
    Settles peers (peers.modify id change) := by
  have former := status_of_getElem? found
  have status := peers.status_modify_eq found change
  refine ⟨⟨?_, ?_⟩, fun _ _ pooled => pooled, ?_⟩
  · intro other known
    by_cases own : id = other
    · subst own
      rw [status]
      rfl
    · rw [peers.status_modify_ne own]
      exact known
  · intro other served ended
    have different : id ≠ other := by
      rintro rfl
      rw [former] at ended
      exact alive (congrArg Prod.snd (Option.some.inj ended))
    rw [peers.status_modify_ne different]
    exact ended
  · intro other served writer later runs
    by_cases own : id = other
    · subst own
      rw [status] at later
      cases later
      rw [addr]
      exact ⟨connection.writer, former, running runs, fun pooled => pooled⟩
    · rw [peers.status_modify_ne own] at later
      exact ⟨writer, later, runs, fun pooled => pooled⟩

section

variable {peers later : Peers} {id : Nat} {connection : Connection}

theorem Writes.settles (found : peers.connections[id]? = some connection) (writes : Writes peers id connection later)
    (own : connection.writer = .leaving → ∀ entry, peers.pool connection.addr = some entry → entry = id) :
    Settles peers later := by
  cases writes with
  | took receiving queued =>
    exact settles_modify found rfl (by rw [receiving]; decide) fun _ => by rw [receiving]; rfl
  | drained receiving unused =>
    exact settles_modify found rfl (by rw [receiving]; decide) fun _ => by rw [receiving]; rfl
  | wrote writing =>
    exact settles_modify found rfl (by rw [writing]; exact Writer.noConfusion) fun _ => by rw [writing]; rfl
  | broke writing =>
    exact settles_modify found rfl (by rw [writing]; exact Writer.noConfusion) fun _ => by rw [writing]; rfl
  | removed leaving =>
    have closes : Settles peers (peers.modify id fun connection => { connection with writer := .closing }) :=
      settles_modify found rfl (by rw [leaving]; decide) Bool.noConfusion
    apply closes.trans
    apply settles_remove
    intro entry pooled
    rw [own leaving entry pooled]
    exact ⟨connection.addr, .closing, peers.status_modify_eq found _, rfl⟩
  | closed closing => exact settles_modify found rfl (by rw [closing]; decide) Bool.noConfusion

theorem Writes.not_opened (writes : Writes peers id connection later) (addr : String) :
    connection ≠ .opened addr := by
  rintro rfl
  cases writes with
  | took receiving queued => cases queued
  | drained receiving unused => cases unused
  | wrote writing => cases writing
  | broke writing => cases writing
  | removed leaving => cases leaving
  | closed closing => cases closing

theorem Writes.getElem?_ne (writes : Writes peers id connection later) {other : Nat} (different : id ≠ other)
    (unpooled : ∀ addr, peers.pool addr ≠ some other) : later.connections[other]? = peers.connections[other]? := by
  cases writes with
  | removed leaving =>
    rw [Peers.getElem?_remove]
    · exact peers.getElem?_modify_ne different _
    · exact unpooled _
  | _ => exact peers.getElem?_modify_ne different _

/-- A connection that no writer has been given work on is not touched. -/
theorem Writes.untouched (found : peers.connections[id]? = some connection) (writes : Writes peers id connection later)
    {other : Nat} {addr : String} (idle : peers.connections[other]? = some (.opened addr))
    (unpooled : ∀ addr, peers.pool addr ≠ some other) : later.connections[other]? = peers.connections[other]? := by
  refine writes.getElem?_ne ?_ unpooled
  rintro rfl
  rw [found] at idle
  exact writes.not_opened addr (Option.some.inj idle)

end

end Peers

end Myrmidon.Network
