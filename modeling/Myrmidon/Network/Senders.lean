import Myrmidon.Network.Eviction

namespace Myrmidon.Network

open Data Transition Program

theorem sendRemote_step {self : Nat} {peers later : Peers} {call next : Call} {io : Io} {new : List Call}
    (stepped : sendRemote.step self peers call io = some (later, next, new)) :
    call.advance self peers io = some (later, next) ∧ new = [] := by
  obtain ⟨⟨_, _⟩, advanced, same⟩ := Option.map_eq_some_iff.mp stepped
  cases same
  exact ⟨advanced, rfl⟩

namespace Peers

variable (peers : Peers)

/-- The senders of a connection that have not been dropped. -/
def sendersOf (id : Nat) : Nat := (peers.connections[id]?.map Connection.senders).getD 0

theorem status_push (id other : Nat) (envelope : Envelope) : (peers.push other envelope).status id = peers.status id :=
  peers.status_modify_same id other fun _ => ⟨rfl, rfl⟩

theorem sendersOf_modify_ne {id other : Nat} (different : other ≠ id) (change : Connection → Connection) :
    (peers.modify other change).sendersOf id = peers.sendersOf id := by
  rw [sendersOf, sendersOf, peers.getElem?_modify_ne different]

theorem sendersOf_modify_same (id other : Nat) {change : Connection → Connection}
    (same : ∀ connection, (change connection).senders = connection.senders) :
    (peers.modify other change).sendersOf id = peers.sendersOf id := by
  by_cases own : other = id
  · subst own
    rw [sendersOf, sendersOf, modify, List.getElem?_modify_eq]
    cases peers.connections[other]? with
    | none => rfl
    | some connection => exact same connection
  · exact peers.sendersOf_modify_ne own change

theorem sendersOf_cloneSender {other : Nat} (known : (peers.status other).isSome = true) (id : Nat) :
    (peers.cloneSender other).sendersOf id = peers.sendersOf id + if other = id then 1 else 0 := by
  by_cases own : other = id
  · subst own
    rw [if_pos rfl, sendersOf, sendersOf, cloneSender, modify, List.getElem?_modify_eq]
    cases found : peers.connections[other]? with
    | none =>
      rw [status, found] at known
      cases known
    | some connection => rfl
  · rw [if_neg own, Nat.add_zero]
    exact peers.sendersOf_modify_ne own _

theorem sendersOf_dropSender (other id : Nat) :
    (peers.dropSender other).sendersOf id = peers.sendersOf id - if other = id then 1 else 0 := by
  by_cases own : other = id
  · subst own
    rw [if_pos rfl, sendersOf, sendersOf, dropSender, modify, List.getElem?_modify_eq]
    cases peers.connections[other]? <;> rfl
  · rw [if_neg own, Nat.sub_zero]
    exact peers.sendersOf_modify_ne own _

theorem sendersOf_dropSenders (ids : List Nat) (id : Nat) :
    (peers.dropSenders ids).sendersOf id = peers.sendersOf id - ids.count id := by
  induction ids generalizing peers with
  | nil => rfl
  | cons first rest ih =>
    have dropped : (peers.dropSenders (first :: rest)) = (peers.dropSender first).dropSenders rest := rfl
    rw [dropped, ih, peers.sendersOf_dropSender]
    simp only [List.count_cons, beq_iff_eq]
    omega

theorem sendersOf_remove (addr : String) (id : Nat) :
    (peers.remove addr).sendersOf id = peers.sendersOf id - if peers.pool addr = some id then 1 else 0 := by
  unfold remove
  split
  · rename_i absent
    simp [absent]
  · rename_i other pooled
    simp only [pooled, Option.some.injEq]
    exact peers.sendersOf_dropSender other id

theorem sendersOf_insert {other : Nat} (known : (peers.status other).isSome = true) (addr : String) (id : Nat) :
    (peers.insert addr other).sendersOf id =
      peers.sendersOf id - (if peers.pool addr = some id then 1 else 0) + if other = id then 1 else 0 := by
  have same : (peers.insert addr other).sendersOf id = ((peers.remove addr).cloneSender other).sendersOf id := rfl
  rw [same, sendersOf_cloneSender _ (by rw [status_remove]; exact known), sendersOf_remove]

theorem sendersOf_connected (addr : String) (id : Nat) :
    (peers.connected addr).sendersOf id = peers.sendersOf id + if id = peers.connections.length then 1 else 0 := by
  have listed : (peers.connected addr).connections = peers.connections ++ [.opened addr] := rfl
  rw [sendersOf, sendersOf, listed]
  rcases Nat.lt_trichotomy id peers.connections.length with inside | same | outside
  · rw [List.getElem?_append_left inside, if_neg (Nat.ne_of_lt inside), Nat.add_zero]
  · subst same
    rw [List.getElem?_append_right (Nat.le_refl _), Nat.sub_self, if_pos rfl, List.getElem?_eq_none (Nat.le_refl _)]
    rfl
  · have beyond : (peers.connections ++ [Connection.opened addr]).length ≤ id := by
      rw [List.length_append]
      exact outside
    rw [List.getElem?_eq_none beyond, List.getElem?_eq_none (Nat.le_of_lt outside), if_neg (Nat.ne_of_gt outside)]
    rfl

theorem sendersOf_write {peers later : Peers} {id : Nat} {connection : Connection}
    (writes : Writes peers id connection later)
    (other : Nat) : later.sendersOf other =
      peers.sendersOf other -
        if connection.writer = .leaving ∧ peers.pool connection.addr = some other then 1 else 0 := by
  have quiet : ∀ {change : Connection → Connection}, connection.writer ≠ .leaving →
      (∀ connection, (change connection).senders = connection.senders) → (peers.modify id change).sendersOf other =
        peers.sendersOf other -
          if connection.writer = .leaving ∧ peers.pool connection.addr = some other then 1 else 0 := by
    intro change busy same
    rw [if_neg fun both => busy both.1]
    exact peers.sendersOf_modify_same other id same
  cases writes with
  | took receiving queued => exact quiet (by rw [receiving]; decide) fun _ => rfl
  | drained receiving unused => exact quiet (by rw [receiving]; decide) fun _ => rfl
  | wrote writing => exact quiet (by rw [writing]; exact Writer.noConfusion) fun _ => rfl
  | broke writing => exact quiet (by rw [writing]; exact Writer.noConfusion) fun _ => rfl
  | removed leaving =>
    have closing : (peers.modify id fun connection => { connection with writer := .closing }).sendersOf other =
        peers.sendersOf other := peers.sendersOf_modify_same other id fun _ => rfl
    rw [sendersOf_remove, closing, leaving]
    by_cases pooled : peers.pool connection.addr = some other <;> simp [pooled, modify]
  | closed closing => exact quiet (by rw [closing]; decide) fun _ => rfl

end Peers

/-- What a call with a connection in hand knows of it. -/
def Call.Knows (peers : Peers) (call : Call) : Prop :=
  ∀ id, call.stage = .insert id ∨ call.stage = .send id → ∃ writer, peers.status id = some (call.request.addr, writer)

/-- Every sender of a connection is with a call or in the pool, under its address. -/
structure Counted (c : Config Peers Call) : Prop where
  pooled : ∀ addr id, c.shared.pool addr = some id → ∃ writer, c.shared.status id = some (addr, writer)
  placed : ∀ call ∈ c.threads, call.Placed
  knows : ∀ call ∈ c.threads, call.Knows c.shared
  held : ∀ call ∈ c.threads, ∀ id ∈ call.held, (c.shared.status id).isSome = true
  senders : ∀ id addr writer, c.shared.status id = some (addr, writer) → c.shared.sendersOf id =
    total (fun call => call.held.count id) c.threads + if c.shared.pool addr = some id then 1 else 0

namespace Counted

variable {c d : Config Peers Call} {self : Nat} {peers later : Peers} {before after : List Call} {call next : Call}

theorem pool_length (pooled : ∀ addr id, peers.pool addr = some id → ∃ writer, peers.status id = some (addr, writer))
    (addr : String) : peers.pool addr ≠ some peers.connections.length := by
  intro found
  obtain ⟨writer, status⟩ := pooled addr _ found
  rw [peers.status_length] at status
  cases status

/-- The address of a connection stays what it is. -/
theorem status_kept (advances : call.Advances self peers later next) {id : Nat} {addr : String} {writer : Writer}
    (status : peers.status id = some (addr, writer)) : later.status id = some (addr, writer) := by
  have known : (peers.status id).isSome = true := by rw [status]; rfl
  rw [← status]
  cases advances with
  | aborted early => exact peers.status_dropSenders id _
  | @queued other connection sending found alive =>
    rw [Peers.status_dropSenders]
    exact peers.status_push id other _
  | found looking pooled => exact peers.status_cloneSender id _
  | opened ready => exact peers.status_connected known _
  | inserted inserting => exact peers.status_insert _ id _
  | evicted evicting => exact peers.status_remove id _
  | _ => rfl

theorem status_known (advances : call.Advances self peers later next) {id : Nat}
    (known : (peers.status id).isSome = true) :
    (later.status id).isSome = true := by
  obtain ⟨⟨addr, writer⟩, status⟩ := Option.isSome_iff_exists.mp known
  rw [status_kept advances status]
  rfl

/-- A connection that is there after a step was there, but for a new one. -/
theorem status_before (advances : call.Advances self peers later next) {id : Nat} {addr : String} {writer : Writer}
    (status : later.status id = some (addr, writer)) : peers.status id = some (addr, writer) ∨
      later = peers.connected call.request.addr ∧ next.held = peers.connections.length :: call.held ∧
        id = peers.connections.length ∧ addr = call.request.addr := by
  cases advances with
  | aborted early => exact .inl ((peers.status_dropSenders id _).symm.trans status)
  | @queued other connection sending found alive =>
    rw [Peers.status_dropSenders] at status
    exact .inl ((peers.status_push id other _).symm.trans status)
  | found looking pooled => exact .inl ((peers.status_cloneSender id _).symm.trans status)
  | opened ready =>
    rcases Nat.lt_trichotomy id peers.connections.length with inside | same | outside
    · have known : (peers.status id).isSome = true := by
        rw [Peers.status, List.getElem?_eq_getElem inside]
        rfl
      exact .inl ((peers.status_connected known _).symm.trans status)
    · subst same
      rw [Peers.status_of_getElem? (peers.getElem?_connected_length _)] at status
      cases status
      exact .inr ⟨rfl, rfl, rfl, rfl⟩
    · have beyond : (peers.connected call.request.addr).connections.length ≤ id := by
        show (peers.connections ++ [_]).length ≤ id
        rw [List.length_append]
        exact outside
      rw [Peers.status, List.getElem?_eq_none beyond] at status
      cases status
  | inserted inserting => exact .inl ((peers.status_insert _ id _).symm.trans status)
  | evicted evicting => exact .inl ((peers.status_remove id _).symm.trans status)
  | _ => exact .inl status

theorem placed_step (advances : call.Advances self peers later next) (placed : call.Placed) : next.Placed := by
  intro id stage
  cases advances with
  | found looking pooled =>
    rcases stage with stage | stage <;> cases stage
    rfl
  | opened ready =>
    rcases stage with stage | stage <;> cases stage
    rfl
  | inserted inserting =>
    rcases stage with stage | stage <;> cases stage
    exact placed id (.inl inserting)
  | _ => rcases stage with stage | stage <;> cases stage

theorem knows_step (advances : call.Advances self peers later next) (knows : call.Knows peers)
    (pooled : ∀ addr id, peers.pool addr = some id → ∃ writer, peers.status id = some (addr, writer)) :
    next.Knows later := by
  intro id stage
  have kept : (∃ writer, peers.status id = some (call.request.addr, writer)) →
      ∃ writer, later.status id = some (call.request.addr, writer) := by
    rintro ⟨writer, status⟩
    exact ⟨writer, status_kept advances status⟩
  cases advances with
  | found looking entry =>
    rcases stage with stage | stage <;> cases stage
    exact kept (pooled _ id entry)
  | opened ready =>
    rcases stage with stage | stage <;> cases stage
    exact ⟨.receiving, Peers.status_of_getElem? (peers.getElem?_connected_length _)⟩
  | inserted inserting =>
    rcases stage with stage | stage <;> cases stage
    exact kept (knows id (.inl inserting))
  | _ => rcases stage with stage | stage <;> cases stage

theorem held_step (advances : call.Advances self peers later next)
    (pooled : ∀ addr id, peers.pool addr = some id → ∃ writer, peers.status id = some (addr, writer))
    (held : ∀ id ∈ call.held, (peers.status id).isSome = true) : ∀ id ∈ next.held, (later.status id).isSome = true := by
  have kept : ∀ id ∈ call.held, (later.status id).isSome = true :=
    fun id member => status_known advances (held id member)
  cases advances with
  | aborted early => simp
  | queued sending found alive => simp
  | found looking entry =>
    refine List.forall_mem_cons.mpr ⟨?_, kept⟩
    obtain ⟨writer, status⟩ := pooled _ _ entry
    rw [peers.status_cloneSender, status]
    rfl
  | opened ready =>
    refine List.forall_mem_cons.mpr ⟨?_, kept⟩
    rw [Peers.status_of_getElem? (peers.getElem?_connected_length _)]
    rfl
  | _ => exact kept

theorem pooled_step (advances : call.Advances self peers later next) (knows : call.Knows peers)
    (pooled : ∀ addr id, peers.pool addr = some id → ∃ writer, peers.status id = some (addr, writer)) :
    ∀ addr id, later.pool addr = some id → ∃ writer, later.status id = some (addr, writer) := by
  intro addr id entry
  have kept : peers.pool addr = some id → ∃ writer, later.status id = some (addr, writer) := by
    intro entry
    obtain ⟨writer, status⟩ := pooled addr id entry
    exact ⟨writer, status_kept advances status⟩
  cases advances with
  | aborted early =>
    rw [Peers.pool_dropSenders] at entry
    exact kept entry
  | queued sending found alive =>
    rw [Peers.pool_dropSenders] at entry
    exact kept entry
  | inserted inserting =>
    rw [peers.pool_insert, Function.update_apply] at entry
    split at entry
    · rename_i same
      cases entry
      obtain ⟨writer, status⟩ := knows id (.inl inserting)
      exact ⟨writer, by rw [peers.status_insert, same]; exact status⟩
    · exact kept entry
  | evicted evicting => exact kept (peers.pool_remove_some entry).1
  | _ => exact kept entry

/-- What a step does to the senders of a connection, the call's own included. -/
theorem senders_step (advances : call.Advances self peers later next) (knows : call.Knows peers)
    (pooled : ∀ addr id, peers.pool addr = some id → ∃ writer, peers.status id = some (addr, writer))
    {id : Nat} {addr : String} {writer : Writer} (status : peers.status id = some (addr, writer))
    (enough : call.held.count id + (if peers.pool addr = some id then 1 else 0) ≤ peers.sendersOf id) :
    later.sendersOf id + call.held.count id + (if peers.pool addr = some id then 1 else 0) =
      peers.sendersOf id + next.held.count id + if later.pool addr = some id then 1 else 0 := by
  have only : ∀ other, peers.pool other = some id → other = addr := by
    intro other entry
    obtain ⟨_, same⟩ := pooled other id entry
    cases status.symm.trans same
    rfl
  cases advances with
  | aborted early =>
    rw [peers.sendersOf_dropSenders, peers.pool_dropSenders]
    simp only [List.count_nil]
    omega
  | @queued other connection sending found alive =>
    rw [Peers.sendersOf_dropSenders, Peers.pool_dropSenders]
    have pushed : (peers.push other ⟨self, call.frame⟩).sendersOf id = peers.sendersOf id :=
      peers.sendersOf_modify_same id other fun _ => rfl
    have pool : (peers.push other ⟨self, call.frame⟩).pool = peers.pool := rfl
    rw [pushed, pool]
    simp only [List.count_nil]
    omega
  | @found other looking entry =>
    obtain ⟨_, known⟩ := pooled _ _ entry
    rw [peers.sendersOf_cloneSender (by rw [known]; rfl)]
    have pool : (peers.cloneSender other).pool = peers.pool := rfl
    rw [pool]
    simp only [List.count_cons, beq_iff_eq]
    omega
  | opened ready =>
    have inside : peers.connections.length ≠ id := by
      rintro rfl
      rw [peers.status_length] at status
      cases status
    rw [peers.sendersOf_connected, if_neg (Ne.symm inside)]
    have pool : (peers.connected call.request.addr).pool = peers.pool := rfl
    rw [pool]
    simp only [List.count_cons, beq_iff_eq, if_neg inside]
    omega
  | @inserted other inserting =>
    obtain ⟨_, known⟩ := knows other (.inl inserting)
    rw [peers.sendersOf_insert (by rw [known]; rfl), peers.pool_insert]
    by_cases here : call.request.addr = addr
    · subst here
      rw [Function.update_self]
      simp only [Option.some.injEq]
      omega
    · have absent : peers.pool call.request.addr ≠ some id := fun entry => here (only _ entry)
      have different : other ≠ id := by
        rintro rfl
        rw [status] at known
        cases known
        exact here rfl
      rw [if_neg absent, if_neg different, Function.update_of_ne (Ne.symm here)]
      dsimp only
      omega
  | evicted evicting =>
    rw [peers.sendersOf_remove, peers.pool_remove]
    by_cases here : call.request.addr = addr
    · subst here
      rw [Function.update_self]
      simp only [reduceCtorEq, if_false]
      omega
    · have absent : peers.pool call.request.addr ≠ some id := fun entry => here (only _ entry)
      rw [if_neg absent, Function.update_of_ne (Ne.symm here)]
      dsimp only
      omega
  | _ => rfl

theorem step (counted : Counted ⟨peers, before ++ call :: after⟩) (advances : call.Advances self peers later next) :
    Counted ⟨later, before ++ next :: after⟩ := by
  obtain ⟨pooled, placed, knows, held, senders⟩ := counted
  have present : call ∈ before ++ call :: after := by simp
  have mine := knows call present
  have known : ∀ other ∈ before ++ call :: after, other.Knows later := by
    intro other member id stage
    obtain ⟨writer, status⟩ := knows other member id stage
    exact ⟨writer, status_kept advances status⟩
  have kept : ∀ other ∈ before ++ call :: after, ∀ id ∈ other.held, (later.status id).isSome = true :=
    fun other member id holds => status_known advances (held other member id holds)
  refine ⟨pooled_step advances mine pooled, ?_, ?_, ?_, ?_⟩
  · exact forall_replace placed (placed_step advances (placed call present))
  · exact forall_replace known (knows_step advances mine pooled)
  · exact forall_replace kept (held_step advances pooled (held call present))
  · intro id addr writer status
    dsimp only
    rw [total_at]
    rcases status_before advances status with former | ⟨rfl, inHand, rfl, rfl⟩
    · have count := senders id addr writer former
      dsimp only at count
      rw [total_at] at count
      have moved := senders_step advances mine pooled former (by omega)
      omega
    · -- A new connection has one sender, with the call that opened it.
      have fresh : ∀ other ∈ before ++ after, other.held.count peers.connections.length = 0 := by
        intro other member
        apply List.count_eq_zero_of_not_mem
        intro holds
        have known := held other (by simp at member ⊢; tauto) _ holds
        rw [peers.status_length] at known
        cases known
      have own : call.held.count peers.connections.length = 0 := by
        apply List.count_eq_zero_of_not_mem
        intro holds
        have known := held call present _ holds
        rw [peers.status_length] at known
        cases known
      have none : peers.sendersOf peers.connections.length = 0 := by
        rw [Peers.sendersOf, List.getElem?_eq_none (Nat.le_refl _)]
        rfl
      have absent := pool_length pooled call.request.addr
      have pool : (peers.connected call.request.addr).pool = peers.pool := rfl
      rw [total_eq_zero fresh, peers.sendersOf_connected, if_pos rfl, pool, if_neg absent, none, inHand,
        List.count_cons_self, own]

theorem start {calls : List Call} (counted : Counted ⟨peers, calls⟩) (new : call.isNew = true) :
    Counted ⟨peers, calls ++ [call]⟩ := by
  obtain ⟨pooled, placed, knows, held, senders⟩ := counted
  obtain ⟨free, stage⟩ := Call.idle_of_isNew new
  refine ⟨pooled, ?_, ?_, ?_, ?_⟩
  · rw [List.forall_mem_append, List.forall_mem_singleton]
    refine ⟨placed, ?_⟩
    intro id inHand
    rw [stage] at inHand
    rcases inHand with inHand | inHand <;> cases inHand
  · rw [List.forall_mem_append, List.forall_mem_singleton]
    refine ⟨knows, ?_⟩
    intro id inHand
    rw [stage] at inHand
    rcases inHand with inHand | inHand <;> cases inHand
  · rw [List.forall_mem_append, List.forall_mem_singleton]
    refine ⟨held, ?_⟩
    rw [free]
    exact List.forall_mem_nil _
  · intro id addr writer status
    have count := senders id addr writer status
    dsimp only at count ⊢
    rw [total_append, total_cons, free]
    exact count

theorem status_write {id other : Nat} {connection : Connection} (found : peers.connections[id]? = some connection)
    (writes : Peers.Writes peers id connection later) {addr : String} :
    (∃ writer, later.status other = some (addr, writer)) ↔ ∃ writer, peers.status other = some (addr, writer) := by
  have changed : ∀ change : Connection → Connection, (∀ connection, (change connection).addr = connection.addr) →
      ((∃ writer, (peers.modify id change).status other = some (addr, writer)) ↔
        ∃ writer, peers.status other = some (addr, writer)) := by
    intro change same
    by_cases own : id = other
    · subst own
      rw [peers.status_modify_eq found, Peers.status_of_getElem? found, same]
      simp
    · rw [peers.status_modify_ne own]
  cases writes with
  | removed leaving =>
    rw [Peers.status_remove]
    exact changed _ fun _ => rfl
  | _ => exact changed _ fun _ => rfl

theorem write {id : Nat} {connection : Connection} {calls : List Call} (counted : Counted ⟨peers, calls⟩)
    (found : peers.connections[id]? = some connection) (writes : Peers.Writes peers id connection later) :
    Counted ⟨later, calls⟩ := by
  obtain ⟨pooled, placed, knows, held, senders⟩ := counted
  have pool : ∀ addr other, later.pool addr = some other → peers.pool addr = some other := by
    intro addr other entry
    cases writes with
    | removed leaving => exact (Peers.pool_remove_some _ entry).1
    | _ => exact entry
  refine ⟨?_, placed, ?_, ?_, ?_⟩
  · intro addr other entry
    exact (status_write found writes).mpr (pooled addr other (pool addr other entry))
  · intro call member other stage
    exact (status_write found writes).mpr (knows call member other stage)
  · intro call member other holds
    obtain ⟨⟨addr, writer⟩, status⟩ := Option.isSome_iff_exists.mp (held call member other holds)
    obtain ⟨writer, status⟩ := (status_write found writes).mpr ⟨writer, status⟩
    rw [status]
    rfl
  · intro other addr writer status
    obtain ⟨former, before⟩ := (status_write found writes).mp ⟨writer, status⟩
    have count := senders other addr former before
    have only : peers.pool connection.addr = some other → connection.addr = addr := by
      intro entry
      obtain ⟨_, same⟩ := pooled _ other entry
      cases before.symm.trans same
      rfl
    dsimp only at count ⊢
    rw [Peers.sendersOf_write writes, count]
    have idle : later.pool = peers.pool → ¬ (connection.writer = .leaving ∧ peers.pool connection.addr = some other) →
        total (fun call => call.held.count other) calls + (if peers.pool addr = some other then 1 else 0) -
            (if connection.writer = .leaving ∧ peers.pool connection.addr = some other then 1 else 0) =
          total (fun call => call.held.count other) calls + if later.pool addr = some other then 1 else 0 := by
      intro same absent
      rw [same, if_neg absent]
      rfl
    cases writes with
    | removed leaving =>
      rw [Peers.pool_remove]
      by_cases here : connection.addr = addr
      · subst here
        simp [leaving, Peers.modify]
      · have absent : peers.pool connection.addr ≠ some other := fun entry => here (only entry)
        have kept : ¬ (connection.writer = .leaving ∧ peers.pool connection.addr = some other) :=
          fun both => absent both.2
        rw [if_neg kept, Function.update_of_ne (Ne.symm here)]
        rfl
    | took receiving queued => exact idle rfl (by simp [receiving])
    | drained receiving unused => exact idle rfl (by simp [receiving])
    | wrote writing => exact idle rfl (by simp [writing])
    | broke writing => exact idle rfl (by simp [writing])
    | closed closing => exact idle rfl (by simp [closing])

theorem move {move : Move Call Io (Nat × WriteIo)} (counted : Counted c) (moves : sendRemote.Moves c move d) :
    Counted d := by
  cases moves with
  | start allowed => exact counted.start allowed
  | @step peers later before after new call next input stepped =>
    obtain ⟨advanced, rfl⟩ := sendRemote_step stepped
    rw [List.append_nil]
    exact counted.step (Call.advances_of_advance advanced)
  | ambient done =>
    obtain ⟨connection, found, writes⟩ := Peers.writes_of_write done
    exact counted.write found writes

end Counted

theorem counted_empty : Counted ⟨.empty, []⟩ := by
  constructor <;> simp [Peers.empty, Peers.status]

end Myrmidon.Network
