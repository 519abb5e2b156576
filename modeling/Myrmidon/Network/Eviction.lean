import Myrmidon.Network.Pool

namespace Myrmidon.Network

open Data Transition

/-- The call sends for the first time, and removes the address if that fails. -/
def Call.evicts (call : Call) : Bool :=
  match call.stage with
  | .send _ => !call.retried
  | .evict => true
  | _ => false

/-- Each removal that can come next takes the entry of the connection that ended, or none. -/
structure EvictsOwn (c : Config Peers Call) : Prop where
  writer : ∀ id connection, c.shared.connections[id]? = some connection → connection.writer = .leaving →
    ∀ entry, c.shared.pool connection.addr = some entry → entry = id
  call : ∀ call ∈ c.threads, call.stage = .evict →
    ∀ entry, c.shared.pool call.request.addr = some entry → call.held.head? = some entry

/-- A connection is put into the pool when its address has no entry there and
    no other call is sending to the address or about to remove it. -/
def InsertsAlone (c : Config Peers Call) : Move Call Io (Nat × WriteIo) → Prop
  | .step index _ => ∀ call ∈ c.threads[index]?, call.inserts = true →
    c.shared.pool call.request.addr = none ∧
      ∀ other ∈ c.threads, other.request.addr = call.request.addr → other.evicts = false
  | _ => True

instance (c : Config Peers Call) : DecidablePred (InsertsAlone c)
  | .step index _ => inferInstanceAs (Decidable (∀ call ∈ c.threads[index]?, call.inserts = true →
      c.shared.pool call.request.addr = none ∧
        ∀ other ∈ c.threads, other.request.addr = call.request.addr → other.evicts = false))
  | .start _ => .isTrue trivial
  | .ambient _ => .isTrue trivial

namespace Call

/-- A call past its connection has its sender in front, and before its first
    send has failed for good, the address has no entry but that connection. -/
structure Sound (peers : Peers) (call : Call) : Prop where
  held : ∀ id ∈ call.held, (peers.status id).isSome = true
  placed : ∀ id, call.stage = .insert id ∨ call.stage = .send id → call.held.head? = some id
  failed : call.stage = .evict → ∃ id addr, call.held.head? = some id ∧ peers.status id = some (addr, .finished)
  own : call.evicts = true → ∀ entry, peers.pool call.request.addr = some entry → call.held.head? = some entry

theorem Sound.keep {peers later : Peers} {call : Call} (sound : call.Sound peers) (keeps : peers.Keeps later)
    (pool : call.evicts = true → ∀ entry, later.pool call.request.addr = some entry →
      peers.pool call.request.addr = some entry) : call.Sound later := by
  refine ⟨fun id member => keeps.known id (sound.held id member), sound.placed, ?_, ?_⟩
  · intro evicting
    obtain ⟨id, addr, front, ended⟩ := sound.failed evicting
    exact ⟨id, addr, front, keeps.ended id addr ended⟩
  · exact fun evicts entry pooled => sound.own evicts entry (pool evicts entry pooled)

theorem Sound.settle {peers later : Peers} {call : Call} (sound : call.Sound peers) (settles : peers.Settles later) :
    call.Sound later := sound.keep settles.toKeeps fun _ => settles.pool _

theorem mem_held_of_head {call : Call} {id : Nat} (front : call.held.head? = some id) : id ∈ call.held :=
  List.mem_of_mem_head? front

section

variable {self : Nat} {peers later : Peers} {call next : Call}

/-- A call with a connection in hand has its sender in front. -/
def Placed (call : Call) : Prop := ∀ id, call.stage = .insert id ∨ call.stage = .send id → call.held.head? = some id

/-- A connection that only another call knows is not touched. -/
theorem Advances.untouched_of_placed (advances : Advances self peers call later next) (placed : call.Placed) {id : Nat}
    (known : (peers.status id).isSome = true) (unheld : id ∉ call.held) (unpooled : ∀ addr, peers.pool addr ≠ some id) :
    later.connections[id]? = peers.connections[id]? ∧ (∀ addr, later.pool addr ≠ some id) ∧ id ∉ next.held := by
  have away : ∀ {other}, call.stage = .insert other ∨ call.stage = .send other → other ≠ id := by
    rintro other stage rfl
    exact unheld (mem_held_of_head (placed other stage))
  cases advances with
  | accepted checking within => exact ⟨rfl, unpooled, unheld⟩
  | missed looking => exact ⟨rfl, unpooled, unheld⟩
  | dialled dialling => exact ⟨rfl, unpooled, unheld⟩
  | aborted early =>
    rw [Peers.pool_dropSenders]
    exact ⟨peers.getElem?_dropSenders unheld, unpooled, List.not_mem_nil⟩
  | queued sending found alive =>
    rw [Peers.pool_dropSenders, Peers.getElem?_dropSenders _ unheld]
    exact ⟨peers.getElem?_modify_ne (away (.inr sending)) _, unpooled, List.not_mem_nil⟩
  | @found other looking pooled =>
    have different : other ≠ id := by
      rintro rfl
      exact unpooled _ pooled
    refine ⟨peers.getElem?_modify_ne different _, unpooled, ?_⟩
    exact List.not_mem_cons_of_ne_of_not_mem (Ne.symm different) unheld
  | opened ready =>
    have different : id ≠ peers.connections.length := by
      rintro rfl
      rw [peers.status_length] at known
      cases known
    exact ⟨peers.getElem?_connected known _, unpooled, List.not_mem_cons_of_ne_of_not_mem different unheld⟩
  | @inserted other inserting =>
    have different := away (.inl inserting)
    refine ⟨peers.getElem?_insert (unpooled _) different, ?_, unheld⟩
    intro addr
    rw [peers.pool_insert, Function.update_apply]
    split
    · exact fun same => different (Option.some.inj same)
    · exact unpooled addr
  | failed sending first found ended => exact ⟨rfl, unpooled, unheld⟩
  | evicted evicting =>
    refine ⟨peers.getElem?_remove (unpooled _), ?_, unheld⟩
    exact fun addr pooled => unpooled addr (peers.pool_remove_some pooled).1

theorem Advances.untouched (advances : Advances self peers call later next) (sound : call.Sound peers) {id : Nat}
    (known : (peers.status id).isSome = true) (unheld : id ∉ call.held) (unpooled : ∀ addr, peers.pool addr ≠ some id) :
    later.connections[id]? = peers.connections[id]? ∧ (∀ addr, later.pool addr ≠ some id) ∧ id ∉ next.held :=
  advances.untouched_of_placed sound.placed known unheld unpooled

/-- Only opening a connection and putting it into the pool do more than settle. -/
theorem Advances.effect (advances : Advances self peers call later next) (sound : call.Sound peers) :
    (call.inserts = false ∧ next.inserts = false ∧ peers.Settles later) ∨
    (call.stage = .version ∧ later = peers.connected call.request.addr ∧
      next = { call with held := peers.connections.length :: call.held, stage := .insert peers.connections.length }) ∨
    (∃ id, call.stage = .insert id ∧ later = peers.insert call.request.addr id ∧
      next = { call with stage := .send id }) := by
  cases advances with
  | accepted checking within => exact .inl ⟨by rw [inserts, checking], rfl, .refl peers⟩
  | missed looking => exact .inl ⟨by rw [inserts, looking], rfl, .refl peers⟩
  | dialled dialling => exact .inl ⟨by rw [inserts, dialling], rfl, .refl peers⟩
  | aborted early =>
    have closed : call.inserts = false := by
      rcases early with stage | stage | stage | ⟨id, stage⟩ <;> rw [inserts, stage]
    exact .inl ⟨closed, rfl, Peers.settles_of_same (peers.pool_dropSenders _) fun id => peers.status_dropSenders id _⟩
  | @queued other connection sending found alive =>
    refine .inl ⟨by rw [inserts, sending], rfl, ?_⟩
    refine Peers.settles_of_same (Peers.pool_dropSenders _ _) fun id => ?_
    rw [Peers.status_dropSenders]
    exact peers.status_modify_same id other fun _ => ⟨rfl, rfl⟩
  | found looking pooled =>
    refine .inl ⟨by rw [inserts, looking], rfl, ?_⟩
    exact Peers.settles_of_same rfl fun id => peers.status_cloneSender id _
  | opened ready => exact .inr (.inl ⟨ready, rfl, rfl⟩)
  | inserted inserting => exact .inr (.inr ⟨_, inserting, rfl, rfl⟩)
  | failed sending first found ended => exact .inl ⟨by rw [inserts, sending], rfl, .refl peers⟩
  | evicted evicting =>
    refine .inl ⟨by rw [inserts, evicting], rfl, Peers.settles_remove ?_⟩
    intro entry pooled
    obtain ⟨id, addr, front, ended⟩ := sound.failed evicting
    have evicts : call.evicts = true := by rw [Call.evicts, evicting]
    rw [sound.own evicts entry pooled] at front
    cases front
    exact ⟨addr, .finished, ended, rfl⟩

theorem Advances.keeps (advances : Advances self peers call later next) (sound : call.Sound peers) :
    peers.Keeps later := by
  rcases advances.effect sound with ⟨-, -, settles⟩ | ⟨-, rfl, -⟩ | ⟨id, -, rfl, -⟩
  · exact settles.toKeeps
  · exact peers.keeps_connected call.request.addr
  · exact Peers.keeps_of_status fun other => peers.status_insert _ other id

theorem sound_of_idle {held : List Nat} (known : ∀ id ∈ held, (peers.status id).isSome = true) {stage : Stage}
    (idle : stage = .lookup ∨ stage = .connect ∨ stage = .version ∨ ∃ result, stage = .returned result) (retried : Bool) :
    Sound peers { call with retried, held, stage } := by
  rcases idle with rfl | rfl | rfl | ⟨result, rfl⟩ <;>
    exact ⟨known, by simp, nofun, nofun⟩

theorem Advances.sound (advances : Advances self peers call later next) (sound : call.Sound peers)
    (pooled : ∀ addr id, peers.pool addr = some id → (peers.status id).isSome = true) : next.Sound later := by
  have known := fun id member => (advances.keeps sound).known id (sound.held id member)
  cases advances with
  | accepted checking within => exact sound_of_idle known (.inl rfl) _
  | missed looking => exact sound_of_idle known (.inr (.inl rfl)) _
  | dialled dialling => exact sound_of_idle known (.inr (.inr (.inl rfl))) _
  | aborted early => exact sound_of_idle (List.forall_mem_nil _) (.inr (.inr (.inr ⟨_, rfl⟩))) _
  | queued sending found alive => exact sound_of_idle (List.forall_mem_nil _) (.inr (.inr (.inr ⟨_, rfl⟩))) _
  | @found id looking entry =>
    refine ⟨List.forall_mem_cons.mpr ⟨?_, known⟩, by simp, nofun, ?_⟩
    · rw [peers.status_cloneSender]
      exact pooled _ id entry
    · exact fun _ other same => entry.symm.trans same
  | opened ready =>
    refine ⟨List.forall_mem_cons.mpr ⟨?_, known⟩, by simp, nofun, nofun⟩
    rw [Peers.status_of_getElem? (peers.getElem?_connected_length _)]
    rfl
  | @inserted id inserting =>
    have front := sound.placed id (.inl inserting)
    refine ⟨known, by simpa using front, nofun, ?_⟩
    intro _ entry inside
    rw [peers.pool_insert, Function.update_self] at inside
    exact front.trans inside
  | @failed id connection sending first found ended =>
    have front := sound.placed id (.inr sending)
    have status := Peers.status_of_getElem? found
    rw [ended] at status
    refine ⟨known, by simp, fun _ => ⟨id, connection.addr, front, status⟩, ?_⟩
    exact fun _ => sound.own (by rw [Call.evicts, sending, first]; rfl)
  | evicted evicting => exact sound_of_idle known (.inl rfl) _

end

end Call

/-- The connection is new, and only the call that opened it has a sender of it. -/
structure Reserved (c : Config Peers Call) (addr : String) (id : Nat) : Prop where
  idle : c.shared.connections[id]? = some (.opened addr)
  unpooled : ∀ other, c.shared.pool other ≠ some id
  alone : Program.total (fun call => call.held.count id) c.threads = 1

/-- Every running connection is the entry of its address, or not yet put there. -/
structure Orderly (c : Config Peers Call) : Prop where
  pooled : ∀ addr id, c.shared.pool addr = some id → (c.shared.status id).isSome = true
  sound : ∀ call ∈ c.threads, call.Sound c.shared
  reserved : ∀ call ∈ c.threads, ∀ id, call.stage = .insert id → Reserved c call.request.addr id
  running : ∀ id addr writer, c.shared.status id = some (addr, writer) → writer.running = true →
    c.shared.pool addr = some id ∨ ∃ call ∈ c.threads, call.stage = .insert id

theorem Orderly.evictsOwn {c : Config Peers Call} (orderly : Orderly c) : EvictsOwn c := by
  constructor
  · intro id connection found leaving entry pooled
    have status := Peers.status_of_getElem? found
    rcases orderly.running id _ _ status (by rw [leaving]; rfl) with own | ⟨call, member, inserting⟩
    · rw [own] at pooled
      exact (Option.some.inj pooled).symm
    · rw [(orderly.reserved call member id inserting).idle] at found
      cases found
      cases leaving
  · intro call member evicting
    exact (orderly.sound call member).own (by rw [Call.evicts, evicting])

section

variable {self : Nat} {peers later : Peers} {before after : List Call} {call next : Call}

/-- A connection that another call has just opened is not held by this one. -/
theorem Orderly.not_held (orderly : Orderly ⟨peers, before ++ call :: after⟩) {other : Call}
    (member : other ∈ before ∨ other ∈ after) {id : Nat} (inserting : other.stage = .insert id) : id ∉ call.held := by
  intro held
  have present : other ∈ before ++ call :: after := by
    rcases member with early | late
    · exact List.mem_append_left _ early
    · exact List.mem_append_right _ (List.mem_cons_of_mem _ late)
  have alone := (orderly.reserved other present id inserting).alone
  have front := (orderly.sound other present).placed id (.inl inserting)
  have theirs : 0 < other.held.count id := List.count_pos_iff.mpr (Call.mem_held_of_head front)
  have mine : 0 < call.held.count id := List.count_pos_iff.mpr held
  dsimp only at alone
  rw [Program.total_append, Program.total_cons] at alone
  rcases member with early | late
  · have counted : 0 < Program.total (fun call : Call => call.held.count id) before :=
      Program.total_pos_of_mem early theirs
    omega
  · have counted : 0 < Program.total (fun call : Call => call.held.count id) after :=
      Program.total_pos_of_mem late theirs
    omega

theorem Reserved.advance {addr : String} {id : Nat} (reserved : Reserved ⟨peers, before ++ call :: after⟩ addr id)
    (advances : call.Advances self peers later next) (sound : call.Sound peers) (unheld : id ∉ call.held) :
    Reserved ⟨later, before ++ next :: after⟩ addr id := by
  have known : (peers.status id).isSome = true := by
    rw [Peers.status_of_getElem? reserved.idle]
    rfl
  obtain ⟨same, unpooled, unheld'⟩ := advances.untouched sound known unheld reserved.unpooled
  refine ⟨same.trans reserved.idle, unpooled, ?_⟩
  have alone := reserved.alone
  dsimp only at alone ⊢
  rw [Program.total_append, Program.total_cons, List.count_eq_zero.mpr unheld] at alone
  rw [Program.total_append, Program.total_cons, List.count_eq_zero.mpr unheld']
  exact alone

/-- A connection that was just opened is reserved for the call that opened it. -/
theorem Orderly.reserves (orderly : Orderly ⟨peers, before ++ call :: after⟩) :
    Reserved ⟨peers.connected call.request.addr, before ++ { call with
      held := peers.connections.length :: call.held, stage := .insert peers.connections.length } :: after⟩
      call.request.addr peers.connections.length := by
  have unheld : ∀ other ∈ before ++ call :: after, other.held.count peers.connections.length = 0 := by
    intro other member
    apply List.count_eq_zero.mpr
    intro held
    have known := (orderly.sound other member).held _ held
    rw [peers.status_length] at known
    cases known
  refine ⟨peers.getElem?_connected_length _, ?_, ?_⟩
  · intro addr pooled
    have known := orderly.pooled addr _ pooled
    rw [peers.status_length] at known
    cases known
  · rw [List.forall_mem_append, List.forall_mem_cons] at unheld
    dsimp only
    rw [Program.total_append, Program.total_cons, Program.total_eq_zero unheld.1, Program.total_eq_zero unheld.2.2]
    rw [List.count_cons_self, unheld.2.1]

theorem exists_inserting {id : Nat} (found : ∃ other ∈ before ++ call :: after, other.stage = .insert id)
    (passed : call.stage ≠ .insert id) : ∃ other ∈ before ++ next :: after, other.stage = .insert id := by
  have kept : ∃ other ∈ before ++ next :: (after ++ []), other.stage = .insert id :=
    Program.exists_replace_append found (fun _ holds => .inl holds) fun mine => absurd mine passed
  rwa [List.append_nil] at kept

/-- An address that the pool gains is that of a call that inserts alone. -/
theorem Orderly.pool_gain (orderly : Orderly ⟨peers, before ++ call :: after⟩)
    (advances : call.Advances self peers later next) {addr : String} {id : Nat} (pooled : later.pool addr = some id) :
    peers.pool addr = some id ∨ (addr = call.request.addr ∧ call.stage = .insert id) := by
  have sound := orderly.sound call (by simp)
  rcases advances.effect sound with ⟨-, -, settles⟩ | ⟨-, rfl, -⟩ | ⟨new, inserting, rfl, -⟩
  · exact .inl (settles.pool addr id pooled)
  · exact .inl pooled
  · rw [peers.pool_insert, Function.update_apply] at pooled
    split at pooled
    · rename_i same
      cases pooled
      exact .inr ⟨same, inserting⟩
    · exact .inl pooled

theorem Orderly.step_sound (orderly : Orderly ⟨peers, before ++ call :: after⟩)
    (alone : call.inserts = true → ∀ other ∈ before ++ call :: after,
      other.request.addr = call.request.addr → other.evicts = false)
    (advances : call.Advances self peers later next) : ∀ other ∈ before ++ next :: after, other.Sound later := by
  have sound := orderly.sound call (by simp)
  have kept : ∀ other ∈ before ++ call :: after, other.Sound later := by
    intro other member
    apply (orderly.sound other member).keep (advances.keeps sound)
    intro evicts entry pooled
    rcases orderly.pool_gain advances pooled with old | ⟨same, inserting⟩
    · exact old
    · -- A call that could remove the new entry is not there.
      have inserts : call.inserts = true := by rw [Call.inserts, inserting]
      rw [alone inserts other member same] at evicts
      cases evicts
  exact Program.forall_replace kept (advances.sound sound orderly.pooled)

theorem Orderly.step_reserved (orderly : Orderly ⟨peers, before ++ call :: after⟩)
    (advances : call.Advances self peers later next) {other : Call} (member : other ∈ before ++ next :: after) {id : Nat}
    (inserting : other.stage = .insert id) : Reserved ⟨later, before ++ next :: after⟩ other.request.addr id := by
  have sound := orderly.sound call (by simp)
  have others : other ∈ before ∨ other ∈ after → Reserved ⟨later, before ++ next :: after⟩ other.request.addr id := by
    intro away
    have present : other ∈ before ++ call :: after := by
      rw [List.mem_append, List.mem_cons]
      exact away.imp_right .inr
    exact (orderly.reserved other present id inserting).advance advances sound (orderly.not_held away inserting)
  rcases List.mem_append.mp member with early | late
  · exact others (.inl early)
  · rcases List.mem_cons.mp late with rfl | late
    · rcases advances.effect sound with ⟨-, closed, -⟩ | ⟨-, rfl, rfl⟩ | ⟨new, -, -, rfl⟩
      · rw [Call.inserts, inserting] at closed
        cases closed
      · cases inserting
        exact orderly.reserves
      · cases inserting
    · exact others (.inr late)

theorem Orderly.step_running (orderly : Orderly ⟨peers, before ++ call :: after⟩)
    (empty : call.inserts = true → peers.pool call.request.addr = none) (advances : call.Advances self peers later next)
    {id : Nat} {addr : String} {writer : Writer} (status : later.status id = some (addr, writer))
    (running : writer.running = true) :
    later.pool addr = some id ∨ ∃ other ∈ before ++ next :: after, other.stage = .insert id := by
  have present : call ∈ before ++ call :: after := by simp
  have sound := orderly.sound call present
  rcases advances.effect sound with ⟨early, -, settles⟩ | ⟨ready, rfl, rfl⟩ | ⟨new, inserting, rfl, rfl⟩
  · obtain ⟨former, status, running, kept⟩ := settles.running id addr writer status running
    rcases orderly.running id addr former status running with pooled | found
    · exact .inl (kept pooled)
    · refine .inr (exists_inserting found ?_)
      intro inserting
      rw [Call.inserts, inserting] at early
      cases early
  · by_cases fresh : id = peers.connections.length
    · subst fresh
      exact .inr ⟨_, List.mem_append_right _ List.mem_cons_self, rfl⟩
    · have known : (peers.status id).isSome = true := by
        obtain ⟨connection, found, -, -⟩ := Peers.exists_of_status status
        have inside := (List.getElem?_eq_some_iff.mp found).1
        rw [Peers.connected, List.length_append, List.length_singleton] at inside
        rw [Peers.status, Option.isSome_map, isSome_getElem?]
        omega
      rw [peers.status_connected known] at status
      exact (orderly.running id addr writer status running).imp_right
        fun found => exists_inserting found (by rw [ready]; exact Stage.noConfusion)
  · have reserved := orderly.reserved call present new inserting
    rw [peers.status_insert] at status
    rw [peers.pool_insert, Function.update_apply]
    by_cases own : id = new
    · subst own
      rw [Peers.status_of_getElem? reserved.idle] at status
      cases status
      exact .inl (if_pos rfl)
    · rcases orderly.running id addr writer status running with pooled | found
      · -- The insertion would take the place of this entry, but the address has none.
        have different : addr ≠ call.request.addr := by
          rintro rfl
          have none := empty (by rw [Call.inserts, inserting])
          dsimp only at pooled
          rw [none] at pooled
          cases pooled
        rw [if_neg different]
        exact .inl pooled
      · refine .inr (exists_inserting found ?_)
        rw [inserting]
        exact fun same => own (Stage.insert.inj same).symm

theorem Orderly.step (orderly : Orderly ⟨peers, before ++ call :: after⟩)
    (alone : call.inserts = true → peers.pool call.request.addr = none ∧
      ∀ other ∈ before ++ call :: after, other.request.addr = call.request.addr → other.evicts = false)
    (advances : call.Advances self peers later next) : Orderly ⟨later, before ++ next :: after⟩ := by
  have sound := orderly.sound call (by simp)
  refine ⟨?_, ?_, ?_, ?_⟩
  · intro addr id pooled
    apply (advances.keeps sound).known
    rcases orderly.pool_gain advances pooled with old | ⟨-, inserting⟩
    · exact orderly.pooled addr id old
    · exact sound.held id (Call.mem_held_of_head (sound.placed id (.inl inserting)))
  · exact orderly.step_sound (fun inserts => (alone inserts).2) advances
  · exact fun other member id inserting => orderly.step_reserved advances member inserting
  · exact fun id addr writer => orderly.step_running (fun inserts => (alone inserts).1) advances

end

theorem Orderly.start {peers : Peers} {calls : List Call} {call : Call} (orderly : Orderly ⟨peers, calls⟩)
    (new : call.isNew = true) : Orderly ⟨peers, calls ++ [call]⟩ := by
  obtain ⟨free, stage⟩ := Call.idle_of_isNew new
  refine ⟨orderly.pooled, ?_, ?_, ?_⟩
  · rw [List.forall_mem_append, List.forall_mem_singleton]
    refine ⟨orderly.sound, ?_, ?_, ?_, ?_⟩
    · rw [free]
      exact List.forall_mem_nil _
    · simp [stage]
    · simp [stage]
    · simp [Call.evicts, stage]
  · intro other member id inserting
    rcases List.mem_append.mp member with old | fresh
    · have reserved := orderly.reserved other old id inserting
      refine ⟨reserved.idle, reserved.unpooled, ?_⟩
      have alone := reserved.alone
      dsimp only at alone ⊢
      rw [Program.total_append, alone, Program.total_cons, free]
      rfl
    · rw [List.mem_singleton.mp fresh, stage] at inserting
      cases inserting
  · intro id addr writer status running
    rcases orderly.running id addr writer status running with pooled | ⟨other, member, inserting⟩
    · exact .inl pooled
    · exact .inr ⟨other, List.mem_append_left _ member, inserting⟩

theorem Orderly.write {peers later : Peers} {calls : List Call} {id : Nat} {connection : Connection}
    (orderly : Orderly ⟨peers, calls⟩) (found : peers.connections[id]? = some connection)
    (writes : peers.Writes id connection later) : Orderly ⟨later, calls⟩ := by
  have settles := writes.settles found (orderly.evictsOwn.writer id connection found)
  refine ⟨?_, ?_, ?_, ?_⟩
  · exact fun addr other pooled => settles.known other (orderly.pooled addr other (settles.pool addr other pooled))
  · exact fun call member => (orderly.sound call member).settle settles
  · intro call member other inserting
    have reserved := orderly.reserved call member other inserting
    refine ⟨(writes.untouched found reserved.idle reserved.unpooled).trans reserved.idle, ?_, reserved.alone⟩
    exact fun addr pooled => reserved.unpooled addr (settles.pool addr other pooled)
  · intro other addr writer status running
    obtain ⟨former, status, running, kept⟩ := settles.running other addr writer status running
    exact (orderly.running other addr former status running).imp_left kept

theorem Orderly.move {c d : Config Peers Call} {move : Move Call Io (Nat × WriteIo)} (orderly : Orderly c)
    (alone : InsertsAlone c move) (moves : sendRemote.Moves c move d) : Orderly d := by
  cases moves with
  | start allowed => exact orderly.start allowed
  | @step peers later before after new call next io stepped =>
    obtain ⟨⟨later, next⟩, advanced, same⟩ := Option.map_eq_some_iff.mp stepped
    cases same
    rw [List.append_nil]
    exact orderly.step (alone call (by simp)) (Call.advances_of_advance advanced)
  | ambient done =>
    obtain ⟨connection, found, writes⟩ := Peers.writes_of_write done
    exact orderly.write found writes

/-- While connections are put into the pool alone, no removal takes the entry of another connection. -/
theorem pool_evicts_own {moves : List (Move Call Io (Nat × WriteIo))} {d : Config Peers Call}
    (meets : sendRemote.machine.Meets InsertsAlone ⟨.empty, []⟩ moves)
    (reached : sendRemote.machine.run ⟨.empty, []⟩ moves = some d) : EvictsOwn d := by
  have start : Orderly ⟨.empty, []⟩ := ⟨nofun, nofun, nofun, nofun⟩
  have orderly : Orderly d :=
    sendRemote.run_invariant_of_meets (fun c move d orderly alone => orderly.move alone) start meets reached
  exact orderly.evictsOwn

def sendTo (addr : String) : Call := ⟨⟨addr, 7, [42], 1024⟩, false, [], .check⟩

def peek (addr : String) (c : Config Peers Call) :
    Option Nat × Option (String × Writer) × Option (String × Writer) :=
  (c.shared.pool addr, c.shared.status 0, c.shared.status 1)

/-- The first connection breaks after the second call has found it. That call
    removes nothing, connects again and succeeds. -/
def retriedSend : List (Move Call Io (Nat × WriteIo)) :=
  [.start (sendTo "node:9000"), .step 0 .done, .step 0 .done, .step 0 .done, .step 0 .done, .step 0 .done,
    .start (sendTo "node:9000"), .step 1 .done, .step 1 .done, .step 0 .done, .ambient (0, .failed),
    .ambient (0, .failed), .ambient (0, .failed), .ambient (0, .failed), .step 1 .done, .step 1 .done,
    .step 1 .done, .step 1 .done, .step 1 .done, .step 1 .done, .step 1 .done]

theorem pool_evicts_own_retried :
    (sendRemote.machine.run ⟨.empty, []⟩ retriedSend).map (peek "node:9000") =
      some (some 1, some ("node:9000", .finished), some ("node:9000", .receiving)) ∧
    ∀ d, sendRemote.machine.run ⟨.empty, []⟩ retriedSend = some d → EvictsOwn d := by
  refine ⟨by decide +kernel, fun d reached => ?_⟩
  exact pool_evicts_own (Machine.meets_of_checks _ (by decide +kernel)) reached

/-- Two calls connect at once. The second connection takes the place of the first
    in the pool, and the writer of the first is about to remove it from there. -/
def twoConnects : List (Move Call Io (Nat × WriteIo)) :=
  [.start (sendTo "node:9000"), .start (sendTo "node:9000"), .step 0 .done, .step 1 .done, .step 0 .done,
    .step 1 .done, .step 0 .done, .step 1 .done, .step 0 .done, .step 1 .done, .step 0 .done, .step 1 .done,
    .step 0 .done, .ambient (0, .failed), .ambient (0, .wrote 14), .ambient (0, .failed)]

theorem live_connection_evicted :
    (sendRemote.machine.run ⟨.empty, []⟩ twoConnects).map (peek "node:9000") =
      some (some 1, some ("node:9000", .leaving), some ("node:9000", .receiving)) ∧
    ¬ ∀ (moves : List (Move Call Io (Nat × WriteIo))) (d : Config Peers Call),
      sendRemote.machine.run ⟨.empty, []⟩ moves = some d → EvictsOwn d := by
  have final : (sendRemote.machine.run ⟨.empty, []⟩ twoConnects).map (peek "node:9000") =
      some (some 1, some ("node:9000", .leaving), some ("node:9000", .receiving)) := by decide +kernel
  refine ⟨final, fun claim => ?_⟩
  obtain ⟨d, reached, seen⟩ := Option.map_eq_some_iff.mp final
  rw [peek, Prod.mk.injEq, Prod.mk.injEq] at seen
  obtain ⟨connection, found, addr, leaving⟩ := Peers.exists_of_status seen.2.1
  have own := (claim twoConnects d reached).writer 0 connection found leaving 1
  rw [addr] at own
  exact absurd (own seen.1) (by decide)

end Myrmidon.Network
