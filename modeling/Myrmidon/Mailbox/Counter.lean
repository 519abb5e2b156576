import Myrmidon.Mailbox.Steps
import Myrmidon.Transition.Interleaving

namespace Myrmidon

open Data Transition

/-- The user messages in the channel and in the stash. -/
def Mailbox.queued (m : Mailbox) : Nat := m.user.queue.length + m.stash.countP fun message => !message.isSystem

/-- The user messages that are counted and neither in the channel nor in the stash. -/
def Sending.held (call : Sending) : Nat :=
  match call.stage, call.message with
  | .push, .user _ | .rollback, .user _ => 1
  | _, _ => 0

def RecvStage.held : RecvStage → Nat
  | .decrement _ => 1
  | _ => 0

/-- What one step does to the counter and to the messages it stands for. -/
inductive Counts (m later : Mailbox) (held after : Nat) : Prop where
  | same (counter : later.counter = m.counter) (size : later.queued + after = m.queued + held)
  | up (counter : later.counter = m.counter + 1) (size : later.queued + after = m.queued + held + 1)
  | down (counter : later.counter = m.counter - 1) (size : later.queued + after + 1 = m.queued + held)

section

variable {m later : Mailbox}

theorem Sending.Steps.counts {call next : Sending} (steps : Steps m call later next) :
    Counts m later call.held next.held := by
  cases steps with
  | counted => exact .up rfl rfl
  | pushed alive =>
    refine .same rfl ?_
    simp only [Mailbox.queued, held, List.length_append, List.length_singleton]
    omega
  | refused closed => exact .same rfl rfl
  | rolledBack => exact .down rfl rfl
  | pushedSystem alive => exact .same rfl rfl
  | refusedSystem closed => exact .same rfl rfl

theorem held_deliver (message : Message) :
    (RecvStage.deliver message).held = if message.isSystem then 0 else 1 := by
  cases message <;> rfl

theorem countP_eraseIdx {stash : List Message} {pos : Nat} {found : Message} (present : stash[pos]? = some found) :
    (stash.eraseIdx pos).countP (fun message => !message.isSystem) + (RecvStage.deliver found).held =
      stash.countP fun message => !message.isSystem := by
  obtain ⟨inside, rfl⟩ := List.getElem?_eq_some_iff.mp present
  rw [held_deliver]
  have split : stash = stash.take pos ++ stash[pos] :: stash.drop (pos + 1) := by
    rw [List.cons_getElem_drop_succ, List.take_append_drop]
  rw [List.eraseIdx_eq_take_drop_succ, List.countP_append]
  conv_rhs => rw [split, List.countP_append, List.countP_cons]
  cases stash[pos].isSystem
  · simp
    omega
  · simp

/-- A message that comes from a queue is stashed or on its way to the caller. -/
theorem RecvStage.offer_counts (kind : RecvKind) (answers : List Bool) (message : Message) :
    let (after, stage) := offer m kind answers message
    after.counter = m.counter ∧ after.queued + stage.held = m.queued + (deliver message).held := by
  cases kind with
  | recv => exact ⟨rfl, rfl⟩
  | tryRecv => exact ⟨rfl, rfl⟩
  | selective =>
    simp only [offer]
    split
    · exact ⟨rfl, rfl⟩
    · refine ⟨rfl, ?_⟩
      rw [held_deliver]
      simp only [Mailbox.queued, List.countP_append, List.countP_singleton, held]
      cases message.isSystem
      · simp
        omega
      · simp

theorem RecvStage.offered {before : Mailbox} {held : Nat} (kind : RecvKind) (answers : List Bool) {message : Message}
    (counter : m.counter = before.counter) (size : m.queued + (deliver message).held = before.queued + held) :
    Counts before (offer m kind answers message).1 held (offer m kind answers message).2.held := by
  have offer := offer_counts kind answers message (m := m)
  exact .same (offer.1.trans counter) (offer.2.trans size)

theorem RecvStage.step_counts (m : Mailbox) (stage : RecvStage) (input : RecvInput) :
    Counts m (stage.step m input).1 stage.held (stage.step m input).2.held := by
  cases stage with
  | idle => exact .same rfl rfl
  | returned result => exact .same rfl rfl
  | searchStash kind =>
    simp only [step]
    split
    · rename_i pos found searched
      obtain ⟨index, -, taken⟩ := Option.bind_eq_some_iff.mp searched
      obtain ⟨message, present, same⟩ := Option.map_eq_some_iff.mp taken
      cases same
      refine .same rfl ?_
      have count := countP_eraseIdx present
      show _ + _ = _ + 0
      simp only [Mailbox.queued]
      omega
    · exact .same rfl rfl
  | trySys kind =>
    simp only [step]
    split
    · exact offered kind input.answers rfl rfl
    · cases kind <;> exact .same rfl rfl
  | popStash kind =>
    simp only [step]
    split
    · rename_i front stash found
      refine .same rfl ?_
      rw [held_deliver]
      simp only [Mailbox.queued, found, List.countP_cons, held]
      cases front.isSystem
      · simp
        omega
      · simp
    · cases kind <;> exact .same rfl rfl
  | tryUser =>
    simp only [step, Channel.tryRecv]
    cases queue : m.user.queue with
    | nil => exact .same rfl rfl
    | cons bytes rest =>
      refine .same rfl ?_
      simp only [Mailbox.queued, queue, deliver, held, List.length_cons]
      omega
  | selectSys kind =>
    simp only [step]
    split
    · exact offered kind input.answers rfl rfl
    · exact .same rfl rfl
    · exact .same rfl rfl
  | selectUser kind =>
    simp only [step, Channel.recv]
    cases queue : m.user.queue with
    | nil =>
      cases m.user.senderAlive
      · exact .same rfl rfl
      · exact .same rfl rfl
    | cons bytes rest =>
      refine offered kind input.answers rfl ?_
      simp only [Mailbox.queued, queue, deliver, held, List.length_cons]
      omega
  | waiting kind =>
    simp only [step]
    split <;> exact .same rfl rfl
  | decrement message => exact .down rfl rfl

end

/-- A sender's call, the receiver, and the receiver while and after it is dropped. -/
inductive Party where
  | sender (call : Sending)
  | receiver (stage : RecvStage)
  | closing
  | gone

inductive PartyInput where
  | receive (input : RecvInput)
  | drop

/-- A receiver is dropped outside of its calls, or with a call that waits. -/
def RecvStage.droppable : RecvStage → Bool
  | .idle | .returned _ | .waiting _ => true
  | _ => false

namespace Party

def step (m : Mailbox) (party : Party) (input : PartyInput) : Option (Mailbox × Party) :=
  match party, input with
  | .sender call, _ => (call.step m).map fun (m, call) => (m, .sender call)
  | .receiver stage, .receive input =>
    let (m, stage) := stage.step m input
    some (m, .receiver stage)
  | .receiver stage, .drop =>
    if stage.droppable then some ({ m with user := { m.user with receiverAlive := false } }, .closing) else none
  | .closing, _ => some ({ m with sys := { m.sys with receiverAlive := false } }, .gone)
  | .gone, _ => none

def held : Party → Nat
  | .sender call => call.held
  | .receiver stage => stage.held
  | .closing | .gone => 0

/-- The next step of the party is a `fetch_sub`. -/
def Subtracts : Party → Prop
  | .sender call => ∃ bytes, call = ⟨.user bytes, .rollback⟩
  | .receiver stage => ∃ message, stage = .decrement message
  | .closing | .gone => False

/-- The party is in the middle of a send or a receive. -/
def Midway : Party → Prop
  | .sender call => (∀ result, call.stage ≠ .returned result) ∧ call.stage ≠ .increment
  | .receiver stage => stage ≠ .idle ∧ ∀ result, stage ≠ .returned result
  | .closing | .gone => False

inductive Steps (m : Mailbox) : Party → Mailbox → Party → Prop where
  | sent {call next : Sending} {later : Mailbox} (steps : call.Steps m later next) :
      Steps m (.sender call) later (.sender next)
  | received {stage : RecvStage} {input : RecvInput} :
      Steps m (.receiver stage) (stage.step m input).1 (.receiver (stage.step m input).2)
  | dropped {stage : RecvStage} (allowed : stage.droppable = true) :
      Steps m (.receiver stage) { m with user := { m.user with receiverAlive := false } } .closing
  | closed : Steps m .closing { m with sys := { m.sys with receiverAlive := false } } .gone

theorem steps_of_step {m later : Mailbox} {party next : Party} {input : PartyInput}
    (stepped : party.step m input = some (later, next)) : Steps m party later next := by
  cases party with
  | sender call =>
    obtain ⟨⟨m', call'⟩, taken, same⟩ := Option.map_eq_some_iff.mp stepped
    cases same
    exact .sent (Sending.steps_of_step taken)
  | receiver stage =>
    cases input with
    | receive input =>
      cases stepped
      exact .received
    | drop =>
      simp only [step] at stepped
      split at stepped
      · rename_i allowed
        cases stepped
        exact .dropped allowed
      · cases stepped
  | closing =>
    cases stepped
    exact .closed
  | gone => cases stepped

end Party

/-- One mailbox with its receiver and any number of concurrent sends. The
    ambient operation drops the senders. -/
def traffic : Program Mailbox Party PartyInput Unit where
  starts
    | .sender ⟨.user _, .increment⟩ => true
    | .sender ⟨.system _, .push⟩ => true
    | _ => false
  step _ m party input := (party.step m input).map fun (m, party) => (m, party, [])
  ambient m _ := some m.dropSenders

def Quiet (c : Config Mailbox Party) : Prop := ∀ party ∈ c.threads, ¬ party.Midway

/-- The counter is the number of the user messages in the mailbox and in the
    hands of its parties. -/
structure Exact (c : Config Mailbox Party) : Prop where
  counted : c.shared.counter = BitVec.ofNat 64 (c.shared.queued + Program.total Party.held c.threads)
  positive : ∀ party ∈ c.threads, party.Subtracts → 0 < c.shared.queued + Program.total Party.held c.threads
  len : c.shared.user.receiverAlive = true → Quiet c → c.shared.len = BitVec.ofNat 64 c.shared.queued
  returned : ∀ message other, .sender ⟨message, .returned (.error other)⟩ ∈ c.threads → other = message

/-- A receiver that can be dropped has nothing in its hands. -/
theorem RecvStage.held_of_droppable {stage : RecvStage} (allowed : stage.droppable = true) : stage.held = 0 := by
  cases stage with
  | decrement message => cases allowed
  | _ => rfl

theorem Party.Steps.counts {m later : Mailbox} {party next : Party} (steps : Steps m party later next) :
    Counts m later party.held next.held := by
  cases steps with
  | sent steps => exact steps.counts
  | @received stage input => exact stage.step_counts m input
  | dropped allowed =>
    rw [Party.held, RecvStage.held_of_droppable allowed]
    exact .same rfl rfl
  | closed => exact .same rfl rfl

theorem Party.held_of_subtracts {party : Party} (subtracts : party.Subtracts) : party.held = 1 := by
  cases party with
  | sender call =>
    obtain ⟨bytes, rfl⟩ := subtracts
    rfl
  | receiver stage =>
    obtain ⟨message, rfl⟩ := subtracts
    rfl
  | closing => cases subtracts
  | gone => cases subtracts

theorem Party.held_of_quiet {party : Party} (quiet : ¬ party.Midway) : party.held = 0 := by
  cases party with
  | sender call =>
    rcases call with ⟨message, stage⟩
    cases stage with
    | push => exact absurd ⟨nofun, nofun⟩ quiet
    | rollback => exact absurd ⟨nofun, nofun⟩ quiet
    | increment => cases message <;> rfl
    | returned result => cases message <;> rfl
  | receiver stage =>
    cases stage with
    | decrement message => exact absurd ⟨nofun, nofun⟩ quiet
    | _ => rfl
  | closing => rfl
  | gone => rfl

theorem total_of_quiet {c : Config Mailbox Party} (quiet : Quiet c) : Program.total Party.held c.threads = 0 := by
  apply List.sum_eq_zero
  intro held member
  obtain ⟨party, present, rfl⟩ := List.mem_map.mp member
  exact Party.held_of_quiet (quiet party present)

theorem Counts.counted {m later : Mailbox} {held after rest : Nat} (counts : Counts m later held after)
    (counted : m.counter = BitVec.ofNat 64 (m.queued + (held + rest))) :
    later.counter = BitVec.ofNat 64 (later.queued + (after + rest)) := by
  cases counts with
  | same counter size =>
    rw [counter, counted, ← Nat.add_assoc, ← Nat.add_assoc, size]
  | up counter size =>
    have one : later.queued + (after + rest) = m.queued + (held + rest) + 1 := by omega
    rw [counter, counted, one]
    exact (BitVec.ofNat_add _ 1).symm
  | down counter size =>
    have one : m.queued + (held + rest) = later.queued + (after + rest) + 1 := by omega
    rw [counter, counted, one, BitVec.ofNat_add]
    apply BitVec.add_sub_cancel

def Party.receives : Party → Nat
  | .receiver _ => 1
  | _ => 0

theorem traffic_start {party : Party} (allowed : traffic.starts party = true) : party.receives = 0 ∧ party.held = 0 := by
  cases party with
  | sender call =>
    rcases call with ⟨message, stage⟩
    cases message <;> cases stage <;> first | exact ⟨rfl, rfl⟩ | cases allowed
  | _ => cases allowed

theorem traffic_counted {c d : Config Mailbox Party} {move : Move Party PartyInput Unit}
    (counted : c.shared.counter = BitVec.ofNat 64 (c.shared.queued + Program.total Party.held c.threads))
    (moves : traffic.Moves c move d) :
    d.shared.counter = BitVec.ofNat 64 (d.shared.queued + Program.total Party.held d.threads) := by
  cases moves with
  | @start m threads party allowed =>
    dsimp only
    rw [Program.total_append, Program.total_cons, (traffic_start allowed).2]
    exact counted
  | @step m later before after new party next input stepped =>
    obtain ⟨⟨m', party'⟩, taken, same⟩ := Option.map_eq_some_iff.mp stepped
    cases same
    have counts := (Party.steps_of_step taken).counts
    have total : ∀ other : Party, Program.total Party.held (before ++ other :: after) =
        other.held + (Program.total Party.held before + Program.total Party.held after) := by
      intro other
      rw [Program.total_append, Program.total_cons]
      omega
    dsimp only at counted ⊢
    rw [total] at counted
    rw [List.append_nil, total]
    exact counts.counted counted
  | ambient done =>
    cases done
    exact counted

/-- A failed send gives its own message back. -/
def Party.GivesBack : Party → Prop
  | .sender call => ∀ other, call.stage = .returned (.error other) → other = call.message
  | _ => True

theorem traffic_givesBack {c d : Config Mailbox Party} {move : Move Party PartyInput Unit}
    (all : ∀ party ∈ c.threads, party.GivesBack) (moves : traffic.Moves c move d) :
    ∀ party ∈ d.threads, party.GivesBack := by
  refine moves.forall_threads all ?_ ?_
  · rintro party - allowed
    cases party with
    | sender call =>
      intro other failed
      rcases call with ⟨message, stage⟩
      cases failed
      cases message <;> cases allowed
    | _ => trivial
  · intro index party input later next new _ stepped
    obtain ⟨⟨m', party'⟩, taken, same⟩ := Option.map_eq_some_iff.mp stepped
    cases same
    refine ⟨?_, by simp⟩
    cases Party.steps_of_step taken with
    | sent steps =>
      intro other failed
      cases steps <;> cases failed <;> rfl
    | _ => trivial

/-- There is one receiver, until it is dropped. -/
def Attached (c : Config Mailbox Party) : Prop :=
  Program.total Party.receives c.threads ≤ if c.shared.user.receiverAlive then 1 else 0

/-- A dropped receiver leaves everything where it is, for no one to read. -/
structure Abandoned (queued : Nat) (c : Config Mailbox Party) : Prop where
  closed : c.shared.user.receiverAlive = false
  absent : Program.total Party.receives c.threads = 0
  frozen : c.shared.queued = queued

theorem total_receives (before after : List Party) (party : Party) :
    Program.total Party.receives (before ++ party :: after) =
      party.receives + (Program.total Party.receives before + Program.total Party.receives after) := by
  rw [Program.total_append, Program.total_cons]
  omega

theorem Sending.Steps.frame {m later : Mailbox} {call next : Sending} (steps : Steps m call later next) :
    later.user.receiverAlive = m.user.receiverAlive ∧ (m.user.receiverAlive = false → later.queued = m.queued) := by
  cases steps with
  | pushed alive => exact ⟨rfl, fun closed => absurd alive (by simp [closed])⟩
  | _ => exact ⟨rfl, fun _ => rfl⟩

theorem RecvStage.step_alive (m : Mailbox) (stage : RecvStage) (input : RecvInput) :
    (stage.step m input).1.user.receiverAlive = m.user.receiverAlive := by
  have offered : ∀ (other : Mailbox) kind message, (offer other kind input.answers message).1.user = other.user := by
    intro other kind message
    cases kind with
    | selective =>
      simp only [offer]
      split <;> rfl
    | _ => rfl
  cases stage with
  | searchStash kind =>
    simp only [step]
    split <;> rfl
  | trySys kind =>
    simp only [step]
    split
    · rw [offered]
    · cases kind <;> rfl
  | popStash kind =>
    simp only [step]
    split
    · rfl
    · cases kind <;> rfl
  | tryUser =>
    simp only [step, Channel.tryRecv]
    cases m.user.queue <;> rfl
  | selectSys kind =>
    simp only [step]
    split
    · rw [offered]
    · rfl
    · rfl
  | selectUser kind =>
    simp only [step, Channel.recv]
    cases m.user.queue with
    | nil => cases m.user.senderAlive <;> rfl
    | cons bytes rest =>
      dsimp only
      rw [offered]
  | waiting kind =>
    simp only [step]
    split <;> rfl
  | _ => rfl

/-- What a step does to the receiver's half of the user channel. -/
theorem Party.Steps.frame {m later : Mailbox} {party next : Party} (steps : Steps m party later next) :
    (next.receives = party.receives ∧ later.user.receiverAlive = m.user.receiverAlive ∧
      (party.receives = 0 → m.user.receiverAlive = false → later.queued = m.queued)) ∨
      party.receives = 1 ∧ next.receives = 0 := by
  cases steps with
  | sent steps => exact .inl ⟨rfl, steps.frame.1, fun _ => steps.frame.2⟩
  | @received stage input => exact .inl ⟨rfl, stage.step_alive m input, nofun⟩
  | dropped allowed => exact .inr ⟨rfl, rfl⟩
  | closed => exact .inl ⟨rfl, rfl, fun _ _ => rfl⟩

theorem Attached.move {c d : Config Mailbox Party} {move : Move Party PartyInput Unit} (attached : Attached c)
    (moves : traffic.Moves c move d) : Attached d := by
  unfold Attached at attached ⊢
  cases moves with
  | start allowed =>
    dsimp only at attached ⊢
    rw [Program.total_append, Program.total_cons, (traffic_start allowed).1]
    exact attached
  | @step m later before after new party next input stepped =>
    obtain ⟨⟨m', party'⟩, taken, same⟩ := Option.map_eq_some_iff.mp stepped
    cases same
    dsimp only at attached ⊢
    rw [total_receives] at attached
    rw [List.append_nil, total_receives]
    rcases (Party.steps_of_step taken).frame with ⟨receives, alive, -⟩ | ⟨before, after⟩
    · rwa [receives, alive]
    · have bound : ∀ alive : Bool, (if alive = true then 1 else 0) ≤ 1 := by decide
      have := bound m.user.receiverAlive
      omega
  | ambient done =>
    cases done
    exact attached

theorem Abandoned.move {queued : Nat} {c d : Config Mailbox Party} {move : Move Party PartyInput Unit}
    (abandoned : Abandoned queued c) (moves : traffic.Moves c move d) : Abandoned queued d := by
  obtain ⟨closed, absent, frozen⟩ := abandoned
  cases moves with
  | start allowed =>
    refine ⟨closed, ?_, frozen⟩
    dsimp only at absent ⊢
    rw [Program.total_append, Program.total_cons, (traffic_start allowed).1]
    exact absent
  | @step m later before after new party next input stepped =>
    obtain ⟨⟨m', party'⟩, taken, same⟩ := Option.map_eq_some_iff.mp stepped
    cases same
    dsimp only at closed absent frozen
    rw [total_receives] at absent
    rcases (Party.steps_of_step taken).frame with ⟨receives, alive, kept⟩ | ⟨mine, -⟩
    · refine ⟨alive.trans closed, ?_, (kept (by omega) closed).trans frozen⟩
      dsimp only
      rw [List.append_nil, total_receives]
      omega
    · omega
  | ambient done =>
    cases done
    exact ⟨closed, absent, frozen⟩

/-- In every interleaving of the sends and the receives of one mailbox the
    counter is exact, and failed sends leave it as it was. -/
theorem mailbox_size_exact {moves : List (Move Party PartyInput Unit)} {d : Config Mailbox Party}
    (reached : traffic.machine.run ⟨.channel, [.receiver .idle]⟩ moves = some d) :
    Exact d ∧ ∀ (later : List (Move Party PartyInput Unit)) (e : Config Mailbox Party),
      traffic.machine.run d later = some e → d.shared.user.receiverAlive = false → Quiet d → Quiet e →
        e.shared.len = d.shared.len := by
  have counts : ∀ {c e : Config Mailbox Party} {moves : List (Move Party PartyInput Unit)},
      c.shared.counter = BitVec.ofNat 64 (c.shared.queued + Program.total Party.held c.threads) →
      traffic.machine.run c moves = some e →
      e.shared.counter = BitVec.ofNat 64 (e.shared.queued + Program.total Party.held e.threads) := by
    intro c e moves counted reached
    exact traffic.machine.run_invariant (P := fun c : Config Mailbox Party =>
        c.shared.counter = BitVec.ofNat 64 (c.shared.queued + Program.total Party.held c.threads))
      (fun c move d counted taken => traffic_counted counted (traffic.moves_of_step taken)) counted reached
  have counted := counts rfl reached
  have quietly : ∀ {e : Config Mailbox Party}, Quiet e →
      e.shared.counter = BitVec.ofNat 64 (e.shared.queued + Program.total Party.held e.threads) →
      e.shared.len = BitVec.ofNat 64 e.shared.queued := by
    intro e quiet counted
    rwa [total_of_quiet quiet] at counted
  refine ⟨⟨counted, ?_, fun _ quiet => quietly quiet counted, ?_⟩, ?_⟩
  · intro party member subtracts
    have held := Party.held_of_subtracts subtracts
    obtain ⟨before, after, split⟩ := List.append_of_mem member
    rw [split, Program.total_append, Program.total_cons]
    omega
  · intro message other member
    have all : ∀ party ∈ d.threads, party.GivesBack :=
      traffic.machine.run_invariant (P := fun c : Config Mailbox Party => ∀ party ∈ c.threads, party.GivesBack)
        (fun c move d all taken => traffic_givesBack all (traffic.moves_of_step taken))
        (by simp [Party.GivesBack]) reached
    exact all _ member other rfl
  · intro later e continued closed quiet quiet'
    have single : Attached ⟨.channel, [.receiver .idle]⟩ := Nat.le_refl 1
    have attached : Attached d :=
      traffic.machine.run_invariant (fun c move d attached taken => attached.move (traffic.moves_of_step taken))
        single reached
    rw [Attached, closed] at attached
    have abandoned : Abandoned d.shared.queued e :=
      traffic.machine.run_invariant (fun c move d abandoned taken => abandoned.move (traffic.moves_of_step taken))
        ⟨closed, Nat.le_zero.mp attached, rfl⟩ continued
    rw [quietly quiet counted, quietly quiet' (counts counted continued), abandoned.frozen]

/-- A message is stashed by a selective receive that is then dropped, and is
    received from the stash; a second send fails because the receiver is dropped
    while it is on its way. -/
def stashedAndDropped : List (Move Party PartyInput Unit) :=
  let receive : Move Party PartyInput Unit := .step 0 (.receive ⟨.recv, [], true⟩)
  let begin : Move Party PartyInput Unit := .step 0 (.receive ⟨.selective, [], true⟩)
  [.start (.sender (.new (.user [1]))), .step 1 .drop, .step 1 .drop, begin] ++ List.replicate 8 receive ++
    List.replicate 5 receive ++ [.start (.sender (.new (.user [2]))), .step 2 .drop, .step 0 .drop, .step 2 .drop,
      .step 0 .drop, .step 2 .drop]

theorem mailbox_size_exact_dropped :
    (traffic.machine.run ⟨.channel, [.receiver .idle]⟩ stashedAndDropped).map
      (fun d => (d.shared.len, d.shared.user.receiverAlive)) = some (0, false) ∧
    ∀ d, traffic.machine.run ⟨.channel, [.receiver .idle]⟩ stashedAndDropped = some d → Exact d :=
  ⟨by decide +kernel, fun _ reached => (mailbox_size_exact reached).1⟩

end Myrmidon
