import Myrmidon.Mailbox.Steps
import Myrmidon.Transition.Interleaving

namespace Myrmidon

open Data Transition

/-- An actor that runs its handler inline, with what it has executed: each user
    message and the handler that got it. -/
structure Actor where
  mailbox : Mailbox
  stage : RecvStage
  behaviour : BitVec 64
  executed : List (Bytes × BitVec 64)

namespace Actor

def new (behaviour : BitVec 64) : Actor := ⟨.channel, .idle, behaviour, []⟩

/-- The loop of the actor: it handles what `recv` has returned and calls `recv` again. -/
def step (a : Actor) : Option Actor :=
  match a.stage with
  | .returned none => none
  | .returned (some (.user bytes)) =>
    some { a with executed := a.executed ++ [(bytes, a.behaviour)], stage := .searchStash .recv }
  | .returned (some (.system (.hotSwap handler))) =>
    some { a with behaviour := handler, stage := .searchStash .recv }
  | .returned (some (.system _)) => some { a with stage := .searchStash .recv }
  | stage =>
    let (mailbox, stage) := stage.step a.mailbox ⟨.recv, [], false⟩
    some { a with mailbox, stage }

/-- The user message that is on its way to the handler. -/
def hand (a : Actor) : List Bytes :=
  match a.stage with
  | .decrement (.user bytes) | .returned (some (.user bytes)) => [bytes]
  | _ => []

def pending (a : Actor) : List Bytes := a.hand ++ a.mailbox.user.queue

/-- Every user message that was put into the mailbox, in order. -/
def messages (a : Actor) : List Bytes := a.executed.map Prod.fst ++ a.pending

end Actor

def SystemMessage.handler? : SystemMessage → Option (BitVec 64)
  | .hotSwap handler => some handler
  | _ => none

namespace Actor

def swapping (a : Actor) : List (BitVec 64) :=
  match a.stage with
  | .returned (some (.system message)) => message.handler?.toList
  | _ => []

/-- The handlers that are not yet in place, in order. -/
def swaps (a : Actor) : List (BitVec 64) := a.swapping ++ a.mailbox.sys.queue.filterMap SystemMessage.handler?

/-- The handler after all swaps under way. -/
def outcome (a : Actor) : BitVec 64 := a.swaps.getLastD a.behaviour

/-- The actor will handle a user message before it looks at the system queue again. -/
def Past (a : Actor) : Prop := a.stage = .selectUser .recv ∨ a.hand ≠ []

end Actor

def Sending.isNew (call : Sending) : Bool :=
  match call.stage, call.message with
  | .increment, .user _ | .push, .system _ => true
  | _, _ => false

/-- `Runtime::send` and `Runtime::hot_swap` look for the sender first. -/
def Actor.send (a : Actor) (call : Sending) : Option (Actor × Sending) :=
  if call.isNew && !a.mailbox.user.senderAlive then
    some (a, { call with stage := .returned (.error call.message) })
  else (call.step a.mailbox).map fun (mailbox, call) => ({ a with mailbox }, call)

/-- A client that calls `hot_swap` and then `send`; it remembers how many user
    messages were put into the mailbox before its own. -/
inductive SwapStage where
  | swap
  | send (call : Sending)
  | sent (position : Nat)
  | failed
  deriving DecidableEq

inductive Client where
  | sending (call : Sending)
  | swapping (handler : BitVec 64) (bytes : Bytes) (stage : SwapStage)
  deriving DecidableEq

def Client.step (a : Actor) : Client → Option (Actor × Client)
  | .sending call => (a.send call).map fun (a, call) => (a, .sending call)
  | .swapping handler bytes .swap =>
    (a.send (.new (.system (.hotSwap handler)))).map fun (a, _) =>
      (a, .swapping handler bytes (.send (.new (.user bytes))))
  | .swapping handler bytes (.send call) =>
    (a.send call).map fun (later, call) =>
      match call.stage with
      | .returned (.ok _) => (later, .swapping handler bytes (.sent a.messages.length))
      | .returned (.error _) => (later, .swapping handler bytes .failed)
      | _ => (later, .swapping handler bytes (.send call))
  | _ => none

inductive ActorOperation where
  | act
  | stop

/-- One push actor and any number of clients. -/
def pushActor : Program Actor Client Unit ActorOperation where
  starts
    | .sending call => call.isNew
    | .swapping _ _ .swap => true
    | _ => false
  step _ a client _ := (client.step a).map fun (a, client) => (a, client, [])
  ambient a
    | .act => a.step
    | .stop => some { a with mailbox := a.mailbox.dropSenders }

/-- What the next step of a send puts into the mailbox. -/
def Sending.users (call : Sending) : List Bytes :=
  match call.stage, call.message with
  | .push, .user bytes => [bytes]
  | _, _ => []

def Sending.handlers (call : Sending) : List (BitVec 64) :=
  match call.stage, call.message with
  | .push, .system message => message.handler?.toList
  | _, _ => []

def Client.pushesSwap : Client → Bool
  | .sending call | .swapping _ _ (.send call) => !call.handlers.isEmpty
  | .swapping _ _ .swap => true
  | _ => false

/-- The client has swapped the handler and its message is not yet executed. -/
def Client.awaits (a : Actor) : Client → Bool
  | .swapping _ _ (.send _) => true
  | .swapping _ _ (.sent position) => decide (a.executed.length ≤ position)
  | _ => false

/-- No other swap between the swap of this client and the execution of its message. -/
def NoOtherSwap (index : Nat) (c : Config Actor Client) : Move Client Unit ActorOperation → Prop
  | .step other _ => other ≠ index → (c.threads[index]?).any (Client.awaits c.shared) = true →
      (c.threads[other]?).any Client.pushesSwap = false
  | _ => True

/-- The client's message does not enter an empty queue between the two looks of
    a `select!` that has missed the swap. -/
def Client.InTime (a : Actor) : Client → Prop
  | .swapping handler _ (.send ⟨_, .push⟩) => a.stage = .selectUser .recv → a.mailbox.user.queue = [] →
      .hotSwap handler ∉ a.mailbox.sys.queue
  | _ => True

def SentInTime (index : Nat) (c : Config Actor Client) : Move Client Unit ActorOperation → Prop
  | .step other _ => other = index → ∀ client ∈ c.threads[index]?, client.InTime c.shared
  | _ => True

instance (index : Nat) (c : Config Actor Client) : DecidablePred (NoOtherSwap index c)
  | .step other _ => inferInstanceAs (Decidable (other ≠ index →
      (c.threads[index]?).any (Client.awaits c.shared) = true → (c.threads[other]?).any Client.pushesSwap = false))
  | .start _ => .isTrue trivial
  | .ambient _ => .isTrue trivial

instance (a : Actor) : DecidablePred (Client.InTime a)
  | .swapping handler _ (.send ⟨_, .push⟩) => inferInstanceAs (Decidable (a.stage = .selectUser .recv →
      a.mailbox.user.queue = [] → .hotSwap handler ∉ a.mailbox.sys.queue))
  | .swapping _ _ (.send ⟨_, .increment⟩) => .isTrue trivial
  | .swapping _ _ (.send ⟨_, .rollback⟩) => .isTrue trivial
  | .swapping _ _ (.send ⟨_, .returned _⟩) => .isTrue trivial
  | .swapping _ _ .swap => .isTrue trivial
  | .swapping _ _ (.sent _) => .isTrue trivial
  | .swapping _ _ .failed => .isTrue trivial
  | .sending _ => .isTrue trivial

instance (index : Nat) (c : Config Actor Client) : DecidablePred (SentInTime index c)
  | .step other _ => inferInstanceAs (Decidable (other = index → ∀ client ∈ c.threads[index]?, client.InTime c.shared))
  | .start _ => .isTrue trivial
  | .ambient _ => .isTrue trivial

/-- The stages of `recv`, which never stashes anything. -/
def RecvStage.ofRecv : RecvStage → Bool
  | .idle | .returned _ | .decrement (.user _) => true
  | .searchStash kind | .trySys kind | .popStash kind | .selectSys kind | .selectUser kind | .waiting kind =>
    kind == .recv
  | _ => false

namespace Actor

structure Sound (a : Actor) : Prop where
  stash : a.mailbox.stash = []
  stage : a.stage.ofRecv = true
  user : a.mailbox.user.receiverAlive = true
  sys : a.mailbox.sys.receiverAlive = true
  senders : a.mailbox.user.senderAlive = a.mailbox.sys.senderAlive
  running : a.mailbox.user.senderAlive = true → a.stage ≠ .returned none

/-- Everything one step of the actor can do. -/
inductive Acts (a later : Actor) : Prop where
  | looked (executed : later.executed = a.executed) (behaviour : later.behaviour = a.behaviour)
      (pending : later.pending = a.pending) (swaps : later.swaps = a.swaps)
      (past : later.Past → a.Past ∨ a.swaps = [])
  | ran {bytes : Bytes} {rest : List Bytes} (executed : later.executed = a.executed ++ [(bytes, a.behaviour)])
      (behaviour : later.behaviour = a.behaviour) (hand : a.hand ≠ []) (before : a.pending = bytes :: rest)
      (after : later.pending = rest) (swaps : later.swaps = a.swaps) (past : ¬ later.Past)
  | swapped {handler : BitVec 64} (executed : later.executed = a.executed) (behaviour : later.behaviour = handler)
      (pending : later.pending = a.pending) (swaps : a.swaps = handler :: later.swaps) (past : ¬ later.Past)

theorem acts_of_step {a later : Actor} (sound : a.Sound) (stepped : a.step = some later) :
    (later.Sound ∧ later.mailbox.user.senderAlive = a.mailbox.user.senderAlive) ∧ Acts a later := by
  rcases a with ⟨⟨⟨queue, userSenders, userReceiver⟩, ⟨sysQueue, sysSenders, sysReceiver⟩, stash, counter⟩, stage,
    behaviour, executed⟩
  obtain ⟨empty, ofRecv, user, sys, senders, running⟩ := sound
  dsimp only at empty ofRecv user sys senders running
  subst empty user sys senders
  have kind : ∀ {other : RecvKind}, (other == .recv) = true → other = .recv := fun same => eq_of_beq same
  cases stage with
  | idle =>
    cases stepped
    exact ⟨⟨⟨rfl, rfl, rfl, rfl, rfl, nofun⟩, rfl⟩, .looked rfl rfl rfl rfl (by simp [Past, hand])⟩
  | searchStash other =>
    cases kind ofRecv
    cases stepped
    exact ⟨⟨⟨rfl, rfl, rfl, rfl, rfl, nofun⟩, rfl⟩, .looked rfl rfl rfl rfl (by simp [Past, hand])⟩
  | trySys other =>
    cases kind ofRecv
    cases sysQueue with
    | nil =>
      cases stepped
      exact ⟨⟨⟨rfl, rfl, rfl, rfl, rfl, nofun⟩, rfl⟩, .looked rfl rfl rfl rfl (by simp [Past, hand])⟩
    | cons message rest =>
      cases stepped
      refine ⟨⟨⟨rfl, rfl, rfl, rfl, rfl, nofun⟩, rfl⟩, .looked rfl rfl rfl ?_ (by simp [Past, hand, RecvStage.deliver])⟩
      cases message <;> rfl
  | popStash other =>
    cases kind ofRecv
    cases stepped
    exact ⟨⟨⟨rfl, rfl, rfl, rfl, rfl, nofun⟩, rfl⟩, .looked rfl rfl rfl rfl (by simp [Past, hand])⟩
  | tryUser => cases ofRecv
  | selectSys other =>
    cases kind ofRecv
    cases sysQueue with
    | nil =>
      cases userSenders with
      | true =>
        cases stepped
        exact ⟨⟨⟨rfl, rfl, rfl, rfl, rfl, nofun⟩, rfl⟩, .looked rfl rfl rfl rfl (fun _ => .inr rfl)⟩
      | false =>
        cases stepped
        exact ⟨⟨⟨rfl, rfl, rfl, rfl, rfl, nofun⟩, rfl⟩, .looked rfl rfl rfl rfl (by simp [Past, hand])⟩
    | cons message rest =>
      cases stepped
      refine ⟨⟨⟨rfl, rfl, rfl, rfl, rfl, nofun⟩, rfl⟩, .looked rfl rfl rfl ?_ (by simp [Past, hand, RecvStage.deliver])⟩
      cases message <;> rfl
  | selectUser other =>
    cases kind ofRecv
    cases queue with
    | nil =>
      cases userSenders with
      | true =>
        cases stepped
        exact ⟨⟨⟨rfl, rfl, rfl, rfl, rfl, nofun⟩, rfl⟩, .looked rfl rfl rfl rfl (fun _ => .inl (.inl rfl))⟩
      | false =>
        cases stepped
        exact ⟨⟨⟨rfl, rfl, rfl, rfl, rfl, nofun⟩, rfl⟩, .looked rfl rfl rfl rfl (fun _ => .inl (.inl rfl))⟩
    | cons bytes rest =>
      cases stepped
      exact ⟨⟨⟨rfl, rfl, rfl, rfl, rfl, nofun⟩, rfl⟩, .looked rfl rfl rfl rfl (fun _ => .inl (.inl rfl))⟩
  | waiting other =>
    cases kind ofRecv
    cases stepped
    exact ⟨⟨⟨rfl, rfl, rfl, rfl, rfl, nofun⟩, rfl⟩, .looked rfl rfl rfl rfl (by simp [Past, hand])⟩
  | decrement message =>
    cases message with
    | system message => cases ofRecv
    | user bytes =>
      cases stepped
      exact ⟨⟨⟨rfl, rfl, rfl, rfl, rfl, nofun⟩, rfl⟩, .looked rfl rfl rfl rfl (fun _ => .inl (.inr (by simp [hand])))⟩
  | returned result =>
    cases result with
    | none => cases stepped
    | some message =>
      cases message with
      | user bytes =>
        cases stepped
        exact ⟨⟨⟨rfl, rfl, rfl, rfl, rfl, nofun⟩, rfl⟩, .ran rfl rfl (by simp [hand]) rfl rfl rfl (by simp [Past, hand])⟩
      | system message =>
        cases message with
        | hotSwap handler =>
          cases stepped
          exact ⟨⟨⟨rfl, rfl, rfl, rfl, rfl, nofun⟩, rfl⟩, .swapped rfl rfl rfl rfl (by simp [Past, hand])⟩
        | _ =>
          cases stepped
          exact ⟨⟨⟨rfl, rfl, rfl, rfl, rfl, nofun⟩, rfl⟩, .looked rfl rfl rfl rfl (by simp [Past, hand])⟩

/-- The actor after a step of a send. -/
structure Gains (a later : Actor) (users : List Bytes) (handlers : List (BitVec 64)) : Prop where
  stage : later.stage = a.stage
  behaviour : later.behaviour = a.behaviour
  executed : later.executed = a.executed
  user : later.mailbox.user.queue = a.mailbox.user.queue ++ users
  sys : later.mailbox.sys.queue.filterMap SystemMessage.handler? =
    a.mailbox.sys.queue.filterMap SystemMessage.handler? ++ handlers
  sender : later.mailbox.user.senderAlive = a.mailbox.user.senderAlive

variable {a later : Actor}

theorem Acts.outcome (acts : Acts a later) : later.outcome = a.outcome := by
  unfold Actor.outcome
  cases acts with
  | looked executed behaviour pending swaps past => rw [swaps, behaviour]
  | ran executed behaviour hand before after swaps past => rw [swaps, behaviour]
  | swapped executed behaviour pending swaps past => rw [swaps, behaviour, List.getLastD_cons]

theorem Acts.messages (acts : Acts a later) : later.messages = a.messages := by
  unfold Actor.messages
  cases acts with
  | looked executed behaviour pending swaps past => rw [executed, pending]
  | ran executed behaviour hand before after swaps past => simp [executed, before, after]
  | swapped executed behaviour pending swaps past => rw [executed, pending]

section

variable {users : List Bytes} {handlers : List (BitVec 64)}

theorem Gains.hand (gains : Gains a later users handlers) : later.hand = a.hand := by
  rw [Actor.hand, Actor.hand, gains.stage]

theorem Gains.past (gains : Gains a later users handlers) : later.Past ↔ a.Past := by
  rw [Past, Past, gains.stage, gains.hand]

theorem Gains.messages (gains : Gains a later users handlers) : later.messages = a.messages ++ users := by
  simp [Actor.messages, Actor.pending, gains.executed, gains.hand, gains.user]

theorem Gains.swaps (gains : Gains a later users handlers) : later.swaps = a.swaps ++ handlers := by
  rw [Actor.swaps, Actor.swaps, gains.sys, List.append_assoc, Actor.swapping, Actor.swapping, gains.stage]

theorem Gains.outcome (gains : Gains a later users []) : later.outcome = a.outcome := by
  rw [Actor.outcome, Actor.outcome, gains.swaps, gains.behaviour, List.append_nil]

theorem Gains.swapped {handler : BitVec 64} (gains : Gains a later users [handler]) : later.outcome = handler := by
  rw [Actor.outcome, gains.swaps, List.getLastD_concat]

theorem Gains.refl (a : Actor) : Gains a a [] [] :=
  ⟨rfl, rfl, rfl, (List.append_nil _).symm, (List.append_nil _).symm, rfl⟩

end

theorem Sound.with_counter (sound : a.Sound) (counter : BitVec 64) :
    Sound { a with mailbox := { a.mailbox with counter } } :=
  ⟨sound.stash, sound.stage, sound.user, sound.sys, sound.senders, sound.running⟩

theorem send_cases {call next : Sending} (sound : a.Sound) (sent : a.send call = some (later, next)) : later.Sound ∧
    ((a.mailbox.user.senderAlive = false ∧ later = a ∧ next = { call with stage := .returned (.error call.message) }) ∨
      ((call.isNew = true → a.mailbox.user.senderAlive = true) ∧ next.message = call.message ∧
        Gains a later call.users call.handlers ∧ (next.stage = .returned (.ok ()) → call.stage = .push))) := by
  unfold send at sent
  split at sent
  · rename_i closed
    rw [Bool.and_eq_true, Bool.not_eq_true'] at closed
    cases sent
    exact ⟨sound, .inl ⟨closed.2, rfl, rfl⟩⟩
  · rename_i opened
    rw [Bool.and_eq_true, Bool.not_eq_true', not_and, Bool.not_eq_false] at opened
    obtain ⟨⟨mailbox, call'⟩, stepped, same⟩ := Option.map_eq_some_iff.mp sent
    cases same
    cases Sending.steps_of_step stepped with
    | counted =>
      refine ⟨sound.with_counter _, .inr ⟨opened, rfl, ?_, nofun⟩⟩
      exact ⟨rfl, rfl, rfl, (List.append_nil _).symm, (List.append_nil _).symm, rfl⟩
    | pushed alive =>
      refine ⟨⟨sound.stash, sound.stage, sound.user, sound.sys, sound.senders, sound.running⟩, .inr ⟨opened, rfl, ?_, ?_⟩⟩
      · exact ⟨rfl, rfl, rfl, rfl, (List.append_nil _).symm, rfl⟩
      · exact fun _ => rfl
    | refused closed =>
      rw [sound.user] at closed
      cases closed
    | rolledBack =>
      refine ⟨sound.with_counter _, .inr ⟨opened, rfl, ?_, nofun⟩⟩
      exact ⟨rfl, rfl, rfl, (List.append_nil _).symm, (List.append_nil _).symm, rfl⟩
    | @pushedSystem message alive =>
      refine ⟨⟨sound.stash, sound.stage, sound.user, sound.sys, sound.senders, sound.running⟩, .inr ⟨opened, rfl, ?_, ?_⟩⟩
      · refine ⟨rfl, rfl, rfl, (List.append_nil _).symm, ?_, rfl⟩
        dsimp only
        rw [List.filterMap_append]
        cases message <;> rfl
      · exact fun _ => rfl
    | refusedSystem closed =>
      rw [sound.sys] at closed
      cases closed

end Actor

/-- The message of the client is behind its swap: no user message can be taken
    before the swap that would be this one. -/
def Client.Ordered (a : Actor) : Client → Prop
  | .swapping handler bytes (.send call) => call.message = .user bytes ∧
      (call.isNew = true ∧ a.mailbox.user.senderAlive = false ∨ a.outcome = handler)
  | .swapping handler bytes (.sent position) => a.messages[position]? = some bytes ∧
      (position < a.executed.length → a.executed[position]? = some (bytes, handler)) ∧
      (a.executed.length ≤ position → a.outcome = handler ∧ (a.Past → position = a.executed.length → a.swaps = []))
  | _ => True

namespace Client

open Actor

variable {a later : Actor} {client next : Client}

theorem Ordered.acts (ordered : client.Ordered a) (acts : Acts a later)
    (sender : later.mailbox.user.senderAlive = a.mailbox.user.senderAlive) : client.Ordered later := by
  cases client with
  | sending call => trivial
  | swapping handler bytes stage =>
    cases stage with
    | swap => trivial
    | failed => trivial
    | send call =>
      obtain ⟨message, closed | outcome⟩ := ordered
      · exact ⟨message, .inl ⟨closed.1, sender.trans closed.2⟩⟩
      · exact ⟨message, .inr (acts.outcome.trans outcome)⟩
    | sent position =>
      obtain ⟨found, executed, waiting⟩ := ordered
      refine ⟨by rw [acts.messages]; exact found, ?_, ?_⟩
      · cases acts with
        | looked same behaviour pending swaps past =>
          rw [same]
          exact executed
        | swapped same behaviour pending swaps past =>
          rw [same]
          exact executed
        | @ran taken rest same behaviour hand before after swaps past =>
          rw [same, List.length_append, List.length_singleton]
          intro bound
          by_cases old : position < a.executed.length
          · rw [List.getElem?_append_left old]
            exact executed old
          · have now : position = a.executed.length := by omega
            obtain ⟨outcome, none⟩ := waiting (by omega)
            rw [Actor.outcome, none (.inr hand) now] at outcome
            have mine : taken = bytes := by
              rw [Actor.messages, before, now] at found
              simpa using found
            rw [now, List.getElem?_append_right (Nat.le_refl _), Nat.sub_self, mine]
            exact congrArg (fun handler => some (bytes, handler)) outcome
      · intro bound
        rw [acts.outcome]
        cases acts with
        | looked same behaviour pending swaps past =>
          rw [same] at bound ⊢
          obtain ⟨outcome, none⟩ := waiting bound
          refine ⟨outcome, fun later now => ?_⟩
          rw [swaps]
          rcases past later with before | empty
          · exact none before now
          · exact empty
        | ran same behaviour hand before after swaps past =>
          rw [same, List.length_append] at bound
          exact ⟨(waiting (by omega)).1, fun later => absurd later past⟩
        | swapped same behaviour pending swaps past =>
          rw [same] at bound
          exact ⟨(waiting bound).1, fun later => absurd later past⟩

theorem Ordered.gains {users : List Bytes} {handlers : List (BitVec 64)} (ordered : client.Ordered a)
    (gains : Gains a later users handlers) (none : client.awaits a = true → handlers = []) : client.Ordered later := by
  cases client with
  | sending call => trivial
  | swapping handler bytes stage =>
    cases stage with
    | swap => trivial
    | failed => trivial
    | send call =>
      cases none rfl
      obtain ⟨message, closed | outcome⟩ := ordered
      · exact ⟨message, .inl ⟨closed.1, gains.sender.trans closed.2⟩⟩
      · exact ⟨message, .inr (gains.outcome.trans outcome)⟩
    | sent position =>
      obtain ⟨found, executed, waiting⟩ := ordered
      refine ⟨?_, ?_, ?_⟩
      · rw [gains.messages, List.getElem?_append_left (List.getElem?_eq_some_iff.mp found).1]
        exact found
      · rw [gains.executed]
        exact executed
      · rw [gains.executed]
        intro bound
        cases none (decide_eq_true bound)
        rw [gains.outcome, gains.past, gains.swaps, List.append_nil]
        exact waiting bound

theorem Ordered.stop (ordered : client.Ordered a) :
    client.Ordered { a with mailbox := a.mailbox.dropSenders } := by
  cases client with
  | sending call => trivial
  | swapping handler bytes stage =>
    cases stage with
    | send call => exact ⟨ordered.1, ordered.2.imp (fun closed => ⟨closed.1, rfl⟩) id⟩
    | _ => exact ordered

theorem mem_sys_of_swaps (looked : a.stage = .selectUser .recv) (swapping : a.swaps ≠ []) :
    .hotSwap a.outcome ∈ a.mailbox.sys.queue := by
  have member : a.outcome ∈ a.swaps := by
    rw [Actor.outcome, List.getLastD_eq_getLast?, List.getLast?_eq_some_getLast swapping]
    exact List.getLast_mem swapping
  rw [Actor.swaps, Actor.swapping, looked, List.nil_append] at member
  obtain ⟨message, present, found⟩ := List.mem_filterMap.mp member
  cases message with
  | hotSwap handler =>
    cases found
    exact present
  | _ => cases found

/-- The message enters the mailbox. -/
theorem ordered_sent {handler : BitVec 64} {bytes : Bytes} {call : Sending} (gains : Gains a later [bytes] [])
    (outcome : a.outcome = handler) (stage : call.stage = .push)
    (inTime : (Client.swapping handler bytes (.send call)).InTime a) :
    (Client.swapping handler bytes (.sent a.messages.length)).Ordered later := by
  have length : a.executed.length + a.pending.length = a.messages.length := by
    rw [Actor.messages, List.length_append, List.length_map]
  refine ⟨?_, ?_, ?_⟩
  · rw [gains.messages, List.getElem?_append_right (Nat.le_refl _), Nat.sub_self]
    rfl
  · rw [gains.executed]
    intro bound
    omega
  · intro bound
    refine ⟨gains.outcome.trans outcome, ?_⟩
    rw [gains.past, gains.executed, gains.swaps, List.append_nil]
    intro past first
    have empty : a.pending = [] := List.eq_nil_of_length_eq_zero (by omega)
    obtain ⟨hand, queue⟩ := List.append_eq_nil_iff.mp empty
    have looked : a.stage = .selectUser .recv := past.resolve_right fun some => some hand
    rcases call with ⟨message, other⟩
    cases stage
    by_contra swapping
    apply inTime looked queue
    rw [← outcome]
    exact mem_sys_of_swaps looked swapping

theorem step_own (sound : a.Sound) (ordered : client.Ordered a) (inTime : client.InTime a)
    (stepped : client.step a = some (later, next)) : next.Ordered later := by
  cases client with
  | sending call =>
    obtain ⟨⟨a', call'⟩, -, same⟩ := Option.map_eq_some_iff.mp stepped
    cases same
    trivial
  | swapping handler bytes stage =>
    cases stage with
    | swap =>
      obtain ⟨⟨a', call'⟩, sent, same⟩ := Option.map_eq_some_iff.mp stepped
      cases same
      refine ⟨rfl, ?_⟩
      rcases (send_cases sound sent).2 with ⟨closed, rfl, -⟩ | ⟨-, -, gains, -⟩
      · exact .inl ⟨rfl, closed⟩
      · exact .inr (Gains.swapped gains)
    | send call =>
      obtain ⟨⟨a', call'⟩, sent, same⟩ := Option.map_eq_some_iff.mp stepped
      obtain ⟨message, ready⟩ := ordered
      rcases (send_cases sound sent).2 with ⟨-, rfl, rfl⟩ | ⟨opened, kept, gains, pushed⟩
      · cases same
        trivial
      · have none : call.handlers = [] := by
          rcases call with ⟨content, stage⟩
          cases message
          cases stage <;> rfl
        have outcome : a.outcome = handler := by
          rcases ready with ⟨new, closed⟩ | outcome
          · rw [opened new] at closed
            cases closed
          · exact outcome
        rw [none] at gains
        dsimp only at same
        split at same
        · rename_i value returned
          cases same
          have push := pushed returned
          have users : call.users = [bytes] := by rw [Sending.users, push, message]
          rw [users] at gains
          exact ordered_sent gains outcome push inTime
        · cases same
          trivial
        · cases same
          exact ⟨kept.trans message, .inr (gains.outcome.trans outcome)⟩
    | sent position => cases stepped
    | failed => cases stepped

theorem step_gains (sound : a.Sound) (stepped : client.step a = some (later, next)) : later.Sound ∧
    ∃ users handlers, Gains a later users handlers ∧ (client.pushesSwap = false → handlers = []) := by
  have sending : ∀ {call next : Sending}, a.send call = some (later, next) →
      (client.pushesSwap = false → call.handlers = []) →
      later.Sound ∧ ∃ users handlers, Gains a later users handlers ∧ (client.pushesSwap = false → handlers = []) := by
    intro call next sent plain
    obtain ⟨sound, ⟨-, rfl, -⟩ | ⟨-, -, gains, -⟩⟩ := send_cases sound sent
    · exact ⟨sound, [], [], .refl _, fun _ => rfl⟩
    · exact ⟨sound, _, _, gains, plain⟩
  cases client with
  | sending call =>
    obtain ⟨⟨a', call'⟩, sent, same⟩ := Option.map_eq_some_iff.mp stepped
    cases same
    exact sending sent (by simp [pushesSwap])
  | swapping handler bytes stage =>
    cases stage with
    | swap =>
      obtain ⟨⟨a', call'⟩, sent, same⟩ := Option.map_eq_some_iff.mp stepped
      cases same
      exact sending sent nofun
    | send call =>
      obtain ⟨⟨a', call'⟩, sent, same⟩ := Option.map_eq_some_iff.mp stepped
      have target : a' = later := by
        dsimp only at same
        split at same <;> cases same <;> rfl
      subst target
      exact sending sent (by simp [pushesSwap])
    | sent position => cases stepped
    | failed => cases stepped

end Client

/-- The invariant for the client with this index. -/
def InOrder (index : Nat) (c : Config Actor Client) : Prop :=
  c.shared.Sound ∧ ∀ client ∈ c.threads[index]?, client.Ordered c.shared

theorem InOrder.move {index : Nat} {c d : Config Actor Client} {move : Move Client Unit ActorOperation}
    (inOrder : InOrder index c) (noOther : NoOtherSwap index c move) (inTime : SentInTime index c move)
    (moves : pushActor.Moves c move d) : InOrder index d := by
  obtain ⟨sound, ordered⟩ := inOrder
  cases moves with
  | @start a threads client allowed =>
    refine ⟨sound, ?_⟩
    intro other found
    rw [Option.mem_def, List.getElem?_append] at found
    split at found
    · exact ordered other found
    · rw [List.getElem?_singleton] at found
      split at found
      · cases found
        cases client with
        | sending call => trivial
        | swapping handler bytes stage =>
          cases stage with
          | swap => trivial
          | _ => cases allowed
      · cases found
  | @step a later before after new client next input stepped =>
    obtain ⟨⟨a', client'⟩, taken, same⟩ := Option.map_eq_some_iff.mp stepped
    cases same
    have mine : (before ++ client :: after)[before.length]? = some client := by simp
    obtain ⟨soundLater, users, handlers, gains, quiet⟩ := Client.step_gains sound taken
    refine ⟨soundLater, ?_⟩
    intro other found
    dsimp only at ordered found
    rw [Option.mem_def, List.append_nil, Program.getElem?_replace before after client next] at found
    split at found
    · rename_i own
      cases found
      rw [own] at ordered
      exact Client.step_own sound (ordered client mine) (inTime own.symm client (by rw [own]; exact mine)) taken
    · rename_i foreign
      refine (ordered other found).gains gains ?_
      intro awaits
      have none := noOther (Ne.symm foreign) (by rw [found]; exact awaits)
      rw [mine] at none
      exact quiet none
  | @ambient a later threads operation done =>
    cases operation with
    | act =>
      obtain ⟨⟨soundLater, sender⟩, acts⟩ := Actor.acts_of_step sound done
      exact ⟨soundLater, fun client found => (ordered client found).acts acts sender⟩
    | stop =>
      cases done
      refine ⟨⟨sound.stash, sound.stage, sound.user, sound.sys, rfl, nofun⟩, ?_⟩
      exact fun client found => (ordered client found).stop

namespace Actor

variable {a later : Actor}

def rank : RecvStage → Nat
  | .idle => 7
  | .searchStash _ => 6
  | .trySys _ => 5
  | .popStash _ | .waiting _ => 4
  | .selectSys _ => 3
  | .selectUser _ => 2
  | .decrement _ => 1
  | .tryUser | .returned _ => 0

/-- What the actor has to do before it has handled all that is in its mailbox. -/
def work (a : Actor) : Nat :=
  8 * (a.mailbox.sys.queue.length + a.mailbox.user.queue.length) + rank a.stage +
    match a.stage with
    | .decrement _ | .returned _ => 8
    | _ => 0

/-- An actor with a message makes progress. -/
theorem step_of_pending (sound : a.Sound) (running : a.mailbox.user.senderAlive = true) (pending : a.pending ≠ []) :
    ∃ later, a.step = some later ∧ later.work < a.work := by
  rcases a with ⟨⟨⟨queue, userSenders, userReceiver⟩, ⟨sysQueue, sysSenders, sysReceiver⟩, stash, counter⟩, stage,
    behaviour, executed⟩
  obtain ⟨empty, ofRecv, user, sys, senders, unended⟩ := sound
  dsimp only at empty ofRecv user sys senders unended running
  subst empty user sys senders running
  have kind : ∀ {other : RecvKind}, (other == .recv) = true → other = .recv := fun same => eq_of_beq same
  cases stage with
  | idle =>
    refine ⟨_, rfl, ?_⟩
    simp [work, rank]
  | searchStash other =>
    cases kind ofRecv
    refine ⟨_, rfl, ?_⟩
    simp [work, rank]
  | trySys other =>
    cases kind ofRecv
    cases sysQueue with
    | nil =>
      refine ⟨_, rfl, ?_⟩
      simp [work, rank]
    | cons message rest =>
      refine ⟨_, rfl, ?_⟩
      simp [work, rank, RecvStage.deliver]
      omega
  | popStash other =>
    cases kind ofRecv
    refine ⟨_, rfl, ?_⟩
    simp [work, rank]
  | tryUser => cases ofRecv
  | selectSys other =>
    cases kind ofRecv
    cases sysQueue with
    | nil =>
      refine ⟨_, rfl, ?_⟩
      simp [work, rank]
    | cons message rest =>
      refine ⟨_, rfl, ?_⟩
      simp [work, rank, RecvStage.deliver]
      omega
  | selectUser other =>
    cases kind ofRecv
    cases queue with
    | nil => exact absurd rfl pending
    | cons bytes rest =>
      refine ⟨_, rfl, ?_⟩
      simp [work, rank, RecvStage.deliver]
      omega
  | waiting other =>
    cases kind ofRecv
    refine ⟨_, rfl, ?_⟩
    simp [work, rank]
  | decrement message =>
    refine ⟨_, rfl, ?_⟩
    simp [work, rank]
  | returned result =>
    cases result with
    | none => exact absurd rfl (unended rfl)
    | some message =>
      cases message with
      | user bytes =>
        refine ⟨_, rfl, ?_⟩
        simp [work, rank]
      | system message => cases message <;> refine ⟨_, rfl, ?_⟩ <;> simp [work, rank]

end Actor

/-- The user message at this position goes to this handler, after enough steps
    of the actor alone if it is not stopped. -/
structure ExecutedBy (handler : BitVec 64) (bytes : Bytes) (position : Nat) (c : Config Actor Client) : Prop where
  present : c.shared.messages[position]? = some bytes
  only : ∀ entry, c.shared.executed[position]? = some entry → entry = (bytes, handler)
  eventually : c.shared.mailbox.user.senderAlive = true → ∃ (steps : Nat) (d : Config Actor Client),
    pushActor.machine.run c (List.replicate steps (.ambient .act)) = some d ∧
      d.shared.executed[position]? = some (bytes, handler)

section

variable {handler behaviour : BitVec 64} {bytes : Bytes} {index position : Nat}

theorem InOrder.executes {c : Config Actor Client} (inOrder : InOrder index c)
    (sent : c.threads[index]? = some (.swapping handler bytes (.sent position)))
    (running : c.shared.mailbox.user.senderAlive = true) : ∃ (steps : Nat) (d : Config Actor Client),
      pushActor.machine.run c (List.replicate steps (.ambient .act)) = some d ∧
        d.shared.executed[position]? = some (bytes, handler) := by
  induction amount : c.shared.work using Nat.strong_induction_on generalizing c with
  | _ amount ih =>
    subst amount
    obtain ⟨found, executed, -⟩ := inOrder.2 _ sent
    by_cases done : position < c.shared.executed.length
    · exact ⟨0, c, rfl, executed done⟩
    · have pending : c.shared.pending ≠ [] := by
        intro empty
        have bound := (List.getElem?_eq_some_iff.mp found).1
        rw [Actor.messages, empty, List.append_nil, List.length_map] at bound
        exact done bound
      obtain ⟨later, stepped, less⟩ := Actor.step_of_pending inOrder.1 running pending
      have taken : pushActor.machine.step c (.ambient .act) = some ⟨later, c.threads⟩ := by
        simp only [Program.machine, pushActor, stepped, Option.map_some]
      have quiet : NoOtherSwap index c (.ambient .act) ∧ SentInTime index c (.ambient .act) := ⟨trivial, trivial⟩
      have next := inOrder.move quiet.1 quiet.2 (pushActor.moves_of_step taken)
      have sender := (Actor.acts_of_step inOrder.1 stepped).1.2
      obtain ⟨steps, d, reached, final⟩ := ih later.work less next sent (sender.trans running) rfl
      refine ⟨steps + 1, d, ?_, final⟩
      rw [List.replicate_succ, Machine.run_cons, taken]
      exact reached

theorem InOrder.executedBy {c : Config Actor Client} (inOrder : InOrder index c)
    (sent : c.threads[index]? = some (.swapping handler bytes (.sent position))) :
    ExecutedBy handler bytes position c := by
  obtain ⟨found, executed, -⟩ := inOrder.2 _ sent
  refine ⟨found, ?_, inOrder.executes sent⟩
  intro entry present
  rw [executed (List.getElem?_eq_some_iff.mp present).1] at present
  exact (Option.some.inj present).symm

/-- A message that was sent after a swap goes to the new handler, unless it
    enters an empty queue between the two looks of a `select!`. -/
theorem hot_swap_before_later_message {moves : List (Move Client Unit ActorOperation)} {d : Config Actor Client}
    (meets : pushActor.machine.Meets (fun c move => NoOtherSwap index c move ∧ SentInTime index c move)
      ⟨.new behaviour, []⟩ moves)
    (reached : pushActor.machine.run ⟨.new behaviour, []⟩ moves = some d)
    (sent : d.threads[index]? = some (.swapping handler bytes (.sent position))) :
    ExecutedBy handler bytes position d := by
  have start : InOrder index ⟨.new behaviour, []⟩ := by
    refine ⟨⟨rfl, rfl, rfl, rfl, rfl, nofun⟩, fun client found => ?_⟩
    cases found
  have inOrder : InOrder index d :=
    pushActor.run_invariant_of_meets (fun c move d inOrder conditions => inOrder.move conditions.1 conditions.2)
      start meets reached
  exact inOrder.executedBy sent

end

/-- A client swaps the handler and sends a message after the actor has taken
    some steps; then the actor takes some more. -/
def swapAfter (before after : Nat) : List (Move Client Unit ActorOperation) :=
  List.replicate before (.ambient .act) ++ [.start (.swapping 1 [7] .swap), .step 0 (), .step 0 (), .step 0 ()] ++
    List.replicate after (.ambient .act)

theorem hot_swap_before_later_message_waiting :
    ∃ d, pushActor.machine.run ⟨.new 0, []⟩ (swapAfter 6 11) = some d ∧ d.shared.executed = [([7], 1)] ∧
      ExecutedBy 1 [7] 0 d := by
  obtain ⟨d, reached, sent, executed⟩ : ∃ d, pushActor.machine.run ⟨.new 0, []⟩ (swapAfter 6 11) = some d ∧
      d.threads[0]? = some (.swapping 1 [7] (.sent 0)) ∧ d.shared.executed = [([7], 1)] :=
    Machine.exists_of_check _ (by decide +kernel)
  refine ⟨d, reached, executed, ?_⟩
  exact hot_swap_before_later_message (Machine.meets_of_checks _ (by decide +kernel)) reached sent

theorem message_overtakes_hot_swap :
    ¬ ∀ (behaviour handler : BitVec 64) (bytes : Bytes) (index position : Nat)
      (moves : List (Move Client Unit ActorOperation)) (d : Config Actor Client),
      pushActor.machine.Meets (NoOtherSwap index) ⟨.new behaviour, []⟩ moves →
      pushActor.machine.run ⟨.new behaviour, []⟩ moves = some d →
      d.threads[index]? = some (.swapping handler bytes (.sent position)) → ExecutedBy handler bytes position d := by
  intro claim
  -- The actor has looked at the system queue and is about to look at the user queue.
  obtain ⟨d, reached, sent, executed⟩ : ∃ d, pushActor.machine.run ⟨.new 0, []⟩ (swapAfter 5 3) = some d ∧
      d.threads[0]? = some (.swapping 1 [7] (.sent 0)) ∧ d.shared.executed[0]? = some ([7], 0) :=
    Machine.exists_of_check _ (by decide +kernel)
  have executedBy := claim 0 1 [7] 0 0 _ d (Machine.meets_of_checks _ (by decide +kernel)) reached sent
  cases executedBy.only _ executed

end Myrmidon
