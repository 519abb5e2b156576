import Myrmidon.Mailbox.Backlog
import Myrmidon.Mailbox.Steps

namespace Myrmidon

open Data

/-- Whether the halves of the two channels exist. -/
def Mailbox.ends (m : Mailbox) : Bool × Bool × Bool × Bool :=
  (m.sys.senderAlive, m.sys.receiverAlive, m.user.senderAlive, m.user.receiverAlive)

namespace RecvStage

/-- The message that has left the mailbox and has not been given to the caller, or is the answer to the call. -/
def hand : RecvStage → List Message
  | .decrement message => [message]
  | .returned result => result.toList
  | _ => []

/-- The caller is still waiting for an answer. -/
def Unanswered : RecvStage → Prop
  | .returned _ => False
  | _ => True

@[simp] theorem hand_deliver (message : Message) : (deliver message).hand = [message] := by
  cases message <;> rfl

variable {m : Mailbox}

theorem offer_custody (kind : RecvKind) (answers : List Bool) (message : Message) :
    ((offer m kind answers message).1.searchOrder ++ (offer m kind answers message).2.hand).Perm
      (message :: m.searchOrder) := by
  have delivered : (m.searchOrder ++ (deliver message).hand).Perm (message :: m.searchOrder) := by
    rw [hand_deliver]
    exact List.perm_append_singleton message _
  cases kind with
  | recv => exact delivered
  | tryRecv => exact delivered
  | selective =>
    simp only [offer]
    split
    · exact delivered
    · rw [List.perm_iff_count]
      intro other
      simp only [Mailbox.searchOrder, hand, List.count_append, List.count_cons, List.count_nil]
      omega

/-- A step of an unanswered call moves messages between the mailbox and the hand, and loses and copies none. -/
theorem step_custody {stage : RecvStage} (unanswered : stage.Unanswered) (input : RecvInput) :
    ((stage.step m input).1.searchOrder ++ (stage.step m input).2.hand).Perm (m.searchOrder ++ stage.hand) := by
  have offered : ∀ (taken : Mailbox) (kind : RecvKind) (message : Message),
      (message :: taken.searchOrder).Perm m.searchOrder →
      ((offer taken kind input.answers message).1.searchOrder ++
        (offer taken kind input.answers message).2.hand).Perm (m.searchOrder ++ []) := by
    intro taken kind message moved
    rw [List.append_nil]
    exact (offer_custody kind input.answers message).trans moved
  have taken_system : ∀ message rest, m.sys.queue = message :: rest →
      (Message.system message :: Mailbox.searchOrder { m with sys := { m.sys with queue := rest } }).Perm
        m.searchOrder := by
    intro message rest queue
    rw [List.perm_iff_count]
    intro other
    simp only [Mailbox.searchOrder, queue, List.map_cons, List.count_append, List.count_cons]
    omega
  have taken_user : ∀ bytes rest, m.user.queue = bytes :: rest →
      (Message.user bytes :: Mailbox.searchOrder { m with user := { m.user with queue := rest } }).Perm
        m.searchOrder := by
    intro bytes rest queue
    rw [List.perm_iff_count]
    intro other
    simp only [Mailbox.searchOrder, queue, List.map_cons, List.count_append, List.count_cons]
    omega
  cases stage with
  | returned result => exact unanswered.elim
  | idle => exact .refl _
  | searchStash kind =>
    simp only [step]
    split
    · rename_i pos found searched
      obtain ⟨index, -, present⟩ := Option.bind_eq_some_iff.mp searched
      obtain ⟨message, there, same⟩ := Option.map_eq_some_iff.mp present
      cases same
      obtain ⟨inside, value⟩ := List.getElem?_eq_some_iff.mp there
      have split := List.getElem_cons_eraseIdx_perm inside
      rw [value] at split
      rw [hand_deliver, List.perm_iff_count]
      intro other
      have count := split.count_eq other
      simp only [Mailbox.searchOrder, hand, List.count_append, List.count_cons, List.count_nil] at count ⊢
      omega
    · exact .refl _
  | trySys kind =>
    simp only [step, Channel.tryRecv]
    cases queue : m.sys.queue with
    | cons message rest => exact offered _ kind _ (taken_system message rest queue)
    | nil => cases kind <;> exact .refl _
  | popStash kind =>
    simp only [step]
    cases stashed : m.stash with
    | cons front stash =>
      rw [hand_deliver, List.perm_iff_count]
      intro other
      simp only [Mailbox.searchOrder, stashed, hand, List.cons_append, List.count_append, List.count_cons,
        List.count_nil]
      omega
    | nil => cases kind <;> exact .refl _
  | tryUser =>
    simp only [step, Channel.tryRecv]
    cases queue : m.user.queue with
    | cons bytes rest => exact offered _ .tryRecv _ (taken_user bytes rest queue)
    | nil => exact .refl _
  | selectSys kind =>
    simp only [step, Channel.recv]
    cases queue : m.sys.queue with
    | cons message rest => exact offered _ kind _ (taken_system message rest queue)
    | nil => cases m.sys.senderAlive <;> exact .refl _
  | selectUser kind =>
    simp only [step, Channel.recv]
    cases queue : m.user.queue with
    | cons bytes rest => exact offered _ kind _ (taken_user bytes rest queue)
    | nil => cases m.user.senderAlive <;> exact .refl _
  | waiting kind =>
    simp only [step]
    split <;> exact .refl _
  | decrement message => exact .refl _

/-- A receiver that only calls `recv`. -/
def Receives : RecvStage → Prop
  | .idle | .returned _ | .decrement _ => True
  | .searchStash kind | .trySys kind | .popStash kind | .selectSys kind | .selectUser kind | .waiting kind =>
    kind = .recv
  | .tryUser => False

/-- What a step of `recv` keeps while nothing is stashed: in each class, the
    message in hand followed by the queue. -/
structure InTurn (m later : Mailbox) (stage next : RecvStage) : Prop where
  stash : later.stash = []
  receives : next.Receives
  system : systemOf next.hand ++ later.sys.queue = systemOf stage.hand ++ m.sys.queue
  user : userOf next.hand ++ later.user.queue = userOf stage.hand ++ m.user.queue

theorem step_inTurn {stage : RecvStage} (unstashed : m.stash = []) (receives : stage.Receives)
    (unanswered : stage.Unanswered) {input : RecvInput} (kind : input.kind = .recv) :
    InTurn m (stage.step m input).1 stage (stage.step m input).2 := by
  have stays : ∀ next : RecvStage, next.Receives → next.hand = [] → stage.hand = [] → InTurn m m stage next := by
    intro next receives empty before
    exact ⟨unstashed, receives, by rw [empty, before], by rw [empty, before]⟩
  cases stage with
  | returned result => exact unanswered.elim
  | tryUser => exact receives.elim
  | idle => exact stays _ kind rfl rfl
  | searchStash own =>
    cases receives
    simp only [step, position, unstashed]
    exact stays _ rfl rfl rfl
  | trySys own =>
    cases receives
    simp only [step, Channel.tryRecv]
    cases queue : m.sys.queue with
    | cons message rest => exact ⟨unstashed, trivial, by rw [queue]; rfl, rfl⟩
    | nil => exact stays _ rfl rfl rfl
  | popStash own =>
    cases receives
    simp only [step, unstashed]
    exact stays _ rfl rfl rfl
  | selectSys own =>
    cases receives
    simp only [step, Channel.recv]
    cases queue : m.sys.queue with
    | cons message rest => exact ⟨unstashed, trivial, by rw [queue]; rfl, rfl⟩
    | nil =>
      cases m.sys.senderAlive with
      | true => exact stays _ rfl rfl rfl
      | false => exact stays _ trivial rfl rfl
  | selectUser own =>
    cases receives
    simp only [step, Channel.recv]
    cases queue : m.user.queue with
    | cons bytes rest => exact ⟨unstashed, trivial, rfl, by rw [queue]; rfl⟩
    | nil =>
      cases m.user.senderAlive with
      | true => exact stays _ rfl rfl rfl
      | false => exact stays _ trivial rfl rfl
  | waiting own =>
    cases receives
    simp only [step]
    split
    · exact stays _ trivial rfl rfl
    · exact stays _ rfl rfl rfl
  | decrement message => exact ⟨unstashed, trivial, rfl, rfl⟩

theorem offer_channels (kind : RecvKind) (answers : List Bool) (message : Message) :
    (offer m kind answers message).1.sys = m.sys ∧ (offer m kind answers message).1.user = m.user := by
  cases kind with
  | recv => exact ⟨rfl, rfl⟩
  | tryRecv => exact ⟨rfl, rfl⟩
  | selective =>
    simp only [offer]
    split <;> exact ⟨rfl, rfl⟩

/-- A receiver in its steps opens and closes nothing. -/
theorem step_ends (m : Mailbox) (stage : RecvStage) (input : RecvInput) : (stage.step m input).1.ends = m.ends := by
  have offered : ∀ (taken : Mailbox) (kind : RecvKind) (message : Message), taken.ends = m.ends →
      (offer taken kind input.answers message).1.ends = m.ends := by
    intro taken kind message same
    obtain ⟨sys, user⟩ := offer_channels kind input.answers message (m := taken)
    rw [Mailbox.ends, sys, user]
    exact same
  cases stage with
  | trySys kind =>
    simp only [step, Channel.tryRecv]
    cases queue : m.sys.queue with
    | cons message rest => exact offered _ kind _ rfl
    | nil => cases kind <;> rfl
  | popStash kind =>
    simp only [step]
    cases m.stash with
    | cons front stash => rfl
    | nil => cases kind <;> rfl
  | tryUser =>
    simp only [step, Channel.tryRecv]
    cases m.user.queue <;> rfl
  | selectSys kind =>
    simp only [step, Channel.recv]
    cases queue : m.sys.queue with
    | cons message rest => exact offered _ kind _ rfl
    | nil => cases m.sys.senderAlive <;> rfl
  | selectUser kind =>
    simp only [step, Channel.recv]
    cases queue : m.user.queue with
    | cons bytes rest => exact offered _ kind _ rfl
    | nil => cases m.user.senderAlive <;> rfl
  | searchStash kind =>
    simp only [step]
    split <;> rfl
  | waiting kind =>
    simp only [step]
    split <;> rfl
  | _ => rfl

/-- A receiver whose calls wait for a message. -/
def Awaits : RecvStage → Prop
  | .idle | .returned _ | .decrement _ => True
  | .searchStash kind | .trySys kind | .popStash kind | .selectSys kind | .selectUser kind | .waiting kind =>
    kind ≠ .tryRecv
  | .tryUser => False

theorem Receives.awaits {stage : RecvStage} (receives : stage.Receives) : stage.Awaits := by
  cases stage with
  | idle => trivial
  | returned result => trivial
  | decrement message => trivial
  | tryUser => exact receives
  | _ =>
    cases receives
    exact RecvKind.noConfusion

theorem deliver_awaits (message : Message) : (deliver message).Awaits := by
  cases message <;> trivial

theorem offer_awaits {kind : RecvKind} (waits : kind ≠ .tryRecv) (answers : List Bool) (message : Message) :
    (offer m kind answers message).2.Awaits ∧ (offer m kind answers message).2 ≠ .returned none := by
  have delivered : (deliver message).Awaits ∧ deliver message ≠ .returned none := by
    refine ⟨deliver_awaits message, ?_⟩
    cases message <;> simp [deliver]
  cases kind with
  | recv => exact delivered
  | tryRecv => exact absurd rfl waits
  | selective =>
    simp only [offer]
    split
    · exact delivered
    · exact ⟨waits, by simp⟩

/-- A waiting receiver is told of the end only by a channel whose senders are gone. -/
theorem step_awaits {m : Mailbox} {stage : RecvStage} (unanswered : stage.Unanswered) {input : RecvInput}
    (awaits : stage.Awaits) (kind : input.kind ≠ .tryRecv) : (stage.step m input).2.Awaits ∧
      ((stage.step m input).2 = .returned none → m.sys.senderAlive = false ∨ m.user.senderAlive = false) := by
  have goes : ∀ next : RecvStage, next.Awaits → next ≠ .returned none → next.Awaits ∧
      (next = .returned none → m.sys.senderAlive = false ∨ m.user.senderAlive = false) :=
    fun next awaits answered => ⟨awaits, fun ended => absurd ended answered⟩
  have offered : ∀ (taken : Mailbox) {own : RecvKind} (message : Message), own ≠ .tryRecv →
      (offer taken own input.answers message).2.Awaits ∧ ((offer taken own input.answers message).2 = .returned none →
        m.sys.senderAlive = false ∨ m.user.senderAlive = false) := by
    intro taken own message waits
    obtain ⟨awaits, answered⟩ := offer_awaits waits input.answers message (m := taken)
    exact goes _ awaits answered
  cases stage with
  | returned result => exact unanswered.elim
  | tryUser => exact awaits.elim
  | idle => exact goes (.searchStash input.kind) kind (by simp)
  | searchStash own =>
    simp only [step]
    split
    · rename_i pos found _
      exact goes _ (deliver_awaits found) (by cases found <;> simp [deliver])
    · exact goes _ awaits (by simp)
  | trySys own =>
    simp only [step, Channel.tryRecv]
    cases m.sys.queue with
    | cons message rest => exact offered _ _ awaits
    | nil => cases own <;> exact goes _ awaits (by simp)
  | popStash own =>
    simp only [step]
    cases m.stash with
    | cons front stash => exact goes _ (deliver_awaits front) (by cases front <;> simp [deliver])
    | nil =>
      cases own with
      | tryRecv => exact absurd rfl awaits
      | _ => exact goes _ awaits (by simp)
  | selectSys own =>
    simp only [step, Channel.recv]
    cases m.sys.queue with
    | cons message rest => exact offered _ _ awaits
    | nil =>
      cases senders : m.sys.senderAlive with
      | false => exact ⟨trivial, fun _ => .inl rfl⟩
      | true => exact ⟨awaits, fun ended => by cases ended⟩
  | selectUser own =>
    simp only [step, Channel.recv]
    cases m.user.queue with
    | cons bytes rest => exact offered _ _ awaits
    | nil =>
      cases senders : m.user.senderAlive with
      | false => exact ⟨trivial, fun _ => .inr rfl⟩
      | true => exact ⟨awaits, fun ended => by cases ended⟩
  | waiting own =>
    simp only [step]
    split
    · exact goes _ trivial (by simp)
    · exact goes _ awaits (by simp)
  | decrement message => exact goes (.returned (some message)) trivial (by simp)

end RecvStage

end Myrmidon
