import Myrmidon.Mailbox.Progress
import Myrmidon.Runtime.Inbox
import Myrmidon.Transition.Fair

namespace Myrmidon

open Data Transition

/-- An actor of `spawn_handler_with_budget`. The messages its handler was called
    with, and how often its loop has yielded, are kept besides. -/
structure Handling where
  inbox : Inbox
  budget : Nat
  handled : List Message
  yields : Nat

inductive LoopStage where
  | receiving (stage : RecvStage) (processed : Nat)
  | handling (message : Message) (processed : Nat)
  | yielding
  | ended (panicked : Bool)
  deriving DecidableEq

inductive HandlerEnd where
  | returned
  | panicked

def LoopStage.step (s : Handling) (stage : LoopStage) (outcome : HandlerEnd) : Option (Handling × LoopStage) :=
  match stage with
  | .receiving (.returned (some message)) processed =>
    some ({ s with handled := s.handled ++ [message] }, .handling message processed)
  | .receiving (.returned none) _ => some ({ s with inbox := s.inbox.close }, .ended false)
  | .receiving stage processed =>
    let (inbox, stage) := s.inbox.recv stage
    some ({ s with inbox }, .receiving stage processed)
  | .handling _ processed =>
    match outcome with
    | .returned =>
      let processed := processed + 1
      if s.budget ≤ processed then some ({ s with yields := s.yields + 1 }, .yielding)
      else some (s, .receiving .idle processed)
    -- The task is torn down with the receiver in it.
    | .panicked => some ({ s with inbox := s.inbox.close }, .ended true)
  | .yielding => some (s, .receiving .idle 0)
  | .ended _ => none

/-- One actor and whoever sends to it or stops it. -/
def handlerLoop : Program Handling LoopStage HandlerEnd InboxCall where
  starts _ := false
  step _ s stage outcome := (stage.step s outcome).map fun (s, stage) => (s, stage, [])
  ambient s operation := some { s with inbox := s.inbox.call operation }

abbrev HandlerMove := Move LoopStage HandlerEnd InboxCall

def startHandler (budget : Nat) : Config Handling LoopStage := ⟨⟨.new, budget, [], 0⟩, [.receiving .idle 0]⟩

namespace LoopStage

def hand : LoopStage → List Message
  | .receiving stage _ => stage.hand
  | _ => []

/-- The handler calls since the last yield. -/
def since : LoopStage → Option Nat
  | .receiving _ processed => some processed
  | .handling _ processed => some (processed + 1)
  | .yielding => some 0
  | .ended _ => none

/-- Everything the loop can do. -/
inductive Steps (s : Handling) : LoopStage → Handling → LoopStage → Prop where
  | called {message : Message} {processed : Nat} :
      Steps s (.receiving (.returned (some message)) processed) { s with handled := s.handled ++ [message] }
        (.handling message processed)
  | finished {processed : Nat} :
      Steps s (.receiving (.returned none) processed) { s with inbox := s.inbox.close } (.ended false)
  | received {receiver : RecvStage} {processed : Nat} (unanswered : receiver.Unanswered) :
      Steps s (.receiving receiver processed) { s with inbox := (s.inbox.recv receiver).1 }
        (.receiving (s.inbox.recv receiver).2 processed)
  | yielded {message : Message} {processed : Nat} (spent : s.budget ≤ processed + 1) :
      Steps s (.handling message processed) { s with yields := s.yields + 1 } .yielding
  | wentOn {message : Message} {processed : Nat} (left : processed + 1 < s.budget) :
      Steps s (.handling message processed) s (.receiving .idle (processed + 1))
  | panicked {message : Message} {processed : Nat} :
      Steps s (.handling message processed) { s with inbox := s.inbox.close } (.ended true)
  | resumed : Steps s .yielding s (.receiving .idle 0)

variable {s later : Handling} {stage next : LoopStage}

theorem steps_of_step {outcome : HandlerEnd} (stepped : stage.step s outcome = some (later, next)) :
    Steps s stage later next := by
  cases stage with
  | receiving receiver processed =>
    cases receiver with
    | returned result =>
      cases result with
      | none =>
        cases stepped
        exact .finished
      | some message =>
        cases stepped
        exact .called
    | _ =>
      cases stepped
      exact .received trivial
  | handling message processed =>
    cases outcome with
    | panicked =>
      cases stepped
      exact .panicked
    | returned =>
      simp only [step] at stepped
      split at stepped
      · rename_i spent
        cases stepped
        exact .yielded spent
      · rename_i left
        cases stepped
        exact .wentOn (Nat.not_le.mp left)
  | yielding =>
    cases stepped
    exact .resumed
  | ended panicked => cases stepped

/-- The loop moves on until it has ended. -/
theorem exists_step (s : Handling) (unfinished : ∀ panicked, stage ≠ .ended panicked) :
    ∃ following, stage.step s .returned = some following := by
  cases stage with
  | receiving receiver processed =>
    cases receiver with
    | returned result => cases result <;> exact ⟨_, rfl⟩
    | _ => exact ⟨_, rfl⟩
  | handling message processed =>
    simp only [step]
    split <;> exact ⟨_, rfl⟩
  | yielding => exact ⟨_, rfl⟩
  | ended panicked => exact absurd rfl (unfinished panicked)

end LoopStage

/-- The messages of a class are handled in the order in which they were accepted,
    and between two yields lie as many handler calls as the budget says. -/
structure TurnsInOrder (s : Handling) (stage : LoopStage) : Prop where
  ordered : s.inbox.InOrder s.handled stage.hand
  receives : ∀ receiver processed, stage = .receiving receiver processed →
    receiver.Receives ∧ processed < max s.budget 1
  counted : ∀ calls, stage.since = some calls →
    s.handled.length = s.yields * max s.budget 1 + calls ∧ calls ≤ max s.budget 1
  stopped : stage = .ended false ∨ (∃ processed, stage = .receiving (.returned none) processed) → s.inbox.listed = false

section

variable {s later : Handling} {stage next : LoopStage}

theorem TurnsInOrder.step (orderly : TurnsInOrder s stage) (steps : stage.Steps s later next) :
    TurnsInOrder later next := by
  obtain ⟨ordered, receives, counted, stopped⟩ := orderly
  cases steps with
  | @called message processed =>
    obtain ⟨-, within⟩ := receives _ processed rfl
    obtain ⟨length, -⟩ := counted processed rfl
    refine ⟨ordered.finish, by simp, ?_, by simp⟩
    intro calls same
    cases same
    rw [List.length_append, length]
    exact ⟨rfl, within⟩
  | finished => exact ⟨ordered.close, by simp, by simp [LoopStage.since], fun _ => stopped (.inr ⟨_, rfl⟩)⟩
  | @received receiver processed unanswered =>
    obtain ⟨kind, within⟩ := receives receiver processed rfl
    obtain ⟨ordered, kept, told⟩ := ordered.recv kind unanswered
    refine ⟨ordered, ?_, counted, ?_⟩
    · intro other count same
      cases same
      exact ⟨kept, within⟩
    · intro last
      have ending : (s.inbox.recv receiver).2 = .returned none := by simpa using last
      exact told ending
  | @yielded message processed spent =>
    obtain ⟨length, within⟩ := counted (processed + 1) rfl
    refine ⟨ordered, by simp, ?_, by simp⟩
    intro calls same
    cases same
    have full : processed + 1 = max s.budget 1 := by omega
    refine ⟨?_, Nat.zero_le _⟩
    show s.handled.length = (s.yields + 1) * max s.budget 1 + 0
    rw [length, full, Nat.add_mul, Nat.one_mul]
    rfl
  | @wentOn message processed left =>
    refine ⟨ordered, ?_, counted, by simp⟩
    intro receiver count same
    cases same
    exact ⟨trivial, by omega⟩
  | panicked => exact ⟨ordered.close, by simp, by simp [LoopStage.since], by simp⟩
  | resumed =>
    refine ⟨ordered, ?_, counted, by simp⟩
    intro receiver count same
    cases same
    exact ⟨trivial, by omega⟩

theorem TurnsInOrder.inbox (orderly : TurnsInOrder s stage) (operation : InboxCall) :
    TurnsInOrder { s with inbox := s.inbox.call operation } stage :=
  ⟨orderly.ordered.call operation, orderly.receives, orderly.counted,
    fun last => Inbox.listed_call operation (orderly.stopped last)⟩

end

def HandledInTurn (c : Config Handling LoopStage) : Prop := ∃ stage, c.threads = [stage] ∧ TurnsInOrder c.shared stage

/-- A move is one of the loop or does something to the mailbox. -/
inductive HandlerMoves (s : Handling) (stage : LoopStage) : HandlerMove → Config Handling LoopStage → Prop where
  | loop {outcome : HandlerEnd} {later : Handling} {next : LoopStage} (steps : stage.Steps s later next) :
      HandlerMoves s stage (.step 0 outcome) ⟨later, [next]⟩
  | inbox (operation : InboxCall) :
      HandlerMoves s stage (.ambient operation) ⟨{ s with inbox := s.inbox.call operation }, [stage]⟩

theorem handlerMoves_of_moves {s : Handling} {stage : LoopStage} {d : Config Handling LoopStage} {move : HandlerMove}
    (moves : handlerLoop.Moves ⟨s, [stage]⟩ move d) : HandlerMoves s stage move d := by
  generalize alone : [stage] = threads at moves
  cases moves with
  | start allowed => cases allowed
  | @step s later before after new thread next outcome stepped =>
    obtain ⟨⟨_, _⟩, done, same⟩ := Option.map_eq_some_iff.mp stepped
    cases same
    cases before with
    | nil =>
      cases alone
      exact .loop (LoopStage.steps_of_step done)
    | cons first before => simp at alone
  | ambient done =>
    cases done
    subst alone
    exact .inbox _

theorem HandledInTurn.move {c d : Config Handling LoopStage} {move : HandlerMove} (old : HandledInTurn c)
    (moves : handlerLoop.Moves c move d) : HandledInTurn d := by
  obtain ⟨s, threads⟩ := c
  obtain ⟨stage, rfl, orderly⟩ := old
  cases handlerMoves_of_moves moves with
  | loop steps => exact ⟨_, rfl, orderly.step steps⟩
  | inbox operation => exact ⟨stage, rfl, orderly.inbox operation⟩

theorem handledInTurn_start (budget : Nat) : HandledInTurn (startHandler budget) := by
  refine ⟨.receiving .idle 0, rfl, .new, ?_, ?_, by simp⟩
  · intro receiver processed same
    cases same
    exact ⟨trivial, by omega⟩
  · intro calls same
    cases same
    exact ⟨by simp [startHandler], Nat.zero_le _⟩

/-- With a budget of two the loop yields once it has handled a message of each class. -/
def oneOfEach : List HandlerMove :=
  [.ambient (.send (.user [1])), .ambient (.send (.system .ping))] ++ List.replicate 14 (.step 0 .returned)

end Myrmidon
