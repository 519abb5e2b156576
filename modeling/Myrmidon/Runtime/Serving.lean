import Myrmidon.Runtime.Handlers

namespace Myrmidon

open Data Transition

namespace LoopStage

def systemAhead : LoopStage → Nat
  | .receiving stage _ => stage.systemAhead
  | .handling _ _ => 9
  | .yielding => 8
  | .ended _ => 0

def userAhead : LoopStage → Nat
  | .receiving stage _ => stage.userAhead
  | .handling _ _ => 12
  | .yielding => 11
  | .ended _ => 0

def Over : LoopStage → Prop
  | .ended _ => True
  | _ => False

/-- What is left to do until `count` system messages are handled. -/
def systemRank (count : Nat) (s : Handling) (stage : LoopStage) : Nat :=
  14 * (count - (systemOf s.handled).length) + stage.systemAhead

def userRank (count : Nat) (s : Handling) (stage : LoopStage) : Nat :=
  14 * (count - (userOf s.handled).length) + (14 * s.inbox.mailbox.sys.queue.length + stage.userAhead)

variable {s later : Handling} {stage next : LoopStage} {count : Nat}

/-- A class of which not everything accepted is handled has a message in hand or in its queue. -/
theorem waits_of_left {γ : Type*} {accepted handled hand queue : List γ} (split : accepted = handled ++ (hand ++ queue))
    (here : count ≤ accepted.length) (left : handled.length < count) : hand ++ queue ≠ [] := by
  intro none
  rw [split, none, List.append_nil] at here
  omega

theorem systemRank_step (orderly : TurnsInOrder s stage) (here : count ≤ (systemOf s.inbox.accepted).length)
    (left : (systemOf s.handled).length < count) (steps : stage.Steps s later next) (goesOn : ¬ next.Over) :
    systemRank count later next < systemRank count s stage := by
  cases steps with
  | @called message processed =>
    cases message with
    | system content =>
      simp only [systemRank, systemAhead, RecvStage.systemAhead, systemOf_append_system, List.length_append,
        List.length_singleton]
      omega
    | user bytes => simp [systemRank, systemAhead, RecvStage.systemAhead, systemOf_append_user]
  | finished => exact absurd trivial goesOn
  | @received receiver processed unanswered =>
    have waits := waits_of_left orderly.ordered.system here left
    apply Nat.add_lt_add_left
    exact RecvStage.step_systemAhead orderly.ordered.stash (orderly.receives receiver processed rfl).1 unanswered waits
  | yielded spent => exact Nat.add_lt_add_left (show 8 < 9 by omega) _
  | wentOn more => exact Nat.add_lt_add_left (show 7 < 9 by omega) _
  | panicked => exact absurd trivial goesOn
  | resumed => exact Nat.add_lt_add_left (show 7 < 8 by omega) _

theorem userRank_step (orderly : TurnsInOrder s stage) (here : count ≤ (userOf s.inbox.accepted).length)
    (left : (userOf s.handled).length < count) (steps : stage.Steps s later next) (goesOn : ¬ next.Over) :
    userRank count later next < userRank count s stage := by
  cases steps with
  | @called message processed =>
    cases message with
    | system content => simp [userRank, userAhead, RecvStage.userAhead, userOf_append_system]
    | user bytes =>
      simp only [userRank, userAhead, RecvStage.userAhead, userOf_append_user, List.length_append,
        List.length_singleton]
      omega
  | finished => exact absurd trivial goesOn
  | @received receiver processed unanswered =>
    have waits := waits_of_left orderly.ordered.user here left
    apply Nat.add_lt_add_left
    exact RecvStage.step_userAhead orderly.ordered.stash (orderly.receives receiver processed rfl).1 unanswered waits
  | yielded spent => exact Nat.add_lt_add_left (Nat.add_lt_add_left (show 11 < 12 by omega) _) _
  | wentOn more => exact Nat.add_lt_add_left (Nat.add_lt_add_left (show 10 < 12 by omega) _) _
  | panicked => exact absurd trivial goesOn
  | resumed => exact Nat.add_lt_add_left (Nat.add_lt_add_left (show 10 < 11 by omega) _) _

end LoopStage

namespace Serving

variable {e : handlerLoop.Execution} {budget : Nat}

def LoopEnded (c : Config Handling LoopStage) : Prop := ∃ panicked, c.threads = [.ended panicked]

theorem inTurn (initial : e.config 0 = startHandler budget) (n : Nat) : HandledInTurn (e.config n) := by
  apply e.always (fun _ _ _ old moves => old.move moves) _ (Nat.zero_le n)
  rw [initial]
  exact handledInTurn_start budget

theorem accepted_grows_call (s : Inbox) (operation : InboxCall) : s.accepted <+: (s.call operation).accepted := by
  cases operation with
  | stop =>
    simp only [Inbox.call, Inbox.stop]
    split <;> exact List.prefix_refl _
  | send message =>
    simp only [Inbox.call, Inbox.send]
    split
    · split
      · exact List.prefix_append _ _
      · exact List.prefix_refl _
    · exact List.prefix_refl _

theorem accepted_steps {s later : Handling} {stage next : LoopStage} (steps : stage.Steps s later next) :
    later.inbox.accepted = s.inbox.accepted := by
  cases steps <;> rfl

/-- What can happen at a moment of an execution. -/
inductive Happens (e : handlerLoop.Execution) (n : Nat) (s : Handling) (stage : LoopStage) : Prop where
  | nothing (still : e.move n = none) (after : e.config (n + 1) = ⟨s, [stage]⟩)
  | loop {outcome : HandlerEnd} {later : Handling} {next : LoopStage} (taken : e.move n = some (.step 0 outcome))
      (after : e.config (n + 1) = ⟨later, [next]⟩) (steps : stage.Steps s later next)
  | inbox {operation : InboxCall} (taken : e.move n = some (.ambient operation))
      (after : e.config (n + 1) = ⟨{ s with inbox := s.inbox.call operation }, [stage]⟩)

theorem exists_happens (initial : e.config 0 = startHandler budget) (n : Nat) :
    ∃ s stage, e.config n = ⟨s, [stage]⟩ ∧ TurnsInOrder s stage ∧ Happens e n s stage := by
  obtain ⟨stage, alone, orderly⟩ := inTurn initial n
  have here : e.config n = ⟨(e.config n).shared, [stage]⟩ := congrArg (Config.mk _) alone
  refine ⟨(e.config n).shared, stage, here, orderly, ?_⟩
  cases taken : e.move n with
  | none => exact .nothing taken ((e.idle taken).trans here)
  | some move =>
    have moves := e.moves taken
    rw [here] at moves
    generalize after : e.config (n + 1) = d at moves
    cases handlerMoves_of_moves moves with
    | loop steps => exact .loop taken after steps
    | inbox operation => exact .inbox taken after

theorem accepted_grows (initial : e.config 0 = startHandler budget) {n m : Nat} (later : n ≤ m) :
    (e.config n).shared.inbox.accepted <+: (e.config m).shared.inbox.accepted := by
  induction m, later using Nat.le_induction with
  | base => exact List.prefix_refl _
  | succ m _ ih =>
    apply ih.trans
    obtain ⟨s, stage, here, -, happens⟩ := exists_happens initial m
    rw [here]
    cases happens with
    | nothing _ after => exact after ▸ List.prefix_refl _
    | loop _ after steps =>
      rw [after]
      exact (accepted_steps steps) ▸ List.prefix_refl _
    | @inbox operation _ after =>
      rw [after]
      exact accepted_grows_call s.inbox operation

/-- As many messages of the class are handled, or there is no loop any more. -/
def Caught {γ : Type*} (classOf : List Message → List γ) (count : Nat) (c : Config Handling LoopStage) : Prop :=
  count ≤ (classOf c.shared.handled).length ∨ LoopEnded c

/-- The rank of a configuration by that of its only thread. -/
def rankOf (rank : Handling → LoopStage → Nat) (c : Config Handling LoopStage) : Nat :=
  match c.threads with
  | [stage] => rank c.shared stage
  | _ => 0

theorem can_of_unfinished {s : Handling} {stage : LoopStage} (unfinished : ∀ panicked, stage ≠ .ended panicked) :
    handlerLoop.Can 0 ⟨s, [stage]⟩ := by
  obtain ⟨⟨later, next⟩, stepped⟩ := LoopStage.exists_step s unfinished
  refine ⟨.returned, ?_⟩
  simp [Program.machine, handlerLoop, stepped]

/-- The messages of one class accepted by a moment are handled in the end, if every
    step of the loop lowers a rank that nothing raises. -/
theorem class_served {γ : Type*} {classOf : List Message → List γ} (fair : e.Fair)
    (initial : e.config 0 = startHandler budget) {start : Nat} (rank : Handling → LoopStage → Nat)
    (grows : ∀ {first second : List Message}, first <+: second → classOf first <+: classOf second)
    (done : ∀ n, classOf (e.config n).shared.handled <+: classOf (e.config n).shared.inbox.accepted)
    (loop : ∀ s stage later next, TurnsInOrder s stage →
      (classOf (e.config start).shared.inbox.accepted).length ≤ (classOf s.inbox.accepted).length →
      (classOf s.handled).length < (classOf (e.config start).shared.inbox.accepted).length →
      stage.Steps s later next → ¬ next.Over → rank later next < rank s stage)
    (inbox : ∀ n s stage operation, start ≤ n → TurnsInOrder s stage → e.config n = ⟨s, [stage]⟩ →
      e.config (n + 1) = ⟨{ s with inbox := s.inbox.call operation }, [stage]⟩ →
      rank { s with inbox := s.inbox.call operation } stage ≤ rank s stage) :
    ∃ m, start ≤ m ∧ (classOf (e.config start).shared.inbox.accepted <+: classOf (e.config m).shared.handled ∨
      LoopEnded (e.config m)) := by
  have moved : ∀ n, start ≤ n →
      (classOf (e.config n).shared.handled).length < (classOf (e.config start).shared.inbox.accepted).length →
      ¬ LoopEnded (e.config (n + 1)) → rankOf rank (e.config (n + 1)) ≤ rankOf rank (e.config n) ∧
        ∀ input, e.move n = some (.step 0 input) → rankOf rank (e.config (n + 1)) < rankOf rank (e.config n) := by
    intro n later left goesOn
    obtain ⟨s, stage, here, orderly, happens⟩ := exists_happens initial n
    have accepted := (grows (accepted_grows initial later)).length_le
    rw [here] at accepted left ⊢
    cases happens with
    | nothing still after =>
      rw [after, still]
      exact ⟨Nat.le_refl _, by simp⟩
    | @loop outcome following next taken after steps =>
      rw [after] at goesOn ⊢
      have lower : rank following next < rank s stage := by
        apply loop s stage following next orderly accepted left steps
        intro ended
        cases next with
        | ended panicked => exact goesOn ⟨panicked, rfl⟩
        | _ => exact ended
      exact ⟨Nat.le_of_lt lower, fun _ _ => lower⟩
    | @inbox operation taken after =>
      rw [taken]
      have same := inbox n s stage operation later orderly here after
      rw [after]
      exact ⟨same, by simp⟩
  have reached : ∃ m, start ≤ m ∧
      Caught classOf (classOf (e.config start).shared.inbox.accepted).length (e.config m) := by
    apply e.reaches fair (Caught classOf _) (rankOf rank)
    · intro n later missed
      obtain ⟨s, stage, here, -⟩ := exists_happens initial n
      rw [here] at missed ⊢
      apply can_of_unfinished
      rintro panicked rfl
      exact missed (.inr ⟨panicked, rfl⟩)
    · intro n later missed goesOn
      exact (moved n later (Nat.not_le.mp fun caught => missed (.inl caught)) fun ended => goesOn (.inr ended)).1
    · intro n input later missed goesOn taken
      exact (moved n later (Nat.not_le.mp fun caught => missed (.inl caught))
        fun ended => goesOn (.inr ended)).2 input taken
  obtain ⟨m, later, caught | ended⟩ := reached
  · have first := grows (accepted_grows initial later)
    exact ⟨m, later, .inl (List.prefix_of_prefix_length_le first (done m) caught)⟩
  · exact ⟨m, later, .inr ended⟩

end Serving

/-- What becomes of the messages that were accepted until some moment. -/
structure Serves (e : handlerLoop.Execution) : Prop where
  system : ∀ n, ∃ m, n ≤ m ∧ (systemOf (e.config n).shared.inbox.accepted <+: systemOf (e.config m).shared.handled ∨
    Serving.LoopEnded (e.config m))
  user : (∀ n, ∃ m, n ≤ m ∧ (userOf (e.config n).shared.inbox.accepted <+: userOf (e.config m).shared.handled ∨
      Serving.LoopEnded (e.config m))) ∨
    ∀ n, ∃ m, n ≤ m ∧ systemOf (e.config (m + 1)).shared.inbox.accepted ≠ systemOf (e.config m).shared.inbox.accepted
  ended : ∀ n, (e.config n).threads = [.ended false] → (e.config n).shared.inbox.listed = false

theorem Serving.system_served {e : handlerLoop.Execution} {budget : Nat} (fair : e.Fair)
    (initial : e.config 0 = startHandler budget) (start : Nat) :
    ∃ m, start ≤ m ∧ (systemOf (e.config start).shared.inbox.accepted <+: systemOf (e.config m).shared.handled ∨
      LoopEnded (e.config m)) := by
  apply class_served fair initial (LoopStage.systemRank (systemOf (e.config start).shared.inbox.accepted).length)
    (fun part => part.filterMap _) _ (fun s stage later next => LoopStage.systemRank_step) _
  · intro n
    obtain ⟨s, stage, here, orderly, -⟩ := exists_happens initial n
    rw [here]
    exact ⟨_, orderly.ordered.system.symm⟩
  · intro n s stage operation later orderly here after
    exact Nat.le_refl _

theorem Serving.user_served {e : handlerLoop.Execution} {budget : Nat} (fair : e.Fair)
    (initial : e.config 0 = startHandler budget) {calm : Nat}
    (quiet : ∀ m, calm ≤ m →
      systemOf (e.config (m + 1)).shared.inbox.accepted = systemOf (e.config m).shared.inbox.accepted)
    (start : Nat) : ∃ m, start ≤ m ∧
      (userOf (e.config start).shared.inbox.accepted <+: userOf (e.config m).shared.handled ∨
      LoopEnded (e.config m)) := by
  let late := max start calm
  have served : ∃ m, late ≤ m ∧ (userOf (e.config late).shared.inbox.accepted <+: userOf (e.config m).shared.handled ∨
      LoopEnded (e.config m)) := by
    apply class_served fair initial (LoopStage.userRank (userOf (e.config late).shared.inbox.accepted).length)
      (fun part => part.filterMap _) _ (fun s stage later next => LoopStage.userRank_step) _
    · intro n
      obtain ⟨s, stage, here, orderly, -⟩ := exists_happens initial n
      rw [here]
      exact ⟨_, orderly.ordered.user.symm⟩
    · intro n s stage operation later orderly here after
      have same := quiet n (Nat.le_trans (Nat.le_max_right _ _) later)
      rw [here, after] at same
      have before := orderly.ordered.system
      have behind := (orderly.ordered.call operation).system
      have queued : (s.inbox.call operation).mailbox.sys.queue = s.inbox.mailbox.sys.queue := by
        rw [same, before] at behind
        exact (List.append_cancel_left (List.append_cancel_left behind)).symm
      rw [LoopStage.userRank, queued]
      exact Nat.le_refl _
  obtain ⟨m, later, caught | ended⟩ := served
  · have first : userOf (e.config start).shared.inbox.accepted <+: userOf (e.config late).shared.inbox.accepted :=
      (accepted_grows initial (Nat.le_max_left _ _)).filterMap _
    exact ⟨m, Nat.le_trans (Nat.le_max_left _ _) later, .inl (first.trans caught)⟩
  · exact ⟨m, Nat.le_trans (Nat.le_max_left _ _) later, .inr ended⟩

/-- In a fair execution an actor handles every system message it accepts, unless
    its loop ends, and every user message too, unless it gets system messages for
    ever. Its loop ends only if it is stopped or its handler panics. -/
theorem handler_serves {e : handlerLoop.Execution} (fair : e.Fair) {budget : Nat}
    (initial : e.config 0 = startHandler budget) : Serves e := by
  refine ⟨Serving.system_served fair initial, ?_, ?_⟩
  · by_cases calms : ∃ calm, ∀ m, calm ≤ m →
        systemOf (e.config (m + 1)).shared.inbox.accepted = systemOf (e.config m).shared.inbox.accepted
    · obtain ⟨calm, quiet⟩ := calms
      exact .inl (Serving.user_served fair initial quiet)
    · right
      intro n
      by_contra none
      exact calms ⟨n, fun m later => not_not.mp fun differs => none ⟨m, later, differs⟩⟩
  · intro n alone
    obtain ⟨s, stage, here, orderly, -⟩ := Serving.exists_happens initial n
    rw [here] at alone ⊢
    cases alone
    exact orderly.stopped (.inl rfl)

def handleThenStop : List HandlerMove :=
  oneOfEach ++ [.ambient .stop] ++ List.replicate 7 (.step 0 .returned)

theorem handler_serves_handleThenStop : ∃ e : handlerLoop.Execution, e.Fair ∧ e.config 0 = startHandler 2 ∧
    (∃ n, (e.config n).shared.handled = [.system .ping, .user [1]]) ∧ Serves e := by
  have ran : ∃ c, handlerLoop.machine.run (startHandler 2) handleThenStop = some c ∧ c.threads = [.ended false] ∧
      c.shared.handled = [.system .ping, .user [1]] :=
    handlerLoop.machine.exists_of_check (by decide +kernel)
  obtain ⟨c, reached, stage, handled⟩ := ran
  have fair : (Program.Execution.ofRun handlerLoop reached).Fair := by
    apply Program.Execution.ofRun_fair
    rintro index ⟨outcome, moved⟩
    cases index with
    | zero => simp [Program.machine, stage, handlerLoop, LoopStage.step] at moved
    | succ index => simp [Program.machine, stage] at moved
  refine ⟨.ofRun handlerLoop reached, fair, rfl, ⟨handleThenStop.length, ?_⟩, handler_serves fair rfl⟩
  rw [Program.Execution.ofRun_config reached (Nat.le_refl _)]
  exact handled

namespace Serving

/-- After one user message there is always a system message before the loop looks. -/
def starve (c : Config Handling LoopStage) : HandlerMove :=
  match c.shared.inbox.accepted, c.shared.inbox.mailbox.sys.queue with
  | [], _ => .ambient (.send (.user []))
  | _ :: _, [] => .ambient (.send (.system .ping))
  | _ :: _, _ :: _ => .step 0 .returned

/-- The loop has not looked for a user message. -/
def Early : LoopStage → Prop
  | .receiving .idle _ | .receiving (.searchStash .recv) _ | .receiving (.trySys .recv) _ => True
  | .receiving (.returned (some (.system _))) _ => True
  | .handling _ _ | .yielding => True
  | _ => False

structure Starved (s : Handling) (stage : LoopStage) : Prop where
  listed : s.inbox.listed = true
  users : s.inbox.mailbox.user.receiverAlive = true
  systems : s.inbox.mailbox.sys.receiverAlive = true
  stash : s.inbox.mailbox.stash = []
  early : Early stage
  unhandled : userOf s.handled = []

theorem starved_step {s : Handling} {stage : LoopStage} (starved : Starved s stage)
    (queued : s.inbox.mailbox.sys.queue ≠ []) :
    ∃ later next, stage.step s .returned = some (later, next) ∧ Starved later next ∧
      later.inbox.accepted = s.inbox.accepted := by
  obtain ⟨listed, users, systems, stash, early, unhandled⟩ := starved
  cases stage with
  | ended panicked => exact early.elim
  | yielding => exact ⟨_, _, rfl, ⟨listed, users, systems, stash, trivial, unhandled⟩, rfl⟩
  | handling message processed =>
    simp only [LoopStage.step]
    split
    · exact ⟨_, _, rfl, ⟨listed, users, systems, stash, trivial, unhandled⟩, rfl⟩
    · exact ⟨_, _, rfl, ⟨listed, users, systems, stash, trivial, unhandled⟩, rfl⟩
  | receiving receiver processed =>
    cases receiver with
    | idle => exact ⟨_, _, rfl, ⟨listed, users, systems, stash, trivial, unhandled⟩, rfl⟩
    | searchStash kind =>
      cases kind with
      | recv =>
        refine ⟨_, _, rfl, ?_, rfl⟩
        simp only [RecvStage.position, stash]
        exact ⟨listed, users, systems, stash, trivial, unhandled⟩
      | _ => exact early.elim
    | trySys kind =>
      cases kind with
      | recv =>
        obtain ⟨message, rest, queue⟩ := List.exists_cons_of_ne_nil queued
        refine ⟨_, _, rfl, ?_, rfl⟩
        simp only [Channel.tryRecv, queue, RecvStage.offer]
        exact ⟨listed, users, systems, stash, trivial, unhandled⟩
      | _ => exact early.elim
    | returned result =>
      cases result with
      | none => exact early.elim
      | some message =>
        cases message with
        | user bytes => exact early.elim
        | system content =>
          refine ⟨_, _, rfl, ⟨listed, users, systems, stash, trivial, ?_⟩, rfl⟩
          rw [userOf_append_system]
          exact unhandled
    | _ => exact early.elim

theorem starved_send {s : Handling} {stage : LoopStage} (starved : Starved s stage) (message : Message) :
    Starved { s with inbox := s.inbox.send message } stage ∧
      (s.inbox.send message).accepted = s.inbox.accepted ++ [message] ∧
      (message.isSystem = true → (s.inbox.send message).mailbox.sys.queue ≠ []) := by
  obtain ⟨listed, users, systems, stash, early, unhandled⟩ := starved
  cases message with
  | user bytes =>
    simp only [Inbox.send, Mailbox.send, Channel.send, listed, users, if_true]
    exact ⟨⟨rfl, rfl, systems, stash, early, unhandled⟩, trivial, by simp [Message.isSystem]⟩
  | system content =>
    simp only [Inbox.send, Mailbox.send, Channel.send, listed, systems, if_true]
    exact ⟨⟨rfl, users, rfl, stash, early, unhandled⟩, trivial, by simp⟩

def Starving (c : Config Handling LoopStage) : Prop := ∃ stage, c.threads = [stage] ∧ Starved c.shared stage

theorem starve_of_queued {c : Config Handling LoopStage} (accepted : c.shared.inbox.accepted ≠ [])
    (queued : c.shared.inbox.mailbox.sys.queue ≠ []) : starve c = .step 0 .returned := by
  unfold starve
  split
  · rename_i none
    exact absurd none accepted
  · rename_i none
    exact absurd none queued
  · rfl

/-- What the choice does, and what it keeps. -/
theorem starving_goes (c : Config Handling LoopStage) (starving : Starving c) :
    ∃ d, handlerLoop.machine.step c (starve c) = some d ∧ Starving d ∧
      c.shared.inbox.accepted <+: d.shared.inbox.accepted ∧
      d.shared.inbox.accepted ≠ [] ∧
      (starve c = .step 0 .returned ∨ c.shared.inbox.accepted = [] ∨ d.shared.inbox.mailbox.sys.queue ≠ []) := by
  obtain ⟨s, threads⟩ := c
  obtain ⟨stage, rfl, starved⟩ := starving
  by_cases fresh : s.inbox.accepted = []
  · have choice : starve ⟨s, [stage]⟩ = .ambient (.send (.user [])) := by simp [starve, fresh]
    obtain ⟨kept, accepted, -⟩ := starved_send starved (.user [])
    refine ⟨⟨{ s with inbox := s.inbox.send (.user []) }, [stage]⟩, by rw [choice]; rfl, ⟨stage, rfl, kept⟩, ?_, ?_, ?_⟩
    · exact ⟨_, accepted.symm⟩
    · rw [accepted]
      simp
    · exact .inr (.inl fresh)
  · by_cases queued : s.inbox.mailbox.sys.queue = []
    · obtain ⟨first, rest, split⟩ := List.exists_cons_of_ne_nil fresh
      have choice : starve ⟨s, [stage]⟩ = .ambient (.send (.system .ping)) := by simp [starve, split, queued]
      obtain ⟨kept, accepted, filled⟩ := starved_send starved (.system .ping)
      refine ⟨⟨{ s with inbox := s.inbox.send (.system .ping) }, [stage]⟩, by rw [choice]; rfl,
        ⟨stage, rfl, kept⟩, ?_, ?_, ?_⟩
      · exact ⟨_, accepted.symm⟩
      · rw [accepted]
        simp
      · exact .inr (.inr (filled rfl))
    · have choice := starve_of_queued (c := ⟨s, [stage]⟩) fresh queued
      obtain ⟨later, next, stepped, kept, same⟩ := starved_step starved queued
      refine ⟨⟨later, [next]⟩, ?_, ⟨next, rfl, kept⟩, ?_, ?_, .inl choice⟩
      · rw [choice]
        simp [Program.machine, handlerLoop, stepped]
      · exact same ▸ List.prefix_refl _
      · exact same ▸ fresh

theorem starving_start (budget : Nat) : Starving (startHandler budget) :=
  ⟨.receiving .idle 0, rfl, rfl, rfl, rfl, rfl, trivial, rfl⟩

theorem starving_go (c : Config Handling LoopStage) (starving : Starving c) :
    ∃ d, handlerLoop.machine.step c (starve c) = some d ∧ Starving d := by
  obtain ⟨d, stepped, kept, -⟩ := starving_goes c starving
  exact ⟨d, stepped, kept⟩

def starvation (budget : Nat) : handlerLoop.Execution := .ofChoice starving_go (starving_start budget)

theorem starvation_starving (budget n : Nat) : Starving ((starvation budget).config n) :=
  Program.chosen_holds starving_go (starving_start budget) n

theorem starvation_next (budget n : Nat) : (starvation budget).move n = some (starve ((starvation budget).config n)) ∧
    ((starvation budget).config n).shared.inbox.accepted <+:
      ((starvation budget).config (n + 1)).shared.inbox.accepted ∧
    ((starvation budget).config (n + 1)).shared.inbox.accepted ≠ [] ∧
    (starve ((starvation budget).config n) = .step 0 .returned ∨
      ((starvation budget).config n).shared.inbox.accepted = [] ∨
      ((starvation budget).config (n + 1)).shared.inbox.mailbox.sys.queue ≠ []) := by
  obtain ⟨d, stepped, -, rest⟩ := starving_goes _ (starvation_starving budget n)
  have follows : handlerLoop.machine.step ((starvation budget).config n) (starve ((starvation budget).config n)) =
      some ((starvation budget).config (n + 1)) := (starvation budget).follows n
  rw [stepped] at follows
  cases follows
  exact ⟨rfl, rest⟩

theorem starvation_fair (budget : Nat) : (starvation budget).Fair := by
  intro index start can
  have zero : index = 0 := by
    obtain ⟨input, moved⟩ := can start (Nat.le_refl _)
    obtain ⟨stage, alone, -⟩ := starvation_starving budget start
    cases index with
    | zero => rfl
    | succ index => simp [Program.machine, alone] at moved
  subst zero
  obtain ⟨-, -, some, -⟩ := starvation_next budget start
  obtain ⟨-, -, more, later | none | queued⟩ := starvation_next budget (start + 1)
  · obtain ⟨taken, -⟩ := starvation_next budget (start + 1)
    exact ⟨start + 1, .returned, by omega, by rw [taken, later]⟩
  · exact absurd none some
  · obtain ⟨taken, -⟩ := starvation_next budget (start + 2)
    exact ⟨start + 2, .returned, by omega, by rw [taken, starve_of_queued more queued]⟩

end Serving

/-- System messages can keep an actor from a user message for ever, whatever its
    budget, and with no end of its loop. -/
theorem user_message_starves (budget : Nat) : ∃ e : handlerLoop.Execution, e.Fair ∧
    e.config 0 = startHandler budget ∧ (∃ n, userOf (e.config n).shared.inbox.accepted ≠ []) ∧
    ∀ m, userOf (e.config m).shared.handled = [] ∧ ¬ Serving.LoopEnded (e.config m) := by
  refine ⟨Serving.starvation budget, Serving.starvation_fair budget, rfl, ⟨1, ?_⟩, ?_⟩
  · show userOf [Message.user []] ≠ []
    simp [userOf, Message.user?]
  · intro m
    obtain ⟨stage, alone, starved⟩ := Serving.starvation_starving budget m
    refine ⟨starved.unhandled, ?_⟩
    rintro ⟨panicked, ended⟩
    rw [alone] at ended
    cases ended
    exact starved.early

end Myrmidon
