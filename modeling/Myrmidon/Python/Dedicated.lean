import Myrmidon.Python.Handler
import Myrmidon.Transition.Machine

namespace Myrmidon.Python

open Data Transition

/-- Where the loop of a dedicated thread is. -/
inductive ThreadStage where
  | top
  | receiving
  | took (message : Message)
  | calling
  | ended
  deriving DecidableEq

/-- A dedicated thread with its channel and the behaviour it shares with the closure. -/
structure GilThread where
  channel : Channel Message
  behavior : Behavior
  stage : ThreadStage
  deriving DecidableEq

inductive ThreadInput where
  | proceed
  | timeOut
  deriving DecidableEq

namespace GilThread

def new (callable : PyObject) : GilThread := ⟨.new, .new callable, .top⟩

/-- Leaving the loop drops the thread's receiver. -/
def exit (t : GilThread) : GilThread :=
  { t with stage := .ended, channel := { t.channel with queue := [], receiverAlive := false } }

/-- `counter` is `RELEASE_GIL_THREADS`; each way out of the loop takes one off.
    The check of the interpreter and `with_gil` behind it are one step. -/
def step (initialised : Bool) (counter : BitVec 64) (t : GilThread) (input : ThreadInput) :
    Option (BitVec 64 × GilThread) :=
  match t.stage, input with
  | .top, .proceed => if initialised then some (counter, { t with stage := .receiving }) else some (counter - 1, t.exit)
  | .receiving, .proceed =>
    match t.channel.recv with
    | .ready (some (message, channel)) => some (counter, { t with channel, stage := .took message })
    | .ready none => some (counter - 1, t.exit)
    | .pending => none
  | .receiving, .timeOut => some (counter, { t with stage := .top })
  | .took message, .proceed =>
    match message with
    | .system (.hotSwap ptr) =>
      if initialised then some (counter, { t with behavior := t.behavior.swap ptr, stage := .top })
      else some (counter, { t with stage := .top })
    | .user bytes =>
      if initialised then some (counter, { t with behavior := t.behavior.begin bytes, stage := .calling })
      else some (counter, { t with stage := .top })
    | .system (.exit _) => some (counter - 1, t.exit)
    | .system .ping | .system .pong => some (counter, { t with stage := .top })
  | .calling, .proceed => some (counter, { t with behavior := t.behavior.finish, stage := .top })
  | .ended, .proceed => none
  | .top, .timeOut | .took _, .timeOut | .calling, .timeOut | .ended, .timeOut => none

/-- Everything the thread can do; `counter` changes with the ways out only. -/
inductive Steps (initialised : Bool) (counter : BitVec 64) (channel : Channel Message) (behavior : Behavior) :
    ThreadStage → BitVec 64 → GilThread → Prop where
  | waits (up : initialised = true) : Steps initialised counter channel behavior .top counter
      ⟨channel, behavior, .receiving⟩
  | leaves (down : initialised = false) :
      Steps initialised counter channel behavior .top (counter - 1) (exit ⟨channel, behavior, .top⟩)
  | takes {message : Message} {rest : List Message} (queue : channel.queue = message :: rest) :
      Steps initialised counter channel behavior .receiving counter
        ⟨{ channel with queue := rest }, behavior, .took message⟩
  | disconnected (queue : channel.queue = []) (gone : channel.senderAlive = false) :
      Steps initialised counter channel behavior .receiving (counter - 1) (exit ⟨channel, behavior, .receiving⟩)
  | timesOut : Steps initialised counter channel behavior .receiving counter ⟨channel, behavior, .top⟩
  | swaps {ptr : PyObject} (up : initialised = true) :
      Steps initialised counter channel behavior (.took (.system (.hotSwap ptr))) counter
        ⟨channel, behavior.swap ptr, .top⟩
  | begins {bytes : Bytes} (up : initialised = true) :
      Steps initialised counter channel behavior (.took (.user bytes)) counter
        ⟨channel, behavior.begin bytes, .calling⟩
  | skips {message : Message} (idle : initialised = false ∨ message = .system .ping ∨ message = .system .pong) :
      Steps initialised counter channel behavior (.took message) counter ⟨channel, behavior, .top⟩
  | stops {info : ExitInfo} : Steps initialised counter channel behavior (.took (.system (.exit info))) (counter - 1)
      (exit ⟨channel, behavior, .took (.system (.exit info))⟩)
  | returns : Steps initialised counter channel behavior .calling counter ⟨channel, behavior.finish, .top⟩

theorem steps_of_took {initialised : Bool} {counter later : BitVec 64} {channel : Channel Message}
    {behavior : Behavior} {message : Message} {next : GilThread}
    (stepped : step initialised counter ⟨channel, behavior, .took message⟩ .proceed = some (later, next)) :
    Steps initialised counter channel behavior (.took message) later next := by
  cases message with
  | user bytes =>
    cases initialised with
    | true =>
      cases stepped
      exact .begins rfl
    | false =>
      cases stepped
      exact .skips (.inl rfl)
  | system message =>
    cases message with
    | hotSwap ptr =>
      cases initialised with
      | true =>
        cases stepped
        exact .swaps rfl
      | false =>
        cases stepped
        exact .skips (.inl rfl)
    | exit info =>
      cases stepped
      exact .stops
    | ping =>
      cases stepped
      exact .skips (.inr (.inl rfl))
    | pong =>
      cases stepped
      exact .skips (.inr (.inr rfl))

theorem steps_of_step {initialised : Bool} {counter later : BitVec 64} {channel : Channel Message}
    {behavior : Behavior} {stage : ThreadStage} {next : GilThread} {input : ThreadInput}
    (stepped : step initialised counter ⟨channel, behavior, stage⟩ input = some (later, next)) :
    Steps initialised counter channel behavior stage later next := by
  cases input with
  | timeOut =>
    cases stage with
    | receiving =>
      cases stepped
      exact .timesOut
    | top | took _ | calling | ended => cases stepped
  | proceed =>
    cases stage with
    | top =>
      cases initialised with
      | true =>
        cases stepped
        exact .waits rfl
      | false =>
        cases stepped
        exact .leaves rfl
    | receiving =>
      simp only [step, Channel.recv] at stepped
      cases queue : channel.queue with
      | cons message rest =>
        simp only [queue] at stepped
        cases stepped
        exact .takes queue
      | nil =>
        cases senders : channel.senderAlive with
        | true => simp [queue, senders] at stepped
        | false =>
          simp only [queue, senders, Bool.false_eq_true, if_false] at stepped
          cases stepped
          exact .disconnected queue senders
    | took message => exact steps_of_took stepped
    | calling =>
      cases stepped
      exact .returns
    | ended => cases stepped

end GilThread

/-- A push actor with a dedicated thread. `received` are the messages its loop
    gave to the closure. -/
structure DedicatedActor where
  initialised : Bool
  releaseGilThreads : BitVec 64
  thread : GilThread
  received : List Message
  deriving DecidableEq

/-- `pool` is whether the shared pool exists when the message comes in. -/
inductive DedicatedMove where
  | deliver (message : Message) (pool : Bool)
  | stop
  | thread (input : ThreadInput)
  | shutDown
  deriving DecidableEq

namespace DedicatedActor

def start (counter : BitVec 64) (callable : PyObject) : DedicatedActor := ⟨true, counter, .new callable, []⟩

/-- The error of a send is ignored. -/
def forward (a : DedicatedActor) (message : Message) : DedicatedActor :=
  match a.thread.channel.send message with
  | .ok channel => { a with thread := { a.thread with channel } }
  | .error _ => a

def dispatch (a : DedicatedActor) : Dispatch → DedicatedActor
  | .forward message => a.forward message
  | .callInline bytes => { a with thread := { a.thread with behavior := a.thread.behavior.call bytes } }
  | .swapInline ptr => { a with thread := { a.thread with behavior := a.thread.behavior.swap ptr } }
  | .queue _ | .dropTx | .nothing => a

/-- The loop runs until it is stopped, which drops the closure and its sender. -/
def step (a : DedicatedActor) : DedicatedMove → Option DedicatedActor
  | .deliver message pool =>
    if a.thread.channel.senderAlive then
      some ({ a with received := a.received ++ [message] }.dispatch
        ((Closure.dedicated 0).handle a.initialised pool message))
    else none
  | .stop => some { a with thread := { a.thread with channel := a.thread.channel.dropSenders } }
  | .thread input =>
    match a.thread.step a.initialised a.releaseGilThreads input with
    | none => none
    | some (counter, thread) => some { a with releaseGilThreads := counter, thread }
  | .shutDown => some { a with initialised := false }

end DedicatedActor

def dedicatedMachine : Machine DedicatedActor DedicatedMove := ⟨DedicatedActor.step⟩

namespace ThreadStage

/-- The message taken from the channel and not yet acted on. -/
def hand : ThreadStage → List Message
  | .took message => [message]
  | .top | .receiving | .calling | .ended => []

/-- What is left of a call in progress. -/
def settle : ThreadStage → Behavior → Behavior
  | .calling, b => b.finish
  | .top, b | .receiving, b | .took _, b | .ended, b => b

end ThreadStage

namespace GilThread

def pending (t : GilThread) : List Message := t.stage.hand ++ t.channel.queue

/-- The behaviour once the thread has worked off what it holds. -/
def completed (t : GilThread) : Behavior := (t.stage.settle t.behavior).receiveAll t.pending

def Drained (t : GilThread) : Prop := t.channel.queue = [] ∧ t.stage.hand = [] ∧ t.stage ≠ .calling

theorem Drained.completed {t : GilThread} (drained : t.Drained) : t.completed = t.behavior := by
  obtain ⟨queue, hand, idle⟩ := drained
  unfold GilThread.completed pending
  rw [queue, hand]
  cases stage : t.stage with
  | calling => exact absurd stage idle
  | top | receiving | took _ | ended => rfl

/-- The closure forwards nothing that ends the thread. -/
def Forwarded : Message → Prop
  | .user _ | .system (.hotSwap _) => True
  | .system (.exit _) | .system .ping | .system .pong => False

structure Sound (t : GilThread) : Prop where
  forwarded : ∀ message ∈ t.pending, Forwarded message
  running : t.stage ≠ .ended → t.channel.receiverAlive = true
  finished : t.stage = .ended → t.channel.senderAlive = false ∧ t.channel.queue = []

theorem Sound.of_stage {channel : Channel Message} {behavior other : Behavior} {stage next : ThreadStage}
    (sound : Sound ⟨channel, behavior, stage⟩) (running : stage ≠ .ended) (still : next ≠ .ended)
    (hand : next.hand = []) : Sound ⟨channel, other, next⟩ where
  forwarded := by
    intro message member
    simp only [pending, hand, List.nil_append] at member
    exact sound.forwarded message (List.mem_append_right _ member)
  running := fun _ => sound.running running
  finished := fun ended => absurd ended still

theorem Steps.sound {counter later : BitVec 64} {channel : Channel Message} {behavior : Behavior}
    {stage : ThreadStage} {next : GilThread} (sound : Sound ⟨channel, behavior, stage⟩)
    (steps : Steps true counter channel behavior stage later next) : next.Sound := by
  cases steps with
  | waits up => exact sound.of_stage (by simp) (by simp) rfl
  | leaves down => cases down
  | takes queue =>
    refine ⟨?_, fun _ => sound.running (by simp), by simp⟩
    intro message member
    apply sound.forwarded
    simpa [pending, ThreadStage.hand, queue] using member
  | disconnected queue gone =>
    exact ⟨by simp [pending, exit, ThreadStage.hand], by simp [exit], by simp [exit, gone]⟩
  | timesOut => exact sound.of_stage (by simp) (by simp) rfl
  | swaps up => exact sound.of_stage (by simp) (by simp) rfl
  | begins up => exact sound.of_stage (by simp) (by simp) rfl
  | skips idle => exact sound.of_stage (by simp) (by simp) rfl
  | @stops info =>
    -- An Exit message is never forwarded, so this way out is not taken.
    exact (sound.forwarded (.system (.exit info)) (by simp [pending, ThreadStage.hand])).elim
  | returns => exact sound.of_stage (by simp) (by simp) rfl

theorem Steps.completed {counter later : BitVec 64} {channel : Channel Message} {behavior : Behavior}
    {stage : ThreadStage} {next : GilThread} (steps : Steps true counter channel behavior stage later next)
    (sound : Sound ⟨channel, behavior, stage⟩) : next.completed = GilThread.completed ⟨channel, behavior, stage⟩ := by
  cases steps with
  | waits up => rfl
  | leaves down => cases down
  | takes queue => simp [GilThread.completed, pending, ThreadStage.hand, ThreadStage.settle, queue]
  | disconnected queue gone => simp [GilThread.completed, pending, exit, ThreadStage.hand, ThreadStage.settle, queue]
  | timesOut => rfl
  | swaps up => rfl
  | begins up => rfl
  | skips idle =>
    rcases idle with down | ping | pong
    · cases down
    · rw [ping]
      rfl
    · rw [pong]
      rfl
  | @stops info => exact (sound.forwarded (.system (.exit info)) (by simp [pending, ThreadStage.hand])).elim
  | returns => rfl

/-- How much the thread has to do until it is drained. -/
def work (t : GilThread) : Nat :=
  4 * t.channel.queue.length +
    match t.stage with
    | .top => 1
    | .took _ => 3
    | .calling => 2
    | .receiving | .ended => 0

theorem step_work {t : GilThread} (sound : t.Sound) (busy : ¬ t.Drained) (counter : BitVec 64) :
    ∃ next, t.step true counter .proceed = some (counter, next) ∧ next.work < t.work := by
  obtain ⟨channel, behavior, stage⟩ := t
  cases stage with
  | top => exact ⟨_, rfl, by simp [work]⟩
  | receiving =>
    cases queue : channel.queue with
    | nil => exact absurd ⟨queue, rfl, by simp⟩ busy
    | cons message rest =>
      refine ⟨⟨{ channel with queue := rest }, behavior, .took message⟩, ?_, ?_⟩
      · simp [step, Channel.recv, queue]
      · simp only [work, queue, List.length_cons]
        omega
  | took message =>
    have mine : Forwarded message := sound.forwarded message (by simp [pending, ThreadStage.hand])
    cases message with
    | user bytes => exact ⟨_, rfl, by simp [work]⟩
    | system message =>
      cases message with
      | hotSwap ptr => exact ⟨_, rfl, by simp [work]⟩
      | exit info => exact mine.elim
      | ping => exact mine.elim
      | pong => exact mine.elim
  | calling => exact ⟨_, rfl, by simp [work]⟩
  | ended => exact absurd ⟨(sound.finished rfl).2, rfl, by simp⟩ busy

end GilThread

namespace DedicatedActor

open GilThread

/-- The thread lags behind the inline actor by what it still holds. -/
structure Follows (callable : PyObject) (a : DedicatedActor) : Prop where
  sound : a.thread.Sound
  agrees : a.thread.completed = (Behavior.new callable).receiveAll a.received

theorem start_follows (counter : BitVec 64) (callable : PyObject) : (start counter callable).Follows callable where
  sound := ⟨by simp [pending, start, GilThread.new, Channel.new, ThreadStage.hand], fun _ => rfl, by
    simp [start, GilThread.new]⟩
  agrees := rfl

theorem Follows.sends {callable : PyObject} {a : DedicatedActor} (follows : a.Follows callable)
    (senders : a.thread.channel.senderAlive = true) (message : Message) (forwarded : Forwarded message) :
    Follows callable (DedicatedActor.forward { a with received := a.received ++ [message] } message) := by
  have running : a.thread.stage ≠ .ended := by
    intro ended
    have gone := (follows.sound.finished ended).1
    rw [senders] at gone
    cases gone
  have alive := follows.sound.running running
  have sent : DedicatedActor.forward { a with received := a.received ++ [message] } message = { a with
      thread := { a.thread with channel := { a.thread.channel with queue := a.thread.channel.queue ++ [message] } },
      received := a.received ++ [message] } := by
    simp [DedicatedActor.forward, Channel.send, alive]
  rw [sent]
  refine ⟨⟨?_, fun _ => alive, fun ended => absurd ended running⟩, ?_⟩
  · intro other member
    simp only [pending, ← List.append_assoc] at member
    rcases List.mem_append.mp member with old | new
    · exact follows.sound.forwarded other old
    · rw [List.mem_singleton.mp new]
      exact forwarded
  · have agrees := follows.agrees
    simp only [completed, pending, ← List.append_assoc, Behavior.receiveAll_snoc] at agrees ⊢
    rw [agrees]

theorem Follows.deliver {callable : PyObject} {a : DedicatedActor} (follows : a.Follows callable)
    (senders : a.thread.channel.senderAlive = true) (message : Message) (pool : Bool) :
    Follows callable ({ a with received := a.received ++ [message] }.dispatch
      ((Closure.dedicated 0).handle true pool message)) := by
  cases message with
  | user bytes => exact follows.sends senders (.user bytes) trivial
  | system message =>
    -- Exit, Ping and Pong reach neither the thread nor the inline behaviour.
    have ignored : ∀ message : Message, (∀ b : Behavior, b.receive message = b) →
        Follows callable { a with received := a.received ++ [message] } := by
      intro message unchanged
      refine ⟨follows.sound, ?_⟩
      rw [Behavior.receiveAll_snoc, unchanged]
      exact follows.agrees
    cases message with
    | hotSwap ptr => exact follows.sends senders (.system (.hotSwap ptr)) trivial
    | exit info => exact ignored (.system (.exit info)) fun _ => rfl
    | ping => exact ignored (.system .ping) fun _ => rfl
    | pong => exact ignored (.system .pong) fun _ => rfl

theorem follows_step (callable : PyObject) (a : DedicatedActor) (move : DedicatedMove) (later : DedicatedActor)
    (follows : a.initialised = true → a.Follows callable) (stepped : dedicatedMachine.step a move = some later) :
    later.initialised = true → later.Follows callable := by
  intro initialised
  simp only [dedicatedMachine] at stepped
  cases move with
  | deliver message pool =>
    simp only [step] at stepped
    split at stepped
    · rename_i senders
      cases stepped
      have before : a.initialised = true := by
        cases unset : a.initialised with
        | true => rfl
        | false =>
          simp [unset, Closure.handle, dispatch] at initialised
      have handled : (Closure.dedicated 0).handle a.initialised pool message =
          (Closure.dedicated 0).handle true pool message := by rw [before]
      rw [handled]
      exact (follows before).deliver senders message pool
    · cases stepped
  | stop =>
    cases stepped
    have kept := follows initialised
    exact ⟨⟨kept.sound.forwarded, kept.sound.running, fun ended => ⟨rfl, (kept.sound.finished ended).2⟩⟩, kept.agrees⟩
  | thread input =>
    simp only [step] at stepped
    split at stepped
    · cases stepped
    · rename_i counter thread moved
      cases stepped
      have before : a.initialised = true := initialised
      rw [before] at moved
      have kept := follows before
      have steps := steps_of_step moved
      exact ⟨steps.sound kept.sound, (steps.completed kept.sound).trans kept.agrees⟩
  | shutDown =>
    cases stepped
    cases initialised

theorem Follows.drains {callable : PyObject} {a : DedicatedActor} (follows : a.Follows callable)
    (initialised : a.initialised = true) :
    ∃ turns later, dedicatedMachine.run a (List.replicate turns (.thread .proceed)) = some later ∧
      later.thread.Drained ∧ later.received = a.received ∧ later.Follows callable := by
  -- Every turn of the thread leaves it less to do.
  induction bound : a.thread.work using Nat.strong_induction_on generalizing a with
  | _ n ih =>
    by_cases drained : a.thread.Drained
    · exact ⟨0, a, rfl, drained, rfl, follows⟩
    · obtain ⟨next, moved, less⟩ := step_work follows.sound drained a.releaseGilThreads
      have stepped : dedicatedMachine.step a (.thread .proceed) = some { a with thread := next } := by
        simp only [dedicatedMachine, step, initialised, moved]
      have kept := follows_step callable a _ _ (fun _ => follows) stepped initialised
      obtain ⟨turns, later, reached, final⟩ := ih next.work (bound ▸ less) kept initialised rfl
      refine ⟨turns + 1, later, ?_, final⟩
      rw [List.replicate_succ, Machine.run_cons, stepped]
      exact reached

/-- In every interleaving of the actor loop with its dedicated thread, the
    drained thread has made exactly the calls and swaps of the inline actor, and
    stores its callable. The thread ends only drained, with the actor gone, and
    it can always drain. -/
theorem dedicated_thread_refines_inline (counter : BitVec 64) (callable : PyObject) (moves : List DedicatedMove)
    (a : DedicatedActor) (reached : dedicatedMachine.run (start counter callable) moves = some a)
    (initialised : a.initialised = true) :
    (a.thread.Drained → a.thread.behavior = (Behavior.new callable).receiveAll a.received) ∧
      (a.thread.stage = .ended → a.thread.Drained ∧ a.thread.channel.senderAlive = false) ∧
      ∃ turns later, dedicatedMachine.run a (List.replicate turns (.thread .proceed)) = some later ∧
        later.thread.Drained ∧ later.received = a.received ∧
        later.thread.behavior = (Behavior.new callable).receiveAll a.received := by
  have follows : a.Follows callable := dedicatedMachine.run_invariant
    (P := fun a => a.initialised = true → a.Follows callable) (follows_step callable)
    (fun _ => start_follows counter callable) reached initialised
  refine ⟨?_, ?_, ?_⟩
  · intro drained
    rw [← drained.completed]
    exact follows.agrees
  · intro ended
    obtain ⟨senders, queue⟩ := follows.sound.finished ended
    exact ⟨⟨queue, by rw [ended]; rfl, by rw [ended]; simp⟩, senders⟩
  · obtain ⟨turns, later, ran, drained, same, final⟩ := follows.drains initialised
    refine ⟨turns, later, ran, drained, same, ?_⟩
    rw [← same, ← drained.completed]
    exact final.agrees

/-- A call, an Exit message, a swap and a second call; the actor is stopped
    while the thread is still in the first call. -/
def stoppedMeanwhile : List DedicatedMove :=
  [.deliver (.user [1]) false, .thread .proceed, .thread .proceed, .thread .proceed,
    .deliver (.system (.exit ⟨7, .killed, none⟩)) true, .deliver (.system (.hotSwap 20)) true,
    .deliver (.user [2]) false, .stop] ++ List.replicate 9 (.thread .proceed)

def afterStopped : DedicatedActor :=
  ⟨true, 1, ⟨⟨[], false, true⟩, ⟨20, [.began 10 [1], .ended, .swapped 20, .began 20 [2], .ended]⟩, .receiving⟩,
    [.user [1], .system (.exit ⟨7, .killed, none⟩), .system (.hotSwap 20), .user [2]]⟩

theorem dedicated_thread_refines_inline_stopped :
    dedicatedMachine.run (start 1 10) stoppedMeanwhile = some afterStopped ∧
      afterStopped.thread.behavior = (Behavior.new 10).receiveAll afterStopped.received :=
  ⟨by decide +kernel, (dedicated_thread_refines_inline 1 10 stoppedMeanwhile afterStopped (by decide +kernel) rfl).1
    ⟨rfl, rfl, by decide⟩⟩

end DedicatedActor

end Myrmidon.Python
