import Myrmidon.Mailbox.Custody
import Myrmidon.Transition.Interleaving

namespace Myrmidon.Bindings

open Data Transition

/-- Which wrapper of a mailbox a call was made on: `PyMailbox` or `JsMailbox`. -/
inductive Binding where
  | python
  | node
  deriving DecidableEq

/-- Where a call is. The Python wrapper waits in slices: between two slices it
    looks for signals and at the clock. -/
inductive CallStage where
  | entering
  | signals
  | clock
  | arming (wait : Option Nat)
  | locking (deadline : Option Nat)
  | receiving (deadline : Option Nat) (stage : RecvStage)
  | parked (deadline : Option Nat) (kind : RecvKind)
  | expired
  | returned (result : Option Message)
  | interrupted
  deriving DecidableEq

/-- A call of `recv` or `selective_recv`. Times are in nanoseconds. -/
structure MailboxCall where
  binding : Binding
  kind : RecvKind
  timeout : Option Nat
  started : Nat
  stage : CallStage
  deriving DecidableEq

/-- A mailbox behind the lock of its wrapper, with the clock and the messages that sends have got accepted. -/
structure Guarded where
  mailbox : Mailbox
  locked : Bool
  now : Nat
  accepted : List Message

/-- Whether a signal is pending, the matcher's answers in the order in which it
    is asked, and whether a timer that may fire does. -/
structure CallInput where
  interrupted : Bool
  answers : List Bool
  elapsed : Bool

inductive MailboxEvent where
  | send (message : Message)
  | stop
  | tick (time : Nat)

namespace Guarded

def start : Guarded := ⟨.channel, false, 0, []⟩

def send (s : Guarded) (message : Message) : Guarded :=
  match s.mailbox.send message with
  | (.ok (), mailbox) => { s with mailbox, accepted := s.accepted ++ [message] }
  | (.error _, mailbox) => { s with mailbox }

def passed (s : Guarded) : Option Nat → Bool
  | none => false
  | some deadline => decide (deadline ≤ s.now)

end Guarded

namespace MailboxCall

/-- The 100 ms of one slice. -/
def waitTime : Nat := 100000000

/-- What follows a slice that timed out. -/
def afterSlice (call : MailboxCall) : CallStage :=
  match call.binding with
  | .python => .expired
  | .node => .returned none

def step (s : Guarded) (call : MailboxCall) (input : CallInput) : Option (Guarded × MailboxCall) :=
  match call.stage with
  | .entering =>
    match call.binding with
    | .python => some (s, { call with started := s.now, stage := .signals })
    | .node => some (s, { call with started := s.now, stage := .arming call.timeout })
  | .signals => some (s, { call with stage := if input.interrupted then .interrupted else .clock })
  | .clock =>
    match call.timeout with
    | none => some (s, { call with stage := .arming (some waitTime) })
    | some t =>
      let elapsed := s.now - call.started
      if t ≤ elapsed then some (s, { call with stage := .returned none })
      else some (s, { call with stage := .arming (some (min waitTime (t - elapsed))) })
  | .arming wait => some (s, { call with stage := .locking (wait.map fun time => s.now + time) })
  | .locking deadline =>
    if !s.locked then some ({ s with locked := true }, { call with stage := .receiving deadline .idle })
    else if input.elapsed && s.passed deadline then some (s, { call with stage := call.afterSlice })
    else some (s, call)
  | .receiving _ (.returned result) => some ({ s with locked := false }, { call with stage := .returned result })
  -- The select has just been polled and is pending; the timer is looked at next.
  | .receiving deadline (.waiting kind) =>
    if input.elapsed && s.passed deadline then
      some ({ s with locked := false }, { call with stage := call.afterSlice })
    else some (s, { call with stage := .parked deadline kind })
  | .receiving deadline stage =>
    let (mailbox, stage) := stage.step s.mailbox ⟨call.kind, input.answers, false⟩
    some ({ s with mailbox }, { call with stage := .receiving deadline stage })
  | .parked deadline kind => some (s, { call with stage := .receiving deadline (.selectSys kind) })
  | .expired =>
    match call.timeout with
    | none => some (s, { call with stage := .signals })
    | some t => some (s, { call with stage := if t ≤ s.now - call.started then .returned none else .signals })
  | .returned _ | .interrupted => none

/-- Both wrappers have `recv`; only the Python one has `selective_recv`. -/
def begins (call : MailboxCall) : Bool :=
  decide (call.stage = .entering ∧ (call.kind = .recv ∨ call.kind = .selective ∧ call.binding = .python))

end MailboxCall

/-- Any number of calls on clones of one mailbox wrapper. -/
def mailboxCalls : Program Guarded MailboxCall CallInput MailboxEvent where
  starts := MailboxCall.begins
  step _ s call input := (call.step s input).map fun (s, call) => (s, call, [])
  ambient s
    | .send message => some (s.send message)
    | .stop => some { s with mailbox := s.mailbox.dropSenders }
    | .tick time => some { s with now := s.now + time }

abbrev MailboxMove := Move MailboxCall CallInput MailboxEvent

namespace MailboxCall

/-- Everything one step of a call can do. -/
inductive Steps (s : Guarded) (call : MailboxCall) : Guarded → MailboxCall → Prop where
  | enters (stage : call.stage = .entering) (binding : call.binding = .python) :
      Steps s call s { call with started := s.now, stage := .signals }
  | entersOnce (stage : call.stage = .entering) (binding : call.binding = .node) :
      Steps s call s { call with started := s.now, stage := .arming call.timeout }
  | raises (stage : call.stage = .signals) : Steps s call s { call with stage := .interrupted }
  | checks (stage : call.stage = .signals) : Steps s call s { call with stage := .clock }
  | slices (stage : call.stage = .clock) (wait : Nat)
      (early : ∀ t, call.timeout = some t → ¬ t ≤ s.now - call.started) :
      Steps s call s { call with stage := .arming (some wait) }
  | timesOut {t : Nat} (stage : call.stage = .clock ∨ call.stage = .expired) (timeout : call.timeout = some t)
      (late : t ≤ s.now - call.started) : Steps s call s { call with stage := .returned none }
  | arms {wait : Option Nat} (stage : call.stage = .arming wait) :
      Steps s call s { call with stage := .locking (wait.map fun time => s.now + time) }
  | locks {deadline : Option Nat} (stage : call.stage = .locking deadline) (free : s.locked = false) :
      Steps s call { s with locked := true } { call with stage := .receiving deadline .idle }
  | givesUp {deadline : Option Nat} (stage : call.stage = .locking deadline) (passed : s.passed deadline = true) :
      Steps s call s { call with stage := call.afterSlice }
  | queues {deadline : Option Nat} (stage : call.stage = .locking deadline) : Steps s call s call
  | answers {deadline : Option Nat} {result : Option Message}
      (stage : call.stage = .receiving deadline (.returned result)) :
      Steps s call { s with locked := false } { call with stage := .returned result }
  | drops {deadline : Option Nat} {kind : RecvKind} (stage : call.stage = .receiving deadline (.waiting kind))
      (passed : s.passed deadline = true) :
      Steps s call { s with locked := false } { call with stage := call.afterSlice }
  | parks {deadline : Option Nat} {kind : RecvKind} (stage : call.stage = .receiving deadline (.waiting kind)) :
      Steps s call s { call with stage := .parked deadline kind }
  | resumes {deadline : Option Nat} {kind : RecvKind} (stage : call.stage = .parked deadline kind) :
      Steps s call s { call with stage := .receiving deadline (.selectSys kind) }
  | receives {deadline : Option Nat} {receiver : RecvStage} (answers : List Bool)
      (stage : call.stage = .receiving deadline receiver) (unanswered : receiver.Unanswered) :
      Steps s call { s with mailbox := (receiver.step s.mailbox ⟨call.kind, answers, false⟩).1 }
        { call with stage := .receiving deadline (receiver.step s.mailbox ⟨call.kind, answers, false⟩).2 }
  | again (stage : call.stage = .expired) : Steps s call s { call with stage := .signals }

theorem step_receiving {s : Guarded} {binding : Binding} {kind : RecvKind} {timeout deadline : Option Nat}
    {started : Nat}
    {receiver : RecvStage} {input : CallInput} (unanswered : receiver.Unanswered)
    (moving : ∀ own, receiver ≠ .waiting own) :
    step s ⟨binding, kind, timeout, started, .receiving deadline receiver⟩ input =
      some ({ s with mailbox := (receiver.step s.mailbox ⟨kind, input.answers, false⟩).1 },
        ⟨binding, kind, timeout, started,
          .receiving deadline (receiver.step s.mailbox ⟨kind, input.answers, false⟩).2⟩) := by
  cases receiver with
  | returned result => exact unanswered.elim
  | waiting own => exact absurd rfl (moving own)
  | _ => rfl

theorem steps_of_step {s later : Guarded} {call next : MailboxCall} {input : CallInput}
    (stepped : call.step s input = some (later, next)) : Steps s call later next := by
  obtain ⟨binding, kind, timeout, started, stage⟩ := call
  cases stage with
  | entering =>
    cases binding with
    | python =>
      cases stepped
      exact .enters rfl rfl
    | node =>
      cases stepped
      exact .entersOnce rfl rfl
  | signals =>
    cases stepped
    cases input.interrupted with
    | true => exact .raises rfl
    | false => exact .checks rfl
  | clock =>
    cases timeout with
    | none =>
      cases stepped
      exact .slices rfl waitTime (by simp)
    | some t =>
      simp only [step] at stepped
      split at stepped
      · rename_i late
        cases stepped
        exact .timesOut (.inl rfl) rfl late
      · rename_i early
        cases stepped
        apply Steps.slices rfl
        intro other same
        cases same
        exact early
  | arming wait =>
    cases stepped
    exact .arms rfl
  | locking deadline =>
    simp only [step] at stepped
    split at stepped
    · rename_i free
      cases stepped
      exact .locks rfl (by simpa using free)
    · split at stepped
      · rename_i elapsed
        cases stepped
        exact .givesUp rfl (Bool.and_eq_true_iff.mp elapsed).2
      · cases stepped
        exact .queues rfl
  | receiving deadline receiver =>
    cases receiver with
    | returned result =>
      cases stepped
      exact .answers rfl
    | waiting own =>
      simp only [step] at stepped
      split at stepped
      · rename_i elapsed
        cases stepped
        exact .drops rfl (Bool.and_eq_true_iff.mp elapsed).2
      · cases stepped
        exact .parks rfl
    | _ =>
      rw [step_receiving (by trivial) (by simp)] at stepped
      cases stepped
      apply Steps.receives input.answers
      · rfl
      · trivial
  | parked deadline own =>
    cases stepped
    exact .resumes rfl
  | expired =>
    cases timeout with
    | none =>
      cases stepped
      exact .again rfl
    | some t =>
      simp only [step] at stepped
      split at stepped
      · rename_i late
        cases stepped
        exact .timesOut (.inr rfl) rfl late
      · cases stepped
        exact .again rfl
  | returned result => cases stepped
  | interrupted => cases stepped

/-- Whether the call holds the lock of the wrapper. -/
def holdsLock (call : MailboxCall) : Nat :=
  match call.stage with
  | .receiving _ _ | .parked _ _ => 1
  | _ => 0

/-- The message on its way from the mailbox to the caller. -/
def hand (call : MailboxCall) : List Message :=
  match call.stage with
  | .receiving _ stage => stage.hand
  | _ => []

/-- The message the caller got. -/
def answer (call : MailboxCall) : List Message :=
  match call.stage with
  | .returned result => result.toList
  | _ => []

end MailboxCall

open MailboxCall Program

/-- At most one call is inside the lock, and every accepted message is in the
    mailbox, on its way out or the answer of one call. -/
structure Custody (c : Config Guarded MailboxCall) : Prop where
  lock : total holdsLock c.threads = c.shared.locked.toNat
  conserved : (c.shared.mailbox.searchOrder ++ c.threads.flatMap hand ++ c.threads.flatMap answer).Perm
    c.shared.accepted

/-- The places of one message value, counted. -/
structure Counted (c : Config Guarded MailboxCall) : Prop where
  lock : total holdsLock c.threads = c.shared.locked.toNat
  places : ∀ message, c.shared.mailbox.searchOrder.count message +
    total (fun call => call.hand.count message + call.answer.count message) c.threads = c.shared.accepted.count message

theorem total_add (first second : MailboxCall → Nat) (calls : List MailboxCall) :
    total (fun call => first call + second call) calls = total first calls + total second calls := by
  simp only [total]
  exact List.sum_map_add

theorem Counted.custody {c : Config Guarded MailboxCall} (counted : Counted c) : Custody c := by
  refine ⟨counted.lock, ?_⟩
  rw [List.perm_iff_count]
  intro message
  have places := counted.places message
  rw [total_add] at places
  rw [List.count_append, List.count_append, List.count_flatMap, List.count_flatMap]
  simp only [total] at places
  simp only [Function.comp_def]
  omega

section

variable {s later : Guarded} {call next : MailboxCall} {before after : List MailboxCall}

/-- What one step of a call does to the lock and to the places of a message. -/
theorem MailboxCall.Steps.balance (steps : call.Steps s later next) (held : call.holdsLock ≤ s.locked.toNat) :
    later.locked.toNat + call.holdsLock = s.locked.toNat + next.holdsLock ∧ later.accepted = s.accepted ∧
    ∀ message, later.mailbox.searchOrder.count message + (next.hand.count message + next.answer.count message) =
      s.mailbox.searchOrder.count message + (call.hand.count message + call.answer.count message) := by
  obtain ⟨binding, kind, timeout, started, stage⟩ := call
  have mine : holdsLock ⟨binding, kind, timeout, started, stage⟩ = 1 → s.locked = true := by
    intro holds
    cases locked : s.locked with
    | true => rfl
    | false => rw [holds, locked] at held; cases held
  cases steps with
  | locks stage free =>
    cases stage
    exact ⟨by simp [holdsLock, free], rfl, fun _ => rfl⟩
  | givesUp stage passed =>
    cases stage
    cases binding <;> exact ⟨rfl, rfl, fun _ => rfl⟩
  | drops stage passed =>
    cases stage
    have locked := mine rfl
    cases binding <;> exact ⟨by rw [locked]; rfl, rfl, fun _ => rfl⟩
  | answers stage =>
    cases stage
    have locked := mine rfl
    refine ⟨by rw [locked]; rfl, rfl, fun message => ?_⟩
    simp [hand, answer, RecvStage.hand]
  | @receives deadline receiver answers stage unanswered =>
    cases stage
    refine ⟨rfl, rfl, fun message => ?_⟩
    have moved := RecvStage.step_custody (m := s.mailbox) unanswered ⟨kind, answers, false⟩
    have count := moved.count_eq message
    rw [List.count_append, List.count_append] at count
    simp only [hand, answer, List.count_nil, Nat.add_zero]
    exact count
  | timesOut stage timeout late => rcases stage with stage | stage <;> cases stage <;> exact ⟨rfl, rfl, fun _ => rfl⟩
  | queues stage => exact ⟨rfl, rfl, fun _ => rfl⟩
  | _ stage =>
    cases stage
    exact ⟨rfl, rfl, fun _ => rfl⟩

theorem Counted.step (counted : Counted ⟨s, before ++ call :: after⟩) (steps : call.Steps s later next) :
    Counted ⟨later, before ++ next :: after⟩ := by
  have lock := counted.lock
  rw [total_at] at lock
  have held : call.holdsLock ≤ s.locked.toNat := by
    dsimp only at lock
    omega
  obtain ⟨taken, accepted, moved⟩ := steps.balance held
  constructor
  · rw [total_at]
    dsimp only at lock ⊢
    omega
  · intro message
    have places := counted.places message
    have moved := moved message
    rw [total_at] at places ⊢
    dsimp only at places ⊢
    rw [accepted]
    omega

theorem send_counted (s : Guarded) (message other : Message) :
    (s.send message).locked = s.locked ∧
      (s.send message).mailbox.searchOrder.count other + s.accepted.count other =
        s.mailbox.searchOrder.count other + (s.send message).accepted.count other := by
  unfold Guarded.send
  cases message with
  | user bytes =>
    simp only [Mailbox.send, Channel.send]
    cases s.mailbox.user.receiverAlive with
    | false => exact ⟨rfl, rfl⟩
    | true =>
      refine ⟨rfl, ?_⟩
      simp only [if_true, Mailbox.searchOrder, List.map_append, List.map_cons, List.map_nil, List.count_append]
      omega
  | system content =>
    simp only [Mailbox.send, Channel.send]
    cases s.mailbox.sys.receiverAlive with
    | false => exact ⟨rfl, rfl⟩
    | true =>
      refine ⟨rfl, ?_⟩
      simp only [if_true, Mailbox.searchOrder, List.map_append, List.map_cons, List.map_nil, List.count_append]
      omega

end

theorem begins_entering {call : MailboxCall} (allowed : call.begins = true) :
    call.stage = .entering ∧ call.kind ≠ .tryRecv := by
  obtain ⟨stage, kind⟩ := of_decide_eq_true allowed
  refine ⟨stage, ?_⟩
  rcases kind with kind | ⟨kind, -⟩ <;> rw [kind] <;> exact RecvKind.noConfusion

theorem Counted.move {c d : Config Guarded MailboxCall} {move : MailboxMove} (counted : Counted c)
    (moves : mailboxCalls.Moves c move d) : Counted d := by
  cases moves with
  | @start s calls call allowed =>
    have stage := (begins_entering allowed).1
    have idle : call.holdsLock = 0 ∧ call.hand = [] ∧ call.answer = [] := by
      simp only [holdsLock, hand, answer, stage]
      exact ⟨trivial, trivial, trivial⟩
    obtain ⟨free, hand, answer⟩ := idle
    constructor
    · rw [total_append, total_cons, free]
      exact counted.lock
    · intro message
      rw [total_append, total_cons, hand, answer]
      exact counted.places message
  | @step s later before after new call next input stepped =>
    obtain ⟨⟨_, _⟩, taken, same⟩ := Option.map_eq_some_iff.mp stepped
    cases same
    rw [List.append_nil]
    exact counted.step (steps_of_step taken)
  | @ambient s later calls event done =>
    cases event with
    | send message =>
      cases done
      constructor
      · rw [(send_counted s message message).1]
        exact counted.lock
      · intro other
        have places := counted.places other
        have sent := (send_counted s message other).2
        dsimp only at places ⊢
        omega
    | stop =>
      cases done
      exact ⟨counted.lock, counted.places⟩
    | tick time =>
      cases done
      exact ⟨counted.lock, counted.places⟩

/-- However calls on a mailbox wrapper interleave, and whenever their slices and
    timeouts end, no message is lost or answered twice. -/
theorem mailbox_calls_custody (moves : List MailboxMove) (c : Config Guarded MailboxCall)
    (reached : mailboxCalls.machine.run ⟨.start, []⟩ moves = some c) : Custody c := by
  have start : Counted ⟨.start, []⟩ := ⟨rfl, fun _ => rfl⟩
  have counted : Counted c := mailboxCalls.machine.run_invariant
    (fun _ _ _ counted taken => counted.move (mailboxCalls.moves_of_step taken)) start reached
  exact counted.custody

/-- A Python call waits inside the lock; a Node call waits for the lock until it times out. -/
def waitBehindLock : List MailboxMove :=
  [.start ⟨.python, .selective, none, 0, .entering⟩, .start ⟨.node, .recv, some 5, 0, .entering⟩] ++
    List.replicate 11 (.step 0 ⟨false, [], false⟩) ++ List.replicate 3 (.step 1 ⟨false, [], false⟩) ++
    [.ambient (.tick 5), .step 1 ⟨false, [], true⟩, .ambient (.send (.user [1]))] ++
    List.replicate 5 (.step 0 ⟨false, [true], false⟩)

theorem mailbox_calls_custody_waitBehindLock :
    ∃ c, mailboxCalls.machine.run ⟨.start, []⟩ waitBehindLock = some c ∧
      c.threads.flatMap answer = [.user [1]] ∧ Custody c := by
  have ran : ∃ c, mailboxCalls.machine.run ⟨.start, []⟩ waitBehindLock = some c ∧
      c.threads.flatMap answer = [.user [1]] :=
    mailboxCalls.machine.exists_of_check (by decide +kernel)
  obtain ⟨c, reached, answered⟩ := ran
  exact ⟨c, reached, answered, mailbox_calls_custody waitBehindLock c reached⟩

/-- Every sender of one of the two channels is gone. -/
def Guarded.Closed (s : Guarded) : Prop := s.mailbox.sys.senderAlive = false ∨ s.mailbox.user.senderAlive = false

namespace CallStage

/-- When the current wait times out. -/
def deadline? : CallStage → Option Nat
  | .locking deadline | .receiving deadline _ | .parked deadline _ => deadline
  | _ => none

/-- The receive that is under way. -/
def receiver? : CallStage → Option RecvStage
  | .receiving _ stage => some stage
  | .parked _ kind => some (.waiting kind)
  | _ => none

/-- Between the slices of the Python wrapper. -/
def Sliced : CallStage → Prop
  | .signals | .clock | .expired => True
  | _ => False

/-- The call has not come near the mailbox. -/
def Untried : CallStage → Prop
  | .entering | .signals | .clock | .interrupted | .returned none => True
  | _ => False

end CallStage

/-- What is known of one call: how long it waits, and why it may have been told nothing. -/
structure Sound (s : Guarded) (call : MailboxCall) : Prop where
  kind : call.kind ≠ .tryRecv
  started : call.stage ≠ .entering → call.started ≤ s.now
  unsliced : call.binding = .node → ¬ call.stage.Sliced
  once : call.binding = .node → ∀ wait, call.stage = .arming wait → wait = call.timeout
  deadline : call.binding = .node → ∀ time, call.stage.deadline? = some time →
    ∃ t, call.timeout = some t ∧ call.started + t ≤ time
  awaits : ∀ receiver, call.stage.receiver? = some receiver →
    receiver.Awaits ∧ (receiver = .returned none → s.Closed)
  told : call.stage = .returned none → s.Closed ∨ ∃ t, call.timeout = some t ∧ call.started + t ≤ s.now
  zero : call.binding = .python → call.timeout = some 0 → call.stage.Untried

theorem Sound.later {s later : Guarded} {call : MailboxCall} (sound : Sound s call) (clock : s.now ≤ later.now)
    (closed : s.Closed → later.Closed) : Sound later call := by
  obtain ⟨kind, started, unsliced, once, deadline, awaits, told, zero⟩ := sound
  refine ⟨kind, fun begun => Nat.le_trans (started begun) clock, unsliced, once, deadline, ?_, ?_, zero⟩
  · intro receiver current
    exact ⟨(awaits receiver current).1, fun ended => closed ((awaits receiver current).2 ended)⟩
  · intro none
    rcases told none with gone | ⟨t, timeout, late⟩
    · exact .inl (closed gone)
    · exact .inr ⟨t, timeout, Nat.le_trans late clock⟩

section

variable {s later : Guarded} {call next : MailboxCall}

theorem MailboxCall.Steps.frame (steps : call.Steps s later next) :
    later.now = s.now ∧ later.mailbox.ends = s.mailbox.ends := by
  cases steps with
  | receives answers stage unanswered => exact ⟨rfl, RecvStage.step_ends _ _ _⟩
  | _ => exact ⟨rfl, rfl⟩

theorem closed_of_ends (same : later.mailbox.ends = s.mailbox.ends) (closed : s.Closed) : later.Closed := by
  simp only [Mailbox.ends, Prod.mk.injEq] at same
  obtain ⟨sys, -, user, -⟩ := same
  rw [Guarded.Closed, sys, user]
  exact closed

theorem exists_of_passed {deadline : Option Nat} (passed : s.passed deadline = true) :
    ∃ time, deadline = some time ∧ time ≤ s.now := by
  cases deadline with
  | none => cases passed
  | some time => exact ⟨time, rfl, of_decide_eq_true passed⟩

/-- A slice that ends without a message. -/
theorem Sound.sliceOver (sound : Sound s call) (passed : s.passed call.stage.deadline? = true)
    (clock : later.now = s.now) (begun : call.stage ≠ .entering) (tried : ¬ call.stage.Untried) :
    Sound later { call with stage := call.afterSlice } := by
  obtain ⟨time, armed, late⟩ := exists_of_passed passed
  obtain ⟨kind, started, unsliced, once, deadline, awaits, told, zero⟩ := sound
  have start := started begun
  cases binding : call.binding with
  | python =>
    simp only [afterSlice, binding]
    refine ⟨kind, fun _ => clock ▸ start, by simp, by simp, by simp, by simp [CallStage.receiver?], by simp, ?_⟩
    intro _ timeout
    exact absurd (zero binding timeout) tried
  | node =>
    simp only [afterSlice, binding]
    obtain ⟨t, timeout, bound⟩ := deadline binding time armed
    refine ⟨kind, fun _ => clock ▸ start, by simp [CallStage.Sliced], by simp, by simp [CallStage.deadline?],
      by simp [CallStage.receiver?], ?_, by simp⟩
    refine fun _ => .inr ⟨t, timeout, ?_⟩
    show call.started + t ≤ later.now
    omega

/-- Inside the lock, the call keeps the end of its wait. -/
theorem Sound.goesOn {stage : CallStage} (sound : Sound s call) (clock : later.now = s.now)
    (begun : call.stage ≠ .entering) (tried : ¬ call.stage.Untried) (armed : stage.deadline? = call.stage.deadline?)
    {receiver : RecvStage} (inside : stage.receiver? = some receiver) (awaits : receiver.Awaits)
    (ended : receiver = .returned none → later.Closed) : Sound later { call with stage } := by
  have known : ¬ stage.Sliced ∧ (∀ wait, stage ≠ .arming wait) ∧ stage ≠ .returned none := by
    cases stage <;> simp_all [CallStage.Sliced, CallStage.receiver?]
  obtain ⟨unsliced, unarmed, unanswered⟩ := known
  refine ⟨sound.kind, fun _ => clock ▸ sound.started begun, fun _ => unsliced, ?_, ?_, ?_, ?_, ?_⟩
  · exact fun _ wait arming => absurd arming (unarmed wait)
  · exact fun node time same => sound.deadline node time (armed ▸ same)
  · intro other same
    cases inside.symm.trans same
    exact ⟨awaits, ended⟩
  · exact fun none => absurd none unanswered
  · exact fun python timeout => absurd (sound.zero python timeout) tried

theorem Sound.step (sound : Sound s call) (steps : call.Steps s later next) : Sound later next := by
  obtain ⟨clock, ends⟩ := steps.frame
  have begun : call.stage ≠ .entering → call.started ≤ later.now := fun begun => clock ▸ sound.started begun
  have python : call.stage.Sliced → call.binding ≠ .node := fun sliced node => sound.unsliced node sliced
  cases steps with
  | enters stage binding =>
    exact ⟨sound.kind, fun _ => Nat.le_refl _, by simp [binding], by simp, by simp [CallStage.deadline?],
      by simp [CallStage.receiver?], by simp, fun _ _ => trivial⟩
  | entersOnce stage binding =>
    refine ⟨sound.kind, fun _ => Nat.le_refl _, by simp [CallStage.Sliced], ?_, by simp [CallStage.deadline?],
      by simp [CallStage.receiver?], by simp, by simp [binding]⟩
    intro _ wait same
    cases same
    rfl
  | raises stage =>
    exact ⟨sound.kind, fun _ => begun (by simp [stage]), by simp [CallStage.Sliced], by simp, by simp [CallStage.deadline?],
      by simp [CallStage.receiver?], by simp, fun _ _ => trivial⟩
  | checks stage =>
    have sliced := python (by rw [stage]; trivial)
    exact ⟨sound.kind, fun _ => begun (by simp [stage]), by simp [sliced], by simp, by simp [CallStage.deadline?],
      by simp [CallStage.receiver?], by simp, fun _ _ => trivial⟩
  | slices stage wait early =>
    have sliced := python (by rw [stage]; trivial)
    refine ⟨sound.kind, fun _ => begun (by simp [stage]), by simp [sliced], by simp [sliced], by simp [CallStage.deadline?],
      by simp [CallStage.receiver?], by simp, ?_⟩
    intro _ timeout
    exact absurd (Nat.zero_le _) (early 0 timeout)
  | @timesOut t stage timeout late =>
    have start : call.stage ≠ .entering := by rcases stage with stage | stage <;> simp [stage]
    have bound := begun start
    refine ⟨sound.kind, fun _ => bound, by simp [CallStage.Sliced], by simp, by simp [CallStage.deadline?],
      by simp [CallStage.receiver?], fun _ => .inr ⟨t, timeout, ?_⟩, fun _ _ => trivial⟩
    show call.started + t ≤ s.now
    omega
  | @arms wait stage =>
    refine ⟨sound.kind, fun _ => begun (by simp [stage]), by simp [CallStage.Sliced], by simp, ?_,
      by simp [CallStage.receiver?], by simp, ?_⟩
    · intro node time armed
      have whole := sound.once node wait stage
      have bound := begun (by simp [stage])
      obtain ⟨t, timeout, rfl⟩ := Option.map_eq_some_iff.mp armed
      refine ⟨t, whole.symm.trans timeout, ?_⟩
      show call.started + t ≤ s.now + t
      omega
    · intro python timeout
      have untried := sound.zero python timeout
      rw [stage] at untried
      exact untried.elim
  | locks stage free =>
    exact sound.goesOn clock (by simp [stage]) (by rw [stage]; exact id) (by rw [stage]; rfl) rfl trivial (by simp)
  | givesUp stage passed =>
    exact sound.sliceOver (by rw [stage]; exact passed) rfl (by simp [stage]) (by rw [stage]; exact id)
  | queues stage => exact sound
  | answers stage =>
    have result := (sound.awaits _ (by rw [stage]; rfl)).2
    refine ⟨sound.kind, fun _ => begun (by simp [stage]), by simp [CallStage.Sliced], by simp, by simp [CallStage.deadline?],
      by simp [CallStage.receiver?], ?_, ?_⟩
    · intro none
      cases none
      exact .inl (result rfl)
    · intro python timeout
      have untried := sound.zero python timeout
      rw [stage] at untried
      exact untried.elim
  | drops stage passed =>
    exact sound.sliceOver (by rw [stage]; exact passed) rfl (by simp [stage]) (by rw [stage]; exact id)
  | parks stage =>
    have awaits := (sound.awaits _ (by rw [stage]; rfl)).1
    exact sound.goesOn clock (by simp [stage]) (by rw [stage]; exact id) (by rw [stage]; rfl) rfl awaits (by simp)
  | resumes stage =>
    have awaits := (sound.awaits _ (by rw [stage]; rfl)).1
    exact sound.goesOn clock (by simp [stage]) (by rw [stage]; exact id) (by rw [stage]; rfl) rfl awaits (by simp)
  | @receives deadline receiver answers stage unanswered =>
    have awaits := (sound.awaits _ (by rw [stage]; rfl)).1
    obtain ⟨awaits, ended⟩ := RecvStage.step_awaits (m := s.mailbox) unanswered awaits
      (show (RecvInput.mk call.kind answers false).kind ≠ .tryRecv from sound.kind)
    exact sound.goesOn clock (by simp [stage]) (by rw [stage]; exact id) (by rw [stage]; rfl) rfl awaits
      fun told => closed_of_ends ends (ended told)
  | again stage =>
    have sliced := python (by rw [stage]; trivial)
    exact ⟨sound.kind, fun _ => begun (by simp [stage]), by simp [sliced], by simp, by simp [CallStage.deadline?],
      by simp [CallStage.receiver?], by simp, fun _ _ => trivial⟩

end

/-- Every call is sound. -/
theorem sound_move {c d : Config Guarded MailboxCall} {move : MailboxMove}
    (sound : ∀ call ∈ c.threads, Sound c.shared call)
    (moves : mailboxCalls.Moves c move d) : ∀ call ∈ d.threads, Sound d.shared call := by
  cases moves with
  | @start s calls call allowed =>
    obtain ⟨stage, kind⟩ := begins_entering allowed
    rw [List.forall_mem_append, List.forall_mem_singleton]
    refine ⟨sound, kind, by simp [stage], ?_, by simp [stage], ?_, ?_, by simp [stage], ?_⟩
    · rw [stage]
      exact fun _ => id
    · simp [stage, CallStage.deadline?]
    · simp [stage, CallStage.receiver?]
    · intro _ _
      rw [stage]
      trivial
  | @step s later before after new call next input stepped =>
    obtain ⟨⟨_, _⟩, taken, same⟩ := Option.map_eq_some_iff.mp stepped
    cases same
    have steps := steps_of_step taken
    obtain ⟨clock, ends⟩ := steps.frame
    rw [List.forall_mem_append, List.forall_mem_cons] at sound
    obtain ⟨early, mine, late⟩ := sound
    have others : ∀ other, Sound s other → Sound later other :=
      fun other sound => sound.later (Nat.le_of_eq clock.symm) (closed_of_ends ends)
    rw [List.append_nil, List.forall_mem_append, List.forall_mem_cons]
    exact ⟨fun other member => others other (early other member), mine.step steps,
      fun other member => others other (late other member)⟩
  | @ambient s later calls event done =>
    intro call member
    apply (sound call member).later
    · cases event with
      | send message =>
        cases done
        unfold Guarded.send
        split <;> exact Nat.le_refl _
      | stop =>
        cases done
        exact Nat.le_refl _
      | tick time =>
        cases done
        exact Nat.le_add_right _ _
    · intro closed
      cases event with
      | send message =>
        cases done
        cases message with
        | user bytes =>
          simp only [Guarded.send, Mailbox.send, Channel.send]
          cases s.mailbox.user.receiverAlive <;> exact closed
        | system content =>
          simp only [Guarded.send, Mailbox.send, Channel.send]
          cases s.mailbox.sys.receiverAlive <;> exact closed
      | stop =>
        cases done
        exact .inl rfl
      | tick time =>
        cases done
        exact closed

/-- A call is told that there is no message only once its timeout is over or no
    sender is left, so without a timeout only in the latter case. A Python call
    with timeout zero is told so without a look at the mailbox. -/
theorem mailbox_calls_verdict (moves : List MailboxMove) (c : Config Guarded MailboxCall)
    (reached : mailboxCalls.machine.run ⟨.start, []⟩ moves = some c) (call : MailboxCall) (member : call ∈ c.threads) :
    (call.stage = .returned none →
      c.shared.Closed ∨ ∃ t, call.timeout = some t ∧ call.started + t ≤ c.shared.now) ∧
    (call.binding = .python → call.timeout = some 0 → call.stage.Untried) := by
  have sound : ∀ call ∈ c.threads, Sound c.shared call :=
    mailboxCalls.machine.run_invariant (P := fun c => ∀ call ∈ c.threads, Sound c.shared call)
      (fun _ _ _ sound taken => sound_move sound (mailboxCalls.moves_of_step taken)) (by simp) reached
  exact ⟨(sound call member).told, (sound call member).zero⟩

theorem mailbox_calls_verdict_waitBehindLock :
    ∃ c, mailboxCalls.machine.run ⟨.start, []⟩ waitBehindLock = some c ∧
      ⟨.node, .recv, some 5, 0, .returned none⟩ ∈ c.threads ∧
      (c.shared.Closed ∨ ∃ t, some 5 = some t ∧ 0 + t ≤ c.shared.now) := by
  have ran : ∃ c, mailboxCalls.machine.run ⟨.start, []⟩ waitBehindLock = some c ∧
      ⟨.node, .recv, some 5, 0, .returned none⟩ ∈ c.threads :=
    mailboxCalls.machine.exists_of_check (by decide +kernel)
  obtain ⟨c, reached, member⟩ := ran
  exact ⟨c, reached, member, (mailbox_calls_verdict waitBehindLock c reached _ member).1 rfl⟩

end Myrmidon.Bindings
