import Myrmidon.Runtime.Model

namespace Myrmidon

open Transition

/-- What happened to a timer: its message was put into a mailbox, or a call of
    `cancel_timer` with its id returned true. -/
inductive TimerEvent where
  | enqueued (timer : Nat)
  | cancelled (id : BitVec 64) (timer : Nat)
  deriving DecidableEq

/-- The part of the runtime that timers use. `timers` has the cancellation
    senders, by the number of the task that listens; `ready` are the listeners
    that were signalled or whose sender was dropped. -/
structure TimerTable where
  runtime : Runtime
  timers : AList fun _ : BitVec 64 => Nat
  counter : BitVec 64
  ready : List Nat
  history : List TimerEvent

namespace TimerTable

def new (runtime : Runtime) : TimerTable := ⟨runtime, ∅, 0, [], []⟩

/-- A sender that leaves the table is dropped. -/
def dropSender (t : TimerTable) (id : BitVec 64) : TimerTable :=
  match t.timers.lookup id with
  | none => t
  | some other => { t with ready := other :: t.ready }

end TimerTable

inductive TimerStage where
  | count
  | insert
  | select
  | send
  | remove
  | done
  deriving DecidableEq

/-- A call of `send_after` or of `send_interval`, and the task that it spawns. -/
structure Timer where
  repeating : Bool
  pid : Pid
  message : Message
  id : BitVec 64
  stage : TimerStage
  deriving DecidableEq

def sendAfter (pid : Pid) (message : Message) : Timer := ⟨false, pid, message, 0, .count⟩

def sendInterval (pid : Pid) (message : Message) : Timer := ⟨true, pid, message, 0, .count⟩

/-- The branch that a `select!` takes. The time is abstract: a deadline may have
    passed at any step. -/
inductive Branch where
  | deadline
  | cancelled
  deriving DecidableEq

def Timer.step (number : Nat) (t : TimerTable) (timer : Timer) (branch : Branch) : Option (TimerTable × Timer) :=
  match timer.stage with
  | .count =>
    let id := t.counter + 1
    some ({ t with counter := id }, { timer with id, stage := .insert })
  | .insert =>
    let dropped := t.dropSender timer.id
    some ({ dropped with timers := t.timers.insert timer.id number }, { timer with stage := .select })
  | .select =>
    match branch with
    | .deadline => some (t, { timer with stage := .send })
    | .cancelled => if number ∈ t.ready then some (t, { timer with stage := .remove }) else none
  | .send =>
    let (result, runtime) := t.runtime.send timer.pid timer.message
    let history := match result with
      | .ok _ => t.history ++ [.enqueued number]
      | .error _ => t.history
    some ({ t with runtime, history }, { timer with stage := if timer.repeating then .select else .remove })
  | .remove =>
    let dropped := t.dropSender timer.id
    some ({ dropped with timers := t.timers.erase timer.id }, { timer with stage := .done })
  | .done => none

inductive CancelStage where
  | remove
  | signal (timer : Nat)
  | returned (found : Bool)
  deriving DecidableEq

/-- A call of `cancel_timer`. -/
def CancelStage.step (t : TimerTable) (id : BitVec 64) : CancelStage → Option (TimerTable × CancelStage)
  | .remove =>
    match t.timers.lookup id with
    | none => some (t, .returned false)
    | some timer => some ({ t with timers := t.timers.erase id }, .signal timer)
  | .signal timer =>
    some ({ t with ready := timer :: t.ready, history := t.history ++ [.cancelled id timer] }, .returned true)
  | .returned _ => none

inductive TimerCall where
  | timer (timer : Timer)
  | cancel (id : BitVec 64) (stage : CancelStage)
  deriving DecidableEq

/-- Any number of timers and of calls of `cancel_timer`. The rest of the
    runtime may do anything in between. -/
def timerCalls : Program TimerTable TimerCall Branch (Runtime → Runtime) where
  starts
    | .timer timer => decide (timer.stage = .count)
    | .cancel _ stage => decide (stage = .remove)
  step number t call branch :=
    match call with
    | .timer timer => (timer.step number t branch).map fun (t, timer) => (t, .timer timer, [])
    | .cancel id stage => (stage.step t id).map fun (t, stage) => (t, .cancel id stage, [])
  ambient t change := some { t with runtime := change t.runtime }

/-- A timer that was cancelled enqueues nothing any more, and a timer that sends
    once has not done it before. -/
def Truthful (c : Config TimerTable TimerCall) : Prop :=
  ∀ before after id number, c.shared.history = before ++ .cancelled id number :: after → .enqueued number ∉ after ∧
    ∃ timer, c.threads[number]? = some (.timer timer) ∧ timer.id = id ∧
      (timer.repeating = false → .enqueued number ∉ before)

def TimerCall.took (number : Nat) : TimerCall → Bool
  | .cancel _ (.signal other) => decide (other = number)
  | _ => false

def TimerEvent.cancels (number : Nat) : TimerEvent → Bool
  | .cancelled _ other => decide (other = number)
  | .enqueued _ => false

/-- A call of `cancel_timer` has taken the sender of this timer. -/
def Taken (c : Config TimerTable TimerCall) (number : Nat) : Prop :=
  c.threads.any (TimerCall.took number) = true ∨ c.shared.history.any (TimerEvent.cancels number) = true

instance (c : Config TimerTable TimerCall) : DecidablePred (Taken c) := fun number => inferInstanceAs
  (Decidable (c.threads.any (TimerCall.took number) = true ∨ c.shared.history.any (TimerEvent.cancels number) = true))

def TimerCall.waits : TimerCall → Bool
  | .timer task => decide (task.stage = .select)
  | .cancel _ _ => false

def TimerCall.InTime (c : Config TimerTable TimerCall) (number : Nat) (branch : Branch) : TimerCall → Prop
  | .timer task => task.stage = .select → branch = .deadline → ¬ Taken c number
  | .cancel id stage => stage = .remove → ∀ other ∈ c.shared.timers.lookup id,
      (c.threads[other]?).any TimerCall.waits = true

/-- `cancel_timer` takes the sender of a timer only while the timer waits, and a
    `select!` does not take the deadline of a timer whose sender was taken. -/
def CancelledInTime (c : Config TimerTable TimerCall) : Move TimerCall Branch (Runtime → Runtime) → Prop
  | .step index branch => ∀ call ∈ c.threads[index]?, call.InTime c index branch
  | _ => True

instance (c : Config TimerTable TimerCall) (number : Nat) (branch : Branch) :
    DecidablePred (TimerCall.InTime c number branch)
  | .timer task => inferInstanceAs (Decidable (task.stage = .select → branch = .deadline → ¬ Taken c number))
  | .cancel id stage => inferInstanceAs (Decidable (stage = .remove → ∀ other ∈ c.shared.timers.lookup id,
      (c.threads[other]?).any TimerCall.waits = true))

instance (c : Config TimerTable TimerCall) : DecidablePred (CancelledInTime c)
  | .step index branch => inferInstanceAs (Decidable (∀ call ∈ c.threads[index]?, call.InTime c index branch))
  | .start _ => .isTrue trivial
  | .ambient _ => .isTrue trivial

/-- The timer waits or is past its last send. -/
def Timer.Stopped (timer : Timer) : Prop := timer.stage = .select ∨ timer.stage = .remove ∨ timer.stage = .done

/-- The timer is before its first send. -/
def Timer.Unsent (timer : Timer) : Prop := timer.stage ≠ .remove ∧ timer.stage ≠ .done

/-- The timer has its id and was put into the table. -/
def Timer.Entered (timer : Timer) : Prop := timer.stage ≠ .count ∧ timer.stage ≠ .insert

/-- What a step of a timer keeps: its entry of the table, and everything that others have there. -/
structure Timer.Keeps (number : Nat) (t later : TimerTable) (timer next : Timer) : Prop where
  repeating : next.repeating = timer.repeating
  entered : timer.Entered → next.Entered ∧ next.id = timer.id
  entries : ∀ id other, later.timers.lookup id = some other →
    t.timers.lookup id = some other ∨ (other = number ∧ next.Entered ∧ next.id = id)

/-- Everything one step can do to a timer and to the history. -/
inductive TimerCall.Steps (number : Nat) (branch : Branch) (t later : TimerTable) : TimerCall → TimerCall → Prop where
  | moved {timer next : Timer} (keeps : timer.Keeps number t later next) (history : later.history = t.history)
      (stopped : timer.Stopped → (timer.stage = .select → branch ≠ .deadline) → next.Stopped)
      (unsent : next.Unsent → timer.Unsent) : Steps number branch t later (.timer timer) (.timer next)
  | enqueued {timer next : Timer} (keeps : timer.Keeps number t later next)
      (history : later.history = t.history ++ [.enqueued number]) (sending : timer.stage = .send)
      (sent : timer.repeating = false → ¬ next.Unsent) : Steps number branch t later (.timer timer) (.timer next)
  | missed {id : BitVec 64} (timers : later.timers = t.timers) (history : later.history = t.history) :
      Steps number branch t later (.cancel id .remove) (.cancel id (.returned false))
  | took {id : BitVec 64} {timer : Nat} (timers : later.timers = t.timers.erase id)
      (history : later.history = t.history) (found : t.timers.lookup id = some timer) :
      Steps number branch t later (.cancel id .remove) (.cancel id (.signal timer))
  | signalled {id : BitVec 64} {timer : Nat} (timers : later.timers = t.timers)
      (history : later.history = t.history ++ [.cancelled id timer]) :
      Steps number branch t later (.cancel id (.signal timer)) (.cancel id (.returned true))

theorem TimerTable.dropSender_history (t : TimerTable) (id : BitVec 64) : (t.dropSender id).history = t.history := by
  unfold dropSender
  split <;> rfl

theorem lookup_of_erase {timers : AList fun _ : BitVec 64 => Nat} {erased id : BitVec 64} {other : Nat}
    (found : (timers.erase erased).lookup id = some other) : timers.lookup id = some other := by
  by_cases same : id = erased
  · rw [same, AList.lookup_erase] at found
    cases found
  · rwa [AList.lookup_erase_ne same] at found

theorem Timer.keeps_of_step {number : Nat} {branch : Branch} {t later : TimerTable} {timer next : Timer}
    (stepped : timer.step number t branch = some (later, next)) : timer.Keeps number t later next := by
  rcases timer with ⟨repeating, pid, message, id, stage⟩
  cases stage with
  | count =>
    cases stepped
    exact ⟨rfl, fun entered => absurd rfl entered.1, fun _ _ => .inl⟩
  | insert =>
    cases stepped
    refine ⟨rfl, fun entered => absurd rfl entered.2, ?_⟩
    intro other taker found
    by_cases same : other = id
    · subst same
      rw [AList.lookup_insert] at found
      cases found
      exact .inr ⟨rfl, ⟨nofun, nofun⟩, rfl⟩
    · rw [AList.lookup_insert_ne same] at found
      exact .inl found
  | select =>
    cases branch with
    | deadline =>
      cases stepped
      exact ⟨rfl, fun _ => ⟨⟨nofun, nofun⟩, rfl⟩, fun _ _ => .inl⟩
    | cancelled =>
      simp only [step] at stepped
      split at stepped
      · cases stepped
        exact ⟨rfl, fun _ => ⟨⟨nofun, nofun⟩, rfl⟩, fun _ _ => .inl⟩
      · cases stepped
  | send =>
    simp only [step] at stepped
    cases stepped
    refine ⟨rfl, fun _ => ⟨?_, rfl⟩, fun _ _ => .inl⟩
    cases repeating <;> exact ⟨nofun, nofun⟩
  | remove =>
    cases stepped
    exact ⟨rfl, fun _ => ⟨⟨nofun, nofun⟩, rfl⟩, fun _ _ found => .inl (lookup_of_erase found)⟩
  | done => cases stepped

theorem Timer.steps_of_step {number : Nat} {branch : Branch} {t later : TimerTable} {timer next : Timer}
    (stepped : timer.step number t branch = some (later, next)) :
    TimerCall.Steps number branch t later (.timer timer) (.timer next) := by
  have keeps := keeps_of_step stepped
  rcases timer with ⟨repeating, pid, message, id, stage⟩
  cases stage with
  | count =>
    cases stepped
    exact .moved keeps rfl (by simp [Stopped]) (by simp [Unsent])
  | insert =>
    cases stepped
    exact .moved keeps (t.dropSender_history id) (by simp [Stopped]) (by simp [Unsent])
  | select =>
    cases branch with
    | deadline =>
      cases stepped
      exact .moved keeps rfl (fun _ other => absurd rfl (other rfl)) (by simp [Unsent])
    | cancelled =>
      simp only [step] at stepped
      split at stepped
      · cases stepped
        exact .moved keeps rfl (by simp [Stopped]) (by simp [Unsent])
      · cases stepped
  | send =>
    simp only [step] at stepped
    cases sent : t.runtime.send pid message with
    | mk result runtime =>
      rw [sent] at stepped
      cases result with
      | ok accepted =>
        cases stepped
        exact .enqueued keeps rfl rfl (by rintro rfl; simp [Unsent])
      | error refused =>
        cases stepped
        exact .moved keeps rfl (by simp [Stopped]) (by simp [Unsent])
  | remove =>
    cases stepped
    exact .moved keeps (t.dropSender_history id) (by simp [Stopped]) (by simp [Unsent])
  | done => cases stepped

theorem TimerCall.steps_of_step {number : Nat} {branch : Branch} {t later : TimerTable} {call next : TimerCall}
    {new : List TimerCall} (stepped : timerCalls.step number t call branch = some (later, next, new)) :
    new = [] ∧ Steps number branch t later call next := by
  cases call with
  | timer timer =>
    obtain ⟨⟨t', timer'⟩, taken, same⟩ := Option.map_eq_some_iff.mp stepped
    cases same
    exact ⟨rfl, Timer.steps_of_step taken⟩
  | cancel id stage =>
    obtain ⟨⟨t', stage'⟩, taken, same⟩ := Option.map_eq_some_iff.mp stepped
    cases same
    refine ⟨rfl, ?_⟩
    cases stage with
    | remove =>
      simp only [CancelStage.step] at taken
      split at taken
      · cases taken
        exact .missed rfl rfl
      · rename_i timer found
        cases taken
        exact .took rfl rfl found
    | signal timer =>
      cases taken
      exact .signalled rfl rfl
    | returned found => cases taken

/-- A call of `cancel_timer` with this id has taken the sender of this timer. -/
def Claims (c : Config TimerTable TimerCall) (id : BitVec 64) (number : Nat) : Prop :=
  .cancel id (.signal number) ∈ c.threads ∨ .cancelled id number ∈ c.shared.history

theorem Claims.taken {c : Config TimerTable TimerCall} {id : BitVec 64} {number : Nat} (claims : Claims c id number) :
    Taken c number := by
  rcases claims with signalling | cancelled
  · exact .inl (List.any_eq_true.mpr ⟨_, signalling, decide_eq_true rfl⟩)
  · exact .inr (List.any_eq_true.mpr ⟨_, cancelled, decide_eq_true rfl⟩)

/-- The invariant: a timer whose sender was taken sends no more, and one that
    sends once is not past its send. -/
structure Prevented (c : Config TimerTable TimerCall) : Prop where
  bounded : ∀ number, .enqueued number ∈ c.shared.history → number < c.threads.length
  entries : ∀ id number, c.shared.timers.lookup id = some number →
    ∃ timer, c.threads[number]? = some (.timer timer) ∧ timer.Entered ∧ timer.id = id
  claimed : ∀ id number, Claims c id number → ∃ timer, c.threads[number]? = some (.timer timer) ∧ timer.id = id ∧
    timer.Stopped ∧ (timer.repeating = false → .enqueued number ∉ c.shared.history)
  unsent : ∀ number timer, c.threads[number]? = some (.timer timer) → timer.repeating = false → timer.Unsent →
    .enqueued number ∉ c.shared.history
  truthful : Truthful c

theorem Timer.Stopped.entered {timer : Timer} (stopped : timer.Stopped) : timer.Entered := by
  rcases stopped with stage | stage | stage <;> simp [Entered, stage]

theorem Timer.Stopped.not_sending {timer : Timer} (stopped : timer.Stopped) : timer.stage ≠ .send := by
  rcases stopped with stage | stage | stage <;> simp [stage]

section

variable {t later : TimerTable} {before after : List TimerCall} {call next : TimerCall} {branch : Branch}
  {id : BitVec 64} {number : Nat} {timer : Timer}

theorem TimerCall.Steps.history_grows (steps : TimerCall.Steps before.length branch t later call next) :
    later.history = t.history ∨ (∃ task, call = .timer task ∧ task.stage = .send ∧
      later.history = t.history ++ [.enqueued before.length]) ∨
      ∃ id other, call = .cancel id (.signal other) ∧ later.history = t.history ++ [.cancelled id other] := by
  cases steps with
  | moved keeps history stopped unsent => exact .inl history
  | enqueued keeps history sending sent => exact .inr (.inl ⟨_, rfl, sending, history⟩)
  | missed timers history => exact .inl history
  | took timers history found => exact .inl history
  | signalled timers history => exact .inr (.inr ⟨_, _, rfl, history⟩)

/-- Only a timer's own step enqueues its message. -/
theorem TimerCall.Steps.not_enqueued (steps : TimerCall.Steps before.length branch t later call next)
    (other : number ≠ before.length) (absent : .enqueued number ∉ t.history) : .enqueued number ∉ later.history := by
  rcases steps.history_grows with history | ⟨task, -, -, history⟩ | ⟨id, taken, -, history⟩
  · rwa [history]
  · rw [history, List.mem_append, List.mem_singleton]
    rintro (old | new)
    · exact absent old
    · cases new
      exact other rfl
  · rw [history, List.mem_append, List.mem_singleton]
    rintro (old | new)
    · exact absent old
    · cases new

theorem getElem?_other (other : number ≠ before.length) :
    (before ++ next :: after)[number]? = (before ++ call :: after)[number]? := by
  rw [Program.getElem?_replace before after call next, if_neg other]

theorem claims_before (steps : TimerCall.Steps before.length branch t later call next)
    (claims : Claims ⟨later, before ++ next :: after⟩ id number) : Claims ⟨t, before ++ call :: after⟩ id number ∨
      (call = .cancel id .remove ∧ t.timers.lookup id = some number) := by
  rcases claims with signalling | cancelled
  · rw [← List.append_nil after] at signalling
    rcases Program.mem_replace_append signalling with old | own
    · exact .inl (.inl old)
    · cases List.mem_singleton.mp own
      cases steps with
      | took timers history found => exact .inr ⟨rfl, found⟩
  · rcases steps.history_grows with history | ⟨task, -, -, history⟩ | ⟨other, taken, rfl, history⟩
    · exact .inl (.inr (history ▸ cancelled))
    · dsimp only at cancelled
      rw [history, List.mem_append, List.mem_singleton] at cancelled
      rcases cancelled with old | new
      · exact .inl (.inr old)
      · cases new
    · dsimp only at cancelled
      rw [history, List.mem_append, List.mem_singleton] at cancelled
      rcases cancelled with old | new
      · exact .inl (.inr old)
      · cases new
        exact .inl (.inl (by simp))

/-- A timer in the table stays what it is. -/
theorem timer_after (steps : TimerCall.Steps before.length branch t later call next)
    (found : (before ++ call :: after)[number]? = some (.timer timer)) (entered : timer.Entered) :
    ∃ task, (before ++ next :: after)[number]? = some (.timer task) ∧ task.Entered ∧ task.id = timer.id ∧
      task.repeating = timer.repeating := by
  by_cases own : number = before.length
  · subst own
    rw [List.getElem?_append_right (Nat.le_refl _), Nat.sub_self] at found
    cases found
    cases steps with
    | moved keeps history stopped unsent =>
      obtain ⟨still, same⟩ := keeps.entered entered
      exact ⟨_, by simp, still, same, keeps.repeating⟩
    | enqueued keeps history sending sent =>
      obtain ⟨still, same⟩ := keeps.entered entered
      exact ⟨_, by simp, still, same, keeps.repeating⟩
  · exact ⟨timer, (getElem?_other own).trans found, entered, rfl, rfl⟩

namespace Prevented

theorem step_entries (prevented : Prevented ⟨t, before ++ call :: after⟩)
    (steps : TimerCall.Steps before.length branch t later call next) (entry : later.timers.lookup id = some number) :
    ∃ timer, (before ++ next :: after)[number]? = some (.timer timer) ∧ timer.Entered ∧ timer.id = id := by
  have old : t.timers.lookup id = some number →
      ∃ timer, (before ++ next :: after)[number]? = some (.timer timer) ∧ timer.Entered ∧ timer.id = id := by
    intro present
    obtain ⟨timer, found, entered, rfl⟩ := prevented.entries id number present
    obtain ⟨task, still, enteredStill, same, -⟩ := timer_after steps found entered
    exact ⟨task, still, enteredStill, same⟩
  cases steps with
  | moved keeps history stopped unsent =>
    rcases keeps.entries id number entry with present | ⟨rfl, entered, same⟩
    · exact old present
    · exact ⟨_, by simp, entered, same⟩
  | enqueued keeps history sending sent =>
    rcases keeps.entries id number entry with present | ⟨rfl, entered, same⟩
    · exact old present
    · exact ⟨_, by simp, entered, same⟩
  | missed timers history => exact old (timers ▸ entry)
  | took timers history found => exact old (lookup_of_erase (timers ▸ entry))
  | signalled timers history => exact old (timers ▸ entry)

theorem step_claimed (prevented : Prevented ⟨t, before ++ call :: after⟩)
    (inTime : call.InTime ⟨t, before ++ call :: after⟩ before.length branch)
    (steps : TimerCall.Steps before.length branch t later call next)
    (claims : Claims ⟨later, before ++ next :: after⟩ id number) :
    ∃ timer, (before ++ next :: after)[number]? = some (.timer timer) ∧ timer.id = id ∧ timer.Stopped ∧
      (timer.repeating = false → .enqueued number ∉ later.history) := by
  have mine : (before ++ call :: after)[before.length]? = some call := by simp
  rcases claims_before steps claims with old | ⟨rfl, present⟩
  · obtain ⟨timer, found, rfl, stopped, unsent⟩ := prevented.claimed id number old
    dsimp only at found unsent
    by_cases own : number = before.length
    · subst own
      cases mine.symm.trans found
      cases steps with
      | moved keeps history stops unsentBefore =>
        have stoppedStill := stops stopped fun selecting deadline => inTime selecting deadline old.taken
        refine ⟨_, by simp, (keeps.entered stopped.entered).2, stoppedStill, ?_⟩
        rw [history, keeps.repeating]
        exact unsent
      | enqueued keeps history sending sent => exact absurd sending stopped.not_sending
    · exact ⟨timer, (getElem?_other own).trans found, rfl, stopped, fun once => steps.not_enqueued own (unsent once)⟩
  · obtain ⟨timer, found, -, same⟩ := prevented.entries id number present
    dsimp only at found
    have waits := inTime rfl number present
    dsimp only at waits
    rw [found] at waits
    have stage : timer.stage = .select := of_decide_eq_true waits
    have own : number ≠ before.length := by
      rintro rfl
      cases mine.symm.trans found
    refine ⟨timer, (getElem?_other own).trans found, same, .inl stage, fun once => ?_⟩
    refine steps.not_enqueued own (prevented.unsent number timer found once ?_)
    simp [Timer.Unsent, stage]

theorem step_unsent (prevented : Prevented ⟨t, before ++ call :: after⟩)
    (steps : TimerCall.Steps before.length branch t later call next)
    (found : (before ++ next :: after)[number]? = some (.timer timer)) (once : timer.repeating = false)
    (unsent : timer.Unsent) : .enqueued number ∉ later.history := by
  by_cases own : number = before.length
  · subst own
    rw [Program.getElem?_replace before after call next, if_pos rfl] at found
    cases found
    cases steps with
    | moved keeps history stopped unsentBefore =>
      rw [history]
      exact prevented.unsent before.length _ (by simp) (keeps.repeating ▸ once) (unsentBefore unsent)
    | enqueued keeps history sending sent => exact absurd unsent (sent (keeps.repeating ▸ once))
  · rw [getElem?_other own] at found
    exact steps.not_enqueued own (prevented.unsent number timer found once unsent)

end Prevented

/-- Where an event is in a history that has grown by one. -/
theorem append_singleton_split {α : Type} {history before after : List α} {event last : α}
    (split : history ++ [last] = before ++ event :: after) :
    (after = [] ∧ event = last ∧ before = history) ∨
      ∃ rest, after = rest ++ [last] ∧ history = before ++ event :: rest := by
  rcases List.eq_nil_or_concat after with rfl | ⟨rest, final, rfl⟩
  · obtain ⟨same, ends⟩ := List.append_inj' split rfl
    cases ends
    exact .inl ⟨rfl, rfl, same.symm⟩
  · rw [List.concat_eq_append, ← List.cons_append, ← List.append_assoc] at split
    obtain ⟨same, ends⟩ := List.append_inj' split rfl
    cases ends
    exact .inr ⟨rest, List.concat_eq_append, same⟩

theorem Prevented.step_truthful (prevented : Prevented ⟨t, before ++ call :: after⟩)
    (steps : TimerCall.Steps before.length branch t later call next) :
    Truthful ⟨later, before ++ next :: after⟩ := by
  intro first second id number split
  have mine : (before ++ call :: after)[before.length]? = some call := by simp
  have kept : ∀ rest, t.history = first ++ .cancelled id number :: rest → .enqueued number ∉ rest ∧
      ∃ timer, (before ++ next :: after)[number]? = some (.timer timer) ∧ timer.id = id ∧
        (timer.repeating = false → .enqueued number ∉ first) := by
    intro rest old
    obtain ⟨quiet, timer, found, rfl, once⟩ := prevented.truthful first rest id number old
    have claims : Claims ⟨t, before ++ call :: after⟩ timer.id number := .inr (by simp [old])
    obtain ⟨other, present, -, stopped, -⟩ := prevented.claimed _ _ claims
    cases found.symm.trans present
    obtain ⟨task, still, -, same, repeating⟩ := timer_after steps found stopped.entered
    exact ⟨quiet, task, still, same, repeating ▸ once⟩
  dsimp only at split
  rcases steps.history_grows with history | ⟨task, rfl, sending, history⟩ | ⟨other, taken, rfl, history⟩
  · rw [history] at split
    exact kept second split
  · rw [history] at split
    rcases append_singleton_split split with ⟨-, impossible, -⟩ | ⟨rest, rfl, old⟩
    · cases impossible
    · obtain ⟨quiet, timer, still⟩ := kept rest old
      refine ⟨?_, timer, still⟩
      rw [List.mem_append, List.mem_singleton]
      rintro (earlier | now)
      · exact quiet earlier
      · cases now
        have claims : Claims ⟨t, before ++ .timer task :: after⟩ id before.length := .inr (by simp [old])
        obtain ⟨timer, found, -, stopped, -⟩ := prevented.claimed _ _ claims
        cases mine.symm.trans found
        exact stopped.not_sending sending
  · rw [history] at split
    rcases append_singleton_split split with ⟨rfl, same, rfl⟩ | ⟨rest, rfl, old⟩
    · cases same
      have claims : Claims ⟨t, before ++ .cancel id (.signal number) :: after⟩ id number := .inl (by simp)
      obtain ⟨timer, found, rfl, stopped, unsent⟩ := prevented.claimed id number claims
      obtain ⟨task, still, -, same, repeating⟩ := timer_after steps found stopped.entered
      exact ⟨List.not_mem_nil, task, still, same, repeating ▸ unsent⟩
    · obtain ⟨quiet, timer, still⟩ := kept rest old
      refine ⟨?_, timer, still⟩
      rw [List.mem_append, List.mem_singleton]
      rintro (earlier | now)
      · exact quiet earlier
      · cases now

theorem Prevented.step (prevented : Prevented ⟨t, before ++ call :: after⟩)
    (inTime : call.InTime ⟨t, before ++ call :: after⟩ before.length branch)
    (steps : TimerCall.Steps before.length branch t later call next) : Prevented ⟨later, before ++ next :: after⟩ := by
  refine ⟨?_, ?_, ?_, ?_, prevented.step_truthful steps⟩
  · intro number enqueued
    have length : (before ++ next :: after).length = (before ++ call :: after).length := by simp
    dsimp only
    rw [length]
    by_cases own : number = before.length
    · rw [own]
      simp
    · by_contra beyond
      exact steps.not_enqueued own (fun old => beyond (prevented.bounded number old)) enqueued
  · exact fun id number entry => prevented.step_entries steps entry
  · exact fun id number claims => prevented.step_claimed inTime steps claims
  · exact fun number timer found once unsent => prevented.step_unsent steps found once unsent

theorem Prevented.start {threads : List TimerCall} (prevented : Prevented ⟨t, threads⟩)
    (allowed : timerCalls.starts call = true) : Prevented ⟨t, threads ++ [call]⟩ := by
  have claims : ∀ id number, Claims ⟨t, threads ++ [call]⟩ id number → Claims ⟨t, threads⟩ id number := by
    rintro id number (signalling | cancelled)
    · rcases List.mem_append.mp signalling with old | new
      · exact .inl old
      · cases List.mem_singleton.mp new
        simp [timerCalls] at allowed
    · exact .inr cancelled
  have known : ∀ {number : Nat} {other : TimerCall}, threads[number]? = some other →
      (threads ++ [call])[number]? = some other := by
    intro number other found
    rw [List.getElem?_append_left (List.getElem?_eq_some_iff.mp found).1]
    exact found
  refine ⟨?_, ?_, ?_, ?_, ?_⟩
  · intro number enqueued
    have bound := prevented.bounded number enqueued
    dsimp only at bound ⊢
    rw [List.length_append]
    omega
  · intro id number entry
    obtain ⟨timer, found, still⟩ := prevented.entries id number entry
    exact ⟨timer, known found, still⟩
  · intro id number claimed
    obtain ⟨timer, found, still⟩ := prevented.claimed id number (claims id number claimed)
    exact ⟨timer, known found, still⟩
  · intro number timer found once unsent
    dsimp only at found
    rw [List.getElem?_append] at found
    split at found
    · exact prevented.unsent number timer found once unsent
    · rename_i beyond
      exact fun enqueued => beyond (prevented.bounded number enqueued)
  · intro first second id number split
    obtain ⟨quiet, timer, found, still⟩ := prevented.truthful first second id number split
    exact ⟨quiet, timer, known found, still⟩

end

theorem Prevented.move {c d : Config TimerTable TimerCall} {move : Move TimerCall Branch (Runtime → Runtime)}
    (prevented : Prevented c) (inTime : CancelledInTime c move) (moves : timerCalls.Moves c move d) : Prevented d := by
  cases moves with
  | start allowed => exact prevented.start allowed
  | @step t later before after new call next branch stepped =>
    obtain ⟨rfl, steps⟩ := TimerCall.steps_of_step stepped
    rw [List.append_nil]
    exact prevented.step (inTime call (by simp)) steps
  | ambient done =>
    cases done
    exact ⟨prevented.bounded, prevented.entries, prevented.claimed, prevented.unsent, prevented.truthful⟩

/-- While timers are cancelled only when they wait, `cancel_timer` tells the truth. -/
theorem cancel_timer_truthful {runtime : Runtime} {moves : List (Move TimerCall Branch (Runtime → Runtime))}
    {d : Config TimerTable TimerCall} (meets : timerCalls.machine.Meets CancelledInTime ⟨.new runtime, []⟩ moves)
    (reached : timerCalls.machine.run ⟨.new runtime, []⟩ moves = some d) : Truthful d := by
  have start : Prevented ⟨.new runtime, []⟩ := by
    refine ⟨nofun, nofun, ?_, nofun, ?_⟩
    · rintro id number (signalling | cancelled)
      · cases signalling
      · cases cancelled
    · intro before after id number split
      cases before <;> cases split
  have prevented : Prevented d :=
    timerCalls.run_invariant_of_meets (fun c move d prevented inTime => prevented.move inTime) start meets reached
  exact prevented.truthful

def oneActor : Runtime := ⟨.new, AList.insert 1 0 ∅, [.channel], .new, []⟩

/-- An interval sends once and is then cancelled, and so is a timer that waits. -/
def cancelledWaiting : List (Move TimerCall Branch (Runtime → Runtime)) :=
  [.start (.timer (sendInterval 1 (.user [7]))), .step 0 .deadline, .step 0 .deadline, .step 0 .deadline,
    .step 0 .deadline, .start (.timer (sendAfter 1 (.user [8]))), .step 1 .deadline, .step 1 .deadline,
    .start (.cancel 1 .remove), .step 2 .deadline, .step 2 .deadline, .step 0 .cancelled,
    .start (.cancel 2 .remove), .step 3 .deadline, .step 3 .deadline, .step 1 .cancelled, .step 1 .deadline]

theorem cancel_timer_truthful_waiting :
    (timerCalls.machine.run ⟨.new oneActor, []⟩ cancelledWaiting).map (fun d => d.shared.history) =
      some [.enqueued 0, .cancelled 1 0, .cancelled 2 1] ∧
    ∀ d, timerCalls.machine.run ⟨.new oneActor, []⟩ cancelledWaiting = some d → Truthful d := by
  refine ⟨by decide +kernel, fun d reached => ?_⟩
  exact cancel_timer_truthful (Machine.meets_of_checks _ (by decide +kernel)) reached

/-- A timer sends its message, and is cancelled before it has left the table. -/
def cancelledAfterSend : List (Move TimerCall Branch (Runtime → Runtime)) :=
  [.start (.timer (sendAfter 1 (.user [7]))), .step 0 .deadline, .step 0 .deadline, .step 0 .deadline,
    .step 0 .deadline, .start (.cancel 1 .remove), .step 1 .deadline, .step 1 .deadline]

theorem sent_timer_cancelled :
    ¬ ∀ (runtime : Runtime) (moves : List (Move TimerCall Branch (Runtime → Runtime))) (d : Config TimerTable TimerCall),
      timerCalls.machine.run ⟨.new runtime, []⟩ moves = some d → Truthful d := by
  intro claim
  let sent : Timer := ⟨false, 1, .user [7], 1, .remove⟩
  obtain ⟨d, reached, history, timer⟩ :
      ∃ d, timerCalls.machine.run ⟨.new oneActor, []⟩ cancelledAfterSend = some d ∧
        d.shared.history = [.enqueued 0, .cancelled 1 0] ∧ d.threads[0]? = some (.timer sent) :=
    Machine.exists_of_check _ (by decide +kernel)
  obtain ⟨-, task, found, -, once⟩ := claim oneActor cancelledAfterSend d reached [.enqueued 0] [] 1 0 history
  cases timer.symm.trans found
  exact once rfl List.mem_cons_self

end Myrmidon
