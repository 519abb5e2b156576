import Myrmidon.Python.PoolOrder

namespace Myrmidon.Python

open Data Transition

namespace GilPool

open Worker

/-- The locks as the only worker holds them. -/
structure Alone (s : GilPool) (w : Worker) : Prop where
  gil : s.gil = true ↔ (∃ ref, w = .calling ref) ∨ ∃ ref ptr, w = .swapping ref ptr
  readers : ∀ ref, s.readers ref = if w = .calling ref ∨ w = .paused ref then 1 else 0
  senders : s.tasks.senderAlive = true
  running : s.initialised = true → w ≠ .ended

theorem Alone.step {s later : GilPool} {w next : Worker} (alone : Alone s w) (steps : Steps s w later next) :
    Alone later next := by
  obtain ⟨gil, readers, senders, running⟩ := alone
  cases steps with
  | waits up => exact ⟨by simpa using gil, by simpa using readers, senders, by simp⟩
  | leaves down =>
    exact ⟨by simpa [dropReceiver] using gil, by simpa [dropReceiver] using readers, senders, by
      simp [dropReceiver, down]⟩
  | takes queue => exact ⟨by simpa using gil, by simpa using readers, senders, by simp⟩
  | disconnected gone => exact absurd gone (by simp [senders])
  | timesOut => exact ⟨by simpa using gil, by simpa using readers, senders, by simp⟩
  | abandons down =>
    exact ⟨by simpa [dropReceiver] using gil, by simpa [dropReceiver] using readers, senders, by
      simp [dropReceiver, down]⟩
  | @begins ref bytes up free =>
    refine ⟨by simp [beginCall], ?_, senders, by simp⟩
    intro other
    have unread : s.readers other = 0 := by simpa using readers other
    by_cases same : other = ref
    · subst same
      simp [beginCall, unread]
    · simp [beginCall, Function.update_of_ne same, unread, Ne.symm same]
  | locks up free => exact ⟨by simp, by simpa using readers, senders, by simp⟩
  | @returns ref =>
    refine ⟨by simp [finishCall], ?_, senders, by simp⟩
    intro other
    have read := readers other
    by_cases same : other = ref
    · subst same
      simp only [true_or, if_true] at read
      simp [finishCall, read]
    · simpa [finishCall, Function.update_of_ne same, Ne.symm same] using read
  | yields => exact ⟨by simp, by simpa using readers, senders, by simp⟩
  | resumes free => exact ⟨by simp, by simpa using readers, senders, by simp⟩
  | swaps unread => exact ⟨by simp [swap], by simpa [swap] using readers, senders, by simp⟩

theorem deliver_frame (s : GilPool) (ref : BehaviorRef) (message : Message) :
    (s.deliver ref message).gil = s.gil ∧ (s.deliver ref message).readers = s.readers ∧
      (s.deliver ref message).tasks.senderAlive = s.tasks.senderAlive ∧
      (s.deliver ref message).initialised = s.initialised := by
  have sent : ∀ (p : GilPool) (task : PoolTask), (p.submit task).gil = p.gil ∧ (p.submit task).readers = p.readers ∧
      (p.submit task).tasks.senderAlive = p.tasks.senderAlive ∧ (p.submit task).initialised = p.initialised := by
    intro p task
    unfold submit Channel.send
    split
    · rename_i tasks accepted
      split at accepted
      · cases accepted
        exact ⟨rfl, rfl, rfl, rfl⟩
      · cases accepted
    · exact ⟨rfl, rfl, rfl, rfl⟩
  cases up : s.initialised with
  | false =>
    rw [deliver_down up]
    exact ⟨rfl, rfl, rfl, up⟩
  | true =>
    unfold deliver
    rw [if_pos up]
    split
    · rename_i task _
      rw [← up]
      exact sent _ task
    · exact ⟨rfl, rfl, rfl, up⟩

/-- The pool has one worker, which holds the locks that are held. -/
def Single (c : Config GilPool Worker) : Prop := ∃ w, c.threads = [w] ∧ Alone c.shared w

theorem Single.move {c : Config GilPool Worker} (single : Single c) (move : PoolMove) (d : Config GilPool Worker)
    (moves : gilPool.Moves c move d) : Single d := by
  obtain ⟨only, threads, alone⟩ := single
  cases moves with
  | start allowed => cases allowed
  | @step s later before after new w next input stepped =>
    obtain ⟨taken, rfl⟩ := gilPool_step stepped
    obtain ⟨rfl, rfl, rfl⟩ : before = [] ∧ w = only ∧ after = [] := by
      simpa [List.append_eq_singleton_iff] using threads
    exact ⟨next, rfl, alone.step (steps_of_step taken)⟩
  | @ambient s later workers operation done =>
    cases operation with
    | deliver ref message =>
      cases done
      obtain ⟨gil, readers, senders, up⟩ := deliver_frame s ref message
      exact ⟨only, threads, ⟨gil ▸ alone.gil, readers ▸ alone.readers, senders.trans alone.senders,
        up ▸ alone.running⟩⟩
    | shutDown =>
      cases done
      exact ⟨only, threads, ⟨alone.gil, alone.readers, alone.senders, by simp⟩⟩

theorem single_start (callables : BehaviorRef → PyObject) : Single (startPool 1 callables) :=
  ⟨.top, rfl, ⟨by simp [startPool, new], by simp [startPool, new], rfl, by simp⟩⟩

/-- The only worker is not busy with a task when it takes the next one. -/
theorem Single.takesAlone {c : Config GilPool Worker} (single : Single c) (ref : BehaviorRef) (move : PoolMove) :
    TakesAlone ref c move := by
  obtain ⟨w, only, -⟩ := single
  cases move with
  | start _ => trivial
  | ambient _ => trivial
  | step index input =>
    cases input with
    | timeOut => trivial
    | yieldGil => trivial
    | proceed =>
      intro idle _ other member
      rw [only] at idle member
      have receiving : w = .receiving := List.mem_singleton.mp (List.mem_of_getElem? idle) |>.symm
      rw [List.mem_singleton.mp member, receiving]
      simp [behavior?]

theorem single_takesAlone (callables : BehaviorRef → PyObject) (ref : BehaviorRef) (moves : List PoolMove) :
    gilPool.machine.Meets (TakesAlone ref) (startPool 1 callables) moves :=
  gilPool.machine.meets_of_meets (P := Single)
    (fun _ move d single _ taken => single.move move d (gilPool.moves_of_step taken))
    (fun _ move single _ => single.takesAlone ref move) (single_start callables) (gilPool.machine.meets_true _ moves)

/-- How much the only worker has to do until the queue is empty. -/
def work (s : GilPool) (w : Worker) : Nat :=
  4 * s.tasks.queue.length +
    match w with
    | .top => 1
    | .took _ | .paused _ => 3
    | .calling _ | .swapping _ _ => 2
    | .receiving | .ended => 0

theorem Alone.progress {s : GilPool} {w : Worker} (alone : Alone s w) (up : s.initialised = true)
    (busy : s.tasks.queue ≠ [] ∨ w.behavior? ≠ none) :
    ∃ later next, w.step s .proceed = some (later, next) ∧ work later next < work s w := by
  cases w with
  | top => exact ⟨s, .receiving, by simp [Worker.step, up], by simp [work]⟩
  | receiving =>
    cases queue : s.tasks.queue with
    | nil => simp [queue, behavior?] at busy
    | cons task rest =>
      refine ⟨{ s with tasks := { s.tasks with queue := rest } }, .took task, ?_, ?_⟩
      · simp [Worker.step, Channel.recv, queue]
      · simp only [work, queue, List.length_cons]
        omega
  | took task =>
    have free : s.gil = false := by simpa using alone.gil
    cases task with
    | execute ref bytes =>
      exact ⟨s.beginCall ref bytes, .calling ref, by simp [Worker.step, up, free], by simp [work, beginCall]⟩
    | hotSwap ref ptr =>
      exact ⟨{ s with gil := true }, .swapping ref ptr, by simp [Worker.step, up, free], by simp [work]⟩
  | calling ref => exact ⟨_, _, rfl, by simp [work, finishCall]⟩
  | paused ref =>
    have free : s.gil = false := by simpa using alone.gil
    exact ⟨{ s with gil := true }, .calling ref, by simp [Worker.step, free], by simp [work]⟩
  | swapping ref ptr =>
    have unread : s.readers ref = 0 := by simpa using alone.readers ref
    exact ⟨s.swap ref ptr, .top, by simp [Worker.step, unread], by simp [work, swap]⟩
  | ended => exact absurd rfl (alone.running up)

theorem Alone.drains {s : GilPool} {w : Worker} (alone : Alone s w) (up : s.initialised = true) :
    ∃ turns d, gilPool.machine.run ⟨s, [w]⟩ (List.replicate turns (.step 0 .proceed)) = some d ∧
      (∀ ref, Drained ref d) ∧ d.shared.received = s.received := by
  induction bound : work s w using Nat.strong_induction_on generalizing s w with
  | _ n ih =>
    by_cases busy : s.tasks.queue ≠ [] ∨ w.behavior? ≠ none
    · obtain ⟨later, next, stepped, less⟩ := alone.progress up busy
      have steps := steps_of_step stepped
      have kept := Kept.of_steps steps
      obtain ⟨turns, d, reached, drained, same⟩ :=
        ih (work later next) (bound ▸ less) (alone.step steps) (kept.initialised.trans up) rfl
      refine ⟨turns + 1, d, ?_, drained, same.trans kept.received⟩
      have moved : gilPool.machine.step ⟨s, [w]⟩ (.step 0 .proceed) = some ⟨later, [next]⟩ :=
        @Program.machine_step_at _ _ _ _ gilPool s later [] [] [] w next .proceed (by simp [gilPool, stepped])
      rw [List.replicate_succ, Machine.run_cons, moved]
      exact reached
    · push Not at busy
      refine ⟨0, ⟨s, [w]⟩, rfl, ?_, rfl⟩
      intro ref
      exact ⟨by simp [queued, busy.1], by simp [busy.2]⟩

/-- The second worker takes the second task and runs it before the first worker
    gets the GIL. -/
def overtaking : List PoolMove :=
  [.ambient (.deliver 0 (.user [1])), .ambient (.deliver 0 (.user [2])), .step 0 .proceed, .step 0 .proceed,
    .step 1 .proceed, .step 1 .proceed, .step 1 .proceed, .step 1 .proceed, .step 0 .proceed, .step 0 .proceed]

theorem overtaking_run (more : Nat) (callables : BehaviorRef → PyObject) :
    ∃ c, gilPool.machine.run (startPool (more + 2) callables) overtaking = some c ∧
      c.shared.received 0 = [.user [1], .user [2]] ∧
      (c.shared.behaviors 0).events =
        [.began (callables 0) [2], .ended, .began (callables 0) [1], .ended] := by
  simp [overtaking, startPool, new, List.replicate_succ, Machine.run, Program.machine, gilPool, deliver, Closure.handle,
    Closure.pooled, submit, Channel.send, Channel.recv, Worker.step, beginCall, finishCall, Behavior.new,
    Behavior.begin, Behavior.finish]

theorem overtaking_not_sequential {callable : PyObject} {c : Config GilPool Worker}
    (received : c.shared.received 0 = [.user [1], .user [2]])
    (events : (c.shared.behaviors 0).events = [.began callable [2], .ended, .began callable [1], .ended]) :
    ¬ Sequential callable 0 c := by
  intro sequential
  have inOrder := sequential.inOrder
  rw [events, received] at inOrder
  have first := List.cons_prefix_cons.mp inOrder
  simp [Behavior.new] at first

/-- The shared pool keeps every actor sequential, in every run, exactly when it
    has one worker, which can always work off its queue. With more workers, an
    actor stays sequential in the runs in which no worker takes a task of the
    actor while another has one in hand. -/
theorem pool_sequential_iff (size : Nat) (some : 0 < size) :
    ((∀ callables ref moves c, gilPool.machine.run (startPool size callables) moves = Option.some c →
      Sequential (callables ref) ref c) ↔ size = 1) ∧
    (∀ callables ref moves c, gilPool.machine.Meets (TakesAlone ref) (startPool size callables) moves →
      gilPool.machine.run (startPool size callables) moves = Option.some c → Sequential (callables ref) ref c) ∧
    (size = 1 → ∀ callables moves c, gilPool.machine.run (startPool size callables) moves = Option.some c →
      c.shared.initialised = true →
      ∃ turns d, gilPool.machine.run c (List.replicate turns (.step 0 .proceed)) = Option.some d ∧
        (∀ ref, Drained ref d) ∧ d.shared.received = c.shared.received) := by
  refine ⟨⟨?_, ?_⟩, ?_, ?_⟩
  · intro sequential
    by_contra other
    obtain ⟨more, rfl⟩ : ∃ more, size = more + 2 := ⟨size - 2, by omega⟩
    obtain ⟨c, reached, received, events⟩ := overtaking_run more fun _ => 10
    exact overtaking_not_sequential received events (sequential (fun _ => 10) 0 overtaking c reached)
  · intro single callables ref moves c reached
    subst single
    exact sequential_of_takesAlone some (single_takesAlone callables ref moves) reached
  · intro callables ref moves c alone reached
    exact sequential_of_takesAlone some alone reached
  · intro single callables moves c reached up
    subst single
    have single : Single c := gilPool.run_invariant_of_meets (fun c move d single _ => single.move move d)
      (single_start callables) (gilPool.machine.meets_true _ moves) reached
    obtain ⟨w, threads, alone⟩ := single
    obtain ⟨s, workers⟩ := c
    cases threads
    exact alone.drains up

/-- Two workers in turn: the second takes its task once the first is done. -/
def inTurn : List PoolMove :=
  [.ambient (.deliver 0 (.user [1])), .ambient (.deliver 0 (.system (.hotSwap 20))), .step 0 .proceed, .step 0 .proceed,
    .step 1 .proceed, .step 0 .proceed, .step 0 .yieldGil, .step 0 .proceed, .step 0 .proceed, .step 1 .proceed,
    .step 1 .proceed, .step 1 .proceed]

instance (ref : BehaviorRef) (c : Config GilPool Worker) (move : PoolMove) : Decidable (TakesAlone ref c move) :=
  match move with
  | .start _ => inferInstanceAs (Decidable True)
  | .ambient _ => inferInstanceAs (Decidable True)
  | .step _ .timeOut => inferInstanceAs (Decidable True)
  | .step _ .yieldGil => inferInstanceAs (Decidable True)
  | .step index .proceed => inferInstanceAs (Decidable (c.threads[index]? = some .receiving →
      c.shared.tasks.queue.head?.map PoolTask.behavior = some ref → ∀ w ∈ c.threads, w.behavior? ≠ some ref))

theorem pool_sequential_iff_inTurn :
    ∃ c, gilPool.machine.run (startPool 2 fun _ => 10) inTurn = some c ∧
      c.shared.behaviors 0 = ⟨20, [.began 10 [1], .ended, .swapped 20]⟩ ∧ Sequential 10 0 c := by
  have ran : ∃ c, gilPool.machine.run (startPool 2 fun _ => 10) inTurn = some c ∧
      c.shared.behaviors 0 = ⟨20, [.began 10 [1], .ended, .swapped 20]⟩ :=
    gilPool.machine.exists_of_check (by decide +kernel)
  obtain ⟨c, reached, events⟩ := ran
  exact ⟨c, reached, events, (pool_sequential_iff 2 (by decide)).2.1 (fun _ => 10) 0 inTurn c
    (gilPool.machine.meets_of_checks (by decide +kernel)) reached⟩

/-- Two workers, two messages: the second is run first. -/
theorem second_message_runs_first :
    ∃ c, gilPool.machine.run (startPool 2 fun _ => 10) overtaking = some c ∧
      c.shared.received 0 = [.user [1], .user [2]] ∧
      (c.shared.behaviors 0).events = [.began 10 [2], .ended, .began 10 [1], .ended] ∧
      ((Behavior.new 10).receiveAll [.user [1], .user [2]]).events = [.began 10 [1], .ended, .began 10 [2], .ended] ∧
      ¬ Sequential 10 0 c := by
  obtain ⟨c, reached, received, events⟩ := overtaking_run 0 fun _ => 10
  exact ⟨c, reached, received, events, rfl, overtaking_not_sequential received events⟩

end GilPool

end Myrmidon.Python
