import Myrmidon.Python.GilPool

namespace Myrmidon.Python

open Data Transition

namespace Behavior

theorem events_receive (b : Behavior) (message : Message) : b.events <+: (b.receive message).events := by
  cases message with
  | user bytes =>
    rw [receive_user, call, finish, begin, List.append_assoc]
    exact List.prefix_append _ _
  | system message =>
    cases message with
    | hotSwap ptr => exact List.prefix_append _ _
    | exit info => exact List.prefix_refl _
    | ping => exact List.prefix_refl _
    | pong => exact List.prefix_refl _

theorem events_receiveAll (b : Behavior) (messages : List Message) : b.events <+: (b.receiveAll messages).events := by
  induction messages generalizing b with
  | nil => exact List.prefix_refl _
  | cons message rest ih => exact (b.events_receive message).trans (ih (b.receive message))

end Behavior

namespace Worker

variable (ref : BehaviorRef)

/-- What is left to do of the task in hand, if it is the actor's. -/
def complete (w : Worker) (b : Behavior) : Behavior :=
  if w.behavior? = some ref then
    match w with
    | .took task => b.receive task.message
    | .calling _ | .paused _ => b.finish
    | .swapping _ ptr => b.swap ptr
    | .top | .receiving | .ended => b
  else b

/-- What is left to do without the tasks that are not begun. -/
def settle (w : Worker) (b : Behavior) : Behavior :=
  match w with
  | .took _ => b
  | _ => w.complete ref b

def completeAll (threads : List Worker) (b : Behavior) : Behavior := threads.foldl (fun b w => w.complete ref b) b

def settleAll (threads : List Worker) (b : Behavior) : Behavior := threads.foldl (fun b w => w.settle ref b) b

variable {ref : BehaviorRef}

theorem complete_of_free {w : Worker} (free : w.behavior? ≠ some ref) (b : Behavior) : w.complete ref b = b := by
  unfold complete
  rw [if_neg free]

theorem settle_of_free {w : Worker} (free : w.behavior? ≠ some ref) (b : Behavior) : w.settle ref b = b := by
  unfold settle
  split
  · rfl
  · exact complete_of_free free b

theorem foldl_of_free {act : Worker → Behavior → Behavior} {threads : List Worker}
    (idle : ∀ w ∈ threads, ∀ b, act w b = b) (b : Behavior) : threads.foldl (fun b w => act w b) b = b := by
  induction threads with
  | nil => rfl
  | cons w rest ih =>
    rw [List.foldl_cons, idle w List.mem_cons_self]
    exact ih fun other member => idle other (List.mem_cons_of_mem _ member)

theorem foldl_of_others_free {act : Worker → Behavior → Behavior} {before after : List Worker} (w : Worker)
    (idle : ∀ other ∈ before ++ after, ∀ b, act other b = b) (b : Behavior) :
    (before ++ w :: after).foldl (fun b w => act w b) b = act w b := by
  rw [List.foldl_append, List.foldl_cons,
    foldl_of_free (fun other member => idle other (List.mem_append_left _ member)),
    foldl_of_free (fun other member => idle other (List.mem_append_right _ member))]

theorem foldl_replace {act : Worker → Behavior → Behavior} {before after : List Worker} {w next : Worker}
    (idle : ∀ b, act w b = b) (still : ∀ b, act next b = b) (b : Behavior) :
    (before ++ next :: after).foldl (fun b w => act w b) b = (before ++ w :: after).foldl (fun b w => act w b) b := by
  rw [List.foldl_append, List.foldl_append, List.foldl_cons, List.foldl_cons, idle, still]

theorem completeAll_of_free {threads : List Worker} (free : ∀ w ∈ threads, w.behavior? ≠ some ref) (b : Behavior) :
    completeAll ref threads b = b := foldl_of_free (fun w member => complete_of_free (free w member)) b

theorem settleAll_of_free {threads : List Worker} (free : ∀ w ∈ threads, w.behavior? ≠ some ref) (b : Behavior) :
    settleAll ref threads b = b := foldl_of_free (fun w member => settle_of_free (free w member)) b

theorem completeAll_of_others_free {before after : List Worker} (w : Worker)
    (free : ∀ other ∈ before ++ after, other.behavior? ≠ some ref) (b : Behavior) :
    completeAll ref (before ++ w :: after) b = w.complete ref b :=
  foldl_of_others_free w (fun other member => complete_of_free (free other member)) b

theorem settleAll_of_others_free {before after : List Worker} (w : Worker)
    (free : ∀ other ∈ before ++ after, other.behavior? ≠ some ref) (b : Behavior) :
    settleAll ref (before ++ w :: after) b = w.settle ref b :=
  foldl_of_others_free w (fun other member => settle_of_free (free other member)) b

theorem events_settle (w : Worker) (b : Behavior) : (w.settle ref b).events <+: (w.complete ref b).events := by
  cases w with
  | took task =>
    by_cases mine : (took task).behavior? = some ref
    · have whole : (took task).complete ref b = b.receive task.message := by simp only [complete, if_pos mine]
      rw [whole]
      exact b.events_receive task.message
    · simp only [complete_of_free mine, settle, List.prefix_refl]
  | top | receiving | calling _ | paused _ | swapping _ _ | ended => exact List.prefix_refl _

theorem events_le_settle (w : Worker) (b : Behavior) : b.events <+: (w.settle ref b).events := by
  by_cases holds : w.behavior? = some ref
  · cases w with
    | took task => exact List.prefix_refl _
    | calling other | paused other | swapping other ptr =>
      simp only [settle, complete, if_pos holds]
      exact List.prefix_append _ _
    | top | receiving | ended => cases holds
  · simp only [settle_of_free holds, List.prefix_refl]

theorem events_le_settleAll (threads : List Worker) (b : Behavior) : b.events <+: (settleAll ref threads b).events := by
  induction threads generalizing b with
  | nil => exact List.prefix_refl _
  | cons w rest ih => exact (w.events_le_settle b).trans (ih (w.settle ref b))

end Worker

namespace GilPool

open Worker

/-- How one step of a worker bears on one actor. -/
inductive Touches (ref : BehaviorRef) (s : GilPool) (w : Worker) (later : GilPool) (next : Worker) : Prop where
  | elsewhere (free : w.behavior? ≠ some ref) (still : next.behavior? ≠ some ref)
      (behavior : later.behaviors ref = s.behaviors ref) (queue : later.queued ref = s.queued ref)
  | takes {task : PoolTask} {rest : List PoolTask} (idle : w = .receiving) (queue : s.tasks.queue = task :: rest)
      (mine : task.behavior = ref) (took : next = .took task) (behavior : later.behaviors = s.behaviors)
      (left : later.tasks.queue = rest)
  | works (holds : w.behavior? = some ref) (queue : later.queued ref = s.queued ref)
      (completes : s.initialised = true → next.complete ref (later.behaviors ref) = w.complete ref (s.behaviors ref))
      (settles : s.initialised = false → next.settle ref (later.behaviors ref) = w.settle ref (s.behaviors ref))

/-- What every step of a worker leaves as it was. -/
structure Kept (s later : GilPool) : Prop where
  initialised : later.initialised = s.initialised
  received : later.received = s.received
  senders : later.tasks.senderAlive = s.tasks.senderAlive
  receivers : s.initialised = true → s.tasks.senderAlive = true → later.tasks.receiverAlive = s.tasks.receiverAlive

theorem Kept.of_steps {s later : GilPool} {w next : Worker} (steps : Steps s w later next) : s.Kept later := by
  cases steps with
  | leaves down => exact ⟨rfl, rfl, rfl, fun up => by simp [down] at up⟩
  | abandons down => exact ⟨rfl, rfl, rfl, fun up => by simp [down] at up⟩
  | disconnected gone => exact ⟨rfl, rfl, rfl, fun _ senders => by simp [gone] at senders⟩
  | waits _ | takes _ | timesOut | begins _ _ | locks _ _ | returns | yields | resumes _ | swaps _ =>
    exact ⟨rfl, rfl, rfl, fun _ _ => rfl⟩

/-- A worker with a task of another actor leaves this one alone. -/
theorem Touches.of_other {ref other : BehaviorRef} {s later : GilPool} {w next : Worker} (different : other ≠ ref)
    (mine : w.behavior? = some other) (still : next.behavior? = some other ∨ next.behavior? = none)
    (behavior : later.behaviors ref = s.behaviors ref) (queue : later.tasks.queue = s.tasks.queue) :
    Touches ref s w later next := by
  refine .elsewhere ?_ ?_ behavior ?_
  · rw [mine]
    simpa using different
  · rcases still with same | free
    · rw [same]
      simpa using different
    · rw [free]
      simp
  · unfold queued
    rw [queue]

theorem Touches.of_steps (ref : BehaviorRef) {s later : GilPool} {w next : Worker} (steps : Steps s w later next) :
    Touches ref s w later next := by
  cases steps with
  | waits up => exact .elsewhere (by simp [behavior?]) (by simp [behavior?]) rfl rfl
  | leaves down => exact .elsewhere (by simp [behavior?]) (by simp [behavior?]) rfl rfl
  | disconnected gone => exact .elsewhere (by simp [behavior?]) (by simp [behavior?]) rfl rfl
  | timesOut => exact .elsewhere (by simp [behavior?]) (by simp [behavior?]) rfl rfl
  | @takes task rest queue =>
    by_cases mine : task.behavior = ref
    · exact .takes rfl queue mine rfl rfl rfl
    · exact .elsewhere (by simp [behavior?]) (by simpa [behavior?] using mine) rfl (by simp [queued, queue, mine])
  | @abandons task down =>
    by_cases mine : task.behavior = ref
    · exact .works (by simp [behavior?, mine]) rfl (by simp [down]) (fun _ => rfl)
    · exact .of_other mine rfl (.inr rfl) rfl rfl
  | @begins other bytes up free =>
    by_cases mine : other = ref
    · subst mine
      refine .works rfl rfl (fun _ => ?_) (by simp [up])
      simp [complete, behavior?, PoolTask.behavior, PoolTask.message, beginCall, Behavior.call]
    · exact .of_other mine rfl (.inl rfl) (Function.update_of_ne (Ne.symm mine) _ _) rfl
  | @locks other ptr up free =>
    by_cases mine : other = ref
    · subst mine
      refine .works rfl rfl (fun _ => ?_) (by simp [up])
      simp [complete, behavior?, PoolTask.behavior, PoolTask.message]
    · exact .of_other mine rfl (.inl rfl) rfl rfl
  | @returns other =>
    by_cases mine : other = ref
    · subst mine
      refine .works rfl rfl (fun _ => ?_) (fun _ => ?_)
      · simp [complete, behavior?, finishCall]
      · simp [settle, complete, behavior?, finishCall]
    · exact .of_other mine rfl (.inr rfl) (Function.update_of_ne (Ne.symm mine) _ _) rfl
  | @yields other =>
    by_cases mine : other = ref
    · exact .works (by simp [behavior?, mine]) rfl (fun _ => rfl) (fun _ => rfl)
    · exact .of_other mine rfl (.inl rfl) rfl rfl
  | @resumes other free =>
    by_cases mine : other = ref
    · exact .works (by simp [behavior?, mine]) rfl (fun _ => rfl) (fun _ => rfl)
    · exact .of_other mine rfl (.inl rfl) rfl rfl
  | @swaps other ptr unread =>
    by_cases mine : other = ref
    · subst mine
      refine .works rfl rfl (fun _ => ?_) (fun _ => ?_)
      · simp [complete, behavior?, swap]
      · simp [settle, complete, behavior?, swap]
    · exact .of_other mine rfl (.inr rfl) (Function.update_of_ne (Ne.symm mine) _ _) rfl

def holding (ref : BehaviorRef) (w : Worker) : Nat := if w.behavior? = some ref then 1 else 0

theorem holding_of_free {ref : BehaviorRef} {w : Worker} (free : w.behavior? ≠ some ref) : holding ref w = 0 :=
  if_neg free

theorem free_of_total {ref : BehaviorRef} {threads : List Worker} (none : Program.total (holding ref) threads = 0) :
    ∀ w ∈ threads, w.behavior? ≠ some ref := by
  intro w member holds
  have positive : 0 < Program.total (holding ref) threads :=
    Program.total_pos_of_mem member (by simp [holding, holds])
  omega

theorem total_split (ref : BehaviorRef) (before after : List Worker) (w : Worker) :
    Program.total (holding ref) (before ++ w :: after) =
      holding ref w + Program.total (holding ref) (before ++ after) := by
  rw [Program.total_append, Program.total_cons, Program.total_append]
  omega

/-- One worker at most has a task of the actor in hand; with that task and then
    the queue worked off, the actor has done what the inline actor does. -/
structure Ordered (callable : PyObject) (ref : BehaviorRef) (c : Config GilPool Worker) : Prop where
  one : Program.total (holding ref) c.threads ≤ 1
  senders : c.shared.tasks.senderAlive = true
  receivers : c.shared.initialised = true → c.shared.tasks.receiverAlive = true
  begun : (settleAll ref c.threads (c.shared.behaviors ref)).events <+:
    ((Behavior.new callable).receiveAll (c.shared.received ref)).events
  agrees : c.shared.initialised = true →
    (completeAll ref c.threads (c.shared.behaviors ref)).receiveAll (c.shared.queued ref) =
      (Behavior.new callable).receiveAll (c.shared.received ref)

theorem events_settleAll {ref : BehaviorRef} {threads : List Worker}
    (one : Program.total (holding ref) threads ≤ 1) (b : Behavior) :
    (settleAll ref threads b).events <+: (completeAll ref threads b).events := by
  by_cases free : ∀ w ∈ threads, w.behavior? ≠ some ref
  · simp only [settleAll_of_free free, completeAll_of_free free, List.prefix_refl]
  · push Not at free
    obtain ⟨w, member, holds⟩ := free
    obtain ⟨before, after, rfl⟩ := List.append_of_mem member
    have others : ∀ other ∈ before ++ after, other.behavior? ≠ some ref := by
      apply free_of_total
      rw [total_split, holding, if_pos holds] at one
      omega
    rw [settleAll_of_others_free w others, completeAll_of_others_free w others]
    exact events_settle w b

theorem Ordered.of_agrees {callable : PyObject} {ref : BehaviorRef} {c : Config GilPool Worker}
    (one : Program.total (holding ref) c.threads ≤ 1) (senders : c.shared.tasks.senderAlive = true)
    (receivers : c.shared.tasks.receiverAlive = true)
    (agrees : (completeAll ref c.threads (c.shared.behaviors ref)).receiveAll (c.shared.queued ref) =
      (Behavior.new callable).receiveAll (c.shared.received ref)) : Ordered callable ref c where
  one := one
  senders := senders
  receivers := fun _ => receivers
  begun := by
    rw [← agrees]
    exact (events_settleAll one _).trans (Behavior.events_receiveAll _ _)
  agrees := fun _ => agrees

theorem Ordered.sequential {callable : PyObject} {ref : BehaviorRef} {c : Config GilPool Worker}
    (ordered : Ordered callable ref c) : Sequential callable ref c where
  inOrder := (events_le_settleAll c.threads _).trans ordered.begun
  complete := by
    intro up drained
    have agrees := ordered.agrees up
    rwa [completeAll_of_free drained.2, drained.1] at agrees

theorem startPool_ordered {size : Nat} (some : 0 < size) (callables : BehaviorRef → PyObject) (ref : BehaviorRef) :
    Ordered (callables ref) ref (startPool size callables) := by
  have free : ∀ w ∈ (startPool size callables).threads, w.behavior? ≠ Option.some ref := by
    intro w member
    rw [List.eq_of_mem_replicate member]
    simp [behavior?]
  apply Ordered.of_agrees
  · rw [Program.total_eq_zero fun w member => holding_of_free (free w member)]
    omega
  · rfl
  · exact decide_eq_true some
  · rw [completeAll_of_free free]
    rfl

theorem deliver_down {s : GilPool} (down : s.initialised = false) (ref : BehaviorRef) (message : Message) :
    s.deliver ref message = s := by
  obtain ⟨initialised, gil, tasks, receivers, behaviors, readers, received⟩ := s
  cases down
  simp [deliver, Closure.handle, Behavior.dispatch]

/-- A message that the pool runs waits behind the actor's others; any other is ignored. -/
theorem deliver_up {s : GilPool} (up : s.initialised = true) (alive : s.tasks.receiverAlive = true)
    (ref : BehaviorRef) (message : Message) :
    (∃ task : PoolTask, task.behavior = ref ∧ task.message = message ∧ s.deliver ref message =
      { s with tasks := { s.tasks with queue := s.tasks.queue ++ [task] },
               received := Function.update s.received ref (s.received ref ++ [message]) }) ∨
    ((∀ b : Behavior, b.receive message = b) ∧
      s.deliver ref message = { s with received := Function.update s.received ref (s.received ref ++ [message]) }) := by
  cases message with
  | user bytes =>
    exact .inl ⟨.execute ref bytes, rfl, rfl, by
      simp [deliver, up, Closure.handle, Closure.pooled, submit, Channel.send, alive]⟩
  | system message =>
    cases message with
    | hotSwap ptr =>
      exact .inl ⟨.hotSwap ref ptr, rfl, rfl, by
        simp [deliver, up, Closure.handle, Closure.pooled, submit, Channel.send, alive]⟩
    | exit info => exact .inr ⟨fun _ => rfl, by simp [deliver, up, Closure.handle, Behavior.dispatch]⟩
    | ping => exact .inr ⟨fun _ => rfl, by simp [deliver, up, Closure.handle, Behavior.dispatch]⟩
    | pong => exact .inr ⟨fun _ => rfl, by simp [deliver, up, Closure.handle, Behavior.dispatch]⟩

theorem Ordered.deliver {callable : PyObject} {ref : BehaviorRef} {s : GilPool} {threads : List Worker}
    (ordered : Ordered callable ref ⟨s, threads⟩) (other : BehaviorRef) (message : Message) :
    Ordered callable ref ⟨s.deliver other message, threads⟩ := by
  cases up : s.initialised with
  | false =>
    rw [deliver_down up]
    exact ordered
  | true =>
    have alive := ordered.receivers up
    have agrees := ordered.agrees up
    rcases deliver_up up alive other message with ⟨task, mine, means, after⟩ | ⟨ignored, after⟩
    · rw [after]
      refine Ordered.of_agrees ordered.one ordered.senders alive ?_
      by_cases same : other = ref
      · subst same
        simp only [queued, List.filter_append, List.map_append, mine, means, Function.update_self, List.filter_cons,
          List.filter_nil, List.map_cons, List.map_nil, decide_true, if_true, Behavior.receiveAll_snoc]
        rw [← agrees]
        rfl
      · have elsewhere : Function.update s.received other (s.received other ++ [message]) ref = s.received ref :=
          Function.update_of_ne (Ne.symm same) _ _
        have unqueued : [task].filter (·.behavior = ref) = [] := by simp [mine, same]
        simp only [queued, List.filter_append, unqueued, List.append_nil, elsewhere]
        exact agrees
    · rw [after]
      refine Ordered.of_agrees ordered.one ordered.senders alive ?_
      by_cases same : other = ref
      · subst same
        simp only [Function.update_self, Behavior.receiveAll_snoc, ignored]
        exact agrees
      · have elsewhere : Function.update s.received other (s.received other ++ [message]) ref = s.received ref :=
          Function.update_of_ne (Ne.symm same) _ _
        simp only [elsewhere]
        exact agrees

section Step

variable {callable : PyObject} {ref : BehaviorRef} {s later : GilPool} {before after : List Worker} {w next : Worker}

theorem Ordered.receivers_kept {threads : List Worker} (ordered : Ordered callable ref ⟨s, threads⟩)
    (kept : s.Kept later) : later.initialised = true → later.tasks.receiverAlive = true := by
  intro up
  rw [kept.initialised] at up
  exact (kept.receivers up ordered.senders).trans (ordered.receivers up)

theorem Ordered.elsewhere (ordered : Ordered callable ref ⟨s, before ++ w :: after⟩) (kept : s.Kept later)
    (free : w.behavior? ≠ some ref) (still : next.behavior? ≠ some ref)
    (behavior : later.behaviors ref = s.behaviors ref) (queue : later.queued ref = s.queued ref) :
    Ordered callable ref ⟨later, before ++ next :: after⟩ := by
  have completed : completeAll ref (before ++ next :: after) = completeAll ref (before ++ w :: after) :=
    funext (foldl_replace (complete_of_free free) (complete_of_free still))
  have settled : settleAll ref (before ++ next :: after) = settleAll ref (before ++ w :: after) :=
    funext (foldl_replace (settle_of_free free) (settle_of_free still))
  have one := ordered.one
  simp only [total_split, holding_of_free free] at one
  refine ⟨?_, kept.senders.trans ordered.senders, ordered.receivers_kept kept, ?_, ?_⟩
  · simp only [total_split, holding_of_free still]
    exact one
  · simp only [settled, behavior, kept.received]
    exact ordered.begun
  · simp only [completed, behavior, queue, kept.received, kept.initialised]
    exact ordered.agrees

/-- The task moves from the queue into a hand; no other hand has one of the actor's. -/
theorem Ordered.takes {task : PoolTask} {rest : List PoolTask}
    (ordered : Ordered callable ref ⟨s, before ++ .receiving :: after⟩) (kept : s.Kept later)
    (queue : s.tasks.queue = task :: rest) (mine : task.behavior = ref) (behavior : later.behaviors = s.behaviors)
    (left : later.tasks.queue = rest)
    (free : ∀ other ∈ before ++ .receiving :: after, other.behavior? ≠ some ref) :
    Ordered callable ref ⟨later, before ++ .took task :: after⟩ := by
  have holds : (Worker.took task).behavior? = some ref := by
    rw [← mine]
    rfl
  have others : ∀ other ∈ before ++ after, other.behavior? ≠ some ref := by
    intro other member
    apply free other
    rw [List.mem_append, List.mem_cons]
    rw [List.mem_append] at member
    tauto
  have begun := ordered.begun
  have agrees := ordered.agrees
  simp only [settleAll_of_free free] at begun
  simp only [completeAll_of_free free] at agrees
  refine ⟨?_, kept.senders.trans ordered.senders, ordered.receivers_kept kept, ?_, ?_⟩
  · simp only [total_split, holding, if_pos holds]
    rw [Program.total_eq_zero fun other member => holding_of_free (others other member)]
  · simp only [settleAll_of_others_free (.took task) others, behavior, kept.received]
    exact begun
  · intro up
    have completed : (Worker.took task).complete ref (s.behaviors ref) = (s.behaviors ref).receive task.message := by
      simp only [complete, if_pos holds]
    have first : s.queued ref = task.message :: later.queued ref := by simp [queued, queue, left, mine]
    simp only [completeAll_of_others_free (.took task) others, behavior, kept.received, completed]
    rw [← agrees (kept.initialised ▸ up)]
    simp only [first, Behavior.receiveAll_cons]

theorem Ordered.works (ordered : Ordered callable ref ⟨s, before ++ w :: after⟩) (kept : s.Kept later)
    (holds : w.behavior? = some ref) (queue : later.queued ref = s.queued ref)
    (completes : s.initialised = true → next.complete ref (later.behaviors ref) = w.complete ref (s.behaviors ref))
    (settles : s.initialised = false → next.settle ref (later.behaviors ref) = w.settle ref (s.behaviors ref)) :
    Ordered callable ref ⟨later, before ++ next :: after⟩ := by
  have one := ordered.one
  simp only [total_split, holding, if_pos holds] at one
  have others : ∀ other ∈ before ++ after, other.behavior? ≠ some ref := by
    apply free_of_total
    omega
  have few : Program.total (holding ref) (before ++ next :: after) ≤ 1 := by
    rw [total_split, Program.total_eq_zero fun other member => holding_of_free (others other member)]
    unfold holding
    split <;> omega
  have senders := kept.senders.trans ordered.senders
  have receivers := ordered.receivers_kept kept
  cases up : s.initialised with
  | true =>
    have agrees := ordered.agrees up
    simp only [completeAll_of_others_free w others] at agrees
    refine Ordered.of_agrees few senders (receivers (kept.initialised.trans up)) ?_
    simp only [completeAll_of_others_free next others, completes up, queue, kept.received]
    exact agrees
  | false =>
    have begun := ordered.begun
    simp only [settleAll_of_others_free w others] at begun
    refine ⟨few, senders, receivers, ?_, ?_⟩
    · simp only [settleAll_of_others_free next others, settles up, kept.received]
      exact begun
    · intro set
      simp [kept.initialised, up] at set

theorem Ordered.step (ordered : Ordered callable ref ⟨s, before ++ w :: after⟩) (steps : Steps s w later next)
    (alone : w = .receiving → next.behavior? = some ref → ∀ other ∈ before ++ w :: after, other.behavior? ≠ some ref) :
    Ordered callable ref ⟨later, before ++ next :: after⟩ := by
  have kept := Kept.of_steps steps
  cases Touches.of_steps ref steps with
  | elsewhere free still behavior queue => exact ordered.elsewhere kept free still behavior queue
  | takes idle queue mine took behavior left =>
    subst idle took
    exact ordered.takes kept queue mine behavior left (alone rfl (congrArg some mine))
  | works holds queue completes settles => exact ordered.works kept holds queue completes settles

end Step

/-- The invariant over one move of the pool that takes no task of the actor besides another. -/
theorem ordered_move {callable : PyObject} {ref : BehaviorRef} (c : Config GilPool Worker) (move : PoolMove)
    (d : Config GilPool Worker) (ordered : Ordered callable ref c) (alone : TakesAlone ref c move)
    (moves : gilPool.Moves c move d) : Ordered callable ref d := by
  cases moves with
  | start allowed => cases allowed
  | @step s later before after new w next input stepped =>
    obtain ⟨taken, rfl⟩ := gilPool_step stepped
    rw [List.append_nil]
    apply ordered.step (steps_of_step taken)
    intro idle holds
    subst idle
    cases input with
    | yieldGil => cases taken
    | timeOut =>
      cases taken
      cases holds
    | proceed =>
      apply alone
      · simp
      · cases steps_of_step taken with
        | takes queue =>
          rw [queue]
          exact holds
        | disconnected gone => cases holds
        | timesOut => cases holds
  | @ambient s later threads operation done =>
    cases operation with
    | deliver other message =>
      cases done
      exact ordered.deliver other message
    | shutDown =>
      cases done
      exact ⟨ordered.one, ordered.senders, by simp, ordered.begun, by simp⟩

theorem sequential_of_takesAlone {size : Nat} (some : 0 < size) {callables : BehaviorRef → PyObject}
    {ref : BehaviorRef} {moves : List PoolMove} {c : Config GilPool Worker}
    (alone : gilPool.machine.Meets (TakesAlone ref) (startPool size callables) moves)
    (reached : gilPool.machine.run (startPool size callables) moves = Option.some c) :
    Sequential (callables ref) ref c :=
  (gilPool.run_invariant_of_meets ordered_move (startPool_ordered some callables ref) alone reached).sequential

end GilPool

end Myrmidon.Python
