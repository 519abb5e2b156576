import Myrmidon.Runtime.Completion
import Myrmidon.Supervisor.Links

namespace Myrmidon

open Slab Transition

def SystemMessage.exitFrom (pid : Pid) : SystemMessage → Bool
  | .exit info => decide (info.fromPid = pid)
  | _ => false

def Mailbox.exitsFrom (m : Mailbox) (pid : Pid) : Nat := m.sys.queue.countP (SystemMessage.exitFrom pid)

def Cleanup.tookLinks (ending : Cleanup) : Bool :=
  match ending.stage with
  | .retain _ _ | .send _ | .done => true
  | _ => false

def Cleanup.unnotified (ending : Cleanup) : List Pid :=
  match ending.stage with
  | .retain linked _ => linked
  | .send todo => todo
  | _ => []

/-- The step takes the link between `p` and `b` out of the list of `p`. -/
def Worker.unlinks (p b : Pid) : Worker → Bool
  | .restart none task =>
    match task.stage with
    | .removeLinks => decide (task.orig = p)
    | .retain (peer :: _) => decide (peer = p) && decide (task.orig = b)
    | _ => false
  | _ => false

def Worker.tookLinks (p : Pid) : Worker → Bool
  | .cleanup ending => decide (ending.pid = p) && ending.tookLinks
  | .restart _ _ => false

/-- No restart task takes the link away before the clean-up of `p` has read it. -/
def LinkKept (p b : Pid) (c : Config Runtime Worker) : Move Worker (Except String Pid × List Pid) Empty → Prop
  | .step index _ => ∀ worker ∈ c.threads[index]?, worker.unlinks p b = true → c.threads.any (Worker.tookLinks p) = true
  | _ => True

/-- The mailbox `id` belongs to `b` alone and its receiver exists. -/
structure OpenFor (b : Pid) (id : Nat) (rt : Runtime) : Prop where
  sender : rt.mailboxes.lookup b = some id
  alone : ∀ pid, rt.mailboxes.lookup pid = some id → pid = b
  receiver : ∃ m, rt.actors[id]? = some m ∧ m.sys.receiverAlive = true

def Runtime.received (rt : Runtime) (id : Nat) (p : Pid) : Nat :=
  ((rt.actors[id]?).map fun m => m.exitsFrom p).getD 0

theorem Notify.step_links {s later : Supervisor} {call next : Notify} {tasks : List Task}
    (steps : Steps s call later next tasks) : later.links = s.links := by
  cases steps <;> rfl

theorem Task.step_linkCount {s later : Supervisor} {task next : Task} {result : Except String Pid} (p b : Pid)
    (stepped : task.step s result = some (later, next)) :
    later.linkCount p b = if (Worker.restart none task).unlinks p b then 0 else s.linkCount p b := by
  obtain ⟨orig, spec, attempts, backoffMs, replacement, stage⟩ := task
  cases steps_of_step stepped with
  | tookLinks now =>
    cases now
    simp only [Worker.unlinks, decide_eq_true_eq, Supervisor.linkCount, Supervisor.takeLinks]
    by_cases same : orig = p
    · rw [if_pos same, same, AList.lookup_erase]
      rfl
    · rw [if_neg same, AList.lookup_erase_ne (Ne.symm same)]
  | forgot now =>
    cases now
    rw [Supervisor.linkCount_forget]
    simp only [Worker.unlinks, Bool.and_eq_true, decide_eq_true_eq]
  | _ now => cases now; rfl

theorem exitsFrom_send (m : Mailbox) (p : Pid) (info : ExitInfo) (alive : m.sys.receiverAlive = true) :
    (m.send (.system (.exit info))).2.exitsFrom p = m.exitsFrom p + (if info.fromPid = p then 1 else 0) ∧
      (m.send (.system (.exit info))).2.sys.receiverAlive = true := by
  simp only [Mailbox.send, Data.Channel.send, alive, if_true, Mailbox.exitsFrom]
  refine ⟨?_, trivial⟩
  rw [List.countP_append, List.countP_singleton]
  simp only [SystemMessage.exitFrom, decide_eq_true_eq]

theorem OpenFor.send {b : Pid} {id : Nat} {rt : Runtime} (opened : OpenFor b id rt) (p peer : Pid) (info : ExitInfo)
    (mine : info.fromPid = p) : OpenFor b id (rt.send peer (.system (.exit info))).2 ∧
      (rt.send peer (.system (.exit info))).2.received id p = rt.received id p + if peer = b then 1 else 0 := by
  obtain ⟨sender, alone, m, present, alive⟩ := opened
  unfold Runtime.send
  cases found : rt.mailboxes.lookup peer with
  | none =>
    have other : peer ≠ b := by
      rintro rfl
      rw [sender] at found
      cases found
    exact ⟨⟨sender, alone, m, present, alive⟩, by rw [if_neg other]; rfl⟩
  | some target =>
    rw [Option.bind_some]
    cases actor : rt.actors[target]? with
    | none =>
      have other : peer ≠ b := by
        rintro rfl
        cases sender.symm.trans found
        cases present.symm.trans actor
      exact ⟨⟨sender, alone, m, present, alive⟩, by rw [if_neg other]; rfl⟩
    | some mailbox =>
      dsimp only [Option.map_some]
      have inside := (List.getElem?_eq_some_iff.mp actor).1
      by_cases same : target = id
      · subst same
        have peers : peer = b := alone peer found
        cases present.symm.trans actor
        obtain ⟨counted, stays⟩ := exitsFrom_send m p info alive
        have stored : (rt.actors.set target (m.send (.system (.exit info))).2)[target]? =
            some (m.send (.system (.exit info))).2 := List.getElem?_set_self inside
        refine ⟨⟨sender, alone, _, stored, stays⟩, ?_⟩
        simp only [Runtime.received, stored, present, Option.map_some, Option.getD_some, counted, mine, peers, if_true]
      · have other : peer ≠ b := by
          rintro rfl
          exact same (Option.some.inj (found.symm.trans sender))
        have kept : (rt.actors.set target (mailbox.send (.system (.exit info))).2)[id]? = rt.actors[id]? :=
          List.getElem?_set_ne same
        refine ⟨⟨sender, alone, m, kept.trans present, alive⟩, ?_⟩
        simp only [Runtime.received, kept, if_neg other, Nat.add_zero]

/-- Before the clean-up takes the links of its pid, `b` is in the list `links`
    times; after that, `b` is notified or still to be notified as often. -/
structure Owes (b : Pid) (id base links : Nat) (rt : Runtime) (ending : Cleanup) : Prop where
  opened : OpenFor b id rt
  before : ending.tookLinks = false →
    rt.received id ending.pid = base ∧ rt.supervisor.linkCount ending.pid b = links
  after : ending.tookLinks = true → rt.received id ending.pid + ending.unnotified.count b = base + links

def Worker.isRestart : Worker → Bool
  | .restart _ _ => true
  | .cleanup _ => false

theorem isRestart_map (owner : Option Nat) (tasks : List Task) :
    ∀ worker ∈ tasks.map (Worker.restart owner), worker.isRestart = true := by
  intro worker member
  obtain ⟨task, -, rfl⟩ := List.mem_map.mp member
  rfl

theorem Cleanup.step_spawns {rt later : Runtime} {ending next : Cleanup} {order : List Pid} {new : List Worker}
    (stepped : ending.step rt order = some (later, next, new)) : ∀ worker ∈ new, worker.isRestart = true := by
  obtain ⟨stage, rfl, steps⟩ := Cleanup.steps_of_step stepped
  generalize ending.stage = before at steps
  cases steps with
  | notifying steps => exact isRestart_map _ _
  | pathNotifying present steps => exact isRestart_map _ _
  | _ => simp

theorem Worker.step_restart {rt later : Runtime} {owner : Option Nat} {task : Task} {next : Worker}
    {result : Except String Pid} {order : List Pid} {new : List Worker}
    (stepped : (Worker.restart owner task).step rt result order = some (later, next, new)) :
    next.isRestart = true ∧ new = [] ∧ later.pathSupervisors.length = rt.pathSupervisors.length := by
  cases owner with
  | none =>
    obtain ⟨_, done, same⟩ := Option.map_eq_some_iff.mp stepped
    cases same
    exact ⟨rfl, rfl, rfl⟩
  | some index =>
    simp only [Worker.step] at stepped
    split at stepped
    · cases stepped
    · obtain ⟨_, done, same⟩ := Option.map_eq_some_iff.mp stepped
      cases same
      exact ⟨rfl, rfl, List.length_set⟩

/-- Everything a move can do to a clean-up and the restart tasks behind it. -/
inductive Cleanup.Leads (rt : Runtime) (ending : Cleanup) (rest : List Worker) :
    Move Worker (Except String Pid × List Pid) Empty → Config Runtime Worker → Prop where
  | own {later : Runtime} {next : Cleanup} {new : List Worker} {outside : Except String Pid × List Pid}
      (stepped : ending.step rt outside.2 = some (later, next, new))
      (others : ∀ worker ∈ rest ++ new, worker.isRestart = true)
      (placed : next.Placed later.pathSupervisors.length) :
      Leads rt ending rest (.step 0 outside) ⟨later, .cleanup next :: (rest ++ new)⟩
  | restarting {later : Runtime} {before after : List Worker} {owner : Option Nat} {task : Task} {next : Worker}
      {outside : Except String Pid × List Pid} (split : rest = before ++ .restart owner task :: after)
      (stepped : (Worker.restart owner task).step rt outside.1 outside.2 = some (later, next, []))
      (others : ∀ worker ∈ before ++ next :: after, worker.isRestart = true)
      (placed : ending.Placed later.pathSupervisors.length) :
      Leads rt ending rest (.step (before.length + 1) outside) ⟨later, .cleanup ending :: (before ++ next :: after)⟩

theorem Cleanup.leads_of_moves {c d : Config Runtime Worker} {move : Move Worker (Except String Pid × List Pid) Empty}
    {ending : Cleanup} {rest : List Worker} (shape : c.threads = .cleanup ending :: rest)
    (others : ∀ worker ∈ rest, worker.isRestart = true) (placed : ending.Placed c.shared.pathSupervisors.length)
    (moves : exitCleanup.Moves c move d) : ending.Leads c.shared rest move d := by
  cases moves with
  | start allowed => cases allowed
  | @ambient shared later threads operation done => exact operation.elim
  | @step shared later before after new worker next outside stepped =>
    cases before with
    | nil =>
      obtain ⟨rfl, rfl⟩ := List.cons.inj shape
      obtain ⟨⟨rt, following, workers⟩, done, same⟩ := Option.map_eq_some_iff.mp stepped
      cases same
      obtain ⟨count, inside⟩ := placed.step done
      rw [← count] at inside
      exact .own done (List.forall_mem_append.mpr ⟨others, Cleanup.step_spawns done⟩) inside
    | cons first before =>
      obtain ⟨rfl, rfl⟩ := List.cons.inj shape
      have restart := others worker (List.mem_append_right _ List.mem_cons_self)
      cases worker with
      | cleanup other => cases restart
      | restart owner task =>
        obtain ⟨result, rfl, count⟩ := Worker.step_restart stepped
        rw [← count] at placed
        rw [List.append_nil]
        exact .restarting rfl stepped (Program.forall_replace others result) placed

theorem Owes.unread {b : Pid} {id base links : Nat} {rt later : Runtime} {ending next : Cleanup}
    (owes : Owes b id base links rt ending) (unread : ending.tookLinks = false) (still : next.tookLinks = false)
    (same : next.pid = ending.pid) (opened : OpenFor b id later) (actors : later.actors = rt.actors)
    (linked : later.supervisor.links = rt.supervisor.links) : Owes b id base links later next := by
  obtain ⟨received, count⟩ := owes.before unread
  refine ⟨opened, fun _ => ⟨?_, ?_⟩, fun taken => ?_⟩
  · rw [same, Runtime.received, actors]
    exact received
  · rw [same, Supervisor.linkCount, linked]
    exact count
  · rw [still] at taken
    cases taken

theorem Owes.read {b : Pid} {id base links : Nat} {rt : Runtime} {ending : Cleanup} (taken : ending.tookLinks = true)
    (opened : OpenFor b id rt) (total : rt.received id ending.pid + ending.unnotified.count b = base + links) :
    Owes b id base links rt ending := by
  refine ⟨opened, fun unread => ?_, fun _ => total⟩
  rw [taken] at unread
  cases unread

theorem Owes.step {b : Pid} {id base links : Nat} {rt later : Runtime} {ending next : Cleanup} {order : List Pid}
    {new : List Worker} (owes : Owes b id base links rt ending) (apart : ending.pid ≠ b)
    (stepped : ending.step rt order = some (later, next, new)) :
    Owes b id base links later next ∧ next.pid = ending.pid := by
  obtain ⟨stage, rfl, steps⟩ := Cleanup.steps_of_step stepped
  obtain ⟨pid, reason, metadata, before⟩ := ending
  have opened := owes.opened
  cases steps with
  | closed =>
    refine ⟨owes.unread rfl rfl rfl ⟨?_, ?_, opened.receiver⟩ rfl rfl, rfl⟩
    · rw [AList.lookup_erase_ne (Ne.symm apart)]
      exact opened.sender
    · intro other found
      apply opened.alone other
      by_cases same : other = pid
      · rw [same, AList.lookup_erase] at found
        cases found
      · rwa [AList.lookup_erase_ne same] at found
  | notifying steps =>
    have linked := Notify.step_links steps
    exact ⟨owes.unread rfl rfl rfl ⟨opened.sender, opened.alone, opened.receiver⟩ rfl linked, rfl⟩
  | pathNotifying present steps =>
    exact ⟨owes.unread rfl rfl rfl ⟨opened.sender, opened.alone, opened.receiver⟩ rfl rfl, rfl⟩
  | took =>
    obtain ⟨received, count⟩ := owes.before rfl
    refine ⟨.read rfl ⟨opened.sender, opened.alone, opened.receiver⟩ ?_, rfl⟩
    rw [← received, ← count]
    rfl
  | retained => exact ⟨.read rfl ⟨opened.sender, opened.alone, opened.receiver⟩ (owes.after rfl), rfl⟩
  | retainedAll => exact ⟨.read rfl opened (owes.after rfl), rfl⟩
  | @sent todo peer =>
    have total := owes.after rfl
    obtain ⟨stays, counted⟩ := opened.send pid peer ⟨pid, reason, metadata⟩ rfl
    refine ⟨.read rfl stays ?_, rfl⟩
    have split : (peer :: todo).count b = todo.count b + if peer = b then 1 else 0 := by
      rw [List.count_cons]
      simp
    simp only [Cleanup.unnotified] at total ⊢
    rw [split] at total
    simp only [Cleanup.message]
    rw [counted]
    omega
  | sentAll => exact ⟨.read rfl opened (owes.after rfl), rfl⟩
  | _ => exact ⟨owes.unread rfl rfl rfl ⟨opened.sender, opened.alone, opened.receiver⟩ rfl rfl, rfl⟩

theorem Owes.restart {b : Pid} {id base links : Nat} {rt later : Runtime} {ending : Cleanup} {owner : Option Nat}
    {task : Task} {next : Worker} {new : List Worker} {result : Except String Pid} {order : List Pid}
    (owes : Owes b id base links rt ending)
    (stepped : (Worker.restart owner task).step rt result order = some (later, next, new)) :
    Owes b id base (if
      (Worker.restart owner task).unlinks ending.pid b = true ∧ ending.tookLinks = false then 0 else links)
      later ending := by
  obtain ⟨opened, before, after⟩ := owes
  cases owner with
  | none =>
    obtain ⟨⟨supervisor, task⟩, done, same⟩ := Option.map_eq_some_iff.mp stepped
    cases same
    have count := Task.step_linkCount ending.pid b done
    refine ⟨⟨opened.sender, opened.alone, opened.receiver⟩, fun unread => ?_, fun taken => ?_⟩
    · obtain ⟨received, linked⟩ := before unread
      refine ⟨received, ?_⟩
      simp only [count, linked, unread, and_true]
    · rw [if_neg]
      · exact after taken
      · rintro ⟨-, unread⟩
        rw [taken] at unread
        cases unread
  | some index =>
    simp only [Worker.step] at stepped
    split at stepped
    · cases stepped
    · obtain ⟨⟨supervisor, task⟩, done, same⟩ := Option.map_eq_some_iff.mp stepped
      cases same
      exact ⟨⟨opened.sender, opened.alone, opened.receiver⟩, before, after⟩

structure Tracks (p b : Pid) (id base links : Nat) (c : Config Runtime Worker) : Prop where
  threads : ∃ ending rest, c.threads = .cleanup ending :: rest ∧ ending.pid = p ∧
    (∀ worker ∈ rest, worker.isRestart = true) ∧ ending.Placed c.shared.pathSupervisors.length ∧
    Owes b id base links c.shared ending

theorem any_tookLinks {p : Pid} {ending : Cleanup} {rest : List Worker} (mine : ending.pid = p)
    (others : ∀ worker ∈ rest, worker.isRestart = true) :
    (Worker.cleanup ending :: rest).any (Worker.tookLinks p) = ending.tookLinks := by
  have none : rest.any (Worker.tookLinks p) = false := by
    rw [List.any_eq_false]
    intro worker member
    have restart := others worker member
    cases worker with
    | cleanup other => cases restart
    | restart owner task => exact Bool.false_ne_true
  rw [List.any_cons, none, Bool.or_false, Worker.tookLinks, mine, decide_eq_true rfl, Bool.true_and]

/-- A move keeps the account, or takes the unread link away. -/
theorem Tracks.move {p b : Pid} {id base links : Nat} {c d : Config Runtime Worker}
    {move : Move Worker (Except String Pid × List Pid) Empty} (apart : p ≠ b) (tracks : Tracks p b id base links c)
    (moves : exitCleanup.Moves c move d) :
    (LinkKept p b c move → Tracks p b id base links d) ∧ (¬ LinkKept p b c move → Tracks p b id base 0 d) := by
  obtain ⟨shared, threads⟩ := c
  obtain ⟨ending, rest, rfl, mine, others, placed, owes⟩ := tracks.threads
  cases Cleanup.leads_of_moves rfl others placed moves with
  | @own later next new outside stepped workers inside =>
    obtain ⟨still, pid⟩ := owes.step (mine ▸ apart) stepped
    have kept : LinkKept p b ⟨shared, .cleanup ending :: rest⟩ (.step 0 outside) := by
      intro worker found unlinks
      cases found
      cases unlinks
    constructor
    · intro _
      exact ⟨next, rest ++ new, rfl, pid.trans mine, workers, inside, still⟩
    · intro broken
      exact absurd kept broken
  | @restarting later before after owner task next outside split stepped workers inside =>
    subst split
    have still := owes.restart stepped
    have found : (Worker.cleanup ending :: (before ++ .restart owner task :: after))[before.length + 1]? =
        some (.restart owner task) := by simp
    have read : (Worker.cleanup ending :: (before ++ .restart owner task :: after)).any (Worker.tookLinks p) =
        ending.tookLinks := any_tookLinks mine others
    rw [mine] at still
    constructor
    · intro kept
      refine ⟨ending, _, rfl, mine, workers, inside, ?_⟩
      rwa [if_neg] at still
      rintro ⟨unlinks, unread⟩
      have taken : ending.tookLinks = true := read.symm.trans (kept _ found unlinks)
      rw [unread] at taken
      cases taken
    · intro broken
      refine ⟨ending, _, rfl, mine, workers, inside, ?_⟩
      rwa [if_pos] at still
      by_contra intact
      apply broken
      intro other same unlinks
      cases found.symm.trans same
      apply read.trans
      by_contra unread
      exact intact ⟨unlinks, Bool.eq_false_iff.mpr unread⟩

theorem Tracks.completes {p b : Pid} {id base links : Nat} {c : Config Runtime Worker}
    (tracks : Tracks p b id base links c) : ∃ moves d, exitCleanup.machine.run c moves = some d ∧ CleanedUp d := by
  obtain ⟨shared, threads⟩ := c
  obtain ⟨ending, rest, rfl, -, -, placed, -⟩ := tracks.threads
  exact placed.completes rest

theorem Tracks.received {p b : Pid} {id base links : Nat} {c : Config Runtime Worker}
    (tracks : Tracks p b id base links c) (finished : CleanedUp c) : c.shared.received id p = base + links := by
  obtain ⟨ending, rest, shape, mine, others, -, owes⟩ := tracks.threads
  obtain ⟨last, member, done⟩ := finished
  rw [shape] at member
  have same : last = ending := by
    rcases List.mem_cons.mp member with same | member
    · exact Worker.cleanup.inj same
    · cases others _ member
  rw [same] at done
  have total := owes.after (by rw [Cleanup.tookLinks, done])
  rw [Cleanup.unnotified, done, mine] at total
  exact total

/-- The clean-up of `p` can always be completed. When it is complete, its link
    has yielded exactly one exit signal, unless a restart task took the link
    away before the clean-up read it; then it has yielded none. -/
theorem link_yields_exit_iff_kept {rt : Runtime} {p b : Pid} {id : Nat} (apart : p ≠ b) (opened : OpenFor b id rt)
    (linked : rt.supervisor.linkCount p b = 1) (reason : ExitReason) (metadata : Option String)
    {moves : List (Move Worker (Except String Pid × List Pid) Empty)} {d : Config Runtime Worker}
    (reached : exitCleanup.machine.run ⟨rt, [.cleanup (.new p reason metadata)]⟩ moves = some d) :
    (∃ more e, exitCleanup.machine.run d more = some e ∧ CleanedUp e) ∧
    (CleanedUp d →
      (d.shared.received id p = rt.received id p + 1 ↔
        exitCleanup.machine.Meets (LinkKept p b) ⟨rt, [.cleanup (.new p reason metadata)]⟩ moves) ∧
      (d.shared.received id p = rt.received id p ↔
        ¬ exitCleanup.machine.Meets (LinkKept p b) ⟨rt, [.cleanup (.new p reason metadata)]⟩ moves)) := by
  have start : Tracks p b id (rt.received id p) 1 ⟨rt, [.cleanup (.new p reason metadata)]⟩ :=
    ⟨_, [], rfl, rfl, by simp, trivial, opened, fun _ => ⟨rfl, linked⟩, fun taken => by cases taken⟩
  have outcome := exitCleanup.machine.run_dichotomy
    (fun c move d tracks kept taken => (tracks.move apart (exitCleanup.moves_of_step taken)).1 kept)
    (fun c move d tracks broken taken => (tracks.move apart (exitCleanup.moves_of_step taken)).2 broken)
    (fun c move d tracks taken => by
      by_cases kept : LinkKept p b c move
      · exact (tracks.move apart (exitCleanup.moves_of_step taken)).1 kept
      · exact (tracks.move apart (exitCleanup.moves_of_step taken)).2 kept) start reached
  rcases outcome with ⟨meets, tracks⟩ | ⟨broken, tracks⟩
  · refine ⟨tracks.completes, fun finished => ?_⟩
    have count := tracks.received finished
    exact ⟨iff_of_true count meets, iff_of_false (by omega) (not_not_intro meets)⟩
  · refine ⟨tracks.completes, fun finished => ?_⟩
    have count := tracks.received finished
    exact ⟨iff_of_false (by omega) broken, iff_of_true count broken⟩

instance (p b : Pid) (c : Config Runtime Worker) : DecidablePred (LinkKept p b c)
  | .start _ => .isTrue trivial
  | .step index _ => inferInstanceAs (Decidable (∀ worker ∈ c.threads[index]?,
      worker.unlinks p b = true → c.threads.any (Worker.tookLinks p) = true))
  | .ambient _ => .isTrue trivial

/-- Two actors, linked; the first is supervised and will be restarted. -/
def linkedPair : Runtime where
  slab := ⟨[⟨1, true⟩, ⟨1, true⟩], []⟩
  mailboxes := (AList.insert (makePid 1 1) 1 ∅).insert (makePid 0 1) 0
  actors := [.channel, .channel]
  supervisor := (Supervisor.new.addChild (makePid 0 1) ⟨.foreign 0, .restartOne⟩).link (makePid 0 1) (makePid 1 1)
  pathSupervisors := []

theorem linkedPair_open : OpenFor (makePid 1 1) 1 linkedPair := by
  refine ⟨by decide +kernel, ?_, .channel, rfl, rfl⟩
  intro pid found
  by_cases first : pid = makePid 0 1
  · rw [first, linkedPair, AList.lookup_insert] at found
    cases found
  · rw [linkedPair, AList.lookup_insert_ne first] at found
    by_contra second
    rw [AList.lookup_insert_ne second, AList.lookup_empty] at found
    cases found

def cleanupSteps (count : Nat) : List (Move Worker (Except String Pid × List Pid) Empty) :=
  List.replicate count (.step 0 (.ok (makePid 2 1), []))

def restartSteps (count : Nat) : List (Move Worker (Except String Pid × List Pid) Empty) :=
  List.replicate count (.step 1 (.ok (makePid 2 1), []))

theorem link_yields_exit_iff_kept_pair : ∃ d,
    exitCleanup.machine.run ⟨linkedPair, [.cleanup (.new (makePid 0 1) .normal none)]⟩ (cleanupSteps 12) = some d ∧
      d.shared.received 1 (makePid 0 1) = 1 := by
  have kept : exitCleanup.machine.Meets (LinkKept (makePid 0 1) (makePid 1 1))
      ⟨linkedPair, [.cleanup (.new (makePid 0 1) .normal none)]⟩ (cleanupSteps 12) :=
    Machine.meets_of_checks _ (by decide +kernel)
  have finishes : (exitCleanup.machine.run ⟨linkedPair, [.cleanup (.new (makePid 0 1) .normal none)]⟩
      (cleanupSteps 12)).map (fun d => d.threads.head?) =
        some (some (.cleanup ⟨makePid 0 1, .normal, none, .done⟩)) := by
    decide +kernel
  obtain ⟨d, reached, head⟩ := Option.map_eq_some_iff.mp finishes
  have finished : CleanedUp d := ⟨_, List.mem_of_head? head, rfl⟩
  have linked : linkedPair.supervisor.linkCount (makePid 0 1) (makePid 1 1) = 1 := by decide +kernel
  have outcome := (link_yields_exit_iff_kept (by decide +kernel) linkedPair_open linked .normal none reached).2 finished
  exact ⟨d, reached, outcome.1.mpr kept⟩

/-- The restart task runs to the end of its link clean-up before the clean-up of the actor reads its links. -/
theorem restart_swallows_exit :
    ¬ ∀ (rt : Runtime) (p b : Pid) (id : Nat) (moves : List (Move Worker (Except String Pid × List Pid) Empty))
      (d : Config Runtime Worker), p ≠ b → OpenFor b id rt → rt.supervisor.linkCount p b = 1 →
      rt.supervisor.linkCount b p = 1 → p ∈ rt.supervisor.children →
      exitCleanup.machine.run ⟨rt, [.cleanup (.new p .normal none)]⟩ moves = some d → CleanedUp d →
      d.shared.received id p = rt.received id p + 1 := by
  intro signalled
  have silent : (exitCleanup.machine.run ⟨linkedPair, [.cleanup (.new (makePid 0 1) .normal none)]⟩
      (cleanupSteps 4 ++ restartSteps 5 ++ cleanupSteps 6)).map
        (fun d => (d.threads.head?, d.shared.received 1 (makePid 0 1))) =
        some (some (.cleanup ⟨makePid 0 1, .normal, none, .done⟩), 0) := by
    decide +kernel
  obtain ⟨d, reached, both⟩ := Option.map_eq_some_iff.mp silent
  obtain ⟨head, nothing⟩ := Prod.mk.inj both
  have exits := signalled linkedPair (makePid 0 1) (makePid 1 1) 1 _ d (by decide +kernel) linkedPair_open
    (by decide +kernel) (by decide +kernel) (by decide +kernel) reached ⟨_, List.mem_of_head? head, rfl⟩
  rw [nothing] at exits
  cases exits

end Myrmidon
