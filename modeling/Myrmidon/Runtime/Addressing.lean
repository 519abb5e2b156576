import Myrmidon.Runtime.Lifecycle

namespace Myrmidon

open Slab Transition

def Cleanup.deallocated (ending : Cleanup) : Bool :=
  match ending.stage with
  | .takeLinks | .retain _ _ | .send _ | .done => true
  | _ => false

namespace Life

/-- The actor whose slot is occupied for this activity. -/
def holds : Life → Option (Pid × Nat)
  | .running pid id => some (pid, id)
  | .ending id cleanup => if cleanup.deallocated then none else some (cleanup.pid, id)
  | _ => none

/-- The actor whose sender may still be in the table. -/
def feeds : Life → Option (Pid × Nat)
  | .running pid id => some (pid, id)
  | .ending id cleanup => if cleanup.stage = .closeMailbox then some (cleanup.pid, id) else none
  | _ => none

/-- The actor whose slot was given back. -/
def left : Life → Option (Pid × Nat)
  | .ending id cleanup => if cleanup.deallocated then some (cleanup.pid, id) else none
  | _ => none

end Life

structure Roster where
  holders : List (Pid × Nat)
  feeders : List (Pid × Nat)
  left : List (Pid × Nat)

namespace Roster

def of (lives : List Life) : Roster :=
  ⟨lives.filterMap Life.holds, lives.filterMap Life.feeds, lives.filterMap Life.left⟩

def append (first second : Roster) : Roster :=
  ⟨first.holders ++ second.holders, first.feeders ++ second.feeders, first.left ++ second.left⟩

structure Perm (first second : Roster) : Prop where
  holders : first.holders.Perm second.holders
  feeders : first.feeders.Perm second.feeders
  left : first.left.Perm second.left

theorem of_append (first second : List Life) : of (first ++ second) = (of first).append (of second) := by
  simp [of, append]

theorem of_perm {first second : List Life} (perm : first.Perm second) : Perm (of first) (of second) :=
  ⟨perm.filterMap _, perm.filterMap _, perm.filterMap _⟩

theorem perm_split (before after : List Life) (life : Life) :
    Perm (of (before ++ life :: after)) ((of [life]).append (of (before ++ after))) := by
  rw [← of_append]
  exact of_perm List.perm_middle

theorem perm_moved (before after new : List Life) (next : Life) :
    Perm ((of (next :: new)).append (of (before ++ after))) (of (before ++ next :: (after ++ new))) := by
  rw [← of_append]
  exact of_perm (Program.perm_replace_append before after new next)

end Roster

/-- Nothing is added to the tables; senders may have been removed. -/
structure World.Quiet (w later : World) : Prop where
  slab : later.runtime.slab = w.runtime.slab
  mailboxes : ∀ pid id, later.runtime.mailboxes.lookup pid = some id → w.runtime.mailboxes.lookup pid = some id
  spawned : later.spawned = w.spawned
  actors : later.runtime.actors.length = w.runtime.actors.length

/-- What one step does to the tables of the runtime and to the roster. -/
inductive Effect (w later : World) : Roster → Roster → Prop where
  | quiet {roster : Roster} (quiet : w.Quiet later) : Effect w later roster roster
  | spawn {pid : Pid} {id : Nat} {slab : SlabAllocator} {s : Supervisor} {paths : List Supervisor}
      (allocated : w.runtime.slab.allocate = some (pid, slab)) (number : id = w.runtime.actors.length)
      (effect : later = ⟨⟨slab, w.runtime.mailboxes.insert pid id, w.runtime.actors ++ [.channel], s, paths⟩,
        (pid, id) :: w.spawned⟩) :
      Effect w later ⟨[], [], []⟩ ⟨[(pid, id)], [(pid, id)], []⟩
  | close {pid : Pid} {id : Nat} {holders left : List (Pid × Nat)}
      (effect : later = { w with runtime := { w.runtime with mailboxes := w.runtime.mailboxes.erase pid } }) :
      Effect w later ⟨holders, [(pid, id)], left⟩ ⟨holders, [], left⟩
  | deallocate {pid : Pid} {id : Nat}
      (effect : later = { w with runtime := { w.runtime with slab := (w.runtime.slab.deallocate pid).2 } }) :
      Effect w later ⟨[(pid, id)], [], []⟩ ⟨[], [], [(pid, id)]⟩

theorem World.spawnActor_eq_some {w later : World} {pid : Pid} {id : Nat}
    (spawn : w.spawnActor = some (pid, id, later)) :
    ∃ slab, w.runtime.slab.allocate = some (pid, slab) ∧ id = w.runtime.actors.length ∧
      later = ⟨{ w.runtime with
        slab, mailboxes := w.runtime.mailboxes.insert pid id, actors := w.runtime.actors ++ [.channel] },
        (pid, id) :: w.spawned⟩ := by
  unfold World.spawnActor at spawn
  split at spawn
  · cases spawn
  · rename_i pid slab allocated
    cases spawn
    exact ⟨slab, allocated, rfl, rfl⟩

theorem Runtime.send_tables (rt : Runtime) (pid : Pid) (message : Message) :
    (rt.send pid message).2.slab = rt.slab ∧ (rt.send pid message).2.mailboxes = rt.mailboxes ∧
      (rt.send pid message).2.actors.length = rt.actors.length := by
  unfold Runtime.send
  split
  · exact ⟨rfl, rfl, rfl⟩
  · exact ⟨rfl, rfl, List.length_set⟩

theorem World.Quiet.of_eq {w later : World} (slab : later.runtime.slab = w.runtime.slab)
    (mailboxes : later.runtime.mailboxes = w.runtime.mailboxes) (spawned : later.spawned = w.spawned)
    (actors : later.runtime.actors.length = w.runtime.actors.length) : w.Quiet later := by
  refine ⟨slab, ?_, spawned, actors⟩
  rw [mailboxes]
  exact fun _ _ => id

theorem World.quiet_setSupervisor (w : World) (owner : Option Nat) (s : Supervisor) :
    w.Quiet (w.setSupervisor owner s) := by
  cases owner <;> exact .of_eq rfl rfl rfl rfl

theorem World.quiet_modifyMailbox (w : World) (id : Nat) (change : Mailbox → Mailbox) :
    w.Quiet (w.modifyMailbox id change) := .of_eq rfl rfl rfl (List.length_modify _ _ _)

theorem World.quiet_send (w : World) (pid : Pid) (message : Message) :
    w.Quiet { w with runtime := (w.runtime.send pid message).2 } := by
  obtain ⟨slab, mailboxes, actors⟩ := w.runtime.send_tables pid message
  exact .of_eq slab mailboxes rfl actors

theorem World.quiet_stop (w : World) (pid : Pid) : w.Quiet { w with runtime := w.runtime.stop pid } := by
  unfold Runtime.stop
  split
  · exact .of_eq rfl rfl rfl rfl
  · refine ⟨rfl, ?_, rfl, List.length_modify _ _ _⟩
    intro other id found
    by_cases same : other = pid
    · rw [same, AList.lookup_erase] at found
      cases found
    · rwa [AList.lookup_erase_ne same] at found

theorem ambient_quiet {w later : World} {operation : Operation} (done : lifecycle.ambient w operation = some later) :
    w.Quiet later := by
  cases operation with
  | stop pid =>
    cases done
    exact w.quiet_stop pid
  | send pid message =>
    cases done
    exact w.quiet_send pid message
  | register owner registration =>
    obtain ⟨s, -, rfl⟩ := Option.map_eq_some_iff.mp done
    exact w.quiet_setSupervisor owner _
  | link a b =>
    cases done
    exact w.quiet_setSupervisor none _

theorem roster_restarts (life : Life) (workers : List Worker) :
    Roster.of (life :: workers.filterMap Life.ofWorker) = Roster.of [life] := by
  have inert : ∀ field : Life → Option (Pid × Nat), (∀ owner restart, field (.restart owner restart) = none) →
      (workers.filterMap Life.ofWorker).filterMap field = [] := by
    intro field nothing
    rw [List.filterMap_eq_nil_iff]
    intro other member
    obtain ⟨worker, -, found⟩ := List.mem_filterMap.mp member
    cases worker with
    | cleanup ending => cases found
    | restart owner restart =>
      cases found
      exact nothing owner restart
  simp only [Roster.of, List.filterMap_cons, inert Life.holds (fun _ _ => rfl), inert Life.feeds (fun _ _ => rfl),
    inert Life.left (fun _ _ => rfl), List.filterMap_nil]

theorem Cleanup.step_effect {w : World} {id : Nat} {ending : Cleanup} {stage : CleanupStage} {runtime : Runtime}
    {workers : List Worker} (steps : ending.Steps w.runtime ending.stage runtime stage workers) :
    Effect w { w with runtime } (Roster.of [.ending id ending]) (Roster.of [.ending id { ending with stage }]) := by
  rcases ending with ⟨pid, reason, metadata, before⟩
  cases steps with
  | closed => exact .close rfl
  | deallocated => exact .deallocate rfl
  | sent => exact .quiet (w.quiet_send _ _)
  | _ => exact .quiet (.of_eq rfl rfl rfl rfl)

theorem Life.step_effect {w later : World} {life next : Life} {new : List Life} (steps : life.Steps w later next new) :
    Effect w later (Roster.of [life]) (Roster.of (next :: new)) := by
  cases steps with
  | spawned spawn =>
    obtain ⟨slab, allocated, number, rfl⟩ := World.spawnActor_eq_some spawn
    exact .spawn allocated number rfl
  | received => exact .quiet (w.quiet_modifyMailbox _ _)
  | exited => exact .quiet (w.quiet_modifyMailbox _ _)
  | cleaned steps =>
    rw [roster_restarts]
    exact Cleanup.step_effect steps
  | restarted present steps => exact .quiet (w.quiet_setSupervisor _ _)
  | @respawned owner restart next s later middle pid id calls spawn present stepped =>
    obtain ⟨slab, allocated, number, rfl⟩ := World.spawnActor_eq_some spawn
    cases owner with
    | none => exact .spawn allocated number rfl
    | some index => exact .spawn allocated number rfl

theorem World.newest_cons (runtime : Runtime) (spawned : List (Pid × Nat)) (entry : Pid × Nat) (pid : Pid) :
    (World.mk runtime (entry :: spawned)).newest pid =
      if entry.1 = pid then some entry.2 else (World.mk runtime spawned).newest pid := by
  simp only [newest, List.find?_cons]
  by_cases same : entry.1 = pid
  · simp [same]
  · simp [same]

theorem World.mem_of_newest {w : World} {pid : Pid} {id : Nat} (newest : w.newest pid = some id) :
    (pid, id) ∈ w.spawned := by
  obtain ⟨⟨other, number⟩, found, rfl⟩ := Option.map_eq_some_iff.mp newest
  have mine := List.find?_some found
  dsimp only at mine
  rw [← of_decide_eq_true mine]
  exact List.mem_of_find?_eq_some found

/-- Every occupied slot belongs to one actor, the newest under its pid, and
    every sender in the table to one of them. An actor that has given its slot
    back finds its pid valid only after a newer actor got it. -/
structure Addressed (w : World) (roster : Roster) : Prop where
  distinct : (roster.holders.map Prod.fst).Nodup
  valid : ∀ entry ∈ roster.holders, w.runtime.slab.isValid entry.1 = true
  recent : ∀ entry ∈ roster.holders, w.newest entry.1 = some entry.2
  keys : ∀ pid id, w.runtime.mailboxes.lookup pid = some id → (pid, id) ∈ roster.feeders
  left : ∀ entry ∈ roster.left, entry.2 < w.runtime.actors.length ∧
    (w.runtime.slab.isValid entry.1 = true → ∃ id, entry.2 < id ∧ w.newest entry.1 = some id)
  numbered : ∀ entry ∈ w.spawned, entry.2 < w.runtime.actors.length
  unique : (w.spawned.map Prod.snd).Nodup

namespace Addressed

variable {w : World} {roster rest : Roster}

theorem perm {other : Roster} (addressed : Addressed w roster) (perm : roster.Perm other) : Addressed w other := by
  obtain ⟨distinct, valid, recent, keys, left, numbered, unique⟩ := addressed
  refine ⟨(perm.holders.map _).nodup_iff.mp distinct, ?_, ?_, ?_, ?_, numbered, unique⟩
  · exact fun entry member => valid entry (perm.holders.mem_iff.mpr member)
  · exact fun entry member => recent entry (perm.holders.mem_iff.mpr member)
  · exact fun pid id found => perm.feeders.mem_iff.mp (keys pid id found)
  · exact fun entry member => left entry (perm.left.mem_iff.mpr member)

theorem quiet {later : World} (addressed : Addressed w roster) (quiet : w.Quiet later) : Addressed later roster := by
  obtain ⟨slab, mailboxes, spawned, actors⟩ := quiet
  have newest : later.newest = w.newest := by
    funext pid
    rw [World.newest, World.newest, spawned]
  obtain ⟨distinct, valid, recent, keys, left, numbered, unique⟩ := addressed
  refine ⟨distinct, ?_, ?_, ?_, ?_, ?_, ?_⟩
  · rwa [slab]
  · rwa [newest]
  · exact fun pid id found => keys pid id (mailboxes pid id found)
  · rwa [slab, actors, newest]
  · rwa [spawned, actors]
  · rwa [spawned]

theorem spawn {pid : Pid} {slab : SlabAllocator} {s : Supervisor} {paths : List Supervisor}
    (addressed : Addressed w rest) (wf : w.runtime.slab.WellFormed)
    (allocated : w.runtime.slab.allocate = some (pid, slab)) (bound : slab.entries.length ≤ 2^32) :
    Addressed ⟨⟨slab, w.runtime.mailboxes.insert pid w.runtime.actors.length, w.runtime.actors ++ [.channel], s, paths⟩,
      (pid, w.runtime.actors.length) :: w.spawned⟩
      (Roster.append ⟨[(pid, w.runtime.actors.length)], [(pid, w.runtime.actors.length)], []⟩ rest) := by
  obtain ⟨stale, live⟩ := wf.isValid_allocate allocated bound
  obtain ⟨distinct, valid, recent, keys, left, numbered, unique⟩ := addressed
  have others : ∀ entry ∈ rest.holders, pid ≠ entry.1 := by
    rintro entry member rfl
    rw [valid entry member] at stale
    cases stale
  have length : (w.runtime.actors ++ [Mailbox.channel]).length = w.runtime.actors.length + 1 := by simp
  refine ⟨?_, ?_, ?_, ?_, ?_, ?_, ?_⟩
  · refine List.nodup_cons.mpr ⟨?_, distinct⟩
    intro member
    obtain ⟨entry, present, same⟩ := List.mem_map.mp member
    exact others entry present same.symm
  · intro entry member
    rw [live]
    rcases List.mem_cons.mp member with rfl | member
    · exact .inl rfl
    · exact .inr (valid entry member)
  · intro entry member
    rw [World.newest_cons]
    rcases List.mem_cons.mp member with rfl | member
    · exact if_pos rfl
    · rw [if_neg (others entry member)]
      exact recent entry member
  · intro other id found
    by_cases same : other = pid
    · subst same
      rw [AList.lookup_insert] at found
      cases found
      exact List.mem_cons_self
    · rw [AList.lookup_insert_ne same] at found
      exact List.mem_cons_of_mem _ (keys other id found)
  · intro entry member
    obtain ⟨small, newer⟩ := left entry member
    refine ⟨by rw [length]; omega, fun valid => ?_⟩
    rw [World.newest_cons]
    by_cases same : pid = entry.1
    · exact ⟨_, small, if_pos same⟩
    · rw [if_neg same]
      rcases (live entry.1).mp valid with again | before
      · exact absurd again.symm same
      · exact newer before
  · intro entry member
    rw [length]
    rcases List.mem_cons.mp member with rfl | member
    · exact Nat.lt_succ_self _
    · exact Nat.lt_succ_of_lt (numbered entry member)
  · refine List.nodup_cons.mpr ⟨?_, unique⟩
    intro member
    obtain ⟨entry, present, same⟩ := List.mem_map.mp member
    have small := numbered entry present
    omega

theorem close {pid : Pid} {id : Nat} {holders left : List (Pid × Nat)}
    (addressed : Addressed w (Roster.append ⟨holders, [(pid, id)], left⟩ rest)) :
    Addressed { w with runtime := { w.runtime with mailboxes := w.runtime.mailboxes.erase pid } }
      (Roster.append ⟨holders, [], left⟩ rest) := by
  obtain ⟨distinct, valid, recent, keys, left, numbered, unique⟩ := addressed
  refine ⟨distinct, valid, recent, ?_, left, numbered, unique⟩
  intro other number found
  by_cases same : other = pid
  · rw [same, AList.lookup_erase] at found
    cases found
  · rw [AList.lookup_erase_ne same] at found
    rcases List.mem_cons.mp (keys other number found) with mine | member
    · cases mine
      exact absurd rfl same
    · exact member

theorem deallocate {pid : Pid} {id : Nat} (addressed : Addressed w (Roster.append ⟨[(pid, id)], [], []⟩ rest)) :
    Addressed { w with runtime := { w.runtime with slab := (w.runtime.slab.deallocate pid).2 } }
      (Roster.append ⟨[], [], [(pid, id)]⟩ rest) := by
  obtain ⟨distinct, valid, recent, keys, left, numbered, unique⟩ := addressed
  have mine := valid (pid, id) List.mem_cons_self
  have live := fun other => SlabAllocator.isValid_deallocate w.runtime.slab pid other mine
  obtain ⟨alone, distinct⟩ := List.nodup_cons.mp distinct
  have others : ∀ entry ∈ rest.holders, entry.1 ≠ pid := by
    intro entry member same
    exact alone (List.mem_map.mpr ⟨entry, member, same⟩)
  refine ⟨distinct, ?_, ?_, keys, ?_, numbered, unique⟩
  · intro entry member
    rw [live]
    exact ⟨others entry member, valid entry (List.mem_cons_of_mem _ member)⟩
  · exact fun entry member => recent entry (List.mem_cons_of_mem _ member)
  · intro entry member
    rcases List.mem_cons.mp member with rfl | member
    · refine ⟨numbered _ (World.mem_of_newest (recent _ List.mem_cons_self)), fun valid => ?_⟩
      exact absurd rfl ((live pid).mp valid).1
    · obtain ⟨small, newer⟩ := left entry member
      exact ⟨small, fun valid => newer ((live entry.1).mp valid).2⟩

theorem effect {later : World} {other : Roster} (addressed : Addressed w (roster.append rest))
    (wf : w.runtime.slab.WellFormed) (bound : later.runtime.slab.entries.length ≤ 2^32)
    (effect : Effect w later roster other) : Addressed later (other.append rest) := by
  cases effect with
  | quiet quiet => exact addressed.quiet quiet
  | spawn allocated number effect =>
    subst number effect
    exact addressed.spawn wf allocated bound
  | close effect =>
    subst effect
    exact addressed.close
  | deallocate effect =>
    subst effect
    exact addressed.deallocate

end Addressed

theorem Effect.slab {w later : World} {roster other : Roster} (effect : Effect w later roster other)
    (wf : w.runtime.slab.WellFormed) : later.runtime.slab.WellFormed ∧
      w.runtime.slab.entries.length ≤ later.runtime.slab.entries.length := by
  cases effect with
  | quiet quiet =>
    rw [quiet.slab]
    exact ⟨wf, Nat.le_refl _⟩
  | spawn allocated number effect =>
    subst effect
    exact ⟨wf.allocate allocated, SlabAllocator.allocate_length_le wf allocated⟩
  | close effect =>
    subst effect
    exact ⟨wf, Nat.le_refl _⟩
  | deallocate effect =>
    subst effect
    refine ⟨wf.deallocate _, ?_⟩
    dsimp only
    rw [SlabAllocator.deallocate_length]

structure Consistent (c : Config World Life) : Prop where
  wellFormed : c.shared.runtime.slab.WellFormed
  addressed : c.shared.runtime.slab.entries.length ≤ 2^32 → Addressed c.shared (Roster.of c.threads)

theorem Consistent.move {c d : Config World Life} {move : Move Life Fate Operation} (consistent : Consistent c)
    (moves : lifecycle.Moves c move d) : Consistent d := by
  cases moves with
  | @start shared threads life allowed =>
    have spawning : life = .spawning := of_decide_eq_true allowed
    refine ⟨consistent.wellFormed, fun bound => ?_⟩
    have same : Roster.of (threads ++ [life]) = Roster.of threads := by
      rw [spawning, Roster.of_append, show Roster.of [.spawning] = ⟨[], [], []⟩ from rfl]
      simp [Roster.append, Roster.of]
    rw [same]
    exact consistent.addressed bound
  | @step shared later before after new life next fate stepped =>
    have effect := Life.step_effect (Life.steps_of_step stepped)
    obtain ⟨wf, grows⟩ := effect.slab consistent.wellFormed
    refine ⟨wf, fun bound => ?_⟩
    have addressed := (consistent.addressed (Nat.le_trans grows bound)).perm (Roster.perm_split before after life)
    exact (addressed.effect consistent.wellFormed bound effect).perm (Roster.perm_moved before after new next)
  | @ambient shared later threads operation done =>
    have quiet := ambient_quiet done
    constructor
    · rw [quiet.slab]
      exact consistent.wellFormed
    · intro bound
      rw [quiet.slab] at bound
      exact (consistent.addressed bound).quiet quiet

def World.new (supervisor : Supervisor) (pathSupervisors : List Supervisor) : World :=
  ⟨.new supervisor pathSupervisors, []⟩

theorem consistent_start (supervisor : Supervisor) (pathSupervisors : List Supervisor) :
    Consistent ⟨.new supervisor pathSupervisors, []⟩ := by
  refine ⟨SlabAllocator.new_wellFormed, fun _ => ?_⟩
  refine ⟨List.nodup_nil, ?_, ?_, ?_, ?_, ?_, List.nodup_nil⟩
  · exact fun entry member => absurd member List.not_mem_nil
  · exact fun entry member => absurd member List.not_mem_nil
  · intro pid id found
    have absent : (World.new supervisor pathSupervisors).runtime.mailboxes.lookup pid = none := AList.lookup_empty pid
    cases absent.symm.trans found
  · exact fun entry member => absurd member List.not_mem_nil
  · exact fun entry member => absurd member List.not_mem_nil

theorem consistent_of_run {supervisor : Supervisor} {pathSupervisors : List Supervisor}
    {moves : List (Move Life Fate Operation)} {d : Config World Life}
    (reached : lifecycle.machine.run ⟨.new supervisor pathSupervisors, []⟩ moves = some d) : Consistent d :=
  lifecycle.machine.run_invariant (fun _ _ _ consistent taken => consistent.move (lifecycle.moves_of_step taken))
    (consistent_start supervisor pathSupervisors) reached

theorem Roster.holders_of_feeders {lives : List Life} {entry : Pid × Nat} (member : entry ∈ (of lives).feeders) :
    entry ∈ (of lives).holders := by
  obtain ⟨life, present, feeds⟩ := List.mem_filterMap.mp member
  refine List.mem_filterMap.mpr ⟨life, present, ?_⟩
  cases life with
  | spawning => cases feeds
  | running pid id => exact feeds
  | ending id cleanup =>
    simp only [Life.feeds] at feeds
    split at feeds
    · rename_i stage
      simp [Life.holds, Cleanup.deallocated, stage, Option.some.inj feeds]
    · cases feeds
  | restart owner task => cases feeds

/-- The message is in the mailbox once more than before. -/
def Mailbox.Gains (before after : Mailbox) : Message → Prop
  | .user bytes =>
    after.user.queue = before.user.queue ++ [bytes] ∧ after.sys = before.sys ∧ after.stash = before.stash
  | .system message =>
    after.sys.queue = before.sys.queue ++ [message] ∧ after.user = before.user ∧ after.stash = before.stash

theorem Mailbox.gains_of_send {before after : Mailbox} {message : Message}
    (sent : before.send message = (.ok (), after)) : before.Gains after message := by
  cases message with
  | user bytes =>
    cases alive : before.user.receiverAlive with
    | false => simp [send, Data.Channel.send, alive] at sent
    | true =>
      simp only [send, Data.Channel.send, alive, if_true] at sent
      cases sent
      exact ⟨rfl, rfl, rfl⟩
  | system message =>
    cases alive : before.sys.receiverAlive with
    | false => simp [send, Data.Channel.send, alive] at sent
    | true =>
      simp only [send, Data.Channel.send, alive, if_true] at sent
      cases sent
      exact ⟨rfl, rfl, rfl⟩

theorem Runtime.send_eq_ok {rt later : Runtime} {pid : Pid} {message : Message}
    (sent : rt.send pid message = (.ok (), later)) :
    ∃ id before after, rt.mailboxes.lookup pid = some id ∧ rt.actors[id]? = some before ∧
      before.Gains after message ∧ later = { rt with actors := rt.actors.set id after } := by
  unfold Runtime.send at sent
  split at sent
  · cases sent
  · rename_i id mailbox found
    obtain ⟨target, lookup, there⟩ := Option.bind_eq_some_iff.mp found
    obtain ⟨before, present, same⟩ := Option.map_eq_some_iff.mp there
    cases same
    cases outcome : mailbox.send message with
    | mk result after =>
      rw [outcome] at sent
      cases sent
      exact ⟨_, mailbox, after, lookup, present, Mailbox.gains_of_send outcome, rfl⟩

/-- Messages reach the actor that their sender means. `newest` is the mailbox of
    the most recent actor under a pid. -/
structure WellAddressed (c : Config World Life) : Prop where
  key : ∀ pid id, c.shared.runtime.mailboxes.lookup pid = some id →
    c.shared.runtime.slab.isValid pid = true ∧ c.shared.newest pid = some id
  send : ∀ pid message later, c.shared.runtime.send pid message = (.ok (), later) →
    ∃ id before after, c.shared.newest pid = some id ∧ c.shared.runtime.actors[id]? = some before ∧
      before.Gains after message ∧
      later = { c.shared.runtime with actors := c.shared.runtime.actors.set id after } ∧
      ∀ entry ∈ c.shared.spawned, entry.1 ≠ pid → later.actors[entry.2]? = c.shared.runtime.actors[entry.2]?
  exit : ∀ id ending peer todo, Life.ending id ending ∈ c.threads → ending.stage = .send (peer :: todo) →
    (c.shared.runtime.slab.isValid ending.pid = false ∧ ending.pid ∉ c.shared.runtime.mailboxes) ∨
      ∃ newer, id < newer ∧ c.shared.newest ending.pid = some newer

theorem Addressed.key {c : Config World Life} (addressed : Addressed c.shared (Roster.of c.threads)) {pid : Pid}
    {id : Nat} (found : c.shared.runtime.mailboxes.lookup pid = some id) :
    c.shared.runtime.slab.isValid pid = true ∧ c.shared.newest pid = some id := by
  have holder := Roster.holders_of_feeders (addressed.keys pid id found)
  exact ⟨addressed.valid _ holder, addressed.recent _ holder⟩

theorem Addressed.number_ne {w : World} {roster : Roster} (addressed : Addressed w roster) {pid : Pid} {id : Nat}
    (newest : w.newest pid = some id) {entry : Pid × Nat} (member : entry ∈ w.spawned) (other : entry.1 ≠ pid) :
    entry.2 ≠ id := by
  intro same
  have equal := List.inj_on_of_nodup_map addressed.unique member (World.mem_of_newest newest) same
  exact other (congrArg Prod.fst equal)

/-- In every state of every interleaving of spawns, stops, sends and clean-ups,
    no message can go to another actor than the one its pid stands for. -/
theorem lifecycle_wellAddressed {supervisor : Supervisor} {pathSupervisors : List Supervisor}
    {moves : List (Move Life Fate Operation)} {d : Config World Life}
    (reached : lifecycle.machine.run ⟨.new supervisor pathSupervisors, []⟩ moves = some d)
    (bound : d.shared.runtime.slab.entries.length ≤ 2^32) : WellAddressed d := by
  have addressed := (consistent_of_run reached).addressed bound
  constructor
  · exact fun pid id found => addressed.key found
  · intro pid message later sent
    obtain ⟨id, before, after, found, present, gains, rfl⟩ := Runtime.send_eq_ok sent
    have newest := (addressed.key found).2
    refine ⟨id, before, after, newest, present, gains, rfl, ?_⟩
    intro entry member other
    exact List.getElem?_set_ne (Ne.symm (addressed.number_ne newest member other))
  · intro id ending peer todo member stage
    have entry : (ending.pid, id) ∈ (Roster.of d.threads).left := by
      refine List.mem_filterMap.mpr ⟨_, member, ?_⟩
      simp [Life.left, Cleanup.deallocated, stage]
    obtain ⟨-, newer⟩ := addressed.left _ entry
    cases valid : d.shared.runtime.slab.isValid ending.pid with
    | true => exact .inr (newer valid)
    | false =>
      left
      refine ⟨rfl, fun key => ?_⟩
      obtain ⟨number, found⟩ := Option.isSome_iff_exists.mp (AList.lookup_isSome.mpr key)
      rw [(addressed.key found).1] at valid
      cases valid

/-- Two linked actors; the first exits and is about to signal the second, while
    a third one has taken its slot. -/
def slotReused : List (Move Life Fate Operation) :=
  let first : Pid := makePid 0 1
  let second : Pid := makePid 1 1
  let fate : Fate := ⟨.exit .normal none, .spawned, []⟩
  [.start .spawning, .step 0 fate, .start .spawning, .step 1 fate, .ambient (.link first second),
    .ambient (.send first (.user [7])), .step 0 fate, .step 0 fate, .step 0 fate, .step 0 fate, .step 0 fate,
    .step 0 fate, .step 0 fate, .step 0 fate, .start .spawning, .step 2 fate, .step 0 fate, .step 0 fate, .step 0 fate]

theorem lifecycle_wellAddressed_reused :
    (lifecycle.machine.run ⟨.new .new [], []⟩ slotReused).isSome = true ∧
    ∀ d, lifecycle.machine.run ⟨.new .new [], []⟩ slotReused = some d → WellAddressed d := by
  refine ⟨by decide +kernel, fun d reached => lifecycle_wellAddressed reached ?_⟩
  have slots : (lifecycle.machine.run ⟨.new .new [], []⟩ slotReused).map
      (fun d => d.shared.runtime.slab.entries.length) = some 2 := by
    decide +kernel
  rw [reached, Option.map_some, Option.some.injEq] at slots
  rw [slots]
  decide

end Myrmidon
