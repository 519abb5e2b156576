import Myrmidon.Runtime.ExitSignal

namespace Myrmidon

open Slab Transition

/-- The call is about the pair of `p` and `b`, in either order. -/
def Pairing.About (p b : Pid) : Pairing → Prop
  | .link x y | .unlink x y => (x = p ∧ y = b) ∨ (x = b ∧ y = p)

instance (p b : Pid) : DecidablePred (Pairing.About p b)
  | .link x y => inferInstanceAs (Decidable ((x = p ∧ y = b) ∨ (x = b ∧ y = p)))
  | .unlink x y => inferInstanceAs (Decidable ((x = p ∧ y = b) ∨ (x = b ∧ y = p)))

/-- How often the pair has been linked since it was last unlinked. -/
def Pairing.count (p b : Pid) (times : Nat) (call : Pairing) : Nat :=
  if call.About p b then
    match call with
    | .link _ _ => times + 1
    | .unlink _ _ => 0
  else times

def linkedTimes (p b : Pid) (calls : List Pairing) : Nat := calls.foldl (Pairing.count p b) 0

/-- `link` has been called for the pair, with no later `unlink`. -/
def LinkedBy (p b : Pid) (calls : List Pairing) : Prop :=
  ∃ before x y after, calls = before ++ .link x y :: after ∧ (Pairing.link x y).About p b ∧
    ∀ x y, (Pairing.unlink x y).About p b → .unlink x y ∉ after

theorem linkedTimes_concat (p b : Pid) (calls : List Pairing) (call : Pairing) :
    linkedTimes p b (calls ++ [call]) = call.count p b (linkedTimes p b calls) := by
  simp [linkedTimes]

/-- The last call decides, unless it is about another pair. -/
theorem linkedBy_concat (p b : Pid) (calls : List Pairing) (call : Pairing) : LinkedBy p b (calls ++ [call]) ↔
    (call.About p b ∧ ∃ x y, call = .link x y) ∨ (¬ call.About p b ∧ LinkedBy p b calls) := by
  constructor
  · rintro ⟨before, x, y, after, split, about, kept⟩
    rcases List.eq_nil_or_concat after with rfl | ⟨rest, last, rfl⟩
    · obtain ⟨-, same⟩ := List.append_inj' split rfl
      cases same
      exact .inl ⟨about, x, y, rfl⟩
    · have grouped : calls ++ [call] = (before ++ .link x y :: rest) ++ [last] := by simpa using split
      obtain ⟨rfl, same⟩ := List.append_inj' grouped rfl
      cases same
      have earlier : LinkedBy p b (before ++ .link x y :: rest) :=
        ⟨before, x, y, rest, rfl, about, fun x y mine member => kept x y mine (by simp [member])⟩
      by_cases mine : call.About p b
      · cases call with
        | link x y => exact .inl ⟨mine, x, y, rfl⟩
        | unlink x y => exact absurd (by simp) (kept x y mine)
      · exact .inr ⟨mine, earlier⟩
  · rintro (⟨about, x, y, rfl⟩ | ⟨foreign, before, x, y, after, rfl, about, kept⟩)
    · exact ⟨calls, x, y, [], rfl, about, by simp⟩
    · refine ⟨before, x, y, after ++ [call], by simp, about, fun x y mine member => ?_⟩
      rcases List.mem_append.mp member with early | late
      · exact kept x y mine early
      · rw [List.mem_singleton] at late
        exact foreign (late ▸ mine)

theorem linkedTimes_pos (p b : Pid) (calls : List Pairing) : 0 < linkedTimes p b calls ↔ LinkedBy p b calls := by
  induction calls using List.reverseRecOn with
  | nil =>
    refine iff_of_false (Nat.lt_irrefl 0) ?_
    rintro ⟨before, x, y, after, split, -⟩
    simp at split
  | append_singleton calls call ih =>
    rw [linkedTimes_concat, linkedBy_concat]
    by_cases about : call.About p b
    · cases call with
      | link x y => simp [Pairing.count, about]
      | unlink x y => simp [Pairing.count, about]
    · simp [Pairing.count, about, ih]

theorem linkCount_apply (s : Supervisor) {p b : Pid} (apart : b ≠ p) (call : Pairing) :
    (call.apply s).linkCount p b = call.count p b (s.linkCount p b) := by
  cases call with
  | link x y =>
    rw [Pairing.apply, Supervisor.linkCount_link]
    by_cases first : x = p ∧ y = b
    · simp [Pairing.count, Pairing.About, first, apart]
    · by_cases second : x = b ∧ y = p
      · simp [Pairing.count, Pairing.About, second, apart]
      · have other : ¬ (p = x ∧ b = y) := fun both => first ⟨both.1.symm, both.2.symm⟩
        have swapped : ¬ (p = y ∧ b = x) := fun both => second ⟨both.2.symm, both.1.symm⟩
        simp [Pairing.count, Pairing.About, first, second, other, swapped]
  | unlink x y =>
    rw [Pairing.apply, Supervisor.linkCount_unlink]
    have about : ((p = x ∧ b = y) ∨ (p = y ∧ b = x)) ↔ (Pairing.unlink x y).About p b := by
      simp only [Pairing.About, @eq_comm Pid p, @eq_comm Pid b, and_comm]
    by_cases mine : (Pairing.unlink x y).About p b
    · simp [Pairing.count, mine, about]
    · simp [Pairing.count, mine, about]

theorem linkCount_history (start : Supervisor) {p b : Pid} (apart : b ≠ p) (calls : List Pairing)
    (empty : start.links = ∅) : (calls.foldl Pairing.apply start).linkCount p b = linkedTimes p b calls := by
  induction calls using List.reverseRecOn with
  | nil =>
    rw [List.foldl_nil, Supervisor.linkCount, empty, AList.lookup_empty]
    rfl
  | append_singleton calls call ih =>
    rw [List.foldl_append, linkedTimes_concat, ← ih]
    exact linkCount_apply _ apart call

/-- A `notify_exit` call that finds no child. -/
def Notify.Futile (p : Pid) (call : Notify) : Prop :=
  call.pid = p ∧ call.stage ∈ [NotifyStage.flag, .lookup, .unflag, .returned]

def Worker.Quiet (p : Pid) : Worker → Prop
  | .cleanup ending => ending.pid = p ∧ ∀ call, ending.stage = .notify call → call.Futile p
  | .restart none _ => False
  | .restart (some _) _ => True

/-- `p` is no child of the global supervisor, so its exit starts no restart there. -/
structure Unsupervised (p : Pid) (c : Config Runtime Worker) : Prop where
  absent : c.shared.supervisor.children.lookup p = none
  workers : ∀ worker ∈ c.threads, worker.Quiet p
  first : ∃ ending rest, c.threads = .cleanup ending :: rest ∧ (∀ worker ∈ rest, worker.isRestart = true) ∧
    ending.Placed c.shared.pathSupervisors.length

theorem Notify.Futile.step {p : Pid} {s later : Supervisor} {call next : Notify} {tasks : List Task}
    (futile : call.Futile p) (absent : s.children.lookup p = none) (steps : call.Steps s later next tasks) :
    later.children = s.children ∧ tasks = [] ∧ next.Futile p := by
  obtain ⟨own, quiet⟩ := futile
  cases steps with
  | ignored busy => exact ⟨rfl, rfl, own, by simp⟩
  | flagged free => exact ⟨rfl, rfl, own, by simp⟩
  | unknown none => exact ⟨rfl, rfl, own, by simp⟩
  | unflagged => exact ⟨rfl, rfl, own, by simp⟩
  | foundAll found all =>
    cases own
    cases absent.symm.trans found
  | foundOne found one =>
    cases own
    cases absent.symm.trans found
  | _ => simp at quiet

theorem Runtime.send_supervisors (rt : Runtime) (pid : Pid) (message : Message) :
    (rt.send pid message).2.supervisor = rt.supervisor ∧
      (rt.send pid message).2.pathSupervisors = rt.pathSupervisors := by
  unfold Runtime.send
  split <;> exact ⟨rfl, rfl⟩

theorem Cleanup.step_quiet {p : Pid} {rt later : Runtime} {ending next : Cleanup} {order : List Pid}
    {new : List Worker} (quiet : (Worker.cleanup ending).Quiet p) (absent : rt.supervisor.children.lookup p = none)
    (stepped : ending.step rt order = some (later, next, new)) :
    later.supervisor.children.lookup p = none ∧ (Worker.cleanup next).Quiet p ∧ ∀ worker ∈ new, worker.Quiet p := by
  obtain ⟨stage, rfl, steps⟩ := Cleanup.steps_of_step stepped
  obtain ⟨pid, reason, metadata, before⟩ := ending
  obtain ⟨own, futile⟩ := quiet
  have none : ∀ worker ∈ ([] : List Worker), worker.Quiet p := by simp
  cases steps with
  | closed =>
    refine ⟨absent, ⟨own, fun call same => ?_⟩, none⟩
    cases same
    exact ⟨own, by simp [Notify.new]⟩
  | notifying steps =>
    obtain ⟨children, rfl, still⟩ := (futile _ rfl).step absent steps
    refine ⟨children ▸ absent, ⟨own, fun call same => ?_⟩, none⟩
    cases same
    exact still
  | pathNotifying present steps =>
    refine ⟨absent, ⟨own, fun call same => by cases same⟩, fun worker member => ?_⟩
    obtain ⟨task, -, rfl⟩ := List.mem_map.mp member
    trivial
  | retained =>
    refine ⟨?_, ⟨own, fun call same => by cases same⟩, none⟩
    rw [Supervisor.forget_children]
    exact absent
  | @sent todo peer =>
    refine ⟨?_, ⟨own, fun call same => by cases same⟩, none⟩
    rw [(Runtime.send_supervisors _ _ _).1]
    exact absent
  | _ => exact ⟨absent, ⟨own, fun call same => by cases same⟩, none⟩

theorem Worker.Quiet.step {p : Pid} {rt later : Runtime} {worker next : Worker} {result : Except String Pid}
    {order : List Pid} {new : List Worker} (quiet : worker.Quiet p) (absent : rt.supervisor.children.lookup p = none)
    (stepped : worker.step rt result order = some (later, next, new)) :
    later.supervisor.children.lookup p = none ∧ next.Quiet p ∧ ∀ worker ∈ new, worker.Quiet p := by
  cases worker with
  | cleanup ending =>
    obtain ⟨⟨later, ending, workers⟩, done, same⟩ := Option.map_eq_some_iff.mp stepped
    cases same
    exact Cleanup.step_quiet quiet absent done
  | restart owner task =>
    cases owner with
    | none => exact quiet.elim
    | some index =>
      simp only [Worker.step] at stepped
      split at stepped
      · cases stepped
      · obtain ⟨⟨supervisor, task⟩, done, same⟩ := Option.map_eq_some_iff.mp stepped
        cases same
        exact ⟨absent, trivial, by simp⟩

theorem Unsupervised.move {p : Pid} {c d : Config Runtime Worker}
    {move : Move Worker (Except String Pid × List Pid) Empty} (unsupervised : Unsupervised p c)
    (moves : exitCleanup.Moves c move d) : Unsupervised p d := by
  obtain ⟨shared, threads⟩ := c
  obtain ⟨absent, workers, ending, rest, rfl, others, placed⟩ := unsupervised
  obtain ⟨mine, others'⟩ := List.forall_mem_cons.mp workers
  cases Cleanup.leads_of_moves rfl others placed moves with
  | @own later next new outside stepped restarts inside =>
    obtain ⟨still, moved, fresh⟩ := Cleanup.step_quiet mine absent stepped
    refine ⟨still, ?_, next, rest ++ new, rfl, restarts, inside⟩
    exact List.forall_mem_cons.mpr ⟨moved, List.forall_mem_append.mpr ⟨others', fresh⟩⟩
  | @restarting later before after owner task next outside split stepped restarts inside =>
    subst split
    have quiet := others' _ (List.mem_append_right _ List.mem_cons_self)
    obtain ⟨still, moved, -⟩ := quiet.step absent stepped
    refine ⟨still, ?_, ending, before ++ next :: after, rfl, restarts, inside⟩
    exact List.forall_mem_cons.mpr ⟨mine, Program.forall_replace others' moved⟩

theorem Unsupervised.linkKept {p b : Pid} {c : Config Runtime Worker} (unsupervised : Unsupervised p c)
    (move : Move Worker (Except String Pid × List Pid) Empty) : LinkKept p b c move := by
  cases move with
  | start worker => trivial
  | ambient operation => trivial
  | step index outside =>
    intro worker found unlinks
    have quiet := unsupervised.workers worker (List.mem_of_getElem? found)
    cases worker with
    | cleanup ending => cases unlinks
    | restart owner task =>
      cases owner with
      | none => exact quiet.elim
      | some index => cases unlinks

theorem Unsupervised.completes {p : Pid} {c : Config Runtime Worker} (unsupervised : Unsupervised p c) :
    ∃ moves d, exitCleanup.machine.run c moves = some d ∧ CleanedUp d := by
  obtain ⟨shared, threads⟩ := c
  obtain ⟨-, -, ending, rest, rfl, -, placed⟩ := unsupervised
  exact placed.completes rest

theorem unsupervised_start {rt : Runtime} {p : Pid} (absent : p ∉ rt.supervisor.children) (reason : ExitReason)
    (metadata : Option String) : Unsupervised p ⟨rt, [.cleanup (.new p reason metadata)]⟩ := by
  refine ⟨AList.lookup_eq_none.mpr absent, ?_, _, [], rfl, List.forall_mem_nil _, trivial⟩
  rw [List.forall_mem_singleton]
  exact ⟨rfl, fun call same => by cases same⟩

/-- The clean-up of an unsupervised `p` can always be completed. A live peer
    then has as many exit signals as the pair was linked since it was last
    unlinked; so linked peers have one each, and others none, exactly if no
    live peer was linked twice. -/
theorem peers_told_once_iff {rt : Runtime} {start : Supervisor} {calls : List Pairing} {p : Pid}
    (empty : start.links = ∅) (history : rt.supervisor = calls.foldl Pairing.apply start)
    (unsupervised : p ∉ rt.supervisor.children) (reason : ExitReason) (metadata : Option String)
    {moves : List (Move Worker (Except String Pid × List Pid) Empty)} {d : Config Runtime Worker}
    (reached : exitCleanup.machine.run ⟨rt, [.cleanup (.new p reason metadata)]⟩ moves = some d) :
    (∃ more e, exitCleanup.machine.run d more = some e ∧ CleanedUp e) ∧
    (CleanedUp d →
      (∀ b id, b ≠ p → OpenFor b id rt → d.shared.received id p = rt.received id p + linkedTimes p b calls) ∧
      ((∀ b id, b ≠ p → OpenFor b id rt →
          (LinkedBy p b calls → d.shared.received id p = rt.received id p + 1) ∧
          (¬ LinkedBy p b calls → d.shared.received id p = rt.received id p)) ↔
        ∀ b id, b ≠ p → OpenFor b id rt → linkedTimes p b calls ≤ 1)) := by
  have start := unsupervised_start unsupervised reason metadata
  have ends : Unsupervised p d := exitCleanup.machine.run_invariant
    (fun c move d quiet taken => quiet.move (exitCleanup.moves_of_step taken)) start reached
  refine ⟨ends.completes, fun finished => ?_⟩
  have count : ∀ b id, b ≠ p → OpenFor b id rt →
      d.shared.received id p = rt.received id p + linkedTimes p b calls := by
    intro b id apart opened
    have linked : rt.supervisor.linkCount p b = linkedTimes p b calls := by
      rw [history, linkCount_history _ apart calls empty]
    have tracks : Tracks p b id (rt.received id p) (linkedTimes p b calls) ⟨rt, [.cleanup (.new p reason metadata)]⟩ :=
      ⟨_, [], rfl, rfl, by simp, trivial, opened, fun _ => ⟨rfl, linked⟩, fun taken => by cases taken⟩
    have both := exitCleanup.machine.run_invariant
      (P := fun c => Unsupervised p c ∧ Tracks p b id (rt.received id p) (linkedTimes p b calls) c)
      (fun c move d held taken => ⟨held.1.move (exitCleanup.moves_of_step taken),
        (held.2.move (Ne.symm apart) (exitCleanup.moves_of_step taken)).1 (held.1.linkKept move)⟩)
      ⟨start, tracks⟩ reached
    exact both.2.received finished
  refine ⟨count, ?_⟩
  constructor
  · intro told b id apart opened
    have exact := count b id apart opened
    by_cases linked : LinkedBy p b calls
    · have once := (told b id apart opened).1 linked
      omega
    · have none := (told b id apart opened).2 linked
      omega
  · intro once b id apart opened
    have exact := count b id apart opened
    have most := once b id apart opened
    have positive := linkedTimes_pos p b calls
    constructor
    · intro linked
      have least := positive.mpr linked
      omega
    · intro unlinked
      have zero : ¬ 0 < linkedTimes p b calls := fun more => unlinked (positive.mp more)
      omega

/-- Two live actors, linked by these calls. -/
def pairedActors (calls : List Pairing) : Runtime :=
  { linkedPair with supervisor := calls.foldl Pairing.apply .new }

theorem pairedActors_open (calls : List Pairing) : OpenFor (makePid 1 1) 1 (pairedActors calls) :=
  ⟨linkedPair_open.sender, linkedPair_open.alone, linkedPair_open.receiver⟩

def relinked : List Pairing :=
  [.link (makePid 0 1) (makePid 1 1), .unlink (makePid 1 1) (makePid 0 1), .link (makePid 1 1) (makePid 0 1)]

theorem peers_told_once_iff_relinked : ∃ d,
    exitCleanup.machine.run ⟨pairedActors relinked, [.cleanup (.new (makePid 0 1) .normal none)]⟩ (cleanupSteps 12) =
      some d ∧ d.shared.received 1 (makePid 0 1) = 1 := by
  have finishes : (exitCleanup.machine.run ⟨pairedActors relinked, [.cleanup (.new (makePid 0 1) .normal none)]⟩
      (cleanupSteps 12)).map (fun d => d.threads.head?) =
        some (some (.cleanup ⟨makePid 0 1, .normal, none, .done⟩)) := by
    decide +kernel
  obtain ⟨d, reached, head⟩ := Option.map_eq_some_iff.mp finishes
  have told := (peers_told_once_iff rfl rfl (by decide +kernel) .normal none reached).2 ⟨_, List.mem_of_head? head, rfl⟩
  have count := told.1 (makePid 1 1) 1 (by decide +kernel) (pairedActors_open relinked)
  have once : linkedTimes (makePid 0 1) (makePid 1 1) relinked = 1 := by decide +kernel
  have before : (pairedActors relinked).received 1 (makePid 0 1) = 0 := rfl
  rw [once, before] at count
  exact ⟨d, reached, count⟩

def linkedTwice : List Pairing := [.link (makePid 0 1) (makePid 1 1), .link (makePid 1 1) (makePid 0 1)]

/-- A pair that is linked from both sides is told twice. -/
theorem linked_twice_told_twice :
    ¬ ∀ (rt : Runtime) (start : Supervisor) (calls : List Pairing) (p b : Pid) (id : Nat)
      (moves : List (Move Worker (Except String Pid × List Pid) Empty)) (d : Config Runtime Worker),
      start.links = ∅ → rt.supervisor = calls.foldl Pairing.apply start → p ∉ rt.supervisor.children → b ≠ p →
      OpenFor b id rt → LinkedBy p b calls →
      exitCleanup.machine.run ⟨rt, [.cleanup (.new p .normal none)]⟩ moves = some d → CleanedUp d →
      d.shared.received id p = rt.received id p + 1 := by
  intro once
  have told : (exitCleanup.machine.run ⟨pairedActors linkedTwice, [.cleanup (.new (makePid 0 1) .normal none)]⟩
      (cleanupSteps 14)).map (fun d => (d.threads.head?, d.shared.received 1 (makePid 0 1))) =
        some (some (.cleanup ⟨makePid 0 1, .normal, none, .done⟩), 2) := by
    decide +kernel
  obtain ⟨d, reached, both⟩ := Option.map_eq_some_iff.mp told
  obtain ⟨head, twice⟩ := Prod.mk.inj both
  have linked : LinkedBy (makePid 0 1) (makePid 1 1) linkedTwice := by
    rw [← linkedTimes_pos]
    decide +kernel
  have count := once (pairedActors linkedTwice) .new linkedTwice (makePid 0 1) (makePid 1 1) 1 _ d rfl rfl
    (by decide +kernel) (by decide +kernel) (pairedActors_open linkedTwice) linked reached
    ⟨_, List.mem_of_head? head, rfl⟩
  rw [twice] at count
  cases count

end Myrmidon
