import Myrmidon.Supervisor.Tokens

namespace Myrmidon

open Transition

/-- The restarts of one pid: at most one activity has set its flag, and there
    are at most `limit` tasks, past or due. A child that nobody is restarting
    has one left. -/
structure Balance (pid : Pid) (s : Supervisor) (limit : Nat) (w : Aspect → Nat) : Prop where
  single : w .holds ≤ 1
  flagged : 0 < w .holds → pid ∈ s.restarting
  paid : w .started + w .pending ≤ limit
  left : pid ∈ s.children → w .pending = 0 → w .unremoved = 0 → w .started < limit

/-- One step keeps the balance, if there is room for a restart of what it
    registers. `r` is the weight of the activities that do not move. -/
theorem Balance.shift {pid : Pid} {old new : Supervisor} {limit limit' : Nat} {r w v : Aspect → Nat}
    (rest : r .pending + r .unremoved ≤ r .holds) (own : w .pending + w .unremoved ≤ w .holds)
    (balance : Balance pid old limit fun aspect => r aspect + w aspect) (grows : limit ≤ limit')
    (room : old.registered.count pid < new.registered.count pid →
      r .started + w .started + (r .pending + w .pending) < limit')
    (shift : Shift pid old new w v) : Balance pid new limit' fun aspect => r aspect + v aspect := by
  obtain ⟨single, flagged, paid, left⟩ := balance
  cases shift with
  | keep same flags children registered =>
    subst same
    refine ⟨single, fun held => flags (flagged held), Nat.le_trans paid grows, ?_⟩
    intro child pending unremoved
    exact Nat.lt_of_lt_of_le (left (children child) pending unremoved) grows
  | insert same flags registered =>
    subst same
    have space := room (by omega)
    refine ⟨single, fun held => ?_, Nat.le_trans paid grows, fun _ _ _ => by omega⟩
    rw [flags]
    exact flagged held
  | flag free set holds others children registered =>
    have pending := others .pending (by decide)
    have unremoved := others .unremoved (by decide)
    have started := others .started (by decide)
    have nobody : ¬ 0 < r .holds + w .holds := fun held => free (flagged held)
    refine ⟨by omega, fun _ => set, by omega, ?_⟩
    rw [children, pending, unremoved, started]
    exact fun child first second => Nat.lt_of_lt_of_le (left child first second) grows
  | unflag cleared holds others children registered =>
    have pending := others .pending (by decide)
    have unremoved := others .unremoved (by decide)
    have started := others .started (by decide)
    refine ⟨by omega, fun held => by omega, by omega, ?_⟩
    rw [children, pending, unremoved, started]
    exact fun child first second => Nat.lt_of_lt_of_le (left child first second) grows
  | found held idle child pending others unchanged =>
    subst unchanged
    have holds := others .holds (by decide)
    have started := others .started (by decide)
    have nobody : r .holds = 0 := by omega
    have unused := left child (by omega) (by omega)
    refine ⟨by omega, fun _ => flagged (by omega), by omega, ?_⟩
    intro _ zero
    omega
  | claim free set child holds pending unremoved started children registered =>
    have nobody : ¬ 0 < r .holds + w .holds := fun held => free (flagged held)
    have unused := left child (by omega) (by omega)
    refine ⟨by omega, fun _ => set, by omega, ?_⟩
    intro _ zero
    omega
  | spawn holds pending unremoved started unchanged =>
    subst unchanged
    refine ⟨by omega, fun held => flagged (by omega), by omega, ?_⟩
    intro _ _ zero
    omega
  | remove unremoved others gone flags registered =>
    have holds := others .holds (by decide)
    have pending := others .pending (by decide)
    have started := others .started (by decide)
    refine ⟨by omega, fun held => ?_, by omega, fun child => absurd child gone⟩
    rw [flags]
    exact flagged (by omega)
  | abandon holds pending unremoved started unchanged =>
    subst unchanged
    exact ⟨by omega, fun held => flagged (by omega), by omega, fun _ _ _ => by omega⟩

theorem weigh_append (pid : Pid) (first second : List Activity) (aspect : Aspect) :
    weigh pid (first ++ second) aspect = weigh pid first aspect + weigh pid second aspect :=
  Program.total_append _ _ _

theorem weigh_cons (pid : Pid) (activity : Activity) (activities : List Activity) (aspect : Aspect) :
    weigh pid (activity :: activities) aspect = activity.weight pid aspect + weigh pid activities aspect :=
  Program.total_cons _ _ _

theorem Activity.busy_le_holds (pid : Pid) (activity : Activity) :
    activity.weight pid .pending + activity.weight pid .unremoved ≤ activity.weight pid .holds := by
  cases activity with
  | notify call =>
    obtain ⟨own, stage⟩ := call
    cases stage <;> simp [Activity.weight, Notify.weight]
  | task restart =>
    obtain ⟨orig, spec, attempts, backoffMs, replacement, stage⟩ := restart
    cases stage <;> simp [Activity.weight, Task.weight, Task.removes, Task.unfinished]
  | removal removal => exact Nat.le_refl _

theorem weigh_busy_le_holds (pid : Pid) (activities : List Activity) :
    weigh pid activities .pending + weigh pid activities .unremoved ≤ weigh pid activities .holds := by
  induction activities with
  | nil => exact Nat.le_refl _
  | cons activity activities ih =>
    have own := activity.busy_le_holds pid
    rw [weigh_cons, weigh_cons, weigh_cons]
    omega

def Activity.Sound : Activity → Prop
  | .notify call => call.Sound
  | _ => True

/-- The steps that a restart can rely on: a `RestartAll` flags the other
    children only while nobody restarts them, and no user call clears a flag. -/
def Activity.Orderly (s : Supervisor) : Activity → Prop
  | .notify call => call.Free s
  | .task _ => True
  | .removal call => call.stage = .unflag → call.pid ∉ s.restarting

instance (s : Supervisor) : DecidablePred (Activity.Orderly s)
  | .notify call => inferInstanceAs (Decidable (call.Free s))
  | .task _ => .isTrue trivial
  | .removal call => inferInstanceAs (Decidable (call.stage = .unflag → call.pid ∉ s.restarting))

def Orderly (c : Config Supervisor Activity) : Move Activity Outside Registration → Prop
  | .step index _ => ∀ activity ∈ c.threads[index]?, activity.Orderly c.shared
  | _ => True

structure Ledger (c : Config Supervisor Activity) : Prop where
  balanced : ∀ pid, Balance pid c.shared (c.shared.registered.count pid) (weigh pid c.threads)
  sound : ∀ activity ∈ c.threads, activity.Sound

theorem snapshot_keys (s : Supervisor) {order : List Pid} (whole : order.Perm s.children.keys) :
    keysOf (Notify.snapshot s order) = order := by
  have all : ∀ pid ∈ order, ∃ spec, s.children.lookup pid = some spec := by
    intro pid member
    have child : pid ∈ s.children := AList.mem_keys.mpr (whole.mem_iff.mp member)
    exact Option.isSome_iff_exists.mp (AList.lookup_isSome.mpr child)
  unfold Notify.snapshot
  clear whole
  induction order with
  | nil => rfl
  | cons pid order ih =>
    obtain ⟨spec, found⟩ := all pid List.mem_cons_self
    rw [List.filterMap_cons, found]
    simp only [Option.map_some, keysOf, List.map_cons]
    exact congrArg _ (ih fun other member => all other (List.mem_cons_of_mem _ member))

theorem Notify.step_sound {s later : Supervisor} {call next : Notify} {tasks : List Task} (sound : call.Sound)
    (steps : Steps s call later next tasks) : next.Sound := by
  cases steps with
  | @read own order whole =>
    show (keysOf ([] ++ Notify.snapshot s order)).Nodup
    rw [List.nil_append, snapshot_keys s whole]
    exact whole.nodup_iff.mpr s.children.keys_nodup
  | @claimed own done todo child =>
    have once : (keysOf (done ++ child :: todo)).Nodup := sound
    show (keysOf (done ++ [child] ++ todo)).Nodup
    rwa [List.append_assoc, List.singleton_append]
  | _ => trivial

theorem Activity.step_shift (pid : Pid) {s later : Supervisor} {activity next : Activity} {new : List Activity}
    (sound : activity.Sound) (orderly : activity.Orderly s) (steps : activity.Steps s later next new) :
    Shift pid s later (activity.weight pid) (afterwards pid next new) := by
  cases steps with
  | notify steps => exact Notify.step_shift pid sound orderly steps
  | task stepped => exact Task.step_shift pid stepped
  | removal stepped => exact Removal.step_shift pid orderly stepped _

theorem Activity.step_sound {s later : Supervisor} {activity next : Activity} {new : List Activity}
    (sound : activity.Sound) (steps : activity.Steps s later next new) :
    next.Sound ∧ ∀ other ∈ new, other.Sound := by
  cases steps with
  | notify steps =>
    refine ⟨Notify.step_sound sound steps, ?_⟩
    intro other member
    obtain ⟨restart, -, rfl⟩ := List.mem_map.mp member
    trivial
  | task stepped => exact ⟨trivial, by simp⟩
  | removal stepped => exact ⟨trivial, by simp⟩

theorem weight_of_starts (pid : Pid) {activity : Activity} (new : supervision.starts activity = true)
    (aspect : Aspect) : activity.weight pid aspect = 0 := by
  cases activity with
  | notify call =>
    have stage : call.stage = .flag := of_decide_eq_true new
    cases aspect <;> simp [Activity.weight, Notify.weight, stage]
  | task restart => cases new
  | removal call => rfl

theorem sound_of_starts {activity : Activity} (new : supervision.starts activity = true) : activity.Sound := by
  cases activity with
  | notify call =>
    have stage : call.stage = .flag := of_decide_eq_true new
    simp only [Activity.Sound, Notify.Sound, stage]
  | task restart => trivial
  | removal call => trivial

theorem moves_shift (pid : Pid) {c d : Config Supervisor Activity} {move : Move Activity Outside Registration}
    (sound : ∀ activity ∈ c.threads, activity.Sound) (orderly : Orderly c move) (moves : supervision.Moves c move d) :
    ∃ r w v : Aspect → Nat, weigh pid c.threads = (fun aspect => r aspect + w aspect) ∧
      weigh pid d.threads = (fun aspect => r aspect + v aspect) ∧ r .pending + r .unremoved ≤ r .holds ∧
      w .pending + w .unremoved ≤ w .holds ∧ Shift pid c.shared d.shared w v := by
  cases moves with
  | @start shared threads activity allowed =>
    refine ⟨weigh pid threads, fun _ => 0, fun _ => 0, rfl, ?_, weigh_busy_le_holds pid threads, Nat.le_refl _, .refl rfl⟩
    funext aspect
    rw [weigh_append, weigh_cons, weight_of_starts pid allowed]
    rfl
  | @step shared later before after new activity next outside stepped =>
    have mine := sound activity (List.mem_append_right _ List.mem_cons_self)
    have free := orderly activity (by simp)
    refine ⟨weigh pid (before ++ after), activity.weight pid, afterwards pid next new, ?_, ?_,
      weigh_busy_le_holds pid _, activity.busy_le_holds pid,
      Activity.step_shift pid mine free (Activity.steps_of_step stepped)⟩
    · funext aspect
      rw [weigh_append, weigh_append, weigh_cons]
      omega
    · funext aspect
      rw [afterwards, weigh_append, weigh_append, weigh_cons, weigh_append]
      omega
  | @ambient shared later threads registration done =>
    refine ⟨weigh pid threads, fun _ => 0, fun _ => 0, rfl, rfl, weigh_busy_le_holds pid threads, Nat.le_refl _, ?_⟩
    cases registration with
    | addChild other spec =>
      cases done
      exact .addChild pid other spec rfl
    | watch other =>
      cases done
      exact .addChild pid other _ rfl

theorem moves_sound {c d : Config Supervisor Activity} {move : Move Activity Outside Registration}
    (sound : ∀ activity ∈ c.threads, activity.Sound) (moves : supervision.Moves c move d) :
    ∀ activity ∈ d.threads, activity.Sound :=
  moves.forall_threads sound (fun _ _ => sound_of_starts) fun _ _ _ _ _ _ sound stepped =>
    Activity.step_sound sound (Activity.steps_of_step stepped)

theorem balance_move {pid : Pid} {limit limit' : Nat} {c d : Config Supervisor Activity}
    {move : Move Activity Outside Registration} (sound : ∀ activity ∈ c.threads, activity.Sound)
    (orderly : Orderly c move) (moves : supervision.Moves c move d)
    (balance : Balance pid c.shared limit (weigh pid c.threads)) (grows : limit ≤ limit')
    (room : c.shared.registered.count pid < d.shared.registered.count pid →
      weigh pid c.threads .started + weigh pid c.threads .pending < limit') :
    Balance pid d.shared limit' (weigh pid d.threads) := by
  obtain ⟨r, w, v, before, after, rest, own, shift⟩ := moves_shift pid sound orderly moves
  rw [before] at balance room
  rw [after]
  exact balance.shift rest own grows room shift

theorem Ledger.move {c d : Config Supervisor Activity} {move : Move Activity Outside Registration} (ledger : Ledger c)
    (orderly : Orderly c move) (moves : supervision.Moves c move d) : Ledger d := by
  refine ⟨fun pid => ?_, moves_sound ledger.sound moves⟩
  obtain ⟨r, w, v, -, -, -, -, shift⟩ := moves_shift pid ledger.sound orderly moves
  apply balance_move ledger.sound orderly moves (ledger.balanced pid) shift.registered_le
  exact fun more => Nat.lt_of_le_of_lt (ledger.balanced pid).paid more

def Supervisor.recorded (s : Supervisor) : Supervisor := { s with registered := s.children.keys }

theorem ledger_start (s : Supervisor) : Ledger ⟨s.recorded, []⟩ := by
  refine ⟨fun pid => ⟨Nat.zero_le _, fun held => absurd held (Nat.lt_irrefl 0), Nat.zero_le _, ?_⟩, by simp⟩
  intro child _ _
  exact List.count_pos_iff.mpr (AList.mem_keys.mp child)

end Myrmidon
