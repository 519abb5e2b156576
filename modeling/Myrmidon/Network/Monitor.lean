import Mathlib.Data.Nat.Find
import Mathlib.Data.Rat.Defs
import Myrmidon.Runtime.Lifecycle

namespace Myrmidon.Network

open Slab

/-- What a heartbeat met: the writes and the read are only made on a connection. -/
structure Probe where
  connected : Bool
  versionSent : Bool
  pingSent : Bool
  reply : Option (BitVec 8)
  deriving DecidableEq

def Probe.isUp (probe : Probe) : Bool :=
  probe.connected && probe.versionSent && probe.pingSent && probe.reply == some 3

/-- One turn of the loop: the local runtime as the check finds it, the probe,
    and the local runtime as a verdict would find it. -/
structure Round where
  checked : Runtime
  probe : Probe
  found : Runtime

/-- The variables of `monitor_remote`; durations are in milliseconds. -/
structure Monitor where
  base : ℚ
  factor : ℚ
  maxBackoff : ℚ
  threshold : Nat
  curr : ℚ
  failures : Nat

inductive MonitorEnd where
  | watching (monitor : Monitor)
  | gone
  | down (found : Runtime)

namespace Monitor

def new (intervalMs : Nat) (factor maxBackoff : ℚ) (threshold : Nat) : Monitor :=
  ⟨intervalMs, factor, maxBackoff, threshold, intervalMs, 0⟩

def backOff (monitor : Monitor) : Monitor :=
  let next := monitor.curr * monitor.factor
  { monitor with
    failures := monitor.failures + 1
    curr := if monitor.maxBackoff < next then monitor.maxBackoff else next }

def recover (monitor : Monitor) : Monitor := { monitor with failures := 0, curr := monitor.base }

/-- The loop, as far as its turns are given. -/
def loop (pid : Pid) (monitor : Monitor) : List Round → MonitorEnd
  | [] => .watching monitor
  | round :: rest =>
    if !round.checked.slab.isValid pid then .gone
    else if round.probe.isUp then loop pid monitor.recover rest
    else if monitor.threshold ≤ monitor.failures + 1 then .down round.found
    else loop pid monitor.backOff rest

end Monitor

/-- The verdict, on the local node: the runtime after `stop`, and the call of `notify_exit`. -/
def reportDown (rt : Runtime) (pid : Pid) : Runtime × Notify := (rt.stop pid, .new pid)

/-- The monitor has called `notify_exit` for `pid`, and no local mailbox is gone for it. -/
def NotifiesAndSpares (monitor : Monitor) (pid : Pid) (rounds : List Round) : Prop :=
  ∃ found, monitor.loop pid rounds = .down found ∧ (reportDown found pid).2 = .new pid ∧
    ∀ other, (reportDown found pid).1.mailboxes.lookup other = found.mailboxes.lookup other

def upsOf (rounds : List Round) : List Bool := rounds.map fun round => round.probe.isUp

/-- Turn `n` is the first whose probe ends that many failures in a row. -/
structure FirstRun (count : Nat) (rounds : List Round) (n : Nat) : Prop where
  inside : n < rounds.length
  ends : List.replicate count false <:+ upsOf (rounds.take (n + 1))
  first : ∀ m < n, ¬ List.replicate count false <:+ upsOf (rounds.take (m + 1))

def trailing (ups : List Bool) : Nat := ups.foldl (fun failures up => if up then 0 else failures + 1) 0

theorem trailing_concat (ups : List Bool) (up : Bool) :
    trailing (ups ++ [up]) = if up then 0 else trailing ups + 1 := by
  simp [trailing]

theorem replicate_suffix_iff (count : Nat) (ups : List Bool) :
    List.replicate count false <:+ ups ↔ count ≤ trailing ups := by
  induction ups using List.reverseRecOn generalizing count with
  | nil =>
    rw [List.suffix_nil, List.replicate_eq_nil_iff]
    exact Nat.le_zero.symm
  | append_singleton ups up ih =>
    cases count with
    | zero => simp
    | succ count =>
      rw [List.replicate_succ', List.suffix_concat_iff, trailing_concat]
      cases up with
      | true => simp
      | false =>
        simp [ih count]

theorem upsOf_take_succ {rounds : List Round} {n : Nat} {round : Round} (found : rounds[n]? = some round) :
    upsOf (rounds.take (n + 1)) = upsOf (rounds.take n) ++ [round.probe.isUp] := by
  rw [upsOf, List.take_add_one, found]
  simp [upsOf]

/-- A failure that does not complete a run is not the last one. -/
theorem Monitor.goes_on {monitor : Monitor} {ups : List Bool} (failures : monitor.failures = trailing ups)
    (short : trailing (ups ++ [false]) < max monitor.threshold 1) : ¬ monitor.threshold ≤ monitor.failures + 1 := by
  rw [trailing_concat, ← failures] at short
  simp only [Bool.false_eq_true, if_false] at short
  omega

/-- The probe that completes the first run has failed, and the counter is then at the threshold. -/
theorem FirstRun.last {monitor : Monitor} {rounds : List Round} {n : Nat} {round : Round}
    (run : FirstRun (max monitor.threshold 1) rounds n) (found : rounds[n]? = some round)
    (failures : monitor.failures = trailing (upsOf (rounds.take n))) :
    round.probe.isUp = false ∧ monitor.threshold ≤ monitor.failures + 1 := by
  have ends := run.ends
  rw [replicate_suffix_iff, upsOf_take_succ found, trailing_concat, ← failures] at ends
  cases up : round.probe.isUp with
  | true =>
    rw [if_pos up] at ends
    omega
  | false =>
    rw [if_neg (by simp [up])] at ends
    exact ⟨rfl, by omega⟩

/-- As long as the pid is valid and no run of failures is complete, the loop goes on
    and its counter is the length of the last run. -/
theorem loop_drop {pid : Pid} (start : Monitor) {rounds : List Round} (fresh : start.failures = 0) (n : Nat)
    (inside : n ≤ rounds.length)
    (valid : ∀ i < n, ∀ round ∈ rounds[i]?, round.checked.slab.isValid pid = true)
    (unbroken : ∀ m < n, trailing (upsOf (rounds.take (m + 1))) < max start.threshold 1) :
    ∃ monitor : Monitor, start.loop pid rounds = monitor.loop pid (rounds.drop n) ∧
      monitor.threshold = start.threshold ∧ monitor.failures = trailing (upsOf (rounds.take n)) := by
  induction n with
  | zero => exact ⟨start, by simp, rfl, by simpa [upsOf, trailing] using fresh⟩
  | succ n ih =>
    obtain ⟨monitor, same, threshold, failures⟩ :=
      ih (by omega) (fun i less => valid i (by omega)) (fun m less => unbroken m (by omega))
    have found : rounds[n]? = some rounds[n] := List.getElem?_eq_getElem inside
    have alive := valid n (by omega) _ found
    have short := unbroken n (by omega)
    have grown := upsOf_take_succ found
    rw [grown, ← threshold] at short
    rw [List.drop_eq_getElem_cons inside] at same
    rw [grown, trailing_concat, ← failures]
    cases up : rounds[n].probe.isUp with
    | true =>
      refine ⟨monitor.recover, ?_, threshold, by simp [Monitor.recover]⟩
      rw [same, Monitor.loop]
      simp [alive, up]
    | false =>
      rw [up] at short
      have more := Monitor.goes_on failures short
      refine ⟨monitor.backOff, ?_, threshold, by simp [Monitor.backOff]⟩
      rw [same, Monitor.loop]
      simp [alive, up, more]

theorem stop_mailboxes (rt : Runtime) (pid other : Pid) :
    (rt.stop pid).mailboxes.lookup other = if other = pid then none else rt.mailboxes.lookup other := by
  unfold Runtime.stop
  cases found : rt.mailboxes.lookup pid with
  | none =>
    by_cases same : other = pid
    · rw [if_pos same, same]
      exact found
    · rw [if_neg same]
  | some id =>
    by_cases same : other = pid
    · rw [if_pos same, same]
      exact AList.lookup_erase _ _
    · rw [if_neg same]
      exact AList.lookup_erase_ne same

theorem reportDown_spares_iff (rt : Runtime) (pid : Pid) :
    (∀ other, (reportDown rt pid).1.mailboxes.lookup other = rt.mailboxes.lookup other) ↔ pid ∉ rt.mailboxes := by
  rw [← AList.lookup_eq_none]
  simp only [reportDown, stop_mailboxes]
  constructor
  · intro same
    have own := same pid
    rw [if_pos rfl] at own
    exact own.symm
  · intro absent other
    by_cases same : other = pid
    · rw [if_pos same, same, absent]
    · rw [if_neg same]

section

variable {pid : Pid} {threshold n : Nat} (intervalMs : Nat) (factor maxBackoff : ℚ) {rounds : List Round}
  (run : FirstRun (max threshold 1) rounds n)

include run

theorem FirstRun.unbroken : ∀ m < n, trailing (upsOf (rounds.take (m + 1))) < max threshold 1 := by
  intro m less
  have short := run.first m less
  rw [replicate_suffix_iff] at short
  omega

theorem FirstRun.loop_down (valid : ∀ i ≤ n, ∀ round ∈ rounds[i]?, round.checked.slab.isValid pid = true) :
    ∃ round ∈ rounds[n]?, (Monitor.new intervalMs factor maxBackoff threshold).loop pid rounds = .down round.found := by
  have inside := run.inside
  obtain ⟨monitor, same, limit, failures⟩ := loop_drop
    (.new intervalMs factor maxBackoff threshold) rfl n (Nat.le_of_lt inside)
    (fun i less => valid i (Nat.le_of_lt less)) run.unbroken
  have found : rounds[n]? = some rounds[n] := List.getElem?_eq_getElem inside
  have alive := valid n (Nat.le_refl n) _ found
  have same' : monitor.threshold = threshold := limit
  rw [← same'] at run
  obtain ⟨down, full⟩ := run.last found failures
  refine ⟨_, found, ?_⟩
  rw [same, List.drop_eq_getElem_cons inside, Monitor.loop]
  simp [alive, down, full]

theorem FirstRun.loop_gone {i : Nat} (early : i ≤ n) {round : Round} (found : rounds[i]? = some round)
    (invalid : round.checked.slab.isValid pid = false) :
    (Monitor.new intervalMs factor maxBackoff threshold).loop pid rounds = .gone := by
  -- The induction finds the first turn whose check fails.
  induction i using Nat.strong_induction_on generalizing round with
  | _ i ih =>
    by_cases earlier : ∃ j < i, ∃ other, rounds[j]? = some other ∧ other.checked.slab.isValid pid = false
    · obtain ⟨j, less, other, present, dead⟩ := earlier
      exact ih j less (by omega) present dead
    · have inside := (List.getElem?_eq_some_iff.mp found).1
      have valid : ∀ j < i, ∀ other ∈ rounds[j]?, other.checked.slab.isValid pid = true := by
        intro j less other present
        by_contra dead
        exact earlier ⟨j, less, other, present, Bool.eq_false_iff.mpr dead⟩
      obtain ⟨monitor, same, -, -⟩ := loop_drop
        (.new intervalMs factor maxBackoff threshold) rfl i (Nat.le_of_lt inside) valid
        (fun m less => run.unbroken m (by omega))
      have value : rounds[i] = round := (List.getElem?_eq_some_iff.mp found).2
      rw [same, List.drop_eq_getElem_cons inside, Monitor.loop, value]
      simp [invalid]

end

theorem exists_firstRun {count : Nat} (positive : 0 < count) {rounds : List Round}
    (consecutive : List.replicate count false <:+: upsOf rounds) : ∃ n, FirstRun count rounds n := by
  obtain ⟨before, after, split⟩ := consecutive
  have total : before.length + count + after.length = rounds.length := by
    have lengths := congrArg List.length split
    simpa [upsOf, Nat.add_assoc] using lengths
  have ends : ∃ n, n < rounds.length ∧ List.replicate count false <:+ upsOf (rounds.take (n + 1)) := by
    refine ⟨before.length + count - 1, by omega, before, ?_⟩
    have size : before.length + count - 1 + 1 = (before ++ List.replicate count false).length := by
      rw [List.length_append, List.length_replicate]
      omega
    rw [upsOf, List.map_take, ← upsOf, ← split, size, List.take_left]
  classical
  refine ⟨Nat.find ends, (Nat.find_spec ends).1, (Nat.find_spec ends).2, fun m less suffix => ?_⟩
  have bound := (Nat.find_spec ends).1
  exact Nat.find_min ends less ⟨by omega, suffix⟩

/-- Nobody listens at the address, and the local runtime stays as it is. -/
def unanswered (rt : Runtime) : Round := ⟨rt, ⟨false, false, false, none⟩, rt⟩

/-- The local actor of this number has been stopped and is not cleaned up yet. -/
def stoppedLocally : Runtime := ⟨⟨[⟨1, true⟩], []⟩, ∅, [.channel], .new, []⟩

end Myrmidon.Network
