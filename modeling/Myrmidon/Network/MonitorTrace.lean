import Mathlib.Algebra.Order.Ring.Rat
import Mathlib.Logic.Function.Iterate
import Myrmidon.Network.Monitor

namespace Myrmidon.Network

open Slab

inductive MonitorEvent where
  | slept (duration : ℚ)
  | probed (isUp : Bool)
  | stopped (pid : Pid)
  | notified (pid : Pid)
  deriving DecidableEq

namespace Monitor

/-- What the loop does, in order, as far as its turns are given. -/
def trace (pid : Pid) (monitor : Monitor) : List Round → List MonitorEvent
  | [] => []
  | round :: rest =>
    if !round.checked.slab.isValid pid then []
    else
      .slept monitor.curr :: .probed round.probe.isUp ::
        if round.probe.isUp then trace pid monitor.recover rest
        else if monitor.threshold ≤ monitor.failures + 1 then [.stopped pid, .notified pid]
        else trace pid monitor.backOff rest

def next (monitor : Monitor) (up : Bool) : Monitor := if up then monitor.recover else monitor.backOff

end Monitor

/-- The next wait after a failure. -/
def stretch (factor maxBackoff wait : ℚ) : ℚ := min (wait * factor) maxBackoff

theorem stretch_le (factor maxBackoff wait : ℚ) : stretch factor maxBackoff wait ≤ maxBackoff := min_le_right _ _

theorem Monitor.backOff_curr (monitor : Monitor) :
    monitor.backOff.curr = stretch monitor.factor monitor.maxBackoff monitor.curr := by
  simp only [Monitor.backOff, stretch]
  by_cases above : monitor.maxBackoff < monitor.curr * monitor.factor
  · rw [if_pos above, min_eq_right (le_of_lt above)]
  · rw [if_neg above, min_eq_left (not_lt.mp above)]

/-- The variables after some probes, none of which was the last. -/
structure Monitor.Tracks (start : Monitor) (ups : List Bool) (monitor : Monitor) : Prop where
  base : monitor.base = start.base
  factor : monitor.factor = start.factor
  maxBackoff : monitor.maxBackoff = start.maxBackoff
  threshold : monitor.threshold = start.threshold
  failures : monitor.failures = trailing ups
  curr : monitor.curr = (stretch start.factor start.maxBackoff)^[trailing ups] start.base

theorem Monitor.tracks_next {start monitor : Monitor} {ups : List Bool} (tracks : start.Tracks ups monitor)
    (up : Bool) : start.Tracks (ups ++ [up]) (monitor.next up) := by
  cases up with
  | true =>
    constructor <;> simp [Monitor.next, Monitor.recover, trailing_concat, tracks.base, tracks.factor,
      tracks.maxBackoff, tracks.threshold]
  | false =>
    have counted : trailing (ups ++ [false]) = trailing ups + 1 := trailing_concat ups false
    refine ⟨tracks.base, tracks.factor, tracks.maxBackoff, tracks.threshold, ?_, ?_⟩
    · rw [counted, ← tracks.failures]
      rfl
    · rw [counted, Function.iterate_succ_apply', ← tracks.curr, ← tracks.factor, ← tracks.maxBackoff]
      exact monitor.backOff_curr

theorem Monitor.tracks_new (intervalMs : Nat) (factor maxBackoff : ℚ) (threshold : Nat) :
    (Monitor.new intervalMs factor maxBackoff threshold).Tracks [] (.new intervalMs factor maxBackoff threshold) :=
  ⟨rfl, rfl, rfl, rfl, rfl, rfl⟩

/-- The wait before probe `i` of a monitor that starts at its base. -/
def waitBefore (start : Monitor) (rounds : List Round) (i : Nat) : ℚ :=
  (stretch start.factor start.maxBackoff)^[trailing (upsOf (rounds.take i))] start.base

/-- The first `n` turns: each waits and probes. -/
def turns (wait : Nat → ℚ) (rounds : List Round) (n : Nat) : List MonitorEvent :=
  (rounds.take n).zipIdx.flatMap fun turn => [.slept (wait turn.2), .probed turn.1.probe.isUp]

theorem turns_succ (wait : Nat → ℚ) {rounds : List Round} {n : Nat} {round : Round} (found : rounds[n]? = some round) :
    turns wait rounds (n + 1) = turns wait rounds n ++ [.slept (wait n), .probed round.probe.isUp] := by
  have inside : n < rounds.length := (List.getElem?_eq_some_iff.mp found).1
  have size : (rounds.take n).length = n := by
    rw [List.length_take]
    omega
  simp [turns, List.take_add_one, found, List.zipIdx_append, size]

/-- As long as the pid is valid and no run of failures is complete, every turn waits, probes and goes on. -/
theorem trace_drop {pid : Pid} {start : Monitor} {rounds : List Round} (fresh : start.Tracks [] start) (n : Nat)
    (inside : n ≤ rounds.length)
    (valid : ∀ i < n, ∀ round ∈ rounds[i]?, round.checked.slab.isValid pid = true)
    (unbroken : ∀ m < n, trailing (upsOf (rounds.take (m + 1))) < max start.threshold 1) :
    ∃ monitor : Monitor, start.Tracks (upsOf (rounds.take n)) monitor ∧
      start.trace pid rounds = turns (waitBefore start rounds) rounds n ++ monitor.trace pid (rounds.drop n) := by
  induction n with
  | zero => exact ⟨start, fresh, by simp [turns]⟩
  | succ n ih =>
    obtain ⟨monitor, tracks, same⟩ :=
      ih (by omega) (fun i less => valid i (by omega)) (fun m less => unbroken m (by omega))
    have found : rounds[n]? = some rounds[n] := List.getElem?_eq_getElem inside
    have alive := valid n (by omega) _ found
    have short := unbroken n (by omega)
    have grown := upsOf_take_succ found
    rw [grown, ← tracks.threshold] at short
    refine ⟨monitor.next rounds[n].probe.isUp, ?_, ?_⟩
    · rw [grown]
      exact Monitor.tracks_next tracks _
    · have wait : monitor.curr = waitBefore start rounds n := tracks.curr
      rw [same, turns_succ _ found, List.drop_eq_getElem_cons inside, Monitor.trace, wait]
      cases up : rounds[n].probe.isUp with
      | true => simp [alive, Monitor.next]
      | false =>
        rw [up] at short
        have more := Monitor.goes_on tracks.failures short
        simp [alive, more, Monitor.next]

theorem notified_mem_trace (pid : Pid) (monitor : Monitor) (rounds : List Round) :
    .notified pid ∈ monitor.trace pid rounds ↔ ∃ found, monitor.loop pid rounds = .down found := by
  induction rounds generalizing monitor with
  | nil => simp [Monitor.trace, Monitor.loop]
  | cons round rest ih =>
    rw [Monitor.trace, Monitor.loop]
    by_cases dead : (!round.checked.slab.isValid pid) = true
    · rw [if_pos dead, if_pos dead]
      simp
    rw [if_neg dead, if_neg dead]
    by_cases up : round.probe.isUp = true
    · rw [if_pos up, if_pos up]
      simpa using ih monitor.recover
    rw [if_neg up, if_neg up]
    by_cases full : monitor.threshold ≤ monitor.failures + 1
    · rw [if_pos full, if_pos full]
      simp
    · rw [if_neg full, if_neg full]
      simpa using ih monitor.backOff

theorem trailing_replicate {before : List Bool} (ended : ∀ up ∈ before.getLast?, up = true) (count : Nat) :
    trailing (before ++ List.replicate count false) = count := by
  induction count with
  | zero =>
    rw [List.replicate_zero, List.append_nil]
    cases before using List.reverseRecOn with
    | nil => rfl
    | append_singleton before up =>
      have success : up = true := ended up (by simp)
      rw [trailing_concat, if_pos success]
  | succ count ih =>
    rw [List.replicate_succ', ← List.append_assoc, trailing_concat, ih]
    rfl

/-- The waits before the probes: the base at first and after a success, and after
    `count` failures in a row the base stretched as many times. -/
structure Waits (base factor maxBackoff : ℚ) (rounds : List Round) (wait : Nat → ℚ) : Prop where
  first : wait 0 = base
  recovered : ∀ i, ∀ round ∈ rounds[i]?, round.probe.isUp = true → wait (i + 1) = base
  capped : ∀ i, ∀ round ∈ rounds[i]?, round.probe.isUp = false → wait (i + 1) ≤ maxBackoff
  iterated : ∀ i before count, upsOf (rounds.take i) = before ++ List.replicate count false →
    (∀ up ∈ before.getLast?, up = true) → wait i = (fun x => min (x * factor) maxBackoff)^[count] base

theorem waits_waitBefore (start : Monitor) (rounds : List Round) :
    Waits start.base start.factor start.maxBackoff rounds (waitBefore start rounds) := by
  constructor
  · simp [waitBefore, upsOf, trailing]
  · intro i round found up
    rw [waitBefore, upsOf_take_succ found, trailing_concat, if_pos up]
    rfl
  · intro i round found down
    rw [waitBefore, upsOf_take_succ found, trailing_concat, down]
    simp only [Bool.false_eq_true, if_false, Function.iterate_succ_apply']
    exact stretch_le _ _ _
  · intro i before count split ended
    rw [waitBefore, split, trailing_replicate ended]
    rfl

theorem unbroken_of_not_infix {count : Nat} {rounds : List Round}
    (none : ¬ List.replicate count false <:+: upsOf rounds) (n : Nat) :
    trailing (upsOf (rounds.take n)) < count := by
  by_contra enough
  have suffix := (replicate_suffix_iff count (upsOf (rounds.take n))).mpr (not_lt.mp enough)
  have initial : upsOf (rounds.take n) <+: upsOf rounds := by
    rw [upsOf, List.map_take]
    exact List.take_prefix _ _
  exact none (suffix.isInfix.trans initial.isInfix)

section

variable (pid : Pid) {start : Monitor} {rounds : List Round} (fresh : start.Tracks [] start)

include fresh

theorem trace_down {n : Nat} (run : FirstRun (max start.threshold 1) rounds n)
    (valid : ∀ i ≤ n, ∀ round ∈ rounds[i]?, round.checked.slab.isValid pid = true) :
    start.trace pid rounds = turns (waitBefore start rounds) rounds (n + 1) ++ [.stopped pid, .notified pid] := by
  have inside := run.inside
  obtain ⟨monitor, tracks, same⟩ := trace_drop fresh n (Nat.le_of_lt inside)
    (fun i less => valid i (Nat.le_of_lt less)) run.unbroken
  have found : rounds[n]? = some rounds[n] := List.getElem?_eq_getElem inside
  have alive := valid n (Nat.le_refl n) _ found
  rw [← tracks.threshold] at run
  obtain ⟨down, full⟩ := run.last found tracks.failures
  have wait : monitor.curr = waitBefore start rounds n := tracks.curr
  rw [same, turns_succ _ found, List.drop_eq_getElem_cons inside, Monitor.trace, wait]
  simp [alive, down, full]

theorem trace_watching (none : ¬ List.replicate (max start.threshold 1) false <:+: upsOf rounds)
    (valid : ∀ round ∈ rounds, round.checked.slab.isValid pid = true) :
    start.trace pid rounds = turns (waitBefore start rounds) rounds rounds.length := by
  obtain ⟨monitor, -, same⟩ := trace_drop fresh rounds.length (Nat.le_refl _)
    (fun i less round found => valid round (List.mem_of_getElem? found))
    (fun m less => unbroken_of_not_infix none (m + 1))
  rw [same, List.drop_length]
  simp [Monitor.trace]

theorem trace_gone {i : Nat} {round : Round} (found : rounds[i]? = some round)
    (invalid : round.checked.slab.isValid pid = false)
    (valid : ∀ j < i, ∀ round ∈ rounds[j]?, round.checked.slab.isValid pid = true)
    (none : ¬ List.replicate (max start.threshold 1) false <:+: upsOf (rounds.take i)) :
    start.trace pid rounds = turns (waitBefore start rounds) rounds i := by
  have inside := (List.getElem?_eq_some_iff.mp found).1
  have value : rounds[i] = round := (List.getElem?_eq_some_iff.mp found).2
  have unbroken : ∀ m < i, trailing (upsOf (rounds.take (m + 1))) < max start.threshold 1 := by
    intro m less
    have short := unbroken_of_not_infix none (m + 1)
    rw [List.take_take, min_eq_left (by omega)] at short
    exact short
  obtain ⟨monitor, -, same⟩ := trace_drop fresh i (Nat.le_of_lt inside) valid unbroken
  rw [same, List.drop_eq_getElem_cons inside, Monitor.trace, value]
  simp [invalid]

end

theorem not_down_of_turns {pid : Pid} {start : Monitor} {rounds : List Round} {wait : Nat → ℚ} {n : Nat}
    (only : start.trace pid rounds = turns wait rounds n) (found : Runtime) :
    start.loop pid rounds ≠ .down found := by
  intro down
  have told := (notified_mem_trace pid start rounds).mpr ⟨found, down⟩
  rw [only] at told
  simp [turns] at told

/-- A success in between takes the wait back to the base and the counter to zero. -/
example : (Monitor.new 1000 2 1500 2).trace (makePid 0 1)
    [unanswered stoppedLocally, ⟨stoppedLocally, ⟨true, true, true, some 3⟩, stoppedLocally⟩,
      unanswered stoppedLocally, unanswered stoppedLocally, unanswered stoppedLocally] =
    [.slept 1000, .probed false, .slept 1500, .probed true, .slept 1000, .probed false, .slept 1500, .probed false,
      .stopped (makePid 0 1), .notified (makePid 0 1)] := by
  decide +kernel

end Myrmidon.Network
