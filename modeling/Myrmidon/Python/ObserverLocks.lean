import Myrmidon.Mailbox.Model
import Myrmidon.Transition.Locks

namespace Myrmidon.Python

open Transition

/-- The vectors in `observers`, and the locks on the way to them: the GIL, the
    mutex of each vector and the read locks on each shard of the map. -/
structure ObserverMap where
  messages : Pid → Option (List Message)
  gil : Bool
  locked : Pid → Bool
  readers : Nat → Nat

namespace ObserverMap

def empty : ObserverMap := ⟨fun _ => none, false, fun _ => false, fun _ => 0⟩

def length (s : ObserverMap) (pid : Pid) : Nat := ((s.messages pid).getD []).length

def addReader (s : ObserverMap) (shard : Nat) : ObserverMap :=
  { s with readers := Function.update s.readers shard (s.readers shard + 1) }

def dropReader (s : ObserverMap) (shard : Nat) : ObserverMap :=
  { s with readers := Function.update s.readers shard (s.readers shard - 1) }

def lock (s : ObserverMap) (pid : Pid) : ObserverMap := { s with locked := Function.update s.locked pid true }

def unlock (s : ObserverMap) (pid : Pid) : ObserverMap := { s with locked := Function.update s.locked pid false }

def push (s : ObserverMap) (pid : Pid) (message : Message) : ObserverMap :=
  { s with messages := Function.update s.messages pid ((s.messages pid).map (· ++ [message])) }

theorem push_messages (s : ObserverMap) (pid other : Pid) (message : Message) :
    (s.push pid message).messages other =
      if other = pid then (s.messages other).map (· ++ [message]) else s.messages other := by
  by_cases same : other = pid
  · subst same
    simp [push]
  · simp [push, same]

@[simp] theorem addReader_gil (s : ObserverMap) (shard : Nat) : (s.addReader shard).gil = s.gil := rfl
@[simp] theorem addReader_locked (s : ObserverMap) (shard : Nat) : (s.addReader shard).locked = s.locked := rfl
@[simp] theorem addReader_messages (s : ObserverMap) (shard : Nat) : (s.addReader shard).messages = s.messages := rfl
@[simp] theorem dropReader_gil (s : ObserverMap) (shard : Nat) : (s.dropReader shard).gil = s.gil := rfl
@[simp] theorem dropReader_locked (s : ObserverMap) (shard : Nat) : (s.dropReader shard).locked = s.locked := rfl
@[simp] theorem dropReader_messages (s : ObserverMap) (shard : Nat) : (s.dropReader shard).messages = s.messages := rfl
@[simp] theorem lock_gil (s : ObserverMap) (pid : Pid) : (s.lock pid).gil = s.gil := rfl
@[simp] theorem lock_readers (s : ObserverMap) (pid : Pid) : (s.lock pid).readers = s.readers := rfl
@[simp] theorem lock_messages (s : ObserverMap) (pid : Pid) : (s.lock pid).messages = s.messages := rfl
@[simp] theorem unlock_gil (s : ObserverMap) (pid : Pid) : (s.unlock pid).gil = s.gil := rfl
@[simp] theorem unlock_readers (s : ObserverMap) (pid : Pid) : (s.unlock pid).readers = s.readers := rfl
@[simp] theorem unlock_messages (s : ObserverMap) (pid : Pid) : (s.unlock pid).messages = s.messages := rfl

theorem addReader_readers (s : ObserverMap) (shard part : Nat) :
    (s.addReader shard).readers part = s.readers part + if shard = part then 1 else 0 :=
  Locks.update_take s.readers shard part

theorem dropReader_readers (s : ObserverMap) (shard part : Nat) :
    (s.dropReader shard).readers part = s.readers part - if shard = part then 1 else 0 :=
  Locks.update_release s.readers shard part

theorem lock_locked (s : ObserverMap) (pid other : Pid) (free : s.locked pid = false) :
    ((s.lock pid).locked other).toNat = (s.locked other).toNat + if pid = other then 1 else 0 := by
  by_cases same : pid = other
  · subst same
    simp [lock, free]
  · simp [lock, same, Ne.symm same]

theorem unlock_locked (s : ObserverMap) (pid other : Pid) :
    ((s.unlock pid).locked other).toNat = (s.locked other).toNat - if pid = other then 1 else 0 := by
  by_cases same : pid = other
  · subst same
    have one := (s.locked pid).toNat_le
    simp [unlock]
    omega
  · simp [unlock, same, Ne.symm same]

end ObserverMap

/-- A call of `get_messages`: at the map, or waiting for the vector behind a shard. -/
inductive GetStage where
  | called
  | table
  | vector
  | returned (result : Option (List Message))
  deriving DecidableEq

inductive SpawnStage where
  | called
  | inserting (pid : Pid)
  | returned (pid : Pid)
  deriving DecidableEq

/-- A call of `selective_recv_observed_py`. It asks its matcher, which needs the
    GIL, from inside the locks of the shard and of the vector; the matcher may
    lend the GIL to another thread. -/
inductive SelectStage where
  | polling
  | vector
  | holding (asked : Nat)
  | matching (asked : Nat)
  | lent (asked : Nat)
  | found (asked : Nat)
  | sleeping
  | converting (message : Message)
  | returned (result : Option Message)
  deriving DecidableEq

inductive ObserverCall where
  | getting (pid : Pid) (stage : GetStage)
  | spawning (stage : SpawnStage)
  | taking (pid : Pid) (stage : SelectStage)
  deriving DecidableEq

/-- What a call does not control: the pid that a spawn draws, the answer of the
    matcher, whether it lends the GIL, and whether the timeout is over. -/
inductive CallInput where
  | proceed
  | draw (pid : Pid)
  | lend
  | answer (accepted : Bool)
  | elapsed

def GetStage.step (shard : Pid → Nat) (s : ObserverMap) (pid : Pid) :
    GetStage → CallInput → Option (ObserverMap × GetStage)
  | .called, .proceed => if s.gil then none else some ({ s with gil := true }, .table)
  | .table, .proceed =>
    match s.messages pid with
    | none => some ({ s with gil := false }, .returned none)
    | some _ => some (s.addReader (shard pid), .vector)
  | .vector, .proceed =>
    if s.locked pid then none
    else some ({ s.dropReader (shard pid) with gil := false }, .returned (s.messages pid))
  | _, _ => none

/-- `spawn_observed_handler`, called with the GIL. Pids are not given out twice. -/
def SpawnStage.step (shard : Pid → Nat) (s : ObserverMap) : SpawnStage → CallInput → Option (ObserverMap × SpawnStage)
  | .called, .draw pid =>
    if s.gil || (s.messages pid).isSome then none else some ({ s with gil := true }, .inserting pid)
  | .inserting pid, .proceed =>
    if s.readers (shard pid) = 0 then
      some ({ s with messages := Function.update s.messages pid (some []), gil := false }, .returned pid)
    else none
  | _, _ => none

def SelectStage.step (shard : Pid → Nat) (s : ObserverMap) (pid : Pid) :
    SelectStage → CallInput → Option (ObserverMap × SelectStage)
  | .polling, .proceed =>
    match s.messages pid with
    | none => some (s, .sleeping)
    | some _ => some (s.addReader (shard pid), .vector)
  | .vector, .proceed => if s.locked pid then none else some (s.lock pid, .holding 0)
  | .holding asked, .proceed =>
    if asked < s.length pid then
      if s.gil then none else some ({ s with gil := true }, .matching asked)
    else some ((s.unlock pid).dropReader (shard pid), .sleeping)
  | .matching asked, .lend => some ({ s with gil := false }, .lent asked)
  | .lent asked, .proceed => if s.gil then none else some ({ s with gil := true }, .matching asked)
  | .matching asked, .answer false => some ({ s with gil := false }, .holding (asked + 1))
  | .matching asked, .answer true => some ({ s with gil := false }, .found asked)
  | .found asked, .proceed =>
    match s.messages pid with
    | none => none
    | some messages =>
      match messages[asked]? with
      | none => none
      | some message =>
        let messages := Function.update s.messages pid (some (messages.eraseIdx asked))
        some (({ s with messages }.unlock pid).dropReader (shard pid), .converting message)
  | .converting message, .proceed => if s.gil then none else some (s, .returned (some message))
  | .sleeping, .proceed => some (s, .polling)
  | .sleeping, .elapsed => if s.gil then none else some (s, .returned none)
  | _, _ => none

def ObserverCall.step (shard : Pid → Nat) (s : ObserverMap) (call : ObserverCall) (input : CallInput) :
    Option (ObserverMap × ObserverCall) :=
  match call with
  | .getting pid stage => (stage.step shard s pid input).map fun (s, stage) => (s, .getting pid stage)
  | .spawning stage => (stage.step shard s input).map fun (s, stage) => (s, .spawning stage)
  | .taking pid stage => (stage.step shard s pid input).map fun (s, stage) => (s, .taking pid stage)

/-- Any number of these calls. The actors push on their vectors meanwhile; which
    shard of the map a pid is in does not change. -/
def observerCalls (shard : Pid → Nat) : Program ObserverMap ObserverCall CallInput (Pid × Message) where
  starts
    | .getting _ .called | .spawning .called | .taking _ .polling => true
    | _ => false
  step _ s call input := (call.step shard s input).map fun (s, call) => (s, call, [])
  ambient s record := if s.locked record.1 then none else some (s.push record.1 record.2)

abbrev ObserverMove := Move ObserverCall CallInput (Pid × Message)

/-- Everything one step of a call can do. -/
inductive ObserverCall.Steps (shard : Pid → Nat) (s : ObserverMap) :
    ObserverCall → ObserverMap → ObserverCall → Prop where
  | enters {pid : Pid} (free : s.gil = false) :
      Steps shard s (.getting pid .called) { s with gil := true } (.getting pid .table)
  | absent {pid : Pid} (missing : s.messages pid = none) :
      Steps shard s (.getting pid .table) { s with gil := false } (.getting pid (.returned none))
  | reaches {pid : Pid} (listed : (s.messages pid).isSome = true) :
      Steps shard s (.getting pid .table) (s.addReader (shard pid)) (.getting pid .vector)
  | copies {pid : Pid} (unlocked : s.locked pid = false) :
      Steps shard s (.getting pid .vector) { s.dropReader (shard pid) with gil := false }
        (.getting pid (.returned (s.messages pid)))
  | draws {pid : Pid} (free : s.gil = false) (fresh : s.messages pid = none) :
      Steps shard s (.spawning .called) { s with gil := true } (.spawning (.inserting pid))
  | inserts {pid : Pid} (unread : s.readers (shard pid) = 0) :
      Steps shard s (.spawning (.inserting pid))
        { s with messages := Function.update s.messages pid (some []), gil := false } (.spawning (.returned pid))
  | misses {pid : Pid} (missing : s.messages pid = none) :
      Steps shard s (.taking pid .polling) s (.taking pid .sleeping)
  | finds {pid : Pid} (listed : (s.messages pid).isSome = true) :
      Steps shard s (.taking pid .polling) (s.addReader (shard pid)) (.taking pid .vector)
  | locks {pid : Pid} (unlocked : s.locked pid = false) :
      Steps shard s (.taking pid .vector) (s.lock pid) (.taking pid (.holding 0))
  | asks {pid : Pid} {asked : Nat} (more : asked < s.length pid) (free : s.gil = false) :
      Steps shard s (.taking pid (.holding asked)) { s with gil := true } (.taking pid (.matching asked))
  | givesUp {pid : Pid} {asked : Nat} (all : s.length pid ≤ asked) :
      Steps shard s (.taking pid (.holding asked)) ((s.unlock pid).dropReader (shard pid)) (.taking pid .sleeping)
  | lends {pid : Pid} {asked : Nat} :
      Steps shard s (.taking pid (.matching asked)) { s with gil := false } (.taking pid (.lent asked))
  | resumes {pid : Pid} {asked : Nat} (free : s.gil = false) :
      Steps shard s (.taking pid (.lent asked)) { s with gil := true } (.taking pid (.matching asked))
  | refuses {pid : Pid} {asked : Nat} :
      Steps shard s (.taking pid (.matching asked)) { s with gil := false } (.taking pid (.holding (asked + 1)))
  | accepts {pid : Pid} {asked : Nat} :
      Steps shard s (.taking pid (.matching asked)) { s with gil := false } (.taking pid (.found asked))
  | removes {pid : Pid} {asked : Nat} {messages : List Message} {message : Message}
      (listed : s.messages pid = some messages)
      (there : messages[asked]? = some message) :
      Steps shard s (.taking pid (.found asked))
        (({ s with messages := Function.update s.messages pid (some (messages.eraseIdx asked)) }.unlock pid).dropReader
          (shard pid)) (.taking pid (.converting message))
  | converts {pid : Pid} {message : Message} (free : s.gil = false) :
      Steps shard s (.taking pid (.converting message)) s (.taking pid (.returned (some message)))
  | wakes {pid : Pid} : Steps shard s (.taking pid .sleeping) s (.taking pid .polling)
  | timesOut {pid : Pid} (free : s.gil = false) : Steps shard s (.taking pid .sleeping) s (.taking pid (.returned none))

namespace ObserverCall

variable {shard : Pid → Nat} {s later : ObserverMap} {call next : ObserverCall} {input : CallInput}

theorem steps_of_get {pid : Pid} {stage following : GetStage}
    (taken : stage.step shard s pid input = some (later, following)) :
    Steps shard s (.getting pid stage) later (.getting pid following) := by
  cases stage with
  | called =>
    cases input with
    | proceed =>
      simp only [GetStage.step] at taken
      split at taken
      · cases taken
      · rename_i free
        cases taken
        exact .enters (eq_false_of_ne_true free)
    | _ => cases taken
  | table =>
    cases input with
    | proceed =>
      simp only [GetStage.step] at taken
      split at taken
      · rename_i missing
        cases taken
        exact .absent missing
      · rename_i messages listed
        cases taken
        exact .reaches (by rw [listed]; rfl)
    | _ => cases taken
  | vector =>
    cases input with
    | proceed =>
      simp only [GetStage.step] at taken
      split at taken
      · cases taken
      · rename_i unlocked
        cases taken
        exact .copies (eq_false_of_ne_true unlocked)
    | _ => cases taken
  | returned result => cases input <;> cases taken

theorem steps_of_spawn {stage following : SpawnStage} (taken : stage.step shard s input = some (later, following)) :
    Steps shard s (.spawning stage) later (.spawning following) := by
  cases stage with
  | called =>
    cases input with
    | draw pid =>
      simp only [SpawnStage.step] at taken
      split at taken
      · cases taken
      · rename_i free
        cases taken
        simp only [Bool.or_eq_true, not_or, Bool.not_eq_true, Option.isSome_eq_false_iff,
          Option.isNone_iff_eq_none] at free
        exact .draws free.1 free.2
    | _ => cases taken
  | inserting pid =>
    cases input with
    | proceed =>
      simp only [SpawnStage.step] at taken
      split at taken
      · rename_i unread
        cases taken
        exact .inserts unread
      · cases taken
    | _ => cases taken
  | returned pid => cases input <;> cases taken

theorem steps_of_take {pid : Pid} {stage following : SelectStage}
    (taken : stage.step shard s pid input = some (later, following)) :
    Steps shard s (.taking pid stage) later (.taking pid following) := by
  cases stage with
  | polling =>
    cases input with
    | proceed =>
      simp only [SelectStage.step] at taken
      split at taken
      · rename_i missing
        cases taken
        exact .misses missing
      · rename_i messages listed
        cases taken
        exact .finds (by rw [listed]; rfl)
    | _ => cases taken
  | vector =>
    cases input with
    | proceed =>
      simp only [SelectStage.step] at taken
      split at taken
      · cases taken
      · rename_i unlocked
        cases taken
        exact .locks (eq_false_of_ne_true unlocked)
    | _ => cases taken
  | holding asked =>
    cases input with
    | proceed =>
      simp only [SelectStage.step] at taken
      split at taken
      · rename_i more
        split at taken
        · cases taken
        · rename_i free
          cases taken
          exact .asks more (eq_false_of_ne_true free)
      · rename_i all
        cases taken
        exact .givesUp (Nat.not_lt.mp all)
    | _ => cases taken
  | matching asked =>
    cases input with
    | lend =>
      cases taken
      exact .lends
    | answer accepted =>
      cases accepted with
      | true =>
        cases taken
        exact .accepts
      | false =>
        cases taken
        exact .refuses
    | _ => cases taken
  | lent asked =>
    cases input with
    | proceed =>
      simp only [SelectStage.step] at taken
      split at taken
      · cases taken
      · rename_i free
        cases taken
        exact .resumes (eq_false_of_ne_true free)
    | _ => cases taken
  | found asked =>
    cases input with
    | proceed =>
      simp only [SelectStage.step] at taken
      split at taken
      · cases taken
      · rename_i messages listed
        split at taken
        · cases taken
        · rename_i message there
          cases taken
          exact .removes listed there
    | _ => cases taken
  | converting message =>
    cases input with
    | proceed =>
      simp only [SelectStage.step] at taken
      split at taken
      · cases taken
      · rename_i free
        cases taken
        exact .converts (eq_false_of_ne_true free)
    | _ => cases taken
  | sleeping =>
    cases input with
    | proceed =>
      cases taken
      exact .wakes
    | elapsed =>
      simp only [SelectStage.step] at taken
      split at taken
      · cases taken
      · rename_i free
        cases taken
        exact .timesOut (eq_false_of_ne_true free)
    | _ => cases taken
  | returned result => cases input <;> cases taken

theorem steps_of_step (stepped : call.step shard s input = some (later, next)) : Steps shard s call later next := by
  cases call with
  | getting pid stage =>
    obtain ⟨⟨_, following⟩, taken, same⟩ := Option.map_eq_some_iff.mp stepped
    cases same
    exact steps_of_get taken
  | spawning stage =>
    obtain ⟨⟨_, following⟩, taken, same⟩ := Option.map_eq_some_iff.mp stepped
    cases same
    exact steps_of_spawn taken
  | taking pid stage =>
    obtain ⟨⟨_, following⟩, taken, same⟩ := Option.map_eq_some_iff.mp stepped
    cases same
    exact steps_of_take taken

/-- Whether the call has the GIL. -/
def holdsGil : ObserverCall → Nat
  | .getting _ .table | .getting _ .vector | .spawning (.inserting _) | .taking _ (.matching _) => 1
  | _ => 0

/-- Whether the call has the mutex of the vector. -/
def holdsVector (pid : Pid) : ObserverCall → Nat
  | .taking own (.holding _) | .taking own (.matching _) | .taking own (.lent _) | .taking own (.found _) =>
    if own = pid then 1 else 0
  | _ => 0

/-- Whether the call has a read lock on the shard. -/
def readsShard (shard : Pid → Nat) (part : Nat) : ObserverCall → Nat
  | .getting own .vector | .taking own .vector | .taking own (.holding _) | .taking own (.matching _)
  | .taking own (.lent _) | .taking own (.found _) => if shard own = part then 1 else 0
  | _ => 0

end ObserverCall

namespace ObserverMap

open ObserverCall Locks

inductive ObserverLock where
  | gil
  | vector (pid : Pid)
  | part (shard : Nat)

def observerLocks (shard : Pid → Nat) : Locks ObserverMap ObserverCall ObserverLock where
  taken
    | s, .gil => s.gil.toNat
    | s, .vector pid => (s.locked pid).toNat
    | s, .part part => s.readers part
  holds
    | .gil, call => call.holdsGil
    | .vector pid, call => call.holdsVector pid
    | .part part, call => call.readsShard shard part

variable {shard : Pid → Nat} {s later : ObserverMap} {call next : ObserverCall}

/-- A step takes and gives back locks together with the record of them. -/
theorem keeps_of_steps (steps : Steps shard s call later next)
    (held : ∀ lock, (observerLocks shard).holds lock call ≤ (observerLocks shard).taken s lock) :
    (observerLocks shard).Keeps s later call next := by
  have mine : call.holdsGil = 1 → s.gil = true := by
    intro holds
    have gil : call.holdsGil ≤ s.gil.toNat := held .gil
    cases free : s.gil with
    | true => rfl
    | false =>
      rw [holds, free] at gil
      cases gil
  have vector : ∀ pid, call.holdsVector pid ≤ (s.locked pid).toNat := fun pid => held (.vector pid)
  have part : ∀ part, call.readsShard shard part ≤ s.readers part := fun part => held (.part part)
  cases steps with
  | enters free => rintro (_ | pid | part) <;> simp [observerLocks, holdsGil, holdsVector, readsShard, free]
  | draws free fresh => rintro (_ | pid | part) <;> simp [observerLocks, holdsGil, holdsVector, readsShard, free]
  | asks more free => rintro (_ | pid | part) <;> simp [observerLocks, holdsGil, holdsVector, readsShard, free]
  | resumes free => rintro (_ | pid | part) <;> simp [observerLocks, holdsGil, holdsVector, readsShard, free]
  | absent missing => rintro (_ | pid | part) <;> simp [observerLocks, holdsGil, holdsVector, readsShard, mine rfl]
  | inserts unread => rintro (_ | pid | part) <;> simp [observerLocks, holdsGil, holdsVector, readsShard, mine rfl]
  | lends => rintro (_ | pid | part) <;> simp [observerLocks, holdsGil, holdsVector, readsShard, mine rfl]
  | refuses => rintro (_ | pid | part) <;> simp [observerLocks, holdsGil, holdsVector, readsShard, mine rfl]
  | accepts => rintro (_ | pid | part) <;> simp [observerLocks, holdsGil, holdsVector, readsShard, mine rfl]
  | reaches listed =>
    rintro (_ | pid | part) <;> simp [observerLocks, holdsGil, holdsVector, readsShard, addReader_readers]
  | finds listed =>
    rintro (_ | pid | part) <;> simp [observerLocks, holdsGil, holdsVector, readsShard, addReader_readers]
  | locks unlocked =>
    rintro (_ | pid | part)
    · rfl
    · exact lock_locked s _ pid unlocked
    · rfl
  | copies unlocked =>
    rintro (_ | pid | other)
    · simp [observerLocks, holdsGil, mine rfl]
    · rfl
    · have bound := part other
      simp only [observerLocks, readsShard, dropReader_readers] at bound ⊢
      omega
  | givesUp all =>
    rintro (_ | pid | other)
    · rfl
    · have bound := vector pid
      simp only [observerLocks, holdsVector, dropReader_locked, unlock_locked] at bound ⊢
      omega
    · have bound := part other
      simp only [observerLocks, readsShard, dropReader_readers, unlock_readers] at bound ⊢
      omega
  | removes listed there =>
    rintro (_ | pid | other)
    · rfl
    · have bound := vector pid
      simp only [observerLocks, holdsVector, dropReader_locked, unlock_locked] at bound ⊢
      omega
    · have bound := part other
      simp only [observerLocks, readsShard, dropReader_readers, unlock_readers] at bound ⊢
      omega
  | misses missing => rintro (_ | pid | part) <;> rfl
  | converts free => rintro (_ | pid | part) <;> rfl
  | wakes => rintro (_ | pid | part) <;> rfl
  | timesOut free => rintro (_ | pid | part) <;> rfl

/-- What a call relies on in the map between its steps. -/
def Present (s : ObserverMap) : ObserverCall → Prop
  | .getting pid .vector | .taking pid .vector | .taking pid (.holding _) => (s.messages pid).isSome = true
  | .spawning (.inserting pid) => s.messages pid = none
  | .taking pid (.matching asked) | .taking pid (.lent asked) | .taking pid (.found asked) => asked < s.length pid
  | _ => True

structure Sound (shard : Pid → Nat) (c : Config ObserverMap ObserverCall) : Prop where
  locked : (observerLocks shard).Balanced c
  present : ∀ call ∈ c.threads, Present c.shared call

theorem length_of_messages {pid : Pid} {messages : List Message} (listed : s.messages pid = some messages) :
    s.length pid = messages.length := by
  rw [length, listed]
  rfl

theorem isSome_of_length {pid : Pid} {asked : Nat} (inside : asked < s.length pid) :
    (s.messages pid).isSome = true := by
  cases listed : s.messages pid with
  | none => simp [length, listed] at inside
  | some messages => rfl

/-- What a step does to the vectors. -/
inductive Changes (s later : ObserverMap) : ObserverCall → Prop where
  | nothing {call : ObserverCall} (same : later.messages = s.messages) : Changes s later call
  | added {pid : Pid} (added : later.messages = Function.update s.messages pid (some [])) :
      Changes s later (.spawning (.inserting pid))
  | removed {pid : Pid} {asked : Nat} {messages : List Message} (listed : s.messages pid = some messages)
      (inside : asked < messages.length)
      (removed : later.messages = Function.update s.messages pid (some (messages.eraseIdx asked))) :
      Changes s later (.taking pid (.found asked))

theorem changes_of_steps (steps : Steps shard s call later next) : Changes s later call := by
  cases steps with
  | inserts unread => exact .added rfl
  | removes listed there => exact .removed listed (List.getElem?_eq_some_iff.mp there).1 rfl
  | _ => exact .nothing rfl

/-- The pid that a call is about, once it is inside. -/
def subject : ObserverCall → Option Pid
  | .getting pid _ | .spawning (.inserting pid) | .taking pid _ => some pid
  | _ => none

theorem present_of_same {other : ObserverCall}
    (same : ∀ pid, subject other = some pid → later.messages pid = s.messages pid)
    (present : Present s other) : Present later other := by
  have lengths : ∀ pid, subject other = some pid → later.length pid = s.length pid := by
    intro pid own
    rw [length, length, same pid own]
  unfold Present at present ⊢
  split at present <;> first | trivial | (rw [same _ rfl]; exact present) | (rw [lengths _ rfl]; exact present)

variable {before after : List ObserverCall}

/-- Of the calls that have the GIL or one vector there is one. -/
theorem Sound.apart (sound : Sound shard ⟨s, before ++ call :: after⟩) {other : ObserverCall}
    (member : other ∈ before ++ after) :
    (call.holdsGil = 1 → other.holdsGil = 0) ∧ ∀ pid, call.holdsVector pid = 1 → other.holdsVector pid = 0 := by
  constructor
  · intro holds
    have all : (observerLocks shard).taken s .gil ≤ (observerLocks shard).holds .gil call := by
      show s.gil.toNat ≤ call.holdsGil
      rw [holds]
      exact s.gil.toNat_le
    exact sound.locked.only_holder all member
  · intro pid holds
    have all : (observerLocks shard).taken s (.vector pid) ≤ (observerLocks shard).holds (.vector pid) call := by
      show (s.locked pid).toNat ≤ call.holdsVector pid
      rw [holds]
      exact (s.locked pid).toNat_le
    exact sound.locked.only_holder all member

theorem present_of_elsewhere {other : ObserverCall} {pid : Pid} {entry : Option (List Message)}
    (changed : later.messages = Function.update s.messages pid entry) (elsewhere : subject other ≠ some pid)
    (present : Present s other) : Present later other := by
  apply present_of_same _ present
  intro about mine
  have different : about ≠ pid := by
    rintro rfl
    exact elsewhere mine
  rw [changed, Function.update_of_ne different]

/-- The others find what they rely on. -/
theorem Sound.others (sound : Sound shard ⟨s, before ++ call :: after⟩) (changes : Changes s later call) :
    ∀ other ∈ before ++ after, Present later other := by
  intro other member
  have present := sound.present other (mem_replaced member)
  cases changes with
  | nothing same => exact present_of_same (fun pid _ => congrFun same pid) present
  | @added pid added =>
    by_cases own : subject other = some pid
    · have fresh : s.messages pid = none := sound.present (.spawning (.inserting pid)) (by simp)
      have alone := (sound.apart member).1 rfl
      cases other with
      | getting other stage =>
        cases own
        cases stage <;> trivial
      | spawning stage =>
        cases stage with
        | inserting other => cases alone
        | _ => cases own
      | taking other stage =>
        cases own
        cases stage <;> first | trivial | (simp [Present, length, fresh] at present)
    · exact present_of_elsewhere added own present
  | @removed pid asked messages listed inside removed =>
    by_cases own : subject other = some pid
    · have alone : other.holdsVector pid = 0 := (sound.apart member).2 pid (by simp [holdsVector])
      have still : (later.messages pid).isSome = true := by
        rw [removed, Function.update_self]
        rfl
      cases other with
      | getting other stage =>
        cases own
        cases stage <;> trivial
      | spawning stage =>
        cases stage with
        | inserting other =>
          cases own
          simp [Present, listed] at present
        | _ => trivial
      | taking other stage =>
        cases own
        cases stage <;> first | trivial | exact still | (simp [holdsVector] at alone)
    · exact present_of_elsewhere removed own present

theorem length_push (s : ObserverMap) (pid other : Pid) (message : Message) :
    s.length other ≤ (s.push pid message).length other := by
  rw [length, length, push_messages]
  split
  · cases s.messages other with
    | none => exact Nat.le_refl _
    | some messages => simp
  · exact Nat.le_refl _

theorem present_push {pid : Pid} {message : Message} (present : Present s call) :
    Present (s.push pid message) call := by
  have kept : ∀ other, ((s.push pid message).messages other).isSome = (s.messages other).isSome := by
    intro other
    rw [push_messages]
    split
    · exact Option.isSome_map
    · rfl
  unfold Present at present ⊢
  split at present
  · exact (kept _).trans present
  · exact (kept _).trans present
  · exact (kept _).trans present
  · rw [← Option.isNone_iff_eq_none, ← Option.not_isSome, Bool.not_eq_true'] at present ⊢
    exact (kept _).trans present
  · exact Nat.lt_of_lt_of_le present (length_push s _ _ _)
  · exact Nat.lt_of_lt_of_le present (length_push s _ _ _)
  · exact Nat.lt_of_lt_of_le present (length_push s _ _ _)
  · trivial

theorem present_of_steps (steps : Steps shard s call later next) (present : Present s call) : Present later next := by
  cases steps with
  | reaches listed => exact listed
  | draws free fresh => exact fresh
  | finds listed => exact listed
  | locks unlocked => exact present
  | asks more free => exact more
  | lends => exact present
  | resumes free => exact present
  | refuses => exact isSome_of_length present
  | accepts => exact present
  | _ => trivial

theorem Sound.step (sound : Sound shard ⟨s, before ++ call :: after⟩) (steps : Steps shard s call later next) :
    Sound shard ⟨later, before ++ next :: after⟩ := by
  refine ⟨sound.locked.step (keeps_of_steps steps sound.locked.held), ?_⟩
  have mine := present_of_steps steps (sound.present call (by simp))
  have others := sound.others (changes_of_steps steps)
  intro other member
  rw [List.mem_append, List.mem_cons] at member
  rcases member with early | rfl | late
  · exact others other (List.mem_append_left _ early)
  · exact mine
  · exact others other (List.mem_append_right _ late)

theorem Sound.move {c d : Config ObserverMap ObserverCall} {move : ObserverMove} (sound : Sound shard c)
    (moves : (observerCalls shard).Moves c move d) : Sound shard d := by
  cases moves with
  | @start s calls call allowed =>
    have idle : (∀ lock, (observerLocks shard).holds lock call = 0) ∧ Present s call := by
      cases call with
      | getting pid stage =>
        cases stage with
        | called => exact ⟨fun lock => by cases lock <;> rfl, trivial⟩
        | _ => cases allowed
      | spawning stage =>
        cases stage with
        | called => exact ⟨fun lock => by cases lock <;> rfl, trivial⟩
        | _ => cases allowed
      | taking pid stage =>
        cases stage with
        | polling => exact ⟨fun lock => by cases lock <;> rfl, trivial⟩
        | _ => cases allowed
    refine ⟨sound.locked.start idle.1, ?_⟩
    rw [List.forall_mem_append, List.forall_mem_singleton]
    exact ⟨sound.present, idle.2⟩
  | @step s later before after new call next input stepped =>
    obtain ⟨⟨_, _⟩, taken, same⟩ := Option.map_eq_some_iff.mp stepped
    cases same
    rw [List.append_nil]
    exact sound.step (steps_of_step taken)
  | @ambient s later calls record done =>
    unfold observerCalls at done
    dsimp only at done
    split at done
    · cases done
    · cases done
      refine ⟨sound.locked.ambient fun lock => by cases lock <;> rfl, ?_⟩
      intro call member
      exact present_push (sound.present call member)

end ObserverMap

end Myrmidon.Python
