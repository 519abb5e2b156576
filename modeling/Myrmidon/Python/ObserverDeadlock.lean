import Myrmidon.Python.ObserverLocks

namespace Myrmidon.Python

open Transition

namespace ObserverMap

open ObserverCall Locks Program

variable {shard : Pid → Nat} {s later : ObserverMap} {call next other : ObserverCall} {before after : List ObserverCall}
  {c d : Config ObserverMap ObserverCall}

/-- The call has the vector and needs the GIL before it gives it back. -/
def Waits (s : ObserverMap) (pid : Pid) : ObserverCall → Prop
  | .taking own (.holding asked) => own = pid ∧ asked < s.length pid
  | .taking own (.lent _) => own = pid
  | _ => False

/-- The calls that are about to take a message out of the vector. -/
def removing (pid : Pid) : ObserverCall → Nat
  | .taking own (.found _) => if own = pid then 1 else 0
  | _ => 0

/-- The call has a lock on the shard and needs the GIL before it gives it back. -/
def Clings (shard : Pid → Nat) (c : Config ObserverMap ObserverCall) (part : Nat) : ObserverCall → Prop
  | .taking own .vector => shard own = part ∧ total (removing own) c.threads < c.shared.length own
  | .taking own (.holding asked) => shard own = part ∧ asked < c.shared.length own
  | .taking own (.lent _) => shard own = part
  | _ => False

/-- A call that has the GIL is in `get_messages` for a vector, or in
    `spawn_observed_handler` for a shard, that a selective receive keeps until it gets the GIL. -/
inductive Deadlocked (shard : Pid → Nat) (c : Config ObserverMap ObserverCall) : Prop where
  | getting {pid : Pid} {stage : GetStage} (getter : .getting pid stage ∈ c.threads)
      (inside : stage = .table ∨ stage = .vector) (waiter : ∃ call ∈ c.threads, Waits c.shared pid call)
  | spawning {pid : Pid} (spawner : .spawning (.inserting pid) ∈ c.threads)
      (clinger : ∃ call ∈ c.threads, Clings shard c (shard pid) call)

/-- The GIL is never given back. -/
def Frozen (shard : Pid → Nat) (c : Config ObserverMap ObserverCall) : Prop :=
  ∀ moves d, (observerCalls shard).machine.run c moves = some d → d.shared.gil = true

theorem Sound.gil_of_mem (sound : Sound shard c) (member : call ∈ c.threads) (holds : call.holdsGil = 1) :
    c.shared.gil = true := by
  have taken : (observerLocks shard).taken c.shared .gil ≠ 0 := sound.locked.taken_of_mem .gil member
    (show call.holdsGil ≠ 0 by omega)
  cases gil : c.shared.gil with
  | true => rfl
  | false => simp [observerLocks, gil] at taken

theorem Sound.locked_of_mem (sound : Sound shard c) (member : call ∈ c.threads) {pid : Pid}
    (holds : call.holdsVector pid = 1) : c.shared.locked pid = true := by
  have taken : (observerLocks shard).taken c.shared (.vector pid) ≠ 0 := sound.locked.taken_of_mem (.vector pid) member
    (show call.holdsVector pid ≠ 0 by omega)
  cases locked : c.shared.locked pid with
  | true => rfl
  | false => simp [observerLocks, locked] at taken

theorem Sound.read_of_mem (sound : Sound shard c) (member : call ∈ c.threads) {part : Nat}
    (reads : call.readsShard shard part = 1) : c.shared.readers part ≠ 0 :=
  sound.locked.taken_of_mem (.part part) member (show call.readsShard shard part ≠ 0 by omega)

theorem Waits.holdsVector {pid : Pid} (waits : Waits s pid call) : call.holdsVector pid = 1 := by
  unfold Waits at waits
  split at waits
  · simp [ObserverCall.holdsVector, waits.1]
  · simp [ObserverCall.holdsVector, waits]
  · exact waits.elim

theorem Clings.reads {part : Nat} (clings : Clings shard c part call) : call.readsShard shard part = 1 := by
  unfold Clings at clings
  split at clings
  · simp [readsShard, clings.1]
  · simp [readsShard, clings.1]
  · simp [readsShard, clings]
  · exact clings.elim

/-- Without the GIL, a vector loses just what was about to be taken out of it. -/
theorem drains (steps : Steps shard s call later next) (taken : s.gil = true) (without : call.holdsGil = 0)
    (pid : Pid) :
    later.length pid + removing pid call = s.length pid + removing pid next := by
  cases steps with
  | @removes own asked messages message listed there =>
    have inside := (List.getElem?_eq_some_iff.mp there).1
    by_cases same : own = pid
    · subst same
      have before := length_of_messages listed
      simp only [removing, if_true, Nat.add_zero]
      show (((Function.update s.messages own (some (messages.eraseIdx asked))) own).getD []).length + 1 = s.length own
      rw [Function.update_self, Option.getD_some, List.length_eraseIdx_of_lt inside, before]
      omega
    · simp only [removing, if_neg same]
      show (((Function.update s.messages own (some (messages.eraseIdx asked))) pid).getD []).length + 0 = s.length pid
      rw [Function.update_of_ne (Ne.symm same)]
      rfl
  | enters free => rw [taken] at free; cases free
  | draws free fresh => rw [taken] at free; cases free
  | asks more free => rw [taken] at free; cases free
  | resumes free => rw [taken] at free; cases free
  | inserts unread => cases without
  | accepts => cases without
  | _ => rfl

theorem removing_le_holds (pid : Pid) (call : ObserverCall) : removing pid call ≤ call.holdsVector pid := by
  unfold removing
  split
  · exact Nat.le_refl _
  · exact Nat.zero_le _

theorem holdsVector_le (pid : Pid) (call : ObserverCall) : call.holdsVector pid ≤ 1 := by
  unfold ObserverCall.holdsVector
  split <;> first | omega | (split <;> omega)

/-- While another call has the vector nothing is taken out of it. -/
theorem Sound.grows (sound : Sound shard ⟨s, before ++ call :: after⟩) (steps : Steps shard s call later next)
    (taken : s.gil = true) (without : call.holdsGil = 0) (member : other ∈ before ++ after) {pid : Pid}
    (holds : other.holdsVector pid = 1) : s.length pid ≤ later.length pid := by
  have moved := drains steps taken without pid
  have none : removing pid call = 0 := by
    by_contra some
    have most := removing_le_holds pid call
    have one := holdsVector_le pid call
    have alone := (sound.apart member).2 pid (by omega)
    omega
  omega

theorem Waits.elsewhere (sound : Sound shard ⟨s, before ++ call :: after⟩) (steps : Steps shard s call later next)
    (taken : s.gil = true) (without : call.holdsGil = 0) (member : other ∈ before ++ after) {pid : Pid}
    (waits : Waits s pid other) : Waits later pid other := by
  have more := sound.grows steps taken without member waits.holdsVector
  unfold Waits at waits ⊢
  split at waits
  · exact ⟨waits.1, Nat.lt_of_lt_of_le waits.2 more⟩
  · exact waits
  · exact waits

theorem Clings.elsewhere (sound : Sound shard ⟨s, before ++ call :: after⟩) (steps : Steps shard s call later next)
    (taken : s.gil = true) (without : call.holdsGil = 0) (member : other ∈ before ++ after) {part : Nat}
    (clings : Clings shard ⟨s, before ++ call :: after⟩ part other) :
    Clings shard ⟨later, before ++ next :: after⟩ part other := by
  unfold Clings at clings ⊢
  split at clings
  · rename_i own
    obtain ⟨here, left⟩ := clings
    have moved := drains steps taken without own
    rw [total_at] at left
    rw [total_at]
    dsimp only at left ⊢
    exact ⟨here, by omega⟩
  · rename_i own asked
    have holds : (ObserverCall.taking own (.holding asked)).holdsVector own = 1 := if_pos rfl
    have more := sound.grows steps taken without member holds
    exact ⟨clings.1, Nat.lt_of_lt_of_le clings.2 more⟩
  · exact clings
  · exact clings

/-- A call that waits for the GIL does not move while another one has it. -/
theorem not_waits_of_steps (steps : Steps shard s call later next) (taken : s.gil = true) (pid : Pid) :
    ¬ Waits s pid call := by
  intro waits
  cases steps with
  | asks more free => rw [taken] at free; cases free
  | givesUp all =>
    obtain ⟨rfl, left⟩ := waits
    exact absurd left (Nat.not_lt.mpr all)
  | resumes free => rw [taken] at free; cases free
  | _ => exact waits

/-- A call that clings to a shard still does so after its step. -/
theorem Clings.step (steps : Steps shard s call later next) (taken : s.gil = true) {part : Nat}
    (clings : Clings shard ⟨s, before ++ call :: after⟩ part call) :
    Clings shard ⟨later, before ++ next :: after⟩ part next := by
  cases steps with
  | locks unlocked => exact ⟨clings.1, Nat.lt_of_le_of_lt (Nat.zero_le _) clings.2⟩
  | asks more free => rw [taken] at free; cases free
  | givesUp all => exact absurd clings.2 (Nat.not_lt.mpr all)
  | resumes free => rw [taken] at free; cases free
  | _ => exact clings.elim

theorem without_gil (sound : Sound shard ⟨s, before ++ call :: after⟩) (member : other ∈ before ++ after)
    (holds : other.holdsGil = 1) : call.holdsGil = 0 := by
  have apart := (sound.apart member).1
  cases call with
  | getting pid stage => cases stage <;> first | rfl | (rw [apart rfl] at holds; cases holds)
  | spawning stage => cases stage <;> first | rfl | (rw [apart rfl] at holds; cases holds)
  | taking pid stage => cases stage <;> first | rfl | (rw [apart rfl] at holds; cases holds)

theorem Deadlocked.step (sound : Sound shard ⟨s, before ++ call :: after⟩)
    (dead : Deadlocked shard ⟨s, before ++ call :: after⟩) (steps : Steps shard s call later next) :
    Deadlocked shard ⟨later, before ++ next :: after⟩ := by
  cases dead with
  | @getting pid stage getter inside waiter =>
    obtain ⟨w, present, waits⟩ := waiter
    have holds : (ObserverCall.getting pid stage).holdsGil = 1 := by rcases inside with rfl | rfl <;> rfl
    have taken : s.gil = true := sound.gil_of_mem getter holds
    have sleeper : w ≠ call := by
      rintro rfl
      exact not_waits_of_steps steps taken pid waits
    have elsewhere := mem_elsewhere present sleeper
    by_cases mine : ObserverCall.getting pid stage = call
    · subst mine
      have locked : s.locked pid = true := sound.locked_of_mem present waits.holdsVector
      cases steps with
      | enters free => rw [taken] at free; cases free
      | absent missing =>
        have relied := sound.present w present
        dsimp only at relied
        unfold Waits at waits
        split at waits
        · rw [waits.1, Present, missing] at relied
          cases relied
        · rw [waits, Present, length, missing] at relied
          cases relied
        · exact waits.elim
      | reaches listed => exact .getting (by simp) (.inr rfl) ⟨w, mem_replaced elsewhere, waits⟩
      | copies unlocked => rw [locked] at unlocked; cases unlocked
    · have getter := mem_elsewhere getter mine
      have without := without_gil sound getter holds
      exact .getting (mem_replaced getter) inside
        ⟨w, mem_replaced elsewhere, waits.elsewhere sound steps taken without elsewhere⟩
  | @spawning pid spawner clinger =>
    obtain ⟨w, present, clings⟩ := clinger
    have taken : s.gil = true := sound.gil_of_mem spawner rfl
    by_cases mine : ObserverCall.spawning (.inserting pid) = call
    · subst mine
      have read := sound.read_of_mem present clings.reads
      cases steps with
      | inserts unread => exact absurd unread read
    · have holder := mem_elsewhere spawner mine
      have without := without_gil sound holder rfl
      by_cases moved : w = call
      · subst moved
        exact .spawning (mem_replaced holder) ⟨next, by simp, clings.step steps taken⟩
      · have elsewhere := mem_elsewhere present moved
        exact .spawning (mem_replaced holder)
          ⟨w, mem_replaced elsewhere, clings.elsewhere sound steps taken without elsewhere⟩

theorem removing_of_starts (allowed : (observerCalls shard).starts call = true) (pid : Pid) :
    removing pid call = 0 := by
  cases call with
  | taking own stage =>
    cases stage with
    | polling => rfl
    | _ => cases allowed
  | _ => rfl

theorem Deadlocked.move {move : ObserverMove} (sound : Sound shard c) (dead : Deadlocked shard c)
    (moves : (observerCalls shard).Moves c move d) : Deadlocked shard d := by
  cases moves with
  | @start s calls call allowed =>
    cases dead with
    | getting getter inside waiter =>
      obtain ⟨w, present, waits⟩ := waiter
      exact .getting (List.mem_append_left _ getter) inside ⟨w, List.mem_append_left _ present, waits⟩
    | spawning spawner clinger =>
      obtain ⟨w, present, clings⟩ := clinger
      refine .spawning (List.mem_append_left _ spawner) ⟨w, List.mem_append_left _ present, ?_⟩
      unfold Clings at clings ⊢
      split at clings
      · rw [total_append, total_cons, removing_of_starts allowed]
        exact clings
      · exact clings
      · exact clings
      · exact clings
  | @step s later before after new call next input stepped =>
    obtain ⟨⟨_, _⟩, taken, same⟩ := Option.map_eq_some_iff.mp stepped
    cases same
    rw [List.append_nil]
    exact dead.step sound (steps_of_step taken)
  | @ambient s later calls record done =>
    unfold observerCalls at done
    dsimp only at done
    split at done
    · cases done
    · cases done
      cases dead with
      | getting getter inside waiter =>
        obtain ⟨w, present, waits⟩ := waiter
        refine .getting getter inside ⟨w, present, ?_⟩
        unfold Waits at waits ⊢
        split at waits
        · exact ⟨waits.1, Nat.lt_of_lt_of_le waits.2 (length_push s _ _ _)⟩
        · exact waits
        · exact waits
      | spawning spawner clinger =>
        obtain ⟨w, present, clings⟩ := clinger
        refine .spawning spawner ⟨w, present, ?_⟩
        unfold Clings at clings ⊢
        split at clings
        · exact ⟨clings.1, Nat.lt_of_lt_of_le clings.2 (length_push s _ _ _)⟩
        · exact ⟨clings.1, Nat.lt_of_lt_of_le clings.2 (length_push s _ _ _)⟩
        · exact clings
        · exact clings

theorem Deadlocked.gil (sound : Sound shard c) (dead : Deadlocked shard c) : c.shared.gil = true := by
  cases dead with
  | getting getter inside waiter => exact sound.gil_of_mem getter (by rcases inside with rfl | rfl <;> rfl)
  | spawning spawner clinger => exact sound.gil_of_mem spawner rfl

theorem Frozen.of_deadlocked (sound : Sound shard c) (dead : Deadlocked shard c) : Frozen shard c := by
  intro moves d reached
  have kept : Sound shard d ∧ Deadlocked shard d := by
    apply (observerCalls shard).machine.run_invariant (P := fun c => Sound shard c ∧ Deadlocked shard c) _ ⟨sound, dead⟩
      reached
    rintro c move d ⟨sound, dead⟩ taken
    have moved := (observerCalls shard).moves_of_step taken
    exact ⟨sound.move moved, dead.move sound moved⟩
  exact kept.2.gil kept.1

/-- The GIL can be given back. -/
def Releases (shard : Pid → Nat) (c : Config ObserverMap ObserverCall) : Prop :=
  ∃ moves d, (observerCalls shard).machine.run c moves = some d ∧ d.shared.gil = false

theorem Releases.of_step {input : CallInput} (stepped : call.step shard s input = some (later, next))
    (rest : Releases shard ⟨later, before ++ next :: after⟩) : Releases shard ⟨s, before ++ call :: after⟩ := by
  obtain ⟨moves, d, ran, released⟩ := rest
  have taken : (observerCalls shard).step before.length s call input = some (later, next, []) := by
    show (call.step shard s input).map _ = _
    rw [stepped]
    rfl
  refine ⟨.step before.length input :: moves, d, ?_, released⟩
  rw [Machine.run_cons, (observerCalls shard).machine_step_at taken, Option.bind_some, List.append_nil]
  exact ran

theorem releases_of_gil (free : c.shared.gil = false) : Releases shard c := ⟨[], c, rfl, free⟩

/-- A call that has a vector, and neither has nor needs the GIL, gives it back with its next step. -/
theorem exists_unlock (present : Present s call) {pid : Pid} (holds : call.holdsVector pid ≠ 0)
    (without : call.holdsGil = 0) (free : ¬ Waits s pid call) :
    ∃ later next, call.step shard s .proceed = some (later, next) ∧ later.locked pid = false ∧
      (next = .taking pid .sleeping ∨ ∃ message, next = .taking pid (.converting message)) := by
  cases call with
  | getting own stage => exact absurd rfl holds
  | spawning stage => exact absurd rfl holds
  | taking own stage =>
    cases stage with
    | holding asked =>
      have same : own = pid := by simpa [ObserverCall.holdsVector] using holds
      subst same
      have all : ¬ asked < s.length own := fun more => free ⟨rfl, more⟩
      refine ⟨(s.unlock own).dropReader (shard own), _, ?_, ?_, .inl rfl⟩
      · simp [ObserverCall.step, SelectStage.step, all]
      · simp [unlock]
    | matching asked => cases without
    | lent asked =>
      have same : own = pid := by simpa [ObserverCall.holdsVector] using holds
      exact absurd same free
    | found asked =>
      have same : own = pid := by simpa [ObserverCall.holdsVector] using holds
      subst same
      obtain ⟨messages, listed⟩ := Option.isSome_iff_exists.mp (isSome_of_length present)
      have inside : asked < messages.length := length_of_messages listed ▸ present
      let drained := { s with messages := Function.update s.messages own (some (messages.eraseIdx asked)) }
      refine ⟨(drained.unlock own).dropReader (shard own), _, ?_, ?_, .inr ⟨messages[asked], rfl⟩⟩
      · simp [drained, ObserverCall.step, SelectStage.step, listed, List.getElem?_eq_getElem inside]
      · simp [unlock]
    | _ => exact absurd rfl holds

theorem releases_of_unlocked {pid : Pid} (getter : .getting pid .vector ∈ c.threads)
    (unlocked : c.shared.locked pid = false) :
    Releases shard c := by
  obtain ⟨s, threads⟩ := c
  obtain ⟨before, after, rfl⟩ := List.append_of_mem getter
  have stepped : (ObserverCall.getting pid .vector).step shard s .proceed =
      some ({ s.dropReader (shard pid) with gil := false }, .getting pid (.returned (s.messages pid))) := by
    dsimp only at unlocked
    simp [ObserverCall.step, GetStage.step, unlocked]
  exact .of_step stepped (releases_of_gil rfl)

theorem releases_of_getter (sound : Sound shard c) {pid : Pid} (getter : .getting pid .vector ∈ c.threads)
    (free : ∀ call ∈ c.threads, ¬ Waits c.shared pid call) : Releases shard c := by
  cases locked : c.shared.locked pid with
  | false => exact releases_of_unlocked getter locked
  | true =>
    obtain ⟨w, member, holds⟩ := sound.locked.exists_holder (.vector pid) (by simp [observerLocks, locked])
    obtain ⟨s, threads⟩ := c
    obtain ⟨before, after, rfl⟩ := List.append_of_mem member
    have other : ObserverCall.getting pid .vector ∈ before ++ after := by
      apply mem_elsewhere getter
      rintro rfl
      exact holds rfl
    obtain ⟨later, next, stepped, unlocked, -⟩ :=
      exists_unlock (sound.present w member) holds (without_gil sound other rfl) (free w member)
    exact .of_step stepped (releases_of_unlocked (mem_replaced other) unlocked)

theorem Waits.clings {pid : Pid} (waits : Waits c.shared pid call) : Clings shard c (shard pid) call := by
  unfold Waits at waits
  split at waits
  · obtain ⟨rfl, left⟩ := waits
    exact ⟨rfl, left⟩
  · exact congrArg shard waits
  · exact waits.elim

/-- What is left of a call before it gives up the shard. -/
def weight (shard : Pid → Nat) (part : Nat) : ObserverCall → Nat
  | .taking own .vector => if shard own = part then 2 else 0
  | .taking own (.holding _) | .taking own (.matching _) | .taking own (.lent _) | .taking own (.found _) =>
    if shard own = part then 1 else 0
  | _ => 0

/-- No call clings to the shard. -/
def Calm (shard : Pid → Nat) (part : Nat) (c : Config ObserverMap ObserverCall) : Prop :=
  ∀ call ∈ c.threads, ¬ Clings shard c part call

/-- A step of a call that does not come to take a message out leaves the others calm. -/
theorem Calm.step {part : Nat} (calm : Calm shard part ⟨s, before ++ call :: after⟩)
    (steps : Steps shard s call later next)
    (taken : s.gil = true) (without : call.holdsGil = 0) (leaves : ∀ pid, removing pid next = 0)
    (mine : ¬ Clings shard ⟨later, before ++ next :: after⟩ part next) :
    Calm shard part ⟨later, before ++ next :: after⟩ := by
  intro other member clings
  by_cases own : other = next
  · exact mine (own ▸ clings)
  · have elsewhere := mem_elsewhere member own
    apply calm other (mem_replaced elsewhere)
    unfold Clings at clings ⊢
    split at clings
    · rename_i about
      obtain ⟨here, left⟩ := clings
      have moved := drains steps taken without about
      rw [total_at] at left
      rw [total_at]
      dsimp only at left ⊢
      exact ⟨here, by omega⟩
    · rename_i about asked
      have moved := drains steps taken without about
      have none := leaves about
      have left := clings.2
      dsimp only at left ⊢
      exact ⟨clings.1, by omega⟩
    · exact clings
    · exact clings

theorem weight_of_holder {pid : Pid} (holds : call.holdsVector pid ≠ 0) : weight shard (shard pid) call = 1 := by
  have mine : ∀ own, (if own = pid then 1 else 0) ≠ 0 → (if shard own = shard pid then 1 else 0) = 1 := by
    intro own holds
    have same : own = pid := by simpa using holds
    rw [same, if_pos rfl]
  unfold ObserverCall.holdsVector at holds
  split at holds <;> first | exact mine _ holds | exact absurd rfl holds

/-- Some call can take a step towards giving up the shard. -/
inductive GivesWay (shard : Pid → Nat) (part : Nat) (spawner : ObserverCall) (s : ObserverMap) :
    List ObserverCall → Prop where
  | step {before after : List ObserverCall} {call next : ObserverCall} {later : ObserverMap}
      (elsewhere : spawner ∈ before ++ after) (stepped : call.step shard s .proceed = some (later, next))
      (lighter : weight shard part next < weight shard part call) (leaves : ∀ pid, removing pid next = 0)
      (calm : ¬ Clings shard ⟨later, before ++ next :: after⟩ part next) :
      GivesWay shard part spawner s (before ++ call :: after)

theorem givesWay_of_holder {threads : List ObserverCall} (sound : Sound shard ⟨s, threads⟩) {pid own : Pid}
    (spawner : .spawning (.inserting pid) ∈ threads) (calm : Calm shard (shard own) ⟨s, threads⟩)
    (member : call ∈ threads)
    (holds : call.holdsVector own ≠ 0) : GivesWay shard (shard own) (.spawning (.inserting pid)) s threads := by
  obtain ⟨before, after, rfl⟩ := List.append_of_mem member
  have elsewhere : ObserverCall.spawning (.inserting pid) ∈ before ++ after := by
    apply mem_elsewhere spawner
    rintro rfl
    exact holds rfl
  have free : ¬ Waits s own call := fun waits => calm call member waits.clings
  have heavy : weight shard (shard own) call = 1 := weight_of_holder holds
  obtain ⟨later, next, stepped, -, rfl | ⟨message, rfl⟩⟩ :=
    exists_unlock (sound.present call member) holds (without_gil sound elsewhere rfl) free
  · exact .step elsewhere stepped (by rw [heavy]; exact Nat.one_pos) (fun _ => rfl) id
  · exact .step elsewhere stepped (by rw [heavy]; exact Nat.one_pos) (fun _ => rfl) id

/-- A call that reads a calm shard gives it up, or takes the vector first, or
    waits for one that gives the vector back. -/
theorem givesWay_of_read {threads : List ObserverCall} (sound : Sound shard ⟨s, threads⟩) {pid : Pid}
    (spawner : .spawning (.inserting pid) ∈ threads) (calm : Calm shard (shard pid) ⟨s, threads⟩)
    (read : s.readers (shard pid) ≠ 0) : GivesWay shard (shard pid) (.spawning (.inserting pid)) s threads := by
  obtain ⟨w, member, reads⟩ := sound.locked.exists_holder (.part (shard pid)) read
  have holder : ∀ own, shard own = shard pid → ∀ call ∈ threads, call.holdsVector own ≠ 0 →
      GivesWay shard (shard pid) (.spawning (.inserting pid)) s threads := by
    intro own here call member holds
    rw [← here] at calm ⊢
    exact givesWay_of_holder sound spawner calm member holds
  cases w with
  | getting own stage =>
    cases stage with
    | vector =>
      obtain ⟨before, after, rfl⟩ := List.append_of_mem member
      have elsewhere := mem_elsewhere spawner (by simp)
      have without := without_gil sound elsewhere rfl
      cases without
    | _ => exact absurd rfl reads
  | spawning stage => cases stage <;> exact absurd rfl reads
  | taking own stage =>
    have here : ∀ {n}, (if shard own = shard pid then 1 else 0) = n → n ≠ 0 → shard own = shard pid := by
      intro n same positive
      by_contra other
      rw [if_neg other] at same
      exact positive same.symm
    cases stage with
    | vector =>
      have here := here rfl reads
      cases locked : s.locked own with
      | true =>
        obtain ⟨h, present, holds⟩ := sound.locked.exists_holder (.vector own) (by simp [observerLocks, locked])
        exact holder own here h present holds
      | false =>
        have few : s.length own ≤ total (removing own) threads :=
          Nat.not_lt.mp fun left => calm _ member ⟨here, left⟩
        have none : total (removing own) threads = 0 := by
          apply total_eq_zero
          intro call present
          by_contra some
          have most := removing_le_holds own call
          have one := holdsVector_le own call
          have taken := sound.locked_of_mem present (show call.holdsVector own = 1 by omega)
          rw [locked] at taken
          cases taken
        obtain ⟨before, after, rfl⟩ := List.append_of_mem member
        have elsewhere := mem_elsewhere spawner (by simp)
        have stepped : (ObserverCall.taking own .vector).step shard s .proceed =
            some (s.lock own, .taking own (.holding 0)) := by
          simp [ObserverCall.step, SelectStage.step, locked]
        apply GivesWay.step elsewhere stepped
        · simp [weight, here]
        · exact fun _ => rfl
        · rintro ⟨-, left⟩
          have same : (s.lock own).length own = s.length own := rfl
          dsimp only at left
          omega
    | holding asked => exact holder own (here rfl reads) _ member (by simp [ObserverCall.holdsVector])
    | matching asked => exact holder own (here rfl reads) _ member (by simp [ObserverCall.holdsVector])
    | lent asked => exact holder own (here rfl reads) _ member (by simp [ObserverCall.holdsVector])
    | found asked => exact holder own (here rfl reads) _ member (by simp [ObserverCall.holdsVector])
    | _ => exact absurd rfl reads

theorem releases_of_spawner (sound : Sound shard c) {pid : Pid} (spawner : .spawning (.inserting pid) ∈ c.threads)
    (calm : Calm shard (shard pid) c) : Releases shard c := by
  induction left : total (weight shard (shard pid)) c.threads using Nat.strong_induction_on generalizing c with
  | _ left ih =>
    obtain ⟨s, threads⟩ := c
    by_cases unread : s.readers (shard pid) = 0
    · obtain ⟨before, after, rfl⟩ := List.append_of_mem spawner
      have stepped : (ObserverCall.spawning (.inserting pid)).step shard s .proceed =
          some ({ s with messages := Function.update s.messages pid (some []), gil := false },
            .spawning (.returned pid)) := by
        simp [ObserverCall.step, SpawnStage.step, unread]
      exact .of_step stepped (releases_of_gil rfl)
    · have taken : s.gil = true := sound.gil_of_mem spawner rfl
      cases givesWay_of_read sound spawner calm unread with
      | @step before after call next later elsewhere stepped lighter leaves mine =>
        have without := without_gil sound elsewhere rfl
        have steps := steps_of_step stepped
        refine .of_step stepped (ih _ ?_ (sound.step steps) (mem_replaced elsewhere)
          (calm.step steps taken without leaves mine) rfl)
        rw [← left, total_at, total_at]
        omega

theorem exists_release (sound : Sound shard c) (free : ¬ Deadlocked shard c) : Releases shard c := by
  cases gil : c.shared.gil with
  | false => exact releases_of_gil gil
  | true =>
    obtain ⟨w, member, holds⟩ := sound.locked.exists_holder .gil (by simp [observerLocks, gil])
    have waitless : ∀ pid stage, ObserverCall.getting pid stage ∈ c.threads → stage = .table ∨ stage = .vector →
        ∀ call ∈ c.threads, ¬ Waits c.shared pid call :=
      fun pid stage getter inside call member waits => free (.getting getter inside ⟨call, member, waits⟩)
    cases w with
    | getting pid stage =>
      cases stage with
      | vector => exact releases_of_getter sound member (waitless pid .vector member (.inr rfl))
      | table =>
        have quiet := waitless pid .table member (.inl rfl)
        obtain ⟨s, threads⟩ := c
        obtain ⟨before, after, rfl⟩ := List.append_of_mem member
        cases listed : s.messages pid with
        | none =>
          have stepped : (ObserverCall.getting pid .table).step shard s .proceed =
              some ({ s with gil := false }, .getting pid (.returned none)) := by
            simp [ObserverCall.step, GetStage.step, listed]
          exact .of_step stepped (releases_of_gil rfl)
        | some messages =>
          have stepped : (ObserverCall.getting pid .table).step shard s .proceed =
              some (s.addReader (shard pid), .getting pid .vector) := by
            simp [ObserverCall.step, GetStage.step, listed]
          refine .of_step stepped (releases_of_getter (sound.step (steps_of_step stepped))
            (List.mem_append_right _ List.mem_cons_self) ?_)
          intro call present waits
          by_cases own : call = .getting pid .vector
          · subst own
            exact waits
          · exact quiet call (mem_replaced (mem_elsewhere present own)) waits
      | _ => exact absurd rfl holds
    | spawning stage =>
      cases stage with
      | inserting pid =>
        exact releases_of_spawner sound member fun call present clings =>
          free (.spawning member ⟨call, present, clings⟩)
      | _ => exact absurd rfl holds
    | taking pid stage =>
      cases stage with
      | matching asked =>
        obtain ⟨s, threads⟩ := c
        obtain ⟨before, after, rfl⟩ := List.append_of_mem member
        have stepped : (ObserverCall.taking pid (.matching asked)).step shard s (.answer false) =
            some ({ s with gil := false }, .taking pid (.holding (asked + 1))) := rfl
        exact .of_step stepped (releases_of_gil rfl)
      | _ => exact absurd rfl holds

theorem empty_sound : Sound shard ⟨.empty, []⟩ :=
  ⟨balanced_of_idle (fun lock => by cases lock <;> rfl) (by simp), by simp⟩

end ObserverMap

open ObserverMap

/-- Whichever shards the pids are in, the interpreter is frozen just if a call
    that has the GIL, of `get_messages` or of `spawn_observed_handler`, needs a
    lock that a selective receive keeps until its matcher gets the GIL. -/
theorem observers_freeze_iff (shard : Pid → Nat) (moves : List ObserverMove) (c : Config ObserverMap ObserverCall)
    (reached : (observerCalls shard).machine.run ⟨.empty, []⟩ moves = some c) :
    Frozen shard c ↔ Deadlocked shard c := by
  have sound : Sound shard c := (observerCalls shard).machine.run_invariant
    (fun _ _ _ sound taken => sound.move ((observerCalls shard).moves_of_step taken)) empty_sound reached
  constructor
  · intro frozen
    by_contra free
    obtain ⟨moves, d, ran, released⟩ := exists_release sound free
    rw [frozen moves d ran] at released
    cases released
  · exact .of_deadlocked sound

/-- A selective receive has come to its matcher; then its messages are read. -/
def readWhileMatching : List ObserverMove :=
  [.start (.spawning .called), .step 0 (.draw 1), .step 0 .proceed, .ambient (1, .user [7]),
    .start (.taking 1 .polling), .step 1 .proceed, .step 1 .proceed, .start (.getting 1 .called), .step 2 .proceed]

theorem observers_freeze_readWhileMatching :
    ∃ c, (observerCalls fun _ => 0).machine.run ⟨.empty, []⟩ readWhileMatching = some c ∧
      c.threads = [.spawning (.returned 1), .taking 1 (.holding 0), .getting 1 .table] ∧ Frozen (fun _ => 0) c := by
  have ran : ∃ c, (observerCalls fun _ => 0).machine.run ⟨.empty, []⟩ readWhileMatching = some c ∧
      c.threads = [.spawning (.returned 1), .taking 1 (.holding 0), .getting 1 .table] ∧ 0 < c.shared.length 1 :=
    Machine.exists_of_check _ (by decide +kernel)
  obtain ⟨c, reached, threads, filled⟩ := ran
  refine ⟨c, reached, threads, (observers_freeze_iff _ readWhileMatching c reached).mpr ?_⟩
  exact .getting (by simp [threads]) (.inl rfl) ⟨.taking 1 (.holding 0), by simp [threads], rfl, filled⟩

end Myrmidon.Python
