import Myrmidon.Runtime.Inbox
import Myrmidon.Transition.Interleaving

namespace Myrmidon

open Data Transition

/-- An actor of `spawn_observed_handler`, and its vector in `observers`. What was
    ever pushed on the vector is kept in order besides. -/
structure Observed where
  inbox : Inbox
  messages : List Message
  recorded : List Message

/-- The loop of the actor. -/
inductive RecordStage where
  | receiving (stage : RecvStage)
  | pushing (message : Message)
  | yielding
  | ended
  deriving DecidableEq

inductive TakeStage where
  | polling
  | sleeping
  | returned (result : Option Message)
  deriving DecidableEq

/-- The actor, a call of `get_observed_messages`, and a call of
    `selective_recv_observed_py` with or without a timeout. -/
inductive Watcher where
  | recording (stage : RecordStage)
  | getting (result : Option (List Message))
  | taking (timeout : Bool) (stage : TakeStage)
  deriving DecidableEq

/-- The answers of the matcher in the order in which it is asked, and whether the timeout is over. -/
structure WatchInput where
  answers : List Bool
  elapsed : Bool

namespace Observed

/-- `take_observed_message_matching`: the vector is locked from the search to the removal. -/
def takeMatching (s : Observed) (answers : List Bool) : Option (Message × Observed) :=
  ((answers.take s.messages.length).findIdx? id).bind fun pos =>
    (s.messages[pos]?).map fun message => (message, { s with messages := s.messages.eraseIdx pos })

end Observed

def RecordStage.step (s : Observed) : RecordStage → Option (Observed × RecordStage)
  | .receiving (.returned (some message)) => some (s, .pushing message)
  | .receiving (.returned none) => some ({ s with inbox := s.inbox.close }, .ended)
  | .receiving stage =>
    let (inbox, stage) := s.inbox.recv stage
    some ({ s with inbox }, .receiving stage)
  | .pushing message =>
    some ({ s with messages := s.messages ++ [message], recorded := s.recorded ++ [message] }, .yielding)
  | .yielding => some (s, .receiving .idle)
  | .ended => none

def Watcher.step (s : Observed) (w : Watcher) (input : WatchInput) : Option (Observed × Watcher) :=
  match w with
  | .recording stage => (stage.step s).map fun (s, stage) => (s, .recording stage)
  | .getting none => some (s, .getting (some s.messages))
  | .getting (some _) => none
  | .taking timeout .polling =>
    match s.takeMatching input.answers with
    | some (message, s) => some (s, .taking timeout (.returned (some message)))
    | none => some (s, .taking timeout .sleeping)
  | .taking timeout .sleeping =>
    some (s, .taking timeout (if timeout && input.elapsed then .returned none else .polling))
  | .taking _ (.returned _) => none

def Watcher.isCall : Watcher → Bool
  | .getting none | .taking _ .polling => true
  | _ => false

/-- An observed actor with any number of calls that read or take what it has recorded. -/
def observation : Program Observed Watcher WatchInput InboxCall where
  starts := Watcher.isCall
  step _ s w input := (w.step s input).map fun (s, w) => (s, w, [])
  ambient s operation := some { s with inbox := s.inbox.call operation }

abbrev ObservedMove := Move Watcher WatchInput InboxCall

/-- `spawn_observed_handler`. -/
def startObserved : Config Observed Watcher := ⟨⟨.new, [], []⟩, [.recording (.receiving .idle)]⟩

/-- The message between the mailbox and the vector. -/
def RecordStage.hand : RecordStage → List Message
  | .receiving stage => stage.hand
  | .pushing message => [message]
  | .yielding | .ended => []

/-- The message a call has taken. -/
def Watcher.result : Watcher → Option Message
  | .taking _ (.returned result) => result
  | _ => none

/-- Every accepted message is recorded, in hand or still queued, in the order of
    its class. -/
structure Recorded (s : Observed) (stage : RecordStage) : Prop where
  ordered : s.inbox.InOrder s.recorded stage.hand
  receives : ∀ receiver, stage = .receiving receiver → receiver.Receives
  stopped : stage = .receiving (.returned none) ∨ stage = .ended → s.inbox.listed = false

/-- Every recorded message is in the vector, in the order of the records, or the
    answer of exactly one call. -/
structure Collected (s : Observed) (calls : List Watcher) : Prop where
  apart : ∀ stage, Watcher.recording stage ∉ calls
  kept : s.messages.Sublist s.recorded
  claimed : (s.messages ++ calls.filterMap Watcher.result).Perm s.recorded
  seen : ∀ messages, Watcher.getting (some messages) ∈ calls → messages.Sublist s.recorded
  timed : ∀ timeout, Watcher.taking timeout (.returned none) ∈ calls → timeout = true

/-- Everything the loop of the actor can do. -/
inductive RecordStage.Steps (s : Observed) : RecordStage → Observed → RecordStage → Prop where
  | answered {message : Message} : Steps s (.receiving (.returned (some message))) s (.pushing message)
  | finished : Steps s (.receiving (.returned none)) { s with inbox := s.inbox.close } .ended
  | received {receiver : RecvStage} (unanswered : receiver.Unanswered) :
      Steps s (.receiving receiver) { s with inbox := (s.inbox.recv receiver).1 }
        (.receiving (s.inbox.recv receiver).2)
  | pushed {message : Message} :
      Steps s (.pushing message)
        { s with messages := s.messages ++ [message], recorded := s.recorded ++ [message] } .yielding
  | resumed : Steps s .yielding s (.receiving .idle)

section

variable {s later : Observed} {stage next : RecordStage} {calls before after : List Watcher} {w following : Watcher}
  {timeout : Bool}

theorem RecordStage.steps_of_step (stepped : stage.step s = some (later, next)) : Steps s stage later next := by
  cases stage with
  | receiving receiver =>
    cases receiver with
    | returned result =>
      cases result with
      | none =>
        cases stepped
        exact .finished
      | some message =>
        cases stepped
        exact .answered
    | _ =>
      cases stepped
      exact .received trivial
  | pushing message =>
    cases stepped
    exact .pushed
  | yielding =>
    cases stepped
    exact .resumed
  | ended => cases stepped

theorem Recorded.step (recorded : Recorded s stage) (steps : stage.Steps s later next) : Recorded later next := by
  obtain ⟨ordered, receives, stopped⟩ := recorded
  cases steps with
  | answered => exact ⟨ordered, by simp, by simp⟩
  | finished => exact ⟨ordered.close, by simp, fun _ => stopped (.inl rfl)⟩
  | @received receiver unanswered =>
    obtain ⟨ordered, kind, told⟩ := ordered.recv (receives receiver rfl) unanswered
    refine ⟨ordered, ?_, ?_⟩
    · intro other same
      cases same
      exact kind
    · intro finished
      have ending : (s.inbox.recv receiver).2 = .returned none := by simpa using finished
      exact told ending
  | pushed => exact ⟨ordered.finish, by simp, by simp⟩
  | resumed =>
    refine ⟨ordered, ?_, by simp⟩
    intro receiver same
    cases same
    trivial

theorem Collected.record (taken : Collected s calls) (steps : stage.Steps s later next) : Collected later calls := by
  obtain ⟨apart, kept, claimed, seen, timed⟩ := taken
  cases steps with
  | @pushed message =>
    refine ⟨apart, kept.append_right [message], ?_, ?_, timed⟩
    · have moved : (s.messages ++ [message] ++ calls.filterMap Watcher.result).Perm
          (s.messages ++ calls.filterMap Watcher.result ++ [message]) := by
        rw [List.append_assoc, List.append_assoc]
        exact List.perm_append_comm.append_left s.messages
      exact moved.trans (claimed.append_right [message])
    · intro messages member
      exact (seen messages member).trans (List.sublist_append_left _ _)
  | _ => exact ⟨apart, kept, claimed, seen, timed⟩

/-- What a call of a reader does: it copies the vector, takes one message out of it, or looks and waits. -/
inductive Watcher.Calls (s : Observed) : Watcher → Observed → Watcher → Prop where
  | got : Calls s (.getting none) s (.getting (some s.messages))
  | took {timeout : Bool} {pos : Nat} {message : Message} (found : s.messages[pos]? = some message) :
      Calls s (.taking timeout .polling) { s with messages := s.messages.eraseIdx pos }
        (.taking timeout (.returned (some message)))
  | missed {timeout : Bool} : Calls s (.taking timeout .polling) s (.taking timeout .sleeping)
  | woke {timeout : Bool} : Calls s (.taking timeout .sleeping) s (.taking timeout .polling)
  | timedOut : Calls s (.taking true .sleeping) s (.taking true (.returned none))

theorem Watcher.calls_of_step {input : WatchInput} (stepped : w.step s input = some (later, following)) :
    (∃ stage next, w = .recording stage ∧ following = .recording next ∧ stage.Steps s later next) ∨
      Calls s w later following := by
  cases w with
  | recording stage =>
    obtain ⟨⟨_, next⟩, taken, same⟩ := Option.map_eq_some_iff.mp stepped
    cases same
    exact .inl ⟨stage, next, rfl, rfl, RecordStage.steps_of_step taken⟩
  | getting result =>
    cases result with
    | none =>
      cases stepped
      exact .inr .got
    | some messages => cases stepped
  | taking timeout stage =>
    right
    cases stage with
    | polling =>
      simp only [step] at stepped
      split at stepped
      · rename_i message observed found
        cases stepped
        obtain ⟨pos, -, there⟩ := Option.bind_eq_some_iff.mp found
        obtain ⟨value, present, same⟩ := Option.map_eq_some_iff.mp there
        cases same
        exact .took present
      · cases stepped
        exact .missed
    | sleeping =>
      cases stepped
      cases timeout with
      | false => exact .woke
      | true =>
        cases input.elapsed with
        | false => exact .woke
        | true => exact .timedOut
    | returned result => cases stepped

theorem Recorded.call (recorded : Recorded s stage) (calls : w.Calls s later following) : Recorded later stage := by
  obtain ⟨ordered, receives, stopped⟩ := recorded
  cases calls <;> exact ⟨ordered, receives, stopped⟩

theorem results_split (before after : List Watcher) (w : Watcher) :
    ((before ++ w :: after).filterMap Watcher.result).Perm
      (w.result.toList ++ (before ++ after).filterMap Watcher.result) := by
  have middle : (before ++ w :: after).Perm (w :: (before ++ after)) := List.perm_middle
  have moved := middle.filterMap Watcher.result
  rw [List.filterMap_cons] at moved
  cases result : w.result <;> rw [result] at moved <;> exact moved

/-- A call that has got no message yet. -/
theorem Collected.waits (taken : Collected s (before ++ w :: after)) (idle : w.result = none)
    (still : following.result = none)
    (reader : ∀ stage, following ≠ .recording stage)
    (seen : ∀ messages, following = .getting (some messages) → messages.Sublist s.recorded)
    (timed : ∀ timeout, following = .taking timeout (.returned none) → timeout = true) :
    Collected s (before ++ following :: after) := by
  have others : ∀ other ∈ before ++ following :: after, other = following ∨ other ∈ before ++ w :: after := by
    intro other member
    rw [List.mem_append, List.mem_cons] at member ⊢
    tauto
  refine ⟨?_, taken.kept, ?_, ?_, ?_⟩
  · intro stage member
    rcases others _ member with mine | other
    · exact reader stage mine.symm
    · exact taken.apart stage other
  · have same : ((before ++ following :: after).filterMap Watcher.result).Perm
        ((before ++ w :: after).filterMap Watcher.result) := by
      have old := results_split before after w
      have new := results_split before after following
      rw [idle] at old
      rw [still] at new
      exact new.trans old.symm
    exact (same.append_left s.messages).trans taken.claimed
  · intro messages member
    rcases others _ member with mine | other
    · exact seen messages mine.symm
    · exact taken.seen messages other
  · intro timeout member
    rcases others _ member with mine | other
    · exact timed timeout mine.symm
    · exact taken.timed timeout other

theorem Collected.begin (taken : Collected s calls) (fresh : w.isCall = true) : Collected s (calls ++ [w]) := by
  have others : ∀ other ∈ calls ++ [w], other = w ∨ other ∈ calls := by
    intro other member
    rw [List.mem_append, List.mem_singleton] at member
    exact member.symm
  have idle : [w].filterMap Watcher.result = [] := by
    cases w with
    | recording stage => cases fresh
    | getting result => rfl
    | taking timeout stage => cases stage <;> first | rfl | cases fresh
  refine ⟨?_, taken.kept, ?_, ?_, ?_⟩
  · intro stage member
    rcases others _ member with rfl | other
    · cases fresh
    · exact taken.apart stage other
  · rw [List.filterMap_append, idle, List.append_nil]
    exact taken.claimed
  · intro messages member
    rcases others _ member with rfl | other
    · cases fresh
    · exact taken.seen messages other
  · intro timeout member
    rcases others _ member with rfl | other
    · cases fresh
    · exact taken.timed timeout other

theorem Collected.take (taken : Collected s (before ++ .taking timeout .polling :: after)) {pos : Nat}
    {message : Message}
    (found : s.messages[pos]? = some message) :
    Collected { s with messages := s.messages.eraseIdx pos }
      (before ++ .taking timeout (.returned (some message)) :: after) := by
  have others : ∀ other ∈ before ++ Watcher.taking timeout (.returned (some message)) :: after,
      other = .taking timeout (.returned (some message)) ∨ other ∈ before ++ .taking timeout .polling :: after := by
    intro other member
    rw [List.mem_append, List.mem_cons] at member ⊢
    tauto
  refine ⟨?_, (List.eraseIdx_sublist _ _).trans taken.kept, ?_, ?_, ?_⟩
  · intro stage member
    rcases others _ member with mine | other
    · cases mine
    · exact taken.apart stage other
  · obtain ⟨inside, value⟩ := List.getElem?_eq_some_iff.mp found
    have split := List.getElem_cons_eraseIdx_perm inside
    rw [value] at split
    have old := results_split before after (.taking timeout .polling)
    have new := results_split before after (.taking timeout (.returned (some message)))
    have claimed := taken.claimed
    rw [List.perm_iff_count] at split old new claimed ⊢
    intro other
    have split := split other
    have old := old other
    have new := new other
    have claimed := claimed other
    simp only [List.count_append, List.count_cons, Watcher.result, Option.toList, List.count_nil]
      at split old new claimed ⊢
    omega
  · intro messages member
    rcases others _ member with mine | other
    · cases mine
    · exact taken.seen messages other
  · intro own member
    rcases others _ member with mine | other
    · cases mine
    · exact taken.timed own other

theorem Collected.call (taken : Collected s (before ++ w :: after)) (calls : w.Calls s later following) :
    Collected later (before ++ following :: after) := by
  cases calls with
  | got =>
    apply taken.waits rfl rfl (by simp) _ (by simp)
    intro messages same
    cases same
    exact taken.kept
  | took found => exact taken.take found
  | missed => exact taken.waits rfl rfl (by simp) (by simp) (by simp)
  | woke => exact taken.waits rfl rfl (by simp) (by simp) (by simp)
  | timedOut =>
    apply taken.waits rfl rfl (by simp) (by simp)
    intro timeout same
    cases same
    rfl

theorem Recorded.inbox (recorded : Recorded s stage) (operation : InboxCall) :
    Recorded { s with inbox := s.inbox.call operation } stage :=
  ⟨recorded.ordered.call operation, recorded.receives,
    fun ended => Inbox.listed_call operation (recorded.stopped ended)⟩

theorem Collected.inbox (taken : Collected s calls) (inbox : Inbox) : Collected { s with inbox } calls :=
  ⟨taken.apart, taken.kept, taken.claimed, taken.seen, taken.timed⟩

end

/-- The loop of the actor and the calls beside it, and where the messages are. -/
def Custody (c : Config Observed Watcher) : Prop :=
  ∃ stage calls, c.threads = .recording stage :: calls ∧ Recorded c.shared stage ∧ Collected c.shared calls

theorem Custody.move {c d : Config Observed Watcher} {move : ObservedMove} (custody : Custody c)
    (moves : observation.Moves c move d) : Custody d := by
  obtain ⟨stage, calls, threads, recorded, taken⟩ := custody
  cases moves with
  | @start s workers w allowed =>
    subst threads
    exact ⟨stage, calls ++ [w], rfl, recorded, taken.begin allowed⟩
  | @step s later before after new w next input stepped =>
    obtain ⟨⟨_, _⟩, done, same⟩ := Option.map_eq_some_iff.mp stepped
    cases same
    rw [List.append_nil]
    cases before with
    | nil =>
      cases threads
      rcases Watcher.calls_of_step done with ⟨_, following, same, rfl, steps⟩ | called
      · cases same
        exact ⟨following, calls, rfl, recorded.step steps, taken.record steps⟩
      · cases called
    | cons first before =>
      cases threads
      rcases Watcher.calls_of_step done with ⟨other, following, rfl, rfl, steps⟩ | called
      · exact absurd (by simp) (taken.apart other)
      · exact ⟨stage, before ++ next :: after, rfl, recorded.call called, taken.call called⟩
  | @ambient s later workers operation done =>
    cases done
    exact ⟨stage, calls, threads, recorded.inbox operation, taken.inbox _⟩

/-- Two sends; a selective receive takes the second message once both are in the vector. -/
def takeSecond : List ObservedMove :=
  [.ambient (.send (.user [1])), .ambient (.send (.user [2])), .start (.taking true .polling),
    .start (.getting none)] ++ List.replicate 22 (.step 0 ⟨[], false⟩) ++
      [.step 2 ⟨[], false⟩, .step 1 ⟨[false, true], false⟩]

end Myrmidon
